import Topical.Proofs.Compiling
import Topical.Proofs.Unnamed
/-!
# Patterns without names

A filter is a pattern itself.  It is read as the segments without their names, which can be written whenever the
segments can (`IsLayout.map_unnamed`) and have their expression, so the filter of a pattern compiles
(`Pattern.exists_compile_filter`).  The pattern that it compiles to is a normal form: it has the filter and the matcher
of the pattern, its own text is its filter, and it has no names to extract anything under
(`Pattern.exists_normalForm`).
-/
namespace Topical
namespace Segment

theorem isMulti_unnamed (s : Segment) : s.unnamed.isMulti = s.isMulti := by
  cases s <;> rfl

theorem isWildcard_unnamed (s : Segment) : s.unnamed.isWildcard = s.isWildcard := by
  cases s <;> rfl

theorem paramName?_unnamed (s : Segment) : s.unnamed.paramName? = none := by
  cases s <;> rfl

theorem unnamed_unnamed (s : Segment) : s.unnamed.unnamed = s.unnamed := by
  cases s <;> rfl

theorem slash_notMem_asFilter {s : Segment} (h : '/' ∉ s.asPattern) : '/' ∉ s.asFilter := by
  cases s with
  | literal text => exact h
  | single name | multi name => simp [asFilter]

end Segment

/-- **Segments without their names can be written too.** -/
theorem IsLayout.map_unnamed {segments : List Segment} (h : IsLayout segments) :
    IsLayout (segments.map Segment.unnamed) where
  ne_nil := by simpa using h.ne_nil
  multi_last := by
    rw [← List.map_dropLast, List.forall_mem_map]
    intro s hs
    rw [Segment.isMulti_unnamed]
    exact h.multi_last s hs
  slash_notMem := by
    rw [List.forall_mem_map]
    intro s hs
    rw [Segment.asPattern_unnamed]
    exact Segment.slash_notMem_asFilter (h.slash_notMem s hs)
  ofLevel_eq := by
    rw [List.forall_mem_map]
    intro s hs
    rw [Segment.asPattern_unnamed]
    exact Segment.ofLevel_asFilter (h.ofLevel_eq s hs)

theorem Matcher.ofSegments_map_unnamed [Engine] (segments : List Segment) :
    ofSegments (segments.map Segment.unnamed) = ofSegments segments := by
  unfold ofSegments
  rw [expression_map_unnamed]

/-- Wildcards without names add no parameters, whatever they capture. -/
theorem Extractor.extract_eq_empty {x : Extractor} (h : ∀ s ∈ x.wildcards, s.paramName? = none) (y : Match) :
    x.extract y = .empty := by
  have hnone : ((x.wildcards.zip y.captures).filterMap fun q => entry? q.1 q.2) = [] := by
    refine List.filterMap_eq_nil_iff.2 fun q hq => ?_
    have hname := map_fst_entry q.1 q.2
    rw [h q.1 (List.of_mem_zip hq).1] at hname
    exact Option.map_eq_none_iff.1 hname
  unfold extract
  rw [hnone]
  rfl

namespace Pattern

variable [Engine]

/-- **The filter of a pattern compiles**, and to the segments without their names. -/
theorem exists_compile_filter (p : Pattern) :
    ∃ q, compile p.filter = .ok q ∧ q.segments = p.segments.map Segment.unnamed := by
  have hweight : Matcher.ofSegments (p.segments.map Segment.unnamed) ≠ .error .tooHeavy := by
    rw [Matcher.ofSegments_map_unnamed, p.matcher_eq]
    exact nofun
  rw [filter_eq_joinLevels]
  exact exists_compile_of_isLayout p.isLayout.map_unnamed hweight

section

variable {p q : Pattern} (h : q.segments = p.segments.map Segment.unnamed)
include h

theorem filter_eq_of_unnamed : q.filter = p.filter := by
  have hunnamed : Segment.unnamed ∘ Segment.unnamed = Segment.unnamed := funext Segment.unnamed_unnamed
  rw [filter_eq_iff, h, List.map_map, hunnamed]

theorem endsInMulti_eq_of_unnamed : q.endsInMulti = p.endsInMulti := by
  unfold endsInMulti
  rw [h, List.getLast?_map, Option.any_map]
  exact congrArg (Option.any · _) (funext Segment.isMulti_unnamed)

theorem captureCount_eq_of_unnamed : q.extractor.captureCount = p.extractor.captureCount := by
  have hwild : Segment.isWildcard ∘ Segment.unnamed = Segment.isWildcard := funext Segment.isWildcard_unnamed
  show (q.segments.filter Segment.isWildcard).length = (p.segments.filter Segment.isWildcard).length
  rw [h, List.filter_map, List.length_map, hwild]

theorem paramName?_eq_none_of_unnamed : ∀ s ∈ q.segments, s.paramName? = none := by
  rw [h, List.forall_mem_map]
  exact fun s _ => s.paramName?_unnamed

end

/-- **The filter is the normal form of a pattern**: it compiles to a pattern with the same filter, which has the same
expression and as many levels and captures but no names.  It matches the same topics and captures the same of them, and
extracts no parameters. -/
theorem exists_normalForm (p : Pattern) :
    ∃ q, compile p.filter = .ok q ∧
      q.matcher.source = p.matcher.source ∧ q.filter = p.filter ∧ q.size = p.size ∧ q.endsInMulti = p.endsInMulti ∧
      q.extractor.captureCount = p.extractor.captureCount ∧ q.paramNames = [] ∧
      (∀ t, q.exec t = p.exec t) ∧ (∀ t, q.matchTopic t = (p.exec t).map fun _ => .empty) ∧
      compile q.filter = .ok q := by
  obtain ⟨q, hcompile, hsegments⟩ := p.exists_compile_filter
  have hfilter := filter_eq_of_unnamed hsegments
  have hnames := paramName?_eq_none_of_unnamed hsegments
  have hexec : ∀ t, q.exec t = p.exec t := exec_eq_of_filter_eq hfilter
  have hextract : ∀ y, q.extractor.extract y = .empty :=
    Extractor.extract_eq_empty fun s hs => hnames s (List.mem_filter.1 hs).1
  refine ⟨q, hcompile, congrArg Matcher.source (matcher_eq_of_filter_eq hfilter), hfilter, ?_,
    endsInMulti_eq_of_unnamed hsegments, captureCount_eq_of_unnamed hsegments, List.filterMap_eq_nil_iff.2 hnames,
    hexec, fun t => ?_, ?_⟩
  · unfold size
    rw [hsegments, List.length_map]
  · rw [matchTopic, hexec, funext hextract]
  · rw [hfilter, hcompile]

end Pattern
end Topical
