import Topical.Proofs.Expression
import Topical.Proofs.Layout
/-!
# Texts and segments

A text that compiles and its segments tell each other: the segments write the text, and a list of segments is what
the text that it writes compiles to, unless the engine refuses it for its size (`Pattern.text_segments_bijection`).
Which lists come about is said here without the reader: no slash in a segment, no marker before a literal, and a
multi-level wildcard at the end only (`Writable`).
-/
namespace Topical

/-- Segments that a text can write. -/
structure Writable (segments : List Segment) : Prop where
  slash_notMem : ∀ s ∈ segments, '/' ∉ s.asPattern
  unmarked : ∀ text, .literal text ∈ segments → text.head? ≠ some '+' ∧ text.head? ≠ some '#'
  multi_last : ∀ s ∈ segments.dropLast, s.isMulti = false

theorem Segment.ofLevel_eq_literal_iff {text : Text} :
    ofLevel text = literal text ↔ text.head? ≠ some '+' ∧ text.head? ≠ some '#' := by
  unfold ofLevel
  split
  · simp
  · simp
  · rename_i hsingle hmulti
    refine iff_of_true rfl ⟨fun h => ?_, fun h => ?_⟩
    · obtain ⟨name, rfl⟩ := List.head?_eq_some_iff.1 h
      exact hsingle name rfl
    · obtain ⟨name, rfl⟩ := List.head?_eq_some_iff.1 h
      exact hmulti name rfl

variable {segments : List Segment}

theorem isLayout_iff_writable : IsLayout segments ↔ segments ≠ [] ∧ Writable segments := by
  constructor
  · intro h
    refine ⟨h.ne_nil, h.slash_notMem, fun text hs => ?_, h.multi_last⟩
    exact Segment.ofLevel_eq_literal_iff.1 (h.ofLevel_eq _ hs)
  · rintro ⟨hne, h⟩
    refine ⟨hne, h.multi_last, h.slash_notMem, fun s hs => ?_⟩
    cases s with
    | literal text => exact Segment.ofLevel_eq_literal_iff.2 (h.unmarked text hs)
    | single name | multi name => rfl

/-- **Writable segments are read back** from the text that they write. -/
theorem IsLayout.ofLevels_eq (h : IsLayout segments) :
    Segment.ofLevels (joinLevels (segments.map Segment.asPattern))
      (splitLevels (joinLevels (segments.map Segment.asPattern))) = .ok segments := by
  have hslash : ∀ l ∈ segments.map Segment.asPattern, '/' ∉ l := by
    intro l hl
    obtain ⟨s, hs, rfl⟩ := List.mem_map.1 hl
    exact h.slash_notMem s hs
  have hsplit : splitLevels (joinLevels (segments.map Segment.asPattern)) = segments.map Segment.asPattern :=
    splitLevels_joinLevels hslash (by simpa using h.ne_nil)
  have hback : (segments.map Segment.asPattern).map Segment.ofLevel = segments := by
    rw [List.map_map]
    exact (List.map_congr_left h.ofLevel_eq).trans (List.map_id _)
  rw [hsplit]
  exact (Segment.ofLevels_eq_ok_iff _ _ _).2 ⟨hback.symm, h.multi_last⟩

/-- A multi-level wildcard among the segments is the last of them. -/
theorem IsLayout.getLast?_any_isMulti (h : IsLayout segments) :
    segments.getLast?.any Segment.isMulti = true ↔ ∃ s ∈ segments, s.isMulti = true := by
  have hlast : segments.getLast? = some (segments.getLast h.ne_nil) := List.getLast?_eq_some_getLast h.ne_nil
  rw [hlast, Option.any_some]
  constructor
  · intro hmulti
    exact ⟨_, List.getLast_mem h.ne_nil, hmulti⟩
  · rintro ⟨s, hs, hmulti⟩
    rw [← List.dropLast_concat_getLast h.ne_nil] at hs
    rcases List.mem_append.1 hs with hs | hs
    · rw [h.multi_last s hs] at hmulti
      cases hmulti
    · obtain rfl := List.mem_singleton.1 hs
      exact hmulti

namespace Pattern

section

variable [Engine]

theorem text_of_compile {text : Text} {p : Pattern} (h : compile text = .ok p) : p.text = text := by
  unfold compile at h
  split at h
  · cases h
  · split at h
    · cases h
    · obtain rfl := Except.ok.inj h
      rfl

theorem joinLevels_map_asPattern (p : Pattern) : joinLevels (p.segments.map Segment.asPattern) = p.text := by
  have hlevels : p.segments.map Segment.asPattern = splitLevels p.text := by
    rw [segments_eq_map, List.map_map]
    exact (List.map_congr_left fun level _ => Segment.asPattern_ofLevel level).trans (List.map_id _)
  rw [hlevels, joinLevels_splitLevels]

theorem size_eq (p : Pattern) : p.size = p.text.count '/' + 1 := by
  rw [size, segments_eq_map, List.length_map, length_splitLevels]

/-- **Segments that a text can write compile to themselves**, unless the engine refuses them for their size. -/
theorem exists_compile_of_isLayout (h : IsLayout segments) (hweight : Matcher.ofSegments segments ≠ .error .tooHeavy) :
    ∃ p, compile (joinLevels (segments.map Segment.asPattern)) = .ok p ∧ p.segments = segments := by
  have hmatcher : ∃ matcher, Matcher.ofSegments segments = .ok matcher := by
    cases hm : Matcher.ofSegments segments with
    | error refusal =>
      obtain ⟨rfl, -⟩ := Matcher.ofSegments_eq_error_iff.1 hm
      exact absurd hm hweight
    | ok matcher => exact ⟨matcher, rfl⟩
  obtain ⟨matcher, hmatcher⟩ := hmatcher
  exact ⟨_, compile_text ⟨_, segments, matcher, h.ofLevels_eq, hmatcher⟩, rfl⟩

/-- **Texts and segments are in bijection.**  The segments of a text that compiles write it, there are as many as it has
levels, and they are writable.  Conversely, writable segments are those of the text that they write. -/
theorem text_segments_bijection :
    (∀ text p, compile text = .ok p →
      joinLevels (p.segments.map Segment.asPattern) = text ∧
      p.size = text.count '/' + 1 ∧ p.isEmpty = false ∧
      Writable p.segments ∧
      (p.endsInMulti = true ↔ ∃ s ∈ p.segments, s.isMulti = true)) ∧
    ∀ segments, segments ≠ [] → Writable segments → Matcher.ofSegments segments ≠ .error .tooHeavy →
      ∃ p, compile (joinLevels (segments.map Segment.asPattern)) = .ok p ∧ p.segments = segments := by
  constructor
  · intro text p h
    obtain rfl := text_of_compile h
    have hlayout := p.isLayout
    refine ⟨p.joinLevels_map_asPattern, p.size_eq, ?_, (isLayout_iff_writable.1 hlayout).2, ?_⟩
    · exact List.isEmpty_eq_false_iff.2 hlayout.ne_nil
    · exact hlayout.getLast?_any_isMulti
  · intro segments hne hwritable hweight
    exact exists_compile_of_isLayout (isLayout_iff_writable.2 ⟨hne, hwritable⟩) hweight

end

/-- Markers within names, a name that begins with one, empty levels at either end, and a first character that is not
ASCII. -/
theorem text_segments_bijection_markers :
    ∃ p, compile "/++/+a#/é#//#+".toList = .ok p ∧
      p.segments = [.literal [], .single ['+'], .single ['a', '#'], .literal ['é', '#'], .literal [], .multi ['+']] ∧
      joinLevels (p.segments.map Segment.asPattern) = "/++/+a#/é#//#+".toList ∧ Writable p.segments ∧
      Matcher.ofSegments p.segments ≠ .error .tooHeavy ∧
      ∃ q, compile (joinLevels (p.segments.map Segment.asPattern)) = .ok q ∧ q.segments = p.segments := by
  let segments : List Segment :=
    [.literal [], .single ['+'], .single ['a', '#'], .literal ['é', '#'], .literal [], .multi ['+']]
  let p : Pattern := ⟨"/++/+a#/é#//#+".toList, segments, ⟨_, _, _⟩, rfl, rfl⟩
  have hcompile : compile "/++/+a#/é#//#+".toList = .ok p := rfl
  obtain ⟨hjoin, -, -, hwritable, -⟩ := text_segments_bijection.1 _ p hcompile
  have hweight : Matcher.ofSegments p.segments ≠ .error .tooHeavy := by
    rw [p.matcher_eq]
    exact nofun
  exact ⟨p, hcompile, rfl, hjoin, hwritable, hweight,
    text_segments_bijection.2 p.segments p.isLayout.ne_nil hwritable hweight⟩

end Pattern
end Topical
