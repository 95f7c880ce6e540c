import Topical.Proofs.Subscription
/-!
# Segments without their names

Neither the filter of a pattern nor its expression shows the names of the wildcards, and each shows all else: the
filter is split at its slashes (`Pattern.filter_eq_iff`), and the pieces that the expression says are told apart one
after another, a literal by the slash behind it and a wildcard by its group (`Segment.pieces_append_inj`).  So patterns
with one filter are those with one expression.
-/
namespace Topical

open Regex (char group)

namespace Segment

/-- The segment without its name. -/
def unnamed : Segment → Segment
  | literal text => literal text
  | single _ => single []
  | multi _ => multi []

theorem asPattern_unnamed (s : Segment) : s.unnamed.asPattern = s.asFilter := by
  cases s <;> rfl

theorem ofLevel_asFilter {s : Segment} (h : ofLevel s.asPattern = s) : ofLevel s.asFilter = s.unnamed := by
  cases s with
  | literal text => exact h
  | single name | multi name => rfl

theorem groups_unnamed (s : Segment) : s.unnamed.groups = s.groups := by
  cases s <;> rfl

theorem isTail_map_unnamed (rest : List Segment) : isTail (rest.map unnamed) = isTail rest := by
  match rest with
  | [] => rfl
  | [s] => cases s <;> rfl
  | s :: _ :: _ => cases s <;> rfl

theorem fragment_unnamed (s : Segment) (rest : List Segment) :
    s.unnamed.fragment (rest.map unnamed) = s.fragment rest := by
  rw [fragment_eq, fragment_eq, isTail_map_unnamed]
  cases s <;> rfl

end Segment

theorem expression_map_unnamed (segments : List Segment) :
    expression (segments.map Segment.unnamed) = expression segments := by
  have hfragments : fragments (segments.map Segment.unnamed) = fragments segments := by
    induction segments with
    | nil => rfl
    | cons s rest ih => rw [List.map_cons, fragments_cons, fragments_cons, Segment.fragment_unnamed, ih]
  rw [expression, expression, hfragments]

/-! ## Telling pieces apart -/

namespace Segment

variable {tail tail' : Bool} {n : Nat} {rs rs' : List Regex}

theorem char_ne_slash {c : Char} (h : c ≠ '/') : char c ≠ slash tail := by
  cases tail with
  | false => simpa [char, slash] using h
  | true => simp [char, slash]

/-- A literal ends where the slash after it is tested. -/
theorem map_char_append_inj {text text' : Text} (h : '/' ∉ text) (h' : '/' ∉ text')
    (heq : text.map char ++ slash tail :: rs = text'.map char ++ slash tail' :: rs') : text = text' ∧ rs = rs' := by
  induction text generalizing text' with
  | nil =>
    cases text' with
    | nil => exact ⟨rfl, (List.cons.inj heq).2⟩
    | cons c' text' =>
      have hc' : c' ≠ '/' := fun he => h' (he ▸ List.mem_cons_self)
      exact absurd (List.cons.inj heq).1.symm (char_ne_slash hc')
  | cons c text ih =>
    have hc : c ≠ '/' := fun he => h (he ▸ List.mem_cons_self)
    cases text' with
    | nil => exact absurd (List.cons.inj heq).1 (char_ne_slash hc)
    | cons c' text' =>
      obtain ⟨hhead, htail⟩ := List.cons.inj heq
      obtain rfl : c = c' := by simpa [char] using hhead
      have htext : '/' ∉ text := fun hm => h (List.mem_cons_of_mem _ hm)
      have htext' : '/' ∉ text' := fun hm => h' (List.mem_cons_of_mem _ hm)
      obtain ⟨rfl, hrs⟩ := ih htext htext' htail
      exact ⟨rfl, hrs⟩

theorem map_char_append_ne_group (text : Text) (k : Nat) (r : Regex) :
    text.map char ++ slash tail :: rs ≠ group k r :: rs' := by
  intro heq
  cases text with
  | nil => cases tail <;> simp [slash, char, group] at heq
  | cons c text => simp [char, group] at heq

/-- **The first segment is told from what its pieces and those after them say**, but for its name. -/
theorem pieces_append_inj {s s' : Segment} (hs : '/' ∉ s.asPattern) (hs' : '/' ∉ s'.asPattern)
    (h : s.pieces tail n ++ rs = s'.pieces tail' n ++ rs') : s.unnamed = s'.unnamed ∧ rs = rs' := by
  have hliteral : ∀ text tail rs, (literal text).pieces tail n ++ rs = text.map char ++ slash tail :: rs :=
    fun text tail rs => by rw [pieces, List.append_assoc]; rfl
  -- the first piece tells the kinds apart: a test, a group around a level, a group around a repetition
  cases s with
  | literal text =>
    rw [hliteral] at h
    cases s' with
    | literal text' =>
      rw [hliteral] at h
      obtain ⟨rfl, hrs⟩ := map_char_append_inj hs hs' h
      exact ⟨rfl, hrs⟩
    | single name | multi name => exact absurd h (map_char_append_ne_group text _ _)
  | single name =>
    cases s' with
    | literal text' =>
      rw [hliteral] at h
      exact absurd h.symm (map_char_append_ne_group text' _ _)
    | single name' => exact ⟨rfl, (List.cons.inj h).2⟩
    | multi name' => simp [pieces, group, level, Regex.ofList, Regex.plus] at h
  | multi name =>
    cases s' with
    | literal text' =>
      rw [hliteral] at h
      exact absurd h.symm (map_char_append_ne_group text' _ _)
    | single name' => simp [pieces, group, level, Regex.ofList, Regex.plus] at h
    | multi name' => exact ⟨rfl, (List.cons.inj h).2⟩

theorem pieces_ne_nil (s : Segment) : s.pieces tail n ≠ [] := by
  cases s <;> simp [pieces]

end Segment

/-- **The segments are told from what their fragments say**, but for their names. -/
theorem map_unnamed_eq_of_piecesOf_eq {segments segments' : List Segment} {n : Nat}
    (hslash : ∀ s ∈ segments, '/' ∉ s.asPattern) (hslash' : ∀ s ∈ segments', '/' ∉ s.asPattern)
    (h : piecesOf segments n = piecesOf segments' n) :
    segments.map Segment.unnamed = segments'.map Segment.unnamed := by
  -- on both lists at once, with the number of groups before them general
  induction segments generalizing segments' n with
  | nil =>
    cases segments' with
    | nil => rfl
    | cons s' rest' => exact absurd (List.append_eq_nil_iff.1 h.symm).1 s'.pieces_ne_nil
  | cons s rest ih =>
    cases segments' with
    | nil => exact absurd (List.append_eq_nil_iff.1 h).1 s.pieces_ne_nil
    | cons s' rest' =>
      obtain ⟨hs, hrest⟩ := List.forall_mem_cons.1 hslash
      obtain ⟨hs', hrest'⟩ := List.forall_mem_cons.1 hslash'
      obtain ⟨hfirst, hafter⟩ := Segment.pieces_append_inj hs hs' h
      have hgroups : s.groups = s'.groups := by rw [← s.groups_unnamed, hfirst, s'.groups_unnamed]
      rw [← hgroups] at hafter
      rw [List.map_cons, List.map_cons, hfirst, ih hrest hrest' hafter]

theorem piecesOf_eq_of_expression_eq {segments segments' : List Segment}
    (h : expression segments = expression segments') : piecesOf segments 0 = piecesOf segments' 0 := by
  have hread := congrArg Regex.read h
  rw [read_expression, read_expression, Option.some.injEq, Prod.mk.injEq] at hread
  obtain ⟨hpieces, -⟩ := hread
  exact List.append_cancel_right (List.cons.inj hpieces).2

/-! ## Patterns -/

namespace Pattern

variable [Engine]

theorem source_eq_expression (p : Pattern) : p.matcher.source = expression p.segments := by
  rw [Matcher.ofSegments_ok p.matcher_eq]

/-- The filter is what the segments write without their names. -/
theorem filter_eq_joinLevels (p : Pattern) :
    p.filter = joinLevels ((p.segments.map Segment.unnamed).map Segment.asPattern) := by
  rw [filter, List.map_map]
  exact congrArg joinLevels (List.map_congr_left fun s _ => s.asPattern_unnamed.symm)

/-- **The filter shows the segments without their names.** -/
theorem filter_eq_iff (p q : Pattern) :
    p.filter = q.filter ↔ p.segments.map Segment.unnamed = q.segments.map Segment.unnamed := by
  have hread : ∀ p : Pattern, (splitLevels p.filter).map Segment.ofLevel = p.segments.map Segment.unnamed := by
    intro p
    rw [splitLevels_filter, List.map_map]
    exact List.map_congr_left fun s hs => Segment.ofLevel_asFilter (p.isLayout.ofLevel_eq s hs)
  constructor
  · intro h
    rw [← hread p, h, hread q]
  · intro h
    rw [filter_eq_joinLevels p, h, ← filter_eq_joinLevels q]

/-- **The expression shows the segments without their names.** -/
theorem source_eq_iff (p q : Pattern) :
    p.matcher.source = q.matcher.source ↔ p.segments.map Segment.unnamed = q.segments.map Segment.unnamed := by
  rw [source_eq_expression, source_eq_expression]
  constructor
  · intro h
    exact map_unnamed_eq_of_piecesOf_eq p.isLayout.slash_notMem q.isLayout.slash_notMem (piecesOf_eq_of_expression_eq h)
  · intro h
    rw [← expression_map_unnamed p.segments, h, expression_map_unnamed]

theorem matcher_eq_iff (p q : Pattern) : p.matcher = q.matcher ↔ p.matcher.source = q.matcher.source := by
  constructor
  · exact congrArg Matcher.source
  · intro h
    rw [source_eq_expression, source_eq_expression] at h
    have hp : Matcher.ofSource (expression p.segments) = .ok p.matcher := p.matcher_eq
    have hq : Matcher.ofSource (expression q.segments) = .ok q.matcher := q.matcher_eq
    rw [h, hq] at hp
    exact (Except.ok.inj hp).symm

/-- Patterns with one filter run one matcher. -/
theorem matcher_eq_of_filter_eq {p q : Pattern} (h : q.filter = p.filter) : q.matcher = p.matcher :=
  (matcher_eq_iff q p).2 ((source_eq_iff q p).2 ((filter_eq_iff q p).1 h))

theorem exec_eq_of_filter_eq {p q : Pattern} (h : q.filter = p.filter) (t : Text) : q.exec t = p.exec t :=
  congrArg (Matcher.exec · t) (matcher_eq_of_filter_eq h)

/-- **Patterns share a filter if and only if they share an expression**, which is if they run the same matcher, and if
they differ in the names of their wildcards at most. -/
theorem filter_eq_iff_source_eq (p q : Pattern) :
    (p.filter = q.filter ↔ p.matcher.source = q.matcher.source) ∧
    (p.filter = q.filter ↔ p.matcher = q.matcher) ∧
    (p.filter = q.filter ↔ p.segments.map Segment.unnamed = q.segments.map Segment.unnamed) := by
  refine ⟨?_, ?_, filter_eq_iff p q⟩
  · rw [filter_eq_iff, source_eq_iff]
  · rw [filter_eq_iff, matcher_eq_iff, source_eq_iff]

end Pattern
end Topical
