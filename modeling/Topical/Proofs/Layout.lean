import Topical.Pattern.Basic
import Topical.Proofs.Spelling
/-!
# The segments of a pattern

What is true of the segments of every compiled pattern and not of every list of segments: there is one at least, only
the last is a multi-level wildcard, and each is what its own text writes, which holds no slash.
-/
namespace Topical

/-- Segments as a text with levels writes them. -/
structure IsLayout (segments : List Segment) : Prop where
  ne_nil : segments ≠ []
  multi_last : ∀ s ∈ segments.dropLast, s.isMulti = false
  slash_notMem : ∀ s ∈ segments, '/' ∉ s.asPattern
  ofLevel_eq : ∀ s ∈ segments, Segment.ofLevel s.asPattern = s

namespace Segment

theorem asPattern_ofLevel (level : Text) : (ofLevel level).asPattern = level := by
  unfold ofLevel
  split <;> rfl

theorem multi_last_cons {s : Segment} {rest : List Segment} :
    (∀ x ∈ (s :: rest).dropLast, x.isMulti = false) ↔
      (rest ≠ [] → s.isMulti = false) ∧ ∀ x ∈ rest.dropLast, x.isMulti = false := by
  cases rest <;> simp

theorem ofLevels_cons (whole level : Text) (levels : List Text) :
    ofLevels whole (level :: levels) = (do
      let rest ← ofLevels whole levels
      let s ← classify whole level rest.isEmpty
      return s :: rest) := rfl

/-- **A list of levels is refused only for a multi-level wildcard before the last.** -/
theorem ofLevels_eq_ok_iff (whole : Text) (levels : List Text) (segments : List Segment) :
    ofLevels whole levels = .ok segments ↔
      segments = levels.map ofLevel ∧ ∀ s ∈ segments.dropLast, s.isMulti = false := by
  induction levels generalizing segments with
  | nil => cases segments <;> simp [ofLevels]
  | cons level levels ih =>
    rw [ofLevels_cons]
    cases hrest : ofLevels whole levels with
    | error e =>
      -- what is refused at a later level is refused here
      refine iff_of_false (fun h => by cases h) fun ⟨hs, hlast⟩ => ?_
      rw [hs, List.map_cons, multi_last_cons] at hlast
      rw [(ih _).2 ⟨rfl, hlast.2⟩] at hrest
      cases hrest
    | ok rest =>
      obtain ⟨rfl, hlast⟩ := (ih rest).1 hrest
      by_cases hm : ((ofLevel level).isMulti && !(levels.map ofLevel).isEmpty) = true
      · have hbad : classify whole level (levels.map ofLevel).isEmpty = .error (.hashPosition whole) := if_pos hm
        simp only [bind, Except.bind, hbad]
        rw [Bool.and_eq_true, Bool.not_eq_true', List.isEmpty_eq_false_iff] at hm
        refine iff_of_false (fun h => by cases h) fun ⟨hs, hall⟩ => ?_
        rw [hs, List.map_cons, multi_last_cons] at hall
        rw [hall.1 hm.2] at hm
        cases hm.1
      · have hok : classify whole level (levels.map ofLevel).isEmpty = .ok (ofLevel level) := if_neg hm
        have hfirst : levels.map ofLevel ≠ [] → (ofLevel level).isMulti = false := by
          intro hne
          rw [Bool.and_eq_true, Bool.not_eq_true', List.isEmpty_eq_false_iff, not_and'] at hm
          exact Bool.eq_false_iff.2 (hm hne)
        simp only [bind, Except.bind, hok, pure, Except.pure, Except.ok.injEq, List.map_cons]
        constructor
        · rintro rfl
          exact ⟨rfl, multi_last_cons.2 ⟨hfirst, hlast⟩⟩
        · rintro ⟨rfl, -⟩
          rfl

end Segment

theorem IsLayout.tail {s : Segment} {rest : List Segment} (h : IsLayout (s :: rest)) (hne : rest ≠ []) :
    IsLayout rest :=
  ⟨hne, (Segment.multi_last_cons.1 h.multi_last).2, fun x hx => h.slash_notMem x (List.mem_cons_of_mem _ hx),
    fun x hx => h.ofLevel_eq x (List.mem_cons_of_mem _ hx)⟩

namespace Pattern

variable [Engine]

theorem segments_eq_map (p : Pattern) : p.segments = (splitLevels p.text).map Segment.ofLevel :=
  ((Segment.ofLevels_eq_ok_iff _ _ _).1 p.segments_eq).1

/-- **Every pattern is one that its text compiles to.** -/
theorem compile_text (p : Pattern) : compile p.text = .ok p := by
  obtain ⟨text, segments, matcher, hs, hm⟩ := p
  unfold compile
  split
  · rename_i e he
    rw [hs] at he
    cases he
  · rename_i segments' hs'
    obtain rfl := Except.ok.inj (hs.symm.trans hs')
    split
    · rename_i e he
      rw [hm] at he
      cases he
    · rename_i matcher' hm'
      obtain rfl := Except.ok.inj (hm.symm.trans hm')
      rfl

/-- **The segments of a pattern are a layout.** -/
theorem isLayout (p : Pattern) : IsLayout p.segments where
  ne_nil := by
    rw [segments_eq_map]
    simpa using splitLevels_ne_nil p.text
  multi_last := ((Segment.ofLevels_eq_ok_iff _ _ _).1 p.segments_eq).2
  slash_notMem s hs := by
    rw [segments_eq_map] at hs
    obtain ⟨level, hl, rfl⟩ := List.mem_map.1 hs
    rw [Segment.asPattern_ofLevel]
    exact slash_notMem_of_mem_splitLevels hl
  ofLevel_eq s hs := by
    rw [segments_eq_map] at hs
    obtain ⟨level, hl, rfl⟩ := List.mem_map.1 hs
    rw [Segment.asPattern_ofLevel]

end Pattern
end Topical
