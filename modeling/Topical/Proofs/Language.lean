import Topical.Proofs.Backtracking
/-!
# What an expression takes

The texts that an expression without marks and anchors takes, said apart from any reader.  The backtracking reader
finds each front part of a text that the expression takes, and no other (`Regex.mem_ways_iff`).
-/
namespace Topical
namespace Regex

/-- An expression without marks and anchors. -/
def isPlain : Regex → Bool
  | empty | test _ => true
  | mark _ | start | stop => false
  | seq a b => a.isPlain && b.isPlain
  | optional a | star a => a.isPlain

/-- The expression takes the text. -/
inductive Takes : Regex → Text → Prop where
  | empty : Takes empty []
  | test {x : CharTest} {c : Char} : x.accepts c → Takes (test x) [c]
  | seq {a b : Regex} {u v : Text} : Takes a u → Takes b v → Takes (seq a b) (u ++ v)
  | leave {a : Regex} : Takes (optional a) []
  | enter {a : Regex} {u : Text} : Takes a u → Takes (optional a) u
  | finish {a : Regex} : Takes (star a) []
  | round {a : Regex} {u v : Text} : Takes a u → u ≠ [] → Takes (star a) v → Takes (star a) (u ++ v)

theorem takes_test {x : CharTest} {u : Text} : Takes (test x) u ↔ ∃ c, x.accepts c ∧ u = [c] := by
  constructor
  · rintro ⟨⟩
    exact ⟨_, ‹_›, rfl⟩
  · rintro ⟨c, hc, rfl⟩
    exact .test hc

theorem takes_seq {a b : Regex} {w : Text} : Takes (seq a b) w ↔ ∃ u v, Takes a u ∧ Takes b v ∧ w = u ++ v := by
  constructor
  · rintro ⟨⟩
    exact ⟨_, _, ‹_›, ‹_›, rfl⟩
  · rintro ⟨u, v, hu, hv, rfl⟩
    exact .seq hu hv

theorem takes_empty {u : Text} : Takes empty u ↔ u = [] := by
  constructor
  · rintro ⟨⟩
    rfl
  · rintro rfl
    exact .empty

theorem takes_optional {a : Regex} {u : Text} : Takes (optional a) u ↔ u = [] ∨ Takes a u := by
  constructor
  · rintro ⟨⟩
    · exact .inl rfl
    · exact .inr ‹_›
  · rintro (rfl | h)
    · exact .leave
    · exact .enter h

theorem takes_star {a : Regex} {w : Text} :
    Takes (star a) w ↔ w = [] ∨ ∃ u v, Takes a u ∧ u ≠ [] ∧ Takes (star a) v ∧ w = u ++ v := by
  constructor
  · rintro (_ | _)
    · exact .inl rfl
    · exact .inr ⟨_, _, ‹_›, ‹_›, ‹_›, rfl⟩
  · rintro (rfl | ⟨u, v, hu, hne, hv, rfl⟩)
    · exact .finish
    · exact .round hu hne hv

/-! ## The reader's ways -/

theorem eq_stay_iff {t : Text} {w : Way} :
    w = .stay t ↔ w.marks = [] ∧ w.taken ++ w.rest = t ∧ w.taken = [] := by
  constructor
  · rintro rfl
    exact ⟨rfl, rfl, rfl⟩
  · rintro ⟨hm, ht, hu⟩
    rw [hu] at ht
    exact Way.ext hm hu ht

/-- A way that is made of two ways without marks takes the two texts they take. -/
theorem mem_onward_iff {P : Text → Prop} {pos : Nat} {t : Text} {f : Nat → Text → List Way} {v w : Way}
    (hv : v.marks = [] ∧ v.taken ++ v.rest = t)
    (hf : ∀ u, u ∈ f (pos + v.taken.length) v.rest ↔ u.marks = [] ∧ u.taken ++ u.rest = v.rest ∧ P u.taken) :
    w ∈ Way.onward pos f v ↔
      w.marks = [] ∧ w.taken ++ w.rest = t ∧ ∃ y, P y ∧ w.taken = v.taken ++ y := by
  rw [Way.mem_onward]
  constructor
  · rintro ⟨u, hu, rfl⟩
    obtain ⟨hm, ht, hp⟩ := (hf u).1 hu
    refine ⟨by simp [Way.followedBy, hv.1, hm], ?_, u.taken, hp, rfl⟩
    simp only [Way.followedBy, List.append_assoc]
    rw [ht, hv.2]
  · rintro ⟨hm, ht, y, hy, hw⟩
    have hrest : y ++ w.rest = v.rest := by
      rw [hw, ← hv.2, List.append_assoc] at ht
      exact List.append_cancel_left ht
    exact ⟨⟨[], y, w.rest⟩, (hf _).2 ⟨rfl, hrest, hy⟩, Way.ext (by simp [Way.followedBy, hv.1, hm]) hw rfl⟩

theorem mem_rounds_iff {a : Regex}
    (ha : ∀ pos t w, w ∈ a.ways pos t ↔ w.marks = [] ∧ w.taken ++ w.rest = t ∧ a.Takes w.taken) (pos : Nat)
    (t : Text) (w : Way) :
    w ∈ rounds a.ways pos t ↔ w.marks = [] ∧ w.taken ++ w.rest = t ∧ (star a).Takes w.taken := by
  have hrec : ∀ v : Way, v.rest.length < t.length → v.marks = [] ∧ v.taken ++ v.rest = t →
      (w ∈ Way.onward pos (rounds a.ways) v ↔
        w.marks = [] ∧ w.taken ++ w.rest = t ∧ ∃ y, (star a).Takes y ∧ w.taken = v.taken ++ y) :=
    fun v hlt hv => mem_onward_iff hv fun u => mem_rounds_iff ha _ v.rest u
  rw [mem_rounds, eq_stay_iff, takes_star]
  constructor
  · rintro (⟨v, hv, hlt, hw⟩ | ⟨hm, ht, he⟩)
    · obtain ⟨hvm, hvt, hva⟩ := (ha pos t v).1 hv
      obtain ⟨hm, ht, y, hy, he⟩ := (hrec v hlt ⟨hvm, hvt⟩).1 hw
      refine ⟨hm, ht, .inr ⟨v.taken, y, hva, ?_, hy, he⟩⟩
      intro hnil
      rw [hnil, List.nil_append] at hvt
      rw [hvt] at hlt
      exact Nat.lt_irrefl _ hlt
    · exact ⟨hm, ht, .inl he⟩
  · rintro ⟨hm, ht, he | ⟨x, y, hx, hne, hy, he⟩⟩
    · exact .inr ⟨hm, ht, he⟩
    · have hxt : x ++ (y ++ w.rest) = t := by rw [← ht, he, List.append_assoc]
      have hlt : (y ++ w.rest).length < t.length := by
        rw [← hxt, @List.length_append _ x]
        have := List.length_pos_of_ne_nil hne
        omega
      exact .inl ⟨⟨[], x, y ++ w.rest⟩, (ha pos t _).2 ⟨rfl, hxt, hx⟩, hlt,
        (hrec _ hlt ⟨rfl, hxt⟩).2 ⟨hm, ht, y, hy, he⟩⟩
termination_by t.length

/-- **The reader finds the front parts that an expression takes**, and no others. -/
theorem mem_ways_iff {r : Regex} (h : r.isPlain) (pos : Nat) (t : Text) (w : Way) :
    w ∈ r.ways pos t ↔ w.marks = [] ∧ w.taken ++ w.rest = t ∧ r.Takes w.taken := by
  induction r generalizing pos t w with
  | empty => rw [ways, List.mem_singleton, eq_stay_iff, takes_empty]
  | test x =>
    rw [takes_test]
    cases t with
    | nil =>
      simp only [ways, List.not_mem_nil, false_iff]
      rintro ⟨-, ht, c, -, hc⟩
      rw [hc] at ht
      cases ht
    | cons c cs =>
      simp only [ways]
      constructor
      · intro hw
        split at hw
        · rename_i hx
          rw [List.mem_singleton.1 hw]
          exact ⟨rfl, rfl, c, hx, rfl⟩
        · cases hw
      · rintro ⟨hm, ht, d, hd, hw⟩
        rw [hw] at ht
        obtain ⟨rfl, hr⟩ := List.cons.inj ht
        rw [if_pos hd, List.mem_singleton]
        exact Way.ext hm hw hr
  | mark m => cases h
  | start => cases h
  | stop => cases h
  | seq a b iha ihb =>
    obtain ⟨ha, hb⟩ := Bool.and_eq_true_iff.1 h
    rw [ways, List.mem_flatMap, takes_seq]
    constructor
    · rintro ⟨v, hv, hw⟩
      obtain ⟨hvm, hvt, hva⟩ := (iha ha pos t v).1 hv
      obtain ⟨hm, ht, y, hy, he⟩ := (mem_onward_iff ⟨hvm, hvt⟩ (ihb hb _ _)).1 hw
      exact ⟨hm, ht, v.taken, y, hva, hy, he⟩
    · rintro ⟨hm, ht, x, y, hx, hy, he⟩
      have hxt : x ++ (y ++ w.rest) = t := by rw [← ht, he, List.append_assoc]
      exact ⟨⟨[], x, y ++ w.rest⟩, (iha ha pos t _).2 ⟨rfl, hxt, hx⟩,
        (mem_onward_iff ⟨rfl, hxt⟩ (ihb hb _ _)).2 ⟨hm, ht, y, hy, he⟩⟩
  | optional a ih =>
    rw [ways, List.mem_append, List.mem_singleton, eq_stay_iff, takes_optional, ih h]
    constructor
    · rintro (⟨hm, ht, ha⟩ | ⟨hm, ht, he⟩)
      · exact ⟨hm, ht, .inr ha⟩
      · exact ⟨hm, ht, .inl he⟩
    · rintro ⟨hm, ht, he | ha⟩
      · exact .inr ⟨hm, ht, he⟩
      · exact .inl ⟨hm, ht, ha⟩
  | star a ih => exact mem_rounds_iff (ih h) pos t w

end Regex
end Topical
