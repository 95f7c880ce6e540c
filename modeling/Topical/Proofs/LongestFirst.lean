import Topical.Proofs.Language
/-!
# Longest first

A greedy expression is not tried from the longest text down: on `aa/b`, `(?:[ab]+/?)*` is tried with `aa/b`, `aa/`,
`aa` and then with `aa/b` once more.  What holds is that whatever is asked of a way, the first one that will do is the
longest one that will do (`LongestFirst`), and repetitions keep it.
-/
namespace Topical

/-- Of the ways that meet a condition, none is longer than the first. -/
def LongestFirst (ws : List Way) : Prop :=
  ∀ (p : Way → Bool) (w : Way), ws.find? p = some w → ∀ v ∈ ws, p v → v.taken.length ≤ w.taken.length

namespace LongestFirst

theorem nil : LongestFirst [] := fun _ _ _ _ hv => by cases hv

theorem singleton (w : Way) : LongestFirst [w] := by
  intro p x hx v hv hp
  rw [List.mem_singleton.1 hv] at hp ⊢
  rw [List.find?_cons_of_pos hp] at hx
  obtain rfl := Option.some.inj hx
  exact Nat.le_refl _

theorem append {us vs : List Way} (hu : LongestFirst us) (hv : LongestFirst vs)
    (hle : ∀ u ∈ us, ∀ v ∈ vs, v.taken.length ≤ u.taken.length) : LongestFirst (us ++ vs) := by
  intro p x hx w hw hp
  rw [List.find?_append] at hx
  cases hf : us.find? p with
  | some u =>
    rw [hf, Option.some_or] at hx
    obtain rfl := Option.some.inj hx
    rcases List.mem_append.1 hw with hw | hw
    · exact hu p _ hf w hw hp
    · exact hle _ (List.mem_of_find?_eq_some hf) w hw
  | none =>
    rw [hf, Option.none_or] at hx
    rcases List.mem_append.1 hw with hw | hw
    · exact absurd hp (List.find?_eq_none.1 hf w hw)
    · exact hv p x hx w hw hp

theorem map {ws : List Way} (f : Way → Way) (k : Nat) (hf : ∀ w, (f w).taken.length = k + w.taken.length)
    (h : LongestFirst ws) : LongestFirst (ws.map f) := by
  intro p x hx v hv hp
  rw [List.find?_map] at hx
  obtain ⟨w, hw, rfl⟩ := Option.map_eq_some_iff.1 hx
  obtain ⟨u, hu, rfl⟩ := List.mem_map.1 hv
  have := h _ w hw u hu hp
  rw [hf, hf]
  omega

theorem onward {f : Nat → Text → List Way} {pos : Nat} {v : Way}
    (h : LongestFirst (f (pos + v.taken.length) v.rest)) : LongestFirst (Way.onward pos f v) :=
  h.map _ v.taken.length fun w => by simp [Way.followedBy]

/-- **What goes on from ways that come longest first comes longest first**, if each way on can begin with the longest
beginning that is not longer than itself. -/
theorem flatMap_onward {ws : List Way} {f : Nat → Text → List Way} {pos : Nat} (h : LongestFirst ws)
    (hf : ∀ w ∈ ws, LongestFirst (f (pos + w.taken.length) w.rest))
    (hinj : ∀ u ∈ ws, ∀ v ∈ ws, u.taken.length = v.taken.length → u = v)
    (hbegin : ∀ w ∈ ws, ∀ v ∈ Way.onward pos f w, ∃ b ∈ ws, v ∈ Way.onward pos f b ∧
      ∀ u ∈ ws, b.taken.length < u.taken.length → v.taken.length ≤ u.taken.length) :
    LongestFirst (ws.flatMap (Way.onward pos f)) := by
  intro p x hx v hv hp
  rw [List.find?_flatMap, List.findSome?_eq_some_iff] at hx
  obtain ⟨l₁, w, l₂, hws, hxw, hnone⟩ := hx
  -- `w` is the first beginning from which the condition can be met, hence the longest one
  have hfind : ws.find? (fun w => ((Way.onward pos f w).find? p).isSome) = some w := by
    rw [List.find?_eq_some_iff_append]
    refine ⟨by simp [hxw], l₁, l₂, hws, fun u hu => ?_⟩
    simp [hnone u hu]
  have hw : w ∈ ws := List.mem_of_find?_eq_some hfind
  obtain ⟨a, ha, hva⟩ := List.mem_flatMap.1 hv
  obtain ⟨b, hb, hvb, hlong⟩ := hbegin a ha v hva
  have hbw : b.taken.length ≤ w.taken.length :=
    h _ w hfind b hb (List.find?_isSome.2 ⟨v, hvb, hp⟩)
  rcases Nat.lt_or_eq_of_le hbw with hlt | heq
  · obtain ⟨u, -, rfl⟩ := Way.mem_onward.1 (List.mem_of_find?_eq_some hxw)
    have := hlong w hw hlt
    simp only [Way.followedBy, List.length_append]
    omega
  · obtain rfl := hinj b hb w hw heq
    exact (hf b hb).onward p x hxw v hvb hp

end LongestFirst

namespace Regex

/-- Two ways of one plain expression that take as much are the same way. -/
theorem ways_inj {r : Regex} (h : r.isPlain) {pos : Nat} {t : Text} :
    ∀ u ∈ r.ways pos t, ∀ v ∈ r.ways pos t, u.taken.length = v.taken.length → u = v := by
  intro u hu v hv hl
  obtain ⟨hum, hut, -⟩ := (mem_ways_iff h pos t u).1 hu
  obtain ⟨hvm, hvt, -⟩ := (mem_ways_iff h pos t v).1 hv
  obtain ⟨htaken, hrest⟩ := List.append_inj (hut.trans hvt.symm) hl
  exact Way.ext (hum.trans hvm.symm) htaken hrest

theorem longestFirst_test (x : CharTest) (pos : Nat) (t : Text) : LongestFirst ((test x).ways pos t) := by
  cases t with
  | nil => exact .nil
  | cons c cs =>
    rw [ways]
    split
    · exact .singleton _
    · exact .nil

theorem longestFirst_test_seq (x : CharTest) {b : Regex} (hb : ∀ pos t, LongestFirst (b.ways pos t)) (pos : Nat)
    (t : Text) : LongestFirst ((seq (test x) b).ways pos t) := by
  cases t with
  | nil => exact .nil
  | cons c cs =>
    rw [ways, ways]
    split
    · rw [List.flatMap_singleton]
      exact (hb _ _).onward
    · exact .nil

theorem longestFirst_optional {a : Regex} (ha : ∀ pos t, LongestFirst (a.ways pos t)) (pos : Nat) (t : Text) :
    LongestFirst ((optional a).ways pos t) :=
  (ha pos t).append (.singleton _) fun u _ v hv => by
    rw [List.mem_singleton.1 hv]
    exact Nat.zero_le _

theorem longestFirst_star_test (x : CharTest) (pos : Nat) (t : Text) :
    LongestFirst ((star (test x)).ways pos t) := by
  rw [ways, rounds_eq]
  refine .append ?_ (.singleton _) fun u _ v hv => ?_
  · cases t with
    | nil => exact .nil
    | cons c cs =>
      rw [ways]
      split
      · rw [List.flatMap_singleton, if_pos (show cs.length < (c :: cs).length from Nat.lt_succ_self _)]
        exact .onward (longestFirst_star_test x _ cs)
      · exact .nil
  · rw [List.mem_singleton.1 hv]
    exact Nat.zero_le _
termination_by t.length

end Regex
end Topical
