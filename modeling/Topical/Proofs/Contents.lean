import Mathlib.Data.List.Perm.Subperm
import Std.Data.ExtTreeMap.Lemmas
import Topical.Proofs.Dictionary
/-!
# Equality of contents

Two dictionaries are equal, in the sense of `==`, if they are as large and the one holds what the other does.  That this
one direction is enough rests on names that do not stand twice.  So `==` says that the entries are the same but for
their order, that each name holds the same value, and that the maps which forget the order are one map
(`Params.beq_iff_same_contents`).
-/
namespace Topical
namespace Params

theorem nodup_entries (m : Params) : m.entries.Nodup := List.Nodup.of_map Prod.fst m.nodup

theorem perm_iff_get?_eq {a b : Params} : a.entries.Perm b.entries ↔ ∀ n, a.get? n = b.get? n := by
  rw [List.perm_ext_iff_of_nodup a.nodup_entries b.nodup_entries]
  constructor
  · intro h n
    ext v
    rw [get?_eq_some_iff, get?_eq_some_iff]
    exact h (n, v)
  · rintro h ⟨n, v⟩
    rw [← get?_eq_some_iff, h, get?_eq_some_iff]

/-- **Parameters are equal in contents if their entries are the same but for the order.** -/
theorem beq_iff_perm {a b : Params} : (a == b) = true ↔ a.entries.Perm b.entries := by
  have hbeq : (a == b) = true ↔ a.size = b.size ∧ ∀ e ∈ a.entries, e ∈ b.entries := by
    have hget : ∀ e : Entry, (b.get? e.1 == some e.2) = true ↔ e ∈ b.entries := fun e => by
      rw [beq_iff_eq, get?_eq_some_iff]
    show (a.size == b.size && a.entries.all fun e => b.get? e.1 == some e.2) = true ↔ _
    simp only [Bool.and_eq_true, beq_iff_eq, List.all_eq_true, hget]
  rw [hbeq]
  constructor
  · rintro ⟨hsize, hsub⟩
    -- the entries of `a` differ from each other, so they fill those of `b`
    exact (a.nodup_entries.subperm hsub).perm_of_length_le (Nat.le_of_eq hsize.symm)
  · intro h
    exact ⟨h.length_eq, fun e => h.mem_iff.1⟩

/-- **Parameters are equal in contents if they hold the same values under the same names.** -/
theorem beq_iff_get?_eq {a b : Params} : (a == b) = true ↔ ∀ n, a.get? n = b.get? n :=
  beq_iff_perm.trans perm_iff_get?_eq

/-! ## The map without the order -/

theorem pairwise_compare_ne (m : Params) : m.entries.Pairwise fun e e' => ¬ compare e.1 e'.1 = .eq := by
  refine (List.pairwise_map.1 m.nodup).imp fun hne heq => ?_
  exact hne (Std.LawfulEqOrd.eq_of_compare heq)

theorem getElem?_toMap (m : Params) (n : Text) : m.toMap[n]? = m.get? n := by
  cases h : m.get? n with
  | some v =>
    exact Std.ExtTreeMap.getElem?_ofList_of_mem Std.ReflOrd.compare_self m.pairwise_compare_ne (get?_eq_some_iff.1 h)
  | none =>
    refine Std.ExtTreeMap.getElem?_ofList_of_contains_eq_false ?_
    rw [Bool.eq_false_iff, ne_eq, List.contains_iff_mem]
    exact get?_eq_none_iff.1 h

/-- No entry is lost in the map. -/
theorem size_toMap (m : Params) : m.toMap.size = m.size := Std.ExtTreeMap.size_ofList m.pairwise_compare_ne

theorem toMap_eq_iff_get?_eq {a b : Params} : a.toMap = b.toMap ↔ ∀ n, a.get? n = b.get? n := by
  constructor
  · intro h n
    rw [← getElem?_toMap, h, getElem?_toMap]
  · intro h
    refine Std.ExtTreeMap.ext_getElem? fun n => ?_
    rw [getElem?_toMap, h, getElem?_toMap]

theorem equivalence_beq : Equivalence fun a b : Params => (a == b) = true where
  refl _ := beq_iff_perm.2 (.refl _)
  symm h := beq_iff_perm.2 (beq_iff_perm.1 h).symm
  trans h h' := beq_iff_perm.2 ((beq_iff_perm.1 h).trans (beq_iff_perm.1 h'))

/-- Names that do not stand twice may be inserted in any order. -/
theorem beq_ofList_of_perm {es es' : List Entry} (h : es.Perm es') (hnodup : (es.map Prod.fst).Nodup) :
    (ofList es == ofList es') = true := by
  rw [beq_iff_perm, entries_ofList hnodup, entries_ofList ((h.map Prod.fst).nodup_iff.1 hnodup)]
  exact h

/-- **Equality is equality of contents**: each name holds the same value in both or is in neither, the maps are one map,
and the entries are the same but for their order.  It is an equivalence that does not see the order of insertion, and
the map has as many entries as the parameters. -/
theorem beq_iff_same_contents (a b : Params) :
    ((a == b) = true ↔ ∀ n, a.get? n = b.get? n) ∧
    ((a == b) = true ↔ a.toMap = b.toMap) ∧
    ((a == b) = true ↔ a.entries.Perm b.entries) ∧
    Equivalence (fun m m' : Params => (m == m') = true) ∧
    (∀ es es' : List Entry, es.Perm es' → (es.map Prod.fst).Nodup → (ofList es == ofList es') = true) ∧
    a.toMap.size = a.size :=
  ⟨beq_iff_get?_eq, beq_iff_get?_eq.trans toMap_eq_iff_get?_eq.symm, beq_iff_perm, equivalence_beq,
    fun _ _ => beq_ofList_of_perm, a.size_toMap⟩

example : (ofList [(['x'], .single ['u']), (['y'], .multi [])] ==
    ofList [(['y'], .multi []), (['x'], .single ['u'])]) = true := rfl

end Params
end Topical
