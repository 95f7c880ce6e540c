import Mathlib.Data.Finset.Card
import Mathlib.Data.List.Induction
import Mathlib.Data.List.Nodup
import Topical.Params.Basic
/-!
# The dictionary of parameters

What can be observed of parameters: the names in order, and the value under each name.  Inserting changes the value
under one name only.
-/
namespace Topical

namespace Entry

theorem lookup_cons (n n' : Text) (v : Value) (es : List Entry) :
    List.lookup n ((n', v) :: es) = if n = n' then some v else es.lookup n := by
  by_cases h : n = n'
  · simp [h]
  · rw [List.lookup_cons, beq_eq_false_iff_ne.2 h, if_neg h]

/-- No entry is under the name. -/
theorem forall_bne_iff {n : Text} {es : List Entry} : (∀ e ∈ es, (n != e.1) = true) ↔ n ∉ es.map Prod.fst := by
  rw [List.mem_map]
  constructor
  · rintro h ⟨e, he, rfl⟩
    exact bne_iff_ne.1 (h e he) rfl
  · intro h e he
    exact bne_iff_ne.2 fun hn => h ⟨e, he, hn.symm⟩

theorem lookup_replace (name : Text) (value : Value) (es : List Entry) (n : Text) :
    (replace name value es).2.lookup n = if n = name then some value else es.lookup n := by
  induction es with
  | nil => exact lookup_cons n name value []
  | cons e es ih =>
    obtain ⟨n', v⟩ := e
    by_cases h : n' = name
    · subst h
      rw [replace, if_pos rfl, lookup_cons, lookup_cons]
      split <;> rfl
    · rw [replace, if_neg h, lookup_cons, lookup_cons, ih]
      by_cases hn : n = n'
      · rw [if_pos hn, if_pos hn, if_neg (hn ▸ h)]
      · rw [if_neg hn, if_neg hn]

theorem fst_replace (name : Text) (value : Value) (es : List Entry) :
    (replace name value es).1 = es.lookup name := by
  induction es with
  | nil => rfl
  | cons e es ih =>
    obtain ⟨n, v⟩ := e
    by_cases h : n = name
    · subst h
      rw [replace, if_pos rfl, lookup_cons, if_pos rfl]
    · have hne : name ≠ n := fun he => h he.symm
      rw [replace, if_neg h, lookup_cons, if_neg hne]
      exact ih

end Entry

namespace Params

variable {m : Params} {n : Text}

theorem get?_eq_none_iff : m.get? n = none ↔ n ∉ m.names := by
  rw [get?, List.lookup_eq_none_iff, Entry.forall_bne_iff, names]

theorem mem_names_iff : n ∈ m.names ↔ ∃ v, m.get? n = some v := by
  rw [← Option.isSome_iff_exists, ← Option.ne_none_iff_isSome, ne_eq, get?_eq_none_iff, not_not]

/-- **The entries are what the names hold**, since no name stands twice. -/
theorem get?_eq_some_iff {v : Value} : m.get? n = some v ↔ (n, v) ∈ m.entries := by
  obtain ⟨es, hnd⟩ := m
  rw [get?]
  induction es with
  | nil => simp
  | cons e es ih =>
    obtain ⟨n', v'⟩ := e
    rw [List.map_cons, List.nodup_cons] at hnd
    rw [Entry.lookup_cons, List.mem_cons, Prod.mk.injEq]
    by_cases h : n = n'
    · subst h
      have hnot : (n, v) ∉ es := fun hm => hnd.1 (List.mem_map.2 ⟨_, hm, rfl⟩)
      simp [hnot, eq_comm]
    · rw [if_neg h, ih hnd.2]
      simp [h]

/-! ## Inserting -/

theorem get?_insert (m : Params) (name : Text) (value : Value) (n : Text) :
    (m.insert name value).get? n = if n = name then some value else m.get? n :=
  Entry.lookup_replace name value m.entries n

theorem names_insert (m : Params) (name : Text) (value : Value) :
    (m.insert name value).names = if name ∈ m.names then m.names else m.names ++ [name] :=
  Entry.names_replace name value m.entries

/-- The names keep their order; a new one comes after them. -/
theorem names_prefix_insert (m : Params) (name : Text) (value : Value) : m.names <+: (m.insert name value).names := by
  rw [names_insert]
  split
  · exact List.prefix_rfl
  · exact List.prefix_append _ _

/-- **Inserting answers with the value that was there before.** -/
theorem fst_getThenInsert (m : Params) (name : Text) (value : Value) :
    (m.getThenInsert name value).1 = m.get? name := Entry.fst_replace name value m.entries

theorem insertMany_append (m : Params) (es es' : List Entry) :
    m.insertMany (es ++ es') = (m.insertMany es).insertMany es' := List.foldl_append

theorem ofList_append (es es' : List Entry) : ofList (es ++ es') = (ofList es).insertMany es' :=
  insertMany_append empty es es'

/-- **Of the values inserted under a name the last counts.** -/
theorem get?_insertMany (m : Params) (es : List Entry) (n : Text) :
    (m.insertMany es).get? n = (es.reverse.lookup n).or (m.get? n) := by
  induction es generalizing m with
  | nil => rfl
  | cons e es ih =>
    have hcons : m.insertMany (e :: es) = (m.insert e.1 e.2).insertMany es := rfl
    rw [hcons, ih, get?_insert, List.reverse_cons, List.lookup_append, Option.or_assoc]
    congr 1
    rw [show [e] = [(e.1, e.2)] from rfl, Entry.lookup_cons]
    split <;> rfl

/-- Entries under other names do not change the value. -/
theorem get?_insertMany_of_notMem (m : Params) {es : List Entry} (h : n ∉ es.map Prod.fst) :
    (m.insertMany es).get? n = m.get? n := by
  have hnone : es.reverse.lookup n = none := by
    rwa [List.lookup_eq_none_iff, Entry.forall_bne_iff, List.map_reverse, List.mem_reverse]
  rw [get?_insertMany, hnone, Option.none_or]

theorem get?_ofList (es : List Entry) (n : Text) : (ofList es).get? n = es.reverse.lookup n := by
  rw [ofList, get?_insertMany]
  exact Option.or_none

theorem eraseDups_append_singleton (names : List Text) (n : Text) :
    (names ++ [n]).eraseDups = if n ∈ names then names.eraseDups else names.eraseDups ++ [n] := by
  rw [List.eraseDups_append]
  by_cases h : n ∈ names
  · simp [List.removeAll, h]
  · simp [List.removeAll, h, List.eraseDups_cons]

/-- **The names stand in the order in which they were first inserted.** -/
theorem names_ofList (es : List Entry) : (ofList es).names = (es.map Prod.fst).eraseDups := by
  induction es using List.reverseRec with
  | nil => rfl
  | append_singleton es e ih =>
    have hlast : ofList (es ++ [e]) = (ofList es).insert e.1 e.2 := ofList_append es [e]
    rw [hlast, names_insert, ih, List.map_append, List.map_singleton, eraseDups_append_singleton]
    simp only [List.mem_eraseDups]

/-- The value under a name is the one that stands there last. -/
theorem get?_ofList_eq_some_iff {es : List Entry} {v : Value} :
    (ofList es).get? n = some v ↔ ∃ before after, es = before ++ (n, v) :: after ∧ n ∉ after.map Prod.fst := by
  rw [get?_ofList, List.lookup_eq_some_iff]
  constructor
  · rintro ⟨l, l', hsplit, hl⟩
    have hes : es = l'.reverse ++ (n, v) :: l.reverse := by
      rw [← List.reverse_reverse es, hsplit]
      simp
    refine ⟨l'.reverse, l.reverse, hes, ?_⟩
    rw [List.map_reverse, List.mem_reverse]
    exact Entry.forall_bne_iff.1 hl
  · rintro ⟨before, after, rfl, hafter⟩
    refine ⟨after.reverse, before.reverse, by simp, Entry.forall_bne_iff.2 ?_⟩
    rw [List.map_reverse, List.mem_reverse]
    exact hafter

theorem get?_ofList_eq_none_iff {es : List Entry} : (ofList es).get? n = none ↔ n ∉ es.map Prod.fst := by
  rw [get?_eq_none_iff, names_ofList, List.mem_eraseDups]

theorem mem_of_get?_ofList {es : List Entry} {v : Value} (h : (ofList es).get? n = some v) : (n, v) ∈ es := by
  obtain ⟨before, after, rfl, -⟩ := get?_ofList_eq_some_iff.1 h
  simp

/-- There are as many entries as different names. -/
theorem size_ofList (es : List Entry) : (ofList es).size = (es.map Prod.fst).toFinset.card := by
  have hnames : (ofList es).names.toFinset = (es.map Prod.fst).toFinset := by
    rw [names_ofList]
    ext n
    rw [List.mem_toFinset, List.mem_toFinset, List.mem_eraseDups]
  calc (ofList es).size = (ofList es).names.length := (List.length_map _).symm
    _ = (ofList es).names.toFinset.card := (List.toFinset_card_of_nodup (ofList es).nodup).symm
    _ = (es.map Prod.fst).toFinset.card := by rw [hnames]

/-! ## Names and values -/

/-- The entries are the names in order, each with its value. -/
theorem entries_eq (m : Params) : m.entries = m.names.filterMap fun n => (m.get? n).map (n, ·) := by
  have hself : ∀ e ∈ m.entries, (m.get? e.1).map (e.1, ·) = some e := fun e he => by
    rw [get?_eq_some_iff.2 he]
    rfl
  rw [names, List.filterMap_map, Function.comp_def, List.filterMap_congr hself, List.filterMap_some]

/-- **Parameters with the same names in the same order and the same values under them are the same.** -/
theorem eq_of_names_of_get? {a b : Params} (hnames : a.names = b.names) (hget : ∀ n ∈ a.names, a.get? n = b.get? n) :
    a = b := by
  have hentries : a.entries = b.entries := by
    rw [entries_eq a, entries_eq b, ← hnames]
    exact List.filterMap_congr fun n hn => by rw [hget n hn]
  obtain ⟨es, hnd⟩ := a
  obtain ⟨es', hnd'⟩ := b
  obtain rfl : es = es' := hentries
  rfl

/-- Entries that parameters hold come to these parameters, if they name them in order. -/
theorem ofList_eq_of_mem {es : List Entry} (hnames : (es.map Prod.fst).eraseDups = m.names)
    (hes : ∀ e ∈ es, m.get? e.1 = some e.2) : ofList es = m := by
  refine eq_of_names_of_get? (by rw [names_ofList, hnames]) fun n hn => ?_
  obtain ⟨v, hv⟩ := mem_names_iff.1 hn
  rw [hv]
  exact (hes _ (mem_of_get?_ofList hv)).symm

theorem eraseDups_of_nodup {names : List Text} (h : names.Nodup) : names.eraseDups = names := by
  induction names with
  | nil => rfl
  | cons n names ih =>
    obtain ⟨hn, hnames⟩ := List.nodup_cons.1 h
    have hfilter : names.filter (fun n' => !n' == n) = names := by
      refine List.filter_eq_self.2 fun n' hn' => ?_
      have hne : n' ≠ n := fun he => hn (he ▸ hn')
      simp [hne]
    rw [List.eraseDups_cons, hfilter, ih hnames]

/-- **Parameters are what their entries come to.** -/
theorem ofList_entries (m : Params) : ofList m.entries = m :=
  ofList_eq_of_mem (eraseDups_of_nodup m.nodup) fun _ he => get?_eq_some_iff.2 he

theorem entries_ofList {es : List Entry} (h : (es.map Prod.fst).Nodup) : (ofList es).entries = es :=
  congrArg entries (ofList_entries ⟨es, h⟩)

end Params
end Topical
