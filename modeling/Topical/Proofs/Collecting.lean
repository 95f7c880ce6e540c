import Topical.Proofs.Dictionary
/-!
# Collecting

What a list of entries comes to has a list of entries itself, in which no name stands twice.  It comes to the same
parameters, and may stand for the list that it was collected from wherever more entries are inserted before it or after
it (`Params.insertMany_entries_ofList`), although the place of a name and its value are told by different entries of
that list.  So collecting is a normalization that respects concatenation (`Params.ofList_normalizes`).
-/
namespace Topical
namespace Params

theorem eraseDups_append_eraseDups (names names' : List Text) :
    (names ++ names'.eraseDups).eraseDups = (names ++ names').eraseDups := by
  induction names' using List.reverseRec with
  | nil => rfl
  | append_singleton names' n ih =>
    rw [eraseDups_append_singleton, ← List.append_assoc, eraseDups_append_singleton, ← ih]
    by_cases hn : n ∈ names'
    · rw [if_pos hn, if_pos (List.mem_append_right _ hn)]
    · rw [if_neg hn, ← List.append_assoc, eraseDups_append_singleton]
      simp only [List.mem_append, List.mem_eraseDups]

variable (m : Params)

theorem names_insertMany (es : List Entry) : (m.insertMany es).names = (m.names ++ es.map Prod.fst).eraseDups := by
  have hlist : m.insertMany es = ofList (m.entries ++ es) := by rw [ofList_append, ofList_entries]
  rw [hlist, names_ofList, List.map_append]
  rfl

theorem lookup_reverse_entries (n : Text) : m.entries.reverse.lookup n = m.get? n := by
  rw [← get?_ofList, ofList_entries]

/-- **What a list comes to may be inserted for the list.** -/
theorem insertMany_entries_ofList (es : List Entry) : m.insertMany (ofList es).entries = m.insertMany es := by
  refine eq_of_names_of_get? ?_ fun n _ => ?_
  · have hnames : (ofList es).entries.map Prod.fst = (es.map Prod.fst).eraseDups := names_ofList es
    rw [names_insertMany, names_insertMany, hnames, eraseDups_append_eraseDups]
  · rw [get?_insertMany, get?_insertMany, lookup_reverse_entries, get?_ofList]

/-- **Collecting is a normalization that respects concatenation.**  The entries of what a list comes to, which are the
list itself if no name stands twice in it, come to the same.  What two lists come to one after the other is also got by
inserting the entries of the second one by one into what the first comes to, and from the entries of what each comes
to. -/
theorem ofList_normalizes (xs ys : List Entry) :
    ofList (ofList xs).entries = ofList xs ∧
    ((ofList xs).entries = xs ↔ (xs.map Prod.fst).Nodup) ∧
    ofList (xs ++ ys) = (ofList xs).insertMany ys ∧
    ofList (xs ++ ys) = ofList ((ofList xs).entries ++ (ofList ys).entries) := by
  refine ⟨ofList_entries _, ⟨fun h => ?_, entries_ofList⟩, ofList_append xs ys, ?_⟩
  · rw [← h]
    exact (ofList xs).nodup
  · calc ofList (xs ++ ys) = (ofList xs).insertMany ys := ofList_append xs ys
      _ = (ofList xs).insertMany (ofList ys).entries := (insertMany_entries_ofList _ ys).symm
      _ = (ofList (ofList xs).entries).insertMany (ofList ys).entries := by rw [ofList_entries]
      _ = ofList ((ofList xs).entries ++ (ofList ys).entries) := (ofList_append _ _).symm

end Params
end Topical
