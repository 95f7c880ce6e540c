import Topical.Proofs.Dictionary
/-!
# Runs of edits

Parameters are built by edits: a value is inserted under a name, or the parameters are collected from a list of entries.
What a run of edits comes to depends only on the entries it has inserted since it last started anew, in their order
(`Edit.run_eq_ofList`).  So at every moment of every run the parameters are a dictionary in order of insertion
(`Edit.run_insertion_ordered`).
-/
namespace Topical

/-- What builds parameters. -/
inductive Edit where
  | insert (name : Text) (value : Value)
  | insertSingle (name level : Text)
  | insertMulti (name : Text) (levels : List Text)
  /-- Starts anew from a list of entries. -/
  | collect (es : List Entry)
  /-- Collects the entries at hand again, and more after them. -/
  | collectMore (es : List Entry)

namespace Edit

def apply (m : Params) : Edit → Params
  | insert name value => m.insert name value
  | insertSingle name level => m.insertSingle name level
  | insertMulti name levels => m.insertMulti name levels
  | collect es => .ofList es
  | collectMore es => .ofList (m.entries ++ es)

/-- The parameters that a run of edits comes to, beginning without any. -/
def run (edits : List Edit) : Params := edits.foldl apply .empty

/-- The entries inserted in order after an edit, `es` being those inserted before it. -/
def record (es : List Entry) : Edit → List Entry
  | insert name value => es ++ [(name, value)]
  | insertSingle name level => es ++ [(name, .single level)]
  | insertMulti name levels => es ++ [(name, .multi levels)]
  | collect es' => es'
  | collectMore es' => es ++ es'

/-- The entries that a run has inserted since it last started anew. -/
def inserted (edits : List Edit) : List Entry := edits.foldl record []

/-- **An edit keeps the parameters those of the entries inserted.** -/
theorem apply_ofList (es : List Entry) (e : Edit) : e.apply (.ofList es) = .ofList (e.record es) := by
  cases e with
  | insert name value => exact (Params.ofList_append es [(name, value)]).symm
  | insertSingle name level => exact (Params.ofList_append es [(name, .single level)]).symm
  | insertMulti name levels => exact (Params.ofList_append es [(name, .multi levels)]).symm
  | collect es' => rfl
  | collectMore es' =>
    show Params.ofList ((Params.ofList es).entries ++ es') = Params.ofList (es ++ es')
    rw [Params.ofList_append, Params.ofList_append, Params.ofList_entries]

/-- **A run comes to the parameters of the entries that it has inserted.** -/
theorem run_eq_ofList (edits : List Edit) : run edits = .ofList (inserted edits) := by
  have hfold : ∀ es, edits.foldl apply (.ofList es) = .ofList (edits.foldl record es) := by
    induction edits with
    | nil => exact fun _ => rfl
    | cons e edits ih =>
      intro es
      rw [List.foldl_cons, List.foldl_cons, apply_ofList, ih]
  exact hfold []

/-- **At every moment of every run the parameters are a dictionary in order of insertion**: the names are pairwise
different and stand in the order in which they were first inserted, there is one entry for each, and its value is the
one inserted there last.  An insertion answers with the value that was there before, and changes neither the values
under other names nor the order of the names. -/
theorem run_insertion_ordered (edits : List Edit) :
    (run edits).names.Nodup ∧
    (run edits).names = ((inserted edits).map Prod.fst).eraseDups ∧
    (run edits).size = ((inserted edits).map Prod.fst).toFinset.card ∧
    (∀ n v, (run edits).get? n = some v ↔
      ∃ before after, inserted edits = before ++ (n, v) :: after ∧ n ∉ after.map Prod.fst) ∧
    (∀ n, (run edits).get? n = none ↔ n ∉ (inserted edits).map Prod.fst) ∧
    ∀ name value,
      ((run edits).getThenInsert name value).1 = (run edits).get? name ∧
      (∀ n, ((run edits).getThenInsert name value).2.get? n =
        if n = name then some value else (run edits).get? n) ∧
      (run edits).names <+: ((run edits).getThenInsert name value).2.names := by
  refine ⟨(run edits).nodup, ?_, ?_, fun n v => ?_, fun n => ?_, fun name value => ⟨?_, fun n => ?_, ?_⟩⟩
  · rw [run_eq_ofList, Params.names_ofList]
  · rw [run_eq_ofList, Params.size_ofList]
  · rw [run_eq_ofList, Params.get?_ofList_eq_some_iff]
  · rw [run_eq_ofList, Params.get?_ofList_eq_none_iff]
  · exact Params.fst_getThenInsert _ name value
  · exact Params.get?_insert _ name value n
  · exact Params.names_prefix_insert _ name value

example : (run [.insertSingle ['a'] ['u'], .insertMulti ['b'] [], .insertMulti ['a'] [['v']]]).entries =
    [(['a'], .multi [['v']]), (['b'], .multi [])] := rfl

end Edit
end Topical
