import Topical.Params.Value
import Std.Data.ExtTreeMap
/-!
# Parameters

A dictionary from names to values that keeps the order in which names were first inserted.  Inserting a name that is
already there replaces its value in place.  Two dictionaries are equal, in the sense of `==`, if they hold the same
values under the same names in whatever order.
-/
namespace Topical

abbrev Entry := Text × Value

namespace Entry

/-- The entries with `value` under `name`, and the value that was there before.  A new name goes to the end. -/
def replace (name : Text) (value : Value) : List Entry → Option Value × List Entry
  | [] => (none, [(name, value)])
  | (n, v) :: rest =>
    if n = name then (some v, (name, value) :: rest)
    else
      let (old, rest) := replace name value rest
      (old, (n, v) :: rest)

theorem names_replace (name : Text) (value : Value) (es : List Entry) :
    (replace name value es).2.map Prod.fst =
      if name ∈ es.map Prod.fst then es.map Prod.fst else es.map Prod.fst ++ [name] := by
  induction es with
  | nil => rfl
  | cons e es ih =>
    obtain ⟨n, v⟩ := e
    by_cases h : n = name
    · subst h
      simp [replace]
    · rw [replace, if_neg h]
      simp only [List.map_cons, List.mem_cons, Ne.symm h, false_or, ih]
      split <;> rfl

theorem nodup_names_replace (name : Text) (value : Value) {es : List Entry} (h : (es.map Prod.fst).Nodup) :
    ((replace name value es).2.map Prod.fst).Nodup := by
  rw [names_replace]
  split
  · exact h
  · rename_i hn
    refine List.nodup_append.2 ⟨h, by simp, fun a ha b hb => ?_⟩
    rw [List.mem_singleton] at hb
    subst hb
    exact fun hab => hn (hab ▸ ha)

end Entry

/-- Entries under pairwise different names, in order of first insertion. -/
structure Params where
  entries : List Entry
  nodup : (entries.map Prod.fst).Nodup

namespace Params

def empty : Params := ⟨[], List.nodup_nil⟩

def names (m : Params) : List Text := m.entries.map Prod.fst

def size (m : Params) : Nat := m.entries.length

def isEmpty (m : Params) : Bool := m.entries.isEmpty

def get? (m : Params) (name : Text) : Option Value := m.entries.lookup name

def getSingle? (m : Params) (name : Text) : Option Text := (m.get? name).bind Value.asSingle?

def getMulti? (m : Params) (name : Text) : Option (List Text) := (m.get? name).bind Value.asMulti?

def contains (m : Params) (name : Text) : Bool := (m.get? name).isSome

/-- The value that was under `name`, and the parameters with `value` there. -/
def getThenInsert (m : Params) (name : Text) (value : Value) : Option Value × Params :=
  ((Entry.replace name value m.entries).1,
    ⟨(Entry.replace name value m.entries).2, Entry.nodup_names_replace name value m.nodup⟩)

def insert (m : Params) (name : Text) (value : Value) : Params := (m.getThenInsert name value).2

def insertSingle (m : Params) (name level : Text) : Params := m.insert name (.single level)

def insertMulti (m : Params) (name : Text) (levels : List Text) : Params := m.insert name (.multi levels)

/-- The parameters with all of `es` inserted, one after another. -/
def insertMany (m : Params) (es : List Entry) : Params := es.foldl (fun m e => m.insert e.1 e.2) m

/-- The parameters that a list of entries comes to: of a name given more than once, the first place and the last
value count. -/
def ofList (es : List Entry) : Params := empty.insertMany es

instance : BEq Params where
  beq a b := a.size == b.size && a.entries.all fun e => b.get? e.1 == some e.2

/-- The parameters as a map, which forgets their order. -/
def toMap (m : Params) : Std.ExtTreeMap Text Value := .ofList m.entries

end Params
end Topical
