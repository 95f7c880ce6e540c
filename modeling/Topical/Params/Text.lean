import Topical.Params.Basic
/-!
# Parameters as text

The form for people: names and values in order, the levels of a multi-level value joined and in brackets, as in
`{room: kitchen, path: [a/b]}`.
-/
namespace Topical

def Entry.toText (e : Entry) : Text :=
  match e.2 with
  | .single level => e.1 ++ ": ".toList ++ level
  | .multi levels => e.1 ++ ": [".toList ++ joinLevels levels ++ "]".toList

def Params.toText (m : Params) : Text := '{' :: ((", ".toList).intercalate (m.entries.map Entry.toText) ++ ['}'])

end Topical
