/-!
# Topics by level

A topic, a pattern and a filter are all texts whose levels are separated by `/`.  Splitting keeps empty levels, at
either end too, so a text has one level more than it has slashes and joining its levels gives it back.

A wildcard consumes *level values*: non-empty runs of ASCII letters, digits and `_`.
-/
namespace Topical

/-- A text is the list of its Unicode scalar values. -/
abbrev Text := List Char

/-- The levels of a text, empty ones included. -/
def splitLevels (t : Text) : List Text := t.splitOn '/'

/-- Levels with one `/` between neighbours. -/
def joinLevels (ls : List Text) : Text := ['/'].intercalate ls

/-- A character that a wildcard may consume. -/
def isLevelChar (c : Char) : Bool := c.isAlphanum || c == '_'

/-- A text that can fill one wildcard level. -/
def isLevelValue (t : Text) : Bool := !t.isEmpty && t.all isLevelChar

/-! ## Joining undoes splitting -/

theorem joinLevels_splitLevels (t : Text) : joinLevels (splitLevels t) = t :=
  List.intercalate_splitOn '/'

theorem splitLevels_joinLevels {ls : List Text} (h : ∀ l ∈ ls, '/' ∉ l) (hne : ls ≠ []) :
    splitLevels (joinLevels ls) = ls :=
  List.splitOn_intercalate '/' h hne

theorem splitLevels_ne_nil (t : Text) : splitLevels t ≠ [] := List.splitOn_ne_nil '/' t

end Topical
