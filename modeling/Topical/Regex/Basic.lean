import Topical.Level
/-!
# Regular expressions with captures

The expressions a topic matcher is made of: character tests, the two anchors, sequences, and the greedy repetitions.
A *mark* tests nothing; it tells where a capturing group begins or ends.  An expression is a list of such pieces, to be
matched one after another.
-/
namespace Topical

/-- What is asked of one character. -/
inductive CharTest where
  | exactly (c : Char)
  | within (ranges : List (Char × Char))
  deriving DecidableEq

/-- The ends of the range are in it. -/
def CharTest.accepts : CharTest → Char → Bool
  | .exactly a, c => c == a
  | .within ranges, c => ranges.any fun r => r.1 ≤ c && c ≤ r.2

/-- Either end of a capturing group. -/
inductive Mark where
  | opens (group : Nat)
  | closes (group : Nat)
  deriving DecidableEq

inductive Regex where
  | empty
  | test (t : CharTest)
  | mark (m : Mark)
  | start
  | stop
  | seq (a b : Regex)
  | optional (a : Regex)
  | star (a : Regex)
  deriving DecidableEq

namespace Regex

def plus (a : Regex) : Regex := seq a (star a)

/-- What the capturing group numbered `n` encloses. -/
def group (n : Nat) (a : Regex) : Regex := seq (mark (.opens n)) (seq a (mark (.closes n)))

def ofList (pieces : List Regex) : Regex := pieces.foldr seq empty

def char (c : Char) : Regex := test (.exactly c)

end Regex
end Topical
