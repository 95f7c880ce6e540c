import Topical.Regex.Reader
/-!
# What an engine admits

Not every expression that can be read is run: an engine refuses those that are too large for it.  Which these are is the
engine's own affair: an `Engine` is any verdict on the texts of expressions, and what is proved of patterns is proved
for every engine.

The engine that runs weighs the automaton that it builds, in bytes, and admits up to `Regex.weightLimit` of them.  A
state weighs 32, and with it 8 for each range of a class and 4 for each branch.
-/
namespace Topical

/-- An engine, by its verdict. -/
class Engine where
  /-- Whether the expression that a text writes is small enough to be run. -/
  admits : Text → Bool

/-- One state for each byte of a literal, and two for a class. -/
def CharTest.weight : CharTest → Nat
  | .exactly c => 32 * c.utf8Size
  | .within ranges => 64 + 8 * ranges.length

namespace Regex

/-- What a piece adds to the automaton.  A repetition is one state with two branches, and an option two states, of which
the first has two branches. -/
def weight : Regex → Nat
  | empty => 0
  | test t => t.weight
  | mark _ => 32
  | start => 32
  | stop => 32
  -- the automaton of `plus a` has `a` once
  | seq a (star b) => if a = b then a.weight + 40 else a.weight + (b.weight + 40)
  | seq a b => a.weight + b.weight
  | optional a => a.weight + 72
  | star a => a.weight + 40

/-- The weight of an expression.  Its automaton has four states besides those of the pieces. -/
def totalWeight (pieces : List Regex) : Nat := pieces.foldl (fun n r => n + r.weight) 128

def weightLimit : Nat := 10485760

end Regex

instance : Engine where
  admits source := (Regex.read source).any fun r => Regex.totalWeight r.1 ≤ Regex.weightLimit

end Topical
