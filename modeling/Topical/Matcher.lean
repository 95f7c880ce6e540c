import Topical.Segment
import Topical.Regex.Engine
import Topical.Regex.Search
/-!
# Matchers

A matcher is an expression, read from its text and ready to run.  It is refused if the text cannot be read, or if the
engine does not admit it.
-/
namespace Topical

inductive Refusal where
  | malformed
  | tooHeavy
  deriving DecidableEq

def Refusal.message : Refusal → Text
  | .malformed => "Malformed expression.".toList
  | .tooHeavy =>
    "Compiled regex exceeds size limit of ".toList ++ (toString Regex.weightLimit).toList ++ " bytes.".toList

/-- An expression that is ready to run. -/
structure Matcher where
  source : Text
  pieces : Array Regex
  groups : Nat

namespace Matcher

/-- The matcher that a text writes, whatever its size. -/
def read? (source : Text) : Option Matcher := (Regex.read source).map fun r => ⟨source, r.1.toArray, r.2⟩

def ofSource [Engine] (source : Text) : Except Refusal Matcher :=
  match read? source with
  | none => .error .malformed
  | some m => if Engine.admits source then .ok m else .error .tooHeavy

/-- The matcher for the topics of a list of segments. -/
def ofSegments [Engine] (segments : List Segment) : Except Refusal Matcher := ofSource (expression segments)

/-- What the groups captured in the preferred match of a topic, a group that took no part being `none`. -/
def captures? (m : Matcher) (topic : Text) : Option (List (Option Text)) :=
  (Regex.search m.pieces topic).map fun trace => (List.range m.groups).map fun n => trace.group? topic (n + 1)

end Matcher
end Topical
