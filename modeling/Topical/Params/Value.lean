import Topical.Level
/-!
# Values

What a wildcard stands for in a topic: one level for a single-level wildcard, any number of levels for a multi-level
one.  A value of one level and the value of a list with that one level are different values.
-/
namespace Topical

/-- The two kinds of wildcard, and of the values that fill them. -/
inductive Kind where
  | single
  | multi
  deriving DecidableEq

def Kind.describe : Kind → Text
  | .single => "single-level".toList
  | .multi => "multi-level".toList

inductive Value where
  | single (level : Text)
  | multi (levels : List Text)
  deriving DecidableEq

namespace Value

def kind : Value → Kind
  | single _ => .single
  | multi _ => .multi

def asSingle? : Value → Option Text
  | single level => some level
  | multi _ => none

def asMulti? : Value → Option (List Text)
  | single _ => none
  | multi levels => some levels

def isMulti (v : Value) : Bool := v.kind == .multi

/-- The value as it stands in a topic. -/
def toText : Value → Text
  | single level => level
  | multi levels => joinLevels levels

end Value
end Topical
