import Topical.Params.Value
/-!
# What can go wrong with a pattern

A text fails to be a pattern for one reason of its own, a multi-level wildcard before the last level, and for one
reason of the matcher's.  Formatting fails at the first wildcard that has no fitting value.
-/
namespace Topical

inductive PatternError where
  /-- A multi-level wildcard stands before the last level of `pattern`. -/
  | hashPosition (pattern : Text)
  | matcher (pattern details : Text)
  deriving DecidableEq

inductive FormatError where
  | missingParameter (name : Text)
  | kindMismatch (name : Text) (expected : Kind)
  /-- The wildcard that is the segment numbered `position` has no name to look a value up by. -/
  | unnamedWildcard (position : Nat)
  /-- The value, or one of its levels, is no level value. -/
  | invalidValue (name value : Text)
  deriving DecidableEq

inductive TopicError where
  | pattern (e : PatternError)
  | format (e : FormatError)
  deriving DecidableEq

namespace PatternError

def message : PatternError → Text
  | hashPosition p =>
    "Invalid topic pattern '".toList ++ p ++ "': # wildcard can only be the last segment".toList
  | matcher p details =>
    "Cannot build matcher for topic pattern '".toList ++ p ++ "': ".toList ++ details

end PatternError

namespace FormatError

def message : FormatError → Text
  | missingParameter name => "Missing value for parameter '".toList ++ name ++ "'".toList
  | kindMismatch name expected =>
    "Parameter '".toList ++ name ++ "' expects a ".toList ++ expected.describe ++ " value".toList
  | unnamedWildcard position =>
    "Cannot format unnamed wildcard at segment ".toList ++ (toString position).toList
  | invalidValue name value =>
    "Invalid value '".toList ++ value ++ "' for parameter '".toList ++ name
      ++ "': expected a non-empty run of [0-9A-Za-z_]".toList

end FormatError

namespace TopicError

def message : TopicError → Text
  | pattern e => "Topic pattern error: ".toList ++ e.message
  | format e => "Topic format error: ".toList ++ e.message

end TopicError
end Topical
