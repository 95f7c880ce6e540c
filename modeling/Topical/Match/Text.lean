import Topical.Match
import Topical.Text.Quoted
/-!
# Matches as text

A short form that counts the captures, and a long form that quotes them.
-/
namespace Topical
namespace Match

/-- The short form. -/
def toText (m : Match) : Text :=
  "Match(".toList ++ m.topic ++ ")".toList
    ++ if m.captures.isEmpty then []
      else " with ".toList ++ Nat.toDigits 10 m.captures.length ++ " captures".toList

/-- The long form. -/
def describe (m : Match) : Text :=
  "TopicMatch \x7b topic: ".toList ++ m.topic ++ ", captures: ".toList
    ++ Text.quotedList m.captures ++ " \x7d".toList

end Match
end Topical
