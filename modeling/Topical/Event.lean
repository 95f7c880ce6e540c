import Topical.Pattern.Basic
/-!
# Events for a log

What compiling and matching have to tell.  Compiling tells that a pattern was compiled or that its text was rejected;
a refused matcher is left to the error.  Matching tells of topics that do not match.
-/
namespace Topical

inductive Severity where
  | debug
  | trace
  deriving DecidableEq

variable [Engine]

inductive Event where
  | compiled (pattern : Pattern)
  | rejected (text : Text) (reason : PatternError)
  | unmatched (pattern : Pattern) (topic : Text)

namespace Event

def severity : Event → Severity
  | compiled _ | rejected _ _ => .debug
  | unmatched _ _ => .trace

def message : Event → Text
  | compiled _ => "Compiled topic pattern".toList
  | rejected _ reason => "Rejected topic pattern: ".toList ++ reason.message
  | unmatched _ _ => "Topic does not match".toList

/-- What the event tells besides its message, by name. -/
def details : Event → List (Text × Text)
  | compiled p =>
    [("pattern".toList, p.text), ("matcher".toList, p.matcher.source),
      ("captures".toList, Nat.toDigits 10 p.extractor.captureCount)]
  | rejected text _ => [("pattern".toList, text)]
  | unmatched p topic => [("pattern".toList, p.text), ("topic".toList, topic)]

end Event

namespace Pattern

/-- The events of compiling `text`. -/
def compileEvents (text : Text) : List Event :=
  match compile text with
  | .ok p => [.compiled p]
  | .error (.hashPosition whole) => [.rejected text (.hashPosition whole)]
  | .error (.matcher _ _) => []

/-- The events of matching `topic`. -/
def matchEvents (p : Pattern) (topic : Text) : List Event :=
  match p.exec topic with
  | some _ => []
  | none => [.unmatched p topic]

end Pattern
end Topical
