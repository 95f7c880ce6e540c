import Topical.Pattern.Basic
import Topical.Params.Text
import Topical.Text.Quoted
import Topical.Showcase.Outcome
/-!
# The table of topics

Runs patterns over sample topics and shows, for each pattern, its matching expression and, for each topic, what was
captured and the parameters that come of it.
-/
namespace Topical
namespace Showcase.Table

/-- An error in the form that names its case and fields. -/
def describeError : PatternError → Text
  | .hashPosition p => "HashPosition \x7b pattern: ".toList ++ Text.quoted p ++ " \x7d".toList
  | .matcher p details =>
    "Matcher \x7b pattern: ".toList ++ Text.quoted p ++ ", details: ".toList ++ Text.quoted details
      ++ " \x7d".toList

structure Sample where
  name : Text
  pattern : Text
  topics : List Text

def Sample.ofStrings (name pattern : String) (topics : List String) : Sample :=
  ⟨name.toList, pattern.toList, topics.map String.toList⟩

/-- The table that is shown when no pattern is given. -/
def samples : List Sample :=
  [ .ofStrings "basic" "foo/bar/baz" ["foo/bar/baz", "foo/bar"],
    .ofStrings "single_1" "foo/+bar/baz" ["foo/bar/baz", "foo/bar"],
    .ofStrings "single_2" "foo/bar/+baz" ["foo/bar/baz", "foo/bar"],
    .ofStrings "multi_1" "foo/#bar" ["foo/bar/baz", "foo/bar", "foo"],
    .ofStrings "multi_2" "foo/bar/#baz" ["foo/bar/baz", "foo/bar/fizz/baz", "foo/baz"],
    .ofStrings "complex_1" "foo/+baz/#bar" ["foo/bar/baz", "foo/bar/baz/fizz", "foo/bar"] ]

def misplaced : Text := "foo/#bar/baz".toList

def heading (s : Sample) : Text := "Processing ".toList ++ s.name ++ ": ".toList ++ s.pattern

def topicLine (p : Pattern) (topic : Text) : Text :=
  "  ".toList ++ Text.padded 20 topic ++ match p.exec topic with
    | none => " no match".toList
    | some m =>
      " captures=".toList ++ Text.quotedList m.captures
        ++ " params=".toList ++ (p.extractor.extract m).toText

def body (p : Pattern) (topics : List Text) : List Text :=
  ("  matcher: ".toList ++ p.matcher.source) :: (topics.map (topicLine p) ++ [[]])

/-- The lines of samples, and the first failure, after which nothing is shown. -/
def shown : List Sample → List Text × Option PatternError
  | [] => ([], none)
  | s :: rest => match Pattern.compile s.pattern with
    | .error e => ([heading s], some e)
    | .ok p =>
      let (lines, failure) := shown rest
      (heading s :: body p s.topics ++ lines, failure)

/-- The outcome of showing samples and then the lines `after`. -/
def outcome (samples : List Sample) (after : List Text) : Outcome :=
  match shown samples with
  | (lines, none) => .ofLines (lines ++ after)
  | (lines, some e) => .failed lines (describeError e)

/-- The line that tells why `text` is no pattern, if it is none. -/
def rejection (text : Text) : List Text :=
  match Pattern.compile text with
  | .ok _ => []
  | .error e => ["Rejected: ".toList ++ e.message]

/-- A pattern of the caller's with topics, or the whole table and the one error a pattern can have. -/
def run : List Text → Outcome
  | pattern :: topics => outcome [⟨"custom".toList, pattern, topics⟩] []
  | [] => outcome samples (rejection misplaced)

end Showcase.Table
end Topical
