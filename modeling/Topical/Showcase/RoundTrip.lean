import Topical.Pattern.Basic
import Topical.Params.Text
import Topical.Showcase.Outcome
/-!
# Formatting a topic and matching it back

Fills a pattern with parameters, shows the topic and the filter to subscribe with, and tells whether matching the topic
gives the parameters again.
-/
namespace Topical
namespace Showcase.RoundTrip

def text : Text := "+foo/bar/#baz".toList

def params : Params :=
  (Params.empty.insertSingle "foo".toList "1".toList).insertMulti "baz".toList ["2".toList, "3".toList]

/-- How the parameters compare with what matching the topic gives. -/
def verdict (p : Pattern) (topic : Text) : Text :=
  match p.matchTopic topic with
  | none => "formatted topic does not match its pattern".toList
  | some back =>
    if back == params then "round trip ok".toList
    else "round trip changed values: ".toList ++ back.toText

def lines (p : Pattern) : Except TopicError (List Text) :=
  match p.format params with
  | .error e => .error (.format e)
  | .ok topic => .ok
    [ p.text ++ " with ".toList ++ params.toText ++ " -> ".toList ++ topic,
      "subscribe with: ".toList ++ p.filter,
      verdict p topic ]

def run : Outcome :=
  match Pattern.compile text with
  | .error e => .failed [] (TopicError.pattern e).message
  | .ok p => match lines p with
    | .error e => .failed [] e.message
    | .ok lines => .ofLines lines

end Showcase.RoundTrip
end Topical
