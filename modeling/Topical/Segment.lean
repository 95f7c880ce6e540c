import Topical.Level
import Topical.Regex.Reader
import Topical.Pattern.Error
/-!
# Segments

A segment is one level of a pattern: a literal, a single-level wildcard `+name`, or a multi-level wildcard `#name`.
The name is whatever follows the marker and may be empty; the wildcard then matches but captures nothing.

Each segment has two *fragments* of a matching expression: the mid form, which insists on the slash after the level,
and the tail form, in which that slash may be missing.
-/
namespace Topical

/-- What one level of a pattern asks of a topic. -/
inductive Segment where
  | literal (text : Text)
  | single (name : Text)
  | multi (name : Text)
  deriving DecidableEq

namespace Segment

def ofLevel : Text → Segment
  | '+' :: name => single name
  | '#' :: name => multi name
  | text => literal text

def isMulti : Segment → Bool
  | multi _ => true
  | _ => false

def isWildcard : Segment → Bool
  | literal _ => false
  | single _ | multi _ => true

/-- The segment that the level `level` of the pattern `whole` writes.  A multi-level wildcard must be the last level. -/
def classify (whole level : Text) (isLast : Bool) : Except PatternError Segment :=
  let s := ofLevel level
  if s.isMulti && !isLast then .error (.hashPosition whole) else .ok s

def ofLevels (whole : Text) (levels : List Text) : Except PatternError (List Segment) :=
  levels.foldr
    (fun level after => do
      let rest ← after
      let s ← classify whole level rest.isEmpty
      return s :: rest)
    (.ok [])

/-- The segment as written in a pattern, marker and name included. -/
def asPattern : Segment → Text
  | literal text => text
  | single name => '+' :: name
  | multi name => '#' :: name

/-- The segment as written in a broker's filter, without the name. -/
def asFilter : Segment → Text
  | literal text => text
  | single _ => ['+']
  | multi _ => ['#']

def paramName? : Segment → Option Text
  | literal _ => none
  | single name | multi name => if name.isEmpty then none else some name

/-! ## Fragments -/

/-- The class of the characters that a wildcard may consume. -/
def levelClass : Text := "[0-9A-Za-z_]".toList

/-- The fragment for a segment with more levels after it. -/
def midFragment : Segment → Text
  | literal text => Regex.escape text ++ "/".toList
  | single _ => "(".toList ++ levelClass ++ "+/)".toList
  | multi _ => "((?:".toList ++ levelClass ++ "+/)*)".toList

/-- The fragment for a segment that may end the topic. -/
def tailFragment : Segment → Text
  | literal text => Regex.escape text ++ "/?".toList
  | single _ => "(".toList ++ levelClass ++ "+/?)".toList
  | multi _ => "((?:".toList ++ levelClass ++ "+/?)*)".toList

/-- The fragment for a segment with the segments `rest` after it.  The last segment takes its tail form, and so does
the one right before a final multi-level wildcard, which may consume no levels at all. -/
def fragment (s : Segment) (rest : List Segment) : Text :=
  match rest with
  | [] | [multi _] => s.tailFragment
  | _ => s.midFragment

end Segment

/-! ## Expressions -/

def fragments (segments : List Segment) : List Text :=
  (segments.foldr (fun s after => (s :: after.1, s.fragment after.1 :: after.2)) ([], [])).2

/-- The expression that matches the topics of a list of segments. -/
def expression (segments : List Segment) : Text := '^' :: ((fragments segments).flatten ++ ['$'])

theorem fragments_cons (s : Segment) (rest : List Segment) :
    fragments (s :: rest) = s.fragment rest :: fragments rest := by
  have h : ∀ l : List Segment,
      (l.foldr (fun s (after : List Segment × List Text) => (s :: after.1, s.fragment after.1 :: after.2))
        ([], [])).1 = l := by
    intro l
    induction l with
    | nil => rfl
    | cons s l ih => rw [List.foldr_cons, ih]
  simp only [fragments, List.foldr_cons, h]

end Topical
