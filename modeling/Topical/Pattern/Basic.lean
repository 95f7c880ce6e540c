import Topical.Match
/-!
# Patterns

A pattern is a text with its segments and the matcher for them.  The two proofs it carries say that the segments are
those that the text writes and that the matcher is the one for these segments, so every `Pattern` is one that
`Pattern.compile` gives.
-/
namespace Topical

variable [Engine]

structure Pattern where
  text : Text
  segments : List Segment
  matcher : Matcher
  segments_eq : Segment.ofLevels text (splitLevels text) = .ok segments
  matcher_eq : Matcher.ofSegments segments = .ok matcher

namespace Pattern

def compile (text : Text) : Except PatternError Pattern :=
  match hs : Segment.ofLevels text (splitLevels text) with
  | .error e => .error e
  | .ok segments =>
    match hm : Matcher.ofSegments segments with
    | .error refusal => .error (.matcher text refusal.message)
    | .ok matcher => .ok ⟨text, segments, matcher, hs, hm⟩

/-- The filter to subscribe with at a broker: the pattern without names. -/
def filter (p : Pattern) : Text := joinLevels (p.segments.map Segment.asFilter)

def size (p : Pattern) : Nat := p.segments.length

def isEmpty (p : Pattern) : Bool := p.segments.isEmpty

def endsInMulti (p : Pattern) : Bool := p.segments.getLast?.any Segment.isMulti

/-- The names of the named wildcards in order, repeats included. -/
def paramNames (p : Pattern) : List Text := p.segments.filterMap Segment.paramName?

def extractor (p : Pattern) : Extractor := .ofSegments p.segments

/-! ## Matching -/

def isMatch (p : Pattern) (topic : Text) : Bool := p.matcher.isMatch topic

def exec (p : Pattern) (topic : Text) : Option Match := p.matcher.exec topic

/-- The parameters of a topic, `none` if it does not match. -/
def matchTopic (p : Pattern) (topic : Text) : Option Params := (p.exec topic).map p.extractor.extract

/-! ## Formatting -/

/-- The value for the wildcard `name`, which is the segment numbered `position`. -/
def lookup (params : Params) (name : Text) (position : Nat) : Except FormatError Value :=
  if name.isEmpty then .error (.unnamedWildcard position)
  else match params.get? name with
    | none => .error (.missingParameter name)
    | some value => .ok value

/-- The levels that a segment contributes to a topic. -/
def fill (params : Params) (segment : Segment) (position : Nat) : Except FormatError (List Text) :=
  match segment with
  | .literal text => .ok [text]
  | .single name => do
    match ← lookup params name position with
    | .single level => if isLevelValue level then .ok [level] else .error (.invalidValue name level)
    | .multi _ => .error (.kindMismatch name .single)
  | .multi name => do
    match ← lookup params name position with
    | .single _ => .error (.kindMismatch name .multi)
    | .multi levels =>
      match levels.find? (!isLevelValue ·) with
      | some level => .error (.invalidValue name level)
      | none => .ok levels

/-- The topic with the given values in place of the wildcards.  A multi-level value without levels leaves out its
level and the slash before it. -/
def format (p : Pattern) (params : Params) : Except FormatError Text := do
  let levels ← p.segments.zipIdx.mapM fun s => fill params s.1 s.2
  return joinLevels levels.flatten

end Pattern
end Topical
