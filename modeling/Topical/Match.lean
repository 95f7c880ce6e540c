import Topical.Params.Basic
import Topical.Matcher
/-!
# Matches and extraction

A match keeps what the wildcards captured, slashes included, in the order of the pattern.  An `Extractor` turns the
captures into parameters: a single-level capture loses one slash at its end, and a multi-level capture is split into
its levels.
-/
namespace Topical

structure Match where
  topic : Text
  /-- What each wildcard captured. -/
  captures : List Text
  deriving DecidableEq

/-- The match of a topic.  A group that took no part counts as having captured nothing. -/
def Matcher.exec (m : Matcher) (topic : Text) : Option Match :=
  (m.captures? topic).map fun groups => ⟨topic, groups.map (·.getD [])⟩

/-- The expression matches somewhere in the topic. -/
def Matcher.isMatch (m : Matcher) (topic : Text) : Bool := (Regex.search m.pieces topic).isSome

/-! ## From captures to values -/

/-- The capture without the slash at its end, if there is one. -/
def stripTrailingSlash (capture : Text) : Text :=
  if capture.getLast? = some '/' then capture.dropLast else capture

/-- The levels of a capture.  A slash at the end begins no level, and an empty capture has none. -/
def capturedLevels (capture : Text) : List Text :=
  let levels := splitLevels capture
  if levels.getLast? = some [] then levels.dropLast else levels

/-- The value that a wildcard makes of its capture. -/
def Segment.valueOf (capture : Text) : Segment → Option Value
  | literal _ => none
  | single _ => some (.single (stripTrailingSlash capture))
  | multi _ => some (.multi (capturedLevels capture))

/-- The wildcards that captures are read by. -/
structure Extractor where
  wildcards : List Segment

namespace Extractor

def ofSegments (segments : List Segment) : Extractor := ⟨segments.filter Segment.isWildcard⟩

def captureCount (x : Extractor) : Nat := x.wildcards.length

def entry? (s : Segment) (capture : Text) : Option Entry := do
  let name ← s.paramName?
  let value ← s.valueOf capture
  return (name, value)

/-- The parameters of a match; unnamed wildcards add none, nor do captures beyond the last wildcard. -/
def extract (x : Extractor) (m : Match) : Params :=
  .ofList ((x.wildcards.zip m.captures).filterMap fun p => entry? p.1 p.2)

def extract? (x : Extractor) (m : Option Match) : Params := m.elim .empty x.extract

end Extractor
end Topical
