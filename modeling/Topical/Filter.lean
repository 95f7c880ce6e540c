import Topical.Level
/-!
# What a broker accepts

The rule by which a broker tests a topic against a filter.  Both are split at every `/`; a level `+` of the filter
takes any one level of the topic, a last level `#` takes all that are left, be it none, and every other level takes an
equal one.
-/
namespace Topical
namespace Filter

/-- The topic's levels are accepted by the filter's. -/
def acceptsLevels : List Text → List Text → Bool
  | [], [] => true
  | [['#']], _ => true
  | f :: fs, t :: ts => (f == ['+'] || f == t) && acceptsLevels fs ts
  | _, _ => false

/-- The topic is accepted by the filter. -/
def accepts (filter topic : Text) : Bool := acceptsLevels (splitLevels filter) (splitLevels topic)

end Filter
end Topical
