import Topical.Params.Basic
import Topical.Json.Token
/-!
# Parameters in JSON

An object with a member for each entry in order, without spaces.  A single-level value is a string and a multi-level
one an array of strings.  `entriesOfJson?` reads such texts back.
-/
namespace Topical

open Json (encode Token)

def Json.commaSeparated (items : List Text) : Text := [','].intercalate items

def Value.toJson : Value → Text
  | .single level => encode level
  | .multi levels => '[' :: (Json.commaSeparated (levels.map encode) ++ [']'])

def Entry.toJson (e : Entry) : Text := encode e.1 ++ ':' :: e.2.toJson

def Params.toJson (m : Params) : Text := '{' :: (Json.commaSeparated (m.entries.map Entry.toJson) ++ ['}'])

/-! ## Reading -/

mutual

/-- Reads on after the entries `done`, latest first, to the end of the object. -/
def readEntries (done : List Entry) : List Token → Option (List Entry)
  | [.symbol '}'] => some done.reverse
  | .symbol ',' :: .text name :: .symbol ':' :: .text level :: rest =>
    readEntries ((name, .single level) :: done) rest
  | .symbol ',' :: .text name :: .symbol ':' :: .symbol '[' :: .symbol ']' :: rest =>
    readEntries ((name, .multi []) :: done) rest
  | .symbol ',' :: .text name :: .symbol ':' :: .symbol '[' :: .text level :: rest =>
    readLevels done name [level] rest
  | _ => none

/-- Reads on after the levels `levels`, latest first, of the entry under `name`. -/
def readLevels (done : List Entry) (name : Text) (levels : List Text) : List Token → Option (List Entry)
  | .symbol ']' :: rest => readEntries ((name, .multi levels.reverse) :: done) rest
  | .symbol ',' :: .text level :: rest => readLevels done name (level :: levels) rest
  | _ => none

end

/-- The entries of an object, each member read as if a comma stood before it. -/
def entriesOfTokens? : List Token → Option (List Entry)
  | [.symbol '{', .symbol '}'] => some []
  | .symbol '{' :: rest => readEntries [] (.symbol ',' :: rest)
  | _ => none

def entriesOfJson? (t : Text) : Option (List Entry) := (Json.tokens? t).bind entriesOfTokens?

end Topical
