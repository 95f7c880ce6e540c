import Topical.Json.Quoted
/-!
# Tokens of JSON

The part of JSON that parameters are written in: quoted strings, and the punctuation of objects and arrays.  There is
no blank space between tokens.
-/
namespace Topical
namespace Json

inductive Token where
  | text (t : Text)
  | symbol (c : Char)
  deriving DecidableEq

def symbols : List Char := ['{', '}', '[', ']', ':', ',']

/-- The tokens of a text, or `none` if it is not made of tokens. -/
def tokens? (t : Text) : Option (List Token) :=
  match t with
  | [] => some []
  | c :: rest =>
    if c ∈ symbols then (tokens? rest).map (.symbol c :: ·)
    else match _h : decode (c :: rest) with
      | none => none
      | some (s, after) => (tokens? after).map (.text s :: ·)
termination_by t.length
decreasing_by
  · simp
  · exact length_of_decode _h

end Json
end Topical
