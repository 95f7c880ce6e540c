import Topical.Text.Shapeless
/-!
# Quoted texts in messages

The form in which a message shows a text that may hold anything: in double quotes, with `"` and `\` after a backslash,
tabs and ends of lines by a letter, and other characters that cannot be seen by themselves by their number.
-/
namespace Topical
namespace Text

def quotedChar (c : Char) : Text :=
  match c with
  | '"' => ['\\', '"']
  | '\\' => ['\\', '\\']
  | '\t' => ['\\', 't']
  | '\n' => ['\\', 'n']
  | '\r' => ['\\', 'r']
  | c =>
    if c.toNat = 0 then ['\\', '0']
    else if isShapeless c then ['\\', 'u', '{'] ++ Nat.toDigits 16 c.toNat ++ ['}']
    else [c]

def quoted (t : Text) : Text := '"' :: (t.flatMap quotedChar ++ ['"'])

def quotedList (ts : List Text) : Text := '[' :: ((", ".toList).intercalate (ts.map quoted) ++ [']'])

/-- The text with spaces after it up to `width` characters. -/
def padded (width : Nat) (t : Text) : Text := t ++ List.replicate (width - t.length) ' '

end Text
end Topical
