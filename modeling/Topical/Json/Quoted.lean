import Topical.Level
/-!
# Quoted strings of JSON

`encode` writes the shortest form: a quote and a backslash after a backslash, the five control characters that have a
letter of their own with that letter, every other character below U+0020 by its number in four hexadecimal digits, and
all else as it is.  `decode` reads that form, and any other in which characters are given by number.
-/
namespace Topical
namespace Json

/-- The letter that a control character has after a backslash. -/
def letterOf (c : Char) : Option Char :=
  match c.toNat with
  | 8 => some 'b'
  | 9 => some 't'
  | 10 => some 'n'
  | 12 => some 'f'
  | 13 => some 'r'
  | _ => none

/-- The character that a letter after a backslash stands for. -/
def ofLetter (c : Char) : Option Char :=
  match c with
  | '"' | '\\' | '/' => some c
  | 'b' => some (Char.ofNat 8)
  | 't' => some (Char.ofNat 9)
  | 'n' => some (Char.ofNat 10)
  | 'f' => some (Char.ofNat 12)
  | 'r' => some (Char.ofNat 13)
  | _ => none

def encodeChar (c : Char) : Text :=
  if c = '"' ∨ c = '\\' then ['\\', c]
  else match letterOf c with
    | some l => ['\\', l]
    | none =>
      if c.toNat < 0x20 then
        ['\\', 'u', '0', '0', Nat.digitChar (c.toNat / 16), Nat.digitChar (c.toNat % 16)]
      else [c]

def encode (t : Text) : Text := '"' :: (t.flatMap encodeChar ++ ['"'])

/-- The value of a hexadecimal digit of either case. -/
def hexValue (c : Char) : Option Nat :=
  if '0' ≤ c ∧ c ≤ '9' then some (c.toNat - '0'.toNat)
  else if 'a' ≤ c ∧ c ≤ 'f' then some (c.toNat - 'a'.toNat + 10)
  else if 'A' ≤ c ∧ c ≤ 'F' then some (c.toNat - 'A'.toNat + 10)
  else none

/-- The character with a number of four hexadecimal digits, if there is one. -/
def ofHex (a b c d : Char) : Option Char :=
  match hexValue a, hexValue b, hexValue c, hexValue d with
  | some a, some b, some c, some d =>
    let n := ((a * 16 + b) * 16 + c) * 16 + d
    if n.isValidChar then some (Char.ofNat n) else none
  | _, _, _, _ => none

def consRead (x : Char) (read : Text × Text) : Text × Text := (x :: read.1, read.2)

/-- Reads up to the closing quote; gives the text and what follows the quote. -/
def decodeRest : Text → Option (Text × Text)
  | [] => none
  | '"' :: rest => some ([], rest)
  | '\\' :: 'u' :: a :: b :: c :: d :: rest =>
    (ofHex a b c d).bind fun x => (decodeRest rest).map (consRead x)
  | '\\' :: l :: rest => (ofLetter l).bind fun x => (decodeRest rest).map (consRead x)
  | c :: rest => if c = '\\' ∨ c.toNat < 0x20 then none else (decodeRest rest).map (consRead c)

/-- Reads a quoted text at the front; gives it and what follows. -/
def decode : Text → Option (Text × Text)
  | '"' :: rest => decodeRest rest
  | _ => none

/-! ## What is left is shorter -/

theorem length_of_decodeRest {t x rest : Text} (h : decodeRest t = some (x, rest)) : rest.length < t.length := by
  fun_induction decodeRest t generalizing x with
  | case1 => cases h
  | case2 r =>
    cases h
    simp
  | case3 a b c d r ih =>
    obtain ⟨y, _, h⟩ := Option.bind_eq_some_iff.1 h
    obtain ⟨p, hp, he⟩ := Option.map_eq_some_iff.1 h
    cases he
    have := ih hp
    simp only [List.length_cons]
    omega
  | case4 l r _ ih =>
    obtain ⟨y, _, h⟩ := Option.bind_eq_some_iff.1 h
    obtain ⟨p, hp, he⟩ := Option.map_eq_some_iff.1 h
    cases he
    have := ih hp
    simp only [List.length_cons]
    omega
  | case5 => cases h
  | case6 c r _ _ _ _ ih =>
    obtain ⟨p, hp, he⟩ := Option.map_eq_some_iff.1 h
    cases he
    have := ih hp
    simp only [List.length_cons]
    omega

theorem length_of_decode {t x rest : Text} (h : decode t = some (x, rest)) : rest.length < t.length := by
  unfold decode at h
  split at h
  · exact Nat.lt_succ_of_lt (length_of_decodeRest h)
  · cases h

end Json
end Topical
