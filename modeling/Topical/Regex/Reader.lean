import Topical.Regex.Basic
/-!
# The written form of expressions

A backslash makes the next punctuation character literal, `( )` encloses a capturing group, `(?: )` groups without
capturing, `[ ]` is a class of characters and ranges, `+`, `*` and `?` repeat what stands before them, `^` and `$` are
the anchors, and every other character is itself.  Nothing else is part of the language: a text that uses an operator
it lacks (`.`, `|`, `{`), repeats nothing or a repetition, leaves a group or a class open, or escapes a character that
needs no escape is not read at all.

The reader takes one character at a time; `ReadState` is all it remembers.
-/
namespace Topical
namespace Regex

/-- The characters that a backslash makes literal. -/
def punctuation : List Char :=
  ['\\', '.', '+', '*', '?', '(', ')', '|', '[', ']', '{', '}', '^', '$', '#', '&', '-', '~']

def escape (t : Text) : Text := t.flatMap fun c => if c ∈ punctuation then ['\\', c] else [c]

/-- What the last character left unfinished. -/
inductive ReadMode where
  /-- Between pieces; `repeatable` tells whether the last piece may be repeated. -/
  | between (repeatable : Bool)
  | escaped
  | opened
  | marked
  /-- Inside a class: its ranges so far, latest first. -/
  | inClass (ranges : List (Char × Char))
  /-- Inside a class, after a character that may begin a range. -/
  | inClassFrom (ranges : List (Char × Char)) (lo : Char)
  /-- Inside a class, after a character and a dash. -/
  | inClassTo (ranges : List (Char × Char)) (lo : Char)
  deriving DecidableEq

/-- An enclosing expression whose inner group is still open. -/
structure OpenGroup where
  number : Option Nat
  /-- What stands before the group, latest first. -/
  before : List Regex
  deriving DecidableEq

structure ReadState where
  mode : ReadMode
  /-- The pieces of the innermost open group, latest first. -/
  pieces : List Regex
  /-- The open groups, innermost first. -/
  outer : List OpenGroup
  /-- The number of capturing groups opened so far. -/
  groups : Nat
  deriving DecidableEq

namespace ReadState

def initial : ReadState := ⟨.between false, [], [], 0⟩

def push (s : ReadState) (r : Regex) (repeatable : Bool) : ReadState :=
  { s with mode := .between repeatable, pieces := r :: s.pieces }

/-- The last piece replaced by a repetition of it. -/
def repeatLast (s : ReadState) (f : Regex → Regex) : Option ReadState :=
  match s.mode, s.pieces with
  | .between true, r :: rs => some { s with mode := .between false, pieces := f r :: rs }
  | _, _ => none

def openGroup (s : ReadState) (captures : Bool) : ReadState :=
  let groups := if captures then s.groups + 1 else s.groups
  let number := if captures then some groups else none
  ⟨.between false, [], ⟨number, s.pieces⟩ :: s.outer, groups⟩

def closeGroup (s : ReadState) : Option ReadState :=
  match s.outer with
  | [] => none
  | ⟨number, before⟩ :: outer =>
    let body := ofList s.pieces.reverse
    let whole := match number with
      | none => body
      | some n => group n body
    some { s with mode := .between true, pieces := whole :: before, outer := outer }

def stepBetween (s : ReadState) (c : Char) : Option ReadState :=
  match c with
  | '\\' => some { s with mode := .escaped }
  | '(' => some { s with mode := .opened }
  | ')' => s.closeGroup
  | '[' => some { s with mode := .inClass [] }
  | '*' => s.repeatLast star
  | '+' => s.repeatLast plus
  | '?' => s.repeatLast Regex.optional
  | '^' => some (s.push start false)
  | '$' => some (s.push stop false)
  | '.' | '|' | '{' => none
  | c => some (s.push (char c) true)

/-- A class ends; it holds at least one range. -/
def closeClass (s : ReadState) (ranges : List (Char × Char)) : Option ReadState :=
  match ranges with
  | [] => none
  | _ => some (s.push (test (.within ranges.reverse)) true)

/-- A character that stands for itself inside a class. -/
def isClassChar (c : Char) : Bool := c ∉ punctuation

def step (s : ReadState) (c : Char) : Option ReadState :=
  match s.mode with
  | .between _ => s.stepBetween c
  | .escaped => if c ∈ punctuation then some (s.push (char c) true) else none
  | .opened =>
    if c == '?' then some { s with mode := .marked }
    else (s.openGroup true).stepBetween c
  | .marked => if c == ':' then some (s.openGroup false) else none
  | .inClass ranges =>
    if c == ']' then s.closeClass ranges
    else if isClassChar c then some { s with mode := .inClassFrom ranges c }
    else none
  | .inClassFrom ranges lo =>
    if c == ']' then s.closeClass ((lo, lo) :: ranges)
    else if c == '-' then some { s with mode := .inClassTo ranges lo }
    else if isClassChar c then some { s with mode := .inClassFrom ((lo, lo) :: ranges) c }
    else none
  | .inClassTo ranges lo =>
    if isClassChar c && lo ≤ c then some { s with mode := .inClass ((lo, c) :: ranges) }
    else none

def finish (s : ReadState) : Option (List Regex × Nat) :=
  match s.mode, s.outer with
  | .between _, [] => some (s.pieces.reverse, s.groups)
  | _, _ => none

end ReadState

def readFrom (s : ReadState) : Text → Option ReadState
  | [] => some s
  | c :: cs => match s.step c with
    | none => none
    | some s => readFrom s cs

/-- The pieces that a text writes and the number of their capturing groups, or `none` if it writes none. -/
def read (t : Text) : Option (List Regex × Nat) := (readFrom .initial t).bind ReadState.finish

theorem readFrom_append (s : ReadState) (t u : Text) :
    readFrom s (t ++ u) = (readFrom s t).bind fun s' => readFrom s' u := by
  induction t generalizing s with
  | nil => rfl
  | cons c t ih =>
    simp only [List.cons_append, readFrom]
    cases s.step c with
    | none => rfl
    | some s' => exact ih s'

end Regex
end Topical
