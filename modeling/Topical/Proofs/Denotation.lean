import Mathlib.Data.List.Range
import Topical.Proofs.Expression
import Topical.Proofs.Grammar
/-!
# What an expression denotes

Between its anchors an expression has one part for each segment, in order: the characters of a literal one by one with
the slash after them, or one capturing group.  The groups are numbered from one on as the wildcards come.  There is no
other reading of the expression, and nothing but the engine's verdict on its size can keep it from running
(`Regex.expression_denotes_segments`).
-/
namespace Topical
namespace Regex

/-- The capturing groups of an expression, in the order in which they open. -/
def captureGroups : Regex → List Nat
  | mark (.opens n) => [n]
  | seq a b => a.captureGroups ++ b.captureGroups
  | optional a | star a => a.captureGroups
  | empty | test _ | mark (.closes _) | start | stop => []

/-- What the fragment of each segment says when `n` groups stand before them. -/
def partsOf : List Segment → Nat → List (List Regex)
  | [], _ => []
  | s :: rest, n => s.pieces (Segment.isTail rest) n :: partsOf rest (n + s.groups)

theorem flatten_partsOf : ∀ (segments : List Segment) (n : Nat), (partsOf segments n).flatten = piecesOf segments n
  | [], _ => rfl
  | s :: rest, n => by rw [partsOf, List.flatten_cons, flatten_partsOf rest, piecesOf]

/-- **Each segment has its own part**, whose group is numbered by the wildcards before it. -/
theorem getElem?_partsOf : ∀ (segments : List Segment) (n i : Nat),
    (partsOf segments n)[i]? = segments[i]?.map fun s =>
      s.pieces (Segment.isTail (segments.drop (i + 1))) (n + groupsOf (segments.take i))
  | [], _, _ => rfl
  | s :: rest, n, 0 => rfl
  | s :: rest, n, i + 1 => by
    rw [partsOf, List.getElem?_cons_succ, getElem?_partsOf rest, List.getElem?_cons_succ, List.take_succ_cons,
      groupsOf_cons, List.drop_succ_cons, Nat.add_assoc]

/-! ## The groups -/

theorem captureGroups_slash (tail : Bool) : (Segment.slash tail).captureGroups = [] := by
  cases tail <;> rfl

theorem flatMap_captureGroups_pieces (s : Segment) (tail : Bool) (n : Nat) :
    (s.pieces tail n).flatMap captureGroups = List.range' (n + 1) s.groups := by
  cases s with
  | literal text =>
    rw [Segment.pieces, List.flatMap_append, List.flatMap_singleton, captureGroups_slash, List.append_nil,
      List.flatMap_map]
    exact List.flatMap_eq_nil_iff.2 fun _ _ => rfl
  | single name | multi name => cases tail <;> rfl

/-- **The groups are numbered in order.** -/
theorem flatMap_captureGroups_piecesOf : ∀ (segments : List Segment) (n : Nat),
    (piecesOf segments n).flatMap captureGroups = List.range' (n + 1) (groupsOf segments)
  | [], _ => rfl
  | s :: rest, n => by
    rw [piecesOf, List.flatMap_append, flatMap_captureGroups_pieces, flatMap_captureGroups_piecesOf rest, groupsOf_cons,
      Nat.add_right_comm, List.range'_append_1]

/-! ## The expression -/

/-- **An expression denotes its segments**: it is well formed, and its only reading has one part for each segment between
the anchors.  Its capturing groups are numbered from one on, one for each wildcard in order.  An engine refuses it for
its size only, if it does not admit the text. -/
theorem expression_denotes_segments [Engine] (segments : List Segment) :
    ∃ parts : List (List Regex),
      (∀ i : Nat, parts[i]? = segments[i]?.map fun s =>
        s.pieces (Segment.isTail (segments.drop (i + 1))) (groupsOf (segments.take i))) ∧
      (∀ rs n, (∃ b, Writes 0 (expression segments) rs b n) ↔
        rs = start :: (parts.flatten ++ [stop]) ∧ n = groupsOf segments) ∧
      read (expression segments) = some (start :: (parts.flatten ++ [stop]), groupsOf segments) ∧
      (start :: (parts.flatten ++ [stop])).flatMap captureGroups = List.range' 1 (groupsOf segments) ∧
      ∀ refusal, Matcher.ofSegments segments = .error refusal ↔
        refusal = .tooHeavy ∧ Engine.admits (expression segments) = false := by
  refine ⟨partsOf segments 0, fun i => ?_, fun rs n => ?_, ?_, ?_, fun refusal => Matcher.ofSegments_eq_error_iff⟩
  · rw [getElem?_partsOf, Nat.zero_add]
  · rw [← read_eq_some_iff, read_expression, flatten_partsOf, Option.some.injEq, Prod.mk.injEq, eq_comm,
      @eq_comm _ n]
  · rw [read_expression, flatten_partsOf]
  · rw [flatten_partsOf, List.flatMap_cons, List.flatMap_append, flatMap_captureGroups_piecesOf]
    exact List.append_nil _

end Regex
end Topical
