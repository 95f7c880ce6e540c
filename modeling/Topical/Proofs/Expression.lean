import Topical.Matcher
/-!
# What an expression says

The text `expression segments` is always read, and what is read are the segments one after another: the characters of a
literal, or one group for a wildcard, between the two anchors (`read_expression`).  No character of a literal acts as an
operator, since `escape` puts a backslash before each that could.
-/
namespace Topical

/-- The characters that a wildcard may consume, as an expression tests them. -/
def levelTest : CharTest := .within [('0', '9'), ('A', 'Z'), ('a', 'z'), ('_', '_')]

/-- The ranges of the written class are those of a level value's characters. -/
theorem levelTest_accepts (c : Char) : levelTest.accepts c = isLevelChar c := by
  have hchar : isLevelChar c =
      (decide ('A' ≤ c ∧ c ≤ 'Z') || ('a' ≤ c && c ≤ 'z') || ('0' ≤ c && c ≤ '9') || c == '_') := rfl
  have hunder : c == '_' ↔ '_' ≤ c ∧ c ≤ '_' := by
    rw [beq_iff_eq]
    exact ⟨fun h => by rw [h]; decide, fun h => Char.le_antisymm h.2 h.1⟩
  rw [hchar, Bool.eq_iff_iff]
  simp only [levelTest, CharTest.accepts, List.any_cons, List.any_nil, Bool.or_eq_true, Bool.and_eq_true,
    decide_eq_true_eq, Bool.false_eq_true, or_false, hunder]
  constructor
  · rintro (h | h | h | h)
    · exact .inl (.inr h)
    · exact .inl (.inl (.inl h))
    · exact .inl (.inl (.inr h))
    · exact .inr h
  · rintro (((h | h) | h) | h)
    · exact .inr (.inl h)
    · exact .inr (.inr (.inl h))
    · exact .inl h
    · exact .inr (.inr (.inr h))

namespace Segment

/-- The form of a segment with the segments `rest` after it: whether the slash after it may be missing. -/
def isTail : List Segment → Bool
  | [] | [multi _] => true
  | _ => false

def slash (tail : Bool) : Regex := if tail then .optional (.char '/') else .char '/'

/-- A level value and the slash after it. -/
def level (tail : Bool) : Regex := .ofList [.plus (.test levelTest), slash tail]

/-- What the fragment of a segment says when `n` groups stand before it. -/
def pieces (tail : Bool) (n : Nat) : Segment → List Regex
  | literal text => text.map .char ++ [slash tail]
  | single _ => [.group (n + 1) (level tail)]
  | multi _ => [.group (n + 1) (.ofList [.star (level tail)])]

def groups (s : Segment) : Nat := if s.isWildcard then 1 else 0

theorem fragment_eq (s : Segment) (rest : List Segment) :
    s.fragment rest = if isTail rest then s.tailFragment else s.midFragment := by
  unfold fragment isTail
  split <;> simp

/-! ## Reading a fragment -/

open Regex

theorem readFrom_escape (t : Text) (b : Bool) (ps : List Regex) (n : Nat) :
    ∃ b', readFrom ⟨.between b, ps, [], n⟩ (escape t) =
      some ⟨.between b', (t.map Regex.char).reverse ++ ps, [], n⟩ := by
  induction t generalizing b ps with
  | nil => exact ⟨b, rfl⟩
  | cons c t ih =>
    have hc : readFrom ⟨.between b, ps, [], n⟩ (if c ∈ punctuation then ['\\', c] else [c]) =
        some ⟨.between true, Regex.char c :: ps, [], n⟩ := by
      split
      · rename_i h
        simp [readFrom, ReadState.step, ReadState.stepBetween, ReadState.push, h]
      · rename_i h
        simp only [punctuation, List.mem_cons, List.not_mem_nil, or_false, not_or] at h
        simp [readFrom, ReadState.step, ReadState.stepBetween, ReadState.push, h]
    obtain ⟨b', hb⟩ := ih true (Regex.char c :: ps)
    refine ⟨b', ?_⟩
    rw [escape, List.flatMap_cons, readFrom_append, hc]
    exact hb.trans (by simp)

theorem readFrom_slash (tail b : Bool) (ps : List Regex) (n : Nat) :
    readFrom ⟨.between b, ps, [], n⟩ (if tail then ['/', '?'] else ['/']) =
      some ⟨.between !tail, slash tail :: ps, [], n⟩ := by
  cases tail <;> rfl

theorem readFrom_fragment (s : Segment) (tail b : Bool) (ps : List Regex) (n : Nat) :
    ∃ b', readFrom ⟨.between b, ps, [], n⟩ (if tail then s.tailFragment else s.midFragment) =
      some ⟨.between b', (s.pieces tail n).reverse ++ ps, [], n + s.groups⟩ := by
  cases s with
  | literal text =>
    have hfrag : (if tail then tailFragment (literal text) else midFragment (literal text)) =
        escape text ++ (if tail then ['/', '?'] else ['/']) := by cases tail <;> rfl
    obtain ⟨b', hb⟩ := readFrom_escape text b ps n
    refine ⟨!tail, ?_⟩
    rw [hfrag, readFrom_append, hb, Option.bind_some, readFrom_slash]
    simp [pieces, groups, isWildcard]
  | single name => cases tail <;> exact ⟨true, rfl⟩
  | multi name => cases tail <;> exact ⟨true, rfl⟩

end Segment

/-! ## Reading an expression -/

open Regex

/-- What the fragments of the segments say when `n` groups stand before them. -/
def piecesOf : List Segment → Nat → List Regex
  | [], _ => []
  | s :: rest, n => s.pieces (Segment.isTail rest) n ++ piecesOf rest (n + s.groups)

def groupsOf (segments : List Segment) : Nat := (segments.filter Segment.isWildcard).length

theorem groupsOf_cons (s : Segment) (rest : List Segment) : groupsOf (s :: rest) = s.groups + groupsOf rest := by
  unfold groupsOf Segment.groups
  cases h : s.isWildcard <;> simp [h, Nat.add_comm]

theorem readFrom_fragments : ∀ (segments : List Segment) (b : Bool) (ps : List Regex) (n : Nat),
    ∃ b', readFrom ⟨.between b, ps, [], n⟩ (fragments segments).flatten =
      some ⟨.between b', (piecesOf segments n).reverse ++ ps, [], n + groupsOf segments⟩
  | [], b, ps, n => ⟨b, rfl⟩
  | s :: rest, b, ps, n => by
    obtain ⟨b₁, h₁⟩ := s.readFrom_fragment (Segment.isTail rest) b ps n
    obtain ⟨b₂, h₂⟩ := readFrom_fragments rest b₁ ((s.pieces (Segment.isTail rest) n).reverse ++ ps) (n + s.groups)
    refine ⟨b₂, ?_⟩
    rw [fragments_cons, List.flatten_cons, Segment.fragment_eq, readFrom_append, h₁, Option.bind_some, h₂, piecesOf,
      groupsOf_cons]
    simp [Nat.add_assoc]

/-- A text says the same between the anchors as after the first of them. -/
theorem read_anchored {u : Text} {rs : List Regex} {n : Nat}
    (h : ∃ b, readFrom ⟨.between false, [start], [], 0⟩ u = some ⟨.between b, rs.reverse ++ [start], [], n⟩) :
    Regex.read ('^' :: (u ++ ['$'])) = some (start :: (rs ++ [stop]), n) := by
  obtain ⟨b, h⟩ := h
  have hstart : readFrom .initial ['^'] = some ⟨.between false, [start], [], 0⟩ := rfl
  rw [Regex.read, ← List.singleton_append, readFrom_append, hstart, Option.bind_some, readFrom_append, h]
  simp [readFrom, ReadState.step, ReadState.stepBetween, ReadState.push, ReadState.finish]

/-- **An expression says the segments in order, between the anchors.** -/
theorem read_expression (segments : List Segment) :
    Regex.read (expression segments) = some (start :: (piecesOf segments 0 ++ [stop]), groupsOf segments) := by
  refine read_anchored ?_
  rw [← Nat.zero_add (groupsOf segments)]
  exact readFrom_fragments segments false [start] 0

namespace Matcher

variable [Engine]

/-- **Only the engine's verdict can keep an expression from running.** -/
theorem ofSegments_eq (segments : List Segment) :
    ofSegments segments =
      if Engine.admits (expression segments) then
        .ok ⟨expression segments, (start :: (piecesOf segments 0 ++ [stop])).toArray, groupsOf segments⟩
      else .error .tooHeavy := by
  rw [ofSegments, ofSource, read?, read_expression, Option.map_some]

/-- **An engine refuses an expression only for its size.** -/
theorem ofSegments_eq_error_iff {segments : List Segment} {refusal : Refusal} :
    ofSegments segments = .error refusal ↔ refusal = .tooHeavy ∧ Engine.admits (expression segments) = false := by
  rw [ofSegments_eq]
  by_cases h : Engine.admits (expression segments) = true
  · rw [if_pos h, h]
    exact iff_of_false nofun nofun
  · rw [if_neg h, Except.error.injEq, eq_comm, and_iff_left (Bool.eq_false_iff.2 h)]

theorem ofSegments_ok {segments : List Segment} {m : Matcher} (h : ofSegments segments = .ok m) :
    m = ⟨expression segments, (start :: (piecesOf segments 0 ++ [stop])).toArray, groupsOf segments⟩ := by
  rw [ofSegments_eq] at h
  split at h
  · exact (Except.ok.inj h).symm
  · cases h

end Matcher

end Topical
