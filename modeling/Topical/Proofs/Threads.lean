import Topical.Proofs.Backtracking
/-!
# Following all threads at once

A sweep drops every thread whose place an earlier thread has opened.  Nothing is lost by that: through one place the
same ways lead on, so if the later thread has a trace to give, the earlier one has given a preferred one.  This is
`Sweep.Settled`, which every visit keeps (`Sweep.visit_best`), and by which the search gives the first way of the
backtracking reader (`Regex.matchAt_eq_ways`).
-/
namespace Topical

theorem Trace.pass_eq (tr : Trace) (pos : Nat) (ms : List Mark) :
    tr.pass pos ms = (ms.map (·, pos)).reverse ++ tr := by
  induction ms generalizing tr with
  | nil => rfl
  | cons m ms ih =>
    rw [Trace.pass, List.foldl_cons]
    exact (ih _).trans (by simp)

/-- What is left to match from a place on. -/
def Place.remainder (pieces : Array Regex) (p : Place) : Regex :=
  .seq p.inside (.ofList (pieces.toList.drop p.next))

namespace Thread

/-- The traces that a thread gives when the text `t` follows its position, in the order of a backtracking reader. -/
def traces (pieces : Array Regex) (pos : Nat) (t : Text) (th : Thread) : List Trace :=
  ((th.place.remainder pieces).ways pos t).map fun w => w.marks.reverse ++ th.trace

/-- The traces that a thread gives by one of the branches into its place. -/
def branchTraces (pieces : Array Regex) (pos : Nat) (t : Text) (th : Thread) : Branch → List Trace
  | .step ms x rest => match t with
    | [] => []
    | c :: cs =>
      if x.accepts c then traces pieces (pos + 1) cs ⟨⟨rest, th.place.next⟩, th.trace.pass pos ms⟩ else []
  | .done ms =>
    if h : th.place.next < pieces.size then
      traces pieces pos t ⟨⟨pieces[th.place.next], th.place.next + 1⟩, th.trace.pass pos ms⟩
    else [th.trace.pass pos ms]

theorem remainder_eq_of_lt {pieces : Array Regex} {n : Nat} (h : n < pieces.size) :
    Regex.ofList (pieces.toList.drop n) = Place.remainder pieces ⟨pieces[n], n + 1⟩ := by
  rw [List.drop_eq_getElem_cons (by simpa using h)]
  rfl

theorem remainder_eq_of_ge {pieces : Array Regex} {n : Nat} (h : ¬ n < pieces.size) :
    Regex.ofList (pieces.toList.drop n) = .empty := by
  rw [List.drop_eq_nil_of_le (by simpa using h)]
  rfl

/-- **A thread gives what its branches give, in order.** -/
theorem traces_eq_branches (pieces : Array Regex) (pos : Nat) (t : Text) (th : Thread) :
    th.traces pieces pos t =
      (th.place.inside.branches (pos == 0) t.isEmpty).flatMap (th.branchTraces pieces pos t) := by
  rw [traces, Place.remainder, Regex.ways, Regex.ways_eq_branches, List.flatMap_assoc, List.map_flatMap]
  refine List.flatMap_congr fun br _ => ?_
  cases br with
  | done ms =>
    rw [Branch.ways, List.flatMap_singleton, branchTraces]
    split
    · rename_i h
      rw [remainder_eq_of_lt h]
      simp [traces, Way.onward, Way.followedBy, Trace.pass_eq, Function.comp_def]
    · rename_i h
      rw [remainder_eq_of_ge h]
      simp [Way.onward, Regex.ways, Way.followedBy, Way.stay, Trace.pass_eq]
  | step ms x rest =>
    cases t with
    | nil => simp [Branch.ways, branchTraces]
    | cons c cs =>
      simp only [Branch.ways, branchTraces]
      split
      · rw [Way.flatMap_onward_onward]
        simp [traces, Place.remainder, Regex.ways, Way.onward, Way.followedBy, Trace.pass_eq, Function.comp_def]
      · rfl

end Thread

namespace Sweep

/-- The trace that a sweep comes to when the text `t` follows its position. -/
def best (pieces : Array Regex) (pos : Nat) (t : Text) (sw : Sweep) : Option Trace :=
  match t with
  | [] => sw.through
  | c :: cs => ((sw.reading c).flatMap (Thread.traces pieces (pos + 1) cs)).head?.or sw.through

/-- A place that was opened and from which the text `t` can be matched has given a trace. -/
def Settled (pieces : Array Regex) (pos : Nat) (t : Text) (sw : Sweep) : Prop :=
  ∀ p ∈ sw.opened, (p.remainder pieces).ways pos t ≠ [] → (sw.best pieces pos t).isSome

variable {pieces : Array Regex} {pos : Nat} {t : Text} {sw : Sweep}

theorem best_isSome_of_through (h : sw.through.isSome) : (sw.best pieces pos t).isSome := by
  cases t with
  | nil => exact h
  | cons c cs => simp [best, h]

theorem Settled.of_or {sw' : Sweep} {x : Option Trace} (h : sw.Settled pieces pos t) (ho : sw'.opened = sw.opened)
    (hb : sw'.best pieces pos t = (sw.best pieces pos t).or x) : sw'.Settled pieces pos t := by
  intro p hp hw
  rw [hb, Option.isSome_or, h p (ho ▸ hp) hw, Bool.true_or]

theorem best_wait (x : CharTest) (th : Thread) :
    (sw.wait x th).best pieces pos t = (sw.best pieces pos t).or (match t with
      | [] => none
      | c :: cs => if x.accepts c then (th.traces pieces (pos + 1) cs).head? else none) := by
  by_cases hs : sw.through.isSome
  · rw [wait, if_pos hs, Option.or_of_isSome (best_isSome_of_through hs)]
  · rw [wait, if_neg hs]
    have hn : sw.through = none := by simpa using hs
    cases t with
    | nil => simp [best]
    | cons c cs =>
      simp only [best, reading, List.reverse_cons, List.filterMap_append, List.flatMap_append, List.head?_append,
        hn, Option.or_none]
      by_cases hx : x.accepts c <;> simp [hx]

theorem best_passThrough (tr : Trace) :
    (sw.passThrough tr).best pieces pos t = (sw.best pieces pos t).or (some tr) := by
  cases t with
  | nil => rfl
  | cons c cs => simp [best, passThrough, reading]

theorem best_opened (ps : List Place) :
    ({ sw with opened := ps } : Sweep).best pieces pos t = sw.best pieces pos t := by
  cases t <;> rfl

/-- What a visit does with one branch into the place of a thread. -/
def follow (pieces : Array Regex) (pos : Nat) (atStop : Bool) (th : Thread) (sw : Sweep) : Branch → Sweep
  | .step ms t rest => sw.wait t ⟨⟨rest, th.place.next⟩, th.trace.pass pos ms⟩
  | .done ms =>
    if h : th.place.next < pieces.size then
      visit pieces pos atStop sw ⟨⟨pieces[th.place.next], th.place.next + 1⟩, th.trace.pass pos ms⟩
    else sw.passThrough (th.trace.pass pos ms)

theorem visit_eq (pieces : Array Regex) (pos : Nat) (atStop : Bool) (sw : Sweep) (th : Thread) :
    visit pieces pos atStop sw th =
      if sw.through.isSome || sw.opened.contains th.place then sw
      else
        let sw' := (th.place.inside.branches (pos == 0) atStop).foldl (follow pieces pos atStop th) sw
        { sw' with opened := th.place :: sw'.opened } := by
  rw [visit]
  rfl

theorem foldl_follow_best {th : Thread}
    (hstep : ∀ (sw : Sweep) (br : Branch), sw.Settled pieces pos t →
      (follow pieces pos t.isEmpty th sw br).Settled pieces pos t ∧
      (follow pieces pos t.isEmpty th sw br).best pieces pos t =
        (sw.best pieces pos t).or (th.branchTraces pieces pos t br).head?) :
    ∀ (bs : List Branch) (sw : Sweep), sw.Settled pieces pos t →
      (bs.foldl (follow pieces pos t.isEmpty th) sw).Settled pieces pos t ∧
      (bs.foldl (follow pieces pos t.isEmpty th) sw).best pieces pos t =
        (sw.best pieces pos t).or (bs.flatMap (th.branchTraces pieces pos t)).head?
  | [], sw, h => ⟨h, by simp⟩
  | br :: bs, sw, h => by
    obtain ⟨h1, h2⟩ := hstep sw br h
    obtain ⟨h3, h4⟩ := foldl_follow_best hstep bs _ h1
    rw [List.foldl_cons]
    refine ⟨h3, ?_⟩
    rw [h4, h2, List.flatMap_cons, List.head?_append, Option.or_assoc]

/-- **A visit adds what its thread gives**, and leaves the sweep settled. -/
theorem visit_best (pieces : Array Regex) (pos : Nat) (t : Text) (sw : Sweep) (th : Thread)
    (h : sw.Settled pieces pos t) :
    (visit pieces pos t.isEmpty sw th).Settled pieces pos t ∧
    (visit pieces pos t.isEmpty sw th).best pieces pos t =
      (sw.best pieces pos t).or (th.traces pieces pos t).head? := by
  rw [visit_eq]
  split
  · rename_i hc
    refine ⟨h, ?_⟩
    rcases Bool.or_eq_true_iff.1 hc with hs | ho
    · rw [Option.or_of_isSome (best_isSome_of_through hs)]
    · by_cases hw : (th.place.remainder pieces).ways pos t = []
      · simp [Thread.traces, hw]
      · rw [Option.or_of_isSome (h _ (by simpa using ho) hw)]
  · have hstep : ∀ (sw : Sweep) (br : Branch), sw.Settled pieces pos t →
        (follow pieces pos t.isEmpty th sw br).Settled pieces pos t ∧
        (follow pieces pos t.isEmpty th sw br).best pieces pos t =
          (sw.best pieces pos t).or (th.branchTraces pieces pos t br).head? := by
      intro sw br hsw
      cases br with
      | step ms x rest =>
        have hb := @best_wait pieces pos t sw x
          ⟨⟨rest, th.place.next⟩, th.trace.pass pos ms⟩
        refine ⟨hsw.of_or ?_ hb, hb.trans ?_⟩
        · simp only [follow, wait]
          split <;> rfl
        · cases t with
          | nil => rfl
          | cons c cs =>
            simp only [Thread.branchTraces]
            split <;> rfl
      | done ms =>
        simp only [follow, Thread.branchTraces]
        split
        · exact visit_best pieces pos t sw _ hsw
        · exact ⟨hsw.of_or rfl (best_passThrough _), best_passThrough _⟩
    obtain ⟨h1, h2⟩ := foldl_follow_best hstep (th.place.inside.branches (pos == 0) t.isEmpty) sw h
    rw [← Thread.traces_eq_branches] at h2
    refine ⟨fun p hp hw => ?_, (best_opened _).trans h2⟩
    rw [best_opened]
    rcases List.mem_cons.1 hp with rfl | hp
    · -- the place just opened: what its thread gives has been added
      rw [h2, Option.isSome_or]
      simp [Thread.traces, hw]
    · exact h1 p hp hw
termination_by pieces.size - th.place.next

theorem foldl_visit_best (pieces : Array Regex) (pos : Nat) (t : Text) : ∀ (ths : List Thread) (sw : Sweep),
    sw.Settled pieces pos t →
      (ths.foldl (visit pieces pos t.isEmpty) sw).best pieces pos t =
        (sw.best pieces pos t).or (ths.flatMap (Thread.traces pieces pos t)).head?
  | [], sw, _ => by simp
  | th :: ths, sw, h => by
    obtain ⟨h1, h2⟩ := visit_best pieces pos t sw th h
    rw [List.foldl_cons, foldl_visit_best pieces pos t ths _ h1, h2, List.flatMap_cons, List.head?_append,
      Option.or_assoc]

theorem ofThreads_best (pieces : Array Regex) (pos : Nat) (t : Text) (ths : List Thread) :
    (ofThreads pieces pos t.isEmpty ths).best pieces pos t = (ths.flatMap (Thread.traces pieces pos t)).head? := by
  have hb : fresh.best pieces pos t = none := by cases t <;> rfl
  rw [ofThreads, foldl_visit_best pieces pos t ths fresh (fun p hp => by cases hp), hb, Option.none_or]

end Sweep

namespace Regex

/-- **A run gives the first trace of its threads.** -/
theorem run_eq (pieces : Array Regex) : ∀ (t : Text) (best : Option Trace) (pos : Nat) (ths : List Thread),
    run pieces best pos ths t = (ths.flatMap (Thread.traces pieces pos t)).head?.or best
  | [], best, pos, ths => by
    rw [run, ← Sweep.ofThreads_best]
    rfl
  | c :: cs, best, pos, ths => by
    have hb := Sweep.ofThreads_best pieces pos (c :: cs) ths
    rw [run, ← hb, Sweep.best, List.isEmpty_cons]
    split
    · rename_i hr
      simp [hr]
    · rename_i th ths' hr
      rw [hr, run_eq pieces cs, Option.or_assoc]

/-- **Following all threads at once gives the first way of the backtracking reader.** -/
theorem matchAt_eq_ways (pieces : Array Regex) (pos : Nat) (t : Text) :
    matchAt pieces pos t = ((ofList pieces.toList).ways pos t).head?.map fun w => w.marks.reverse := by
  rw [matchAt, run_eq, Option.or_none, List.flatMap_singleton]
  simp [Thread.traces, Place.remainder, ways, Way.onward_stay]

/-- An expression that insists on the start of the text matches nowhere else. -/
theorem search_eq_matchAt (r : List Regex) (t : Text) :
    search (start :: r).toArray t = matchAt (start :: r).toArray 0 t := by
  have hnone : ∀ (u : Text) (pos : Nat), 0 < pos → searchFrom (start :: r).toArray pos u = none := by
    intro u
    induction u with
    | nil =>
      intro pos hpos
      rw [searchFrom, matchAt_eq_ways]
      simp [ofList, ways, Nat.ne_of_gt hpos]
    | cons c u ih =>
      intro pos hpos
      rw [searchFrom, matchAt_eq_ways]
      simp [ofList, ways, Nat.ne_of_gt hpos, ih (pos + 1) (Nat.succ_pos pos)]
  cases t with
  | nil => rfl
  | cons c t =>
    rw [search, searchFrom, hnone t (0 + 1) (Nat.succ_pos 0)]
    cases matchAt (start :: r).toArray 0 (c :: t) <;> rfl

end Regex
end Topical
