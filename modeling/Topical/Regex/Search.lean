import Topical.Regex.Basic
/-!
# Leftmost-first search

All ways through an expression are followed at once, one character at a time, in the order in which a backtracking
reader would try them.  A way is a `Thread`: its place in the expression, and the marks passed so far with the
positions at which they were passed.  When a thread is through, the threads behind it are dropped, since none of them
can be preferred any more; the threads before it go on and may yet replace it.

Two threads at one place have the same future, so only the first of them is followed.  The work for each character is
therefore bounded by the expression, not by the number of ways through it.

Main definitions: `Regex.branches`, the ways into a piece in order of preference; `Sweep.visit`, which opens the place
of a thread; `Regex.matchAt`, the preferred match from a given position; `Regex.search`, the preferred match from the
first position that has any.
-/
namespace Topical

/-! ## The ways into a piece -/

/-- A way into a piece: marks first, then either nothing more or one character and a remainder. -/
inductive Branch where
  | done (marks : List Mark)
  | step (marks : List Mark) (t : CharTest) (rest : Regex)
  deriving DecidableEq

/-- A branch with marks passed before it begins. -/
def Branch.after (ms : List Mark) : Branch → Branch
  | .done ns => .done (ms ++ ns)
  | .step ns t rest => .step (ms ++ ns) t rest

namespace Regex

/-- A sequence that leaves out a first part with nothing in it. -/
def andThen : Regex → Regex → Regex
  | empty, b => b
  | a, b => seq a b

/-- The ways into a piece at a position that may be the start or the end of the text, in order of preference: taking
before leaving, another round before none.  A round of a repetition takes at least one character. -/
def branches (atStart atStop : Bool) : Regex → List Branch
  | empty => [.done []]
  | test t => [.step [] t empty]
  | mark m => [.done [m]]
  | start => if atStart then [.done []] else []
  | stop => if atStop then [.done []] else []
  | seq a b => (branches atStart atStop a).flatMap fun
    | .done ms => (branches atStart atStop b).map (.after ms)
    | .step ms t rest => [.step ms t (andThen rest b)]
  | optional a => branches atStart atStop a ++ [.done []]
  | star a => ((branches atStart atStop a).filterMap fun
    | .done _ => none
    | .step ms t rest => some (.step ms t (andThen rest (star a)))) ++ [.done []]

end Regex

/-! ## Threads -/

/-- A place in an expression: what remains of a piece, and the number of the piece after it. -/
structure Place where
  inside : Regex
  next : Nat
  deriving DecidableEq

/-- Marks with the positions at which they were passed, latest first. -/
abbrev Trace := List (Mark × Nat)

def Trace.pass (tr : Trace) (pos : Nat) (ms : List Mark) : Trace :=
  ms.foldl (fun tr m => (m, pos) :: tr) tr

structure Thread where
  place : Place
  trace : Trace
  deriving DecidableEq

/-! ## Sweeping the threads of one position -/

/-- What visiting threads at one position has come to. -/
structure Sweep where
  opened : List Place
  /-- The threads that wait for a character, latest first, each with the test it waits for. -/
  waiting : List (CharTest × Thread)
  /-- The trace of the thread that got through; nothing is added after it. -/
  through : Option Trace

namespace Sweep

def fresh : Sweep := ⟨[], [], none⟩

def wait (sw : Sweep) (t : CharTest) (th : Thread) : Sweep :=
  if sw.through.isSome then sw else { sw with waiting := (t, th) :: sw.waiting }

def passThrough (sw : Sweep) (tr : Trace) : Sweep := { sw with through := sw.through.or (some tr) }

/-- Opens the place of a thread, unless an earlier thread got through or was there.  Where the piece is done, the next
one is opened in turn. -/
def visit (pieces : Array Regex) (pos : Nat) (atStop : Bool) (sw : Sweep) (th : Thread) : Sweep :=
  if sw.through.isSome || sw.opened.contains th.place then sw
  else
    let sw := (th.place.inside.branches (pos == 0) atStop).foldl
      (fun sw branch => match branch with
        | .step ms t rest => sw.wait t ⟨⟨rest, th.place.next⟩, th.trace.pass pos ms⟩
        | .done ms =>
          if h : th.place.next < pieces.size then
            visit pieces pos atStop sw ⟨⟨pieces[th.place.next], th.place.next + 1⟩, th.trace.pass pos ms⟩
          else sw.passThrough (th.trace.pass pos ms))
      sw
    { sw with opened := th.place :: sw.opened }
termination_by pieces.size - th.place.next

def ofThreads (pieces : Array Regex) (pos : Nat) (atStop : Bool) (threads : List Thread) : Sweep :=
  threads.foldl (visit pieces pos atStop) fresh

/-- The threads that wait for the character `c`, in order. -/
def reading (sw : Sweep) (c : Char) : List Thread :=
  sw.waiting.reverse.filterMap fun w => if w.1.accepts c then some w.2 else none

end Sweep

/-! ## Searching -/

namespace Regex

/-- The trace preferred among those of `threads`, and `best` if none of them gets through. -/
def run (pieces : Array Regex) (best : Option Trace) (pos : Nat) (threads : List Thread) : Text → Option Trace
  | [] => (Sweep.ofThreads pieces pos true threads).through.or best
  | c :: cs =>
    let sw := Sweep.ofThreads pieces pos false threads
    match sw.reading c with
    | [] => sw.through.or best
    | th :: ths => run pieces (sw.through.or best) (pos + 1) (th :: ths) cs

/-- The preferred match that begins at position `pos`, where `t` is the text from there on. -/
def matchAt (pieces : Array Regex) (pos : Nat) (t : Text) : Option Trace :=
  run pieces none pos [⟨⟨.empty, 0⟩, []⟩] t

/-- The preferred match of the first position at which there is one, where `t` is the text from `pos` on. -/
def searchFrom (pieces : Array Regex) (pos : Nat) : Text → Option Trace
  | [] => matchAt pieces pos []
  | c :: cs => match matchAt pieces pos (c :: cs) with
    | some tr => some tr
    | none => searchFrom pieces (pos + 1) cs

def search (pieces : Array Regex) (t : Text) : Option Trace := searchFrom pieces 0 t

end Regex

/-! ## Groups -/

/-- The part of the text that the group numbered `n` last enclosed, if it took part. -/
def Trace.group? (tr : Trace) (t : Text) (n : Nat) : Option Text :=
  match tr.lookup (.opens n), tr.lookup (.closes n) with
  | some i, some j => some ((t.drop i).take (j - i))
  | _, _ => none

end Topical
