import Topical.Proofs.Formatting
/-!
# The first fault

Formatting fails for the sake of one wildcard.  What can be wrong with a wildcard is said here without the formatter:
it has no name, or there is no value under its name, or one of the other kind, or one with a level that is no level
value (`Fault`).  Wildcards of both kinds are filled by one rule (`Pattern.fill_wildcard`), which fails with this fault
(`Pattern.fill_eq_error_iff`).  So a pattern is formatted if no segment has a fault, and otherwise the fault of the
first segment that has one is reported (`Pattern.format_first_fault`).
-/
namespace Topical

/-- The levels of a value of either kind. -/
def Value.levels : Value → List Text
  | single level => [level]
  | multi levels => levels

/-- What is wrong with a wildcard that is the segment numbered `position`.  Each fault excludes those before it. -/
inductive Fault (params : Params) (position : Nat) (kind : Kind) (name : Text) : FormatError → Prop where
  | unnamed : name = [] → Fault params position kind name (.unnamedWildcard position)
  | missing : name ≠ [] → params.get? name = none → Fault params position kind name (.missingParameter name)
  | mismatch {value : Value} : name ≠ [] → params.get? name = some value → value.kind ≠ kind →
    Fault params position kind name (.kindMismatch name kind)
  /-- The first level that is no level value counts. -/
  | invalid {value : Value} {before : List Text} {level : Text} {after : List Text} :
    name ≠ [] → params.get? name = some value → value.kind = kind →
    value.levels = before ++ level :: after → (∀ l ∈ before, isLevelValue l) → isLevelValue level = false →
    Fault params position kind name (.invalidValue name level)

namespace Segment

/-- Literals have no faults. -/
def HasFault (params : Params) (position : Nat) (s : Segment) (e : FormatError) : Prop :=
  ∃ kind name, s = wildcard kind name ∧ Fault params position kind name e

/-- The levels that stand for a segment in a topic. -/
def filling (params : Params) : Segment → List Text
  | literal text => [text]
  | single name | multi name => (params.get? name).elim [] Value.levels

end Segment

/-- No segment has a fault, where the first is the segment numbered `k`. -/
def FaultFree (params : Params) (k : Nat) (segments : List Segment) : Prop :=
  ∀ (i : Nat) (s : Segment), segments[i]? = some s → ∀ e, ¬ s.HasFault params (k + i) e

variable {params : Params} {k : Nat}

theorem faultFree_nil : FaultFree params k [] := fun _ _ h => by cases h

theorem faultFree_cons {s : Segment} {rest : List Segment} :
    FaultFree params k (s :: rest) ↔ (∀ e, ¬ s.HasFault params k e) ∧ FaultFree params (k + 1) rest := by
  have hnext : ∀ i, k + 1 + i = k + (i + 1) := fun i => by omega
  constructor
  · intro h
    refine ⟨h 0 s rfl, fun i s' hs' => ?_⟩
    rw [hnext]
    exact h (i + 1) s' hs'
  · rintro ⟨hs, hrest⟩ i s' hs'
    cases i with
    | zero =>
      obtain rfl := Option.some.inj hs'
      exact hs
    | succ i =>
      rw [← hnext]
      exact hrest i s' hs'

namespace Pattern

/-! ## One segment -/

theorem bind_eq_error_iff {ε α β : Type} {x : Except ε α} {f : α → Except ε β} {e : ε} :
    x >>= f = .error e ↔ x = .error e ∨ ∃ a, x = .ok a ∧ f a = .error e := by
  cases x <;> simp [bind, Except.bind]

theorem lookup_eq_error_iff {name : Text} {position : Nat} {e : FormatError} :
    lookup params name position = .error e ↔
      name = [] ∧ e = .unnamedWildcard position ∨
      name ≠ [] ∧ params.get? name = none ∧ e = .missingParameter name := by
  unfold lookup
  split
  · rename_i h
    simp [List.isEmpty_iff.1 h, eq_comm]
  · rename_i h
    have hne : name ≠ [] := by simpa using h
    cases params.get? name <;> simp [hne, eq_comm]

/-- **Wildcards of both kinds are filled by one rule.** -/
theorem fill_wildcard (kind : Kind) (name : Text) (position : Nat) :
    fill params (.wildcard kind name) position = lookup params name position >>= fun value =>
      if value.kind = kind then
        match value.levels.find? (!isLevelValue ·) with
        | some level => .error (.invalidValue name level)
        | none => .ok value.levels
      else .error (.kindMismatch name kind) := by
  cases kind with
  | single =>
    refine congrArg (lookup params name position >>= ·) (funext fun value => ?_)
    cases value with
    | single level => cases h : isLevelValue level <;> simp [h, Value.kind, Value.levels]
    | multi levels => rfl
  | multi =>
    refine congrArg (lookup params name position >>= ·) (funext fun value => ?_)
    cases value with
    | single level => rfl
    | multi levels => rfl

theorem fill_wildcard_eq_error_iff {kind : Kind} {name : Text} {position : Nat} {e : FormatError} :
    fill params (.wildcard kind name) position = .error e ↔ Fault params position kind name e := by
  rw [fill_wildcard, bind_eq_error_iff, lookup_eq_error_iff]
  simp only [lookup_eq_ok_iff]
  constructor
  · rintro ((⟨hnil, rfl⟩ | ⟨hne, hnone, rfl⟩) | ⟨value, ⟨hne, hget⟩, hvalue⟩)
    · exact .unnamed hnil
    · exact .missing hne hnone
    · split at hvalue
      · rename_i hkind
        split at hvalue
        · rename_i level hfind
          obtain rfl := Except.error.inj hvalue
          obtain ⟨hlevel, before, after, hlevels, hbefore⟩ := List.find?_eq_some_iff_append.1 hfind
          exact .invalid hne hget hkind hlevels (by simpa using hbefore) (by simpa using hlevel)
        · cases hvalue
      · rename_i hkind
        obtain rfl := Except.error.inj hvalue
        exact .mismatch hne hget hkind
  · intro h
    cases h with
    | unnamed hnil => exact .inl (.inl ⟨hnil, rfl⟩)
    | missing hne hnone => exact .inl (.inr ⟨hne, hnone, rfl⟩)
    | mismatch hne hget hkind => exact .inr ⟨_, ⟨hne, hget⟩, if_neg hkind⟩
    | @invalid value before level after hne hget hkind hlevels hbefore hlevel =>
      have hfind : value.levels.find? (!isLevelValue ·) = some level :=
        List.find?_eq_some_iff_append.2 ⟨by simpa using hlevel, before, after, hlevels, by simpa using hbefore⟩
      refine .inr ⟨value, ⟨hne, hget⟩, ?_⟩
      rw [if_pos hkind, hfind]

/-- **A segment cannot be filled if it has a fault.** -/
theorem fill_eq_error_iff {s : Segment} {position : Nat} {e : FormatError} :
    fill params s position = .error e ↔ s.HasFault params position e := by
  constructor
  · intro h
    cases s with
    | literal text => cases h
    | single name => exact ⟨.single, name, rfl, fill_wildcard_eq_error_iff.1 h⟩
    | multi name => exact ⟨.multi, name, rfl, fill_wildcard_eq_error_iff.1 h⟩
  · rintro ⟨kind, name, rfl, h⟩
    exact fill_wildcard_eq_error_iff.2 h

theorem eq_filling_of_fill {s : Segment} {position : Nat} {ls : List Text} (h : fill params s position = .ok ls) :
    ls = s.filling params := by
  cases s with
  | literal text => exact (Except.ok.inj h).symm
  | single name =>
    obtain ⟨l, -, hget, -, rfl⟩ := fill_single_eq_ok_iff.1 h
    simp [Segment.filling, hget, Value.levels]
  | multi name =>
    obtain ⟨-, hget, -⟩ := fill_multi_eq_ok_iff.1 h
    simp [Segment.filling, hget, Value.levels]

theorem fill_eq_ok_iff {s : Segment} {position : Nat} {ls : List Text} :
    fill params s position = .ok ls ↔ (∀ e, ¬ s.HasFault params position e) ∧ ls = s.filling params := by
  simp only [← fill_eq_error_iff]
  constructor
  · intro h
    refine ⟨fun e he => ?_, eq_filling_of_fill h⟩
    rw [h] at he
    cases he
  · rintro ⟨hfree, rfl⟩
    cases hfill : fill params s position with
    | error e => exact absurd hfill (hfree e)
    | ok ls => rw [eq_filling_of_fill hfill]

/-! ## All segments -/

theorem fillFrom_eq_ok_iff {segments : List Segment} {lss : List (List Text)} :
    fillFrom params k segments = .ok lss ↔
      FaultFree params k segments ∧ lss = segments.map (Segment.filling params) := by
  induction segments generalizing k lss with
  | nil => simp [fillFrom_nil, faultFree_nil, eq_comm]
  | cons s rest ih =>
    simp only [fillFrom_cons_eq_ok_iff, fill_eq_ok_iff, ih, faultFree_cons]
    constructor
    · rintro ⟨_, _, ⟨hs, rfl⟩, ⟨hrest, rfl⟩, rfl⟩
      exact ⟨⟨hs, hrest⟩, rfl⟩
    · rintro ⟨⟨hs, hrest⟩, rfl⟩
      exact ⟨_, _, ⟨hs, rfl⟩, ⟨hrest, rfl⟩, rfl⟩

theorem fillFrom_cons_eq_error_iff {s : Segment} {rest : List Segment} {e : FormatError} :
    fillFrom params k (s :: rest) = .error e ↔
      s.HasFault params k e ∨ (∀ e', ¬ s.HasFault params k e') ∧ fillFrom params (k + 1) rest = .error e := by
  simp only [fillFrom_cons, bind_eq_error_iff, fill_eq_error_iff, fill_eq_ok_iff, pure, Except.pure, reduceCtorEq,
    and_false, exists_false, or_false]
  constructor
  · rintro (hs | ⟨_, ⟨hs, -⟩, hrest⟩)
    · exact .inl hs
    · exact .inr ⟨hs, hrest⟩
  · rintro (hs | ⟨hs, hrest⟩)
    · exact .inl hs
    · exact .inr ⟨_, ⟨hs, rfl⟩, hrest⟩

/-- **The fault of the first segment that has one is reported.** -/
theorem fillFrom_eq_error_iff {segments : List Segment} {e : FormatError} :
    fillFrom params k segments = .error e ↔ ∃ before s after, segments = before ++ s :: after ∧
      s.HasFault params (k + before.length) e ∧ FaultFree params k before := by
  induction segments generalizing k with
  | nil => simp [fillFrom_nil]
  | cons s rest ih =>
    have hnext : ∀ before : List Segment, k + (s :: before).length = k + 1 + before.length := fun before => by
      rw [List.length_cons]
      omega
    rw [fillFrom_cons_eq_error_iff, ih]
    constructor
    · rintro (hs | ⟨hs, before, s', after, rfl, hs', hbefore⟩)
      · exact ⟨[], s, rest, rfl, hs, faultFree_nil⟩
      · exact ⟨s :: before, s', after, rfl, by rwa [hnext], faultFree_cons.2 ⟨hs, hbefore⟩⟩
    · rintro ⟨before, s', after, hsplit, hs', hbefore⟩
      cases before with
      | nil =>
        obtain ⟨rfl, -⟩ := List.cons.inj hsplit
        exact .inl hs'
      | cons x before =>
        obtain ⟨rfl, rfl⟩ := List.cons.inj hsplit
        obtain ⟨hs, hbefore⟩ := faultFree_cons.1 hbefore
        rw [hnext] at hs'
        exact .inr ⟨hs, before, s', after, rfl, hs', hbefore⟩

theorem format_eq_error_iff [Engine] {p : Pattern} {e : FormatError} :
    p.format params = .error e ↔ fillFrom params 0 p.segments = .error e := by
  simp [format_eq, bind_eq_error_iff, pure, Except.pure]

/-- **Formatting succeeds if no segment has a fault**, and the topic is then made of what stands for the segments, a
multi-level wildcard without levels leaving nothing behind.  Otherwise it fails with the fault of the first segment that
has one; no segment has more than one. -/
theorem format_first_fault [Engine] (p : Pattern) (params : Params) :
    (∀ e, p.format params = .error e ↔ ∃ before s after, p.segments = before ++ s :: after ∧
      s.HasFault params before.length e ∧ FaultFree params 0 before) ∧
    (∀ i s e e', Segment.HasFault params i s e → Segment.HasFault params i s e' → e = e') ∧
    (∀ t, p.format params = .ok t ↔
      FaultFree params 0 p.segments ∧ t = joinLevels (p.segments.flatMap (Segment.filling params))) ∧
    ∀ before name, p.segments = before ++ [.multi name] → params.get? name = some (.multi []) →
      p.segments.flatMap (Segment.filling params) = before.flatMap (Segment.filling params) := by
  refine ⟨fun e => ?_, fun i s e e' he he' => ?_, fun t => ?_, fun before name hsegments hget => ?_⟩
  · rw [format_eq_error_iff, fillFrom_eq_error_iff]
    simp only [Nat.zero_add]
  · rw [← fill_eq_error_iff] at he he'
    exact Except.error.inj (he.symm.trans he')
  · rw [format_eq_ok_iff]
    simp only [fillFrom_eq_ok_iff]
    constructor
    · rintro ⟨_, ⟨hfree, rfl⟩, rfl⟩
      exact ⟨hfree, by rw [List.flatMap_def]⟩
    · rintro ⟨hfree, rfl⟩
      exact ⟨_, ⟨hfree, rfl⟩, by rw [List.flatMap_def]⟩
  · have hnone : Segment.filling params (.multi name) = [] := by simp [Segment.filling, hget, Value.levels]
    rw [hsegments, List.flatMap_append, List.flatMap_singleton, hnone, List.append_nil]

/-- A value with a space in it is reported before one that is missing; without levels for the last wildcard the topic
ends before its slash. -/
theorem format_first_fault_empty_levels :
    ∃ p params params', compile "a/+x/#y".toList = .ok p ∧
      p.segments = [.literal ['a'], .single ['x']] ++ [.multi ['y']] ∧ params.get? ['y'] = some (.multi []) ∧
      p.format params = .ok "a/v".toList ∧ p.segments.flatMap (Segment.filling params) = [['a'], ['v']] ∧
      params'.get? ['y'] = none ∧ p.format params' = .error (.invalidValue ['x'] "v w".toList) := by
  let p : Pattern := ⟨"a/+x/#y".toList, [.literal ['a'], .single ['x'], .multi ['y']], ⟨_, _, _⟩, rfl, rfl⟩
  let params : Params := .ofList [(['x'], .single ['v']), (['y'], .multi [])]
  let params' : Params := .ofList [(['x'], .single "v w".toList)]
  obtain ⟨-, -, -, hlevels⟩ := format_first_fault p params
  obtain ⟨herror, -⟩ := format_first_fault p params'
  have hfree : FaultFree params' 0 [.literal ['a']] := (fillFrom_eq_ok_iff.1 rfl).1
  have hfault : Segment.HasFault params' 1 (.single ['x']) (.invalidValue ['x'] "v w".toList) :=
    fill_eq_error_iff.1 rfl
  exact ⟨p, params, params', rfl, rfl, rfl, rfl, hlevels [.literal ['a'], .single ['x']] ['y'] rfl rfl, rfl,
    (herror _).2 ⟨[.literal ['a']], .single ['x'], [.multi ['y']], rfl, hfault, hfree⟩⟩

end Pattern
end Topical
