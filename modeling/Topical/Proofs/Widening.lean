import Mathlib.Logic.Relation
import Topical.Proofs.Levelwise
/-!
# Widening a pattern

A pattern is widened by a step that puts a single-level wildcard in the place of a literal, or a multi-level wildcard in
the place of its last levels, none of which may hold other characters than a wildcard consumes.  What matches before
such a step matches after it (`Widens.isRead`), so what matches a pattern also matches those that are reached by steps
(`Pattern.isMatch_of_widens`), though not by the same levels if a slash lacks.
-/
namespace Topical

/-- The segment takes level values only. -/
def Segment.TakesValues : Segment → Prop
  | literal text => isLevelValue text
  | single _ | multi _ => True

/-- One step by which a list of segments is widened. -/
inductive Widens : List Segment → List Segment → Prop where
  | single {before after : List Segment} {text : Text} (name : Text) : isLevelValue text →
    Widens (before ++ .literal text :: after) (before ++ .single name :: after)
  /-- No levels at all may be replaced if there is no multi-level wildcard yet. -/
  | multi {before last : List Segment} (name : Text) : (∀ s ∈ last, s.TakesValues) →
    (last = [] → ∀ s ∈ before, s.isMulti = false) → Widens (before ++ last) (before ++ [.multi name])

/-- The topic follows the segments, or lacks a slash before the levels of the multi-level wildcard. -/
def IsRead (segments : List Segment) (t : Text) : Prop := (∃ ls, Follows segments ls ∧ Spells ls t) ∨ Glued segments t

variable {segments before rest rest' : List Segment} {ls : List Text} {t : Text}

theorem IsRead.cons {s : Segment} {l : Text} (hl : s.TakesLevel l) (h : IsRead rest t) :
    IsRead (s :: rest) (l ++ '/' :: t) := by
  rcases h with ⟨ls, hls, ht⟩ | hglued
  · exact .inl ⟨l :: ls, .cons hl hls, ht.slash l⟩
  · exact .inr (.there hl hglued)

/-! ## Segments that take level values only -/

theorem Segment.TakesLevel.isLevelValue {s : Segment} {l : Text} (hl : s.TakesLevel l) (hs : s.TakesValues) :
    isLevelValue l := by
  cases s with
  | literal text =>
    obtain rfl := hl
    exact hs
  | single name => exact hl
  | multi name => exact hl.elim

theorem Follows.isLevelValue (h : Follows segments ls) : (∀ s ∈ segments, s.TakesValues) → ∀ l ∈ ls, isLevelValue l := by
  induction h with
  | nil => simp
  | multi hvs => exact fun _ => hvs
  | cons hl _ ih =>
    intro hvalues
    obtain ⟨hs, hrest⟩ := List.forall_mem_cons.1 hvalues
    exact List.forall_mem_cons.2 ⟨hl.isLevelValue hs, ih hrest⟩

/-- A literal that is a level value makes one with the level that runs into it. -/
theorem Glued.exists_spells (h : Glued segments t) :
    (∀ s ∈ segments, s.TakesValues) → ∃ vs, (∀ v ∈ vs, isLevelValue v) ∧ Spells vs t := by
  induction h with
  | here _ hvs hu => exact fun hvalues => Segment.exists_runsOver_append (hvalues _ List.mem_cons_self) rfl hvs hu
  | @there s rest l t hl _ ih =>
    intro hvalues
    obtain ⟨hs, hrest⟩ := List.forall_mem_cons.1 hvalues
    obtain ⟨vs, hvs, ht⟩ := ih hrest
    exact ⟨l :: vs, List.forall_mem_cons.2 ⟨hl.isLevelValue hs, hvs⟩, ht.slash l⟩

/-! ## One step -/

/-- Segments that follow may be replaced by wider ones, whatever stands before them. -/
theorem Follows.append_of_wider (hwider : ∀ ls, Follows rest ls → Follows rest' ls)
    (hlast : rest = [] → ∀ s ∈ before, s.isMulti = false) (h : Follows (before ++ rest) ls) :
    Follows (before ++ rest') ls := by
  induction before generalizing ls with
  | nil => exact hwider ls h
  | cons s before ih =>
    rw [List.cons_append] at h
    generalize hxs : before ++ rest = xs at h ih
    cases h with
    | cons hl hxls => exact .cons hl (ih (fun hnil x hx => hlast hnil x (List.mem_cons_of_mem _ hx)) hxls)
    | multi _ =>
      -- only what stands last may be a multi-level wildcard
      cases hlast (List.append_eq_nil_iff.1 hxs).2 _ List.mem_cons_self

/-- The literal to which a slash lacks stands before the replaced segments, among them, or right in front of them. -/
theorem IsRead.append_of_wider (hfollows : ∀ ls, Follows rest ls → Follows rest' ls)
    (hglued : ∀ t, Glued rest t → IsRead rest' t) (hmulti : ∀ n, rest = [.multi n] → ∃ name, rest' = [.multi name])
    (hlast : rest = [] → ∀ s ∈ before, s.isMulti = false) (h : IsRead (before ++ rest) t) :
    IsRead (before ++ rest') t := by
  rcases h with ⟨ls, hls, ht⟩ | h
  · exact .inl ⟨ls, hls.append_of_wider hfollows hlast, ht⟩
  · induction before generalizing t with
    | nil => exact hglued t h
    | cons s before ih =>
      rw [List.cons_append] at h
      generalize hxs : before ++ rest = xs at h ih
      cases h with
      | there hl hglued' =>
        exact .cons hl (ih (fun hnil x hx => hlast hnil x (List.mem_cons_of_mem _ hx)) hglued')
      | here hne hvs hu =>
        cases before with
        | nil =>
          -- the literal stays, and what is replaced is the multi-level wildcard alone
          obtain ⟨name, rfl⟩ := hmulti _ hxs
          exact .inr (.here hne hvs hu)
        | cons x before =>
          obtain ⟨rfl, hnil⟩ := List.cons.inj hxs
          cases hlast (List.append_eq_nil_iff.1 hnil).2 _ (List.mem_cons_of_mem _ List.mem_cons_self)

/-- **A step keeps what matches.** -/
theorem Widens.isRead (hstep : Widens segments rest) (h : IsRead segments t) : IsRead rest t := by
  cases hstep with
  | @single before after text name hv =>
    have hfollows : ∀ ls, Follows (.literal text :: after) ls → Follows (.single name :: after) ls := by
      rintro _ (_ | ⟨hl, hls⟩)
      obtain rfl := hl
      exact .cons hv hls
    have hglued : ∀ t, Glued (.literal text :: after) t → IsRead (.single name :: after) t := by
      intro t ht
      cases ht with
      | here _ hvs hu => exact Segment.TakesLevel.follows_or_glued (s := .single name) hv hvs hu
      | there hl hrest =>
        obtain rfl := hl
        exact .inr (.there hv hrest)
    exact h.append_of_wider hfollows hglued (by simp) (by simp)
  | @multi before last name hvalues hlast =>
    have hglued : ∀ t, Glued last t → IsRead [.multi name] t := by
      intro t ht
      obtain ⟨vs, hvs, hspell⟩ := ht.exists_spells hvalues
      exact .inl ⟨vs, .multi hvs, hspell⟩
    exact h.append_of_wider (fun ls hls => .multi (hls.isLevelValue hvalues)) hglued (fun _ _ => ⟨name, rfl⟩) hlast

/-! ## Any number of steps -/

theorem isRead_of_widens (hsteps : Relation.ReflTransGen Widens segments rest) (h : IsRead segments t) :
    IsRead rest t := by
  induction hsteps with
  | refl => exact h
  | tail _ hstep ih => exact hstep.isRead ih

/-- **What matches a pattern matches every wider one.** -/
theorem Pattern.isMatch_of_widens [Engine] {p q : Pattern} (hsteps : Relation.ReflTransGen Widens p.segments q.segments)
    (h : p.isMatch t = true) : q.isMatch t = true :=
  (q.isMatch_iff t).2 (isRead_of_widens hsteps ((p.isMatch_iff t).1 h))

/-- Two steps widen a pattern, and a topic that lacks a slash still matches. -/
theorem Pattern.isMatch_of_widens_two_steps :
    ∃ p q, compile "ab/c/#x".toList = .ok p ∧ compile "+y/#z".toList = .ok q ∧
      Relation.ReflTransGen Widens p.segments q.segments ∧ p.isMatch "ab/cd/e/".toList = true ∧
      q.isMatch "ab/cd/e/".toList = true := by
  let p : Pattern := ⟨"ab/c/#x".toList, [.literal ['a', 'b'], .literal ['c'], .multi ['x']], ⟨_, _, _⟩, rfl, rfl⟩
  let q : Pattern := ⟨"+y/#z".toList, [.single ['y'], .multi ['z']], ⟨_, _, _⟩, rfl, rfl⟩
  have hlast : Widens p.segments [.literal ['a', 'b'], .multi ['z']] :=
    @Widens.multi [.literal ['a', 'b']] [.literal ['c'], .multi ['x']] ['z']
      (by simp [Segment.TakesValues]; decide) (by simp)
  have hfirst : Widens [.literal ['a', 'b'], .multi ['z']] q.segments :=
    @Widens.single [] [.multi ['z']] ['a', 'b'] ['y'] (by decide)
  have hsteps : Relation.ReflTransGen Widens p.segments q.segments := (Relation.ReflTransGen.single hlast).tail hfirst
  have hc : Glued [.literal ['c'], .multi ['x']] "cd/e/".toList :=
    @Glued.here ['c'] ['x'] [['d'], ['e']] "d/e/".toList (by simp) (by decide) (.inr ⟨by simp, rfl⟩)
  have hglued : Glued p.segments "ab/cd/e/".toList := @Glued.there (.literal ['a', 'b']) _ ['a', 'b'] _ rfl hc
  have hmatch : p.isMatch "ab/cd/e/".toList = true := (p.isMatch_iff _).2 (.inr hglued)
  exact ⟨p, q, rfl, rfl, hsteps, hmatch, isMatch_of_widens hsteps hmatch⟩

end Topical
