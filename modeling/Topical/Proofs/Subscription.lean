import Topical.Filter
import Topical.Proofs.Formatting
/-!
# Matching and formatting within the subscription

A pattern is subscribed to by its filter, so a topic that it matches should be one that the filter accepts.  This holds
of the topics that follow the segments, a slash at the end set aside (`Pattern.accepts_filter_of_follows`).  It fails
for those that lack the slash between a literal and the levels of a final multi-level wildcard
(`Pattern.not_accepts_filter_of_glued`).

A topic that is formatted for publishing lacks no slash and has none too many, so the filter accepts it as it is
(`Pattern.accepts_filter_of_format`).
-/
namespace Topical

/-! ## A slash at the end -/

theorem stripTrailingSlash_append_of_ne_nil (u : Text) {v : Text} (h : v ≠ []) :
    stripTrailingSlash (u ++ v) = u ++ stripTrailingSlash v := by
  unfold stripTrailingSlash
  rw [List.getLast?_append_of_ne_nil u h, List.dropLast_append_of_ne_nil h]
  split <;> rfl

/-- Without the slash at its end a text is spelled by the same level values. -/
theorem Spells.stripTrailingSlash {vs : List Text} {u : Text} (hu : Spells vs u) (hvs : ∀ v ∈ vs, isLevelValue v) :
    Spells vs (stripTrailingSlash u) := by
  induction vs generalizing u with
  | nil =>
    obtain rfl := spells_nil.1 hu
    exact spells_nil.2 rfl
  | cons v vs ih =>
    obtain ⟨hv, hvs⟩ := List.forall_mem_cons.1 hvs
    rcases spells_cons.1 hu with ⟨rfl, rfl⟩ | ⟨x, rfl, hx⟩
    · rw [stripTrailingSlash_of_notMem (slash_notMem hv)]
      exact spells_singleton u
    · by_cases hnil : x = []
      · subst hnil
        rw [stripTrailingSlash_append]
        cases vs with
        | nil => exact spells_singleton v
        | cons w ws =>
          rcases spells_cons.1 hx with ⟨-, rfl⟩ | ⟨y, hy, -⟩
          · exact absurd (hvs [] List.mem_cons_self) (by decide)
          · exact absurd hy (by simp)
      · rw [show v ++ '/' :: x = (v ++ ['/']) ++ x by simp, stripTrailingSlash_append_of_ne_nil _ hnil,
          List.append_assoc]
        exact (ih hx hvs).slash v

theorem Spells.ne_nil {vs : List Text} {u : Text} (hu : Spells vs u) (hvs : ∀ v ∈ vs, isLevelValue v)
    (hne : vs ≠ []) : u ≠ [] := by
  rintro rfl
  refine hne ?_
  rw [← capturedLevels_of_spells hvs hu]
  rfl

theorem Glued.ne_nil {segments : List Segment} {t : Text} (h : Glued segments t) : t ≠ [] := by
  cases h with
  | here hne hvs hu => exact fun he => hu.ne_nil hvs hne (List.append_eq_nil_iff.1 he).2
  | there _ _ => simp

/-- The slash at the end does not make up for the one that lacks. -/
theorem Glued.stripTrailingSlash {segments : List Segment} {t : Text} (h : Glued segments t) :
    Glued segments (stripTrailingSlash t) := by
  induction h with
  | here hne hvs hu =>
    rw [stripTrailingSlash_append_of_ne_nil _ (hu.ne_nil hvs hne)]
    exact .here hne hvs (hu.stripTrailingSlash hvs)
  | @there s rest l t hl hglued ih =>
    rw [show l ++ '/' :: t = (l ++ ['/']) ++ t by simp, stripTrailingSlash_append_of_ne_nil _ hglued.ne_nil,
      List.append_assoc]
    exact .there hl ih

/-! ## The rule of the broker -/

namespace Filter

theorem acceptsLevels_multi (ls : List Text) : acceptsLevels [['#']] ls = true := by
  cases ls <;> rfl

/-- A first level is accepted, and the others after it, unless the filter asks for nothing more. -/
theorem acceptsLevels_cons (f : Text) (fs : List Text) (l : Text) (ls : List Text) :
    acceptsLevels (f :: fs) (l :: ls) = true ↔
      f = ['#'] ∧ fs = [] ∨ (f = ['+'] ∨ f = l) ∧ acceptsLevels fs ls = true := by
  by_cases h : f = ['#'] ∧ fs = []
  · obtain ⟨rfl, rfl⟩ := h
    simp [acceptsLevels_multi]
  · have hstep : acceptsLevels (f :: fs) (l :: ls) = ((f == ['+'] || f == l) && acceptsLevels fs ls) := by
      rw [acceptsLevels]
      rintro rfl rfl
      exact h ⟨rfl, rfl⟩
    simp [hstep, h]

end Filter

theorem Follows.acceptsLevels {segments : List Segment} {ls : List Text} (h : Follows segments ls) :
    Filter.acceptsLevels (segments.map Segment.asFilter) ls = true := by
  induction h with
  | nil => rfl
  | multi => exact Filter.acceptsLevels_multi _
  | @cons s rest l ls hl _ ih =>
    rw [List.map_cons, Filter.acceptsLevels_cons]
    refine .inr ⟨?_, ih⟩
    cases s with
    | literal text => exact .inr hl.symm
    | single name => exact .inl rfl
    | multi name => exact hl.elim

theorem Follows.acceptsLevels_of_nil {segments : List Segment} (h : Follows segments []) (hne : segments ≠ [])
    (ls : List Text) : Filter.acceptsLevels (segments.map Segment.asFilter) ls = true := by
  cases h with
  | nil => exact absurd rfl hne
  | multi _ => exact Filter.acceptsLevels_multi ls

/-- The level into which the wildcard's first level runs is not the literal's. -/
theorem Glued.not_acceptsLevels {segments : List Segment} {t : Text} (h : Glued segments t) :
    IsLayout segments → Filter.acceptsLevels (segments.map Segment.asFilter) (splitLevels t) = false := by
  induction h with
  | @here text name vs u hne hvs hu =>
    intro hlayout
    obtain ⟨hslash, -⟩ := List.forall_mem_cons.1 hlayout.slash_notMem
    obtain ⟨hliteral, -⟩ := List.forall_mem_cons.1 hlayout.ofLevel_eq
    obtain ⟨v, vs, rfl⟩ := List.exists_cons_of_ne_nil hne
    obtain ⟨hv, -⟩ := List.forall_mem_cons.1 hvs
    -- the first level of the topic is the literal with the first level of the wildcard
    have hsplit : ∃ ls, splitLevels (text ++ u) = (text ++ v) :: ls := by
      have hnot : '/' ∉ text ++ v := fun hm => (List.mem_append.1 hm).elim hslash (slash_notMem hv)
      rcases spells_cons.1 hu with ⟨-, rfl⟩ | ⟨x, rfl, -⟩
      · exact ⟨[], splitLevels_of_notMem hnot⟩
      · rw [← List.append_assoc, splitLevels_append_slash, splitLevels_of_notMem hnot]
        exact ⟨splitLevels x, rfl⟩
    obtain ⟨ls, hls⟩ := hsplit
    rw [hls, Bool.eq_false_iff, ne_eq, List.map_cons, Filter.acceptsLevels_cons]
    rintro (⟨-, hnil⟩ | ⟨htext | htext, -⟩)
    · cases hnil
    · change text = ['+'] at htext
      rw [htext] at hliteral
      cases hliteral
    · exact ne_nil_of_isLevelValue hv (List.append_right_eq_self.1 htext.symm)
  | @there s rest l t hl hglued ih =>
    intro hlayout
    have hne : rest ≠ [] := by
      rintro rfl
      cases hglued
    have hnot := hl.slash_notMem (hlayout.slash_notMem s List.mem_cons_self)
    rw [splitLevels_append_slash, splitLevels_of_notMem hnot, List.singleton_append, Bool.eq_false_iff, ne_eq,
      List.map_cons, Filter.acceptsLevels_cons, ih (hlayout.tail hne)]
    simp [hne]

/-- The levels of a spelled text begin with those that spell it. -/
theorem Spells.exists_splitLevels_eq {ls : List Text} {t : Text} (ht : Spells ls t) (h : ∀ l ∈ ls, '/' ∉ l) :
    ∃ after, splitLevels t = ls ++ after := by
  by_cases hne : ls = []
  · exact ⟨splitLevels t, by rw [hne, List.nil_append]⟩
  · rcases splitLevels_of_spells h hne ht with hs | hs
    · exact ⟨[], by rw [hs, List.append_nil]⟩
    · exact ⟨[[]], hs⟩

/-- The levels before a final multi-level wildcard stand first. -/
theorem Follows.forall₂_take {before : List Segment} {name : Text} {ls : List Text}
    (h : Follows (before ++ [.multi name]) ls) (after : List Text) :
    List.Forall₂ Segment.TakesLevel before ((ls ++ after).take before.length) := by
  induction before generalizing ls with
  | nil => exact .nil
  | cons s before ih =>
    rw [List.cons_append] at h
    generalize hrest : before ++ [Segment.multi name] = rest at h ih
    cases h with
    | multi _ => exact absurd hrest (by simp)
    | cons hl hfollows => exact .cons hl (ih hfollows)

/-! ## A pattern and its filter -/

namespace Pattern

section

variable [Engine] {p : Pattern} {t : Text}

theorem splitLevels_filter (p : Pattern) : splitLevels p.filter = p.segments.map Segment.asFilter := by
  refine splitLevels_joinLevels (fun f hf => ?_) (by simpa using p.isLayout.ne_nil)
  obtain ⟨s, hs, rfl⟩ := List.mem_map.1 hf
  cases s with
  | literal text => exact p.isLayout.slash_notMem _ hs
  | _ => simp [Segment.asFilter]

/-- The levels that follow the segments are accepted, joined without a slash at the end. -/
theorem accepts_filter_joinLevels {ls : List Text} (h : Follows p.segments ls) :
    Filter.accepts p.filter (joinLevels ls) = true := by
  rw [Filter.accepts, splitLevels_filter]
  by_cases hne : ls = []
  · -- no level at all is one empty level of the topic, which is left to the multi-level wildcard
    subst hne
    exact h.acceptsLevels_of_nil p.isLayout.ne_nil _
  · rw [splitLevels_joinLevels (h.slash_notMem p.isLayout.slash_notMem) hne]
    exact h.acceptsLevels

theorem accepts_filter_of_follows {ls : List Text} (h : Follows p.segments ls) (ht : Spells ls t) :
    Filter.accepts p.filter t = true ∨ Filter.accepts p.filter (stripTrailingSlash t) = true := by
  rcases ht with rfl | ⟨-, rfl⟩
  · exact .inl (accepts_filter_joinLevels h)
  · rw [stripTrailingSlash_append]
    exact .inr (accepts_filter_joinLevels h)

theorem not_accepts_filter_of_glued (h : Glued p.segments t) :
    ¬ (Filter.accepts p.filter t = true ∨ Filter.accepts p.filter (stripTrailingSlash t) = true) := by
  rw [Filter.accepts, Filter.accepts, splitLevels_filter, h.not_acceptsLevels p.isLayout,
    h.stripTrailingSlash.not_acceptsLevels p.isLayout]
  simp

/-- **A topic that is matched is accepted by the filter**, as it is or without one slash at its end, unless it lacks the
slash before the levels of a final multi-level wildcard.  If it does not lack this slash, its first levels are what the
segments before the wildcard ask for. -/
theorem accepts_filter_iff (h : p.isMatch t = true) :
    ((Filter.accepts p.filter t = true ∨ Filter.accepts p.filter (stripTrailingSlash t) = true) ↔
      ¬ Glued p.segments t) ∧
    (¬ Glued p.segments t → ∀ before name, p.segments = before ++ [.multi name] →
      List.Forall₂ Segment.TakesLevel before ((splitLevels t).take before.length)) := by
  have hfollows : ¬ Glued p.segments t → ∃ ls, Follows p.segments ls ∧ Spells ls t :=
    ((p.isMatch_iff t).1 h).resolve_right
  refine ⟨⟨fun ha hglued => not_accepts_filter_of_glued hglued ha, fun hnot => ?_⟩,
    fun hnot before name hsegments => ?_⟩
  · obtain ⟨ls, hls, ht⟩ := hfollows hnot
    exact accepts_filter_of_follows hls ht
  · obtain ⟨ls, hls, ht⟩ := hfollows hnot
    obtain ⟨after, hsplit⟩ := ht.exists_splitLevels_eq (hls.slash_notMem p.isLayout.slash_notMem)
    rw [hsplit]
    rw [hsegments] at hls
    exact hls.forall₂_take after

end

/-- A topic with an empty level and a slash at its end. -/
theorem accepts_filter_iff_empty_level :
    ∃ p, compile "ab//#x".toList = .ok p ∧ p.isMatch "ab//c/".toList = true ∧ ¬ Glued p.segments "ab//c/".toList ∧
      List.Forall₂ Segment.TakesLevel [.literal ['a', 'b'], .literal []] [['a', 'b'], []] := by
  let p : Pattern := ⟨"ab//#x".toList, [.literal ['a', 'b'], .literal [], .multi ['x']], ⟨_, _, _⟩, rfl, rfl⟩
  have hfollows : Follows p.segments [['a', 'b'], [], ['c']] := .cons rfl (.cons rfl (.multi (by decide)))
  have hmatch : p.isMatch "ab//c/".toList = true :=
    (p.isMatch_iff _).2 (.inl ⟨_, hfollows, .inr ⟨by simp, rfl⟩⟩)
  obtain ⟨hiff, hbefore⟩ := accepts_filter_iff hmatch
  have hnot : ¬ Glued p.segments "ab//c/".toList := hiff.1 (.inl rfl)
  exact ⟨p, rfl, hmatch, hnot, hbefore hnot [.literal ['a', 'b'], .literal []] ['x'] rfl⟩

/-- A pattern matches a topic without the slash, which its filter does not accept. -/
theorem isMatch_beyond_filter :
    ∃ p, compile "ab/#x".toList = .ok p ∧ p.isMatch "abc".toList = true ∧
      Filter.accepts p.filter "abc".toList = false ∧
      Filter.accepts p.filter (stripTrailingSlash "abc".toList) = false := by
  let p : Pattern := ⟨"ab/#x".toList, [.literal ['a', 'b'], .multi ['x']], ⟨_, _, _⟩, rfl, rfl⟩
  have hglued : Glued p.segments "abc".toList :=
    @Glued.here ['a', 'b'] ['x'] [['c']] ['c'] (by simp) (by decide) (spells_singleton ['c'])
  exact ⟨p, rfl, (p.isMatch_iff _).2 (.inr hglued), rfl, rfl⟩

/-- **A formatted topic is accepted by the filter** as it is. -/
theorem accepts_filter_of_format [Engine] {p : Pattern} {params : Params} {t : Text} (h : p.format params = .ok t) :
    Filter.accepts p.filter t = true := by
  obtain ⟨lss, hlss, rfl⟩ := format_eq_ok_iff.1 h
  obtain ⟨hfollows, -, -⟩ := follows_of_fillFrom p.isLayout.multi_last hlss
  exact accepts_filter_joinLevels hfollows

/-- Without levels for the multi-level wildcard the topic ends in the slash before an empty literal. -/
theorem accepts_filter_of_format_empty_levels :
    ∃ p params, compile "+x//#y".toList = .ok p ∧ p.format params = .ok "v/".toList ∧ p.filter = "+//#".toList ∧
      Filter.accepts p.filter "v/".toList = true := by
  let p : Pattern := ⟨"+x//#y".toList, [.single ['x'], .literal [], .multi ['y']], ⟨_, _, _⟩, rfl, rfl⟩
  let params : Params := .ofList [(['x'], .single ['v']), (['y'], .multi [])]
  have hformat : p.format params = .ok "v/".toList := rfl
  exact ⟨p, params, rfl, hformat, rfl, accepts_filter_of_format hformat⟩

end Pattern
end Topical
