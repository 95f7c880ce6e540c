import Mathlib.Data.List.Pairwise
import Topical.Proofs.Formatting
/-!
# Formatting what was matched

Parameters that were extracted from a topic can be put back into the pattern, if all its wildcards are named and no name
is used for wildcards of both kinds.  The topic that they give need not be the one they come from, since of the levels
under a repeated name only the last is kept; but it gives back the same parameters
(`Pattern.exists_format_of_matchTopic`).

If no name is repeated and no slash can lack, the parameters tell the levels, so the topic that they give is the one
they come from, but for a slash at its end (`Pattern.exists_format_eq_of_matchTopic`).
-/
namespace Topical
namespace Pattern

section

variable [Engine] {p : Pattern} {t : Text} {m : Params}

/-- **What was extracted can be put back**, if each wildcard has a name and none is the name of both kinds. -/
theorem exists_format_of_matchTopic (hnamed : ∀ s ∈ p.segments, s.isWildcard → s.paramName? ≠ none)
    (hkinds : ∀ name, .single name ∈ p.segments → .multi name ∉ p.segments) (h : p.matchTopic t = some m) :
    ∃ t', p.format m = .ok t' := by
  refine exists_format_iff.2 fun s hs hwild => ?_
  obtain ⟨n, hn⟩ := Option.ne_none_iff_exists'.1 (hnamed s hs hwild)
  have hmem : n ∈ m.names := by
    rw [names_of_matchTopic h, List.mem_eraseDups]
    exact List.mem_filterMap.2 ⟨s, hs, hn⟩
  obtain ⟨v, hv⟩ := Params.mem_names_iff.1 hmem
  obtain ⟨hne, hkind⟩ := Segment.paramName?_eq_some_iff.1 hn
  -- the wildcard that took the value has the name of `s`, hence its kind
  obtain ⟨x, hx, htakes⟩ := exists_takesEntry_of_get? h hv
  cases htakes with
  | single hl =>
    rcases hkind with rfl | rfl
    · exact ⟨_, .single hl, hne, hv⟩
    · exact absurd hs (hkinds n hx)
  | multi hvs =>
    rcases hkind with rfl | rfl
    · exact absurd hx (hkinds n hs)
    · exact ⟨_, .multi hvs, hne, hv⟩

/-- A formatted topic gives an entry for each named wildcard, with the value that it was made from. -/
theorem exists_ofList_of_format {t' : Text} (h : p.format m = .ok t') :
    ∃ es, p.matchTopic t' = some (.ofList es) ∧ es.map Prod.fst = p.paramNames ∧ ∀ e ∈ es, m.get? e.1 = some e.2 := by
  obtain ⟨lss, hlss, rfl⟩ := format_eq_ok_iff.1 h
  obtain ⟨hfollows, hentries, hvalues⟩ := follows_of_fillFrom p.isLayout.multi_last hlss
  exact ⟨_, p.matchTopic_of_follows hfollows (.inl rfl), hentries, hvalues⟩

/-- **Parameters that name the wildcards in order are given back by the topic that they format to.** -/
theorem matchTopic_of_format {t' : Text} (hnames : m.names = p.paramNames.eraseDups) (h : p.format m = .ok t') :
    p.matchTopic t' = some m := by
  obtain ⟨es, hmatch, hes, hvalues⟩ := exists_ofList_of_format h
  rw [hmatch, Params.ofList_eq_of_mem (by rw [hes, hnames]) hvalues]

/-- **Matching, formatting and matching again gives the same parameters**, in the same order. -/
theorem matchTopic_format_matchTopic (hnamed : ∀ s ∈ p.segments, s.isWildcard → s.paramName? ≠ none)
    (hkinds : ∀ name, .single name ∈ p.segments → .multi name ∉ p.segments) (h : p.matchTopic t = some m) :
    ∃ t', p.format m = .ok t' ∧ p.matchTopic t' = some m := by
  obtain ⟨t', ht'⟩ := exists_format_of_matchTopic hnamed hkinds h
  exact ⟨t', ht', matchTopic_of_format (names_of_matchTopic h) ht'⟩

end

/-- Of the levels under a repeated name the last is kept, a slash that lacks is put in and one at the end is dropped. -/
theorem matchTopic_format_matchTopic_repeated_name :
    ∃ p m, compile "+x/+x/b/#y".toList = .ok p ∧ (∀ s ∈ p.segments, s.isWildcard → s.paramName? ≠ none) ∧
      (∀ name, .single name ∈ p.segments → .multi name ∉ p.segments) ∧
      p.matchTopic "u/v/bc/d/".toList = some m ∧ p.format m = .ok "v/v/b/c/d".toList ∧
      p.matchTopic "v/v/b/c/d".toList = some m := by
  let before : List Segment := [.single ['x'], .single ['x']]
  let p : Pattern := ⟨"+x/+x/b/#y".toList, before ++ [.literal ['b'], .multi ['y']], ⟨_, _, _⟩, rfl, rfl⟩
  let m : Params := .ofList [(['x'], .single ['u']), (['x'], .single ['v']), (['y'], .multi [['c'], ['d']])]
  have hls : List.Forall₂ Segment.TakesLevel before [['u'], ['v']] :=
    .cons (show isLevelValue ['u'] from rfl) (.cons (show isLevelValue ['v'] from rfl) .nil)
  have hr : Trails [['c'], ['d']] "c/d/".toList := .joined (by simp) (by decide) (.inr ⟨by simp, rfl⟩)
  have hsegments : p.segments = before ++ [.literal ['b'], .multi ['y']] := rfl
  have hmatch : p.matchTopic "u/v/bc/d/".toList = some m := matchTopic_of_trails hsegments hls hr
  have hnamed : ∀ s ∈ p.segments, s.isWildcard → s.paramName? ≠ none := by decide
  have hkinds : ∀ name, .single name ∈ p.segments → .multi name ∉ p.segments := by
    simp [p, before]
  have hformat : p.format m = .ok "v/v/b/c/d".toList := rfl
  obtain ⟨t', ht', hback⟩ := matchTopic_format_matchTopic hnamed hkinds hmatch
  obtain rfl := Except.ok.inj (hformat.symm.trans ht')
  exact ⟨p, m, rfl, hnamed, hkinds, hmatch, hformat, hback⟩

end Pattern

/-! ## Names that are not repeated -/

/-- A name that is not repeated is the name of one segment. -/
theorem Segment.eq_of_paramName?_eq {segments : List Segment} (h : (segments.filterMap paramName?).Nodup)
    {s s' : Segment} (hs : s ∈ segments) (hs' : s' ∈ segments) {n : Text} (hn : s.paramName? = some n)
    (hn' : s'.paramName? = some n) : s = s' := by
  have hsymm : Std.Symm fun a b : Segment => ∀ x, a.paramName? = some x → ∀ y, b.paramName? = some y → x ≠ y :=
    ⟨fun a b hab x hx y hy hxy => hab y hy x hx hxy.symm⟩
  by_contra hne
  exact (List.pairwise_filterMap.1 h).forall hs hs' hne n hn n hn' rfl

/-- **Levels are told by their entries**, if each wildcard has a name. -/
theorem Follows.eq_of_levelEntries_eq {segments : List Segment} {ls : List Text} (h : Follows segments ls) :
    (∀ s ∈ segments, s.isWildcard → s.paramName? ≠ none) → ∀ {ls' : List Text}, Follows segments ls' →
      levelEntries segments ls = levelEntries segments ls' → ls = ls' := by
  induction h with
  | nil =>
    intro _ ls' h' _
    cases h'
    rfl
  | @multi name vs _ =>
    intro hnamed ls' h' hentries
    have hname : name ≠ [] := by simpa [Segment.paramName?] using hnamed _ (List.mem_singleton_self _) rfl
    cases h' with
    | cons hl _ => exact hl.elim
    | multi _ => simpa [levelEntries_multi_cons hname] using hentries
  | @cons s rest l ls hl _ ih =>
    intro hnamed ls' h' hentries
    obtain ⟨hs, hrest⟩ := List.forall_mem_cons.1 hnamed
    cases h' with
    | multi _ => exact hl.elim
    | @cons _ _ l' ls' hl' h' =>
      cases s with
      | literal text =>
        obtain rfl : l = l' := hl.trans hl'.symm
        rw [ih hrest h' hentries]
      | single name =>
        have hname : name ≠ [] := by simpa [Segment.paramName?] using hs rfl
        rw [levelEntries_single_cons hname, levelEntries_single_cons hname] at hentries
        obtain ⟨hentry, hafter⟩ := List.cons.inj hentries
        obtain rfl : l = l' := by simpa using hentry
        rw [ih hrest h' hafter]
      | multi name => exact hl.elim

namespace Pattern

section

variable [Engine] {p : Pattern} {t : Text} {m : Params}

section

variable (hnamed : ∀ s ∈ p.segments, s.isWildcard → s.paramName? ≠ none) (hnodup : p.paramNames.Nodup)
include hnamed hnodup

theorem multi_notMem_of_nodup (name : Text) (h : .single name ∈ p.segments) : .multi name ∉ p.segments := by
  intro hmulti
  obtain ⟨n, hn⟩ := Option.ne_none_iff_exists'.1 (hnamed _ h rfl)
  cases Segment.eq_of_paramName?_eq hnodup h hmulti hn hn

/-- The levels that give these parameters are the only ones. -/
theorem eq_of_ofList_levelEntries_eq {ls ls' : List Text} (h : Follows p.segments ls) (h' : Follows p.segments ls')
    (heq : Params.ofList (levelEntries p.segments ls) = .ofList (levelEntries p.segments ls')) : ls = ls' := by
  have hentries : ∀ ks, Follows p.segments ks →
      (Params.ofList (levelEntries p.segments ks)).entries = levelEntries p.segments ks := by
    intro ks hks
    have hnames : ((levelEntries p.segments ks).map Prod.fst).Nodup := by
      rw [hks.map_fst_levelEntries]
      exact hnodup
    exact Params.entries_ofList hnames
  refine h.eq_of_levelEntries_eq hnamed h' ?_
  rw [← hentries ls h, heq, hentries ls' h']

/-- **The topic is given back**, but for a slash at its end. -/
theorem exists_format_eq_of_matchTopic (hsingle : ¬ EndsInLiteralMulti p.segments) (h : p.matchTopic t = some m) :
    ∃ t', p.format m = .ok t' ∧ (t = t' ∨ t = t' ++ ['/']) := by
  obtain ⟨t', hformat⟩ := exists_format_of_matchTopic hnamed (multi_notMem_of_nodup hnamed hnodup) h
  have hback : p.matchTopic t' = some m := matchTopic_of_format (names_of_matchTopic h) hformat
  -- the levels of the formatted topic
  obtain ⟨lss, hlss, rfl⟩ := format_eq_ok_iff.1 hformat
  obtain ⟨hfollows', -, -⟩ := follows_of_fillFrom p.isLayout.multi_last hlss
  have hm' := p.matchTopic_of_follows hfollows' (.inl rfl)
  -- the levels of the topic itself
  have hnot : ¬ Glued p.segments t := fun hglued => hsingle hglued.endsInLiteralMulti
  obtain ⟨ls, hfollows, ht⟩ := ((p.isMatch_iff t).1 (isMatch_of_matchTopic h)).resolve_right hnot
  have hm := p.matchTopic_of_follows hfollows ht
  have hparams : Params.ofList (levelEntries p.segments ls) = .ofList (levelEntries p.segments lss.flatten) := by
    rw [← Option.some.inj (h.symm.trans hm), ← Option.some.inj (hback.symm.trans hm')]
  obtain rfl := eq_of_ofList_levelEntries_eq hnamed hnodup hfollows hfollows' hparams
  exact ⟨_, hformat, ht.imp_right And.right⟩

end

/-- Parameters of one pattern that are equal in contents are the same. -/
theorem eq_of_beq_of_matchTopic {u : Text} {m' : Params} (h : p.matchTopic t = some m) (hu : p.matchTopic u = some m')
    (heq : (m == m') = true) : m = m' := by
  have hnames : m.names = m'.names := (names_of_matchTopic h).trans (names_of_matchTopic hu).symm
  exact Params.eq_of_names_of_get? hnames fun n _ => Params.beq_iff_get?_eq.1 heq n

/-- **Formatting rebuilds the topic** that was matched, but for a slash at its end, if each wildcard has a name, no name
is repeated and no literal stands right before a final multi-level wildcard.  So topics that give the same parameters
differ by such a slash at most. -/
theorem format_rebuilds_topic (hnamed : ∀ s ∈ p.segments, s.isWildcard → s.paramName? ≠ none)
    (hnodup : p.paramNames.Nodup) (hsingle : ¬ EndsInLiteralMulti p.segments) (h : p.matchTopic t = some m) :
    (∃ t', p.format m = .ok t' ∧ (t = t' ∨ t = t' ++ ['/'])) ∧
    ∀ u m', p.matchTopic u = some m' → (m == m') = true → t = u ∨ t = u ++ ['/'] ∨ u = t ++ ['/'] := by
  obtain ⟨t', hformat, ht⟩ := exists_format_eq_of_matchTopic hnamed hnodup hsingle h
  refine ⟨⟨t', hformat, ht⟩, fun u m' hu heq => ?_⟩
  obtain rfl := eq_of_beq_of_matchTopic h hu heq
  obtain ⟨t'', hformat', ht'⟩ := exists_format_eq_of_matchTopic hnamed hnodup hsingle hu
  obtain rfl := Except.ok.inj (hformat.symm.trans hformat')
  rcases ht with rfl | rfl
  · rcases ht' with rfl | rfl
    · exact .inl rfl
    · exact .inr (.inr rfl)
  · rcases ht' with rfl | rfl
    · exact .inr (.inl rfl)
    · exact .inl rfl

end

/-- An empty level, and a slash at the end that is not put back. -/
theorem format_rebuilds_topic_empty_level :
    ∃ p m, compile "a//+x/#y".toList = .ok p ∧ (∀ s ∈ p.segments, s.isWildcard → s.paramName? ≠ none) ∧
      p.paramNames.Nodup ∧ ¬ EndsInLiteralMulti p.segments ∧ p.matchTopic "a//b/c/d/".toList = some m ∧
      p.format m = .ok "a//b/c/d".toList ∧
      ∀ u m', p.matchTopic u = some m' → (m == m') = true →
        "a//b/c/d/".toList = u ∨ "a//b/c/d/".toList = u ++ ['/'] ∨ u = "a//b/c/d/".toList ++ ['/'] := by
  let segments : List Segment := [.literal ['a'], .literal [], .single ['x'], .multi ['y']]
  let p : Pattern := ⟨"a//+x/#y".toList, segments, ⟨_, _, _⟩, rfl, rfl⟩
  let m : Params := .ofList [(['x'], .single ['b']), (['y'], .multi [['c'], ['d']])]
  have hnamed : ∀ s ∈ p.segments, s.isWildcard → s.paramName? ≠ none := by decide
  have hnodup : p.paramNames.Nodup := by decide
  have hsingle : ¬ EndsInLiteralMulti p.segments := by
    rintro ⟨before, text, name, he⟩
    have hget := congrArg (fun l => l.reverse[1]?) he
    simp [p, segments] at hget
  have hfollows : Follows p.segments [['a'], [], ['b'], ['c'], ['d']] :=
    .cons rfl (.cons rfl (.cons rfl (.multi (by decide))))
  have hmatch : p.matchTopic "a//b/c/d/".toList = some m := p.matchTopic_of_follows hfollows (.inr ⟨by simp, rfl⟩)
  have hformat : p.format m = .ok "a//b/c/d".toList := rfl
  obtain ⟨-, hsame⟩ := format_rebuilds_topic hnamed hnodup hsingle hmatch
  exact ⟨p, m, rfl, hnamed, hnodup, hsingle, hmatch, hformat, hsame⟩

end Pattern
end Topical
