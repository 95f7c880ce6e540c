import Topical.Proofs.Division
import Topical.Proofs.Layout
/-!
# Reading a topic by level

A topic follows the segments of a pattern if its levels are what the segments ask for one by one, and those that a final
multi-level wildcard may take.  Such a topic is matched, and what is extracted are its levels
(`Pattern.matchTopic_of_follows`).  Apart from these topics a pattern matches only those that lack the slash between a
literal and the first level of a final multi-level wildcard (`IsDivision.follows_or_glued`).
-/
namespace Topical

/-- The level is what the segment asks for, if it asks for one level. -/
def Segment.TakesLevel : Segment → Text → Prop
  | literal text, l => l = text
  | single _, l => isLevelValue l
  | multi _, _ => False

/-- The levels are what the segments ask for: one for each literal and each single-level wildcard, and level values, as
many as there are, for a final multi-level wildcard. -/
inductive Follows : List Segment → List Text → Prop where
  | nil : Follows [] []
  | cons {s : Segment} {rest : List Segment} {l : Text} {ls : List Text} :
    s.TakesLevel l → Follows rest ls → Follows (s :: rest) (l :: ls)
  | multi {name : Text} {vs : List Text} : (∀ v ∈ vs, isLevelValue v) → Follows [.multi name] vs

/-- The topic has the levels that the segments ask for, but lacks the slash between a literal and the first level that
the multi-level wildcard after it takes. -/
inductive Glued : List Segment → Text → Prop where
  | here {text name : Text} {vs : List Text} {u : Text} :
    vs ≠ [] → (∀ v ∈ vs, isLevelValue v) → Spells vs u → Glued [.literal text, .multi name] (text ++ u)
  | there {s : Segment} {rest : List Segment} {l t : Text} :
    s.TakesLevel l → Glued rest t → Glued (s :: rest) (l ++ '/' :: t)

/-- The entries of the named wildcards among the segments, in order, that levels give. -/
def levelEntries : List Segment → List Text → List Entry
  | .literal _ :: rest, _ :: ls => levelEntries rest ls
  | .single name :: rest, l :: ls =>
    if name.isEmpty then levelEntries rest ls else (name, .single l) :: levelEntries rest ls
  | .multi name :: _, ls => if name.isEmpty then [] else [(name, .multi ls)]
  | _, _ => []

theorem levelEntries_single_cons {name : Text} (h : name ≠ []) (rest : List Segment) (l : Text) (ls : List Text) :
    levelEntries (.single name :: rest) (l :: ls) = (name, .single l) :: levelEntries rest ls := by
  rw [levelEntries, List.isEmpty_eq_false_iff.2 h]
  rfl

theorem levelEntries_multi_cons {name : Text} (h : name ≠ []) (rest : List Segment) (ls : List Text) :
    levelEntries (.multi name :: rest) ls = [(name, .multi ls)] := by
  rw [levelEntries, List.isEmpty_eq_false_iff.2 h]
  rfl

namespace Segment

theorem TakesLevel.slash_notMem {s : Segment} {l : Text} (h : s.TakesLevel l) (hs : '/' ∉ s.asPattern) : '/' ∉ l := by
  cases s with
  | literal text =>
    obtain rfl := h
    exact hs
  | single name => exact Topical.slash_notMem h
  | multi name => exact h.elim

theorem fits_iff_takesLevel {s : Segment} (h : s.isMulti = false) {tail : Bool} {u : Text} :
    s.Fits tail u ↔ ∃ l, s.TakesLevel l ∧ (u = l ++ ['/'] ∨ tail ∧ u = l) := by
  cases s with
  | literal text => simp [Fits, TakesLevel]
  | single name => rfl
  | multi name => cases h

theorem TakesLevel.isMulti {s : Segment} {l : Text} (h : s.TakesLevel l) : s.isMulti = false := by
  cases s with
  | multi name => exact h.elim
  | _ => rfl

end Segment

/-! ## Topics that follow are divided at their levels -/

/-- The entries that the segments make of their pieces. -/
def pieceEntries (segments : List Segment) (pieces : List Text) : List Entry :=
  (segments.zip pieces).filterMap fun p => Extractor.entry? p.1 p.2

theorem pieceEntries_cons (s : Segment) (rest : List Segment) (p : Text) (ps : List Text) :
    pieceEntries (s :: rest) (p :: ps) = (Extractor.entry? s p).toList ++ pieceEntries rest ps := by
  unfold pieceEntries
  rw [List.zip_cons_cons, List.filterMap_cons]
  cases Extractor.entry? s p <;> rfl

/-- The slash after a level does not count for its entry. -/
theorem levelEntries_cons {s : Segment} {l : Text} (h : s.TakesLevel l) (hl : '/' ∉ l) (rest : List Segment)
    (ls : List Text) {p : Text} (hp : p = l ++ ['/'] ∨ p = l) :
    levelEntries (s :: rest) (l :: ls) = (Extractor.entry? s p).toList ++ levelEntries rest ls := by
  have hstrip : stripTrailingSlash p = l := by
    rcases hp with rfl | rfl
    · exact stripTrailingSlash_append l
    · exact stripTrailingSlash_of_notMem hl
  cases s with
  | literal text => rfl
  | single name =>
    simp only [levelEntries, Extractor.entry?, Segment.paramName?, Segment.valueOf, hstrip]
    cases name <;> rfl
  | multi name => exact h.elim

theorem levelEntries_multi {name : Text} {vs : List Text} {p : Text} (h : ∀ v ∈ vs, isLevelValue v)
    (hp : Spells vs p) : levelEntries [.multi name] vs = (Extractor.entry? (.multi name) p).toList := by
  simp only [levelEntries, Extractor.entry?, Segment.paramName?, Segment.valueOf, capturedLevels_of_spells h hp]
  cases name <;> rfl

/-- A first level with its slash is the longest first piece. -/
theorem IsLongestDivision.cons_slash {s : Segment} {rest : List Segment} {l u : Text} {ps : List Text}
    (hl : s.TakesLevel l) (hs : '/' ∉ s.asPattern) (h : IsLongestDivision rest u ps) :
    IsLongestDivision (s :: rest) (l ++ '/' :: u) ((l ++ ['/']) :: ps) := by
  have hfit : s.Fits (Segment.isTail rest) (l ++ ['/']) := (Segment.fits_iff_takesLevel hl.isMulti).2 ⟨l, hl, .inl rfl⟩
  have hlong := h.cons hfit fun q v hq he _ => by
    obtain ⟨l', hl', hq⟩ := (Segment.fits_iff_takesLevel hl.isMulti).1 hq
    rw [List.length_append, List.length_singleton]
    refine length_le_of_level (hl'.slash_notMem hs) (hq.imp_right And.right) (x := v) (y := u) ?_
    rw [← he, List.append_assoc]
    rfl
  rwa [List.append_assoc] at hlong

/-- **A topic that follows the segments is divided at its levels.** -/
theorem Follows.exists_isLongestDivision {segments : List Segment} {ls : List Text} (h : Follows segments ls) :
    (∀ s ∈ segments, '/' ∉ s.asPattern) → ∀ t, Spells ls t →
      ∃ ps, IsLongestDivision segments t ps ∧ pieceEntries segments ps = levelEntries segments ls := by
  induction h with
  | nil =>
    intro _ t ht
    obtain rfl := spells_nil.1 ht
    exact ⟨[], isLongestDivision_nil, rfl⟩
  | @multi name vs hvs =>
    intro _ t ht
    refine ⟨[t], isLongestDivision_nil.cons_whole (s := .multi name) ⟨vs, hvs, ht⟩, ?_⟩
    rw [levelEntries_multi hvs ht, pieceEntries_cons]
    exact List.append_nil _
  | @cons s rest l ls hl hrest ih =>
    intro hslash t ht
    have hs := hslash s List.mem_cons_self
    have ih := ih fun x hx => hslash x (List.mem_cons_of_mem _ hx)
    rcases spells_cons.1 ht with ⟨rfl, rfl⟩ | ⟨u, rfl, hu⟩
    · -- the topic ends with this level, and nothing is left for a multi-level wildcard
      have htail : Segment.isTail rest = true := by cases hrest <;> rfl
      have hfit : s.Fits (Segment.isTail rest) t :=
        (Segment.fits_iff_takesLevel hl.isMulti).2 ⟨t, hl, .inr ⟨htail, rfl⟩⟩
      obtain ⟨ps, hps, hentries⟩ := ih [] (spells_nil.2 rfl)
      refine ⟨t :: ps, hps.cons_whole hfit, ?_⟩
      rw [pieceEntries_cons, hentries, levelEntries_cons hl (hl.slash_notMem hs) rest [] (.inr rfl)]
    · obtain ⟨ps, hps, hentries⟩ := ih u hu
      refine ⟨(l ++ ['/']) :: ps, hps.cons_slash hl hs, ?_⟩
      rw [pieceEntries_cons, hentries, levelEntries_cons hl (hl.slash_notMem hs) rest ls (.inl rfl)]

/-! ## Every division is at levels, or lacks a slash -/

theorem fits_multi_tail {name u : Text} :
    Segment.Fits true (.multi name) u ↔ ∃ vs, (∀ v ∈ vs, isLevelValue v) ∧ Spells vs u := Iff.rfl

/-- A level without a slash stands last, or runs into the first level of the wildcard: a literal then lacks its slash,
and a single-level wildcard takes that level too. -/
theorem Segment.TakesLevel.follows_or_glued {s : Segment} {l u : Text} {name : Text} {vs : List Text}
    (hl : s.TakesLevel l) (hvs : ∀ v ∈ vs, isLevelValue v) (hu : Spells vs u) :
    (∃ ls, Follows [s, .multi name] ls ∧ Spells ls (l ++ u)) ∨ Glued [s, .multi name] (l ++ u) := by
  cases vs with
  | nil =>
    obtain rfl := spells_nil.1 hu
    rw [List.append_nil]
    exact .inl ⟨[l], .cons hl (.multi hvs), spells_singleton l⟩
  | cons v vs =>
    cases s with
    | literal text =>
      obtain rfl := hl
      exact .inr (.here (by simp) hvs hu)
    | single n =>
      obtain ⟨hv, hvs⟩ := List.forall_mem_cons.1 hvs
      refine .inl ⟨(l ++ v) :: vs, .cons (isLevelValue_append hl hv) (.multi hvs), spells_cons.2 ?_⟩
      rcases spells_cons.1 hu with ⟨rfl, rfl⟩ | ⟨y, rfl, hy⟩
      · exact .inl ⟨rfl, rfl⟩
      · exact .inr ⟨y, by rw [List.append_assoc], hy⟩
    | multi n => exact hl.elim

/-- **A topic that can be divided follows the segments**, or it lacks the slash before the levels of a final multi-level
wildcard. -/
theorem IsDivision.follows_or_glued {segments : List Segment} {t : Text} {ps : List Text}
    (hmulti : ∀ s ∈ segments.dropLast, s.isMulti = false) (h : IsDivision segments t ps) :
    (∃ ls, Follows segments ls ∧ Spells ls t) ∨ Glued segments t := by
  induction segments generalizing t ps with
  | nil =>
    obtain ⟨-, rfl⟩ := isDivision_nil.1 h
    exact .inl ⟨[], .nil, spells_nil.2 rfl⟩
  | cons s rest ih =>
    obtain ⟨hfirst, hlast⟩ := Segment.multi_last_cons.1 hmulti
    obtain ⟨p, ps, u, rfl, rfl, hfit, hrest⟩ := isDivision_cons.1 h
    by_cases hm : s.isMulti = true
    · have hnil : rest = [] := Classical.byContradiction fun hne => by
        rw [hfirst hne] at hm
        cases hm
      subst hnil
      obtain ⟨-, rfl⟩ := isDivision_nil.1 hrest
      cases s with
      | multi name =>
        obtain ⟨vs, hvs, hspell⟩ := fits_multi_tail.1 hfit
        exact .inl ⟨vs, .multi hvs, by rwa [List.append_nil]⟩
      | _ => cases hm
    · obtain ⟨l, hl, rfl | ⟨htail, rfl⟩⟩ := (Segment.fits_iff_takesLevel (by simpa using hm)).1 hfit
      · rw [List.append_assoc]
        rcases ih hlast hrest with ⟨ls, hls, hspell⟩ | hglued
        · exact .inl ⟨l :: ls, .cons hl hls, hspell.slash l⟩
        · exact .inr (.there hl hglued)
      · match rest, htail with
        | [], _ =>
          obtain ⟨-, rfl⟩ := isDivision_nil.1 hrest
          exact .inl ⟨[p], .cons hl .nil, by rw [List.append_nil]; exact spells_singleton p⟩
        | [.multi name], _ =>
          obtain ⟨q, qs, x, -, rfl, hq, hx⟩ := isDivision_cons.1 hrest
          obtain ⟨-, rfl⟩ := isDivision_nil.1 hx
          obtain ⟨vs, hvs, hspell⟩ := fits_multi_tail.1 hq
          rw [List.append_nil]
          exact hl.follows_or_glued hvs hspell

theorem Glued.exists_isDivision {segments : List Segment} {t : Text} (h : Glued segments t) :
    ∃ ps, IsDivision segments t ps := by
  induction h with
  | @here text name vs u hne hvs hu =>
    have hmulti : IsDivision [.multi name] u [u] :=
      isDivision_cons.2 ⟨u, [], [], rfl, (List.append_nil u).symm, fits_multi_tail.2 ⟨vs, hvs, hu⟩,
        isDivision_nil.2 ⟨rfl, rfl⟩⟩
    exact ⟨[text, u], isDivision_cons.2 ⟨text, [u], u, rfl, rfl, .inr ⟨rfl, rfl⟩, hmulti⟩⟩
  | @there s rest l t hl hglued ih =>
    obtain ⟨ps, hps⟩ := ih
    exact ⟨(l ++ ['/']) :: ps, isDivision_cons.2 ⟨_, ps, t, rfl, by rw [List.append_assoc]; rfl,
      (Segment.fits_iff_takesLevel hl.isMulti).2 ⟨l, hl, .inl rfl⟩, hps⟩⟩

/-- **The levels by which a topic follows the segments are unique.** -/
theorem Follows.unique {segments : List Segment} {ls : List Text} (h : Follows segments ls) :
    (∀ s ∈ segments, '/' ∉ s.asPattern) → ∀ {ls' : List Text} {t : Text}, Follows segments ls' → Spells ls t →
      Spells ls' t → ls = ls' := by
  induction h with
  | nil =>
    rintro - ls' t h' - -
    cases h'
    rfl
  | @multi name vs hvs =>
    rintro - ls' t h' ht ht'
    cases h' with
    | cons hl _ => exact hl.elim
    | multi hvs' => rw [← capturedLevels_of_spells hvs ht, ← capturedLevels_of_spells hvs' ht']
  | @cons s rest l ls hl hrest ih =>
    intro hslash ls' t h' ht ht'
    have hs := hslash s List.mem_cons_self
    cases h' with
    | multi => exact hl.elim
    | @cons _ _ l' ls' hl' hrest' =>
      have hnl := hl.slash_notMem hs
      have hnl' := hl'.slash_notMem hs
      rcases spells_cons.1 ht with ⟨rfl, rfl⟩ | ⟨u, rfl, hu⟩
      · rcases spells_cons.1 ht' with ⟨rfl, rfl⟩ | ⟨u', rfl, -⟩
        · rfl
        · exact absurd (by simp) hnl
      · rcases spells_cons.1 ht' with ⟨-, rfl⟩ | ⟨u', he, hu'⟩
        · exact absurd (by simp) hnl'
        · obtain ⟨rfl, rfl⟩ := eq_of_append_slash hnl hnl' he
          rw [ih (fun x hx => hslash x (List.mem_cons_of_mem _ hx)) hrest' hu hu']

/-! ## What is extracted -/

/-- The wildcards with their captures give the entries of all segments with their pieces. -/
theorem filterMap_entry?_zip {segments : List Segment} {ps : List Text} (h : Admissible segments ps) :
    (((segments.filter Segment.isWildcard).zip (wildcardPieces segments ps)).filterMap
      fun p => Extractor.entry? p.1 p.2) = pieceEntries segments ps := by
  induction h with
  | nil => rfl
  | @cons s rest p ps _ _ ih =>
    rw [wildcardPieces_cons, pieceEntries_cons, ← ih]
    cases s with
    | literal text => rfl
    | single name =>
      simp only [Segment.isWildcard, if_true, List.filter_cons, List.zip_cons_cons, List.filterMap_cons]
      cases Extractor.entry? (.single name) p <;> rfl
    | multi name =>
      simp only [Segment.isWildcard, if_true, List.filter_cons, List.zip_cons_cons, List.filterMap_cons]
      cases Extractor.entry? (.multi name) p <;> rfl

namespace Pattern

variable [Engine] {p : Pattern} {t : Text}

theorem isSome_exec (p : Pattern) (t : Text) : (p.exec t).isSome = p.isMatch t := by
  simp [exec, Matcher.exec, Matcher.captures?, isMatch, Matcher.isMatch]

theorem isSome_matchTopic (p : Pattern) (t : Text) : (p.matchTopic t).isSome = p.isMatch t := by
  rw [matchTopic, Option.isSome_map, isSome_exec]

theorem isMatch_of_matchTopic {m : Params} (h : p.matchTopic t = some m) : p.isMatch t = true := by
  rw [← p.isSome_matchTopic, h]
  rfl

theorem matchTopic_of_isLongestDivision {ps : List Text} (h : IsLongestDivision p.segments t ps) :
    p.matchTopic t = some (.ofList (pieceEntries p.segments ps)) := by
  rw [matchTopic, exec, (Matcher.exec_eq_some_iff p.matcher_eq t _).2 ⟨ps, h, rfl⟩, Option.map_some, extractor,
    Extractor.ofSegments, Extractor.extract, filterMap_entry?_zip h.isDivision.admissible]

/-- **A topic that follows the segments of a pattern is matched, and its levels are extracted.** -/
theorem matchTopic_of_follows {ls : List Text} (h : Follows p.segments ls) (ht : Spells ls t) :
    p.matchTopic t = some (.ofList (levelEntries p.segments ls)) := by
  obtain ⟨ps, hps, hentries⟩ := h.exists_isLongestDivision p.isLayout.slash_notMem t ht
  rw [matchTopic_of_isLongestDivision hps, hentries]

/-- **A pattern matches the topics that follow its segments and those that lack a slash.** -/
theorem isMatch_iff (p : Pattern) (t : Text) :
    p.isMatch t = true ↔ (∃ ls, Follows p.segments ls ∧ Spells ls t) ∨ Glued p.segments t := by
  rw [isMatch, Matcher.isMatch_iff p.matcher_eq]
  constructor
  · rintro ⟨ps, hps⟩
    exact hps.follows_or_glued p.isLayout.multi_last
  · rintro (⟨ls, hls, hspell⟩ | hglued)
    · obtain ⟨ps, hps, -⟩ := hls.exists_isLongestDivision p.isLayout.slash_notMem t hspell
      exact ⟨ps, hps.isDivision⟩
    · exact hglued.exists_isDivision

end Pattern

/-! ## Without a literal before the multi-level wildcard -/

/-- A literal stands right before a final multi-level wildcard. -/
def EndsInLiteralMulti (segments : List Segment) : Prop :=
  ∃ before text name, segments = before ++ [.literal text, .multi name]

theorem Glued.endsInLiteralMulti {segments : List Segment} {t : Text} (h : Glued segments t) :
    EndsInLiteralMulti segments := by
  induction h with
  | @here text name _ _ _ _ _ => exact ⟨[], text, name, rfl⟩
  | @there s _ _ _ _ _ ih =>
    obtain ⟨before, text, name, rfl⟩ := ih
    exact ⟨s :: before, text, name, rfl⟩

theorem Follows.slash_notMem {segments : List Segment} {ls : List Text} (h : Follows segments ls) :
    (∀ s ∈ segments, '/' ∉ s.asPattern) → ∀ l ∈ ls, '/' ∉ l := by
  induction h with
  | nil => simp
  | multi hvs => exact fun _ l hl => Topical.slash_notMem (hvs l hl)
  | @cons s rest l ls hl _ ih =>
    intro hslash
    rw [List.forall_mem_cons] at hslash ⊢
    exact ⟨hl.slash_notMem hslash.1, ih hslash.2⟩

/-- **Matching and extracting level by level**: unless a literal stands right before a final multi-level wildcard, the
topics that match are those that follow the segments by their levels, one slash at the end set aside.  These levels are
unique, and their entries are what is extracted. -/
theorem Pattern.matchTopic_levelwise [Engine] {p : Pattern} (h : ¬ EndsInLiteralMulti p.segments) (t : Text) :
    ((p.matchTopic t).isSome = true ↔ ∃ ls, (∀ l ∈ ls, '/' ∉ l) ∧ Follows p.segments ls ∧ Spells ls t) ∧
    (∀ ls ls', Follows p.segments ls → Spells ls t → Follows p.segments ls' → Spells ls' t → ls = ls') ∧
    (∀ ls, Follows p.segments ls → Spells ls t →
      p.matchTopic t = some (.ofList (levelEntries p.segments ls))) ∧
    p.isMatch t = (p.matchTopic t).isSome ∧ (p.exec t).isSome = p.isMatch t := by
  have hslash := p.isLayout.slash_notMem
  refine ⟨?_, fun ls ls' hls ht hls' ht' => hls.unique hslash hls' ht ht',
    fun ls hls ht => p.matchTopic_of_follows hls ht, (p.isSome_matchTopic t).symm, p.isSome_exec t⟩
  rw [p.isSome_matchTopic, p.isMatch_iff]
  constructor
  · rintro (⟨ls, hls, ht⟩ | hglued)
    · exact ⟨ls, hls.slash_notMem hslash, hls, ht⟩
    · exact absurd hglued.endsInLiteralMulti h
  · rintro ⟨ls, -, hls, ht⟩
    exact .inl ⟨ls, hls, ht⟩

/-- An empty level, levels for the wildcards and a slash at the end. -/
theorem Pattern.matchTopic_levelwise_empty_level :
    ∃ p, Pattern.compile "a//+x/#y".toList = .ok p ∧ ¬ EndsInLiteralMulti p.segments ∧
      p.matchTopic "a//b/c/d/".toList =
        some (.ofList [(['x'], .single ['b']), (['y'], .multi [['c'], ['d']])]) := by
  let segments : List Segment := [.literal ['a'], .literal [], .single ['x'], .multi ['y']]
  have hsingle : ¬ EndsInLiteralMulti segments := by
    rintro ⟨before, text, name, he⟩
    have hget := congrArg (fun l => l.reverse[1]?) he
    simp [segments] at hget
  have hfollows : Follows segments [['a'], [], ['b'], ['c'], ['d']] :=
    .cons rfl (.cons rfl (.cons rfl (.multi (by decide))))
  let p : Pattern := ⟨"a//+x/#y".toList, segments, ⟨_, _, _⟩, rfl, rfl⟩
  refine ⟨p, rfl, hsingle, ?_⟩
  exact (@Pattern.matchTopic_levelwise _ p hsingle "a//b/c/d/".toList).2.2.1 _ hfollows (.inr ⟨by simp, rfl⟩)

end Topical
