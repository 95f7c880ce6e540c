import Topical.Proofs.Fragment
import Topical.Proofs.Threads
/-!
# Divisions of a topic

A topic matches a list of segments, of whatever shape, if it can be divided into consecutive pieces that fit them.
Where there are several divisions the matcher takes the one with the longest first piece, of these the one with the
longest second piece, and so on (`Matcher.captures?_eq_some_iff`).
-/
namespace Topical

/-- Every segment has a piece, which fits in tail form at the end and right before a final multi-level wildcard, and in
mid form elsewhere. -/
inductive Admissible : List Segment → List Text → Prop where
  | nil : Admissible [] []
  | cons {s : Segment} {rest : List Segment} {piece : Text} {pieces : List Text} :
    s.Fits (Segment.isTail rest) piece → Admissible rest pieces → Admissible (s :: rest) (piece :: pieces)

/-- The pieces are consecutive, make up the topic and fit the segments. -/
structure IsDivision (segments : List Segment) (t : Text) (pieces : List Text) : Prop where
  admissible : Admissible segments pieces
  flatten_eq : pieces.flatten = t

/-- Every other division has a shorter piece where it first differs in length. -/
structure IsLongestDivision (segments : List Segment) (t : Text) (pieces : List Text) : Prop where
  isDivision : IsDivision segments t pieces
  longest : ∀ others, IsDivision segments t others →
    others = pieces ∨ List.Lex (· < ·) (others.map List.length) (pieces.map List.length)

/-- The pieces of the wildcards. -/
def wildcardPieces (segments : List Segment) (pieces : List Text) : List Text :=
  ((segments.zip pieces).filter fun p => p.1.isWildcard).map Prod.snd

theorem isDivision_nil {t : Text} {pieces : List Text} : IsDivision [] t pieces ↔ pieces = [] ∧ t = [] := by
  constructor
  · rintro ⟨⟨⟩, rfl⟩
    exact ⟨rfl, rfl⟩
  · rintro ⟨rfl, rfl⟩
    exact ⟨.nil, rfl⟩

theorem isDivision_cons {s : Segment} {rest : List Segment} {t : Text} {pieces : List Text} :
    IsDivision (s :: rest) t pieces ↔
      ∃ p ps u, pieces = p :: ps ∧ t = p ++ u ∧ s.Fits (Segment.isTail rest) p ∧ IsDivision rest u ps := by
  constructor
  · rintro ⟨hadm, rfl⟩
    cases hadm with
    | cons hfit hrest => exact ⟨_, _, _, rfl, rfl, hfit, hrest, rfl⟩
  · rintro ⟨p, ps, u, rfl, rfl, hfit, hrest, rfl⟩
    exact ⟨.cons hfit hrest, rfl⟩

/-- A first piece of greatest length and a longest division of what is left make a longest division. -/
theorem IsLongestDivision.cons {s : Segment} {rest : List Segment} {p u : Text} {ps : List Text}
    (hfit : s.Fits (Segment.isTail rest) p) (h : IsLongestDivision rest u ps)
    (hle : ∀ q v, s.Fits (Segment.isTail rest) q → p ++ u = q ++ v → (∃ qs, IsDivision rest v qs) →
      q.length ≤ p.length) : IsLongestDivision (s :: rest) (p ++ u) (p :: ps) := by
  refine ⟨isDivision_cons.2 ⟨p, ps, u, rfl, rfl, hfit, h.isDivision⟩, fun others ho => ?_⟩
  obtain ⟨q, qs, v, rfl, ht, hq, hqs⟩ := isDivision_cons.1 ho
  rcases Nat.lt_or_eq_of_le (hle q v hq ht ⟨qs, hqs⟩) with hlt | heq
  · exact .inr (.rel hlt)
  · obtain ⟨rfl, rfl⟩ := List.append_inj ht.symm heq
    rcases h.longest qs hqs with rfl | hlex
    · exact .inl rfl
    · exact .inr (.cons hlex)

theorem isLongestDivision_nil : IsLongestDivision [] [] [] :=
  ⟨isDivision_nil.2 ⟨rfl, rfl⟩, fun _ ho => .inl (isDivision_nil.1 ho).1⟩

/-- A first piece that is the whole topic is of greatest length. -/
theorem IsLongestDivision.cons_whole {s : Segment} {rest : List Segment} {p : Text} {ps : List Text}
    (hfit : s.Fits (Segment.isTail rest) p) (h : IsLongestDivision rest [] ps) :
    IsLongestDivision (s :: rest) p (p :: ps) := by
  have hlong := h.cons hfit fun q v _ he _ => by
    rw [List.append_nil] at he
    rw [he, List.length_append]
    omega
  rwa [List.append_nil] at hlong

theorem IsLongestDivision.unique {segments : List Segment} {t : Text} {ps qs : List Text}
    (hp : IsLongestDivision segments t ps) (hq : IsLongestDivision segments t qs) : ps = qs := by
  rcases hp.longest qs hq.isDivision with h | h
  · exact h.symm
  · rcases hq.longest ps hp.isDivision with h' | h'
    · exact h'
    · exact absurd h' (List.lex_asymm Nat.lt_asymm h)

/-! ## The reader's first way -/

open Regex

/-- The marks that the segments leave behind with the given pieces, when `n` groups stand before them. -/
def marksOf : List Segment → Nat → Nat → List Text → List (Mark × Nat)
  | s :: rest, n, pos, p :: ps => s.marks n pos p.length ++ marksOf rest (n + s.groups) (pos + p.length) ps
  | _, _, _, _ => []

theorem ways_piecesOf_cons (s : Segment) (rest : List Segment) (n pos : Nat) (t : Text) :
    (ofList (piecesOf (s :: rest) n ++ [stop])).ways pos t =
      ((ofList (s.pieces (Segment.isTail rest) n)).ways pos t).flatMap
        (Way.onward pos (ofList (piecesOf rest (n + s.groups) ++ [stop])).ways) := by
  rw [piecesOf, List.append_assoc, ways_ofList_append]

theorem ways_piecesOf_nil (n pos : Nat) (t : Text) :
    (ofList (piecesOf [] n ++ [stop])).ways pos t = if t.isEmpty then [.stay t] else [] := by
  rw [piecesOf, List.nil_append, ofList, List.foldr_cons, List.foldr_nil, ways_seq_empty, ways]

/-- A text that can be divided is read. -/
theorem ways_ne_nil_of_isDivision {segments : List Segment} {t : Text} {ps : List Text}
    (h : IsDivision segments t ps) (n pos : Nat) : (ofList (piecesOf segments n ++ [stop])).ways pos t ≠ [] := by
  induction segments generalizing n pos t ps with
  | nil =>
    obtain ⟨-, rfl⟩ := isDivision_nil.1 h
    simp [ways_piecesOf_nil]
  | cons s rest ih =>
    obtain ⟨p, ps, u, rfl, rfl, hfit, hrest⟩ := isDivision_cons.1 h
    have hp := (s.mem_ways_pieces n pos (p ++ u) ⟨s.marks n pos p.length, p, u⟩).2 ⟨rfl, rfl, hfit⟩
    obtain ⟨x, hx⟩ := List.exists_mem_of_ne_nil _ (ih hrest (n + s.groups) (pos + p.length))
    rw [ways_piecesOf_cons]
    exact List.ne_nil_of_mem (List.mem_flatMap.2 ⟨_, hp, Way.mem_onward.2 ⟨x, hx, rfl⟩⟩)

/-- **The reader's first way takes a longest division.** -/
theorem isLongestDivision_of_head? {segments : List Segment} {n pos : Nat} {t : Text} {w : Way}
    (h : ((ofList (piecesOf segments n ++ [stop])).ways pos t).head? = some w) :
    ∃ ps, IsLongestDivision segments t ps ∧ w.marks = marksOf segments n pos ps := by
  induction segments generalizing n pos t w with
  | nil =>
    rw [ways_piecesOf_nil] at h
    split at h
    · rename_i ht
      obtain rfl := List.isEmpty_iff.1 ht
      obtain rfl := Option.some.inj h
      exact ⟨[], isLongestDivision_nil, rfl⟩
    · cases h
  | cons s rest ih =>
    let after := (ofList (piecesOf rest (n + s.groups) ++ [stop])).ways
    rw [ways_piecesOf_cons, List.head?_flatMap, List.findSome?_eq_some_iff] at h
    obtain ⟨l₁, v, l₂, hsplit, hv, hnone⟩ := h
    rw [Way.onward, List.head?_map] at hv
    obtain ⟨x, hx, rfl⟩ := Option.map_eq_some_iff.1 hv
    -- `v` is the first way through the segment from which the rest can be read, hence the longest one
    have hfind : ((ofList (s.pieces (Segment.isTail rest) n)).ways pos t).find?
        (fun w => !(after (pos + w.taken.length) w.rest).isEmpty) = some v := by
      rw [List.find?_eq_some_iff_append]
      refine ⟨?_, l₁, l₂, hsplit, fun u hu => ?_⟩
      · simpa using List.ne_nil_of_mem (List.mem_of_head? hx)
      · have := hnone u hu
        rw [Way.onward, List.head?_map, Option.map_eq_none_iff, List.head?_eq_none_iff] at this
        simp [after, this]
    obtain ⟨hvm, hvt, hfit⟩ := (s.mem_ways_pieces n pos t v).1 (List.mem_of_find?_eq_some hfind)
    obtain ⟨ps, hps, hxm⟩ := ih hx
    refine ⟨v.taken :: ps, ?_, by rw [Way.followedBy, hvm, hxm]; rfl⟩
    rw [← hvt]
    refine hps.cons hfit fun q u hq ht hex => ?_
    obtain ⟨qs, hqs⟩ := hex
    have hmem := (s.mem_ways_pieces n pos t ⟨s.marks n pos q.length, q, u⟩).2 ⟨rfl, (hvt.symm.trans ht).symm, hq⟩
    refine s.longestFirst_pieces n pos t _ v hfind _ hmem ?_
    simpa [after] using ways_ne_nil_of_isDivision hqs (n + s.groups) (pos + q.length)

theorem IsDivision.exists_head? {segments : List Segment} {t : Text} {ps : List Text}
    (h : IsDivision segments t ps) (n pos : Nat) :
    ∃ w, ((ofList (piecesOf segments n ++ [stop])).ways pos t).head? = some w :=
  Option.isSome_iff_exists.1 (List.isSome_head?.2 (ways_ne_nil_of_isDivision h n pos))

/-- Where there is a division there is a longest one. -/
theorem IsDivision.exists_longest {segments : List Segment} {t : Text} {ps : List Text}
    (h : IsDivision segments t ps) : ∃ qs, IsLongestDivision segments t qs := by
  obtain ⟨w, hw⟩ := h.exists_head? 0 0
  obtain ⟨qs, hqs, -⟩ := isLongestDivision_of_head? hw
  exact ⟨qs, hqs⟩

/-! ## What the groups enclose -/

namespace Trace

/-- The trace has no mark of group `g`. -/
def Lacks (g : Nat) (tr : Trace) : Prop := ∀ x ∈ tr, x.1 ≠ .opens g ∧ x.1 ≠ .closes g

theorem lookup_eq_none_of_lacks {g : Nat} {tr : Trace} (h : tr.Lacks g) :
    tr.lookup (.opens g) = none ∧ tr.lookup (.closes g) = none := by
  simp only [List.lookup_eq_none_iff, bne_iff_ne]
  exact ⟨fun x hx => (h x hx).1.symm, fun x hx => (h x hx).2.symm⟩

theorem group?_append_left {g : Nat} {tr tr' : Trace} (h : tr'.Lacks g) (t : Text) :
    group? (tr ++ tr') t g = group? tr t g := by
  obtain ⟨ho, hc⟩ := lookup_eq_none_of_lacks h
  simp [group?, List.lookup_append, ho, hc]

theorem group?_append_right {g : Nat} {tr tr' : Trace} (h : tr.Lacks g) (t : Text) :
    group? (tr ++ tr') t g = group? tr' t g := by
  obtain ⟨ho, hc⟩ := lookup_eq_none_of_lacks h
  simp [group?, List.lookup_append, ho, hc]

end Trace

theorem lacks_marks (s : Segment) {n pos k g : Nat} (h : n + s.groups < g ∨ g ≤ n) :
    Trace.Lacks g (s.marks n pos k).reverse := by
  unfold Segment.groups at h
  unfold Segment.marks
  cases hs : s.isWildcard with
  | false => simp [Trace.Lacks]
  | true =>
    simp only [hs, if_true] at h
    simp [Trace.Lacks]
    omega

theorem lacks_marksOf : ∀ (segments : List Segment) (n pos : Nat) (ps : List Text) {g : Nat}, g ≤ n →
    Trace.Lacks g (marksOf segments n pos ps).reverse
  | [], n, pos, ps, g, _ => by simp [marksOf, Trace.Lacks]
  | s :: rest, n, pos, [], g, _ => by simp [marksOf, Trace.Lacks]
  | s :: rest, n, pos, p :: ps, g, h => by
    intro x hx
    rw [marksOf, List.reverse_append, List.mem_append] at hx
    rcases hx with hx | hx
    · exact lacks_marksOf rest (n + s.groups) (pos + p.length) ps (by omega) x hx
    · exact lacks_marks s (.inr h) x hx

theorem wildcardPieces_cons (s : Segment) (rest : List Segment) (p : Text) (ps : List Text) :
    wildcardPieces (s :: rest) (p :: ps) =
      if s.isWildcard then p :: wildcardPieces rest ps else wildcardPieces rest ps := by
  unfold wildcardPieces
  cases h : s.isWildcard <;> simp [h]

theorem Admissible.length_wildcardPieces {segments : List Segment} {ps : List Text} (h : Admissible segments ps) :
    (wildcardPieces segments ps).length = (segments.filter Segment.isWildcard).length := by
  induction h with
  | nil => rfl
  | @cons s rest p ps _ _ ih =>
    rw [wildcardPieces_cons, List.filter_cons]
    split
    · rw [List.length_cons, List.length_cons, ih]
    · exact ih

/-- **Each wildcard has a group, in order, which encloses its piece.** -/
theorem groups_marksOf {segments : List Segment} {ps : List Text} (h : Admissible segments ps) :
    ∀ (n : Nat) (before : Text), (List.range (groupsOf segments)).map (fun i =>
      Trace.group? (marksOf segments n before.length ps).reverse (before ++ ps.flatten) (n + i + 1)) =
        (wildcardPieces segments ps).map some := by
  induction h with
  | nil => exact fun _ _ => rfl
  | @cons s rest p ps hfit hrest ih =>
    intro n before
    have hih := ih (n + s.groups) (before ++ p)
    rw [List.length_append, List.append_assoc] at hih
    rw [marksOf, List.reverse_append, List.flatten_cons, groupsOf_cons, wildcardPieces_cons]
    have hafter : ∀ i, Trace.group? ((marksOf rest (n + s.groups) (before.length + p.length) ps).reverse ++
          (s.marks n before.length p.length).reverse) (before ++ (p ++ ps.flatten)) (n + s.groups + i + 1) =
        Trace.group? (marksOf rest (n + s.groups) (before.length + p.length) ps).reverse
          (before ++ (p ++ ps.flatten)) (n + s.groups + i + 1) :=
      fun i => Trace.group?_append_left (lacks_marks s (.inl (by omega))) _
    cases hs : s.isWildcard with
    | false =>
      have hg : s.groups = 0 := by simp [Segment.groups, hs]
      rw [hg] at hih
      simpa [Segment.marks, hs, hg] using hih
    | true =>
      have hg : s.groups = 1 := by simp [Segment.groups, hs]
      rw [hg] at hih hafter ⊢
      rw [Nat.add_comm 1, List.range_succ_eq_map, List.map_cons, List.map_map, if_pos rfl, List.map_cons, ← hih]
      congr 1
      · rw [Trace.group?_append_right (lacks_marksOf _ _ _ _ (by omega)), Segment.marks, if_pos hs]
        have hne : (Mark.opens (n + 1) == Mark.closes (n + 1)) = false := by simp
        simp [Trace.group?, List.lookup_cons, hne]
      · refine List.map_congr_left fun i _ => ?_
        have hn : n + (i + 1) + 1 = n + 1 + i + 1 := by omega
        rw [Function.comp_apply, hn]
        exact hafter i

/-! ## What a matcher captures -/

theorem search_anchored (rs : List Regex) (t : Text) :
    search (start :: rs).toArray t = ((ofList rs).ways 0 t).head?.map fun w => w.marks.reverse := by
  have hstart : (ofList (start :: rs)).ways 0 t = (ofList rs).ways 0 t := by
    rw [ofList, List.foldr_cons, ways, ways, if_pos rfl, List.flatMap_singleton, Way.onward_stay]
    rfl
  rw [search_eq_matchAt, matchAt_eq_ways, hstart]

namespace Matcher

section

variable [Engine] {segments : List Segment} {m : Matcher}

theorem isMatch_iff (h : ofSegments segments = .ok m) (t : Text) :
    m.isMatch t = true ↔ ∃ ps, IsDivision segments t ps := by
  rw [ofSegments_ok h, isMatch, search_anchored, Option.isSome_map, List.isSome_head?]
  constructor
  · intro hne
    obtain ⟨w, hw⟩ := Option.isSome_iff_exists.1 (List.isSome_head?.2 hne)
    obtain ⟨ps, hps, -⟩ := isLongestDivision_of_head? hw
    exact ⟨ps, hps.isDivision⟩
  · rintro ⟨ps, hps⟩
    exact ways_ne_nil_of_isDivision hps 0 0

theorem captures?_of_isLongestDivision (h : ofSegments segments = .ok m) {t : Text} {ps : List Text}
    (hps : IsLongestDivision segments t ps) : m.captures? t = some ((wildcardPieces segments ps).map some) := by
  obtain ⟨w, hw⟩ := hps.isDivision.exists_head? 0 0
  obtain ⟨qs, hqs, hm⟩ := isLongestDivision_of_head? hw
  obtain rfl := hqs.unique hps
  have hgroups := groups_marksOf hps.isDivision.admissible 0 []
  rw [List.length_nil, List.nil_append, hps.isDivision.flatten_eq] at hgroups
  rw [ofSegments_ok h, captures?, search_anchored, hw, Option.map_some, Option.map_some, hm, ← hgroups]
  simp

theorem captures?_eq_some_iff (h : ofSegments segments = .ok m) (t : Text) (groups : List (Option Text)) :
    m.captures? t = some groups ↔
      ∃ ps, IsLongestDivision segments t ps ∧ groups = (wildcardPieces segments ps).map some := by
  constructor
  · intro hc
    have hsome : m.isMatch t = true := by
      rw [captures?, Option.map_eq_some_iff] at hc
      obtain ⟨trace, htrace, -⟩ := hc
      rw [isMatch, htrace]
      rfl
    obtain ⟨ps, hps⟩ := (isMatch_iff h t).1 hsome
    obtain ⟨qs, hqs⟩ := hps.exists_longest
    rw [captures?_of_isLongestDivision h hqs] at hc
    exact ⟨qs, hqs, (Option.some.inj hc).symm⟩
  · rintro ⟨ps, hps, rfl⟩
    exact captures?_of_isLongestDivision h hps

theorem exec_eq_some_iff (h : ofSegments segments = .ok m) (t : Text) (x : Match) :
    m.exec t = some x ↔ ∃ ps, IsLongestDivision segments t ps ∧ x = ⟨t, wildcardPieces segments ps⟩ := by
  have hgetD : ∀ ts : List Text, (ts.map some).map (·.getD []) = ts := fun ts => by
    simp [Function.comp_def]
  rw [exec, Option.map_eq_some_iff]
  simp only [captures?_eq_some_iff h t]
  constructor
  · rintro ⟨groups, ⟨ps, hps, rfl⟩, rfl⟩
    exact ⟨ps, hps, by rw [hgetD]⟩
  · rintro ⟨ps, hps, rfl⟩
    exact ⟨_, ⟨ps, hps, rfl⟩, by rw [hgetD]⟩

/-- **A matcher takes the longest division**: it matches what can be divided among its segments, it has one group for
each wildcard, and the groups enclose the pieces of the wildcards in the one longest division. -/
theorem captures_longest_division (h : ofSegments segments = .ok m) (t : Text) :
    (m.isMatch t = true ↔ ∃ ps, IsDivision segments t ps) ∧
    ((∃ ps, IsDivision segments t ps) → ∃! ps, IsLongestDivision segments t ps) ∧
    m.groups = (segments.filter Segment.isWildcard).length ∧
    (∀ groups, m.captures? t = some groups ↔
      ∃ ps, IsLongestDivision segments t ps ∧ groups = (wildcardPieces segments ps).map some) ∧
    ∀ x, m.exec t = some x ↔ ∃ ps, IsLongestDivision segments t ps ∧ x = ⟨t, wildcardPieces segments ps⟩ := by
  refine ⟨isMatch_iff h t, fun ⟨ps, hps⟩ => ?_, by rw [ofSegments_ok h]; rfl, captures?_eq_some_iff h t,
    exec_eq_some_iff h t⟩
  obtain ⟨qs, hqs⟩ := hps.exists_longest
  exact ⟨qs, hqs, fun _ hother => hother.unique hqs⟩

end

/-- Of two multi-level wildcards in a row the first takes all it can. -/
theorem captures_longest_division_two_multis :
    ∃ m, ofSegments [.multi ['x'], .multi ['y']] = .ok m ∧
      IsDivision [.multi ['x'], .multi ['y']] "a/b".toList [['a', '/'], ['b']] ∧
      m.exec "a/b".toList = some ⟨"a/b".toList, ["a/b".toList, []]⟩ := by
  have hfit : ∀ (name : Text) (vs : List Text) (u : Text), (∀ v ∈ vs, isLevelValue v) → Spells vs u →
      Segment.Fits true (.multi name) u := fun name vs u hvs hu => ⟨vs, hvs, hu⟩
  refine ⟨⟨_, _, _⟩, rfl, ⟨.cons ?_ (.cons ?_ .nil), rfl⟩, ?_⟩
  · exact hfit ['x'] [['a']] _ (by decide) (.inr ⟨by simp, rfl⟩)
  · exact hfit ['y'] [['b']] _ (by decide) (.inl rfl)
  · refine ((@captures_longest_division _ [.multi ['x'], .multi ['y']] _ rfl "a/b".toList).2.2.2.2 _).2
      ⟨["a/b".toList, []], ?_, rfl⟩
    refine .cons_whole ?_ (isLongestDivision_nil.cons_whole ?_)
    · exact hfit ['x'] [['a'], ['b']] _ (by decide) (.inl rfl)
    · exact hfit ['y'] [] _ (by simp) (.inl rfl)

end Matcher
end Topical
