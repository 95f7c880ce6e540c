import Topical.Proofs.Contents
import Topical.Proofs.Extraction
/-!
# Formatting and matching back

A formatted topic is the levels joined that the segments are filled with.  These levels follow the segments
(`Pattern.follows_of_fillFrom`), so the topic matches, and what is extracted are the values that were given.
-/
namespace Topical
namespace Pattern

variable {params : Params}

theorem bind_eq_ok_iff {ε α β : Type} {x : Except ε α} {f : α → Except ε β} {b : β} :
    x >>= f = .ok b ↔ ∃ a, x = .ok a ∧ f a = .ok b := by
  cases x <;> simp [bind, Except.bind]

/-! ## One segment -/

theorem lookup_eq_ok_iff {name : Text} {position : Nat} {value : Value} :
    lookup params name position = .ok value ↔ name ≠ [] ∧ params.get? name = some value := by
  unfold lookup
  split
  · rename_i h
    simp [List.isEmpty_iff.1 h]
  · rename_i h
    have hne : name ≠ [] := by simpa using h
    cases params.get? name <;> simp [hne]

theorem fill_single_eq_ok_iff {name : Text} {position : Nat} {ls : List Text} :
    fill params (.single name) position = .ok ls ↔
      ∃ l, name ≠ [] ∧ params.get? name = some (.single l) ∧ isLevelValue l ∧ ls = [l] := by
  simp only [fill, bind_eq_ok_iff, lookup_eq_ok_iff]
  constructor
  · rintro ⟨value, ⟨hne, hget⟩, h⟩
    cases value with
    | multi levels => cases h
    | single l =>
      simp only at h
      split at h
      · rename_i hl
        exact ⟨l, hne, hget, hl, (Except.ok.inj h).symm⟩
      · cases h
  · rintro ⟨l, hne, hget, hl, rfl⟩
    exact ⟨_, ⟨hne, hget⟩, if_pos hl⟩

theorem fill_multi_eq_ok_iff {name : Text} {position : Nat} {ls : List Text} :
    fill params (.multi name) position = .ok ls ↔
      name ≠ [] ∧ params.get? name = some (.multi ls) ∧ ∀ l ∈ ls, isLevelValue l := by
  simp only [fill, bind_eq_ok_iff, lookup_eq_ok_iff]
  constructor
  · rintro ⟨value, ⟨hne, hget⟩, h⟩
    cases value with
    | single l => cases h
    | multi levels =>
      simp only at h
      split at h
      · cases h
      · rename_i hnone
        obtain rfl := Except.ok.inj h
        exact ⟨hne, hget, by simpa using hnone⟩
  · rintro ⟨hne, hget, hls⟩
    have hnone : ls.find? (!isLevelValue ·) = none := by simpa using hls
    exact ⟨_, ⟨hne, hget⟩, by simp only [hnone]⟩

/-- A segment can be filled if it is a literal or finds an entry that it takes. -/
theorem exists_fill_iff {s : Segment} {position : Nat} :
    (∃ ls, fill params s position = .ok ls) ↔
      (s.isWildcard → ∃ e, s.TakesEntry e ∧ e.1 ≠ [] ∧ params.get? e.1 = some e.2) := by
  cases s with
  | literal text => exact iff_of_true ⟨_, rfl⟩ nofun
  | single name =>
    simp only [fill_single_eq_ok_iff, Segment.isWildcard, forall_const]
    constructor
    · rintro ⟨_, l, hne, hget, hl, -⟩
      exact ⟨_, .single hl, hne, hget⟩
    · rintro ⟨e, htakes, hne, hget⟩
      cases htakes with
      | single hl => exact ⟨_, _, hne, hget, hl, rfl⟩
  | multi name =>
    simp only [fill_multi_eq_ok_iff, Segment.isWildcard, forall_const]
    constructor
    · rintro ⟨_, hne, hget, hls⟩
      exact ⟨_, .multi hls, hne, hget⟩
    · rintro ⟨e, htakes, hne, hget⟩
      cases htakes with
      | multi hls => exact ⟨_, hne, hget, hls⟩

/-! ## All segments -/

/-- The levels of each segment, where the first is the segment numbered `k`. -/
def fillFrom (params : Params) (k : Nat) (segments : List Segment) : Except FormatError (List (List Text)) :=
  (segments.zipIdx k).mapM fun s => fill params s.1 s.2

theorem fillFrom_nil (k : Nat) : fillFrom params k [] = .ok [] := rfl

theorem fillFrom_cons (k : Nat) (s : Segment) (rest : List Segment) :
    fillFrom params k (s :: rest) = (do
      let ls ← fill params s k
      let lss ← fillFrom params (k + 1) rest
      return ls :: lss) := by
  rw [fillFrom, List.zipIdx_cons, List.mapM_cons]
  rfl

theorem fillFrom_cons_eq_ok_iff {k : Nat} {s : Segment} {rest : List Segment} {lss : List (List Text)} :
    fillFrom params k (s :: rest) = .ok lss ↔
      ∃ ls after, fill params s k = .ok ls ∧ fillFrom params (k + 1) rest = .ok after ∧ lss = ls :: after := by
  simp only [fillFrom_cons, bind_eq_ok_iff, pure, Except.pure, Except.ok.injEq]
  constructor
  · rintro ⟨ls, hls, after, hafter, rfl⟩
    exact ⟨ls, after, hls, hafter, rfl⟩
  · rintro ⟨ls, after, hls, hafter, rfl⟩
    exact ⟨ls, hls, after, hafter, rfl⟩

theorem format_eq [Engine] (p : Pattern) (params : Params) :
    p.format params = (do
      let lss ← fillFrom params 0 p.segments
      return joinLevels lss.flatten) := rfl

theorem format_eq_ok_iff [Engine] {p : Pattern} {t : Text} :
    p.format params = .ok t ↔ ∃ lss, fillFrom params 0 p.segments = .ok lss ∧ t = joinLevels lss.flatten := by
  simp only [format_eq, bind_eq_ok_iff, pure, Except.pure, Except.ok.injEq, @eq_comm _ t]

/-- **The levels that fill the segments follow them**, and their entries are those of the parameters, one for each
wildcard. -/
theorem follows_of_fillFrom {segments : List Segment} {k : Nat} {lss : List (List Text)}
    (hmulti : ∀ s ∈ segments.dropLast, s.isMulti = false) (h : fillFrom params k segments = .ok lss) :
    Follows segments lss.flatten ∧
    (levelEntries segments lss.flatten).map Prod.fst = segments.filterMap Segment.paramName? ∧
    ∀ e ∈ levelEntries segments lss.flatten, params.get? e.1 = some e.2 := by
  suffices hfills : Follows segments lss.flatten ∧
      ∀ e ∈ levelEntries segments lss.flatten, params.get? e.1 = some e.2 from
    ⟨hfills.1, hfills.1.map_fst_levelEntries, hfills.2⟩
  induction segments generalizing k lss with
  | nil =>
    rw [fillFrom_nil] at h
    obtain rfl := Except.ok.inj h
    exact ⟨.nil, fun e he => by cases he⟩
  | cons s rest ih =>
    obtain ⟨hfirst, hlast⟩ := Segment.multi_last_cons.1 hmulti
    obtain ⟨ls, after, hs, hrest, rfl⟩ := fillFrom_cons_eq_ok_iff.1 h
    obtain ⟨hfollows, hget⟩ := ih hlast hrest
    cases s with
    | literal text =>
      obtain rfl := Except.ok.inj hs
      exact ⟨.cons rfl hfollows, hget⟩
    | single name =>
      obtain ⟨l, hne, hl, hvalue, rfl⟩ := fill_single_eq_ok_iff.1 hs
      refine ⟨.cons hvalue hfollows, ?_⟩
      simp only [List.flatten_cons, List.singleton_append, levelEntries_single_cons hne, List.forall_mem_cons]
      exact ⟨hl, hget⟩
    | multi name =>
      -- the multi-level wildcard is the last segment
      obtain rfl : rest = [] := Classical.byContradiction fun hne => by
        cases hfirst hne
      rw [fillFrom_nil] at hrest
      obtain rfl := Except.ok.inj hrest
      obtain ⟨hne, hls, hvalues⟩ := fill_multi_eq_ok_iff.1 hs
      rw [List.flatten_cons, List.flatten_nil, List.append_nil, levelEntries_multi_cons hne]
      exact ⟨.multi hvalues, by simpa using hls⟩

/-- **Formatting succeeds if each wildcard finds an entry that it takes** under its name, which is not empty. -/
theorem exists_format_iff [Engine] {p : Pattern} :
    (∃ t, p.format params = .ok t) ↔
      ∀ s ∈ p.segments, s.isWildcard → ∃ e, s.TakesEntry e ∧ e.1 ≠ [] ∧ params.get? e.1 = some e.2 := by
  have hfillFrom : ∀ (segments : List Segment) (k : Nat), (∃ lss, fillFrom params k segments = .ok lss) ↔
      ∀ s ∈ segments, s.isWildcard → ∃ e, s.TakesEntry e ∧ e.1 ≠ [] ∧ params.get? e.1 = some e.2 := by
    intro segments
    induction segments with
    | nil => exact fun k => iff_of_true ⟨[], fillFrom_nil k⟩ (by simp)
    | cons s rest ih =>
      intro k
      rw [List.forall_mem_cons, ← ih (k + 1), ← exists_fill_iff]
      constructor
      · rintro ⟨lss, h⟩
        obtain ⟨ls, after, hs, hrest, -⟩ := fillFrom_cons_eq_ok_iff.1 h
        exact ⟨⟨ls, hs⟩, after, hrest⟩
      · rintro ⟨⟨ls, hs⟩, after, hrest⟩
        exact ⟨_, fillFrom_cons_eq_ok_iff.2 ⟨ls, after, hs, hrest, rfl⟩⟩
  rw [← hfillFrom p.segments 0]
  constructor
  · rintro ⟨t, ht⟩
    obtain ⟨lss, hlss, -⟩ := format_eq_ok_iff.1 ht
    exact ⟨lss, hlss⟩
  · rintro ⟨lss, hlss⟩
    exact ⟨_, format_eq_ok_iff.2 ⟨lss, hlss, rfl⟩⟩

/-! ## Back to the values -/

/-- **A formatted topic matches, and gives back the values it was made from**: the names are those of the pattern, each
once, and if there were no others among the parameters these are given back as they were. -/
theorem matchTopic_format [Engine] {p : Pattern} {t : Text} (h : p.format params = .ok t) :
    ∃ b, p.matchTopic t = some b ∧ b.names = p.paramNames.eraseDups ∧
      (∀ n ∈ p.paramNames, b.get? n = params.get? n) ∧
      ((∀ n ∈ params.names, n ∈ p.paramNames) → (b == params) = true) := by
  obtain ⟨lss, hlss, rfl⟩ := format_eq_ok_iff.1 h
  obtain ⟨hfollows, hentries, hvalues⟩ := follows_of_fillFrom p.isLayout.multi_last hlss
  let b := Params.ofList (levelEntries p.segments lss.flatten)
  have hnames : b.names = p.paramNames.eraseDups := by
    rw [Params.names_ofList, hentries]
    rfl
  have hget : ∀ n ∈ p.paramNames, b.get? n = params.get? n := by
    intro n hn
    rw [← List.mem_eraseDups, ← hnames] at hn
    obtain ⟨v, hv⟩ := Params.mem_names_iff.1 hn
    rw [hv]
    rw [Params.get?_ofList, List.lookup_eq_some_iff] at hv
    obtain ⟨l₁, l₂, hsplit, -⟩ := hv
    have hmem : (n, v) ∈ levelEntries p.segments lss.flatten := by
      rw [← List.mem_reverse, hsplit]
      simp
    exact (hvalues _ hmem).symm
  refine ⟨b, p.matchTopic_of_follows hfollows (.inl rfl), hnames, hget, fun hsub => ?_⟩
  refine Params.beq_iff_get?_eq.2 fun n => ?_
  by_cases hn : n ∈ p.paramNames
  · exact hget n hn
  · rw [Params.get?_eq_none_iff.2 fun hb => hn (List.mem_eraseDups.1 (hnames ▸ hb)),
      Params.get?_eq_none_iff.2 fun hm => hn (hsub n hm)]

/-- A literal with operators in it, an empty level, a repeated name and no levels for the last wildcard. -/
theorem matchTopic_format_repeated_name :
    ∃ p params, compile "a.(b//+x/+x/#y".toList = .ok p ∧ p.format params = .ok "a.(b//v/v".toList ∧
      ∃ b, p.matchTopic "a.(b//v/v".toList = some b ∧ b.names = [['x'], ['y']] ∧ (b == params) = true := by
  let segments : List Segment := [.literal "a.(b".toList, .literal [], .single ['x'], .single ['x'], .multi ['y']]
  let p : Pattern := ⟨"a.(b//+x/+x/#y".toList, segments, ⟨_, _, _⟩, rfl, rfl⟩
  let params : Params := .ofList [(['y'], .multi []), (['x'], .single ['v'])]
  have hformat : p.format params = .ok "a.(b//v/v".toList := rfl
  obtain ⟨b, hb, hnames, -, heq⟩ := matchTopic_format hformat
  exact ⟨p, params, rfl, hformat, b, hb, hnames, heq (by decide)⟩

end Pattern
end Topical
