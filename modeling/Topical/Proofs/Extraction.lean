import Topical.Proofs.LiteralMulti
/-!
# What is extracted

Whatever topic a pattern matches, what is extracted are the entries of levels that follow its segments
(`Pattern.exists_follows_of_matchTopic`), even of a topic that lacks the slash before the levels of the multi-level
wildcard.  So the names are those of the wildcards in order, and each value is one that a wildcard of that name takes.

Of the captures under one name the last counts, whatever wildcards they are read by (`Extractor.get?_extract_iff`).
-/
namespace Topical

/-- The entry is under the name of the wildcard and of its kind, and its levels are level values. -/
inductive Segment.TakesEntry : Segment → Entry → Prop where
  | single {name l : Text} : isLevelValue l → TakesEntry (single name) (name, .single l)
  | multi {name : Text} {vs : List Text} : (∀ v ∈ vs, isLevelValue v) → TakesEntry (multi name) (name, .multi vs)

/-- The wildcard of a kind with a name. -/
def Segment.wildcard : Kind → Text → Segment
  | .single, name => single name
  | .multi, name => multi name

/-! ## The entries of levels -/

variable {segments : List Segment} {ls : List Text}

/-- **The entries are those of the named wildcards, in order.** -/
theorem Follows.map_fst_levelEntries (h : Follows segments ls) :
    (levelEntries segments ls).map Prod.fst = segments.filterMap Segment.paramName? := by
  induction h with
  | nil => rfl
  | @multi name vs _ => cases name <;> rfl
  | @cons s rest l ls hl _ ih =>
    cases s with
    | literal text => exact ih
    | single name =>
      cases name with
      | nil => exact ih
      | cons c name => exact congrArg _ ih
    | multi name => exact hl.elim

theorem Follows.exists_takesEntry (h : Follows segments ls) :
    ∀ e ∈ levelEntries segments ls, ∃ s ∈ segments, s.TakesEntry e := by
  induction h with
  | nil => simp [levelEntries]
  | @multi name vs hvs =>
    intro e he
    cases name with
    | nil => cases he
    | cons c name =>
      obtain rfl := List.mem_singleton.1 he
      exact ⟨_, List.mem_singleton_self _, .multi hvs⟩
  | @cons s rest l ls hl _ ih =>
    have hrest : ∀ e ∈ levelEntries rest ls, ∃ x ∈ s :: rest, x.TakesEntry e := fun e he => by
      obtain ⟨x, hx, htakes⟩ := ih e he
      exact ⟨x, List.mem_cons_of_mem _ hx, htakes⟩
    cases s with
    | literal text => exact hrest
    | single name =>
      cases name with
      | nil => exact hrest
      | cons c name => exact List.forall_mem_cons.2 ⟨⟨_, List.mem_cons_self, .single hl⟩, hrest⟩
    | multi name => exact hl.elim

theorem Follows.append {before rest : List Segment} {ks : List Text} (hls : List.Forall₂ Segment.TakesLevel before ls)
    (h : Follows rest ks) : Follows (before ++ rest) (ls ++ ks) := by
  induction hls with
  | nil => exact h
  | cons hl _ ih => exact .cons hl ih

/-! ## The captures under a name -/

theorem Segment.paramName?_eq_some_iff {s : Segment} {n : Text} :
    s.paramName? = some n ↔ n ≠ [] ∧ (s = single n ∨ s = multi n) := by
  cases s with
  | literal text => simp [paramName?]
  | single name | multi name =>
    simp only [paramName?, List.isEmpty_iff]
    split
    · rename_i hnil
      simp [hnil, eq_comm]
    · rename_i hne
      simp only [Option.some.injEq, reduceCtorEq, single.injEq, multi.injEq, or_false, false_or]
      exact ⟨fun h => ⟨h ▸ hne, h⟩, And.right⟩

namespace Extractor

theorem entry?_eq_some_iff_valueOf {s : Segment} {c n : Text} {v : Value} :
    entry? s c = some (n, v) ↔ s.paramName? = some n ∧ s.valueOf c = some v := by
  simp [Extractor.entry?, Option.bind_eq_some_iff]

theorem entry?_eq_some_iff {s : Segment} {c n : Text} {v : Value} :
    entry? s c = some (n, v) ↔ n ≠ [] ∧
      (s = .single n ∧ v = .single (stripTrailingSlash c) ∨ s = .multi n ∧ v = .multi (capturedLevels c)) := by
  rw [entry?_eq_some_iff_valueOf, Segment.paramName?_eq_some_iff]
  constructor
  · rintro ⟨⟨hne, rfl | rfl⟩, hv⟩
    · exact ⟨hne, .inl ⟨rfl, (Option.some.inj hv).symm⟩⟩
    · exact ⟨hne, .inr ⟨rfl, (Option.some.inj hv).symm⟩⟩
  · rintro ⟨hne, ⟨rfl, rfl⟩ | ⟨rfl, rfl⟩⟩
    · exact ⟨⟨hne, .inl rfl⟩, rfl⟩
    · exact ⟨⟨hne, .inr rfl⟩, rfl⟩

/-- A wildcard with a name makes an entry of whatever it captures. -/
theorem map_fst_entry (s : Segment) (c : Text) : (Extractor.entry? s c).map Prod.fst = s.paramName? := by
  cases s with
  | literal text => rfl
  | single name | multi name => cases name <;> rfl

theorem notMem_names_iff {n : Text} {pairs : List (Segment × Text)} :
    n ∉ (pairs.filterMap fun q => entry? q.1 q.2).map Prod.fst ↔ ∀ q ∈ pairs, q.1.paramName? ≠ some n := by
  rw [List.map_filterMap]
  simp only [map_fst_entry, List.mem_filterMap, not_exists, not_and, ne_eq]

/-- **Of the captures under a name the last counts.** -/
theorem get?_extract_iff (x : Extractor) (y : Match) (n : Text) (v : Value) :
    (x.extract y).get? n = some v ↔ ∃ before s c after,
      x.wildcards.zip y.captures = before ++ (s, c) :: after ∧ (∀ q ∈ after, q.1.paramName? ≠ some n) ∧
      entry? s c = some (n, v) := by
  rw [extract, Params.get?_ofList_eq_some_iff]
  constructor
  · rintro ⟨es, es', hsplit, hlast⟩
    obtain ⟨front, back, hzip, -, hback⟩ := List.filterMap_eq_append_iff.1 hsplit
    -- wildcards without a name are skipped
    obtain ⟨skipped, ⟨s, c⟩, after, rfl, -, hentry, rfl⟩ := List.filterMap_eq_cons_iff.1 hback
    exact ⟨front ++ skipped, s, c, after, by rw [hzip, List.append_assoc], notMem_names_iff.1 hlast, hentry⟩
  · rintro ⟨before, s, c, after, hzip, hlast, hentry⟩
    refine ⟨before.filterMap fun q => entry? q.1 q.2, _, ?_, notMem_names_iff.2 hlast⟩
    rw [hzip, List.filterMap_append]
    exact congrArg _ (List.filterMap_cons_some hentry)

end Extractor

/-! ## The entries of a topic -/

namespace Pattern

section

variable [Engine] {p : Pattern} {t : Text} {m : Params}

/-- A matched topic follows the segments, or it has a literal before a multi-level wildcard and what trails it. -/
theorem follows_or_trails_of_matchTopic (h : p.matchTopic t = some m) :
    (∃ ls, Follows p.segments ls ∧ Spells ls t ∧ m = .ofList (levelEntries p.segments ls)) ∨
    ∃ before text name ls vs r, p.segments = before ++ [.literal text, .multi name] ∧
      List.Forall₂ Segment.TakesLevel before ls ∧ Trails vs r ∧ t = slashLevels ls ++ (text ++ r) ∧
      m = .ofList (levelEntries p.segments (ls ++ text :: vs)) := by
  have hmatch := isMatch_of_matchTopic h
  rcases (p.isMatch_iff t).1 hmatch with ⟨ls, hls, ht⟩ | hglued
  · exact .inl ⟨ls, hls, ht, Option.some.inj (h.symm.trans (p.matchTopic_of_follows hls ht))⟩
  · obtain ⟨before, text, name, hsegments⟩ := hglued.endsInLiteralMulti
    obtain ⟨ls, vs, r, hls, hr, rfl⟩ := (isMatch_literal_multi_iff hsegments t).1 hmatch
    exact .inr ⟨before, text, name, ls, vs, r, hsegments, hls, hr, rfl,
      Option.some.inj (h.symm.trans (matchTopic_of_trails hsegments hls hr))⟩

/-- **What is extracted are the entries of levels that follow the segments.** -/
theorem exists_follows_of_matchTopic (h : p.matchTopic t = some m) :
    ∃ ls, Follows p.segments ls ∧ m = .ofList (levelEntries p.segments ls) := by
  rcases follows_or_trails_of_matchTopic h with
    ⟨ls, hls, -, hm⟩ | ⟨before, text, name, ls, vs, r, hsegments, hls, hr, -, hm⟩
  · exact ⟨ls, hls, hm⟩
  · refine ⟨ls ++ text :: vs, ?_, hm⟩
    rw [hsegments]
    exact .append hls (.cons rfl (.multi hr.isLevelValue))

/-- The names are those of the wildcards, each at its first place. -/
theorem names_of_matchTopic (h : p.matchTopic t = some m) : m.names = p.paramNames.eraseDups := by
  obtain ⟨ls, hls, rfl⟩ := exists_follows_of_matchTopic h
  rw [Params.names_ofList, hls.map_fst_levelEntries]
  rfl

/-- Each value is one that a wildcard of that name takes. -/
theorem exists_takesEntry_of_get? (h : p.matchTopic t = some m) {n : Text} {v : Value} (hv : m.get? n = some v) :
    ∃ s ∈ p.segments, s.TakesEntry (n, v) := by
  obtain ⟨ls, hls, rfl⟩ := exists_follows_of_matchTopic h
  exact hls.exists_takesEntry _ (Params.mem_of_get?_ofList hv)

/-- Each wildcard has a capture. -/
theorem length_captures_of_exec {x : Match} (h : p.exec t = some x) : x.captures.length = p.extractor.captureCount := by
  obtain ⟨ps, hps, rfl⟩ := (Matcher.exec_eq_some_iff p.matcher_eq t x).1 h
  exact hps.isDivision.admissible.length_wildcardPieces

/-- **Every extracted value is that of the last wildcard of its name**: the names are those of the wildcards, each at
its first place.  The value is what the last wildcard of the name makes of its capture, one level for a single-level
wildcard and a list of levels for a multi-level one.  All levels are level values, so none is empty. -/
theorem matchTopic_last_wildcard (h : p.matchTopic t = some m) :
    m.names = p.paramNames.eraseDups ∧
    (∃ x, p.exec t = some x ∧ x.captures.length = p.extractor.captureCount ∧
      ∀ n v, m.get? n = some v ↔ ∃ before s c after,
        p.extractor.wildcards.zip x.captures = before ++ (s, c) :: after ∧ (∀ q ∈ after, q.1.paramName? ≠ some n) ∧
        n ≠ [] ∧ (s = .single n ∧ v = .single (stripTrailingSlash c) ∨ s = .multi n ∧ v = .multi (capturedLevels c))) ∧
    (∀ n l, m.get? n = some (.single l) → isLevelValue l) ∧
    ∀ n vs, m.get? n = some (.multi vs) → ∀ v ∈ vs, isLevelValue v := by
  refine ⟨names_of_matchTopic h, ?_, fun n l hl => ?_, fun n vs hvs => ?_⟩
  · obtain ⟨x, hx, rfl⟩ := Option.map_eq_some_iff.1 h
    refine ⟨x, hx, length_captures_of_exec hx, fun n v => ?_⟩
    simp only [Extractor.get?_extract_iff, Extractor.entry?_eq_some_iff]
  · obtain ⟨s, -, htakes⟩ := exists_takesEntry_of_get? h hl
    cases htakes with
    | single hl => exact hl
  · obtain ⟨s, -, htakes⟩ := exists_takesEntry_of_get? h hvs
    cases htakes with
    | multi hvs => exact hvs

end

/-- A name of both kinds of wildcard, an unnamed wildcard, and a literal between them. -/
theorem matchTopic_last_wildcard_both_kinds :
    ∃ p m, compile "+x/+/a/+y/#x".toList = .ok p ∧ p.matchTopic "u/v/a/w/b/".toList = some m ∧
      m.names = [['x'], ['y']] ∧ m.get? ['x'] = some (.multi [['b']]) ∧ m.get? ['y'] = some (.single ['w']) ∧
      isLevelValue ['w'] := by
  let before : List Segment := [.single ['x'], .single [], .literal ['a'], .single ['y']]
  let p : Pattern := ⟨"+x/+/a/+y/#x".toList, before ++ [.multi ['x']], ⟨_, _, _⟩, rfl, rfl⟩
  let x : Match := ⟨"u/v/a/w/b/".toList, [['u', '/'], ['v', '/'], ['w', '/'], ['b', '/']]⟩
  have hlevels : List.Forall₂ Segment.TakesLevel before [['u'], ['v'], ['a'], ['w']] :=
    .cons (show isLevelValue ['u'] from rfl) (.cons (show isLevelValue ['v'] from rfl)
      (.cons rfl (.cons (show isLevelValue ['w'] from rfl) .nil)))
  have hmulti : IsLongestDivision [.multi ['x']] ['b', '/'] [['b', '/']] :=
    isLongestDivision_nil.cons_whole (s := .multi ['x']) ⟨[['b']], by decide, .inr ⟨by simp, rfl⟩⟩
  have hexec : p.exec "u/v/a/w/b/".toList = some x :=
    (Matcher.exec_eq_some_iff p.matcher_eq _ _).2 ⟨_, hmulti.append_slashLevels hlevels (by decide), rfl⟩
  have hmatch : p.matchTopic "u/v/a/w/b/".toList = some (p.extractor.extract x) := by
    rw [matchTopic, hexec, Option.map_some]
  obtain ⟨hnames, ⟨_, hx, -, hlast⟩, hsingle, -⟩ := matchTopic_last_wildcard hmatch
  obtain rfl := Option.some.inj (hexec.symm.trans hx)
  have hy : (p.extractor.extract x).get? ['y'] = some (.single ['w']) :=
    (hlast _ _).2 ⟨[(.single ['x'], ['u', '/']), (.single [], ['v', '/'])], .single ['y'], ['w', '/'],
      [(.multi ['x'], ['b', '/'])], rfl, by decide, by simp, .inl ⟨rfl, rfl⟩⟩
  refine ⟨p, _, rfl, hmatch, hnames, ?_, hy, hsingle _ _ hy⟩
  exact (hlast _ _).2 ⟨[(.single ['x'], ['u', '/']), (.single [], ['v', '/']), (.single ['y'], ['w', '/'])],
    .multi ['x'], ['b', '/'], [], rfl, by simp, by simp, .inr ⟨rfl, rfl⟩⟩

end Pattern
end Topical
