import Topical.Proofs.Expression
import Topical.Proofs.LongestFirst
import Topical.Proofs.Spelling
/-!
# What a fragment takes

The piece of a topic that fits a segment, in mid form or in tail form, said on the text alone (`Segment.Fits`).  The
fragment of a segment is tried with every front part that fits, the longest of those that will do first
(`Segment.mem_ways_pieces`, `Segment.longestFirst_pieces`).
-/
namespace Topical
namespace Segment

/-- The text is level values with a slash after each; in tail form there may be none after the last. -/
def RunsOver (tail : Bool) (vs : List Text) (u : Text) : Prop :=
  if tail then Spells vs u else u = vs.flatMap (· ++ ['/'])

/-- The piece of a topic fits a segment in mid form or, if `tail` holds, in tail form. -/
def Fits (tail : Bool) : Segment → Text → Prop
  | literal text, u => u = text ++ ['/'] ∨ tail ∧ u = text
  | single _, u => ∃ v, isLevelValue v ∧ (u = v ++ ['/'] ∨ tail ∧ u = v)
  | multi _, u => ∃ vs, (∀ v ∈ vs, isLevelValue v) ∧ RunsOver tail vs u

variable {tail : Bool}

theorem runsOver_nil {u : Text} : RunsOver tail [] u ↔ u = [] := by
  cases tail
  · exact Iff.rfl
  · exact spells_nil

theorem runsOver_cons {v : Text} {vs : List Text} {u : Text} :
    RunsOver tail (v :: vs) u ↔ tail ∧ vs = [] ∧ u = v ∨ ∃ x, u = v ++ '/' :: x ∧ RunsOver tail vs x := by
  cases tail
  · simp [RunsOver]
  · simp [RunsOver, spells_cons]

/-! ## The language of a fragment -/

open Regex

theorem takes_slash {u : Text} : (slash tail).Takes u ↔ u = ['/'] ∨ tail ∧ u = [] := by
  have hchar : (Regex.char '/').Takes u ↔ u = ['/'] := by
    rw [Regex.char, takes_test]
    simp [CharTest.accepts]
  cases tail
  · simp [slash, hchar]
  · simp [slash, takes_optional, hchar, or_comm]

theorem takes_star_test {u : Text} : (star (test levelTest)).Takes u ↔ ∀ c ∈ u, isLevelChar c := by
  induction u with
  | nil => simpa using takes_star.2 (.inl rfl)
  | cons c u ih =>
    rw [takes_star]
    constructor
    · rintro (h | ⟨x, y, hx, -, hy, he⟩)
      · cases h
      · obtain ⟨d, hd, rfl⟩ := takes_test.1 hx
        obtain ⟨rfl, rfl⟩ := List.cons.inj he
        rw [levelTest_accepts] at hd
        exact List.forall_mem_cons.2 ⟨hd, ih.1 hy⟩
    · intro h
      obtain ⟨hc, hu⟩ := List.forall_mem_cons.1 h
      rw [← levelTest_accepts] at hc
      exact .inr ⟨[c], u, .test hc, by simp, ih.2 hu, rfl⟩

theorem takes_plus_test {u : Text} : (plus (test levelTest)).Takes u ↔ isLevelValue u := by
  rw [plus, takes_seq, isLevelValue_iff]
  constructor
  · rintro ⟨x, y, hx, hy, rfl⟩
    obtain ⟨c, hc, rfl⟩ := takes_test.1 hx
    rw [levelTest_accepts] at hc
    exact ⟨by simp, List.forall_mem_cons.2 ⟨hc, takes_star_test.1 hy⟩⟩
  · rintro ⟨hne, h⟩
    obtain ⟨c, u, rfl⟩ := List.exists_cons_of_ne_nil hne
    obtain ⟨hc, hu⟩ := List.forall_mem_cons.1 h
    rw [← levelTest_accepts] at hc
    exact ⟨[c], u, .test hc, takes_star_test.2 hu, rfl⟩

theorem takes_level {u : Text} :
    (level tail).Takes u ↔ ∃ v, isLevelValue v ∧ (u = v ++ ['/'] ∨ tail ∧ u = v) := by
  have hseq : (level tail).Takes u ↔ ∃ v x, isLevelValue v ∧ (x = ['/'] ∨ tail ∧ x = []) ∧ u = v ++ x := by
    simp only [level, ofList, List.foldr_cons, List.foldr_nil, takes_seq, takes_empty, takes_plus_test, takes_slash]
    simp
  rw [hseq]
  constructor
  · rintro ⟨v, x, hv, rfl | ⟨ht, rfl⟩, rfl⟩
    · exact ⟨v, hv, .inl rfl⟩
    · exact ⟨v, hv, .inr ⟨ht, by simp⟩⟩
  · rintro ⟨v, hv, rfl | ⟨ht, rfl⟩⟩
    · exact ⟨v, _, hv, .inl rfl, rfl⟩
    · exact ⟨_, [], hv, .inr ⟨ht, rfl⟩, by simp⟩

/-- A level value without its slash runs into the value after it. -/
theorem exists_runsOver_append {v : Text} (hv : isLevelValue v) (ht : tail) {vs : List Text} {u : Text}
    (h : ∀ w ∈ vs, isLevelValue w) (hu : RunsOver tail vs u) :
    ∃ ws, (∀ w ∈ ws, isLevelValue w) ∧ RunsOver tail ws (v ++ u) := by
  cases vs with
  | nil =>
    rw [runsOver_nil] at hu
    subst hu
    exact ⟨[v], by simpa using hv, runsOver_cons.2 (.inl ⟨ht, rfl, by simp⟩)⟩
  | cons w ws =>
    obtain ⟨hw, hws⟩ := List.forall_mem_cons.1 h
    refine ⟨(v ++ w) :: ws, List.forall_mem_cons.2 ⟨isLevelValue_append hv hw, hws⟩, runsOver_cons.2 ?_⟩
    rcases runsOver_cons.1 hu with ⟨-, rfl, rfl⟩ | ⟨x, rfl, hx⟩
    · exact .inl ⟨ht, rfl, rfl⟩
    · exact .inr ⟨x, by simp, hx⟩

/-- **A repetition of levels takes runs of level values.** -/
theorem takes_star_level {u : Text} :
    (star (level tail)).Takes u ↔ ∃ vs, (∀ v ∈ vs, isLevelValue v) ∧ RunsOver tail vs u := by
  constructor
  · intro h
    generalize hr : star (level tail) = r at h
    induction h with
    | empty | test | seq | leave | enter => cases hr
    | finish => exact ⟨[], by simp, runsOver_nil.2 rfl⟩
    | round hu hne hv ihu ihv =>
      cases hr
      obtain ⟨vs, hvs, hrun⟩ := ihv rfl
      obtain ⟨v, hv, rfl | ⟨ht, rfl⟩⟩ := takes_level.1 hu
      · exact ⟨v :: vs, List.forall_mem_cons.2 ⟨hv, hvs⟩, runsOver_cons.2 (.inr ⟨_, by simp, hrun⟩)⟩
      · exact exists_runsOver_append hv ht hvs hrun
  · rintro ⟨vs, hvs, hrun⟩
    induction vs generalizing u with
    | nil =>
      rw [runsOver_nil.1 hrun]
      exact .finish
    | cons v vs ih =>
      obtain ⟨hv, hvs⟩ := List.forall_mem_cons.1 hvs
      rcases runsOver_cons.1 hrun with ⟨ht, rfl, rfl⟩ | ⟨x, rfl, hx⟩
      · have hround := Takes.round (takes_level.2 ⟨_, hv, .inr ⟨ht, rfl⟩⟩) (ne_nil_of_isLevelValue hv)
          (.finish (a := level tail))
        rwa [List.append_nil] at hround
      · have hround := Takes.round (takes_level.2 ⟨_, hv, .inl rfl⟩) (by simp) (ih hvs hx)
        rwa [List.append_assoc] at hround

/-! ## The order of a fragment -/

theorem isPlain_level : (level tail).isPlain := by cases tail <;> rfl

theorem longestFirst_slash (pos : Nat) (t : Text) : LongestFirst ((slash tail).ways pos t) := by
  cases tail
  · exact longestFirst_test _ pos t
  · exact longestFirst_optional (longestFirst_test _) pos t

theorem longestFirst_level (pos : Nat) (t : Text) : LongestFirst ((level tail).ways pos t) := by
  have hplus : (plus (test levelTest)).isPlain := rfl
  have hslash : (slash tail).isPlain := by cases tail <;> rfl
  rw [level, ofList, List.foldr_cons, List.foldr_cons, List.foldr_nil, ways]
  refine .flatMap_onward (longestFirst_test_seq _ (longestFirst_star_test _) pos t) ?_ (ways_inj hplus) ?_
  · intro w _
    rw [ways_seq_empty]
    exact longestFirst_slash _ _
  · intro w hw v hv
    refine ⟨w, hw, hv, fun u _ hlt => ?_⟩
    -- only the slash is added to what was begun
    obtain ⟨x, hx, rfl⟩ := Way.mem_onward.1 hv
    rw [ways_seq_empty, mem_ways_iff hslash] at hx
    have hone : x.taken.length ≤ 1 := by
      rcases takes_slash.1 hx.2.2 with he | ⟨-, he⟩ <;> simp [he]
    simp only [Way.followedBy, List.length_append]
    omega

theorem taken_ne_nil_of_mem_level {pos : Nat} {t : Text} {w : Way} (h : w ∈ (level tail).ways pos t) :
    w.taken ≠ [] := by
  obtain ⟨v, hv, he | ⟨-, he⟩⟩ := takes_level.1 ((mem_ways_iff isPlain_level pos t w).1 h).2.2
  · simp [he]
  · rw [he]
    exact ne_nil_of_isLevelValue hv

theorem rest_lt_of_mem_level {pos : Nat} {t : Text} {w : Way} (h : w ∈ (level tail).ways pos t) :
    w.rest.length < t.length := by
  rw [← taken_append_rest _ pos t w h, List.length_append]
  have := List.length_pos_of_ne_nil (taken_ne_nil_of_mem_level h)
  omega

/-- A run of levels begins with its first level and the slash after it, and no beginning that is longer than this one is
shorter than the run. -/
theorem exists_beginning {pos : Nat} {t : Text} {w v : Way} (hw : w ∈ (level tail).ways pos t)
    (hv : v ∈ Way.onward pos (rounds (level tail).ways) w) :
    ∃ b ∈ (level tail).ways pos t, v ∈ Way.onward pos (rounds (level tail).ways) b ∧
      ∀ u ∈ (level tail).ways pos t, b.taken.length < u.taken.length → v.taken.length ≤ u.taken.length := by
  have hmem := mem_ways_iff (@isPlain_level tail)
  obtain ⟨hwm, hwt, hwl⟩ := (hmem pos t w).1 hw
  obtain ⟨hvm, hvt, y, hy, he⟩ := (mem_onward_iff ⟨hwm, hwt⟩ (mem_rounds_iff hmem _ _)).1 hv
  have hne := taken_ne_nil_of_mem_level hw
  obtain ⟨vs, hvs, hrun⟩ := takes_star_level.1 (he ▸ Takes.round hwl hne hy)
  cases vs with
  | nil => exact absurd (runsOver_nil.1 hrun) (by simp [he, hne])
  | cons z vs =>
    obtain ⟨hz, hvs⟩ := List.forall_mem_cons.1 hvs
    rcases runsOver_cons.1 hrun with ⟨ht, rfl, hvz⟩ | ⟨x, hvx, hx⟩
    · -- a single level without its slash is the whole run
      have hb : ([] : List (Mark × Nat)) = [] ∧ z ++ v.rest = t := ⟨rfl, by rw [← hvz, hvt]⟩
      refine ⟨⟨[], z, v.rest⟩, (hmem pos t _).2 ⟨hb.1, hb.2, takes_level.2 ⟨z, hz, .inr ⟨ht, rfl⟩⟩⟩, ?_, ?_⟩
      · exact (mem_onward_iff hb (mem_rounds_iff hmem _ _)).2 ⟨hvm, hvt, [], .finish, by simp [hvz]⟩
      · intro u _ hlt
        rw [hvz]
        exact Nat.le_of_lt hlt
    · have hb : ([] : List (Mark × Nat)) = [] ∧ (z ++ ['/']) ++ (x ++ v.rest) = t := by
        refine ⟨rfl, ?_⟩
        rw [← hvt, hvx]
        simp
      refine ⟨⟨[], z ++ ['/'], x ++ v.rest⟩,
        (hmem pos t _).2 ⟨hb.1, hb.2, takes_level.2 ⟨z, hz, .inl rfl⟩⟩, ?_, ?_⟩
      · exact (mem_onward_iff hb (mem_rounds_iff hmem _ _)).2
          ⟨hvm, hvt, x, takes_star_level.2 ⟨vs, hvs, hx⟩, by simp [hvx]⟩
      · -- no level reaches beyond that slash
        intro u hu hlt
        obtain ⟨-, hut, hul⟩ := (hmem pos t u).1 hu
        obtain ⟨z', hz', he'⟩ := takes_level.1 hul
        have hle : u.taken.length ≤ z.length + 1 := by
          refine length_le_of_level (slash_notMem hz') (he'.imp_right And.right) (x := u.rest) (y := x ++ v.rest) ?_
          rw [hut, ← hb.2, List.append_assoc]
          rfl
        rw [List.length_append, List.length_singleton] at hlt
        omega

theorem longestFirst_star_level (pos : Nat) (t : Text) : LongestFirst ((star (level tail)).ways pos t) := by
  rw [ways, rounds_eq_of_shorter fun w hw => rest_lt_of_mem_level hw]
  refine .append (.flatMap_onward (longestFirst_level pos t) (fun w hw => ?_) (ways_inj isPlain_level)
    fun w hw v hv => exists_beginning hw hv) (.singleton _) fun u _ v hv => ?_
  · have hlt := rest_lt_of_mem_level hw
    exact longestFirst_star_level _ w.rest
  · rw [List.mem_singleton.1 hv]
    exact Nat.zero_le _
termination_by t.length

/-! ## A literal -/

theorem ofList_literal (text : Text) :
    ofList (text.map Regex.char ++ [slash tail]) =
      text.foldr (fun c r => seq (Regex.char c) r) (seq (slash tail) empty) := by
  rw [ofList, List.foldr_append, List.foldr_map]
  rfl

theorem isPlain_literal (text : Text) : (ofList (text.map Regex.char ++ [slash tail])).isPlain := by
  rw [ofList_literal]
  induction text with
  | nil => cases tail <;> rfl
  | cons c text ih => exact ih

theorem takes_literal {text u : Text} :
    (ofList (text.map Regex.char ++ [slash tail])).Takes u ↔ u = text ++ ['/'] ∨ tail ∧ u = text := by
  rw [ofList_literal]
  induction text generalizing u with
  | nil =>
    rw [List.foldr_nil, takes_seq, List.nil_append, ← takes_slash]
    simp [takes_empty]
  | cons c text ih =>
    rw [List.foldr_cons, takes_seq]
    simp only [Regex.char, takes_test, CharTest.accepts, beq_iff_eq]
    constructor
    · rintro ⟨x, y, ⟨d, rfl, rfl⟩, hy, rfl⟩
      rcases ih.1 hy with rfl | ⟨ht, rfl⟩
      · exact .inl rfl
      · exact .inr ⟨ht, rfl⟩
    · rintro (rfl | ⟨ht, rfl⟩)
      · exact ⟨[c], _, ⟨c, rfl, rfl⟩, ih.2 (.inl rfl), rfl⟩
      · exact ⟨[c], _, ⟨c, rfl, rfl⟩, ih.2 (.inr ⟨ht, rfl⟩), rfl⟩

theorem longestFirst_literal (text : Text) :
    ∀ (pos : Nat) (t : Text), LongestFirst ((ofList (text.map Regex.char ++ [slash tail])).ways pos t) := by
  rw [ofList_literal]
  induction text with
  | nil =>
    intro pos t
    rw [List.foldr_nil, ways_seq_empty]
    exact longestFirst_slash pos t
  | cons c text ih => exact longestFirst_test_seq _ ih

/-! ## A group -/

/-- The marks that a segment leaves behind when `n` groups stand before it and it takes `k` characters from `pos` on. -/
def marks (n pos k : Nat) (s : Segment) : List (Mark × Nat) :=
  if s.isWildcard then [(.opens (n + 1), pos), (.closes (n + 1), pos + k)] else []

/-- A way inside the group numbered `n` that begins at position `pos`. -/
def enclose (n pos : Nat) (w : Way) : Way :=
  ⟨(.opens n, pos) :: (w.marks ++ [(.closes n, pos + w.taken.length)]), w.taken, w.rest⟩

theorem ways_group (n : Nat) (a : Regex) (pos : Nat) (t : Text) :
    (group n a).ways pos t = (a.ways pos t).map (enclose n pos) := by
  simp [group, ways, Way.onward, Way.followedBy, enclose, List.map_flatMap, ← List.map_eq_flatMap]

theorem ways_pieces_of_isWildcard {s : Segment} (h : s.isWildcard) (n pos : Nat) (t : Text) :
    ∃ r : Regex, r.isPlain ∧ (∀ u, r.Takes u ↔ s.Fits tail u) ∧ LongestFirst (r.ways pos t) ∧
      (ofList (s.pieces tail n)).ways pos t = (r.ways pos t).map (enclose (n + 1) pos) := by
  cases s with
  | literal text => cases h
  | single name =>
    refine ⟨level tail, isPlain_level, fun u => takes_level, longestFirst_level pos t, ?_⟩
    rw [pieces, ofList, List.foldr_cons, List.foldr_nil, ways_seq_empty, ways_group]
  | multi name =>
    refine ⟨star (level tail), @isPlain_level tail, fun u => takes_star_level, longestFirst_star_level pos t, ?_⟩
    rw [pieces, ofList, List.foldr_cons, List.foldr_nil, ways_seq_empty, ways_group, ofList, List.foldr_cons,
      List.foldr_nil, ways_seq_empty]

/-- **A fragment is tried with the front parts that fit its segment.** -/
theorem mem_ways_pieces (s : Segment) (n pos : Nat) (t : Text) (w : Way) :
    w ∈ (ofList (s.pieces tail n)).ways pos t ↔
      w.marks = s.marks n pos w.taken.length ∧ w.taken ++ w.rest = t ∧ s.Fits tail w.taken := by
  by_cases h : s.isWildcard
  · obtain ⟨r, hplain, htakes, -, hways⟩ := @ways_pieces_of_isWildcard tail _ h n pos t
    rw [hways, List.mem_map, marks, if_pos h]
    constructor
    · rintro ⟨v, hv, rfl⟩
      obtain ⟨hm, ht, hr⟩ := (mem_ways_iff hplain pos t v).1 hv
      exact ⟨by simp [enclose, hm], ht, (htakes _).1 hr⟩
    · rintro ⟨hm, ht, hf⟩
      exact ⟨⟨[], w.taken, w.rest⟩, (mem_ways_iff hplain pos t _).2 ⟨rfl, ht, (htakes _).2 hf⟩,
        Way.ext (by simp [enclose, hm]) rfl rfl⟩
  · cases s with
    | literal text =>
      rw [pieces, mem_ways_iff (isPlain_literal text), takes_literal]
      rfl
    | single name => exact absurd rfl h
    | multi name => exact absurd rfl h

/-- **A fragment is tried longest first.** -/
theorem longestFirst_pieces (s : Segment) (n pos : Nat) (t : Text) :
    LongestFirst ((ofList (s.pieces tail n)).ways pos t) := by
  by_cases h : s.isWildcard
  · obtain ⟨r, -, -, hlong, hways⟩ := @ways_pieces_of_isWildcard tail _ h n pos t
    rw [hways]
    exact hlong.map _ 0 fun w => by simp [enclose]
  · cases s with
    | literal text => exact longestFirst_literal text pos t
    | single name => exact absurd rfl h
    | multi name => exact absurd rfl h

end Segment
end Topical
