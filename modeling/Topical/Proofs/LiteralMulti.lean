import Topical.Proofs.Dictionary
import Topical.Proofs.Levelwise
/-!
# A literal before the multi-level wildcard

The slash after a literal that stands right before a final multi-level wildcard may be missing, whether the wildcard
takes levels or none.  Such a pattern matches the levels of the segments before the literal, each with its slash, then
the literal and what may trail it: nothing, a slash, or the levels of the wildcard with or without the slash before them
(`Pattern.isMatch_literal_multi_iff`).  With or without that slash, these levels are what is extracted
(`Pattern.matchTopic_of_trails`).
-/
namespace Topical

/-- Levels with a slash after each. -/
def slashLevels (ls : List Text) : Text := ls.flatMap (· ++ ['/'])

theorem slashLevels_cons_append (l : Text) (ls : List Text) (t : Text) :
    slashLevels (l :: ls) ++ t = l ++ '/' :: (slashLevels ls ++ t) := by
  simp [slashLevels]

/-- What stands after a literal if the multi-level wildcard behind it takes the levels `vs`. -/
inductive Trails : List Text → Text → Prop where
  | nothing : Trails [] []
  | slash : Trails [] ['/']
  /-- The first level stands right behind the literal. -/
  | joined {vs : List Text} {u : Text} : vs ≠ [] → (∀ v ∈ vs, isLevelValue v) → Spells vs u → Trails vs u
  | apart {vs : List Text} {u : Text} : vs ≠ [] → (∀ v ∈ vs, isLevelValue v) → Spells vs u → Trails vs ('/' :: u)

theorem Trails.isLevelValue {vs : List Text} {r : Text} (h : Trails vs r) : ∀ v ∈ vs, isLevelValue v := by
  cases h with
  | nothing | slash => simp
  | joined _ hvs _ | apart _ hvs _ => exact hvs

/-- A text that is spelled by level values does not begin with a slash. -/
theorem not_spells_slash {vs : List Text} {u : Text} (h : ∀ v ∈ vs, isLevelValue v) : ¬ Spells vs ('/' :: u) := by
  intro hu
  cases vs with
  | nil => cases spells_nil.1 hu
  | cons v vs =>
    have hv := h v List.mem_cons_self
    rcases spells_cons.1 hu with ⟨-, rfl⟩ | ⟨x, hx, -⟩
    · exact slash_notMem hv List.mem_cons_self
    · rcases List.cons_eq_append_iff.1 hx with ⟨rfl, -⟩ | ⟨y, rfl, -⟩
      · exact ne_nil_of_isLevelValue hv rfl
      · exact slash_notMem hv List.mem_cons_self

/-! ## The literal and the wildcard -/

open Segment (TakesLevel isTail)

/-- **The literal is divided from what trails it**: it keeps a slash if there is one, and the wildcard takes the
levels. -/
theorem Trails.exists_isLongestDivision {text name r : Text} {vs : List Text} (hslash : '/' ∉ text) (h : Trails vs r) :
    ∃ q c, (q = text ++ ['/'] ∨ q = text) ∧ Spells vs c ∧
      IsLongestDivision [.literal text, .multi name] (text ++ r) [q, c] := by
  have hmulti : ∀ c, Spells vs c → IsLongestDivision [.multi name] c [c] := fun c hc =>
    isLongestDivision_nil.cons_whole (s := .multi name) ⟨vs, h.isLevelValue, hc⟩
  have hapart : ∀ c, Spells vs c → IsLongestDivision [.literal text, .multi name] (text ++ '/' :: c)
      [text ++ ['/'], c] := fun c hc => (hmulti c hc).cons_slash (s := .literal text) rfl hslash
  cases h with
  | nothing =>
    refine ⟨text, [], .inr rfl, spells_nil.2 rfl, ?_⟩
    rw [List.append_nil]
    exact (hmulti [] (spells_nil.2 rfl)).cons_whole (s := .literal text) (.inr ⟨rfl, rfl⟩)
  | slash => exact ⟨_, [], .inl rfl, spells_nil.2 rfl, hapart [] (spells_nil.2 rfl)⟩
  | @apart _ u _ _ hu => exact ⟨_, u, .inl rfl, hu, hapart u hu⟩
  | joined _ hvs hu =>
    refine ⟨text, r, .inr rfl, hu, ?_⟩
    refine (hmulti r hu).cons (s := .literal text) (.inr ⟨rfl, rfl⟩) fun q v hq he _ => ?_
    rcases hq with rfl | ⟨-, rfl⟩
    · -- the literal would need a slash where the first level begins
      rw [List.append_assoc] at he
      rw [List.append_cancel_left he] at hu
      exact absurd hu (not_spells_slash hvs)
    · exact Nat.le_refl _

theorem exists_isDivision_literal_multi_iff {text name u : Text} (hslash : '/' ∉ text) :
    (∃ ps, IsDivision [.literal text, .multi name] u ps) ↔ ∃ vs r, Trails vs r ∧ u = text ++ r := by
  constructor
  · rintro ⟨ps, hps⟩
    obtain ⟨q, _, x, -, rfl, hq, hx⟩ := isDivision_cons.1 hps
    obtain ⟨c, _, y, -, rfl, hc, hy⟩ := isDivision_cons.1 hx
    obtain ⟨-, rfl⟩ := isDivision_nil.1 hy
    obtain ⟨vs, hvs, hspell⟩ := fits_multi_tail.1 hc
    rw [List.append_nil]
    by_cases hne : vs = []
    · subst hne
      obtain rfl := spells_nil.1 hspell
      rw [List.append_nil]
      rcases hq with rfl | ⟨-, rfl⟩
      · exact ⟨[], _, .slash, rfl⟩
      · exact ⟨[], _, .nothing, (List.append_nil _).symm⟩
    · rcases hq with rfl | ⟨-, rfl⟩
      · exact ⟨vs, _, .apart hne hvs hspell, List.append_assoc _ _ _⟩
      · exact ⟨vs, c, .joined hne hvs hspell, rfl⟩
  · rintro ⟨vs, r, hr, rfl⟩
    obtain ⟨q, c, -, -, hlong⟩ := @Trails.exists_isLongestDivision text name r vs hslash hr
    exact ⟨[q, c], hlong.isDivision⟩

/-! ## The segments before -/

variable {before rest : List Segment} {ls : List Text}

theorem isTail_append (h : isTail rest = false) : isTail (before ++ rest) = false := by
  cases before with
  | nil => exact h
  | cons s before =>
    cases hrest : before ++ rest with
    | nil =>
      rw [(List.append_eq_nil_iff.1 hrest).2] at h
      cases h
    | cons x xs =>
      rw [List.cons_append, hrest]
      cases s <;> rfl

/-- Segments that have more than a multi-level wildcard after them take their levels with the slashes. -/
theorem exists_isDivision_append_iff (hbefore : ∀ s ∈ before, s.isMulti = false) (htail : isTail rest = false)
    {t : Text} : (∃ ps, IsDivision (before ++ rest) t ps) ↔
      ∃ ls u, List.Forall₂ TakesLevel before ls ∧ t = slashLevels ls ++ u ∧ ∃ ps, IsDivision rest u ps := by
  -- none of the segments before is in tail position, so each piece has its slash
  induction before generalizing t with
  | nil =>
    constructor
    · exact fun h => ⟨[], t, .nil, rfl, h⟩
    · rintro ⟨ls, u, hls, rfl, h⟩
      cases hls
      exact h
  | cons s before ih =>
    obtain ⟨hs, hbefore⟩ := List.forall_mem_cons.1 hbefore
    constructor
    · rintro ⟨ps, hps⟩
      obtain ⟨p, qs, u, -, rfl, hfit, hqs⟩ := isDivision_cons.1 hps
      rw [List.append_eq, isTail_append htail, Segment.fits_iff_takesLevel hs] at hfit
      obtain ⟨l, hl, rfl | ⟨hfalse, -⟩⟩ := hfit
      · obtain ⟨ls, v, hls, rfl, hv⟩ := (ih hbefore).1 ⟨qs, hqs⟩
        refine ⟨l :: ls, v, .cons hl hls, ?_, hv⟩
        rw [slashLevels_cons_append, List.append_assoc]
        rfl
      · cases hfalse
    · rintro ⟨_, u, hls, rfl, hu⟩
      cases hls with
      | @cons _ l _ ls hl hls =>
        obtain ⟨ps, hps⟩ := (ih hbefore).2 ⟨ls, u, hls, rfl, hu⟩
        refine ⟨_, isDivision_cons.2 ⟨l ++ ['/'], ps, _, rfl, ?_, ?_, hps⟩⟩
        · rw [slashLevels_cons_append, List.append_assoc]
          rfl
        · exact (Segment.fits_iff_takesLevel hs).2 ⟨l, hl, .inl rfl⟩

/-- Levels with their slashes are the longest pieces of the segments that take them. -/
theorem IsLongestDivision.append_slashLevels {t : Text} {ps : List Text} (hls : List.Forall₂ TakesLevel before ls)
    (hslash : ∀ s ∈ before, '/' ∉ s.asPattern) (h : IsLongestDivision rest t ps) :
    IsLongestDivision (before ++ rest) (slashLevels ls ++ t) (ls.map (· ++ ['/']) ++ ps) := by
  induction hls with
  | nil => exact h
  | cons hl _ ih =>
    obtain ⟨hs, hslash⟩ := List.forall_mem_cons.1 hslash
    rw [slashLevels_cons_append]
    exact (ih hslash).cons_slash hl hs

/-- The slashes do not count for what is extracted. -/
theorem pieceEntries_append {ks ps : List Text} (hls : List.Forall₂ TakesLevel before ls)
    (hslash : ∀ s ∈ before, '/' ∉ s.asPattern) (h : pieceEntries rest ps = levelEntries rest ks) :
    pieceEntries (before ++ rest) (ls.map (· ++ ['/']) ++ ps) = levelEntries (before ++ rest) (ls ++ ks) := by
  induction hls with
  | nil => exact h
  | cons hl _ ih =>
    obtain ⟨hs, hslash⟩ := List.forall_mem_cons.1 hslash
    rw [List.cons_append, List.map_cons, List.cons_append, List.cons_append, pieceEntries_cons, ih hslash,
      levelEntries_cons hl (hl.slash_notMem hs) _ _ (.inl rfl)]

theorem levelEntries_append (hls : List.Forall₂ TakesLevel before ls) (ks : List Text) :
    levelEntries (before ++ rest) (ls ++ ks) = levelEntries before ls ++ levelEntries rest ks := by
  induction hls with
  | nil => rfl
  | @cons s l before ls hl _ ih =>
    cases s with
    | literal text => exact ih
    | single name =>
      simp only [List.cons_append, levelEntries, ih]
      split <;> rfl
    | multi name => exact hl.elim

theorem wildcardPieces_append {ps qs : List Text} (h : before.length = ps.length) :
    wildcardPieces (before ++ rest) (ps ++ qs) = wildcardPieces before ps ++ wildcardPieces rest qs := by
  simp [wildcardPieces, List.zip_append h]

/-! ## Patterns -/

namespace Pattern

section

variable [Engine] {p : Pattern} {text name : Text} (h : p.segments = before ++ [.literal text, .multi name])
include h

theorem isMulti_eq_false_of_mem_before : ∀ s ∈ before, s.isMulti = false := by
  intro s hs
  refine p.isLayout.multi_last s ?_
  rw [h, List.dropLast_append_of_ne_nil (by simp)]
  exact List.mem_append_left _ hs

theorem slash_notMem_of_mem_before : ∀ s ∈ before, '/' ∉ s.asPattern := fun s hs =>
  p.isLayout.slash_notMem s (h ▸ List.mem_append_left _ hs)

theorem slash_notMem_literal : '/' ∉ text := p.isLayout.slash_notMem (.literal text) (by simp [h])

/-- **What a pattern with a literal before its multi-level wildcard matches.** -/
theorem isMatch_literal_multi_iff (t : Text) :
    p.isMatch t = true ↔
      ∃ ls vs r, List.Forall₂ TakesLevel before ls ∧ Trails vs r ∧ t = slashLevels ls ++ (text ++ r) := by
  rw [isMatch, Matcher.isMatch_iff p.matcher_eq, h,
    exists_isDivision_append_iff (isMulti_eq_false_of_mem_before h) rfl]
  simp only [exists_isDivision_literal_multi_iff (slash_notMem_literal h)]
  constructor
  · rintro ⟨ls, u, hls, rfl, vs, r, hr, rfl⟩
    exact ⟨ls, vs, r, hls, hr, rfl⟩
  · rintro ⟨ls, vs, r, hls, hr, rfl⟩
    exact ⟨ls, _, hls, rfl, vs, r, hr, rfl⟩

variable {vs : List Text} {r : Text}

/-- The wildcard's piece is spelled by its levels. -/
theorem exists_isLongestDivision_of_trails (hls : List.Forall₂ TakesLevel before ls) (hr : Trails vs r) :
    ∃ qs q c, before.length = qs.length ∧ Spells vs c ∧
      IsLongestDivision p.segments (slashLevels ls ++ (text ++ r)) (qs ++ [q, c]) ∧
      pieceEntries p.segments (qs ++ [q, c]) = levelEntries p.segments (ls ++ text :: vs) := by
  have hslash := slash_notMem_of_mem_before h
  obtain ⟨q, c, hq, hc, hlong⟩ := @Trails.exists_isLongestDivision text name r vs (slash_notMem_literal h) hr
  have hentries : pieceEntries [.literal text, .multi name] [q, c] =
      levelEntries [.literal text, .multi name] (text :: vs) := by
    have hliteral : Segment.TakesLevel (.literal text) text := rfl
    rw [pieceEntries_cons, pieceEntries_cons, levelEntries_cons hliteral (slash_notMem_literal h) _ vs hq,
      levelEntries_multi hr.isLevelValue hc]
    exact congrArg _ (List.append_nil _)
  rw [h]
  exact ⟨ls.map (· ++ ['/']), q, c, by rw [List.length_map, hls.length_eq], hc, hlong.append_slashLevels hls hslash,
    pieceEntries_append hls hslash hentries⟩

/-- **With or without the slash before them the levels are extracted.** -/
theorem matchTopic_of_trails (hls : List.Forall₂ TakesLevel before ls) (hr : Trails vs r) :
    p.matchTopic (slashLevels ls ++ (text ++ r)) = some (.ofList (levelEntries p.segments (ls ++ text :: vs))) := by
  obtain ⟨qs, q, c, -, -, hlong, hentries⟩ := exists_isLongestDivision_of_trails h hls hr
  rw [matchTopic_of_isLongestDivision hlong, hentries]

/-- What the multi-level wildcard captures is cut into its levels. -/
theorem exec_of_trails (hls : List.Forall₂ TakesLevel before ls) (hr : Trails vs r) :
    ∃ cs c, p.exec (slashLevels ls ++ (text ++ r)) = some ⟨slashLevels ls ++ (text ++ r), cs ++ [c]⟩ ∧
      capturedLevels c = vs := by
  obtain ⟨qs, q, c, hlength, hc, hlong, -⟩ := exists_isLongestDivision_of_trails h hls hr
  refine ⟨wildcardPieces before qs, c, ?_, capturedLevels_of_spells hr.isLevelValue hc⟩
  rw [exec, (Matcher.exec_eq_some_iff p.matcher_eq _ _).2 ⟨_, hlong, rfl⟩, h, wildcardPieces_append hlength]
  rfl

/-- The value of the multi-level wildcard is not replaced by any other. -/
theorem get?_of_trails (hls : List.Forall₂ TakesLevel before ls) (hname : name ≠ []) :
    (Params.ofList (levelEntries p.segments (ls ++ text :: vs))).get? name = some (.multi vs) := by
  have hlast : levelEntries [.literal text, .multi name] (text :: vs) = [(name, .multi vs)] :=
    levelEntries_multi_cons hname [] vs
  rw [Params.get?_ofList, h, levelEntries_append hls, hlast, List.reverse_append]
  simp

end

/-- **What a literal before a final multi-level wildcard accepts**: the levels of the segments before it, each with its
slash, the literal, and what may trail it.  The levels in what trails are those of the wildcard.  Hence no topic that
follows the segments is missed or extracted otherwise than by its levels, and the others that match are those that lack
the slash before the first level of the wildcard. -/
theorem matchTopic_literal_multi [Engine] {p : Pattern} {before : List Segment} {text name : Text}
    (h : p.segments = before ++ [.literal text, .multi name]) (t : Text) :
    ((p.matchTopic t).isSome = true ↔
      ∃ ls vs r, List.Forall₂ TakesLevel before ls ∧ Trails vs r ∧ t = slashLevels ls ++ (text ++ r)) ∧
    (∀ ls vs r, List.Forall₂ TakesLevel before ls → Trails vs r → t = slashLevels ls ++ (text ++ r) →
      (∃ m, p.matchTopic t = some m ∧ m = .ofList (levelEntries p.segments (ls ++ text :: vs)) ∧
        (name ≠ [] → m.get? name = some (.multi vs))) ∧
      ∃ cs c, p.exec t = some ⟨t, cs ++ [c]⟩ ∧ capturedLevels c = vs) ∧
    (∀ ls, Follows p.segments ls → Spells ls t → p.matchTopic t = some (.ofList (levelEntries p.segments ls))) ∧
    ((p.matchTopic t).isSome = true ↔ (∃ ls, Follows p.segments ls ∧ Spells ls t) ∨ Glued p.segments t) := by
  rw [p.isSome_matchTopic]
  refine ⟨isMatch_literal_multi_iff h t, fun ls vs r hls hr ht => ?_, fun ls hls ht => p.matchTopic_of_follows hls ht,
    p.isMatch_iff t⟩
  subst ht
  exact ⟨⟨_, matchTopic_of_trails h hls hr, rfl, get?_of_trails h hls⟩, exec_of_trails h hls hr⟩

/-- The slash after the literal lacks, and one stands at the end. -/
theorem matchTopic_literal_multi_without_slash :
    ∃ p, compile "+x/b.c/#y".toList = .ok p ∧
      p.segments = [.single ['x']] ++ [.literal "b.c".toList, .multi ['y']] ∧
      p.matchTopic "v/b.cd/e/".toList = some (.ofList [(['x'], .single ['v']), (['y'], .multi [['d'], ['e']])]) ∧
      ∃ cs c, p.exec "v/b.cd/e/".toList = some ⟨"v/b.cd/e/".toList, cs ++ [c]⟩ ∧
        capturedLevels c = [['d'], ['e']] := by
  let p : Pattern :=
    ⟨"+x/b.c/#y".toList, [.single ['x']] ++ [.literal "b.c".toList, .multi ['y']], ⟨_, _, _⟩, rfl, rfl⟩
  have hls : List.Forall₂ TakesLevel [.single ['x']] [['v']] := .cons (show Topical.isLevelValue ['v'] from rfl) .nil
  have hr : Trails [['d'], ['e']] "d/e/".toList := .joined (by simp) (by decide) (.inr ⟨by simp, rfl⟩)
  obtain ⟨⟨m, hm, hentries, -⟩, hexec⟩ :=
    (@matchTopic_literal_multi _ p [.single ['x']] "b.c".toList ['y'] rfl "v/b.cd/e/".toList).2.1 _ _ _ hls hr rfl
  exact ⟨p, rfl, rfl, hm.trans (congrArg some hentries), hexec⟩

end Pattern
end Topical
