import Topical.Proofs.Compiling
/-!
# Texts that are no patterns

A text is rejected for one reason of its own: a `#` begins a level and a slash comes somewhere after it.  That is said
here of the characters alone (`MisplacesMulti`); the segments say it by a multi-level wildcard before the last
(`misplacesMulti_iff_isMulti`).  Every other text compiles unless its expression is too large for the engine, and both
errors show the whole text (`Pattern.compile_fails_iff`).
-/
namespace Topical

/-- A `#` stands first or right after a slash, and a slash somewhere after it. -/
def MisplacesMulti (text : Text) : Prop :=
  ∃ before after, text = before ++ '#' :: after ∧ (before = [] ∨ before.getLast? = some '/') ∧ '/' ∈ after

/-! ## Levels before the last -/

theorem exists_joinLevels_eq (l : Text) {ls' : List Text} (h : ls' ≠ []) : ∀ ls : List Text,
    ∃ before, (before = [] ∨ before.getLast? = some '/') ∧
      joinLevels (ls ++ l :: ls') = before ++ (l ++ '/' :: joinLevels ls')
  | [] => ⟨[], .inl rfl, joinLevels_cons l h⟩
  | l' :: ls => by
    obtain ⟨before, hfront, hjoin⟩ := exists_joinLevels_eq l h ls
    refine ⟨l' ++ '/' :: before, .inr ?_, ?_⟩
    · rcases hfront with rfl | hlast
      · exact List.getLast?_concat
      · rw [List.getLast?_append, List.getLast?_cons, hlast]
        rfl
    · rw [List.cons_append, joinLevels_cons l' (by simp), hjoin, List.append_assoc, List.cons_append]

theorem exists_splitLevels_eq {before : Text} (h : before = [] ∨ before.getLast? = some '/') (t : Text) :
    ∃ ls, splitLevels (before ++ t) = ls ++ splitLevels t := by
  rcases h with rfl | hlast
  · exact ⟨[], rfl⟩
  · obtain ⟨b, rfl⟩ := List.getLast?_eq_some_iff.1 hlast
    refine ⟨splitLevels b, ?_⟩
    rw [List.append_assoc, List.singleton_append, splitLevels_append_slash]

/-- **A level before the last is what stands between a slash, or the beginning, and the next slash.** -/
theorem mem_dropLast_splitLevels_iff {t l : Text} :
    l ∈ (splitLevels t).dropLast ↔ '/' ∉ l ∧
      ∃ before after, t = before ++ (l ++ '/' :: after) ∧ (before = [] ∨ before.getLast? = some '/') := by
  constructor
  · intro hl
    refine ⟨slash_notMem_of_mem_splitLevels ((List.dropLast_sublist _).mem hl), ?_⟩
    -- the text is its levels joined, and one level at least comes after `l`
    obtain ⟨ls, ls', hsplit⟩ := List.append_of_mem hl
    let last := (splitLevels t).getLast (splitLevels_ne_nil t)
    have hlevels : splitLevels t = ls ++ l :: (ls' ++ [last]) := by
      rw [← List.cons_append, ← List.append_assoc, ← hsplit, List.dropLast_concat_getLast]
    have hne : ls' ++ [last] ≠ [] := List.append_ne_nil_of_right_ne_nil _ (List.cons_ne_nil _ _)
    obtain ⟨before, hfront, hjoin⟩ := exists_joinLevels_eq l hne ls
    rw [← hlevels, joinLevels_splitLevels] at hjoin
    exact ⟨before, _, hjoin, hfront⟩
  · rintro ⟨hl, before, after, rfl, hfront⟩
    obtain ⟨ls, hsplit⟩ := exists_splitLevels_eq hfront (l ++ '/' :: after)
    rw [hsplit, splitLevels_append_slash, splitLevels_of_notMem hl, List.singleton_append, List.dropLast_append_cons,
      List.dropLast_cons_of_ne_nil (splitLevels_ne_nil after)]
    simp

namespace Segment

theorem isMulti_ofLevel_iff {level : Text} : (ofLevel level).isMulti = true ↔ ∃ name, level = '#' :: name := by
  unfold ofLevel
  split
  · simp [isMulti]
  · simp [isMulti]
  · rename_i hmulti
    exact iff_of_false nofun fun ⟨name, h⟩ => hmulti name h

theorem eq_hashPosition_of_classify {whole level : Text} {isLast : Bool} {e : PatternError}
    (h : classify whole level isLast = .error e) : e = .hashPosition whole := by
  unfold classify at h
  by_cases hm : ((ofLevel level).isMulti && !isLast) = true
  · rw [if_pos hm] at h
    exact (Except.error.inj h).symm
  · rw [if_neg hm] at h
    cases h

/-- Levels are classified from the last to the first, so an error at a later level comes first. -/
theorem eq_hashPosition_of_ofLevels {whole : Text} {e : PatternError} :
    ∀ {levels : List Text}, ofLevels whole levels = .error e → e = .hashPosition whole
  | [], h => by cases h
  | level :: levels, h => by
    rw [ofLevels_cons] at h
    cases hrest : ofLevels whole levels with
    | error e' =>
      rw [hrest] at h
      obtain rfl := Except.error.inj h
      exact eq_hashPosition_of_ofLevels hrest
    | ok rest =>
      rw [hrest] at h
      cases hs : classify whole level rest.isEmpty with
      | error e' =>
        simp only [bind, Except.bind, hs] at h
        obtain rfl := Except.error.inj h
        exact eq_hashPosition_of_classify hs
      | ok s =>
        simp only [bind, Except.bind, hs] at h
        cases h

/-- **Levels are refused if one before the last writes a multi-level wildcard**, and the error shows the whole text. -/
theorem ofLevels_eq_error_iff {whole : Text} {levels : List Text} {e : PatternError} :
    ofLevels whole levels = .error e ↔
      (∃ level ∈ levels.dropLast, (ofLevel level).isMulti = true) ∧ e = .hashPosition whole := by
  have hok : ∀ segments, ofLevels whole levels = .ok segments ↔
      segments = levels.map ofLevel ∧ ∀ level ∈ levels.dropLast, (ofLevel level).isMulti = false := fun segments => by
    rw [ofLevels_eq_ok_iff]
    refine and_congr_right fun hs => ?_
    rw [hs, ← List.map_dropLast, List.forall_mem_map]
  by_cases hbad : ∃ level ∈ levels.dropLast, (ofLevel level).isMulti = true
  · rw [and_iff_right hbad]
    obtain ⟨level, hlevel, hmulti⟩ := hbad
    cases h : ofLevels whole levels with
    | error e' => rw [eq_hashPosition_of_ofLevels h, Except.error.injEq, eq_comm]
    | ok segments =>
      have hsingle := ((hok segments).1 h).2 level hlevel
      rw [hmulti] at hsingle
      cases hsingle
  · have hsingle : ∀ level ∈ levels.dropLast, (ofLevel level).isMulti = false := fun level hlevel =>
      Bool.eq_false_iff.2 fun hmulti => hbad ⟨level, hlevel, hmulti⟩
    rw [(hok _).2 ⟨rfl, hsingle⟩]
    exact iff_of_false nofun fun h => hbad h.1

end Segment

/-- **The characters misplace a wildcard if the levels do.** -/
theorem misplacesMulti_iff_isMulti {text : Text} :
    MisplacesMulti text ↔ ∃ level ∈ (splitLevels text).dropLast, (Segment.ofLevel level).isMulti = true := by
  simp only [Segment.isMulti_ofLevel_iff, mem_dropLast_splitLevels_iff]
  constructor
  · rintro ⟨before, after, rfl, hfront, hslash⟩
    -- the level ends at the first slash after its marker
    obtain ⟨name, rest, rfl, hname⟩ := List.eq_append_cons_of_mem hslash
    exact ⟨'#' :: name, ⟨by simpa using hname, before, rest, rfl, hfront⟩, name, rfl⟩
  · rintro ⟨_, ⟨-, before, after, rfl, hfront⟩, name, rfl⟩
    exact ⟨before, name ++ '/' :: after, rfl, hfront, by simp⟩

/-- Other texts are read level by level. -/
theorem ofLevels_of_not_misplacesMulti {text : Text} (h : ¬ MisplacesMulti text) :
    Segment.ofLevels text (splitLevels text) = .ok ((splitLevels text).map Segment.ofLevel) := by
  cases hs : Segment.ofLevels text (splitLevels text) with
  | error e => exact absurd (misplacesMulti_iff_isMulti.2 (Segment.ofLevels_eq_error_iff.1 hs).1) h
  | ok segments => rw [((Segment.ofLevels_eq_ok_iff _ _ _).1 hs).1]

/-! ## Compiling -/

/-- The engine does not admit the expression of the text's levels. -/
def Overweight [Engine] (text : Text) : Prop :=
  Engine.admits (expression ((splitLevels text).map Segment.ofLevel)) = false

namespace Pattern

section

variable [Engine] {text : Text}

theorem compile_of_ofLevels {e : PatternError} (h : Segment.ofLevels text (splitLevels text) = .error e) :
    compile text = .error e := by
  unfold compile
  split
  · rename_i e' he'
    rw [← Except.error.inj (h.symm.trans he')]
  · rename_i segments hs
    rw [h] at hs
    cases hs

theorem compile_of_ofSegments {segments : List Segment} {refusal : Refusal}
    (hs : Segment.ofLevels text (splitLevels text) = .ok segments)
    (hm : Matcher.ofSegments segments = .error refusal) : compile text = .error (.matcher text refusal.message) := by
  unfold compile
  split
  · rename_i e he
    rw [hs] at he
    cases he
  · rename_i segments' hs'
    obtain rfl := Except.ok.inj (hs.symm.trans hs')
    split
    · rename_i refusal' hm'
      rw [Except.error.inj (hm.symm.trans hm')]
    · rename_i matcher hm'
      rw [hm] at hm'
      cases hm'

theorem compile_of_misplacesMulti (h : MisplacesMulti text) : compile text = .error (.hashPosition text) :=
  compile_of_ofLevels (Segment.ofLevels_eq_error_iff.2 ⟨misplacesMulti_iff_isMulti.1 h, rfl⟩)

theorem compile_of_overweight (h : ¬ MisplacesMulti text) (hover : Overweight text) :
    compile text = .error (.matcher text Refusal.tooHeavy.message) :=
  compile_of_ofSegments (ofLevels_of_not_misplacesMulti h) (Matcher.ofSegments_eq_error_iff.2 ⟨rfl, hover⟩)

theorem exists_compile (h : ¬ MisplacesMulti text) (hweight : ¬ Overweight text) : ∃ p, compile text = .ok p := by
  have hs := ofLevels_of_not_misplacesMulti h
  cases hm : Matcher.ofSegments ((splitLevels text).map Segment.ofLevel) with
  | error refusal => exact absurd (Matcher.ofSegments_eq_error_iff.1 hm).2 hweight
  | ok matcher => exact ⟨_, compile_text ⟨text, _, matcher, hs, hm⟩⟩

/-- **A text fails to compile for two reasons.**  It misplaces a multi-level wildcard, or it does not and its expression
is too large for the engine.  Both errors show the whole text, and every other text compiles. -/
theorem compile_fails_iff (text : Text) :
    (∀ whole, compile text = .error (.hashPosition whole) ↔ MisplacesMulti text ∧ whole = text) ∧
    (∀ whole details, compile text = .error (.matcher whole details) ↔
      (¬ MisplacesMulti text ∧ Overweight text) ∧ whole = text ∧ details = Refusal.tooHeavy.message) ∧
    ((∃ p, compile text = .ok p) ↔ ¬ MisplacesMulti text ∧ ¬ Overweight text) := by
  by_cases h : MisplacesMulti text
  · rw [compile_of_misplacesMulti h]
    simp [h, eq_comm]
  · by_cases hover : Overweight text
    · rw [compile_of_overweight h hover]
      simp [h, hover, eq_comm]
    · obtain ⟨p, hp⟩ := exists_compile h hover
      rw [hp]
      simp [h, hover]

end

example : compile "a/#b/#c/d".toList = .error (.hashPosition "a/#b/#c/d".toList) := rfl

end Pattern
end Topical
