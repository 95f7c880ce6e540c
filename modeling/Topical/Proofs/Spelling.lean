import Topical.Match
/-!
# Texts spelled by levels

A text is spelled by levels if it is the levels joined, perhaps with one more slash at the end.  Cutting a capture that
is spelled by level values gives these values back (`capturedLevels_of_spells`).
-/
namespace Topical

/-! ## Level values -/

theorem isLevelValue_iff {v : Text} : isLevelValue v = true ↔ v ≠ [] ∧ ∀ c ∈ v, isLevelChar c = true := by
  simp [isLevelValue]

theorem slash_notMem {v : Text} (h : isLevelValue v) : '/' ∉ v := by
  intro hm
  have hslash := (isLevelValue_iff.1 h).2 '/' hm
  exact absurd hslash (by decide)

theorem ne_nil_of_isLevelValue {v : Text} (h : isLevelValue v) : v ≠ [] := (isLevelValue_iff.1 h).1

theorem isLevelValue_append {u v : Text} (hu : isLevelValue u) (hv : isLevelValue v) : isLevelValue (u ++ v) := by
  rw [isLevelValue_iff] at *
  refine ⟨by simp [hu.1], fun c hc => ?_⟩
  rcases List.mem_append.1 hc with hc | hc
  · exact hu.2 c hc
  · exact hv.2 c hc

/-! ## Joining and splitting -/

theorem joinLevels_nil : joinLevels [] = [] := rfl

theorem joinLevels_singleton (l : Text) : joinLevels [l] = l := List.intercalate_singleton

theorem joinLevels_cons (l : Text) {ls : List Text} (h : ls ≠ []) :
    joinLevels (l :: ls) = l ++ '/' :: joinLevels ls := by
  rw [joinLevels, List.intercalate_cons_of_ne_nil h, List.append_assoc]
  rfl

theorem splitLevels_append_slash (u v : Text) : splitLevels (u ++ '/' :: v) = splitLevels u ++ splitLevels v :=
  List.splitOn_append_cons_self u v

theorem splitLevels_of_notMem {l : Text} (h : '/' ∉ l) : splitLevels l = [l] := List.splitOn_eq_singleton h

/-- A text has one level more than slashes. -/
theorem length_splitLevels (t : Text) : (splitLevels t).length = t.count '/' + 1 := by
  induction t with
  | nil => rfl
  | cons c t ih =>
    rw [splitLevels, List.splitOn_cons_eq_if_modifyHead]
    by_cases hc : c = '/'
    · subst hc
      rw [if_pos (beq_self_eq_true _), List.length_cons, List.count_cons_self]
      exact congrArg (· + 1) ih
    · rw [if_neg (by simpa using hc), List.length_modifyHead, List.count_cons_of_ne hc]
      exact ih

theorem slash_notMem_of_mem_splitLevels {t l : Text} (h : l ∈ splitLevels t) : '/' ∉ l := by
  induction t generalizing l with
  | nil =>
    rw [splitLevels, List.splitOn_nil, List.mem_singleton] at h
    simp [h]
  | cons c t ih =>
    rw [splitLevels, List.splitOn_cons_eq_if_modifyHead] at h
    split at h
    · rcases List.mem_cons.1 h with rfl | h
      · simp
      · exact ih h
    · rename_i hc
      obtain ⟨first, rest, hsplit⟩ := List.exists_cons_of_ne_nil (splitLevels_ne_nil t)
      rw [← splitLevels, hsplit, List.modifyHead_cons] at h
      have hc : c ≠ '/' := by simpa using hc
      rcases List.mem_cons.1 h with rfl | h
      · have := ih (by rw [hsplit]; exact List.mem_cons_self)
        simp [hc.symm, this]
      · exact ih (by rw [hsplit]; exact List.mem_cons_of_mem _ h)

/-- Texts without a slash that end at a slash of one text are equal. -/
theorem eq_of_append_slash {u v x y : Text} (hu : '/' ∉ u) (hv : '/' ∉ v) (h : u ++ '/' :: x = v ++ '/' :: y) :
    u = v ∧ x = y := by
  have hsplit := congrArg splitLevels h
  rw [splitLevels_append_slash, splitLevels_append_slash, splitLevels_of_notMem hu, splitLevels_of_notMem hv] at hsplit
  obtain rfl : u = v := (List.cons.inj hsplit).1
  exact ⟨rfl, (List.cons.inj (List.append_cancel_left h)).2⟩

/-- A front part without a slash does not reach beyond the first one. -/
theorem length_le_of_append_slash {u v x y : Text} (hu : '/' ∉ u) (h : u ++ x = v ++ '/' :: y) :
    u.length ≤ v.length := by
  rcases List.append_eq_append_iff.1 h with ⟨a, rfl, -⟩ | ⟨c, rfl, hc⟩
  · simp
  · cases c with
    | nil => simp
    | cons d c =>
      obtain rfl := (List.cons.inj hc).1
      exact absurd (by simp) hu

/-- A level with or without its slash does not reach beyond the first slash. -/
theorem length_le_of_level {u v x y z : Text} (hv : '/' ∉ v) (hu : u = v ++ ['/'] ∨ u = v)
    (h : u ++ x = z ++ '/' :: y) : u.length ≤ z.length + 1 := by
  rcases hu with rfl | rfl
  · rw [List.append_assoc] at h
    have := length_le_of_append_slash hv h
    rw [List.length_append, List.length_singleton]
    omega
  · have := length_le_of_append_slash hv h
    omega

/-! ## Spelling -/

/-- The text is the levels joined; there may be one slash more at the end if there are levels at all. -/
def Spells (ls : List Text) (t : Text) : Prop := t = joinLevels ls ∨ ls ≠ [] ∧ t = joinLevels ls ++ ['/']

theorem spells_nil {t : Text} : Spells [] t ↔ t = [] := by
  simp [Spells, joinLevels_nil]

theorem spells_cons {l : Text} {ls : List Text} {t : Text} :
    Spells (l :: ls) t ↔ ls = [] ∧ t = l ∨ ∃ u, t = l ++ '/' :: u ∧ Spells ls u := by
  by_cases h : ls = []
  · subst h
    simp only [Spells, joinLevels_singleton, joinLevels_nil]
    simp [eq_comm]
  · simp only [Spells, joinLevels_cons l h]
    constructor
    · rintro (rfl | ⟨-, rfl⟩)
      · exact .inr ⟨_, rfl, .inl rfl⟩
      · exact .inr ⟨joinLevels ls ++ ['/'], by simp, .inr ⟨h, rfl⟩⟩
    · rintro (⟨hnil, -⟩ | ⟨u, rfl, rfl | ⟨-, rfl⟩⟩)
      · exact absurd hnil h
      · exact .inl rfl
      · exact .inr ⟨by simp, by simp⟩

theorem Spells.slash {ls : List Text} {t : Text} (h : Spells ls t) (l : Text) : Spells (l :: ls) (l ++ '/' :: t) :=
  spells_cons.2 (.inr ⟨t, rfl, h⟩)

theorem spells_singleton (l : Text) : Spells [l] l := .inl (joinLevels_singleton l).symm

/-- **The levels of a spelled text** are those that spell it, and an empty one after a slash at the end. -/
theorem splitLevels_of_spells {ls : List Text} {t : Text} (h : ∀ l ∈ ls, '/' ∉ l) (hne : ls ≠ []) (ht : Spells ls t) :
    splitLevels t = ls ∨ splitLevels t = ls ++ [[]] := by
  rcases ht with rfl | ⟨-, rfl⟩
  · exact .inl (splitLevels_joinLevels h hne)
  · refine .inr ?_
    rw [splitLevels_append_slash, splitLevels_joinLevels h hne]
    rfl

/-! ## What is captured -/

/-- **A capture that is spelled by level values is cut into these.** -/
theorem capturedLevels_of_spells {vs : List Text} {u : Text} (h : ∀ v ∈ vs, isLevelValue v) (hu : Spells vs u) :
    capturedLevels u = vs := by
  cases hvs : vs with
  | nil =>
    rw [hvs, spells_nil] at hu
    rw [hu]
    rfl
  | cons v vs' =>
    have hne : vs ≠ [] := by simp [hvs]
    rw [← hvs, capturedLevels]
    rcases splitLevels_of_spells (fun l hl => slash_notMem (h l hl)) hne hu with hs | hs
    · rw [hs, if_neg]
      intro hlast
      exact ne_nil_of_isLevelValue (h [] (List.mem_of_getLast? hlast)) rfl
    · rw [hs]
      simp

theorem stripTrailingSlash_append (v : Text) : stripTrailingSlash (v ++ ['/']) = v := by
  simp [stripTrailingSlash]

theorem stripTrailingSlash_of_notMem {v : Text} (h : '/' ∉ v) : stripTrailingSlash v = v := by
  rw [stripTrailingSlash, if_neg]
  exact fun hlast => h (List.mem_of_getLast? hlast)

end Topical
