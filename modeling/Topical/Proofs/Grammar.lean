import Topical.Regex.Reader
/-!
# The grammar of written expressions

The rules of the written form, one for each kind of piece, said apart from any reader (`Regex.Writes`).  The reader
follows them: a text that writes pieces is read as these, and a text that is read as pieces writes them
(`Regex.read_eq_some_iff`).  So a text writes one expression at most.

What the reader remembers at any moment is accounted for by what it has read (`Regex.Accounts`), which every character
keeps (`Regex.Accounts.step`).
-/
namespace Topical
namespace Regex

open ReadState (isClassChar)

/-! ## The rules -/

/-- The characters that do not stand for themselves. -/
def operators : List Char := ['\\', '(', ')', '[', '*', '+', '?', '^', '$', '.', '|', '{']

def anchor? : Char → Option Regex
  | '^' => some start
  | '$' => some stop
  | _ => none

def repetition? : Char → Option (Regex → Regex)
  | '*' => some star
  | '+' => some plus
  | '?' => some optional
  | _ => none

/-- The text writes the ranges of a class. -/
inductive WritesClass : Text → List (Char × Char) → Prop where
  | nil : WritesClass [] []
  | char {t : Text} {rs : List (Char × Char)} {c : Char} : WritesClass t rs → isClassChar c →
    WritesClass (t ++ [c]) (rs ++ [(c, c)])
  | range {t : Text} {rs : List (Char × Char)} {lo hi : Char} : WritesClass t rs → isClassChar lo → isClassChar hi →
    lo ≤ hi → WritesClass (t ++ [lo, '-', hi]) (rs ++ [(lo, hi)])

/-- The text writes the pieces, where `n` capturing groups have been opened before it and `m` at its end.  The flag
tells whether the last piece may be repeated. -/
inductive Writes : Nat → Text → List Regex → Bool → Nat → Prop where
  | nil {n : Nat} : Writes n [] [] false n
  | char {n m : Nat} {t : Text} {rs : List Regex} {b : Bool} {c : Char} : Writes n t rs b m → c ∉ operators →
    Writes n (t ++ [c]) (rs ++ [Regex.char c]) true m
  | escaped {n m : Nat} {t : Text} {rs : List Regex} {b : Bool} {c : Char} : Writes n t rs b m → c ∈ punctuation →
    Writes n (t ++ ['\\', c]) (rs ++ [Regex.char c]) true m
  | ranges {n m : Nat} {t u : Text} {rs : List Regex} {b : Bool} {cs : List (Char × Char)} : Writes n t rs b m →
    WritesClass u cs → cs ≠ [] → Writes n (t ++ '[' :: (u ++ [']'])) (rs ++ [test (.within cs)]) true m
  | anchor {n m : Nat} {t : Text} {rs : List Regex} {b : Bool} {c : Char} {r : Regex} : Writes n t rs b m →
    anchor? c = some r → Writes n (t ++ [c]) (rs ++ [r]) false m
  | repetition {n m : Nat} {t : Text} {rs : List Regex} {r : Regex} {c : Char} {f : Regex → Regex} :
    Writes n t (rs ++ [r]) true m → repetition? c = some f → Writes n (t ++ [c]) (rs ++ [f r]) false m
  | capture {n m k : Nat} {t u : Text} {rs qs : List Regex} {b b' : Bool} : Writes n t rs b m →
    Writes (m + 1) u qs b' k → Writes n (t ++ '(' :: (u ++ [')'])) (rs ++ [group (m + 1) (ofList qs)]) true k
  | group {n m k : Nat} {t u : Text} {rs qs : List Regex} {b b' : Bool} : Writes n t rs b m →
    Writes m u qs b' k → Writes n (t ++ '(' :: '?' :: ':' :: (u ++ [')'])) (rs ++ [ofList qs]) true k

/-! ## What is written is read -/

theorem readFrom_singleton (s : ReadState) (c : Char) : readFrom s [c] = s.step c := by
  rw [readFrom]
  cases s.step c <;> rfl

theorem step_opened {c : Char} (hc : c ≠ '?') (rs : List Regex) (outer : List OpenGroup) (n : Nat) :
    ReadState.step ⟨.opened, rs, outer, n⟩ c =
      ReadState.step ⟨.between false, [], ⟨some (n + 1), rs⟩ :: outer, n + 1⟩ c := by
  simp [ReadState.step, ReadState.openGroup, hc]

theorem isClassChar_iff {c : Char} : isClassChar c = true ↔ c ∉ punctuation := by
  simp [isClassChar]

theorem ne_of_isClassChar {c : Char} (h : isClassChar c) : c ≠ ']' ∧ c ≠ '-' := by
  rw [isClassChar_iff] at h
  exact ⟨fun he => h (he ▸ by decide), fun he => h (he ▸ by decide)⟩

/-- Inside a class with these ranges the last of them may be one character that could begin a longer range. -/
inductive InClass : ReadMode → List (Char × Char) → Prop where
  | closed {rs : List (Char × Char)} : InClass (.inClass rs.reverse) rs
  | char {rs : List (Char × Char)} {c : Char} : InClass (.inClassFrom rs.reverse c) (rs ++ [(c, c)])

theorem InClass.step_char {mode : ReadMode} {rs : List (Char × Char)} (h : InClass mode rs) {c : Char}
    (hc : isClassChar c) (s : ReadState) :
    ReadState.step { s with mode := mode } c = some { s with mode := .inClassFrom rs.reverse c } := by
  have hne := ne_of_isClassChar hc
  cases h <;> simp [ReadState.step, hne, hc]

theorem InClass.step_close {mode : ReadMode} {rs : List (Char × Char)} (h : InClass mode rs) (hne : rs ≠ [])
    (s : ReadState) :
    ReadState.step { s with mode := mode } ']' = some (s.push (test (.within rs)) true) := by
  have hclose : ∀ ranges, ranges ≠ [] → ReadState.closeClass { s with mode := mode } ranges =
      some (s.push (test (.within ranges.reverse)) true) := fun ranges hr => by
    cases ranges with
    | nil => exact absurd rfl hr
    | cons r rs => rfl
  cases h with
  | closed => simp [ReadState.step, hclose, hne]
  | char => simp [ReadState.step, hclose]

theorem WritesClass.readFrom {t : Text} {rs : List (Char × Char)} (h : WritesClass t rs) (s : ReadState) :
    ∃ mode, InClass mode rs ∧ Regex.readFrom { s with mode := .inClass [] } t = some { s with mode := mode } := by
  induction h with
  | nil => exact ⟨_, .closed, rfl⟩
  | @char t rs c _ hc ih =>
    obtain ⟨mode, hmode, hread⟩ := ih
    refine ⟨_, .char, ?_⟩
    rw [readFrom_append, hread, Option.bind_some, readFrom_singleton, hmode.step_char hc]
  | @range t rs lo hi _ hlo hhi hle ih =>
    obtain ⟨mode, hmode, hread⟩ := ih
    refine ⟨_, .closed, ?_⟩
    rw [readFrom_append, hread, Option.bind_some, Regex.readFrom, hmode.step_char hlo]
    simp [Regex.readFrom, ReadState.step, hhi, hle]

/-- **Pieces are read**, whatever groups are open around them. -/
theorem Writes.readFrom {n m : Nat} {t : Text} {rs : List Regex} {b : Bool} (h : Writes n t rs b m) :
    ∀ outer, Regex.readFrom ⟨.between false, [], outer, n⟩ t = some ⟨.between b, rs.reverse, outer, m⟩ := by
  -- on the rules, with the open groups general: those of a group's inside are more than those around it
  induction h with
  | nil => exact fun _ => rfl
  | @char n m t rs b c _ hc ih =>
    intro outer
    rw [readFrom_append, ih, Option.bind_some, readFrom_singleton]
    simp only [operators, List.mem_cons, List.not_mem_nil, or_false, not_or] at hc
    simp [ReadState.step, ReadState.stepBetween, ReadState.push, hc]
  | @escaped n m t rs b c _ hc ih =>
    intro outer
    rw [readFrom_append, ih, Option.bind_some]
    simp [Regex.readFrom, ReadState.step, ReadState.stepBetween, ReadState.push, hc]
  | @ranges n m t u rs b cs _ hclass hne ih =>
    intro outer
    have hopen : Regex.readFrom ⟨.between b, rs.reverse, outer, m⟩ ['['] = some ⟨.inClass [], rs.reverse, outer, m⟩ := rfl
    obtain ⟨mode, hmode, hread⟩ := hclass.readFrom ⟨.between b, rs.reverse, outer, m⟩
    rw [readFrom_append, ih, Option.bind_some, show '[' :: (u ++ [']']) = ['['] ++ (u ++ [']']) from rfl,
      readFrom_append, hopen, Option.bind_some, readFrom_append, hread, Option.bind_some, readFrom_singleton,
      hmode.step_close hne ⟨.between b, rs.reverse, outer, m⟩]
    simp [ReadState.push]
  | @anchor n m t rs b c r _ hc ih =>
    intro outer
    rw [readFrom_append, ih, Option.bind_some, readFrom_singleton]
    unfold anchor? at hc
    split at hc
    · cases hc
      simp [ReadState.step, ReadState.stepBetween, ReadState.push]
    · cases hc
      simp [ReadState.step, ReadState.stepBetween, ReadState.push]
    · cases hc
  | @repetition n m t rs r c f _ hc ih =>
    intro outer
    rw [readFrom_append, ih, Option.bind_some, readFrom_singleton]
    unfold repetition? at hc
    split at hc
    · cases hc
      simp [ReadState.step, ReadState.stepBetween, ReadState.repeatLast]
    · cases hc
      simp [ReadState.step, ReadState.stepBetween, ReadState.repeatLast]
    · cases hc
      simp [ReadState.step, ReadState.stepBetween, ReadState.repeatLast]
    · cases hc
  | @capture n m k t u rs qs b b' _ _ ih ihu =>
    intro outer
    -- the first character inside the group is not the one that would mark a group without number
    have hopen : Regex.readFrom ⟨.opened, rs.reverse, outer, m⟩ (u ++ [')']) =
        Regex.readFrom ⟨.between false, [], ⟨some (m + 1), rs.reverse⟩ :: outer, m + 1⟩ (u ++ [')']) := by
      cases u with
      | nil => rfl
      | cons c u =>
        have hc : c ≠ '?' := by
          rintro rfl
          have hread := ihu []
          cases hread
        rw [List.cons_append, Regex.readFrom, Regex.readFrom, step_opened hc]
    rw [readFrom_append, ih, Option.bind_some, show '(' :: (u ++ [')']) = ['('] ++ (u ++ [')']) from rfl,
      readFrom_append]
    change (Regex.readFrom ⟨.opened, rs.reverse, outer, m⟩ (u ++ [')'])) = _
    rw [hopen, readFrom_append, ihu, Option.bind_some, readFrom_singleton]
    simp [ReadState.step, ReadState.stepBetween, ReadState.closeGroup]
  | @group n m k t u rs qs b b' _ _ ih ihu =>
    intro outer
    have hopen : Regex.readFrom ⟨.between b, rs.reverse, outer, m⟩ ['(', '?', ':'] =
        some ⟨.between false, [], ⟨none, rs.reverse⟩ :: outer, m⟩ := rfl
    rw [readFrom_append, ih, Option.bind_some,
      show '(' :: '?' :: ':' :: (u ++ [')']) = ['(', '?', ':'] ++ (u ++ [')']) from rfl, readFrom_append, hopen,
      Option.bind_some, readFrom_append, ihu, Option.bind_some, readFrom_singleton]
    simp [ReadState.step, ReadState.stepBetween, ReadState.closeGroup]

/-! ## What is read is written -/

/-- The text up to the last bracket that opens a group which is still open, and the number of capturing groups opened
by then. -/
inductive Opens : Text → List OpenGroup → Nat → Prop where
  | nil : Opens [] [] 0
  | capture {t u : Text} {outer : List OpenGroup} {n m : Nat} {rs : List Regex} {b : Bool} : Opens t outer n →
    Writes n u rs b m → Opens (t ++ (u ++ ['('])) (⟨some (m + 1), rs.reverse⟩ :: outer) (m + 1)
  | group {t u : Text} {outer : List OpenGroup} {n m : Nat} {rs : List Regex} {b : Bool} : Opens t outer n →
    Writes n u rs b m → Opens (t ++ (u ++ ['(', '?', ':'])) (⟨none, rs.reverse⟩ :: outer) m

/-- The text writes the open groups and the pieces of the innermost one. -/
def WritesUpTo (t : Text) (b : Bool) (s : ReadState) : Prop :=
  ∃ t₀ n u rs, Opens t₀ s.outer n ∧ Writes n u rs b s.groups ∧ t = t₀ ++ u ∧ s.pieces = rs.reverse

/-- The text accounts for what the reader remembers. -/
def Accounts (t : Text) (s : ReadState) : Prop :=
  match s.mode with
  | .between b => WritesUpTo t b s
  | .escaped => ∃ t' b, t = t' ++ ['\\'] ∧ WritesUpTo t' b s
  | .opened => ∃ t' b, t = t' ++ ['('] ∧ WritesUpTo t' b s
  | .marked => ∃ t' b, t = t' ++ ['(', '?'] ∧ WritesUpTo t' b s
  | .inClass ranges => ∃ t' b u, t = t' ++ '[' :: u ∧ WritesUpTo t' b s ∧ WritesClass u ranges.reverse
  | .inClassFrom ranges lo => ∃ t' b u, t = t' ++ '[' :: (u ++ [lo]) ∧ WritesUpTo t' b s ∧
    WritesClass u ranges.reverse ∧ isClassChar lo
  | .inClassTo ranges lo => ∃ t' b u, t = t' ++ '[' :: (u ++ [lo, '-']) ∧ WritesUpTo t' b s ∧
    WritesClass u ranges.reverse ∧ isClassChar lo

/-- A new piece at the end of the innermost open group. -/
theorem WritesUpTo.append {t w : Text} {b b' : Bool} {s : ReadState} {r : Regex} (h : WritesUpTo t b s)
    (hw : ∀ {n u rs}, Writes n u rs b s.groups → Writes n (u ++ w) (rs ++ [r]) b' s.groups) :
    Accounts (t ++ w) (s.push r b') := by
  obtain ⟨t₀, n, u, rs, hopens, hwrites, rfl, hpieces⟩ := h
  exact ⟨t₀, n, u ++ w, rs ++ [r], hopens, hw hwrites, List.append_assoc _ _ _, by simp [ReadState.push, hpieces]⟩

theorem WritesUpTo.repeatLast {t : Text} {b : Bool} {s s' : ReadState} {c : Char} {f : Regex → Regex}
    (h : WritesUpTo t b s) (hs : s.mode = .between b) (hf : repetition? c = some f)
    (hstep : s.repeatLast f = some s') : Accounts (t ++ [c]) s' := by
  obtain ⟨t₀, n, u, rs, hopens, hwrites, rfl, hpieces⟩ := h
  unfold ReadState.repeatLast at hstep
  split at hstep
  · rename_i r rs' hmode hrs
    obtain rfl : b = true := by simpa [hs] using hmode
    obtain rfl : rs = rs'.reverse ++ [r] := by
      rw [← List.reverse_reverse rs, ← hpieces, hrs, List.reverse_cons]
    obtain rfl := Option.some.inj hstep
    exact ⟨t₀, n, u ++ [c], rs'.reverse ++ [f r], hopens, .repetition hwrites hf, List.append_assoc _ _ _, by simp⟩
  · cases hstep

/-- Nothing is written yet in a group that was just opened. -/
theorem WritesUpTo.openGroup {t : Text} {b : Bool} {s : ReadState} (h : WritesUpTo t b s) (captures : Bool) :
    WritesUpTo (t ++ if captures then ['('] else ['(', '?', ':']) false (s.openGroup captures) := by
  obtain ⟨mode, pieces, outer, groups⟩ := s
  obtain ⟨t₀, n, u, rs, hopens, hwrites, rfl, hpieces⟩ := h
  obtain rfl : pieces = rs.reverse := hpieces
  cases captures with
  | true => exact ⟨_, _, [], [], .capture hopens hwrites, .nil, by simp, rfl⟩
  | false => exact ⟨_, _, [], [], .group hopens hwrites, .nil, by simp, rfl⟩

/-- A closed group is a piece of the group around it. -/
theorem WritesUpTo.closeGroup {t : Text} {b : Bool} {s s' : ReadState} (h : WritesUpTo t b s)
    (hstep : s.closeGroup = some s') : Accounts (t ++ [')']) s' := by
  obtain ⟨mode, pieces, outer, groups⟩ := s
  obtain ⟨t₀, n, u, rs, hopens, hwrites, rfl, hpieces⟩ := h
  obtain rfl : pieces = rs.reverse := hpieces
  cases hopens with
  | nil => cases hstep
  | @capture t₁ u₁ outer k m qs b' hopens hbefore =>
    obtain rfl := Option.some.inj hstep
    refine ⟨t₁, k, _, _, hopens, .capture hbefore hwrites, ?_, ?_⟩
    · simp
    · simp
  | @group t₁ u₁ outer k _ qs b' hopens hbefore =>
    obtain rfl := Option.some.inj hstep
    refine ⟨t₁, k, _, _, hopens, .group hbefore hwrites, ?_, ?_⟩
    · simp
    · simp

theorem WritesUpTo.closeClass {t u : Text} {b : Bool} {s s' : ReadState} {cs : List (Char × Char)}
    (h : WritesUpTo t b s) (hu : WritesClass u cs.reverse) (hstep : s.closeClass cs = some s') :
    Accounts (t ++ '[' :: (u ++ [']'])) s' := by
  unfold ReadState.closeClass at hstep
  split at hstep
  · cases hstep
  · rename_i hne
    obtain rfl := Option.some.inj hstep
    exact h.append fun hwrites => .ranges hwrites hu (by simpa using hne)

/-- **A character between pieces is accounted for.** -/
theorem WritesUpTo.stepBetween {t : Text} {b : Bool} {s s' : ReadState} {c : Char} (h : WritesUpTo t b s)
    (hs : s.mode = .between b) (hstep : s.stepBetween c = some s') : Accounts (t ++ [c]) s' := by
  unfold ReadState.stepBetween at hstep
  split at hstep
  · obtain rfl := Option.some.inj hstep
    exact ⟨t, b, rfl, h⟩
  · obtain rfl := Option.some.inj hstep
    exact ⟨t, b, rfl, h⟩
  · exact h.closeGroup hstep
  · obtain rfl := Option.some.inj hstep
    exact ⟨t, b, [], rfl, h, .nil⟩
  · exact h.repeatLast hs rfl hstep
  · exact h.repeatLast hs rfl hstep
  · exact h.repeatLast hs rfl hstep
  · obtain rfl := Option.some.inj hstep
    exact h.append fun hwrites => .anchor hwrites rfl
  · obtain rfl := Option.some.inj hstep
    exact h.append fun hwrites => .anchor hwrites rfl
  · cases hstep
  · cases hstep
  · cases hstep
  · obtain rfl := Option.some.inj hstep
    have hc : c ∉ operators := by
      simp only [operators, List.mem_cons, List.not_mem_nil, or_false, not_or]
      exact ⟨‹_›, ‹_›, ‹_›, ‹_›, ‹_›, ‹_›, ‹_›, ‹_›, ‹_›, ‹_›, ‹_›, ‹_›⟩
    exact h.append fun hwrites => .char hwrites hc

/-- **Every character that is read is accounted for.** -/
theorem Accounts.step {t : Text} {s s' : ReadState} {c : Char} (h : Accounts t s) (hstep : s.step c = some s') :
    Accounts (t ++ [c]) s' := by
  obtain ⟨mode, pieces, outer, groups⟩ := s
  cases mode with
  | between b => exact WritesUpTo.stepBetween h rfl hstep
  | escaped =>
    obtain ⟨t', b, rfl, h⟩ := h
    simp only [ReadState.step] at hstep
    split at hstep
    · rename_i hc
      obtain rfl := Option.some.inj hstep
      rw [List.append_assoc]
      exact h.append fun hwrites => .escaped hwrites hc
    · cases hstep
  | opened =>
    obtain ⟨t', b, rfl, h⟩ := h
    simp only [ReadState.step] at hstep
    split at hstep
    · rename_i hc
      obtain rfl := beq_iff_eq.1 hc
      obtain rfl := Option.some.inj hstep
      exact ⟨t', b, by simp, h⟩
    · exact (h.openGroup true).stepBetween rfl hstep
  | marked =>
    obtain ⟨t', b, rfl, h⟩ := h
    simp only [ReadState.step] at hstep
    split at hstep
    · rename_i hc
      obtain rfl := beq_iff_eq.1 hc
      obtain rfl := Option.some.inj hstep
      rw [List.append_assoc]
      exact h.openGroup false
    · cases hstep
  | inClass cs =>
    obtain ⟨t', b, u, rfl, h, hu⟩ := h
    simp only [ReadState.step] at hstep
    rw [List.append_assoc, List.cons_append]
    split at hstep
    · rename_i hc
      obtain rfl := beq_iff_eq.1 hc
      exact h.closeClass hu hstep
    · split at hstep
      · rename_i hc
        obtain rfl := Option.some.inj hstep
        exact ⟨t', b, u, rfl, h, hu, hc⟩
      · cases hstep
  | inClassFrom cs lo =>
    obtain ⟨t', b, u, rfl, h, hu, hlo⟩ := h
    have hlast : WritesClass (u ++ [lo]) ((lo, lo) :: cs).reverse := by
      rw [List.reverse_cons]
      exact hu.char hlo
    simp only [ReadState.step] at hstep
    rw [List.append_assoc, List.cons_append]
    split at hstep
    · rename_i hc
      obtain rfl := beq_iff_eq.1 hc
      exact h.closeClass hlast hstep
    · split at hstep
      · rename_i hc
        obtain rfl := beq_iff_eq.1 hc
        obtain rfl := Option.some.inj hstep
        exact ⟨t', b, u, by simp, h, hu, hlo⟩
      · split at hstep
        · rename_i hc
          obtain rfl := Option.some.inj hstep
          exact ⟨t', b, u ++ [lo], rfl, h, hlast, hc⟩
        · cases hstep
  | inClassTo cs lo =>
    obtain ⟨t', b, u, rfl, h, hu, hlo⟩ := h
    simp only [ReadState.step] at hstep
    split at hstep
    · rename_i hc
      obtain ⟨hhi, hle⟩ := Bool.and_eq_true_iff.1 hc
      obtain rfl := Option.some.inj hstep
      refine ⟨t', b, u ++ [lo, '-', c], by simp, h, ?_⟩
      rw [List.reverse_cons]
      exact hu.range hlo hhi (by simpa using hle)
    · cases hstep

theorem Accounts.readFrom {t u : Text} {s s' : ReadState} (h : Accounts t s) (hread : Regex.readFrom s u = some s') :
    Accounts (t ++ u) s' := by
  induction u generalizing t s with
  | nil =>
    obtain rfl := Option.some.inj hread
    rwa [List.append_nil]
  | cons c u ih =>
    rw [Regex.readFrom] at hread
    split at hread
    · cases hread
    · rename_i x hx
      rw [List.append_cons]
      exact ih (h.step hx) hread

/-- **The reader follows the grammar**: it reads a text as pieces if and only if the text writes them. -/
theorem read_eq_some_iff {t : Text} {rs : List Regex} {n : Nat} :
    read t = some (rs, n) ↔ ∃ b, Writes 0 t rs b n := by
  rw [read, Option.bind_eq_some_iff]
  constructor
  · rintro ⟨s, hs, hfinish⟩
    have hinitial : Accounts [] .initial := ⟨[], 0, [], [], .nil, .nil, rfl, rfl⟩
    have haccounts := hinitial.readFrom hs
    rw [List.nil_append] at haccounts
    obtain ⟨mode, pieces, outer, groups⟩ := s
    unfold ReadState.finish at hfinish
    split at hfinish
    · rename_i b hmode houter
      obtain rfl : mode = .between b := hmode
      obtain rfl : outer = [] := houter
      obtain ⟨t₀, k, u, qs, hopens, hwrites, rfl, hpieces⟩ := haccounts
      obtain rfl : pieces = qs.reverse := hpieces
      cases hopens
      obtain ⟨rfl, rfl⟩ := Prod.mk.inj (Option.some.inj hfinish)
      exact ⟨b, by simpa using hwrites⟩
    · cases hfinish
  · rintro ⟨b, h⟩
    exact ⟨_, h.readFrom [], by simp [ReadState.finish]⟩

end Regex
end Topical
