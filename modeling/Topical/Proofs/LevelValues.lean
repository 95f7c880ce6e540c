import Topical.Proofs.CapturedText
/-!
# What a wildcard may stand for

The values of a wildcard are told in three ways: by the fragments of an expression, by the functions that cut a capture,
and by the check that a value passes before it is formatted.  The three agree on every text.  A fragment on its own,
between the anchors, matches the texts that fit its segment (`Matcher.isMatch_anchored_iff`), and a text fits a wildcard
if it is cut into level values, with a slash at its end in mid form (`Segment.fits_single_iff`,
`Segment.fits_multi_iff`).

The check may also be made byte by byte on the encoded text, since a character beyond ASCII begins with a byte beyond
ASCII (`utf8EncodeChar_eq`, `isLevelValue_eq_isLevelEncoding`).
-/
namespace Topical

/-! ## The check on the encoded text -/

/-- The byte is an ASCII letter or digit, or `_`. -/
def isLevelByte (b : UInt8) : Bool :=
  ('0'.toUInt8 ≤ b && b ≤ '9'.toUInt8) || ('A'.toUInt8 ≤ b && b ≤ 'Z'.toUInt8) ||
    ('a'.toUInt8 ≤ b && b ≤ 'z'.toUInt8) || b == '_'.toUInt8

/-- The check on a level value, made on the bytes of its encoding. -/
def isLevelEncoding (t : Text) : Bool := !t.isEmpty && (t.flatMap String.utf8EncodeChar).all isLevelByte

def IsLevelCode (n : Nat) : Prop :=
  '0'.toNat ≤ n ∧ n ≤ '9'.toNat ∨ 'A'.toNat ≤ n ∧ n ≤ 'Z'.toNat ∨ 'a'.toNat ≤ n ∧ n ≤ 'z'.toNat ∨ n = '_'.toNat

theorem isLevelByte_iff {b : UInt8} : isLevelByte b = true ↔ IsLevelCode b.toNat := by
  simp only [isLevelByte, IsLevelCode, Bool.or_eq_true, Bool.and_eq_true, decide_eq_true_eq, beq_iff_eq,
    UInt8.le_iff_toNat_le, ← UInt8.toNat_inj, or_assoc]
  rfl

theorem isLevelChar_iff {c : Char} : isLevelChar c = true ↔ IsLevelCode c.toNat := by
  rw [← levelTest_accepts]
  simp only [levelTest, CharTest.accepts, IsLevelCode, List.any_cons, List.any_nil, Bool.or_eq_true, Bool.and_eq_true,
    decide_eq_true_eq, Bool.false_eq_true, or_false, Char.le_def, UInt32.le_iff_toNat_le, Char.toNat_val]
  rw [Nat.eq_iff_le_and_ge, @and_comm (c.toNat ≤ '_'.toNat)]

theorem IsLevelCode.le {n : Nat} (h : IsLevelCode n) : n ≤ 127 := by
  simp only [IsLevelCode, Char.reduceToNat] at h
  omega

/-- A character of ASCII is encoded by its code alone, and any other begins with a byte beyond ASCII. -/
theorem utf8EncodeChar_eq (c : Char) :
    c.toNat ≤ 127 ∧ String.utf8EncodeChar c = [c.val.toUInt8] ∨
      127 < c.toNat ∧ ∃ b bs, String.utf8EncodeChar c = b :: bs ∧ 127 < b.toNat := by
  have hone : c.utf8Size = 1 ↔ c.toNat ≤ 127 := by
    rw [Char.utf8Size_eq_one_iff, UInt32.le_iff_toNat_le]
    rfl
  have hlead : ∀ a b : UInt8, 127 < b.toNat → 127 < (a ||| b).toNat := fun a b hb => by
    rw [UInt8.toNat_or]
    exact Nat.lt_of_lt_of_le hb Nat.right_le_or
  rcases Char.utf8Size_eq c with h | h | h | h
  · exact .inl ⟨hone.1 h, String.utf8EncodeChar_eq_singleton h⟩
  · exact .inr ⟨by omega, _, _, String.utf8EncodeChar_eq_cons_cons h, hlead _ _ (by decide)⟩
  · exact .inr ⟨by omega, _, _, String.utf8EncodeChar_eq_cons_cons_cons h, hlead _ _ (by decide)⟩
  · exact .inr ⟨by omega, _, _, String.utf8EncodeChar_eq_cons_cons_cons_cons h, hlead _ _ (by decide)⟩

theorem all_isLevelByte_utf8EncodeChar (c : Char) : (String.utf8EncodeChar c).all isLevelByte = isLevelChar c := by
  rw [Bool.eq_iff_iff, isLevelChar_iff]
  rcases utf8EncodeChar_eq c with ⟨hle, henc⟩ | ⟨hlt, b, bs, henc, hb⟩
  · have hcode : c.val.toUInt8.toNat = c.toNat := by
      rw [UInt32.toNat_toUInt8, Char.toNat_val]
      exact Nat.mod_eq_of_lt (by omega)
    rw [henc, List.all_cons, List.all_nil, Bool.and_true, isLevelByte_iff, hcode]
  · -- neither the character nor its first byte is of ASCII
    refine iff_of_false (fun h => ?_) fun h => Nat.not_le.2 hlt h.le
    rw [henc, List.all_cons, Bool.and_eq_true, isLevelByte_iff] at h
    exact Nat.not_le.2 hb h.1.le

theorem isLevelValue_eq_isLevelEncoding (t : Text) : isLevelValue t = isLevelEncoding t := by
  rw [isLevelValue, isLevelEncoding, List.all_flatMap]
  congr 2
  funext c
  exact (all_isLevelByte_utf8EncodeChar c).symm

/-! ## Fragments on their own -/

open Regex

/-- The expression of a fragment that stands alone. -/
def anchored (fragment : Text) : Text := '^' :: (fragment ++ ['$'])

namespace Segment

variable {tail : Bool}

/-- The fragment of a segment in mid form or, if `tail` holds, in tail form. -/
def form (tail : Bool) (s : Segment) : Text := if tail then s.tailFragment else s.midFragment

theorem read_anchored_form (s : Segment) (tail : Bool) :
    Regex.read (anchored (s.form tail)) = some (start :: (s.pieces tail 0 ++ [stop]), s.groups) := by
  refine read_anchored ?_
  rw [← Nat.zero_add s.groups]
  exact s.readFrom_fragment tail false [start] 0

theorem ways_anchored_ne_nil_iff (s : Segment) (t : Text) :
    (ofList (s.pieces tail 0 ++ [stop])).ways 0 t ≠ [] ↔ s.Fits tail t := by
  have hstop : ∀ pos u, (ofList [stop]).ways pos u = if u.isEmpty then [.stay u] else [] := ways_piecesOf_nil 0
  rw [ways_ofList_append]
  constructor
  · intro h
    obtain ⟨w, hw⟩ := List.exists_mem_of_ne_nil _ h
    obtain ⟨v, hv, hw⟩ := List.mem_flatMap.1 hw
    obtain ⟨u, hu, -⟩ := Way.mem_onward.1 hw
    obtain ⟨-, ht, hfit⟩ := (s.mem_ways_pieces 0 0 t v).1 hv
    rw [hstop] at hu
    split at hu
    · rename_i hrest
      rw [List.isEmpty_iff.1 hrest, List.append_nil] at ht
      rwa [← ht]
    · cases hu
  · intro hfit
    have hv := (s.mem_ways_pieces 0 0 t ⟨s.marks 0 0 t.length, t, []⟩).2 ⟨rfl, List.append_nil t, hfit⟩
    refine List.ne_nil_of_mem (List.mem_flatMap.2 ⟨_, hv, Way.mem_onward.2 ⟨.stay [], ?_, rfl⟩⟩)
    rw [hstop]
    exact List.mem_singleton_self _

end Segment

namespace Matcher

theorem read?_anchored_form (s : Segment) (tail : Bool) :
    read? (anchored (s.form tail)) =
      some ⟨anchored (s.form tail), (start :: (s.pieces tail 0 ++ [stop])).toArray, s.groups⟩ := by
  rw [read?, Segment.read_anchored_form, Option.map_some]

/-- What the fragment writes on its own matches the text as a whole. -/
def MatchesWhole (fragment t : Text) : Prop := ∃ m, read? (anchored fragment) = some m ∧ m.isMatch t = true

/-- **A fragment on its own matches what fits its segment.** -/
theorem matchesWhole_form_iff (s : Segment) (tail : Bool) (t : Text) :
    MatchesWhole (s.form tail) t ↔ s.Fits tail t := by
  simp only [MatchesWhole, read?_anchored_form, Option.some.injEq, exists_eq_left']
  rw [isMatch, search_anchored, Option.isSome_map, List.isSome_head?, Segment.ways_anchored_ne_nil_iff]

end Matcher

/-! ## Texts that are cut into level values -/

namespace Segment

variable {tail : Bool} {name : Text} {c : Text}

/-- **What fits a single-level wildcard** is a level value, one slash at the end set aside. -/
theorem fits_single_iff :
    (single name).Fits tail c ↔ isLevelValue (stripTrailingSlash c) ∧ (tail ∨ c.getLast? = some '/') := by
  constructor
  · rintro ⟨v, hv, rfl | ⟨ht, rfl⟩⟩
    · exact ⟨by rwa [stripTrailingSlash_append], .inr List.getLast?_concat⟩
    · exact ⟨by rwa [stripTrailingSlash_of_notMem (slash_notMem hv)], .inl ht⟩
  · rintro ⟨hv, hend⟩
    rcases isWithoutSlash_iff.2 (rfl : stripTrailingSlash c = _) with h | ⟨h, hlast⟩
    · exact ⟨_, hv, .inl h⟩
    · exact ⟨_, hv, .inr ⟨hend.resolve_right hlast, h⟩⟩

/-- A run of levels is spelled by them, and in mid form a slash stands after the last of them. -/
theorem runsOver_iff {vs : List Text} (hvs : ∀ v ∈ vs, isLevelValue v) :
    RunsOver tail vs c ↔ Spells vs c ∧ (tail ∨ c = [] ∨ c.getLast? = some '/') := by
  induction vs generalizing c with
  | nil =>
    rw [runsOver_nil, spells_nil]
    exact ⟨fun h => ⟨h, .inr (.inl h)⟩, And.left⟩
  | cons v vs ih =>
    obtain ⟨hv, hvs⟩ := List.forall_mem_cons.1 hvs
    have hlast : v.getLast? ≠ some '/' := fun h => slash_notMem hv (List.mem_of_getLast? h)
    -- after a slash the text ends as what is left of it, even if nothing is
    have hend : ∀ x, v ++ '/' :: x = [] ∨ (v ++ '/' :: x).getLast? = some '/' ↔ x = [] ∨ x.getLast? = some '/' := by
      intro x
      cases x <;> simp [List.getLast?_append]
    rw [runsOver_cons, spells_cons]
    constructor
    · rintro (⟨ht, rfl, rfl⟩ | ⟨x, rfl, hx⟩)
      · exact ⟨.inl ⟨rfl, rfl⟩, .inl ht⟩
      · obtain ⟨hspell, hx⟩ := (ih hvs).1 hx
        exact ⟨.inr ⟨x, rfl, hspell⟩, hx.imp_right (hend x).2⟩
    · rintro ⟨⟨rfl, rfl⟩ | ⟨x, rfl, hspell⟩, hc⟩
      · exact .inl ⟨hc.resolve_right (not_or.2 ⟨ne_nil_of_isLevelValue hv, hlast⟩), rfl, rfl⟩
      · exact .inr ⟨x, rfl, (ih hvs).2 ⟨hspell, hc.imp_right (hend x).1⟩⟩

theorem spells_capturedLevels (c : Text) : Spells (capturedLevels c) c := by
  rcases isWithoutSlash_iff.2 (joinLevels_capturedLevels c) with h | ⟨h, -⟩
  · refine .inr ⟨fun hnil => ?_, h⟩
    rw [capturedLevels_eq_nil_iff.1 hnil] at h
    simp at h
  · exact .inl h

/-- **What fits a multi-level wildcard** is cut into level values. -/
theorem fits_multi_iff :
    (multi name).Fits tail c ↔
      (∀ v ∈ capturedLevels c, isLevelValue v) ∧ (tail ∨ c = [] ∨ c.getLast? = some '/') := by
  constructor
  · rintro ⟨vs, hvs, hrun⟩
    obtain ⟨hspell, hend⟩ := (runsOver_iff hvs).1 hrun
    exact ⟨by rwa [capturedLevels_of_spells hvs hspell], hend⟩
  · rintro ⟨hvs, hend⟩
    exact ⟨_, hvs, (runsOver_iff hvs).2 ⟨spells_capturedLevels c, hend⟩⟩

open Matcher

/-- **Fragments, cutters and the check tell one language.**  As a whole, the fragments of a multi-level wildcard match
what is cut into level values, and those of a single-level wildcard what is a level value once a slash is stripped; the
mid forms insist on the slash.  The check on level values is the one on the bytes. -/
theorem matchesWhole_iff_cut (name c : Text) :
    (MatchesWhole (multi name).tailFragment c ↔ ∀ v ∈ capturedLevels c, isLevelValue v) ∧
    (MatchesWhole (multi name).midFragment c ↔
      (∀ v ∈ capturedLevels c, isLevelValue v) ∧ (c = [] ∨ c.getLast? = some '/')) ∧
    (MatchesWhole (single name).tailFragment c ↔ isLevelValue (stripTrailingSlash c)) ∧
    (MatchesWhole (single name).midFragment c ↔ isLevelValue (stripTrailingSlash c) ∧ c.getLast? = some '/') ∧
    isLevelValue c = isLevelEncoding c := by
  have hmulti : ∀ tail, MatchesWhole ((multi name).form tail) c ↔
      (∀ v ∈ capturedLevels c, isLevelValue v) ∧ (tail ∨ c = [] ∨ c.getLast? = some '/') :=
    fun tail => (matchesWhole_form_iff _ tail c).trans fits_multi_iff
  have hsingle : ∀ tail, MatchesWhole ((single name).form tail) c ↔
      isLevelValue (stripTrailingSlash c) ∧ (tail ∨ c.getLast? = some '/') :=
    fun tail => (matchesWhole_form_iff _ tail c).trans fits_single_iff
  refine ⟨?_, ?_, ?_, ?_, isLevelValue_eq_isLevelEncoding c⟩
  · simpa [form] using hmulti true
  · simpa [form] using hmulti false
  · simpa [form] using hsingle true
  · simpa [form] using hsingle false

/-- One slash at the end begins no level, a second one leaves an empty level, which is no level value. -/
example : capturedLevels "a/".toList = [['a']] ∧ capturedLevels "a//".toList = [['a'], []] := ⟨rfl, rfl⟩

end Segment
end Topical
