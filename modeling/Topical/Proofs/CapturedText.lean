import Topical.Proofs.Extraction
/-!
# The text that is kept

An extractor and a match need not belong together: captures are read by the wildcards in the same places, whatever
these wildcards are and as far as both reach.  No text is lost or moved in this.  A capture less one slash at its end is
the text of the value, of either kind, since cutting that text at its slashes is all that a multi-level wildcard does
(`capturedLevels_of_ne_nil`).  `Extractor.extract_keeps_text` says so of all that is extracted.
-/
namespace Topical

/-! ## The two ways of cutting a capture -/

theorem getLast?_splitLevels_eq_nil_iff {c : Text} :
    (splitLevels c).getLast? = some [] ↔ c = [] ∨ c.getLast? = some '/' := by
  constructor
  · intro h
    obtain ⟨ls, hls⟩ := List.getLast?_eq_some_iff.1 h
    by_cases hnil : ls = []
    · exact .inl (by rw [← joinLevels_splitLevels c, hls, hnil]; rfl)
    · -- the capture is split like the other levels with a slash after them, so it is that text
      have hslash : ∀ l ∈ ls, '/' ∉ l := fun l hl =>
        slash_notMem_of_mem_splitLevels (t := c) (by rw [hls]; exact List.mem_append_left _ hl)
      have hc : splitLevels c = splitLevels (joinLevels ls ++ ['/']) := by
        rw [hls, splitLevels_append_slash, splitLevels_joinLevels hslash hnil]
        rfl
      have hc : c = joinLevels ls ++ ['/'] := by
        rw [← joinLevels_splitLevels c, hc, joinLevels_splitLevels]
      exact .inr (by rw [hc, List.getLast?_concat])
  · rintro (rfl | h)
    · rfl
    · obtain ⟨u, rfl⟩ := List.getLast?_eq_some_iff.1 h
      rw [splitLevels_append_slash, List.getLast?_append]
      rfl

/-- **A multi-level wildcard cuts what a single-level wildcard would keep.** -/
theorem capturedLevels_of_ne_nil {c : Text} (h : c ≠ []) : capturedLevels c = splitLevels (stripTrailingSlash c) := by
  by_cases hlast : c.getLast? = some '/'
  · obtain ⟨u, rfl⟩ := List.getLast?_eq_some_iff.1 hlast
    rw [stripTrailingSlash_append, capturedLevels, splitLevels_append_slash]
    exact (if_pos List.getLast?_concat).trans List.dropLast_concat
  · rw [stripTrailingSlash, if_neg hlast, capturedLevels, if_neg]
    rw [getLast?_splitLevels_eq_nil_iff]
    exact not_or.2 ⟨h, hlast⟩

theorem joinLevels_capturedLevels (c : Text) : joinLevels (capturedLevels c) = stripTrailingSlash c := by
  by_cases h : c = []
  · rw [h]
    rfl
  · rw [capturedLevels_of_ne_nil h, joinLevels_splitLevels]

theorem capturedLevels_eq_nil_iff {c : Text} : capturedLevels c = [] ↔ c = [] := by
  constructor
  · intro h
    by_contra hne
    rw [capturedLevels_of_ne_nil hne] at h
    exact splitLevels_ne_nil _ h
  · rintro rfl
    rfl

theorem slash_notMem_of_mem_capturedLevels {c l : Text} (h : l ∈ capturedLevels c) : '/' ∉ l := by
  have hne : c ≠ [] := by
    rintro rfl
    cases h
  rw [capturedLevels_of_ne_nil hne] at h
  exact slash_notMem_of_mem_splitLevels h

/-! ## What a value keeps of a capture -/

/-- The text is the capture less exactly one slash at its end, or all of it if it does not end in one. -/
def IsWithoutSlash (u c : Text) : Prop := c = u ++ ['/'] ∨ c = u ∧ c.getLast? ≠ some '/'

theorem isWithoutSlash_iff {u c : Text} : IsWithoutSlash u c ↔ u = stripTrailingSlash c := by
  constructor
  · rintro (rfl | ⟨rfl, hlast⟩)
    · exact (stripTrailingSlash_append u).symm
    · exact (if_neg hlast).symm
  · rintro rfl
    by_cases hlast : c.getLast? = some '/'
    · obtain ⟨u, rfl⟩ := List.getLast?_eq_some_iff.1 hlast
      exact .inl (by rw [stripTrailingSlash_append])
    · exact .inr ⟨(if_neg hlast).symm, hlast⟩

/-- The value has the text of the capture, and if it is a list of levels then the text is cut at every slash. -/
structure Value.Keeps (v : Value) (c : Text) : Prop where
  text : IsWithoutSlash v.toText c
  slash_notMem : ∀ vs, v = .multi vs → ∀ l ∈ vs, '/' ∉ l
  eq_nil_iff : ∀ vs, v = .multi vs → (vs = [] ↔ c = [])

theorem Segment.valueOf_wildcard_eq_some_iff {kind : Kind} {n c : Text} {v : Value} :
    (wildcard kind n).valueOf c = some v ↔ v.kind = kind ∧ v.Keeps c := by
  constructor
  · intro h
    cases kind with
    | single =>
      obtain rfl := Option.some.inj h
      exact ⟨rfl, isWithoutSlash_iff.2 rfl, nofun, nofun⟩
    | multi =>
      obtain rfl := Option.some.inj h
      refine ⟨rfl, isWithoutSlash_iff.2 (joinLevels_capturedLevels c), ?_, ?_⟩
      · rintro vs ⟨⟩
        exact fun l => slash_notMem_of_mem_capturedLevels
      · rintro vs ⟨⟩
        exact capturedLevels_eq_nil_iff
  · rintro ⟨rfl, htext, hslash, hnil⟩
    rw [isWithoutSlash_iff] at htext
    cases v with
    | single l => exact congrArg (some ∘ Value.single) htext.symm
    | multi vs =>
      -- the text alone does not tell no levels from one empty level, the capture does
      refine congrArg (some ∘ Value.multi) ?_
      by_cases hc : c = []
      · rw [capturedLevels_eq_nil_iff.2 hc, (hnil vs rfl).2 hc]
      · have hne : vs ≠ [] := fun h => hc ((hnil vs rfl).1 h)
        rw [capturedLevels_of_ne_nil hc, ← htext]
        exact splitLevels_joinLevels (hslash vs rfl) hne

theorem Segment.paramName?_eq_some_iff_wildcard {s : Segment} {n : Text} :
    s.paramName? = some n ↔ n ≠ [] ∧ ∃ kind, s = wildcard kind n := by
  rw [paramName?_eq_some_iff]
  refine and_congr_right fun _ => ⟨?_, ?_⟩
  · rintro (rfl | rfl)
    · exact ⟨.single, rfl⟩
    · exact ⟨.multi, rfl⟩
  · rintro ⟨kind, rfl⟩
    cases kind with
    | single => exact .inl rfl
    | multi => exact .inr rfl

/-! ## The wildcards that captures are read by -/

/-- The last element of its sort, by its place. -/
theorem exists_eq_append_cons_iff {α : Type} {l : List α} {a : α} {P : α → Prop} :
    (∃ before after, l = before ++ a :: after ∧ ∀ b ∈ after, P b) ↔
      ∃ i : Nat, l[i]? = some a ∧ ∀ j, i < j → ∀ b, l[j]? = some b → P b := by
  constructor
  · rintro ⟨before, after, rfl, h⟩
    refine ⟨before.length, by simp, fun j hj b hb => ?_⟩
    obtain ⟨d, rfl⟩ : ∃ d, j = before.length + (d + 1) := ⟨j - before.length - 1, by omega⟩
    rw [List.getElem?_append_right (by omega), Nat.add_sub_cancel_left, List.getElem?_cons_succ] at hb
    exact h b (List.mem_of_getElem? hb)
  · rintro ⟨i, hi, h⟩
    obtain ⟨hlt, hget⟩ := List.getElem?_eq_some_iff.1 hi
    refine ⟨l.take i, l.drop (i + 1), ?_, fun b hb => ?_⟩
    · rw [← hget, List.getElem_cons_drop, List.take_append_drop]
    · obtain ⟨d, hd⟩ := List.mem_iff_getElem?.1 hb
      rw [List.getElem?_drop] at hd
      exact h _ (by omega) b hd

namespace Extractor

/-- The wildcards that find a capture in their place. -/
def readers (segments : List Segment) (y : Match) : List Segment :=
  (segments.filter Segment.isWildcard).take (min (ofSegments segments).captureCount y.captures.length)

variable {segments : List Segment} {y : Match}

theorem map_fst_zip : ((ofSegments segments).wildcards.zip y.captures).map Prod.fst = readers segments y := by
  rw [List.zip_eq_zip_take_min, List.map_fst_zip (by simp)]
  rfl

theorem names_extract :
    ((ofSegments segments).extract y).names = ((readers segments y).filterMap Segment.paramName?).eraseDups := by
  rw [extract, Params.names_ofList, List.map_filterMap, ← map_fst_zip, List.filterMap_map]
  simp only [map_fst_entry]
  rfl

theorem entry?_eq_some_iff_keeps {s : Segment} {c n : Text} {v : Value} :
    entry? s c = some (n, v) ↔ n ≠ [] ∧ s = .wildcard v.kind n ∧ v.Keeps c := by
  rw [entry?_eq_some_iff_valueOf, Segment.paramName?_eq_some_iff_wildcard]
  constructor
  · rintro ⟨⟨hne, kind, rfl⟩, hv⟩
    obtain ⟨rfl, hkeeps⟩ := Segment.valueOf_wildcard_eq_some_iff.1 hv
    exact ⟨hne, rfl, hkeeps⟩
  · rintro ⟨hne, rfl, hkeeps⟩
    exact ⟨⟨hne, _, rfl⟩, Segment.valueOf_wildcard_eq_some_iff.2 ⟨rfl, hkeeps⟩⟩

theorem getElem?_zip_eq_some_iff {i : Nat} {s : Segment} {c : Text} :
    ((ofSegments segments).wildcards.zip y.captures)[i]? = some (s, c) ↔
      (readers segments y)[i]? = some s ∧ y.captures[i]? = some c := by
  rw [← map_fst_zip, List.getElem?_map, Option.map_eq_some_iff]
  constructor
  · intro h
    exact ⟨⟨_, h, rfl⟩, (List.getElem?_zip_eq_some.1 h).2⟩
  · rintro ⟨⟨⟨s, c'⟩, hzip, rfl⟩, hc⟩
    have hc' : y.captures[i]? = some c' := (List.getElem?_zip_eq_some.1 hzip).2
    obtain rfl := Option.some.inj (hc'.symm.trans hc)
    exact hzip

theorem forall_zip_iff {n : Text} (hne : n ≠ []) (j : Nat) :
    (∀ q, ((ofSegments segments).wildcards.zip y.captures)[j]? = some q → q.1.paramName? ≠ some n) ↔
      ∀ kind, (readers segments y)[j]? ≠ some (.wildcard kind n) := by
  rw [← map_fst_zip, List.getElem?_map]
  cases ((ofSegments segments).wildcards.zip y.captures)[j]? with
  | none => simp
  | some q => simp [Segment.paramName?_eq_some_iff_wildcard, hne]

/-- **Extraction keeps the captured text.**  Whatever the segments and the match, the names are those of the wildcards
that find a capture in their place, and the value of a name is of the kind of the last of these with that name and keeps
the text of the capture there. -/
theorem extract_keeps_text (segments : List Segment) (y : Match) :
    ((ofSegments segments).extract y).names = ((readers segments y).filterMap Segment.paramName?).eraseDups ∧
    ∀ n v, ((ofSegments segments).extract y).get? n = some v ↔ n ≠ [] ∧ ∃ (i : Nat) (c : Text),
      (readers segments y)[i]? = some (.wildcard v.kind n) ∧ y.captures[i]? = some c ∧
      (∀ j, i < j → ∀ kind, (readers segments y)[j]? ≠ some (.wildcard kind n)) ∧ v.Keeps c := by
  refine ⟨names_extract, fun n v => ?_⟩
  rw [get?_extract_iff]
  constructor
  · rintro ⟨before, s, c, after, hzip, hlast, hentry⟩
    obtain ⟨hne, rfl, hkeeps⟩ := entry?_eq_some_iff_keeps.1 hentry
    obtain ⟨i, hi, hlater⟩ := exists_eq_append_cons_iff.1 ⟨before, after, hzip, hlast⟩
    obtain ⟨hreader, hc⟩ := getElem?_zip_eq_some_iff.1 hi
    exact ⟨hne, i, c, hreader, hc, fun j hj => (forall_zip_iff hne j).1 (hlater j hj), hkeeps⟩
  · rintro ⟨hne, i, c, hreader, hc, hlater, hkeeps⟩
    have hi := getElem?_zip_eq_some_iff.2 ⟨hreader, hc⟩
    obtain ⟨before, after, hzip, hlast⟩ := exists_eq_append_cons_iff.2
      ⟨i, hi, fun j hj => (forall_zip_iff hne j).2 (hlater j hj)⟩
    exact ⟨before, _, c, after, hzip, hlast, entry?_eq_some_iff_keeps.2 ⟨hne, rfl, hkeeps⟩⟩

/-- A single-level wildcard keeps the slashes within what it is given, a multi-level wildcard cuts at them. -/
example :
    (((ofSegments [.single ['x'], .literal ['a'], .multi ['y'], .single ['z']]).extract
      ⟨[], ["u//".toList, "v//".toList]⟩).entries) =
      [(['x'], .single "u/".toList), (['y'], .multi [['v'], []])] := rfl

end Extractor
end Topical
