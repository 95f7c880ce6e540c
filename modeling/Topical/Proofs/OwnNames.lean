import Topical.Proofs.Faults
import Topical.Proofs.Reformatting
/-!
# A pattern's own names

Formatting asks for values under the names of the pattern and for nothing else.  What a segment is filled with depends
on the value under its own name (`Pattern.fill_congr`), so parameters that agree on the names of the pattern give the
same topic or the same error (`Pattern.format_congr`); neither the order of the entries nor entries under other names
are seen.  On each of its own names a topic does depend (`Pattern.get?_eq_of_format`).
-/
namespace Topical
namespace Pattern

variable {a b : Params}

/-! ## Agreement is enough -/

/-- Without a name no value is looked up. -/
theorem lookup_congr {name : Text} (h : name ≠ [] → a.get? name = b.get? name) (position : Nat) :
    lookup a name position = lookup b name position := by
  unfold lookup
  by_cases hname : name.isEmpty = true
  · rw [if_pos hname, if_pos hname]
  · have hne : name ≠ [] := fun hnil => hname (List.isEmpty_iff.2 hnil)
    rw [if_neg hname, if_neg hname, h hne]

theorem fill_wildcard_congr (kind : Kind) {name : Text} (h : name ≠ [] → a.get? name = b.get? name) (position : Nat) :
    fill a (.wildcard kind name) position = fill b (.wildcard kind name) position := by
  rw [fill_wildcard, fill_wildcard, lookup_congr h]

/-- **A segment is filled by the value under its name.** -/
theorem fill_congr {s : Segment} (h : ∀ n, s.paramName? = some n → a.get? n = b.get? n) (position : Nat) :
    fill a s position = fill b s position := by
  cases s with
  | literal text => rfl
  | single name =>
    exact fill_wildcard_congr .single (fun hne => h name (Segment.paramName?_eq_some_iff.2 ⟨hne, .inl rfl⟩)) position
  | multi name =>
    exact fill_wildcard_congr .multi (fun hne => h name (Segment.paramName?_eq_some_iff.2 ⟨hne, .inr rfl⟩)) position

theorem fillFrom_congr : ∀ {segments : List Segment},
    (∀ n ∈ segments.filterMap Segment.paramName?, a.get? n = b.get? n) → ∀ k,
      fillFrom a k segments = fillFrom b k segments
  | [], _, _ => rfl
  | s :: rest, h, k => by
    have hfirst : ∀ n, s.paramName? = some n → a.get? n = b.get? n := fun n hn =>
      h n (List.mem_filterMap.2 ⟨s, List.mem_cons_self, hn⟩)
    have hrest : ∀ n ∈ rest.filterMap Segment.paramName?, a.get? n = b.get? n := fun n hn => by
      obtain ⟨s', hs', hn⟩ := List.mem_filterMap.1 hn
      exact h n (List.mem_filterMap.2 ⟨s', List.mem_cons_of_mem _ hs', hn⟩)
    rw [fillFrom_cons, fillFrom_cons, fill_congr hfirst, fillFrom_congr hrest]

section

variable [Engine] {p : Pattern}

/-- **Parameters that agree on the names of the pattern format alike.** -/
theorem format_congr (h : ∀ n ∈ p.paramNames, a.get? n = b.get? n) : p.format a = p.format b := by
  rw [format_eq, format_eq, fillFrom_congr h]

/-! ## Agreement is needed -/

/-- **Parameters that format to one topic agree on the names of the pattern**, since the topic gives the values back. -/
theorem get?_eq_of_format {t : Text} (ha : p.format a = .ok t) (hb : p.format b = .ok t) :
    ∀ n ∈ p.paramNames, a.get? n = b.get? n := by
  have hback : ∀ {m : Params}, p.format m = .ok t →
      ∃ x, p.matchTopic t = some x ∧ ∀ n ∈ p.paramNames, x.get? n = m.get? n := by
    intro m h
    obtain ⟨es, hmatch, hnames, hvalues⟩ := exists_ofList_of_format h
    refine ⟨_, hmatch, fun n hn => ?_⟩
    cases hv : (Params.ofList es).get? n with
    | some v => exact (hvalues _ (Params.mem_of_get?_ofList hv)).symm
    | none => exact absurd (hnames ▸ hn) (Params.get?_ofList_eq_none_iff.1 hv)
  obtain ⟨x, hx, hxa⟩ := hback ha
  obtain ⟨y, hy, hyb⟩ := hback hb
  obtain rfl := Option.some.inj (hx.symm.trans hy)
  intro n hn
  rw [← hxa n hn, hyb n hn]

/-- **Formatting depends on the values under the pattern's own names, and on these only.**  Parameters that agree there
give the same topic or the same error; in particular equal parameters do, in whatever order they were built, and entries
under other names do not matter.  Parameters that give the same topic agree there. -/
theorem format_reads_own_names (p : Pattern) :
    (∀ a b : Params, (∀ n ∈ p.paramNames, a.get? n = b.get? n) → p.format a = p.format b) ∧
    (∀ a b : Params, (a == b) = true → p.format a = p.format b) ∧
    (∀ es es' : List Entry, es.Perm es' → (es.map Prod.fst).Nodup → p.format (.ofList es) = p.format (.ofList es')) ∧
    (∀ (m : Params) (es : List Entry), (∀ e ∈ es, e.1 ∉ p.paramNames) → p.format (m.insertMany es) = p.format m) ∧
    ∀ a b t, p.format a = .ok t → p.format b = .ok t → ∀ n ∈ p.paramNames, a.get? n = b.get? n := by
  have hequal : ∀ a b : Params, (a == b) = true → p.format a = p.format b := fun a b h =>
    format_congr fun n _ => Params.beq_iff_get?_eq.1 h n
  refine ⟨fun a b => format_congr, hequal, fun es es' hperm hnodup => ?_, fun m es hes => ?_, fun a b t => ?_⟩
  · exact hequal _ _ (Params.beq_ofList_of_perm hperm hnodup)
  · refine format_congr fun n hn => m.get?_insertMany_of_notMem fun hmem => ?_
    obtain ⟨e, he, rfl⟩ := List.mem_map.1 hmem
    exact hes e he hn
  · exact get?_eq_of_format

end

/-- Entries in two orders, an entry under another name, and a name without a value. -/
theorem format_reads_own_names_foreign_entry :
    ∃ (p : Pattern) (es es' foreign : List Entry), compile "+x/b/#y".toList = .ok p ∧
      es.Perm es' ∧ (es.map Prod.fst).Nodup ∧ (Params.ofList es == Params.ofList es') = true ∧
      (∀ e ∈ foreign, e.1 ∉ p.paramNames) ∧
      (∀ n ∈ p.paramNames, (Params.ofList es).get? n = (Params.ofList (foreign ++ es')).get? n) ∧
      p.format (.ofList es) = p.format (.ofList es') ∧
      p.format (.ofList es) = .ok "v/b".toList ∧ p.format (.ofList es') = .ok "v/b".toList ∧
      p.format ((Params.ofList es).insertMany foreign) = .ok "v/b".toList ∧
      p.format (.ofList (foreign ++ es')) = .ok "v/b".toList ∧
      p.format (Params.empty.insertMany foreign) = .error (.missingParameter ['x']) := by
  let p : Pattern := ⟨"+x/b/#y".toList, [.single ['x'], .literal ['b'], .multi ['y']], ⟨_, _, _⟩, rfl, rfl⟩
  let es : List Entry := [(['x'], .single ['v']), (['y'], .multi [])]
  let es' : List Entry := [(['y'], .multi []), (['x'], .single ['v'])]
  let foreign : List Entry := [(['z'], .single "v w".toList)]
  obtain ⟨hagree, hequal, hperm, hforeign, hneeded⟩ := format_reads_own_names p
  have hformat : p.format (.ofList es) = .ok "v/b".toList := rfl
  have hswap : es.Perm es' := .swap _ _ _
  have hnodup : (es.map Prod.fst).Nodup := by decide
  have hbeq : (Params.ofList es == Params.ofList es') = true := rfl
  have hother : ∀ e ∈ foreign, e.1 ∉ p.paramNames := by decide
  have hnames : ∀ n ∈ p.paramNames, (Params.ofList es).get? n = (Params.ofList (foreign ++ es')).get? n := by decide
  have hboth : p.format (.ofList (foreign ++ es')) = .ok "v/b".toList := (hagree _ _ hnames).symm.trans hformat
  refine ⟨p, es, es', foreign, rfl, hswap, hnodup, hbeq, hother, hneeded _ _ _ hformat hboth, hequal _ _ hbeq, hformat,
    ?_, ?_, hboth, ?_⟩
  · exact (hperm _ _ hswap hnodup).symm.trans hformat
  · exact (hforeign _ _ hother).trans hformat
  · exact (hforeign _ _ hother).trans rfl

end Pattern
end Topical
