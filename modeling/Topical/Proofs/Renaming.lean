import Topical.Proofs.Faults
import Topical.Proofs.Unnamed
/-!
# Names as labels

Nothing depends on what the names of wildcards are, only on which of them are equal and which are empty.  If the names
are changed by a function that keeps apart what is different, and keeps the empty name, then what is extracted and what
is looked up under them changes in the names only: inserting and looking up commute with the change
(`Entry.replace_rename`, `Params.get?_rename`), hence extracting (`Extractor.extract_rename`) and filling a segment
(`Pattern.fill_rename`) do, and so do matching and formatting (`Pattern.names_are_labels`).
-/
namespace Topical

/-! ## What has names -/

namespace Segment

def rename (r : Text → Text) : Segment → Segment
  | literal text => literal text
  | single name => single (r name)
  | multi name => multi (r name)

/-- The name of a wildcard, which may be empty. -/
def wildcardName? : Segment → Option Text
  | literal _ => none
  | single name | multi name => some name

theorem isWildcard_rename (r : Text → Text) (s : Segment) : (s.rename r).isWildcard = s.isWildcard := by
  cases s <;> rfl

end Segment

/-- Segments that are equal but for the names are told by the names of their wildcards. -/
theorem eq_map_rename {r : Text → Text} {segments segments' : List Segment}
    (hkinds : segments'.map Segment.unnamed = segments.map Segment.unnamed)
    (hnames : segments'.filterMap Segment.wildcardName? = (segments.filterMap Segment.wildcardName?).map r) :
    segments' = segments.map (Segment.rename r) := by
  induction segments generalizing segments' with
  | nil => exact List.map_eq_nil_iff.1 hkinds
  | cons s rest ih =>
    obtain ⟨s', rest', rfl, hs, hrest⟩ := List.map_eq_cons_iff.1 hkinds
    cases s with
    | literal text =>
      cases s' with
      | literal text' =>
        obtain rfl : text' = text := by simpa [Segment.unnamed] using hs
        rw [ih hrest hnames]
        rfl
      | single name' | multi name' => cases hs
    | single name =>
      cases s' with
      | single name' =>
        obtain ⟨rfl, hafter⟩ := List.cons.inj hnames
        rw [ih hrest hafter]
        rfl
      | literal text' | multi name' => cases hs
    | multi name =>
      cases s' with
      | multi name' =>
        obtain ⟨rfl, hafter⟩ := List.cons.inj hnames
        rw [ih hrest hafter]
        rfl
      | literal text' | single name' => cases hs

def FormatError.rename (r : Text → Text) : FormatError → FormatError
  | missingParameter name => missingParameter (r name)
  | kindMismatch name expected => kindMismatch (r name) expected
  | unnamedWildcard position => unnamedWildcard position
  | invalidValue name value => invalidValue (r name) value

def Entry.rename (r : Text → Text) (e : Entry) : Entry := (r e.1, e.2)

section

variable {r : Text → Text} (hr : Function.Injective r)
include hr

theorem Entry.rename_injective : Function.Injective (Entry.rename r) := by
  rintro ⟨n, v⟩ ⟨n', v'⟩ h
  obtain ⟨hn, hv⟩ := Prod.mk.inj h
  exact Prod.ext (hr hn) hv

theorem Entry.replace_rename (name : Text) (value : Value) (es : List Entry) :
    replace (r name) value (es.map (rename r)) =
      ((replace name value es).1, (replace name value es).2.map (rename r)) := by
  induction es with
  | nil => rfl
  | cons e es ih =>
    obtain ⟨n, v⟩ := e
    by_cases h : n = name
    · subst h
      simp [replace, rename]
    · have hne : r n ≠ r name := fun he => h (hr he)
      rw [List.map_cons, rename, replace, replace, if_neg h, if_neg hne, ih]
      rfl

end

namespace Params

/-- The parameters with every name changed. -/
def rename (r : Text → Text) (hr : Function.Injective r) (m : Params) : Params where
  entries := m.entries.map (Entry.rename r)
  nodup := by
    have hnames : (m.entries.map (Entry.rename r)).map Prod.fst = (m.entries.map Prod.fst).map r := by
      rw [List.map_map, List.map_map]
      rfl
    rw [hnames]
    exact m.nodup.map hr

variable {r : Text → Text} (hr : Function.Injective r)

theorem get?_rename (m : Params) (n : Text) : (m.rename r hr).get? (r n) = m.get? n := by
  ext v
  rw [get?_eq_some_iff, get?_eq_some_iff]
  exact List.mem_map_of_injective (Entry.rename_injective hr) (a := (n, v))

theorem insert_rename (m : Params) (name : Text) (value : Value) :
    (m.rename r hr).insert (r name) value = (m.insert name value).rename r hr := by
  have hreplace := Entry.replace_rename hr name value m.entries
  simp only [insert, getThenInsert, rename, hreplace]

/-- **Entries with other names come to the parameters with other names.** -/
theorem ofList_rename (es : List Entry) : ofList (es.map (Entry.rename r)) = (ofList es).rename r hr := by
  have hfold : ∀ m : Params, (m.rename r hr).insertMany (es.map (Entry.rename r)) = (m.insertMany es).rename r hr := by
    induction es with
    | nil => exact fun _ => rfl
    | cons e es ih =>
      intro m
      have hstep : (m.rename r hr).insert (r e.1) e.2 = (m.insert e.1 e.2).rename r hr := insert_rename hr m e.1 e.2
      rw [List.map_cons]
      show ((m.rename r hr).insert (r e.1) e.2).insertMany (es.map (Entry.rename r)) = _
      rw [hstep, ih]
      rfl
  exact hfold empty

end Params

/-! ## Matching -/

section

variable {r : Text → Text} (hr : Function.Injective r) (hnil : r [] = [])
include hr hnil

/-- Only the empty name becomes empty. -/
theorem rename_eq_nil_iff {n : Text} : r n = [] ↔ n = [] := by
  constructor
  · intro h
    exact hr (h.trans hnil.symm)
  · rintro rfl
    exact hnil

theorem isEmpty_rename (n : Text) : (r n).isEmpty = n.isEmpty := by
  rw [Bool.eq_iff_iff, List.isEmpty_iff, List.isEmpty_iff, rename_eq_nil_iff hr hnil]

theorem Extractor.entry?_rename (s : Segment) (c : Text) :
    entry? (s.rename r) c = (Extractor.entry? s c).map (Entry.rename r) := by
  cases s with
  | literal text => rfl
  | single name | multi name =>
    simp only [Extractor.entry?, Segment.rename, Segment.paramName?, isEmpty_rename hr hnil]
    cases name.isEmpty <;> rfl

/-- **The same captures are extracted under other names.** -/
theorem Extractor.extract_rename (segments : List Segment) (y : Match) :
    (ofSegments (segments.map (Segment.rename r))).extract y = ((ofSegments segments).extract y).rename r hr := by
  have hwild : Segment.isWildcard ∘ Segment.rename r = Segment.isWildcard := funext (Segment.isWildcard_rename r)
  have hentry : ∀ q : Segment × Text, entry? (q.1.rename r) q.2 = (Extractor.entry? q.1 q.2).map (Entry.rename r) :=
    fun q => entry?_rename hr hnil q.1 q.2
  unfold extract ofSegments
  rw [← Params.ofList_rename, List.filter_map, hwild, List.zip_map_left, List.filterMap_map, List.map_filterMap]
  simp only [Function.comp_def, Prod.map, id, hentry]

end

/-! ## Formatting -/

theorem mapError_bind {ε ε' α β : Type} (g : ε → ε') (x : Except ε α) (f : α → Except ε β) :
    (x >>= f).mapError g = x.mapError g >>= fun a => (f a).mapError g := by
  cases x <;> rfl

namespace Pattern

section

variable {r : Text → Text} (hr : Function.Injective r) (hnil : r [] = []) (m : Params)
include hnil

theorem lookup_rename (name : Text) (position : Nat) :
    lookup (m.rename r hr) (r name) position = (lookup m name position).mapError (FormatError.rename r) := by
  unfold lookup
  rw [isEmpty_rename hr hnil, Params.get?_rename]
  cases name.isEmpty with
  | true => rfl
  | false => cases m.get? name <;> rfl

theorem fill_wildcard_rename (kind : Kind) (name : Text) (position : Nat) :
    fill (m.rename r hr) (.wildcard kind (r name)) position =
      (fill m (.wildcard kind name) position).mapError (FormatError.rename r) := by
  rw [fill_wildcard, fill_wildcard, lookup_rename hr hnil, mapError_bind]
  congr 1
  funext value
  by_cases hkind : value.kind = kind
  · rw [if_pos hkind, if_pos hkind]
    cases value.levels.find? (!isLevelValue ·) <;> rfl
  · rw [if_neg hkind, if_neg hkind]
    rfl

theorem fill_rename (s : Segment) (position : Nat) :
    fill (m.rename r hr) (s.rename r) position = (fill m s position).mapError (FormatError.rename r) := by
  cases s with
  | literal text => rfl
  | single name => exact fill_wildcard_rename hr hnil m .single name position
  | multi name => exact fill_wildcard_rename hr hnil m .multi name position

theorem fillFrom_rename (segments : List Segment) (k : Nat) :
    fillFrom (m.rename r hr) k (segments.map (Segment.rename r)) =
      (fillFrom m k segments).mapError (FormatError.rename r) := by
  induction segments generalizing k with
  | nil => rfl
  | cons s rest ih =>
    rw [List.map_cons, fillFrom_cons, fillFrom_cons, fill_rename hr hnil, ih, mapError_bind]
    congr 1
    funext ls
    rw [mapError_bind]
    rfl

end

/-- **The names of wildcards are labels**: a pattern that differs from another in the names of its wildcards only, by a
function that keeps different names apart and the empty one empty, extracts the same under the other names and in the
same order, and formats parameters under the other names to the same topic or fails for the same reason. -/
theorem names_are_labels [Engine] {p q : Pattern} {r : Text → Text} (hr : Function.Injective r) (hnil : r [] = [])
    (hfilter : q.filter = p.filter)
    (hnames : q.segments.filterMap Segment.wildcardName? = (p.segments.filterMap Segment.wildcardName?).map r) :
    (∀ t, q.matchTopic t = (p.matchTopic t).map (Params.rename r hr)) ∧
    ∀ m : Params, q.format (m.rename r hr) = (p.format m).mapError (FormatError.rename r) := by
  have hsegments : q.segments = p.segments.map (Segment.rename r) :=
    eq_map_rename ((filter_eq_iff q p).1 hfilter) hnames
  constructor
  · intro t
    have hextract : q.extractor.extract = Params.rename r hr ∘ p.extractor.extract := by
      funext y
      rw [extractor, hsegments]
      exact Extractor.extract_rename hr hnil p.segments y
    unfold matchTopic
    rw [exec_eq_of_filter_eq hfilter, hextract, Option.map_map]
  · intro m
    have hfill := fillFrom_rename hr hnil m p.segments 0
    show (fillFrom (m.rename r hr) 0 q.segments >>= fun lss => pure (joinLevels lss.flatten)) =
      (fillFrom m 0 p.segments >>= fun lss => pure (joinLevels lss.flatten)).mapError (FormatError.rename r)
    rw [hsegments, hfill, mapError_bind]
    rfl

/-- Names written backwards, one of them repeated and one empty. -/
theorem names_are_labels_backwards :
    ∃ p q, compile "+ab/+/+ab/#cd".toList = .ok p ∧ compile "+ba/+/+ba/#dc".toList = .ok q ∧
      Function.Injective (List.reverse : Text → Text) ∧ ([] : Text).reverse = [] ∧ q.filter = p.filter ∧
      q.segments.filterMap Segment.wildcardName? =
        (p.segments.filterMap Segment.wildcardName?).map List.reverse ∧
      p.matchTopic "u/v/w/x/y/".toList =
        some (.ofList [(['a', 'b'], .single ['u']), (['a', 'b'], .single ['w']), (['c', 'd'], .multi [['x'], ['y']])]) ∧
      q.matchTopic "u/v/w/x/y/".toList =
        some (.ofList [(['b', 'a'], .single ['u']), (['b', 'a'], .single ['w']), (['d', 'c'], .multi [['x'], ['y']])]) ∧
      p.format (.ofList [(['c', 'd'], .multi [])]) = .error (.missingParameter ['a', 'b']) ∧
      q.format (.ofList [(['d', 'c'], .multi [])]) = .error (.missingParameter ['b', 'a']) := by
  let p : Pattern := ⟨"+ab/+/+ab/#cd".toList,
    [.single ['a', 'b'], .single [], .single ['a', 'b'], .multi ['c', 'd']], ⟨_, _, _⟩, rfl, rfl⟩
  let q : Pattern := ⟨"+ba/+/+ba/#dc".toList,
    [.single ['b', 'a'], .single [], .single ['b', 'a'], .multi ['d', 'c']], ⟨_, _, _⟩, rfl, rfl⟩
  have hr : Function.Injective (List.reverse : Text → Text) := List.reverse_injective
  have hfollows : Follows p.segments [['u'], ['v'], ['w'], ['x'], ['y']] :=
    .cons (show isLevelValue ['u'] from rfl) (.cons (show isLevelValue ['v'] from rfl)
      (.cons (show isLevelValue ['w'] from rfl) (.multi (by decide))))
  have hmatch := p.matchTopic_of_follows hfollows (t := "u/v/w/x/y/".toList) (.inr ⟨by simp, rfl⟩)
  have hformat : p.format (.ofList [(['c', 'd'], .multi [])]) = .error (.missingParameter ['a', 'b']) := rfl
  have hfilter : q.filter = p.filter := (filter_eq_iff q p).2 rfl
  obtain ⟨hq, hqformat⟩ := @names_are_labels _ p q List.reverse hr rfl hfilter rfl
  have hqmatch := hq "u/v/w/x/y/".toList
  rw [hmatch, Option.map_some, ← Params.ofList_rename] at hqmatch
  have hqerror := hqformat (.ofList [(['c', 'd'], .multi [])])
  rw [hformat, ← Params.ofList_rename] at hqerror
  exact ⟨p, q, rfl, rfl, hr, rfl, hfilter, rfl, hmatch, hqmatch, hformat, hqerror⟩

end Pattern
end Topical
