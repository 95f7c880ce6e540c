import Topical.Proofs.Extraction
/-!
# A slash at the end of a topic

A topic that is matched is matched with one more slash at its end too, and the same is extracted, wherever the pattern
has the place for this slash: after a last literal or level, or after the levels of a final multi-level wildcard
(`Spells.append_slash`, `Trails.append_slash`).  There is no such place if no level has been read at all, that is in the
empty topic of a pattern which is a multi-level wildcard alone (`Pattern.matchTopic_append_slash`).
-/
namespace Topical

theorem Spells.append_slash {ls : List Text} {t : Text} (h : Spells ls t) (hne : ls ≠ []) (ht : t.getLast? ≠ some '/') :
    Spells ls (t ++ ['/']) := by
  rcases h with rfl | ⟨-, rfl⟩
  · exact .inr ⟨hne, rfl⟩
  · exact absurd List.getLast?_concat ht

theorem Trails.append_slash {vs : List Text} {r : Text} (h : Trails vs r) (hr : r.getLast? ≠ some '/') :
    Trails vs (r ++ ['/']) := by
  cases h with
  | nothing => exact .slash
  | slash => exact absurd rfl hr
  | joined hne hvs hu => exact .joined hne hvs (hu.append_slash hne hr)
  | @apart _ u hne hvs hu =>
    have hlast : u.getLast? ≠ some '/' := fun hlast => hr (by rw [List.getLast?_cons, hlast]; rfl)
    exact .apart hne hvs (hu.append_slash hne hlast)

/-- Only a multi-level wildcard that stands alone asks for no level at all. -/
theorem Follows.eq_multi_of_nil {segments : List Segment} (h : Follows segments []) (hne : segments ≠ []) :
    ∃ name, segments = [.multi name] := by
  cases h with
  | nil => exact absurd rfl hne
  | @multi name _ _ => exact ⟨name, rfl⟩

namespace Pattern

section

variable [Engine] {p : Pattern} {t : Text} {m : Params}

/-- A multi-level wildcard that stands alone does not match a slash that stands alone. -/
theorem matchTopic_slash_of_multi {name : Text} (h : p.segments = [.multi name]) : p.matchTopic ['/'] = none := by
  rw [← Option.not_isSome_iff_eq_none, p.isSome_matchTopic, p.isMatch_iff, h]
  rintro (⟨vs, hvs, hspell⟩ | hglued)
  · cases hvs with
    | cons hl _ => exact hl.elim
    | multi hvs => exact not_spells_slash hvs hspell
  · obtain ⟨before, text, n, he⟩ := hglued.endsInLiteralMulti
    have hlength := congrArg List.length he
    simp at hlength

/-- **A slash at the end makes no difference**: a topic that does not end in a slash gives the same parameters with one.
The one exception is the empty topic of a pattern that is a multi-level wildcard alone, which is matched only without
the slash. -/
theorem matchTopic_append_slash (h : p.matchTopic t = some m) (ht : t.getLast? ≠ some '/') :
    (¬ (t = [] ∧ ∃ name, p.segments = [.multi name]) → p.matchTopic (t ++ ['/']) = some m) ∧
    (t = [] → (∃ name, p.segments = [.multi name]) → p.matchTopic (t ++ ['/']) = none) := by
  constructor
  · intro hlevels
    rcases follows_or_trails_of_matchTopic h with
      ⟨ls, hls, hspell, rfl⟩ | ⟨before, text, name, ls, vs, r, hsegments, hls, hr, rfl, rfl⟩
    · have hne : ls ≠ [] := by
        rintro rfl
        exact hlevels ⟨spells_nil.1 hspell, hls.eq_multi_of_nil p.isLayout.ne_nil⟩
      exact p.matchTopic_of_follows hls (hspell.append_slash hne ht)
    · have hlast : r.getLast? ≠ some '/' := fun hlast =>
        ht (by rw [List.getLast?_append, List.getLast?_append, hlast]; rfl)
      rw [List.append_assoc, List.append_assoc]
      exact matchTopic_of_trails hsegments hls (hr.append_slash hlast)
  · rintro rfl ⟨name, hsegments⟩
    exact matchTopic_slash_of_multi hsegments

end

/-- A topic that lacks the slash before the levels of the multi-level wildcard takes one at its end. -/
theorem matchTopic_append_slash_without_slash :
    ∃ p m, compile "+x/a/#y".toList = .ok p ∧ p.matchTopic "v/ab/c".toList = some m ∧
      "v/ab/c".toList.getLast? ≠ some '/' ∧ p.matchTopic "v/ab/c/".toList = some m := by
  let p : Pattern := ⟨"+x/a/#y".toList, [.single ['x']] ++ [.literal ['a'], .multi ['y']], ⟨_, _, _⟩, rfl, rfl⟩
  have hls : List.Forall₂ Segment.TakesLevel [.single ['x']] [['v']] := .cons (show isLevelValue ['v'] from rfl) .nil
  have hr : Trails [['b'], ['c']] "b/c".toList := .joined (by simp) (by decide) (.inl rfl)
  have hsegments : p.segments = [.single ['x']] ++ [.literal ['a'], .multi ['y']] := rfl
  have hmatch := matchTopic_of_trails hsegments hls hr
  have hlast : "v/ab/c".toList.getLast? ≠ some '/' := by decide
  exact ⟨p, _, rfl, hmatch, hlast, (matchTopic_append_slash hmatch hlast).1 fun ⟨hnil, _⟩ => by cases hnil⟩

/-- The empty topic is matched, and a slash alone is not. -/
theorem matchTopic_append_slash_ne :
    ∃ p m, compile "#x".toList = .ok p ∧ p.matchTopic [] = some m ∧ ([] : Text).getLast? ≠ some '/' ∧
      p.matchTopic ([] ++ ['/']) = none := by
  let p : Pattern := ⟨"#x".toList, [.multi ['x']], ⟨_, _, _⟩, rfl, rfl⟩
  have hfollows : Follows p.segments [] := .multi (by simp)
  exact ⟨p, _, rfl, p.matchTopic_of_follows hfollows (spells_nil.2 rfl), by simp, matchTopic_slash_of_multi rfl⟩

end Pattern
end Topical
