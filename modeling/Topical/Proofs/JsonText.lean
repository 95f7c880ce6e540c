import Topical.Params.Json
import Topical.Proofs.Editing
/-!
# Reading JSON back

The JSON text of parameters holds all of them.  A quoted text is read back whatever characters it holds
(`Json.decode_encode`), so the text of an object is cut into the tokens that it was put together from
(`Params.hasTokens_toJson`), and these give the entries again (`entriesOfTokens?_objectTokens`).  Hence parameters with
one JSON text are the same, order included (`Params.toJson_keeps_entries`).
-/
namespace Topical
namespace Json

/-! ## Quoted texts -/

theorem hexValue_digitChar : ∀ n < 16, hexValue (Nat.digitChar n) = some n := by decide

/-- The number of a control character is read back from its two digits. -/
theorem ofHex_digitChar {c : Char} (h : c.toNat < 0x20) :
    ofHex '0' '0' (Nat.digitChar (c.toNat / 16)) (Nat.digitChar (c.toNat % 16)) = some c := by
  have hhigh := hexValue_digitChar (c.toNat / 16) (by omega)
  have hlow := hexValue_digitChar (c.toNat % 16) (Nat.mod_lt _ (by decide))
  have hzero : hexValue '0' = some 0 := rfl
  have hnumber : ((0 * 16 + 0) * 16 + c.toNat / 16) * 16 + c.toNat % 16 = c.toNat := by omega
  have hvalid : c.toNat.isValidChar := c.valid
  unfold ofHex
  rw [hzero, hhigh, hlow]
  simp only [hnumber]
  rw [if_pos hvalid, Char.ofNat_toNat]

/-- A letter after a backslash stands for the character that it was written for. -/
theorem ofLetter_of_letterOf {c l : Char} (h : letterOf c = some l) : ofLetter l = some c ∧ l ≠ 'u' := by
  rw [← Char.ofNat_toNat c]
  unfold letterOf at h
  split at h
  case h_6 => cases h
  all_goals
    rename_i hn
    obtain rfl := Option.some.inj h
    rw [hn]
    exact ⟨rfl, by decide⟩

theorem decodeRest_backslash {l : Char} (h : l ≠ 'u') (t : Text) :
    decodeRest ('\\' :: l :: t) = (ofLetter l).bind fun x => (decodeRest t).map (consRead x) := by
  rw [decodeRest]
  rintro _ _ _ _ _ rfl
  exact absurd rfl h

theorem decodeRest_cons {c : Char} (hquote : c ≠ '"') (hslash : c ≠ '\\') (hcontrol : ¬ c.toNat < 0x20) (t : Text) :
    decodeRest (c :: t) = (decodeRest t).map (consRead c) := by
  rw [decodeRest]
  · rw [if_neg]
    exact fun h => h.elim hslash hcontrol
  · exact hquote
  · rintro _ _ _ _ _ rfl
    exact absurd rfl hslash
  · rintro _ _ rfl
    exact absurd rfl hslash

/-- **Every character is read back from its written form.** -/
theorem decodeRest_encodeChar (c : Char) (t : Text) :
    decodeRest (encodeChar c ++ t) = (decodeRest t).map (consRead c) := by
  unfold encodeChar
  -- one case for each form: after a backslash by itself, by a letter, by number, and as it is
  by_cases hself : c = '"' ∨ c = '\\'
  · rw [if_pos hself]
    rcases hself with rfl | rfl
    · exact decodeRest_backslash (by decide) t
    · exact decodeRest_backslash (by decide) t
  · rw [if_neg hself]
    obtain ⟨hquote, hslash⟩ := not_or.1 hself
    cases hl : letterOf c with
    | some l =>
      obtain ⟨hletter, hu⟩ := ofLetter_of_letterOf hl
      show decodeRest ('\\' :: l :: t) = _
      rw [decodeRest_backslash hu, hletter, Option.bind_some]
    | none =>
      by_cases hcontrol : c.toNat < 0x20
      · simp only [if_pos hcontrol]
        show decodeRest ('\\' :: 'u' :: '0' :: '0' :: _ :: _ :: t) = _
        rw [decodeRest, ofHex_digitChar hcontrol, Option.bind_some]
      · simp only [if_neg hcontrol]
        exact decodeRest_cons hquote hslash hcontrol t

theorem decodeRest_flatMap (rest : Text) : ∀ t : Text,
    decodeRest (t.flatMap encodeChar ++ '"' :: rest) = some (t, rest)
  | [] => rfl
  | c :: t => by
    rw [List.flatMap_cons, List.append_assoc, decodeRest_encodeChar, decodeRest_flatMap rest t]
    rfl

/-- **A quoted text is read back**, and what follows it is left. -/
theorem decode_encode (t rest : Text) : decode (encode t ++ rest) = some (t, rest) := by
  rw [encode, List.cons_append, List.append_assoc]
  exact decodeRest_flatMap rest t

/-! ## Tokens -/

/-- Whatever stands behind the text, it is cut into the tokens first. -/
def HasTokens (t : Text) (ts : List Token) : Prop := ∀ rest, tokens? (t ++ rest) = (tokens? rest).map (ts ++ ·)

variable {t t' : Text} {ts ts' : List Token}

theorem HasTokens.tokens?_eq (h : HasTokens t ts) : tokens? t = some ts := by
  have hnil : tokens? [] = some [] := by rw [tokens?]
  have := h []
  rwa [List.append_nil, hnil, Option.map_some, List.append_nil] at this

theorem hasTokens_nil : HasTokens [] [] := fun _ => Option.map_id'.symm

theorem HasTokens.append (h : HasTokens t ts) (h' : HasTokens t' ts') : HasTokens (t ++ t') (ts ++ ts') := by
  intro rest
  rw [List.append_assoc, h, h', Option.map_map]
  simp only [Function.comp_def, List.append_assoc]

theorem hasTokens_symbol {c : Char} (h : c ∈ symbols) : HasTokens [c] [.symbol c] := by
  intro rest
  rw [List.singleton_append, tokens?, if_pos h]
  rfl

theorem HasTokens.cons {c : Char} (hc : c ∈ symbols) (h : HasTokens t ts) : HasTokens (c :: t) (.symbol c :: ts) :=
  (hasTokens_symbol hc).append h

theorem hasTokens_encode (s : Text) : HasTokens (encode s) [.text s] := by
  intro rest
  have hdecode : decode ('"' :: (s.flatMap encodeChar ++ ['"'] ++ rest)) = some (s, rest) := decode_encode s rest
  rw [encode, List.cons_append, tokens?, if_neg (by decide)]
  split
  · rename_i hnone
    rw [hdecode] at hnone
    cases hnone
  · rename_i s' after hsome
    obtain ⟨rfl, rfl⟩ := Prod.mk.inj (Option.some.inj (hdecode.symm.trans hsome))
    rfl

/-! ## Lists with commas -/

theorem commaSeparated_cons (t : Text) : ∀ ts : List Text, commaSeparated (t :: ts) = t ++ ts.flatMap (',' :: ·)
  | [] => by rw [List.flatMap_nil, List.append_nil, commaSeparated, List.intercalate_singleton]
  | t' :: ts => by
    have ih := commaSeparated_cons t' ts
    rw [commaSeparated] at ih ⊢
    rw [List.intercalate_cons_of_ne_nil (List.cons_ne_nil _ _), ih, List.flatMap_cons, List.append_assoc]
    rfl

/-- Items with a comma between neighbours. -/
def separated : List (List Token) → List Token
  | [] => []
  | ts :: items => ts ++ items.flatMap (.symbol ',' :: ·)

theorem hasTokens_flatMap_comma {α : Type} {f : α → Text} {g : α → List Token} (h : ∀ a, HasTokens (f a) (g a)) :
    ∀ as : List α, HasTokens ((as.map f).flatMap (',' :: ·)) ((as.map g).flatMap (.symbol ',' :: ·))
  | [] => hasTokens_nil
  | a :: as => ((h a).cons (by decide)).append (hasTokens_flatMap_comma h as)

theorem hasTokens_commaSeparated {α : Type} {f : α → Text} {g : α → List Token} (h : ∀ a, HasTokens (f a) (g a)) :
    ∀ as : List α, HasTokens (commaSeparated (as.map f)) (separated (as.map g))
  | [] => hasTokens_nil
  | a :: as => by
    rw [List.map_cons, commaSeparated_cons]
    exact (h a).append (hasTokens_flatMap_comma h as)

end Json

open Json

/-! ## Objects -/

def Value.tokens : Value → List Token
  | .single level => [.text level]
  | .multi levels => .symbol '[' :: (separated (levels.map fun level => [.text level]) ++ [.symbol ']'])

def Entry.tokens (e : Entry) : List Token := .text e.1 :: .symbol ':' :: e.2.tokens

def objectTokens (es : List Entry) : List Token :=
  .symbol '{' :: (separated (es.map Entry.tokens) ++ [.symbol '}'])

theorem Value.hasTokens_toJson : ∀ v : Value, HasTokens v.toJson v.tokens
  | .single level => hasTokens_encode level
  | .multi levels =>
    ((hasTokens_commaSeparated hasTokens_encode levels).append (hasTokens_symbol (by decide))).cons (by decide)

theorem Entry.hasTokens_toJson (e : Entry) : HasTokens e.toJson e.tokens :=
  (hasTokens_encode e.1).append (e.2.hasTokens_toJson.cons (by decide))

theorem Params.hasTokens_toJson (m : Params) : HasTokens m.toJson (objectTokens m.entries) :=
  ((hasTokens_commaSeparated Entry.hasTokens_toJson m.entries).append (hasTokens_symbol (by decide))).cons (by decide)

/-! ## Reading -/

theorem readLevels_flatMap_comma (done : List Entry) (name : Text) (rest : List Token) : ∀ (ls levels : List Text),
    readLevels done name levels ((ls.map fun l => [.text l]).flatMap (.symbol ',' :: ·) ++ .symbol ']' :: rest) =
      readEntries ((name, .multi (levels.reverse ++ ls)) :: done) rest
  | [], levels => by
    rw [List.append_nil]
    rfl
  | l :: ls, levels => by
    have ih := readLevels_flatMap_comma done name rest ls (l :: levels)
    rw [List.reverse_cons, List.append_assoc, List.singleton_append] at ih
    exact ih

/-- **A member is read with its comma.** -/
theorem readEntries_comma (done : List Entry) (e : Entry) (rest : List Token) :
    readEntries done (.symbol ',' :: (e.tokens ++ rest)) = readEntries (e :: done) rest := by
  obtain ⟨name, v⟩ := e
  cases v with
  | single level => rfl
  | multi levels =>
    cases levels with
    | nil => rfl
    | cons l ls =>
      -- the first level tells the array from an empty one, the others are read one by one
      have htokens : Entry.tokens (name, .multi (l :: ls)) ++ rest =
          .text name :: .symbol ':' :: .symbol '[' :: .text l ::
            ((ls.map fun l => [.text l]).flatMap (.symbol ',' :: ·) ++ .symbol ']' :: rest) := by
        simp [Entry.tokens, Value.tokens, separated]
      rw [htokens]
      exact readLevels_flatMap_comma done name rest ls [l]

theorem readEntries_flatMap_comma : ∀ (es done : List Entry),
    readEntries done ((es.map Entry.tokens).flatMap (.symbol ',' :: ·) ++ [.symbol '}']) = some (done.reverse ++ es)
  | [], done => by
    rw [List.append_nil]
    rfl
  | e :: es, done => by
    rw [List.map_cons, List.flatMap_cons, List.append_assoc, List.cons_append, readEntries_comma,
      readEntries_flatMap_comma es (e :: done), List.reverse_cons, List.append_assoc, List.singleton_append]

/-- **The tokens of an object give its entries**, whether or not a name stands twice. -/
theorem entriesOfTokens?_objectTokens : ∀ es : List Entry, entriesOfTokens? (objectTokens es) = some es
  | [] => rfl
  | e :: es => by
    have hread := readEntries_flatMap_comma (e :: es) []
    rw [List.map_cons, List.flatMap_cons] at hread
    exact hread

namespace Params

theorem entriesOfJson?_toJson (m : Params) : entriesOfJson? m.toJson = some m.entries := by
  rw [entriesOfJson?, m.hasTokens_toJson.tokens?_eq, Option.bind_some, entriesOfTokens?_objectTokens]

/-- **JSON keeps all of the parameters.**  Their text is read back as their entries in order, and what is read back after
edits are the lists in which no name stands twice.  So two texts are equal if and only if the entries agree, in names,
kinds, values and order. -/
theorem toJson_keeps_entries :
    (∀ m : Params, entriesOfJson? m.toJson = some m.entries) ∧
    (∀ es, (∃ edits, entriesOfJson? (Edit.run edits).toJson = some es) ↔ (es.map Prod.fst).Nodup) ∧
    ∀ a b : Params, a.toJson = b.toJson ↔ a.entries = b.entries := by
  refine ⟨entriesOfJson?_toJson, fun es => ⟨?_, fun h => ⟨[.collect es], ?_⟩⟩, fun a b => ⟨?_, ?_⟩⟩
  · rintro ⟨edits, hread⟩
    rw [entriesOfJson?_toJson] at hread
    obtain rfl := Option.some.inj hread
    exact (Edit.run edits).nodup
  · have hrun : Edit.run [.collect es] = ofList es := rfl
    rw [hrun, entriesOfJson?_toJson, entries_ofList h]
  · intro h
    have hread := a.entriesOfJson?_toJson
    rw [h, b.entriesOfJson?_toJson] at hread
    exact (Option.some.inj hread).symm
  · intro h
    rw [toJson, toJson, h]

example : (ofList [(['a'], .single ['"']), (['b'], .multi [['"']]), (['c'], .multi [])]).toJson =
    "\x7b\"a\":\"\\\"\",\"b\":[\"\\\"\"],\"c\":[]\x7d".toList := rfl

end Params
end Topical
