import TagTemplate.Proofs.Number.Written

/-! What is written can be read again.

A value is written compactly: `Json.compact`. Reading its text again gives a document that says
the value: the same containers with as many items, the same keys and strings, character by
character, and numerals where there are numbers (`Json.read_compact`). So no string in a value can
break out of its quotes, whatever its characters are. What a numeral stands for, once it is
rounded, is left open. -/
namespace TagTemplate

namespace Document

/-! ### Documents that say a value -/

mutual

/-- Whether a document says a value, apart from what its numerals stand for. -/
inductive Says : Document → Json → Prop
  | null : Says .null .null
  | bool (b : Bool) : Says (.bool b) (.bool b)
  | number (read : Option JsonNumber) (n : JsonNumber) : Says (.number read) (.number n)
  | string (s : String) : Says (.string (some s)) (.string s)
  | array {ds : List Document} {vs : List Json} (items : SaysItems ds vs) :
    Says (.array ds) (.array vs)
  | object {ds : List (Option String × Document)} {vs : List (String × Json)}
    (entries : SaysEntries ds vs) : Says (.object ds) (.object vs)

/-- Whether documents say values, one by one. -/
inductive SaysItems : List Document → List Json → Prop
  | nil : SaysItems [] []
  | cons {d : Document} {v : Json} {ds : List Document} {vs : List Json} (first : Says d v)
    (others : SaysItems ds vs) : SaysItems (d :: ds) (v :: vs)

/-- Whether documents say values under the same keys, one by one. -/
inductive SaysEntries : List (Option String × Document) → List (String × Json) → Prop
  | nil : SaysEntries [] []
  | cons {key : String} {d : Document} {v : Json} {ds : List (Option String × Document)}
    {vs : List (String × Json)} (first : Says d v) (others : SaysEntries ds vs) :
    SaysEntries ((some key, d) :: ds) ((key, v) :: vs)

end

/-! ### Strings -/

/-- A character is written in one of three ways: with a letter behind a backslash, by its code,
or as it is. -/
theorem escapeChar_cases (c : Char) :
    (∃ e, e ≠ 'u' ∧ shortEscape e = some c.toNat ∧ escapeChar c = ['\\', e]) ∨
      (c.toNat < 32 ∧ escapeChar c =
        ['\\', 'u', '0', '0', hexDigit (c.toNat / 16), hexDigit (c.toNat % 16)]) ∨
      (c ≠ '"' ∧ c ≠ '\\' ∧ ¬ c.toNat < 32 ∧ escapeChar c = [c]) := by
  unfold escapeChar
  split
  · rename_i h
    obtain rfl := eq_of_beq h
    exact .inl ⟨'"', by decide⟩
  split
  · rename_i h
    obtain rfl := eq_of_beq h
    exact .inl ⟨'\\', by decide⟩
  split
  · rename_i h
    obtain rfl := eq_of_beq h
    exact .inl ⟨'n', by decide⟩
  split
  · rename_i h
    obtain rfl := eq_of_beq h
    exact .inl ⟨'r', by decide⟩
  split
  · rename_i h
    obtain rfl := eq_of_beq h
    exact .inl ⟨'t', by decide⟩
  split
  · rename_i h
    exact .inl ⟨'b', by decide, by rw [eq_of_beq h]; rfl, rfl⟩
  split
  · rename_i h
    exact .inl ⟨'f', by decide, by rw [eq_of_beq h]; rfl, rfl⟩
  split
  · rename_i h
    exact .inr (.inl ⟨h, rfl⟩)
  · rename_i hquote hbackslash _ _ _ _ _ hcontrol
    exact .inr (.inr ⟨fun h => hquote (beq_iff_eq.2 h), fun h => hbackslash (beq_iff_eq.2 h),
      hcontrol, rfl⟩)

theorem hexCode_hexDigit :
    ∀ n < 32, hexCode '0' '0' (hexDigit (n / 16)) (hexDigit (n % 16)) = some n := by
  decide

/-- A character is read as it was, in whichever way it is written. -/
theorem readCodes_escapeChar (c : Char) (rest : List Char) :
    readCodes (escapeChar c ++ rest) =
      (readCodes rest).map fun (codes, rest) => (c.toNat :: codes, rest) := by
  rcases escapeChar_cases c with ⟨e, he, hcode, heq⟩ | ⟨hcontrol, heq⟩ | ⟨hquote, hback, hplain, heq⟩
  · rw [heq, List.cons_append, List.cons_append, List.nil_append, readCodes, hcode]
    · cases readCodes rest <;> rfl
    · exact fun _ _ _ _ _ hu _ => he hu
  · rw [heq]
    simp only [List.cons_append, List.nil_append]
    rw [readCodes, hexCode_hexDigit _ hcontrol]
    cases readCodes rest <;> rfl
  · rw [heq, List.cons_append, List.nil_append, readCodes, if_neg (by simp [hplain, hback])]
    · cases readCodes rest <;> rfl
    · exact hquote
    · exact fun _ _ _ _ _ h _ => hback h
    · exact fun _ _ h _ => hback h

/-- A character is no half of a surrogate pair. -/
theorem not_surrogate (c : Char) : isLeading c.toNat = false ∧ isTrailing c.toNat = false := by
  have hvalid : c.toNat < 0xD800 ∨ 0xDFFF < c.toNat ∧ c.toNat < 0x110000 := c.valid
  unfold isLeading isTrailing
  constructor <;> simp only [Bool.and_eq_false_iff, decide_eq_false_iff_not] <;> omega

theorem pairUp_map_toNat (cs : List Char) : pairUp (cs.map Char.toNat) = some cs := by
  induction cs with
  | nil => rfl
  | cons c cs ih =>
    obtain ⟨hleading, htrailing⟩ := not_surrogate c
    cases cs with
    | nil =>
      rw [List.map_singleton, pairUp, hleading, htrailing, Bool.or_false,
        if_neg Bool.false_ne_true, Char.ofNat_toNat]
    | cons d cs =>
      rw [List.map_cons] at ih
      rw [List.map_cons, List.map_cons, pairUp, hleading, htrailing, if_neg Bool.false_ne_true,
        if_neg Bool.false_ne_true, ih, Char.ofNat_toNat, Option.map_some]

theorem readCodes_escaped (cs rest : List Char) :
    readCodes (cs.flatMap escapeChar ++ '"' :: rest) = some (cs.map Char.toNat, rest) := by
  induction cs with
  | nil => rfl
  | cons c cs ih =>
    rw [List.flatMap_cons, List.append_assoc, readCodes_escapeChar, ih]
    rfl

/-- **A string is read as it was written.** -/
theorem readText_escaped (s : String) (rest : List Char) :
    readText (s.toList.flatMap escapeChar ++ '"' :: rest) = some (some s, rest) := by
  rw [readText, readCodes_escaped, Option.map_some]
  dsimp only
  rw [pairUp_map_toNat, Option.map_some, String.ofList_toList]

/-! ### Blanks and brackets -/

/-- Whether a value may begin with a character: it is no blank, and closes nothing. -/
structure Opens (c : Char) : Prop where
  plain : c ≠ ' ' ∧ c ≠ '\n' ∧ c ≠ '\t' ∧ c ≠ '\r'
  bracket : c ≠ ']'
  brace : c ≠ '}'

theorem skipBlanks_cons {c : Char} (cs : List Char)
    (h : c ≠ ' ' ∧ c ≠ '\n' ∧ c ≠ '\t' ∧ c ≠ '\r') : skipBlanks (c :: cs) = c :: cs := by
  rw [skipBlanks, List.dropWhile_cons_of_neg]
  simp [h]

/-- Whether the text behind a value is at its end, or goes on with the container around it. -/
def Closes (rest : List Char) : Prop := ∀ c ∈ rest.head?, c = ',' ∨ c = ']' ∨ c = '}'

theorem Closes.endsNumeral {rest : List Char} (h : Closes rest) : EndsNumeral rest := by
  intro c hc
  rcases h c hc with rfl | rfl | rfl <;> decide

theorem closes_comma {rest : List Char} : Closes (',' :: rest) := by
  rintro _ ⟨⟩
  exact .inl rfl

theorem closes_bracket {rest : List Char} : Closes (']' :: rest) := by
  rintro _ ⟨⟩
  exact .inr (.inl rfl)

theorem closes_brace {rest : List Char} : Closes ('}' :: rest) := by
  rintro _ ⟨⟩
  exact .inr (.inr rfl)

/-- A numeral begins like a value, and like no other value. -/
theorem head_numeral {c : Char} (h : c = '-' ∨ c.isDigit = true) :
    Opens c ∧ c ≠ 'n' ∧ c ≠ 't' ∧ c ≠ 'f' ∧ c ≠ '"' ∧ c ≠ '[' ∧ c ≠ '{' := by
  have hne (d : Char) (hminus : d ≠ '-') (hdigit : d.isDigit = false) : c ≠ d := by
    rintro rfl
    rcases h with h | h
    · exact hminus h
    · rw [hdigit] at h
      cases h
  refine ⟨⟨⟨?_, ?_, ?_, ?_⟩, ?_, ?_⟩, ?_, ?_, ?_, ?_, ?_, ?_⟩ <;>
    exact hne _ (by decide) (by decide)

theorem head_renderAt (v : Json) (level : Nat) :
    ∃ c cs, (ofJson v).renderAt .compact level = c :: cs ∧ Opens c := by
  match v with
  | .null => exact ⟨_, _, rfl, by decide, by decide, by decide⟩
  | .bool true => exact ⟨_, _, rfl, by decide, by decide, by decide⟩
  | .bool false => exact ⟨_, _, rfl, by decide, by decide, by decide⟩
  | .number n =>
    obtain ⟨w, hw⟩ := n.exists_written
    obtain ⟨c, cs, htext, hc⟩ := w.head_text
    exact ⟨c, cs, hw.trans htext, (head_numeral hc).1⟩
  | .string s => exact ⟨_, _, rfl, by decide, by decide, by decide⟩
  | .array [] => exact ⟨_, _, rfl, by decide, by decide, by decide⟩
  | .array (v :: vs) => exact ⟨_, _, rfl, by decide, by decide, by decide⟩
  | .object [] => exact ⟨_, _, rfl, by decide, by decide, by decide⟩
  | .object ((k, v) :: vs) => exact ⟨_, _, rfl, by decide, by decide, by decide⟩

theorem skipBlanks_renderAt (v : Json) (level : Nat) (rest : List Char) :
    skipBlanks ((ofJson v).renderAt .compact level ++ rest) =
      (ofJson v).renderAt .compact level ++ rest := by
  obtain ⟨c, cs, heq, hc⟩ := head_renderAt v level
  rw [heq]
  exact skipBlanks_cons _ hc.plain

theorem skipBlanks_quoted (s : String) (rest : List Char) :
    skipBlanks (quoted s ++ rest) = quoted s ++ rest :=
  skipBlanks_cons _ (by decide)

/-! ### Values -/

theorem readValue_numeral (w : WrittenNumeral) {fuel : Nat} {rest : List Char}
    (hrest : Closes rest) :
    ∃ n, readValue (fuel + 1) (w.text ++ rest) = some (.number n, rest) := by
  obtain ⟨n, hn⟩ := w.readNumeral_append hrest.endsNumeral
  obtain ⟨c, cs, htext, hc⟩ := w.head_text
  obtain ⟨-, hn', ht, hf, hquote, hbracket, hbrace⟩ := head_numeral hc
  refine ⟨n.value?, ?_⟩
  rw [htext] at hn ⊢
  rw [List.cons_append] at hn ⊢
  rw [readValue, hn, Option.map_some]
  · exact fun _ h => hn' (List.cons.inj h).1
  · exact fun _ h => ht (List.cons.inj h).1
  · exact fun _ h => hf (List.cons.inj h).1
  · exact fun _ h => hquote (List.cons.inj h).1
  · exact fun _ h => hbracket (List.cons.inj h).1
  · exact fun _ h => hbrace (List.cons.inj h).1

section
variable {level : Nat} {rest : List Char}

/-- An array that is not empty: its first item, and the others. -/
theorem renderAt_array (v : Json) (vs : List Json) :
    (ofJson (.array (v :: vs))).renderAt .compact level ++ rest =
      '[' :: ((ofJson v).renderAt .compact (level + 1) ++
        (renderItems .compact (level + 1) (ofItems vs) ++ ']' :: rest)) := by
  simp [ofJson, ofItems, renderAt, Layout.newline]

/-- An object that is not empty: its first entry, and the others. -/
theorem renderAt_object (key : String) (v : Json) (vs : List (String × Json)) :
    (ofJson (.object ((key, v) :: vs))).renderAt .compact level ++ rest =
      '{' :: (quoted key ++ ':' :: ((ofJson v).renderAt .compact (level + 1) ++
        (renderEntries .compact (level + 1) (ofFields vs) ++ '}' :: rest))) := by
  simp [ofJson, ofFields, renderAt, Layout.newline, Layout.colon]

theorem renderItems_cons (v : Json) (vs : List Json) :
    renderItems .compact level (ofItems (v :: vs)) ++ rest =
      ',' :: ((ofJson v).renderAt .compact level ++
        (renderItems .compact level (ofItems vs) ++ rest)) := by
  simp [ofItems, renderItems, Layout.newline]

theorem renderEntries_cons (key : String) (v : Json) (vs : List (String × Json)) :
    renderEntries .compact level (ofFields ((key, v) :: vs)) ++ rest =
      ',' :: (quoted key ++ ':' :: ((ofJson v).renderAt .compact level ++
        (renderEntries .compact level (ofFields vs) ++ rest))) := by
  simp [ofFields, renderEntries, Layout.newline, Layout.colon]

end

/-- An entry is read behind its key. -/
theorem readEntries_quoted (key : String) (v : Json) (level fuel : Nat) (behind : List Char) :
    readEntries (fuel + 1)
        (quoted key ++ ':' :: ((ofJson v).renderAt .compact level ++ behind)) =
      (readValue fuel ((ofJson v).renderAt .compact level ++ behind)).bind fun (value, rest) =>
        match skipBlanks rest with
        | '}' :: rest => some ([(some key, value)], rest)
        | ',' :: rest =>
          (readEntries fuel (skipBlanks rest)).bind fun (entries, rest) =>
            some ((some key, value) :: entries, rest)
        | _ => none := by
  rw [quoted, List.cons_append, List.append_assoc, List.cons_append, List.nil_append, readEntries,
    readText_escaped]
  change (readValue fuel (skipBlanks _)).bind _ = _
  rw [skipBlanks_renderAt]
  rfl

mutual

/-- A value is read from the text that it is written as. -/
theorem readValue_renderAt (v : Json) (level fuel : Nat) (rest : List Char)
    (hfuel : 2 * ((ofJson v).renderAt .compact level ++ rest).length ≤ fuel + 2 * rest.length)
    (hrest : Closes rest) :
    ∃ d, readValue fuel ((ofJson v).renderAt .compact level ++ rest) = some (d, rest) ∧
      d.Says v := by
  match fuel, v with
  | 0, v =>
    obtain ⟨c, cs, heq, -⟩ := head_renderAt v level
    rw [heq] at hfuel
    simp only [List.length_append, List.length_cons] at hfuel
    omega
  | fuel + 1, .null => exact ⟨_, rfl, .null⟩
  | fuel + 1, .bool true => exact ⟨_, rfl, .bool true⟩
  | fuel + 1, .bool false => exact ⟨_, rfl, .bool false⟩
  | fuel + 1, .number n =>
    obtain ⟨w, hw⟩ := n.exists_written
    obtain ⟨read, hread⟩ := readValue_numeral w hrest
    refine ⟨_, ?_, .number read n⟩
    rw [← hread, ← hw]
    rfl
  | fuel + 1, .string s =>
    refine ⟨_, ?_, .string s⟩
    have htext := readText_escaped s rest
    simp only [ofJson, renderAt, quoted, Option.getD_some, List.cons_append, List.append_assoc,
      List.nil_append, readValue]
    rw [htext, Option.map_some]
  | fuel + 1, .array [] => exact ⟨_, rfl, .array .nil⟩
  | fuel + 1, .object [] => exact ⟨_, rfl, .object .nil⟩
  | fuel + 1, .array (v :: vs) =>
    rw [renderAt_array] at hfuel ⊢
    obtain ⟨ds, hread, hsays⟩ := readItems_render v vs (level + 1) fuel rest (by
      simp only [List.length_cons] at hfuel
      omega)
    refine ⟨.array ds, ?_, .array hsays⟩
    rw [readValue, skipBlanks_renderAt]
    split
    · rename_i hclosed
      obtain ⟨c, cs, hhead, hc⟩ := head_renderAt v (level + 1)
      rw [hhead] at hclosed
      exact absurd (List.cons.inj hclosed).1 hc.bracket
    · rw [hread, Option.map_some]
  | fuel + 1, .object ((key, v) :: vs) =>
    rw [renderAt_object] at hfuel ⊢
    obtain ⟨ds, hread, hsays⟩ := readEntries_render key v vs (level + 1) fuel rest (by
      simp only [List.length_cons] at hfuel
      omega)
    refine ⟨.object ds, ?_, .object hsays⟩
    rw [readValue, skipBlanks_quoted]
    split
    · rename_i hclosed
      cases hclosed
    · rw [hread, Option.map_some]

/-- The items of an array are read from the text that they are written as. -/
theorem readItems_render (v : Json) (vs : List Json) (level fuel : Nat) (rest : List Char)
    (hfuel : 2 * ((ofJson v).renderAt .compact level ++
      (renderItems .compact level (ofItems vs) ++ ']' :: rest)).length ≤ fuel + 2 * rest.length) :
    ∃ ds, readItems fuel ((ofJson v).renderAt .compact level ++
        (renderItems .compact level (ofItems vs) ++ ']' :: rest)) = some (ds, rest) ∧
      SaysItems ds (v :: vs) := by
  match fuel, vs with
  | 0, vs =>
    simp only [List.length_append, List.length_cons] at hfuel
    omega
  | fuel + 1, [] =>
    obtain ⟨d, hfirst, hsays⟩ := readValue_renderAt v level fuel (']' :: rest) (by
      simp only [List.length_append, List.length_cons] at hfuel ⊢
      omega) closes_bracket
    refine ⟨[d], ?_, .cons hsays .nil⟩
    rw [ofItems, renderItems, List.nil_append, readItems, hfirst]
    rfl
  | fuel + 1, v' :: vs =>
    rw [renderItems_cons] at hfuel ⊢
    obtain ⟨d, hfirst, hsays⟩ := readValue_renderAt v level fuel
      (',' :: ((ofJson v').renderAt .compact level ++
        (renderItems .compact level (ofItems vs) ++ ']' :: rest))) (by
      simp only [List.length_append, List.length_cons] at hfuel ⊢
      omega) closes_comma
    obtain ⟨ds, hothers, hsayOthers⟩ := readItems_render v' vs level fuel rest (by
      simp only [List.length_append, List.length_cons] at hfuel ⊢
      omega)
    refine ⟨d :: ds, ?_, .cons hsays hsayOthers⟩
    rw [readItems, hfirst]
    change (readItems fuel (skipBlanks _)).bind _ = _
    rw [skipBlanks_renderAt, hothers]
    rfl

/-- The entries of an object are read from the text that they are written as. -/
theorem readEntries_render (key : String) (v : Json) (vs : List (String × Json))
    (level fuel : Nat) (rest : List Char)
    (hfuel : 2 * (quoted key ++ ':' :: ((ofJson v).renderAt .compact level ++
      (renderEntries .compact level (ofFields vs) ++ '}' :: rest))).length ≤ fuel + 2 * rest.length) :
    ∃ ds, readEntries fuel (quoted key ++ ':' :: ((ofJson v).renderAt .compact level ++
        (renderEntries .compact level (ofFields vs) ++ '}' :: rest))) = some (ds, rest) ∧
      SaysEntries ds ((key, v) :: vs) := by
  match fuel, vs with
  | 0, vs =>
    simp only [List.length_append, List.length_cons] at hfuel
    omega
  | fuel + 1, [] =>
    obtain ⟨d, hfirst, hsays⟩ := readValue_renderAt v level fuel ('}' :: rest) (by
      simp only [List.length_append, List.length_cons] at hfuel ⊢
      omega) closes_brace
    refine ⟨[(some key, d)], ?_, .cons hsays .nil⟩
    rw [ofFields, renderEntries, List.nil_append, readEntries_quoted, hfirst]
    rfl
  | fuel + 1, (key', v') :: vs =>
    rw [renderEntries_cons] at hfuel ⊢
    obtain ⟨d, hfirst, hsays⟩ := readValue_renderAt v level fuel
      (',' :: (quoted key' ++ ':' :: ((ofJson v').renderAt .compact level ++
        (renderEntries .compact level (ofFields vs) ++ '}' :: rest)))) (by
      simp only [List.length_append, List.length_cons] at hfuel ⊢
      omega) closes_comma
    obtain ⟨ds, hothers, hsayOthers⟩ := readEntries_render key' v' vs level fuel rest (by
      simp only [List.length_append, List.length_cons] at hfuel ⊢
      omega)
    refine ⟨(some key, d) :: ds, ?_, .cons hsays hsayOthers⟩
    rw [readEntries_quoted, hfirst]
    change (readEntries fuel (skipBlanks _)).bind _ = _
    rw [skipBlanks_quoted, hothers]
    rfl

end

end Document

/-- **A value can be read again from its text.** -/
theorem Json.read_compact (v : Json) : ∃ d, Document.read v.compact = some d ∧ d.Says v := by
  obtain ⟨d, hread, hsays⟩ := Document.readValue_renderAt v 0
    (2 * ((Document.ofJson v).renderAt .compact 0).length + 1) [] (by
      rw [List.append_nil]
      exact Nat.le_succ _) nofun
  refine ⟨d, ?_, hsays⟩
  have hblanks := Document.skipBlanks_renderAt v 0 []
  rw [List.append_nil] at hread hblanks
  rw [Document.read, compact, Document.render, String.toList_ofList, hblanks, hread]
  rfl

end TagTemplate
