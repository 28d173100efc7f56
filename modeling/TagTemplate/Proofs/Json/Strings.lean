import TagTemplate.Run.Expand

/-! The strings of a value, and of a value in a text.

A string that is itself the JSON text of a container holds strings, and each of them is
shorter than the text around it: its quotes stand there, and each of its characters is spelled
by at least one. So texts in texts come to an end. -/
namespace TagTemplate

namespace Json

mutual

/-- The strings of a value, in order; keys are none of them. -/
def strings : Json → List String
  | .string s => [s]
  | .array items => stringsOfItems items
  | .object entries => stringsOfEntries entries
  | _ => []

/-- The strings of some values. -/
def stringsOfItems : List Json → List String
  | [] => []
  | v :: vs => strings v ++ stringsOfItems vs

/-- The strings in the values of some entries. -/
def stringsOfEntries : List (String × Json) → List String
  | [] => []
  | (_, v) :: vs => strings v ++ stringsOfEntries vs

end

/-! ### Objects -/

theorem mem_stringsOfEntries_insert {k : String} {v : Json} {entries : List (String × Json)}
    {s : String} (h : s ∈ stringsOfEntries (Keyed.insert k v entries)) :
    s ∈ strings v ∨ s ∈ stringsOfEntries entries := by
  induction entries with
  | nil => simpa [Keyed.insert, stringsOfEntries] using h
  | cons entry rest ih =>
    rw [Keyed.insert] at h
    simp only [stringsOfEntries, List.mem_append]
    split at h
    · rcases List.mem_append.1 h with h | h
      · exact .inl h
      · exact .inr (.inr h)
    · split at h
      · rcases List.mem_append.1 h with h | h
        · exact .inl h
        · exact .inr (List.mem_append.1 h)
      · rcases List.mem_append.1 h with h | h
        · exact .inr (.inl h)
        · exact (ih h).imp_right .inr

theorem mem_stringsOfEntries_ofList {entries : List (String × Json)} {s : String}
    (h : s ∈ stringsOfEntries (Keyed.ofList entries)) : s ∈ stringsOfEntries entries := by
  have hfold (acc : List (String × Json)) :
      s ∈ stringsOfEntries (entries.foldl (fun acc e => Keyed.insert e.1 e.2 acc) acc) →
        s ∈ stringsOfEntries entries ∨ s ∈ stringsOfEntries acc := by
    clear h
    induction entries generalizing acc with
    | nil => exact .inr
    | cons entry rest ih =>
      intro h
      rw [stringsOfEntries, List.mem_append]
      rcases ih _ h with h | h
      · exact .inl (.inr h)
      · rcases mem_stringsOfEntries_insert h with h | h
        · exact .inl (.inl h)
        · exact .inr h
  exact (hfold [] h).resolve_right (by simp [stringsOfEntries])

end Json

/-! ### Documents -/

namespace Document

mutual

/-- The strings of a document, in order; keys are none of them. -/
def strings : Document → List String
  | .string (some s) => [s]
  | .array items => stringsOfItems items
  | .object entries => stringsOfEntries entries
  | _ => []

/-- The strings of some documents. -/
def stringsOfItems : List Document → List String
  | [] => []
  | d :: ds => strings d ++ stringsOfItems ds

/-- The strings in the values of some entries. -/
def stringsOfEntries : List (Option String × Document) → List String
  | [] => []
  | (_, d) :: ds => strings d ++ stringsOfEntries ds

end

mutual

/-- The strings of a value are those of its document. -/
theorem strings_of_valueWithin {room : Nat} {d : Document} {v : Json}
    (h : valueWithin room d = some v) : ∀ s ∈ v.strings, s ∈ d.strings := by
  match d with
  | .null =>
    cases h
    exact List.forall_mem_nil _
  | .bool b =>
    cases h
    exact List.forall_mem_nil _
  | .number n =>
    obtain ⟨_, _, rfl⟩ := Option.map_eq_some_iff.1 h
    exact List.forall_mem_nil _
  | .string s =>
    obtain ⟨s, rfl, rfl⟩ := Option.map_eq_some_iff.1 h
    exact fun _ hs => hs
  | .array items =>
    rw [valueWithin] at h
    split at h
    · cases h
    · obtain ⟨vs, hvs, rfl⟩ := Option.map_eq_some_iff.1 h
      exact strings_of_itemsWithin hvs
  | .object entries =>
    rw [valueWithin] at h
    split at h
    · cases h
    · obtain ⟨vs, hvs, rfl⟩ := Option.map_eq_some_iff.1 h
      intro s hs
      exact strings_of_entriesWithin hvs s (Json.mem_stringsOfEntries_ofList hs)

theorem strings_of_itemsWithin {room : Nat} {ds : List Document} {vs : List Json}
    (h : itemsWithin room ds = some vs) :
    ∀ s ∈ Json.stringsOfItems vs, s ∈ stringsOfItems ds := by
  match ds with
  | [] =>
    cases h
    exact List.forall_mem_nil _
  | d :: ds =>
    obtain ⟨v, hv, h⟩ := Option.bind_eq_some_iff.1 h
    obtain ⟨vs, hvs, h⟩ := Option.bind_eq_some_iff.1 h
    cases h
    intro s hs
    rcases List.mem_append.1 hs with hs | hs
    · exact List.mem_append_left _ (strings_of_valueWithin hv s hs)
    · exact List.mem_append_right _ (strings_of_itemsWithin hvs s hs)

theorem strings_of_entriesWithin {room : Nat} {ds : List (Option String × Document)}
    {vs : List (String × Json)} (h : entriesWithin room ds = some vs) :
    ∀ s ∈ Json.stringsOfEntries vs, s ∈ stringsOfEntries ds := by
  match ds with
  | [] =>
    cases h
    exact List.forall_mem_nil _
  | (k, d) :: ds =>
    obtain ⟨k, hk, h⟩ := Option.bind_eq_some_iff.1 h
    obtain ⟨v, hv, h⟩ := Option.bind_eq_some_iff.1 h
    obtain ⟨vs, hvs, h⟩ := Option.bind_eq_some_iff.1 h
    cases h
    intro s hs
    rcases List.mem_append.1 hs with hs | hs
    · exact List.mem_append_left _ (strings_of_valueWithin hv s hs)
    · exact List.mem_append_right _ (strings_of_entriesWithin hvs s hs)

end

/-! ### Reading -/

theorem length_skipBlanks (cs : List Char) : (skipBlanks cs).length ≤ cs.length :=
  (List.dropWhile_suffix _).length_le

/-- Each code of a string is spelled by at least one character, and the quote by one. -/
theorem length_readCodes {cs : List Char} {codes : List Nat} {rest : List Char}
    (h : readCodes cs = some (codes, rest)) : codes.length + rest.length < cs.length := by
  fun_induction readCodes cs generalizing codes rest with
  | case1 => cases h
  | case2 => simp_all
  | case3 a b c d tail ih =>
    obtain ⟨code, -, h⟩ := Option.bind_eq_some_iff.1 h
    obtain ⟨⟨codes, rest⟩, hread, h⟩ := Option.bind_eq_some_iff.1 h
    cases h
    have hlength := ih hread
    simp only [List.length_cons]
    omega
  | case4 e tail _ ih =>
    obtain ⟨code, -, h⟩ := Option.bind_eq_some_iff.1 h
    obtain ⟨⟨codes, rest⟩, hread, h⟩ := Option.bind_eq_some_iff.1 h
    cases h
    have hlength := ih hread
    simp only [List.length_cons]
    omega
  | case5 => cases h
  | case6 c tail _ _ _ _ ih =>
    obtain ⟨⟨codes, rest⟩, hread, h⟩ := Option.bind_eq_some_iff.1 h
    cases h
    have hlength := ih hread
    simp only [List.length_cons]
    omega

/-- Each character has a code of its own. -/
theorem length_pairUp {codes : List Nat} {cs : List Char} (h : pairUp codes = some cs) :
    cs.length ≤ codes.length := by
  fun_induction pairUp codes generalizing cs with
  | case1 =>
    cases h
    exact Nat.le_refl _
  | case2 high low codes _ _ ih =>
    obtain ⟨cs, hcs, rfl⟩ := Option.map_eq_some_iff.1 h
    have hlength := ih hcs
    simp only [List.length_cons]
    omega
  | case3 => cases h
  | case4 => cases h
  | case5 high low codes _ _ ih =>
    obtain ⟨cs, hcs, rfl⟩ := Option.map_eq_some_iff.1 h
    exact Nat.succ_le_succ (ih hcs)
  | case6 => cases h
  | case7 =>
    cases h
    exact Nat.le_refl _

/-- What a text leaves behind is shorter, and so is what it reads as. -/
theorem length_readText {cs rest : List Char} {text : Option String}
    (h : readText cs = some (text, rest)) :
    rest.length < cs.length ∧ ∀ s, text = some s → s.length < cs.length := by
  obtain ⟨⟨codes, rest⟩, hread, h⟩ := Option.map_eq_some_iff.1 h
  cases h
  have hcodes := length_readCodes hread
  refine ⟨by omega, fun s hs => ?_⟩
  obtain ⟨t, ht, rfl⟩ := Option.map_eq_some_iff.1 hs
  have hpairs := length_pairUp ht
  rw [String.length_ofList]
  omega

theorem length_takeDigits (cs : List Char) : (Number.takeDigits cs).2.length ≤ cs.length :=
  (List.dropWhile_suffix _).length_le

theorem length_takeSign (cs : List Char) : (Number.takeSign cs).2.length ≤ cs.length := by
  unfold Number.takeSign
  split <;> simp

theorem length_readWhole {cs digits rest : List Char} (h : readWhole cs = some (digits, rest)) :
    rest.length ≤ cs.length := by
  have hlength := length_takeDigits cs
  unfold readWhole at h
  split at h
  · cases h
  · cases h
  · rw [Option.some.inj h] at hlength
    exact hlength

theorem length_readFraction {cs rest : List Char} {digits : Option (List Char)}
    (h : readFraction cs = some (digits, rest)) : rest.length ≤ cs.length := by
  unfold readFraction at h
  split at h
  · rename_i cs
    have hlength := length_takeDigits cs
    split at h
    · cases h
    · rename_i heq
      rw [heq] at hlength
      cases h
      exact Nat.le_succ_of_le hlength
  · cases h
    exact Nat.le_refl _

theorem length_readExponent {cs rest : List Char} {e : Option Int}
    (h : readExponent cs = some (e, rest)) : rest.length ≤ cs.length := by
  unfold readExponent at h
  split at h
  · cases h
    exact Nat.le_refl _
  · rename_i mark cs
    split at h
    · have hsign := length_takeSign cs
      have hdigits := length_takeDigits (Number.takeSign cs).2
      dsimp only at h
      split at h
      · cases h
      · rename_i heq
        rw [heq] at hdigits
        cases h
        exact Nat.le_succ_of_le (Nat.le_trans hdigits hsign)
    · cases h
      exact Nat.le_refl _

theorem length_readNumeral {cs rest : List Char} {n : JsonNumeral}
    (h : readNumeral cs = some (n, rest)) : rest.length ≤ cs.length := by
  unfold readNumeral at h
  dsimp only at h
  obtain ⟨⟨whole, rest₁⟩, hwhole, h⟩ := Option.bind_eq_some_iff.1 h
  obtain ⟨⟨fraction, rest₂⟩, hfraction, h⟩ := Option.bind_eq_some_iff.1 h
  obtain ⟨⟨e, rest₃⟩, hexponent, h⟩ := Option.bind_eq_some_iff.1 h
  cases h
  refine Nat.le_trans (length_readExponent hexponent) (Nat.le_trans (length_readFraction hfraction)
    (Nat.le_trans (length_readWhole hwhole) ?_))
  split <;> simp

/-- What is read from a text leaves no more than there was, and all its strings are shorter
than the text. -/
structure Fits (cs rest : List Char) (strings : List String) : Prop where
  rest : rest.length ≤ cs.length
  strings : ∀ s ∈ strings, s.length < cs.length

theorem Fits.mono {cs cs' rest : List Char} {ss : List String} (h : Fits cs rest ss)
    (hle : cs.length ≤ cs'.length) : Fits cs' rest ss where
  rest := Nat.le_trans h.rest hle
  strings s hs := Nat.lt_of_lt_of_le (h.strings s hs) hle

theorem Fits.append {cs between cs' rest : List Char} {ss ss' : List String}
    (h : Fits cs between ss) (h' : Fits cs' rest ss') (hle : cs'.length ≤ between.length) :
    Fits cs rest (ss ++ ss') :=
  have h' := h'.mono (Nat.le_trans hle h.rest)
  ⟨h'.rest, List.forall_mem_append.2 ⟨h.strings, h'.strings⟩⟩

mutual

theorem fits_readValue {fuel : Nat} {cs rest : List Char} {d : Document}
    (h : readValue fuel cs = some (d, rest)) : Fits cs rest d.strings := by
  match fuel with
  | 0 => cases h
  | fuel + 1 =>
    simp only [readValue] at h
    split at h
    · cases h
      exact ⟨by simp; omega, List.forall_mem_nil _⟩
    · cases h
      exact ⟨by simp; omega, List.forall_mem_nil _⟩
    · cases h
      exact ⟨by simp; omega, List.forall_mem_nil _⟩
    · obtain ⟨⟨text, rest⟩, htext, h⟩ := Option.map_eq_some_iff.1 h
      cases h
      obtain ⟨hrest, hstring⟩ := length_readText htext
      refine ⟨Nat.le_succ_of_le (Nat.le_of_lt hrest), ?_⟩
      cases text with
      | none => exact List.forall_mem_nil _
      | some s => exact List.forall_mem_singleton.2 (Nat.lt_succ_of_lt (hstring s rfl))
    · rename_i tail
      have hblanks := length_skipBlanks tail
      split at h
      · rename_i heq
        cases h
        rw [heq] at hblanks
        exact ⟨Nat.le_succ_of_le (Nat.le_of_lt hblanks), List.forall_mem_nil _⟩
      · obtain ⟨⟨items, rest⟩, hitems, h⟩ := Option.map_eq_some_iff.1 h
        cases h
        exact (fits_readItems hitems).mono (Nat.le_succ_of_le hblanks)
    · rename_i tail
      have hblanks := length_skipBlanks tail
      split at h
      · rename_i heq
        cases h
        rw [heq] at hblanks
        exact ⟨Nat.le_succ_of_le (Nat.le_of_lt hblanks), List.forall_mem_nil _⟩
      · obtain ⟨⟨entries, rest⟩, hentries, h⟩ := Option.map_eq_some_iff.1 h
        cases h
        exact (fits_readEntries hentries).mono (Nat.le_succ_of_le hblanks)
    · obtain ⟨⟨n, rest⟩, hnumeral, h⟩ := Option.map_eq_some_iff.1 h
      cases h
      exact ⟨length_readNumeral hnumeral, List.forall_mem_nil _⟩

theorem fits_readItems {fuel : Nat} {cs rest : List Char} {ds : List Document}
    (h : readItems fuel cs = some (ds, rest)) : Fits cs rest (stringsOfItems ds) := by
  match fuel with
  | 0 => cases h
  | fuel + 1 =>
    obtain ⟨⟨item, between⟩, hitem, h⟩ := Option.bind_eq_some_iff.1 h
    have hfirst := fits_readValue hitem
    have hblanks := length_skipBlanks between
    dsimp only at h
    split at h
    · rename_i heq
      cases h
      rw [heq] at hblanks
      exact hfirst.append ⟨Nat.le_refl _, List.forall_mem_nil _⟩ (Nat.le_of_lt hblanks)
    · rename_i tail heq
      obtain ⟨⟨items, rest⟩, hitems, h⟩ := Option.bind_eq_some_iff.1 h
      cases h
      rw [heq] at hblanks
      exact hfirst.append (fits_readItems hitems)
        (Nat.le_trans (length_skipBlanks tail) (Nat.le_of_lt hblanks))
    · cases h

theorem fits_readEntries {fuel : Nat} {cs rest : List Char} {ds : List (Option String × Document)}
    (h : readEntries fuel cs = some (ds, rest)) : Fits cs rest (stringsOfEntries ds) := by
  match fuel with
  | 0 => cases h
  | fuel + 1 =>
    simp only [readEntries] at h
    split at h
    · rename_i tail
      obtain ⟨⟨key, afterKey⟩, hkey, h⟩ := Option.bind_eq_some_iff.1 h
      have hkey := (length_readText hkey).1
      have hcolon := length_skipBlanks afterKey
      dsimp only at h
      split at h
      · rename_i afterColon heq
        rw [heq] at hcolon
        obtain ⟨⟨value, between⟩, hvalue, h⟩ := Option.bind_eq_some_iff.1 h
        have hstart := length_skipBlanks afterColon
        have hfirst : Fits ('"' :: tail) between value.strings :=
          (fits_readValue hvalue).mono (by simp only [List.length_cons] at *; omega)
        have hblanks := length_skipBlanks between
        dsimp only at h
        split at h
        · rename_i heq
          cases h
          rw [heq] at hblanks
          exact hfirst.append ⟨Nat.le_refl _, List.forall_mem_nil _⟩ (Nat.le_of_lt hblanks)
        · rename_i tail heq
          obtain ⟨⟨entries, rest⟩, hentries, h⟩ := Option.bind_eq_some_iff.1 h
          cases h
          rw [heq] at hblanks
          exact hfirst.append (fits_readEntries hentries)
            (Nat.le_trans (length_skipBlanks tail) (Nat.le_of_lt hblanks))
        · cases h
      · cases h
    · cases h

end

/-- **The strings of a document are shorter than its text.** -/
theorem length_lt_of_read {s : String} {d : Document} (h : read s = some d) :
    ∀ t ∈ d.strings, t.length < s.length := by
  unfold read at h
  dsimp only at h
  split at h
  · rename_i hread
    split at h
    · cases h
      intro t ht
      have hle := length_skipBlanks s.toList
      rw [String.length_toList] at hle
      exact Nat.lt_of_lt_of_le ((fits_readValue hread).strings t ht) hle
    · cases h
  · cases h

end Document

namespace Json

theorem length_trim (s : String) : (Text.trim s).length ≤ s.length := by
  have hstart (cs : List Char) : (Text.trimStart cs).length ≤ cs.length :=
    (List.dropWhile_suffix _).length_le
  have hend := hstart (Text.trimStart s.toList).reverse
  rw [List.length_reverse] at hend
  rw [Text.trim, Text.trimChars, String.length_ofList, List.length_reverse, ← String.length_toList]
  exact Nat.le_trans hend (hstart _)

/-- **The strings of a container are shorter than the string that it is the text of.** -/
theorem length_lt_of_containerIn {s : String} {v : Json} (h : containerIn s = some v) :
    ∀ t ∈ v.strings, t.length < s.length := by
  obtain ⟨hread, -⟩ := Option.filter_eq_some_iff.1 h
  obtain ⟨d, hd, hv⟩ := Option.bind_eq_some_iff.1 hread
  intro t ht
  have hshort := Document.length_lt_of_read hd t (Document.strings_of_valueWithin hv t ht)
  exact Nat.lt_of_lt_of_le hshort (length_trim s)

/-! ### Replacing strings -/

section
variable {S : Type} {f g : String → Timed S Json}

mutual

/-- Only what becomes of the strings of a value makes a difference. -/
theorem eachString_congr (v : Json) (h : ∀ s ∈ v.strings, f s = g s) :
    v.eachString f = v.eachString g := by
  match v with
  | .null => rfl
  | .bool _ => rfl
  | .number _ => rfl
  | .string s => exact h s (List.mem_singleton_self s)
  | .array items =>
    rw [eachString, eachString, eachStringOfItems_congr items h]
  | .object entries =>
    rw [eachString, eachString, eachStringOfEntries_congr entries h]

theorem eachStringOfItems_congr (vs : List Json) (h : ∀ s ∈ stringsOfItems vs, f s = g s) :
    eachStringOfItems f vs = eachStringOfItems g vs := by
  match vs with
  | [] => rfl
  | v :: vs =>
    obtain ⟨hv, hvs⟩ := List.forall_mem_append.1 h
    rw [eachStringOfItems, eachStringOfItems, eachString_congr v hv, eachStringOfItems_congr vs hvs]

theorem eachStringOfEntries_congr (vs : List (String × Json))
    (h : ∀ s ∈ stringsOfEntries vs, f s = g s) :
    eachStringOfEntries f vs = eachStringOfEntries g vs := by
  match vs with
  | [] => rfl
  | (k, v) :: vs =>
    obtain ⟨hv, hvs⟩ := List.forall_mem_append.1 h
    rw [eachStringOfEntries, eachStringOfEntries, eachString_congr v hv,
      eachStringOfEntries_congr vs hvs]

end

end

end Json

end TagTemplate
