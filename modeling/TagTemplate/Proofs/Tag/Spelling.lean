import TagTemplate.Tag.Pattern

/-! A tag that is found is written there.

Whatever the words are, a tag that `tagAt` finds at the start of a text is spelled at the
start of that text, character by character: `tagAt_eq_append`. Each stage of the
recognition adds its own piece, so each has one lemma, and the last piece is a word as
`wordAt` reads it. -/
namespace TagTemplate

theorem Text.spelledAs_eq_append {word cs spelled : List Char}
    (h : spelledAs word cs = some spelled) : ∃ rest, cs = spelled ++ rest := by
  induction word generalizing cs spelled with
  | nil =>
    cases h
    exact ⟨cs, rfl⟩
  | cons w word ih =>
    cases cs with
    | nil => cases h
    | cons c cs =>
      simp only [spelledAs] at h
      split at h
      · obtain ⟨spelled, hs, rfl⟩ := Option.map_eq_some_iff.1 h
        obtain ⟨rest, rfl⟩ := ih hs
        exact ⟨rest, rfl⟩
      · cases h

namespace Tag
variable {words : List (List Char)}

/-- The word at the start of a text is written there. -/
theorem wordAt_eq_append {cs : List Char} {name : String} (h : wordAt words cs = some name) :
    ∃ rest, cs = name.toList ++ rest ∧ wordAt words (name.toList ++ rest) = some name := by
  obtain ⟨spelled, hs, rfl⟩ := Option.map_eq_some_iff.1 h
  obtain ⟨word, -, hw⟩ := List.exists_of_findSome?_eq_some hs
  obtain ⟨rest, rfl⟩ := Text.spelledAs_eq_append hw
  exact ⟨rest, by rw [String.toList_ofList], by rw [String.toList_ofList, h]⟩

theorem countedWord_eq_append {cs count : List Char} {name : String}
    (h : countedWord words cs = some (count, name)) :
    ∃ rest, cs = count ++ ']' :: (name.toList ++ rest) ∧
      wordAt words (name.toList ++ rest) = some name := by
  induction cs generalizing count with
  | nil => cases h
  | cons c cs ih =>
    have hlater : ∀ {count : List Char},
        (if (c == '\n') = true then none
          else (countedWord words cs).map fun p => (c :: p.1, p.2)) = some (count, name) →
        ∃ rest, c :: cs = count ++ ']' :: (name.toList ++ rest) ∧
          wordAt words (name.toList ++ rest) = some name := by
      intro count h
      split at h
      · cases h
      · obtain ⟨⟨count, name⟩, hc, h⟩ := Option.map_eq_some_iff.1 h
        cases h
        obtain ⟨rest, rfl, hword⟩ := ih hc
        exact ⟨rest, rfl, hword⟩
    simp only [countedWord] at h
    split at h
    · rename_i hc
      split at h
      · rename_i name' hn
        cases h
        obtain ⟨rest, rfl, hword⟩ := wordAt_eq_append hn
        exact ⟨rest, by rw [eq_of_beq hc]; rfl, hword⟩
      · exact hlater h
    · exact hlater h

theorem afterMarks_eq_append {negated silent : Bool} {cs : List Char} {t : Tag}
    (h : afterMarks words negated silent cs = some t) :
    t.negated = negated ∧ t.silent = silent ∧
      ∃ rest, cs = spellCount t.count ++ t.name.toList ++ rest ∧
        wordAt words (t.name.toList ++ rest) = some t.name := by
  have hbare : ∀ {cs : List Char},
      ((wordAt words cs).map fun name => (⟨negated, silent, none, name⟩ : Tag)) = some t →
      t.negated = negated ∧ t.silent = silent ∧
        ∃ rest, cs = spellCount t.count ++ t.name.toList ++ rest ∧
          wordAt words (t.name.toList ++ rest) = some t.name := by
    intro cs h
    obtain ⟨name, hn, rfl⟩ := Option.map_eq_some_iff.1 h
    obtain ⟨rest, rfl, hword⟩ := wordAt_eq_append hn
    exact ⟨rfl, rfl, rest, rfl, hword⟩
  unfold afterMarks at h
  dsimp only at h
  split at h
  · split at h
    · rename_i count name hc
      cases h
      obtain ⟨rest, rfl, hword⟩ := countedWord_eq_append hc
      exact ⟨rfl, rfl, rest, by simp [spellCount], hword⟩
    · exact hbare h
  · exact hbare h

theorem afterNegation_eq_append {negated : Bool} {cs : List Char} {t : Tag}
    (h : afterNegation words negated cs = some t) :
    t.negated = negated ∧
      ∃ rest, cs =
          (if t.silent then ['#'] else []) ++ spellCount t.count ++ t.name.toList ++ rest ∧
        wordAt words (t.name.toList ++ rest) = some t.name := by
  have hplain : ∀ {cs : List Char}, afterMarks words negated false cs = some t →
      t.negated = negated ∧ ∃ rest,
        cs = (if t.silent then ['#'] else []) ++ spellCount t.count ++ t.name.toList ++ rest ∧
          wordAt words (t.name.toList ++ rest) = some t.name := by
    intro cs h
    obtain ⟨hn, hs, rest, rfl, hword⟩ := afterMarks_eq_append h
    exact ⟨hn, rest, by simp [hs], hword⟩
  unfold afterNegation at h
  split at h
  · rcases Option.or_eq_some_iff.1 h with h | ⟨-, h⟩
    · obtain ⟨hn, hs, rest, rfl, hword⟩ := afterMarks_eq_append h
      exact ⟨hn, rest, by simp [hs], hword⟩
    · exact hplain h
  · exact hplain h

/-- **A tag that is found at the start of a text is written there**, and its name is the
word that is read behind its marks. -/
theorem tagAt_eq_append {cs : List Char} {t : Tag} (h : tagAt words cs = some t) :
    ∃ rest, cs = t.spelling ++ rest ∧ wordAt words (t.name.toList ++ rest) = some t.name := by
  unfold tagAt at h
  split at h
  · rename_i cs
    have hplain : afterNegation words false cs = some t →
        ∃ rest, '$' :: cs = t.spelling ++ rest ∧
          wordAt words (t.name.toList ++ rest) = some t.name := by
      intro h
      obtain ⟨hn, rest, rfl, hword⟩ := afterNegation_eq_append h
      exact ⟨rest, by simp [spelling, hn], hword⟩
    unfold afterDollar at h
    split at h
    · rcases Option.or_eq_some_iff.1 h with h | ⟨-, h⟩
      · obtain ⟨hn, rest, rfl, hword⟩ := afterNegation_eq_append h
        exact ⟨rest, by simp [spelling, hn], hword⟩
      · exact hplain h
    · exact hplain h
  · cases h

/-- The marks of a tag: what is written of it before its name. -/
def marksSpelling (t : Tag) : List Char :=
  '$' :: ((if t.negated then ['!'] else []) ++ (if t.silent then ['#'] else []) ++
    spellCount t.count)

theorem spelling_eq (t : Tag) : t.spelling = t.marksSpelling ++ t.name.toList := rfl

theorem width_pos (t : Tag) : 0 < t.width := Nat.succ_pos _

/-- A text that begins with a tag is longer than what follows the tag. -/
theorem length_le_of_spelling {t : Tag} {c : Char} {cs rest : List Char}
    (h : c :: cs = t.spelling ++ rest) : rest.length ≤ cs.length := by
  have hlength := congrArg List.length h
  have hpos : 0 < t.spelling.length := t.width_pos
  rw [List.length_append, List.length_cons] at hlength
  omega

/-- A tag begins with its dollar sign. -/
theorem tagAt_of_ne {c : Char} (cs : List Char) (h : c ≠ '$') : tagAt words (c :: cs) = none := by
  unfold tagAt
  split
  · rename_i h'
    cases h'
    exact absurd rfl h
  · rfl

/-- The marked characters of a text are its characters. -/
theorem map_fst_tagMarks (words : List (List Char)) (cs : List Char) :
    (tagMarks words cs).map (·.1) = cs :=
  map_fst_marksFrom _ _ _ _

/-- A match that is marked is one of the text from there on. -/
theorem rule_of_getElem?_marksFrom {α : Type} {rule : List Char → Option α} {width : α → Nat}
    {skip : Nat} {cs : List Char} {index : Nat} {c : Char} {found : α}
    (h : (marksFrom rule width skip cs)[index]? = some (c, some found)) :
    rule (cs.drop index) = some found := by
  induction cs generalizing skip index with
  | nil => cases skip <;> cases h
  | cons d cs ih =>
    match skip, index with
    | skip + 1, 0 => cases h
    | skip + 1, index + 1 => exact ih h
    | 0, 0 =>
      rw [marksFrom] at h
      split at h
      · rename_i first hfirst
        cases h
        exact hfirst
      · cases h
    | 0, index + 1 =>
      rw [marksFrom] at h
      split at h
      · exact ih h
      · exact ih h

end Tag

end TagTemplate
