import TagTemplate.Proofs.Tag.Words
import TagTemplate.Proofs.Text.LetterCase

/-! Tags in a text in lower case.

Whatever the words are, a text whose ASCII letters are lowered has the same tags at the same
places, lowered with it: `tagAt_map_toLower` and `marksFrom_map`. Each stage of the recognition of
a tag has one lemma, and none of the marks of a tag is a letter. -/
namespace TagTemplate.Tag
variable {words : List (List Char)}

/-- A tag with the ASCII letters of its annotation and of its name in lower case. -/
def lowered (t : Tag) : Tag :=
  { t with count := t.count.map Text.lowerAscii, name := Text.lowerAscii t.name }

theorem spellCount_lowered (count : Option String) :
    spellCount (count.map Text.lowerAscii) = (spellCount count).map Char.toLower := by
  cases count with
  | none => rfl
  | some count => simp [spellCount, Text.lowerAscii]

theorem spelling_lowered (t : Tag) : t.lowered.spelling = t.spelling.map Char.toLower := by
  obtain ⟨negated, silent, count, name⟩ := t
  rw [lowered, spelling, spelling, spellCount_lowered]
  cases negated <;> cases silent <;> simp [Text.lowerAscii]

theorem width_lowered (t : Tag) : t.lowered.width = t.width := by
  rw [width, spelling_lowered, List.length_map, width]

/-! ### Recognition -/

theorem wordAt_map_toLower (cs : List Char) :
    wordAt words (cs.map Char.toLower) = (wordAt words cs).map Text.lowerAscii := by
  have hfind : (words.findSome? fun word => Text.spelledAs word (cs.map Char.toLower)) =
      (words.findSome? fun word => Text.spelledAs word cs).map (List.map Char.toLower) := by
    rw [List.map_findSome?]
    congr 1
    funext word
    exact Text.spelledAs_map_toLower word cs
  rw [wordAt, hfind, wordAt, Option.map_map, Option.map_map]
  congr 1
  funext spelled
  simp [Text.lowerAscii]

theorem countedWord_map_toLower (cs : List Char) :
    countedWord words (cs.map Char.toLower) =
      (countedWord words cs).map fun (count, name) =>
        (count.map Char.toLower, Text.lowerAscii name) := by
  induction cs with
  | nil => rfl
  | cons c cs ih =>
    have hbreak : (c.toLower == '\n') = (c == '\n') := by
      rw [Bool.eq_iff_iff, beq_iff_eq, beq_iff_eq, Text.toLower_eq_iff rfl]
    have hclose : (c.toLower == ']') = (c == ']') := by
      rw [Bool.eq_iff_iff, beq_iff_eq, beq_iff_eq, Text.toLower_eq_iff rfl]
    rw [List.map_cons, countedWord, hbreak, hclose, ih, wordAt_map_toLower, countedWord]
    by_cases hb : c = ']'
    · subst hb
      cases wordAt words cs with
      | some name => rfl
      | none => simp [Option.map_map, Function.comp_def]
    · by_cases hn : c = '\n'
      · simp [hn]
      · simp [hb, hn, Option.map_map, Function.comp_def]

/-- The first of two readings in lower case is the first of the readings, in lower case. -/
theorem map_or_lowered {first second first' second' : Option Tag}
    (h : first' = first.map lowered) (h' : second' = second.map lowered) :
    first'.or second' = (first.or second).map lowered := by
  rw [h, h', Option.map_or]

/-- Without an annotation the word comes next. -/
theorem afterMarks_of_unannotated {negated silent : Bool} {cs : List Char}
    (h : ∀ rest, cs ≠ '@' :: '[' :: rest) :
    afterMarks words negated silent cs =
      (wordAt words cs).map fun name => ⟨negated, silent, none, name⟩ := by
  unfold afterMarks
  split
  · exact absurd rfl (h _)
  · rfl

theorem afterMarks_map_toLower {negated silent : Bool} (cs : List Char) :
    afterMarks words negated silent (cs.map Char.toLower) =
      (afterMarks words negated silent cs).map lowered := by
  have hbare (cs : List Char) :
      (wordAt words (cs.map Char.toLower)).map (fun name => (⟨negated, silent, none, name⟩ : Tag)) =
        ((wordAt words cs).map fun name => ⟨negated, silent, none, name⟩).map lowered := by
    rw [wordAt_map_toLower, Option.map_map, Option.map_map]
    rfl
  by_cases h : ∃ rest, cs = '@' :: '[' :: rest
  · obtain ⟨rest, rfl⟩ := h
    have hlower : ('@' :: '[' :: rest).map Char.toLower = '@' :: '[' :: rest.map Char.toLower := rfl
    rw [hlower, afterMarks, afterMarks, countedWord_map_toLower]
    cases countedWord words rest with
    | none => exact hbare ('@' :: '[' :: rest)
    | some counted => simp [lowered, Text.lowerAscii]
  · have hlower : ∀ rest, cs.map Char.toLower ≠ '@' :: '[' :: rest := by
      intro rest heq
      obtain ⟨c, cs, rfl, hc, heq⟩ := List.map_eq_cons_iff.1 heq
      obtain ⟨d, cs, rfl, hd, -⟩ := List.map_eq_cons_iff.1 heq
      rw [Text.toLower_eq_iff rfl] at hc hd
      exact h ⟨cs, by rw [hc, hd]⟩
    rw [afterMarks_of_unannotated hlower, afterMarks_of_unannotated fun rest heq => h ⟨rest, heq⟩]
    exact hbare cs

theorem afterNegation_map_toLower {negated : Bool} (cs : List Char) :
    afterNegation words negated (cs.map Char.toLower) =
      (afterNegation words negated cs).map lowered := by
  cases cs with
  | nil => exact afterMarks_map_toLower []
  | cons c cs =>
    by_cases hc : c = '#'
    · subst hc
      exact map_or_lowered (afterMarks_map_toLower cs) (afterMarks_map_toLower ('#' :: cs))
    · have hlower : c.toLower ≠ '#' := fun h => hc ((Text.toLower_eq_iff rfl).1 h)
      rw [afterNegation_of_ne hc, List.map_cons, afterNegation_of_ne hlower]
      exact afterMarks_map_toLower (c :: cs)

theorem afterDollar_map_toLower (cs : List Char) :
    afterDollar words (cs.map Char.toLower) = (afterDollar words cs).map lowered := by
  cases cs with
  | nil => exact afterNegation_map_toLower []
  | cons c cs =>
    by_cases hc : c = '!'
    · subst hc
      exact map_or_lowered (afterNegation_map_toLower cs) (afterNegation_map_toLower ('!' :: cs))
    · have hlower : c.toLower ≠ '!' := fun h => hc ((Text.toLower_eq_iff rfl).1 h)
      rw [afterDollar_of_ne hc, List.map_cons, afterDollar_of_ne hlower]
      exact afterNegation_map_toLower (c :: cs)

/-- **A text in lower case begins with the tag that the text begins with**, in lower case. -/
theorem tagAt_map_toLower (cs : List Char) :
    tagAt words (cs.map Char.toLower) = (tagAt words cs).map lowered := by
  cases cs with
  | nil => rfl
  | cons c cs =>
    by_cases hc : c = '$'
    · subst hc
      exact afterDollar_map_toLower cs
    · have hlower : c.toLower ≠ '$' := fun h => hc ((Text.toLower_eq_iff rfl).1 h)
      rw [List.map_cons, tagAt_of_ne _ hlower, tagAt_of_ne _ hc]
      rfl

/-! ### Marks -/

/-- Where a rule finds in mapped characters what it finds in the characters, mapped, and as wide,
the same places are marked. -/
theorem marksFrom_map {α : Type} {rule : List Char → Option α} {width : α → Nat} {f : Char → Char}
    {g : α → α} (hrule : ∀ cs, rule (cs.map f) = (rule cs).map g)
    (hwidth : ∀ a, width (g a) = width a) (skip : Nat) (cs : List Char) :
    marksFrom rule width skip (cs.map f) =
      (marksFrom rule width skip cs).map fun mark => (f mark.1, mark.2.map g) := by
  induction cs generalizing skip with
  | nil => cases skip <;> rfl
  | cons c cs ih =>
    cases skip with
    | succ skip => rw [List.map_cons, marksFrom, marksFrom, ih, List.map_cons, Option.map_none]
    | zero =>
      have hfirst := hrule (c :: cs)
      rw [List.map_cons] at hfirst
      rw [List.map_cons, marksFrom, marksFrom, hfirst]
      cases rule (c :: cs) with
      | none => rw [Option.map_none]; simp only [ih, List.map_cons, Option.map_none]
      | some found => rw [Option.map_some]; simp only [ih, hwidth, List.map_cons, Option.map_some]

end TagTemplate.Tag
