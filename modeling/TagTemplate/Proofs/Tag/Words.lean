import TagTemplate.Proofs.Tag.Spelling
import TagTemplate.Proofs.Vocabulary

/-! A tag that is written is found there.

For plain words the recognition of tags has no surprises. A tag whose name spells one of
the words, whose annotation has neither a closing bracket nor a line break, and behind
which the word cannot go on, is found as that very tag: `tagAt_spelling`. And a dollar
sign before anything that `Stops` it begins no tag at all. -/
namespace TagTemplate.Tag
variable {words : List (List Char)}

/-- Whether a name spells one of the words. -/
def Spells (words : List (List Char)) (name : List Char) : Prop :=
  name.map Text.lowerChar ∈ words

/-- The characters that escapes, tags, the ends of arguments and most operators begin
with. -/
def stoppers : List Char := ['\\', '$', ';', ']', '=', '<', '>']

/-- What may follow a literal character or a call: an escape, a tag, the end of an
argument or an operator. -/
inductive Stops : List Char → Prop
  | nil : Stops []
  | single {c cs} (h : c ∈ stoppers) : Stops (c :: cs)
  | differs {cs} : Stops ('!' :: '=' :: cs)

theorem Stops.bars {rest : List Char} (h : Stops rest) : ∀ c ∈ rest.head?, Text.Bars c := by
  cases h with
  | nil => exact nofun
  | @single c cs h =>
    have hall : stoppers.all fun c => !Text.isPlain (Text.fold c) := by decide
    rintro _ ⟨⟩
    have hc := List.all_eq_true.1 hall c h
    rwa [Bool.not_eq_true'] at hc
  | differs =>
    rintro _ ⟨⟩
    rfl

/-! ### Marks that are not there -/

theorem afterMarks_of_ne {negated silent : Bool} {c : Char} {cs : List Char} (h : c ≠ '@') :
    afterMarks words negated silent (c :: cs) =
      (wordAt words (c :: cs)).map fun name => ⟨negated, silent, none, name⟩ := by
  unfold afterMarks
  split
  · rename_i heq
    cases heq
    exact absurd rfl h
  · rfl

theorem afterNegation_of_ne {negated : Bool} {c : Char} {cs : List Char} (h : c ≠ '#') :
    afterNegation words negated (c :: cs) = afterMarks words negated false (c :: cs) := by
  unfold afterNegation
  split
  · rename_i heq
    cases heq
    exact absurd rfl h
  · rfl

theorem afterDollar_of_ne {c : Char} {cs : List Char} (h : c ≠ '!') :
    afterDollar words (c :: cs) = afterNegation words false (c :: cs) := by
  unfold afterDollar
  split
  · rename_i heq
    cases heq
    exact absurd rfl h
  · rfl

/-- Of the words that could be read, one that is read is the longest. -/
theorem length_le_of_first (hw : Vocabulary.LongestFirst words) {cs spelled other : List Char}
    (hfirst : words.findSome? (fun word => Text.spelledAs word cs) = some spelled)
    {word : List Char} (hmem : word ∈ words) (hword : Text.spelledAs word cs = some other) :
    word.length ≤ spelled.length := by
  obtain ⟨before, first, after, rfl, hspelled, hbefore⟩ := List.findSome?_eq_some_iff.1 hfirst
  rw [Text.length_of_spelledAs hspelled]
  rcases List.mem_append.1 hmem with hmem | hmem
  · rw [hbefore _ hmem] at hword
    cases hword
  · rcases List.mem_cons.1 hmem with rfl | hmem
    · exact Nat.le_refl _
    · have hpair := (List.pairwise_append.1 hw).2.1
      exact (List.pairwise_cons.1 hpair).1 _ hmem

/-- A tag that is found is written for one of the words. -/
theorem exists_word_of_tagAt {cs : List Char} {t : Tag} (h : tagAt words cs = some t) :
    ∃ word ∈ words, Text.SameWord word t.name.toList := by
  obtain ⟨rest, -, hname⟩ := tagAt_eq_append h
  obtain ⟨spelled, hspelled, hname⟩ := Option.map_eq_some_iff.1 hname
  obtain ⟨word, hword, hspelled⟩ := List.exists_of_findSome?_eq_some hspelled
  rw [← hname, String.toList_ofList]
  exact ⟨word, hword, Text.sameWord_of_spelledAs hspelled⟩

section Plain
variable (hw : Vocabulary.PlainWords words)
include hw

/-- Of the words that could be read, the one that is written is read. -/
theorem wordAt_append {name rest : List Char} (hn : Spells words name)
    (hr : ∀ c ∈ rest.head?, Text.Bars c) :
    wordAt words (name ++ rest) = some (String.ofList name) := by
  have hplain := (hw.plain _ hn).2
  have hname := Text.spelledAs_of_map_lowerChar hplain rfl rest
  cases hfind : words.findSome? fun word => Text.spelledAs word (name ++ rest) with
  | none =>
    rw [List.findSome?_eq_none_iff.1 hfind _ hn] at hname
    cases hname
  | some spelled =>
    have hlong := length_le_of_first hw.ordered hfind hn hname
    obtain ⟨word, hword, hspelled⟩ := List.exists_of_findSome?_eq_some hfind
    have hshort := Text.length_le_of_spelledAs (hw.plain word hword).2 hr hspelled
    rw [← Text.length_of_spelledAs hspelled] at hshort
    obtain ⟨rest', happend⟩ := Text.spelledAs_eq_append hspelled
    rw [List.length_map] at hlong
    obtain ⟨hsame, -⟩ := List.append_inj happend (Nat.le_antisymm hlong hshort)
    rw [wordAt, hfind, hsame]
    rfl

/-- No word begins where one is barred. -/
theorem wordAt_of_bars {cs : List Char} (h : ∀ c ∈ cs.head?, Text.Bars c) :
    wordAt words cs = none := by
  rw [wordAt, Option.map_eq_none_iff, List.findSome?_eq_none_iff]
  intro word hword
  obtain ⟨hne, hplain⟩ := hw.plain word hword
  cases hs : Text.spelledAs word ([] ++ cs) with
  | none => exact hs
  | some spelled =>
    have hle := Text.length_le_of_spelledAs hplain h hs
    exact absurd (List.length_eq_zero_iff.1 (Nat.le_zero.1 hle)) hne

/-- The first character of a name is none of the marks of a tag. -/
theorem Spells.head {name : List Char} (hn : Spells words name) :
    ∃ c cs, name = c :: cs ∧ c ≠ '!' ∧ c ≠ '#' ∧ c ≠ '@' := by
  obtain ⟨hne, hplain⟩ := hw.plain _ hn
  cases name with
  | nil => exact absurd rfl hne
  | cons c cs =>
    have hc := hplain _ List.mem_cons_self
    refine ⟨c, cs, rfl, ?_, ?_, ?_⟩ <;> rintro rfl <;> exact absurd hc (by decide)

theorem countedWord_append {count name rest : List Char} (hn : Spells words name)
    (hr : ∀ c ∈ rest.head?, Text.Bars c) (hc : ∀ c ∈ count, c ≠ ']' ∧ c ≠ '\n') :
    countedWord words (count ++ ']' :: (name ++ rest)) = some (count, String.ofList name) := by
  induction count with
  | nil => simp [countedWord, wordAt_append hw hn hr]
  | cons c count ih =>
    obtain ⟨hc, hcount⟩ := List.forall_mem_cons.1 hc
    simp [countedWord, hc.1, hc.2, ih hcount]

theorem afterMarks_append {negated silent : Bool} {count : Option String} {name rest : List Char}
    (hn : Spells words name) (hr : ∀ c ∈ rest.head?, Text.Bars c)
    (hc : ∀ s, count = some s → ∀ c ∈ s.toList, c ≠ ']' ∧ c ≠ '\n') :
    afterMarks words negated silent (spellCount count ++ (name ++ rest)) =
      some ⟨negated, silent, count, String.ofList name⟩ := by
  cases count with
  | none =>
    obtain ⟨c, cs, rfl, -, -, hat⟩ := hn.head hw
    have hword := wordAt_append hw hn hr
    rw [List.cons_append] at hword
    rw [spellCount, List.nil_append, List.cons_append, afterMarks_of_ne hat, hword]
    rfl
  | some count =>
    have hcount := countedWord_append hw hn hr (hc count rfl)
    simp [spellCount, afterMarks, hcount]

theorem afterNegation_append {negated silent : Bool} {count : Option String} {name rest : List Char}
    (hn : Spells words name) (hr : ∀ c ∈ rest.head?, Text.Bars c)
    (hc : ∀ s, count = some s → ∀ c ∈ s.toList, c ≠ ']' ∧ c ≠ '\n') :
    afterNegation words negated
        ((if silent then ['#'] else []) ++ (spellCount count ++ (name ++ rest))) =
      some ⟨negated, silent, count, String.ofList name⟩ := by
  have hmarks : afterMarks words negated silent (spellCount count ++ (name ++ rest)) = _ :=
    afterMarks_append hw hn hr hc
  cases silent with
  | true => simp [afterNegation, hmarks]
  | false =>
    obtain ⟨c, cs, heq, hhash⟩ :
        ∃ c cs, spellCount count ++ (name ++ rest) = c :: cs ∧ c ≠ '#' := by
      cases count with
      | none =>
        obtain ⟨c, cs, rfl, -, hhash, -⟩ := hn.head hw
        exact ⟨c, cs ++ rest, rfl, hhash⟩
      | some count => exact ⟨'@', _, rfl, by decide⟩
    rw [heq] at hmarks ⊢
    exact (afterNegation_of_ne hhash).trans hmarks

/-- **A tag that is written is found there.** -/
theorem tagAt_spelling {t : Tag} {rest : List Char} (hn : Spells words t.name.toList)
    (hc : ∀ s, t.count = some s → ∀ c ∈ s.toList, c ≠ ']' ∧ c ≠ '\n')
    (hr : ∀ c ∈ rest.head?, Text.Bars c) : tagAt words (t.spelling ++ rest) = some t := by
  obtain ⟨negated, silent, count, name⟩ := t
  have hafter : afterNegation words negated
      ((if silent then ['#'] else []) ++ (spellCount count ++ (name.toList ++ rest))) = _ :=
    afterNegation_append hw hn hr hc
  rw [String.ofList_toList] at hafter
  cases negated with
  | true => simp [spelling, tagAt, afterDollar, hafter]
  | false =>
    obtain ⟨c, cs, heq, hbang⟩ : ∃ c cs, (if silent then ['#'] else []) ++
        (spellCount count ++ (name.toList ++ rest)) = c :: cs ∧ c ≠ '!' := by
      cases silent with
      | true => exact ⟨'#', _, rfl, by decide⟩
      | false =>
        cases count with
        | none =>
          obtain ⟨c, cs, hname, hbang, -, -⟩ := Spells.head hw hn
          exact ⟨c, cs ++ rest, congrArg (· ++ rest) hname, hbang⟩
        | some count => exact ⟨'@', _, rfl, by decide⟩
    have hspelling : spelling ⟨false, silent, count, name⟩ ++ rest = '$' :: c :: cs := by
      rw [← heq]
      simp [spelling]
    rw [heq] at hafter
    rw [hspelling]
    exact (afterDollar_of_ne hbang).trans hafter

/-- **A dollar sign that is stopped begins no tag.** -/
theorem tagAt_of_stops {rest : List Char} (h : Stops rest) : tagAt words ('$' :: rest) = none := by
  have hbare {c : Char} {cs : List Char} {negated : Bool} (hc : Text.isPlain (Text.fold c) = false)
      (hhash : c ≠ '#') (hat : c ≠ '@') : afterNegation words negated (c :: cs) = none := by
    have hword : wordAt words (c :: cs) = none := by
      refine wordAt_of_bars hw ?_
      rintro _ ⟨⟩
      exact hc
    rw [afterNegation_of_ne hhash, afterMarks_of_ne hat, hword]
    rfl
  cases h with
  | nil =>
    have hword : wordAt words [] = none := wordAt_of_bars hw nofun
    simp [tagAt, afterDollar, afterNegation, afterMarks, hword]
  | @single c cs h =>
    have hstops : Stops (c :: cs) := .single h
    have hbar := hstops.bars c rfl
    have hmarks : stoppers.all fun c => c ≠ '!' ∧ c ≠ '#' ∧ c ≠ '@' := by decide
    obtain ⟨hbang, hhash, hat⟩ := of_decide_eq_true (List.all_eq_true.1 hmarks c h)
    rw [tagAt, afterDollar_of_ne hbang, hbare hbar hhash hat]
  | differs =>
    have heq {cs : List Char} {negated : Bool} : afterNegation words negated ('=' :: cs) = none :=
      hbare rfl (by decide) (by decide)
    have hbang {cs : List Char} {negated : Bool} : afterNegation words negated ('!' :: cs) = none :=
      hbare rfl (by decide) (by decide)
    simp [tagAt, afterDollar, heq, hbang]

end Plain

end TagTemplate.Tag
