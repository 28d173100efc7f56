import TagTemplate.Proofs.Program.Spelling
import TagTemplate.Proofs.Tag.Positions

/-! Tokens by position.

A text is read from its first character on, and the tokens that are left are those of the text from
some character on: `Token.scanFrom`. What the first of them is can be told from the characters and
the placed tags alone, and behind it are the tokens from a later character on. -/
namespace TagTemplate

namespace Tag
variable {words : List (List Char)} {cs : List Char}

theorem marksFrom_cons {α : Type} (rule : List Char → Option α) (width : α → Nat) (skip : Nat)
    (c : Char) (cs : List Char) :
    ∃ mark later,
      marksFrom rule width skip (c :: cs) = (c, mark) :: marksFrom rule width later cs := by
  cases skip with
  | succ skip => exact ⟨none, skip, rfl⟩
  | zero =>
    rw [marksFrom]
    split
    · exact ⟨_, _, rfl⟩
    · exact ⟨_, _, rfl⟩

/-- Marks of a text from some character on are marks of the text from there on. -/
theorem drop_marksFrom {α : Type} (rule : List Char → Option α) (width : α → Nat) (skip index : Nat)
    (cs : List Char) : ∃ later,
      (marksFrom rule width skip cs).drop index = marksFrom rule width later (cs.drop index) := by
  induction index generalizing skip cs with
  | zero => exact ⟨skip, rfl⟩
  | succ index ih =>
    cases cs with
    | nil => exact ⟨0, by cases skip <;> rfl⟩
    | cons c cs =>
      obtain ⟨mark, later, hmarks⟩ := marksFrom_cons rule width skip c cs
      obtain ⟨later', hlater⟩ := ih later cs
      exact ⟨later', by rw [hmarks, List.drop_succ_cons, hlater, List.drop_succ_cons]⟩

/-- A character of a text and its mark come first among the marks from there on. -/
theorem drop_tagMarks (words : List (List Char)) {index : Nat} {c : Char}
    (hc : cs[index]? = some c) :
    ∃ mark, (tagMarks words cs)[index]? = some (c, mark) ∧
      (tagMarks words cs).drop index = (c, mark) :: (tagMarks words cs).drop (index + 1) := by
  rw [← map_fst_tagMarks words cs, List.getElem?_map, Option.map_eq_some_iff] at hc
  obtain ⟨⟨c, mark⟩, hmark, rfl⟩ := hc
  obtain ⟨hlt, hget⟩ := List.getElem?_eq_some_iff.1 hmark
  exact ⟨mark, hmark, by rw [List.drop_eq_getElem_cons hlt, hget]⟩

/-- Behind the text nothing is marked. -/
theorem drop_tagMarks_of_none {index : Nat} (h : cs[index]? = none) :
    (tagMarks words cs).drop index = [] := by
  rw [← map_fst_tagMarks words cs, List.getElem?_map, Option.map_eq_none_iff,
    List.getElem?_eq_none_iff] at h
  exact List.drop_eq_nil_of_le h

end Tag

namespace Token
variable (words : List (List Char)) (cs : List Char)

/-- The tokens of a text from a character on. -/
def scanFrom (index : Nat) : List Token := ofMarks 0 index ((Tag.tagMarks words cs).drop index)

theorem scanFrom_zero : scanFrom words cs 0 = scan words cs := rfl

variable {words cs} {index : Nat}

/-- No token is left behind the text. -/
theorem scanFrom_nil (h : cs[index]? = none) : scanFrom words cs index = [] := by
  rw [scanFrom, Tag.drop_tagMarks_of_none h, ofMarks_nil]

theorem scanFrom_tag {p : Tag.Placed} (hp : p ∈ Tag.places words cs) :
    scanFrom words cs p.start = .tag p.start p.tag :: scanFrom words cs p.stop := by
  obtain ⟨c, hmark, hstop⟩ := Tag.mem_places_iff.1 hp
  obtain ⟨hlt, hget⟩ := List.getElem?_eq_some_iff.1 hmark
  have hnext : p.start + 1 + (p.tag.width - 1) = p.stop := by
    have hpos := p.tag.width_pos
    omega
  rw [scanFrom, List.drop_eq_getElem_cons hlt, hget, ofMarks_some, ofMarks_eq_drop, List.drop_drop,
    hnext, scanFrom]

/-- A character at which no tag is placed is a token of its own, unless it is a backslash with a
character behind it. -/
theorem scanFrom_char (words : List (List Char)) {c : Char} (hc : cs[index]? = some c)
    (hplain : ∀ p ∈ Tag.places words cs, p.start ≠ index)
    (hback : c = '\\' → cs[index + 1]? = none) :
    scanFrom words cs index = .char c :: scanFrom words cs (index + 1) := by
  obtain ⟨mark, hmark, hdrop⟩ := Tag.drop_tagMarks words hc
  cases mark with
  | some tag =>
    exact absurd rfl (hplain ⟨index, index + tag.width, tag⟩ (Tag.mem_places_iff.2 ⟨c, hmark, rfl⟩))
  | none =>
    by_cases h : c = '\\'
    · rw [scanFrom_nil (hback h), scanFrom, hdrop, Tag.drop_tagMarks_of_none (hback h), h]
      exact ofMarks_backslash index
    · rw [scanFrom, hdrop, ofMarks_char h, scanFrom]

/-- A backslash takes the character behind it. -/
theorem scanFrom_escape (words : List (List Char)) {d : Char}
    (hback : cs[index]? = some '\\') (hd : cs[index + 1]? = some d) :
    ∃ hidden, scanFrom words cs index = .escape hidden d :: scanFrom words cs (index + 2) := by
  obtain ⟨mark, hmark, hdrop⟩ := Tag.drop_tagMarks words hback
  obtain ⟨inner, -, hinner⟩ := Tag.drop_tagMarks words hd
  have hnone : mark = none := by
    cases mark with
    | none => rfl
    | some tag =>
      have hdollar := (Tag.stop_of_mem_places (p := ⟨index, index + tag.width, tag⟩)
        (Tag.mem_places_iff.2 ⟨'\\', hmark, rfl⟩)).1
      rw [hback] at hdollar
      cases hdollar
  refine ⟨inner.isSome, ?_⟩
  rw [scanFrom, hdrop, hinner, hnone, ofMarks_escape, ofMarks_succ, ofMarks_eq_drop]
  rfl

/-- A character that is neither a dollar sign nor a backslash is a token of its own. -/
theorem scanFrom_plain (words : List (List Char)) {c : Char} (hc : cs[index]? = some c)
    (hdollar : c ≠ '$') (hback : c ≠ '\\') :
    scanFrom words cs index = .char c :: scanFrom words cs (index + 1) := by
  refine scanFrom_char words hc (fun p hp hstart => ?_) fun h => absurd h hback
  have hfirst := (Tag.stop_of_mem_places hp).1
  rw [hstart, hc] at hfirst
  exact hdollar (Option.some.inj hfirst)

/-- Behind a character that is a token of its own, the tokens are those from the next one on. -/
theorem eq_scanFrom_of_char {c : Char} {ts : List Token}
    (h : scanFrom words cs index = .char c :: ts) : ts = scanFrom words cs (index + 1) := by
  cases hc : cs[index]? with
  | none =>
    rw [scanFrom_nil hc] at h
    cases h
  | some d =>
    by_cases hplain : ∀ p ∈ Tag.places words cs, p.start ≠ index
    · by_cases hback : d = '\\' → cs[index + 1]? = none
      · rw [scanFrom_char words hc hplain hback] at h
        exact (List.cons.inj h).2.symm
      · simp only [Classical.not_imp] at hback
        obtain ⟨rfl, hsome⟩ := hback
        obtain ⟨e, he⟩ := Option.ne_none_iff_exists'.1 hsome
        obtain ⟨hidden, heq⟩ := scanFrom_escape words hc he
        cases heq.symm.trans h
    · simp only [not_forall, Decidable.not_not] at hplain
      obtain ⟨p, hp, rfl⟩ := hplain
      rw [scanFrom_tag hp] at h
      cases h

/-- The tokens from a character on are the text from there on. -/
theorem flatMap_spelling_scanFrom (words : List (List Char)) (cs : List Char) (index : Nat) :
    (scanFrom words cs index).flatMap spelling = cs.drop index := by
  obtain ⟨skip, hmarks⟩ := Tag.drop_marksFrom (Tag.tagAt words) Tag.width 0 index cs
  rw [scanFrom, Tag.tagMarks, Tag.marks, hmarks]
  exact flatMap_spelling_ofChars words skip index _

theorem getElem?_of_scanFrom {c : Char} {ts : List Token}
    (h : scanFrom words cs index = .char c :: ts) : cs[index]? = some c := by
  have hchars := flatMap_spelling_scanFrom words cs index
  rw [h] at hchars
  rw [← List.head?_drop, ← hchars]
  rfl

/-- The tokens from a character on mark a tag exactly if one is placed there or behind it. -/
theorem any_marksTag_scanFrom : (scanFrom words cs index).any marksTag = true ↔
    ∃ p ∈ Tag.places words cs, index ≤ p.start := by
  rw [scanFrom, any_marksTag_ofMarks, List.drop_zero, List.any_eq_true]
  constructor
  · rintro ⟨⟨c, mark⟩, hmem, hmark⟩
    obtain ⟨tag, rfl⟩ := Option.isSome_iff_exists.1 hmark
    obtain ⟨i, hi⟩ := List.getElem?_of_mem hmem
    rw [List.getElem?_drop] at hi
    exact ⟨⟨index + i, index + i + tag.width, tag⟩, Tag.mem_places_iff.2 ⟨c, hi, rfl⟩,
      Nat.le_add_right _ _⟩
  · rintro ⟨p, hp, hle⟩
    obtain ⟨c, hmark, -⟩ := Tag.mem_places_iff.1 hp
    refine ⟨(c, some p.tag), List.mem_of_getElem? (i := p.start - index) ?_, rfl⟩
    rw [List.getElem?_drop, Nat.add_sub_cancel' hle, hmark]

/-- The operator that is read from the text is the one that is read from its tokens. -/
theorem operator?_scanFrom {α : Type} {c : Char}
    (htoken : scanFrom words cs index = .char c :: scanFrom words cs (index + 1))
    (condition : Bool) (before : Option α) :
    operator? condition before (.char c :: scanFrom words cs (index + 1)) =
      if condition && before.isNone then Operator.scan (cs.drop index) else none := by
  have hchars := flatMap_spelling_scanFrom words cs index
  rw [htoken, List.flatMap_cons, spelling, List.singleton_append] at hchars
  rw [operator?, scan_lead, hchars]

/-- Behind an operator the tokens are those behind its characters. -/
theorem drop_operator_scanFrom {c : Char} {op : Operator}
    (htoken : scanFrom words cs index = .char c :: scanFrom words cs (index + 1))
    (hop : Operator.scan (cs.drop index) = some op) :
    (Token.char c :: scanFrom words cs (index + 1)).drop op.width =
      scanFrom words cs (index + op.width) := by
  have hchars := flatMap_spelling_scanFrom words cs index
  rw [htoken, List.flatMap_cons, spelling, List.singleton_append] at hchars
  rw [← hchars, ← scan_lead] at hop
  obtain ⟨-, hwidth | ⟨rest, hwidth, hrest⟩⟩ := operator_cases hop
  · rw [Operator.width, hwidth]
    rfl
  · rw [Operator.width, hwidth, hrest, eq_scanFrom_of_char hrest]
    rfl

end Token

end TagTemplate
