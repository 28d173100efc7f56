import TagTemplate.Comparison
import TagTemplate.Program.Token
import TagTemplate.Proofs.Tag.Spelling

/-! The tokens of a text, from any place on.

`Token.ofChars` gives the tokens of what is left of a text; the first `skip` characters
belong to a tag that was found before and escaped, so no tag begins there. Its equations
say what the next token is, and `flatMap_spelling_ofChars` that the tokens, as they are
written, are the text: none of it is lost and none comes twice. -/
namespace TagTemplate

/-- Whether an operator begins here is seen from two characters. -/
theorem Operator.scan_cons_cons (c d : Char) (rest : List Char) :
    scan (c :: d :: rest) = scan [c, d] := by
  unfold scan
  split
  case h_5 | h_6 =>
    rename_i hne heq
    cases heq
    have hd : d ≠ '=' := fun h => hne rest (h ▸ rfl)
    simp [hd]
  all_goals simp_all

namespace Token

/-- Characters of the token before are passed over. -/
theorem ofMarks_eq_drop (skip pos : Nat) (marks : List (Char × Option Tag)) :
    ofMarks skip pos marks = ofMarks 0 (pos + skip) (marks.drop skip) := by
  induction skip generalizing pos marks with
  | zero => rfl
  | succ skip ih =>
    cases marks with
    | nil => simp only [List.drop_nil, ofMarks_nil]
    | cons mark marks => rw [ofMarks_succ, ih, List.drop_succ_cons, Nat.add_assoc, Nat.add_comm 1]

/-- Tokens mark a tag exactly if one is marked among their characters, be it read or escaped. -/
theorem any_marksTag_ofMarks (skip pos : Nat) (marks : List (Char × Option Tag)) :
    (ofMarks skip pos marks).any marksTag = (marks.drop skip).any (·.2.isSome) := by
  fun_induction ofMarks skip pos marks with
  | case1 => simp
  | case2 skip pos mark rest ih => rw [List.drop_succ_cons, ih]
  | case3 pos c t rest => rfl
  | case4 pos c mark rest ih => rw [List.any_cons, ih]; rfl
  | case5 pos c rest hne ih => rw [List.any_cons, ih]; rfl

variable (words : List (List Char))

/-- The tokens of a text that begins at character `pos`, and whose first `skip`
characters belong to a tag found before. -/
def ofChars (skip pos : Nat) (cs : List Char) : List Token :=
  ofMarks 0 pos (Tag.marksFrom (Tag.tagAt words) Tag.width skip cs)

/-- An unmarked character that is no backslash is a token. -/
theorem ofMarks_char {pos : Nat} {c : Char} {rest : List (Char × Option Tag)} (hc : c ≠ '\\') :
    ofMarks 0 pos ((c, none) :: rest) = .char c :: ofMarks 0 (pos + 1) rest := by
  rw [ofMarks]
  intro c' mark rest' _ h
  exact absurd h hc

@[simp] theorem ofChars_nil (skip pos : Nat) : ofChars words skip pos [] = [] := by
  cases skip <;> simp [ofChars, Tag.marksFrom]

/-- Characters that belong to a tag are passed over in the marks as in the text. -/
theorem ofMarks_skip (skip pos : Nat) (cs : List Char) :
    ofMarks skip pos (Tag.marksFrom (Tag.tagAt words) Tag.width skip cs) =
      ofChars words 0 (pos + skip) (cs.drop skip) := by
  induction skip generalizing pos cs with
  | zero => rfl
  | succ skip ih =>
    cases cs with
    | nil => simp [Tag.marksFrom]
    | cons c cs =>
      simp only [Tag.marksFrom, ofMarks_succ, List.drop_succ_cons, ih]
      congr 1
      omega

/-- Where a tag is found, it is the next token, and the rest goes on behind it. -/
theorem ofChars_tag {pos : Nat} {t : Tag} {rest : List Char}
    (h : Tag.tagAt words (t.spelling ++ rest) = some t) :
    ofChars words 0 pos (t.spelling ++ rest) =
      .tag pos t :: ofChars words 0 (pos + t.width) rest := by
  obtain ⟨cs, hcs⟩ : ∃ cs, t.spelling = '$' :: cs := ⟨_, rfl⟩
  have hwidth : t.width = cs.length + 1 := by rw [Tag.width, hcs]; rfl
  rw [hcs, List.cons_append] at h
  rw [hcs, List.cons_append, ofChars, Tag.marksFrom, h]
  simp only [ofMarks_some, ofMarks_skip, hwidth, Nat.add_sub_cancel, List.drop_left]
  congr 2
  omega

/-- A text that is one tag is one token. -/
theorem scan_spelling {t : Tag} (h : Tag.tagAt words t.spelling = some t) :
    scan words t.spelling = [.tag 0 t] := by
  have hcons : ofChars words 0 0 (t.spelling ++ []) =
      .tag 0 t :: ofChars words 0 (0 + t.width) [] :=
    ofChars_tag words (by rwa [List.append_nil])
  rwa [List.append_nil, ofChars_nil] at hcons

/-- A character that begins no tag and is no backslash is a token of its own. -/
theorem ofChars_char {skip pos : Nat} {c : Char} {cs : List Char} (hc : c ≠ '\\')
    (h : skip = 0 → Tag.tagAt words (c :: cs) = none) :
    ofChars words skip pos (c :: cs) = .char c :: ofChars words (skip - 1) (pos + 1) cs := by
  cases skip with
  | zero => simp only [ofChars, Tag.marksFrom, h rfl, ofMarks_char hc]
  | succ skip => simp only [ofChars, Tag.marksFrom, ofMarks_char hc, Nat.add_sub_cancel]

/-- A backslash at the end of a text is a token of its own. -/
theorem ofChars_backslash (skip pos : Nat) : ofChars words skip pos ['\\'] = [.char '\\'] := by
  cases skip with
  | zero => simp [ofChars, Tag.marksFrom, Tag.tagAt_of_ne]
  | succ skip => cases skip <;> simp [ofChars, Tag.marksFrom]

/-- A backslash takes the next character with it, and hides a tag that is found there. -/
theorem ofChars_escape (skip pos : Nat) (c : Char) (cs : List Char) :
    (∃ t, Tag.tagAt words (c :: cs) = some t ∧ ofChars words skip pos ('\\' :: c :: cs) =
      .escape true c :: ofChars words (t.width - 1) (pos + 2) cs) ∨
    ((skip ≤ 1 → Tag.tagAt words (c :: cs) = none) ∧ ofChars words skip pos ('\\' :: c :: cs) =
      .escape false c :: ofChars words (skip - 2) (pos + 2) cs) := by
  have hback (cs : List Char) : Tag.tagAt words ('\\' :: cs) = none :=
    Tag.tagAt_of_ne cs (by decide)
  match skip with
  | 0 | 1 =>
    cases h : Tag.tagAt words (c :: cs) with
    | none => exact .inr ⟨fun _ => rfl, by simp [ofChars, Tag.marksFrom, hback, h]⟩
    | some t => exact .inl ⟨t, rfl, by simp [ofChars, Tag.marksFrom, hback, h]⟩
  | skip + 2 =>
    exact .inr ⟨fun h => absurd h (by omega), by simp [ofChars, Tag.marksFrom]⟩

/-- A backslash before a character at which no tag begins hides nothing. -/
theorem ofChars_escape_of_none {pos : Nat} {c : Char} {cs : List Char}
    (h : Tag.tagAt words (c :: cs) = none) :
    ofChars words 0 pos ('\\' :: c :: cs) = .escape false c :: ofChars words 0 (pos + 2) cs := by
  rcases ofChars_escape words 0 pos c cs with ⟨t, ht, -⟩ | ⟨-, heq⟩
  · rw [h] at ht
    cases ht
  · exact heq

/-- What the next token of a text is, what is left behind it, and whether a tag could be read
there. -/
theorem ofChars_step (skip pos : Nat) (c : Char) (cs : List Char) :
    (∃ t rest, skip = 0 ∧ Tag.tagAt words (c :: cs) = some t ∧ c :: cs = t.spelling ++ rest ∧
      ofChars words skip pos (c :: cs) = .tag pos t :: ofChars words 0 (pos + t.width) rest) ∨
    (∃ d rest t, c :: cs = '\\' :: d :: rest ∧ Tag.tagAt words (d :: rest) = some t ∧
      ofChars words skip pos (c :: cs) =
        .escape true d :: ofChars words (t.width - 1) (pos + 2) rest) ∨
    (∃ d rest, c :: cs = '\\' :: d :: rest ∧ (skip ≤ 1 → Tag.tagAt words (d :: rest) = none) ∧
      ofChars words skip pos (c :: cs) =
        .escape false d :: ofChars words (skip - 2) (pos + 2) rest) ∨
    ((c = '\\' → cs = []) ∧ (skip = 0 → Tag.tagAt words (c :: cs) = none) ∧
      ofChars words skip pos (c :: cs) = .char c :: ofChars words (skip - 1) (pos + 1) cs) := by
  by_cases hc : c = '\\'
  · subst hc
    refine .inr ?_
    cases cs with
    | nil =>
      have hback : Tag.tagAt words ['\\'] = none := Tag.tagAt_of_ne _ (by decide)
      exact .inr (.inr ⟨fun _ => rfl, fun _ => hback, by simp [ofChars_backslash]⟩)
    | cons d rest =>
      rcases ofChars_escape words skip pos d rest with ⟨t, ht, heq⟩ | ⟨hnone, heq⟩
      · exact .inl ⟨d, rest, t, rfl, ht, heq⟩
      · exact .inr (.inl ⟨d, rest, rfl, hnone, heq⟩)
  · by_cases htag : skip = 0 ∧ Tag.tagAt words (c :: cs) ≠ none
    · obtain ⟨rfl, htag⟩ := htag
      obtain ⟨t, ht⟩ := Option.ne_none_iff_exists'.1 htag
      obtain ⟨rest, hrest, -⟩ := Tag.tagAt_eq_append ht
      rw [hrest] at ht
      exact .inl ⟨t, rest, rfl, hrest ▸ ht, hrest, by rw [hrest, ofChars_tag words ht]⟩
    · have hnone (hs : skip = 0) : Tag.tagAt words (c :: cs) = none :=
        Classical.byContradiction fun h => htag ⟨hs, h⟩
      exact .inr (.inr (.inr ⟨fun h => absurd h hc, hnone, ofChars_char words hc hnone⟩))

/-- What the next token of a text is, and what is left behind it. -/
theorem ofChars_cases (skip pos : Nat) (c : Char) (cs : List Char) :
    (∃ t rest, skip = 0 ∧ c :: cs = t.spelling ++ rest ∧
      ofChars words skip pos (c :: cs) = .tag pos t :: ofChars words 0 (pos + t.width) rest) ∨
    (∃ d rest hidden skip', c :: cs = '\\' :: d :: rest ∧
      ofChars words skip pos (c :: cs) = .escape hidden d :: ofChars words skip' (pos + 2) rest) ∨
    ((c = '\\' → cs = []) ∧
      ofChars words skip pos (c :: cs) = .char c :: ofChars words (skip - 1) (pos + 1) cs) := by
  rcases ofChars_step words skip pos c cs with ⟨t, rest, hskip, -, hcs, heq⟩ |
    ⟨d, rest, t, hcs, -, heq⟩ | ⟨d, rest, hcs, -, heq⟩ | ⟨hback, -, heq⟩
  · exact .inl ⟨t, rest, hskip, hcs, heq⟩
  · exact .inr (.inl ⟨d, rest, _, _, hcs, heq⟩)
  · exact .inr (.inl ⟨d, rest, _, _, hcs, heq⟩)
  · exact .inr (.inr ⟨hback, heq⟩)

/-- **Tokens keep the text**: written one after the other they are the text. -/
theorem flatMap_spelling_ofChars (skip pos : Nat) (cs : List Char) :
    (ofChars words skip pos cs).flatMap spelling = cs := by
  match cs with
  | [] => simp
  | c :: cs =>
    rcases ofChars_cases words skip pos c cs with
      ⟨t, rest, -, hcs, h⟩ | ⟨d, rest, hidden, skip', hcs, h⟩ | ⟨-, h⟩
    · have hle : rest.length ≤ cs.length := Tag.length_le_of_spelling hcs
      rw [h, List.flatMap_cons, flatMap_spelling_ofChars, hcs]
      rfl
    · have hle : rest.length ≤ cs.length := by
        rw [(List.cons.inj hcs).2]
        exact Nat.le_succ _
      rw [h, List.flatMap_cons, flatMap_spelling_ofChars, hcs]
      rfl
    · rw [h, List.flatMap_cons, flatMap_spelling_ofChars]
      rfl
termination_by cs.length

/-- A tag starts behind the characters of the tokens before it. -/
theorem start_eq_of_ofChars (skip pos : Nat) (cs : List Char) {before rest : List Token}
    {start : Nat} {t : Tag} (h : ofChars words skip pos cs = before ++ .tag start t :: rest) :
    start = pos + (before.flatMap spelling).length := by
  match cs, before with
  | [], before =>
    rw [ofChars_nil] at h
    exact absurd h.symm (List.append_ne_nil_of_right_ne_nil _ (List.cons_ne_nil _ _))
  | c :: cs, [] =>
    rcases ofChars_cases words skip pos c cs with
      ⟨t', _, -, -, heq⟩ | ⟨d, _, hidden, skip', -, heq⟩ | ⟨-, heq⟩
    · cases (List.cons.inj (heq.symm.trans h)).1
      rfl
    · cases (List.cons.inj (heq.symm.trans h)).1
    · cases (List.cons.inj (heq.symm.trans h)).1
  | c :: cs, token :: before =>
    rw [List.flatMap_cons, List.length_append]
    rcases ofChars_cases words skip pos c cs with
      ⟨t', later, -, hcs, heq⟩ | ⟨d, later, hidden, skip', hcs, heq⟩ | ⟨-, heq⟩
    · have hle : later.length ≤ cs.length := Tag.length_le_of_spelling hcs
      obtain ⟨rfl, hlater⟩ := List.cons.inj (heq.symm.trans h)
      rw [start_eq_of_ofChars _ _ later hlater, Nat.add_assoc]
      rfl
    · have hle : later.length ≤ cs.length := by
        rw [(List.cons.inj hcs).2]
        exact Nat.le_succ _
      obtain ⟨rfl, hlater⟩ := List.cons.inj (heq.symm.trans h)
      rw [start_eq_of_ofChars _ _ later hlater, Nat.add_assoc]
      rfl
    · obtain ⟨rfl, hlater⟩ := List.cons.inj (heq.symm.trans h)
      rw [start_eq_of_ofChars _ _ cs hlater, Nat.add_assoc]
      rfl
termination_by cs.length

/-- The tokens before a tag are the characters up to its start. -/
theorem take_start_of_scan {cs : List Char} {before rest : List Token} {start : Nat} {t : Tag}
    (h : scan words cs = before ++ .tag start t :: rest) :
    cs.take start = before.flatMap spelling := by
  have hstart := start_eq_of_ofChars words 0 0 cs h
  have hcs : (scan words cs).flatMap spelling = cs := flatMap_spelling_ofChars words 0 0 cs
  rw [h, List.flatMap_append] at hcs
  rw [← hcs, hstart, Nat.zero_add, List.take_left]

/-- Characters that need no escape are tokens of their own. -/
theorem ofChars_append {pos : Nat} (cs : List Char) {rest : List Char}
    (h : ∀ c ∈ cs, c ≠ '\\' ∧ c ≠ '$') :
    ofChars words 0 pos (cs ++ rest) =
      cs.map .char ++ ofChars words 0 (pos + cs.length) rest := by
  induction cs generalizing pos with
  | nil => rfl
  | cons c cs ih =>
    obtain ⟨⟨hback, hdollar⟩, hcs⟩ := List.forall_mem_cons.1 h
    rw [List.cons_append, ofChars_char words hback fun _ => Tag.tagAt_of_ne _ hdollar, ih hcs,
      List.length_cons, Nat.add_assoc, Nat.add_comm 1]
    rfl

theorem spelling_eq_lead (t : Token) : ∃ cs, t.spelling = t.lead :: cs := by
  cases t <;> exact ⟨_, rfl⟩

/-- The operator that tokens begin with is the one that their characters begin with. -/
theorem scan_lead (c : Char) (ts : List Token) :
    Operator.scan (((Token.char c :: ts).take 2).map lead) =
      Operator.scan (c :: ts.flatMap spelling) := by
  cases ts with
  | nil => rfl
  | cons t ts =>
    obtain ⟨cs, hcs⟩ := t.spelling_eq_lead
    rw [List.flatMap_cons, hcs, List.cons_append, Operator.scan_cons_cons c t.lead]
    rfl

end Token

end TagTemplate
