import TagTemplate.Proofs.Program.Faults
import TagTemplate.Proofs.Program.Spelling

/-! Dollar signs that stay literal.

The tags of a source are found before it is read, and an escape passes over the whole tag that
was found behind its backslash. A tag that could be read inside of that one is not looked for
again, and its dollar sign stays literal. No other tag gets lost. Wherever a tag could be read at
a literal of the program, that literal lies in a tag whose own dollar sign is escaped, and
wherever a tag is read, it is the one that could be read there: `Program.dollar_of_compileAt`. -/
namespace TagTemplate

namespace Token
variable {words : List (List Char)}

/-- The number of characters of some tokens. -/
def widthOf (ts : List Token) : Nat := (ts.flatMap spelling).length

theorem widthOf_cons (t : Token) (ts : List Token) :
    widthOf (t :: ts) = t.spelling.length + widthOf ts := by
  rw [widthOf, List.flatMap_cons, List.length_append, widthOf]

/-- Whether the character at a place of a text lies in a tag that was found, but whose dollar sign
is escaped. -/
def InEscaped (words : List (List Char)) (cs : List Char) (ts : List Token) (place : Nat) : Prop :=
  ∃ before c after t, ts = before ++ .escape true c :: after ∧
    Tag.tagAt words (cs.drop (widthOf before + 1)) = some t ∧
    widthOf before + 1 < place ∧ place < widthOf before + 1 + t.width

/-- What lies in an escaped tag lies in it also with a token more before it. -/
theorem InEscaped.cons {cs rest : List Char} {token : Token} {ts : List Token} {place : Nat}
    (h : InEscaped words rest ts place) (hcs : cs = token.spelling ++ rest) :
    InEscaped words cs (token :: ts) (token.spelling.length + place) := by
  obtain ⟨before, c, after, t, rfl, ht, hlow, hhigh⟩ := h
  refine ⟨token :: before, c, after, t, rfl, ?_, ?_, ?_⟩
  · rw [widthOf_cons, hcs, Nat.add_assoc, ← List.drop_drop, List.drop_left]
    exact ht
  all_goals
    rw [widthOf_cons]
    omega

/-- The place of the last character of a token: where it is a literal, that is the literal. -/
def lastPlace (before : List Token) (token : Token) : Nat :=
  widthOf before + (token.spelling.length - 1)

theorem lastPlace_cons (t : Token) (before : List Token) (token : Token) :
    lastPlace (t :: before) token = t.spelling.length + lastPlace before token := by
  rw [lastPlace, widthOf_cons, Nat.add_assoc, lastPlace]

/-- Where a tag could be read, but none was found, the characters belong to a tag that was found
before. In what is left of a text, either its first `skip` characters do, or the tag is escaped
there. -/
theorem inEscaped_of_ofChars {skip pos : Nat} {cs : List Char} {before after : List Token}
    {token : Token} (h : ofChars words skip pos cs = before ++ token :: after)
    (hfound : token.marksTag = false)
    (hcould : Tag.tagAt words (cs.drop (lastPlace before token)) ≠ none) :
    lastPlace before token < skip ∨
      InEscaped words cs (ofChars words skip pos cs) (lastPlace before token) := by
  match cs, before with
  | [], before =>
    rw [ofChars_nil] at h
    exact absurd h.symm (List.append_ne_nil_of_right_ne_nil _ (List.cons_ne_nil _ _))
  | c :: cs, [] =>
    rcases ofChars_step words skip pos c cs with ⟨t, rest, -, -, -, heq⟩ |
      ⟨d, rest, t, -, -, heq⟩ | ⟨d, rest, hcs, hnone, heq⟩ | ⟨-, hnone, heq⟩
    · cases (List.cons.inj (heq.symm.trans h)).1
      cases hfound
    · cases (List.cons.inj (heq.symm.trans h)).1
      cases hfound
    · cases (List.cons.inj (heq.symm.trans h)).1
      rw [hcs] at hcould
      exact .inl (Nat.lt_of_not_le fun hle => hcould (hnone hle))
    · cases (List.cons.inj (heq.symm.trans h)).1
      exact .inl (Nat.pos_of_ne_zero fun hskip => hcould (hnone hskip))
  | c :: cs, front :: before =>
    rw [lastPlace_cons] at hcould ⊢
    rcases ofChars_step words skip pos c cs with ⟨t, rest, -, -, hcs, heq⟩ |
      ⟨d, rest, t, hcs, ht, heq⟩ | ⟨d, rest, hcs, -, heq⟩ | ⟨-, -, heq⟩
    · have hle : rest.length ≤ cs.length := Tag.length_le_of_spelling hcs
      obtain ⟨rfl, hrest⟩ := List.cons.inj (heq.symm.trans h)
      rw [hcs, ← List.drop_drop, spelling, List.drop_left] at hcould
      rcases inEscaped_of_ofChars hrest hfound hcould with hlt | hin
      · exact absurd hlt (Nat.not_lt_zero _)
      · rw [heq]
        exact .inr (hin.cons hcs)
    · have hle : rest.length ≤ cs.length := by
        rw [(List.cons.inj hcs).2]
        exact Nat.le_succ _
      obtain ⟨rfl, hrest⟩ := List.cons.inj (heq.symm.trans h)
      rw [hcs, ← List.drop_drop] at hcould
      rw [heq]
      rcases inEscaped_of_ofChars hrest hfound hcould with hlt | hin
      · -- This is the escape behind which the tag was found.
        refine .inr ⟨[], d, _, t, rfl, ?_, ?_, ?_⟩
        · rw [hcs]
          exact ht
        · show 0 + 1 < 2 + _
          omega
        · show 2 + _ < 0 + 1 + t.width
          omega
      · exact .inr (hin.cons hcs)
    · have hle : rest.length ≤ cs.length := by
        rw [(List.cons.inj hcs).2]
        exact Nat.le_succ _
      obtain ⟨rfl, hrest⟩ := List.cons.inj (heq.symm.trans h)
      rw [hcs, ← List.drop_drop] at hcould
      rw [heq]
      refine (inEscaped_of_ofChars hrest hfound hcould).imp (fun hlt => ?_) (·.cons hcs)
      show 2 + _ < skip
      omega
    · obtain ⟨rfl, hrest⟩ := List.cons.inj (heq.symm.trans h)
      rw [← List.drop_drop] at hcould
      rw [heq]
      refine (inEscaped_of_ofChars hrest hfound hcould).imp (fun hlt => ?_) (·.cons rfl)
      show 1 + _ < skip
      omega
termination_by cs.length

/-- A tag that is read is the one that could be read there. -/
theorem tagAt_of_scan {cs : List Char} {before after : List Token} {start : Nat} {t : Tag}
    (h : scan words cs = before ++ .tag start t :: after) :
    Tag.tagAt words (cs.drop (widthOf before)) = some t := by
  have hmem : .tag start t ∈ scan words cs := h ▸ List.mem_append_right _ List.mem_cons_self
  obtain ⟨index, c, hindex, hmark⟩ := getElem?_of_mem_ofMarks hmem
  have hstart := start_eq_of_ofChars words 0 0 cs h
  rw [hindex, Nat.zero_add, Nat.zero_add] at hstart
  rw [widthOf, ← hstart]
  exact Tag.rule_of_getElem?_marksFrom hmark

/-- A dollar sign in text without tags is the last character of a token. -/
theorem exists_lastPlace_of_flatMap {ts : List Token} {front back : List Char}
    (hfound : ts.any marksTag = false) (h : ts.flatMap spelling = front ++ '$' :: back) :
    ∃ before token after, ts = before ++ token :: after ∧ token.marksTag = false ∧
      front.length = lastPlace before token := by
  induction ts generalizing front with
  | nil => exact absurd h.symm (List.append_ne_nil_of_right_ne_nil _ (List.cons_ne_nil _ _))
  | cons t ts ih =>
    obtain ⟨ht, hts⟩ := Bool.or_eq_false_iff.1 hfound
    have hlater {front : List Char} (h : ts.flatMap spelling = front ++ '$' :: back) :
        ∃ before token after, t :: ts = before ++ token :: after ∧ token.marksTag = false ∧
          (t.spelling ++ front).length = lastPlace before token := by
      obtain ⟨before, token, after, rfl, htoken, hplace⟩ := ih hts h
      refine ⟨t :: before, token, after, rfl, htoken, ?_⟩
      rw [List.length_append, hplace, lastPlace_cons]
    cases t with
    | tag start tag => cases ht
    | escape hidden c =>
      match front, h with
      | [_], _ => exact ⟨[], .escape hidden c, ts, rfl, ht, rfl⟩
      | _ :: _ :: front', h =>
        rw [List.flatMap_cons] at h
        injection h with hfirst h
        injection h with hsecond h
        subst hfirst hsecond
        exact hlater h
    | char c =>
      match front, h with
      | [], _ => exact ⟨[], .char c, ts, rfl, ht, rfl⟩
      | _ :: front', h =>
        rw [List.flatMap_cons] at h
        injection h with hfirst h
        subst hfirst
        exact hlater h

end Token

namespace Markup

/-- The number of characters of some cells. -/
def Cell.widthOf (cells : List Cell) : Nat := (cells.flatMap spelling).length

theorem Cell.widthOf_map_cell (ts : List Token) :
    widthOf (ts.map Token.cell) = Token.widthOf ts := by
  rw [widthOf, Token.flatMap_spelling_map_cell]
  rfl

end Markup

namespace Program
open Markup
variable {σ : Type} {v : Vocabulary σ} {source : String} {path : Option String} {depth : Nat}
  {p : Program σ}

/-- Whether a dollar sign of a source has to stay literal: no tag could be read there, or it lies
in a tag whose own dollar sign is escaped. -/
def StaysLiteral (words : List (List Char)) (cs : List Char) (place : Nat) : Prop :=
  Tag.tagAt words (cs.drop place) = none ∨
    Token.InEscaped words cs (Token.scan words cs) place

theorem staysLiteral_of_scan {words : List (List Char)} {cs : List Char}
    {before after : List Token} {token : Token}
    (h : Token.scan words cs = before ++ token :: after) (hfound : token.marksTag = false) :
    StaysLiteral words cs (Token.lastPlace before token) := by
  by_cases hcould : Tag.tagAt words (cs.drop (Token.lastPlace before token)) = none
  · exact .inl hcould
  · refine .inr ((Token.inEscaped_of_ofChars h hfound hcould).resolve_left ?_)
    exact Nat.not_lt_zero _

/-- **No tag is missed but in an escaped one.** The source of a program is markup and text behind
it. Where a dollar sign stands in the markup, at top level or in an argument, that is neither
escaped nor read as that of a tag, no tag could be read, unless the dollar sign lies in a tag that
was found and whose own dollar sign is escaped. The same holds of the text behind the markup. And
where a tag is read it is the one that could be read there. -/
theorem dollar_of_compileAt (h : compileAt v source path depth = .ok p) :
    ∃ (items : List (Item Glyph σ)) (tail : List Char),
      source.toList = Item.textSpelling asWritten items ++ tail ∧
      Item.TextAll (Item.Written v) items ∧
      p = ofText source path depth
        (.ofParts (Item.textParts asWritten depth 0 items ++ tail.map .char)) ∧
      (∀ before after, Item.textCells items = before ++ .glyph ⟨false, '$'⟩ :: after →
        StaysLiteral v.words source.toList (Cell.widthOf before)) ∧
      (∀ before after, tail = before ++ '$' :: after → StaysLiteral v.words source.toList
        ((Item.textSpelling asWritten items).length + before.length)) ∧
      ∀ before t after, Item.textCells items = before ++ .tag t :: after →
        Tag.tagAt v.words (source.toList.drop (Cell.widthOf before)) = some t := by
  obtain ⟨draft, hread, rfl⟩ := compileAt_eq_ok_iff.1 h
  obtain ⟨items, read, rest, hscan, hcells, hrest, hall, rfl⟩ :=
    hread.spelled_cells (Token.backslashLast_ofChars _ 0 0 _)
  replace hscan : Token.scan v.words source.toList = read ++ rest := hscan
  have hspelling : Item.textSpelling asWritten items = read.flatMap Token.spelling := by
    rw [← Item.flatMap_spelling_textCells, ← hcells, Token.flatMap_spelling_map_cell]
  refine ⟨items, rest.flatMap Token.spelling, ?_, hall, ofDraft_extend source path depth _,
    fun before after hmarkup => ?_, fun before after htail => ?_, fun before t after hmarkup => ?_⟩
  · have hchars : (Token.scan v.words source.toList).flatMap Token.spelling = source.toList :=
      Token.flatMap_spelling_ofChars v.words 0 0 source.toList
    rw [← hchars, hscan, List.flatMap_append, hspelling]
  · obtain ⟨front, back, rfl, rfl, hback⟩ := List.map_eq_append_iff.1 (hcells.trans hmarkup)
    obtain ⟨token, later, rfl, htoken, -⟩ := List.map_eq_cons_iff.1 hback
    rw [List.append_assoc] at hscan
    cases token with
    | char c =>
      rw [Cell.widthOf_map_cell]
      exact staysLiteral_of_scan hscan rfl
    | tag | escape => cases htoken
  · obtain ⟨front, token, back, rfl, htoken, hplace⟩ :=
      Token.exists_lastPlace_of_flatMap hrest htail
    rw [← List.append_assoc] at hscan
    have hstays := staysLiteral_of_scan hscan htoken
    rw [Token.lastPlace, Token.widthOf, List.flatMap_append, List.length_append,
      ← hspelling,
      Nat.add_assoc] at hstays
    rw [hplace]
    exact hstays
  · obtain ⟨front, back, rfl, rfl, hback⟩ := List.map_eq_append_iff.1 (hcells.trans hmarkup)
    obtain ⟨token, later, rfl, htoken, -⟩ := List.map_eq_cons_iff.1 hback
    rw [List.append_assoc] at hscan
    cases token with
    | tag start tag =>
      cases htoken
      rw [Cell.widthOf_map_cell]
      exact Token.tagAt_of_scan hscan
    | char | escape => cases htoken

/-- A tag in an escaped one, a dollar sign alone, a nested tag, and an escaped one beside it. -/
theorem dollar_of_compileAt_nested :
    let foo : Native Unit :=
      ⟨{ name := "$foo", args := some { fields := [{ name := "a" }], brackets := false } }, false,
        fun _ => .succeed .null⟩
    let bar : Native Unit := ⟨{ name := "$bar" }, false, fun _ => .succeed .null⟩
    let v : Vocabulary Unit := .ofNatives [foo, bar]
    let source := "\\$@[$foo]bar $ $foo[$bar\\$bar$]"
    ∃ p, compileAt v source none 0 = .ok p ∧
      ∃ (items : List (Item Glyph Unit)) (tail : List Char),
        source.toList = Item.textSpelling asWritten items ++ tail ∧
        p = ofText source none 0 (.ofParts (Item.textParts asWritten 0 0 items ++ tail.map .char)) ∧
        ∀ before after, Item.textCells items = before ++ .glyph ⟨false, '$'⟩ :: after →
          StaysLiteral v.words source.toList (Cell.widthOf before) := by
  intro foo bar v source
  have hok : (compileAt v source none 0).toBool = true := by decide +kernel
  cases hp : compileAt v source none 0 with
  | error e =>
    rw [hp] at hok
    cases hok
  | ok p =>
    obtain ⟨items, tail, hsource, -, htext, hcells, -⟩ := dollar_of_compileAt hp
    exact ⟨p, rfl, items, tail, hsource, htext, hcells⟩

/-- The dollar sign before `foo` is neither escaped nor read, although the tag could be read there:
it lies in the annotation of the tag whose dollar sign is escaped. -/
theorem compileAt_hides :
    let foo : Native Unit := ⟨{ name := "$foo" }, false, fun _ => .succeed .null⟩
    let bar : Native Unit := ⟨{ name := "$bar" }, false, fun _ => .succeed .null⟩
    let v : Vocabulary Unit := .ofNatives [foo, bar]
    let source := "\\$@[$foo]bar"
    compileAt v source none 0 =
        .ok ⟨source, none, "$@[$foo]bar", [], .literal "$@[$foo]bar", 0⟩ ∧
      source.toList[3]? = some '[' ∧ source.toList[4]? = some '$' ∧
      Tag.tagAt v.words (source.toList.drop 4) = some ⟨false, false, none, "foo"⟩ := by
  intro foo bar v source
  refine ⟨?_, by decide, by decide, by decide +kernel⟩
  subst source v bar foo
  with_unfolding_all rfl

end Program

end TagTemplate
