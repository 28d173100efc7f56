import TagTemplate.Native.Builtin
import TagTemplate.Proofs.Program.Tokens
import TagTemplate.Proofs.Program.Markup

/-! What a program was read from.

The source of every program is a spelling of it: markup whose literal text consists of
single characters, each as it stands or behind a backslash, compiles to exactly that
program. Nothing of the source is lost, nothing comes twice and nothing moves.

The markup is found along the derivation of the reading. Each rule passes over some
tokens, which are the cells of the markup one by one, and numbers its calls;
`Cursor.Passes` keeps account of both. An argument is the one place with a choice,
whether it is split at an operator, and `ArgumentRead` holds both outcomes. -/
namespace TagTemplate

namespace Operator

/-- Text behind an operator does not hide it. -/
theorem scan_append_of_some {a b : List Char} {op : Operator} (h : scan a = some op) :
    scan (a ++ b) ≠ none := by
  unfold scan at h
  split at h <;> simp only [List.cons_append, scan, ne_eq, reduceCtorEq, not_false_eq_true] at h ⊢
  all_goals split <;> simp_all

theorem scan_of_append {a b : List Char} (h : scan (a ++ b) = none) : scan a = none := by
  cases ha : scan a with
  | none => rfl
  | some op => exact absurd h (scan_append_of_some ha)

/-- An operator that is found is written there. -/
theorem token_of_scan {c : Char} {cs : List Char} {op : Operator} (h : scan (c :: cs) = some op) :
    op ≠ .unknown ∧ (op.token = [c] ∨ ∃ rest, op.token = [c, '='] ∧ cs = '=' :: rest) := by
  unfold scan at h
  split at h <;> cases h <;> simp_all [token]

end Operator

namespace Token

/-- An operator takes up whole tokens: its first character, and an equals sign behind it if
there are two. -/
theorem operator_cases {c : Char} {ts : List Token} {op : Operator}
    (h : Operator.scan (((Token.char c :: ts).take 2).map lead) = some op) :
    op ≠ .unknown ∧ (op.token = [c] ∨ ∃ rest, op.token = [c, '='] ∧ ts = .char '=' :: rest) := by
  obtain ⟨hop, htoken | ⟨rest, htoken, hrest⟩⟩ := Operator.token_of_scan h
  · exact ⟨hop, .inl htoken⟩
  · cases ts with
    | nil => cases hrest
    | cons t ts =>
      have hlead : t.lead = '=' := (List.cons.inj hrest).1
      have ht : t = .char '=' := by
        cases t with
        | tag start t => exact absurd (show '$' = '=' from hlead) (by decide)
        | escape hidden d => exact absurd (show '\\' = '=' from hlead) (by decide)
        | char d => exact congrArg Token.char hlead
      exact ⟨hop, .inr ⟨ts, htoken, by rw [ht]⟩⟩

/-- The tokens that an operator is read from are its characters. -/
theorem eq_append_drop_operator {c : Char} {ts : List Token} {op : Operator}
    (h : Operator.scan (((Token.char c :: ts).take 2).map lead) = some op) :
    op ≠ .unknown ∧
      Token.char c :: ts = op.token.map .char ++ (Token.char c :: ts).drop op.width := by
  obtain ⟨hop, htoken | ⟨rest, htoken, rfl⟩⟩ := operator_cases h
  · exact ⟨hop, by simp [Operator.width, htoken]⟩
  · exact ⟨hop, by simp [Operator.width, htoken]⟩

/-- Whether a backslash that escapes nothing can only come last. -/
def BackslashLast (ts : List Token) : Prop := ∀ rest, Token.char '\\' :: rest <:+ ts → rest = []

theorem BackslashLast.of_suffix {ts ts' : List Token} (h : BackslashLast ts) (hs : ts' <:+ ts) :
    BackslashLast ts' := fun rest hrest => h rest (hrest.trans hs)

theorem backslashLast_ofChars (words : List (List Char)) (skip pos : Nat) (cs : List Char) :
    BackslashLast (ofChars words skip pos cs) := by
  match cs with
  | [] =>
    intro rest h
    rw [ofChars_nil] at h
    cases List.suffix_nil.1 h
  | c :: cs =>
    intro rest h
    rcases ofChars_cases words skip pos c cs with
      ⟨t, cs', -, hcs, heq⟩ | ⟨d, cs', hidden, skip', hcs, heq⟩ | ⟨hback, heq⟩
    · have hle : cs'.length ≤ cs.length := Tag.length_le_of_spelling hcs
      rw [heq] at h
      rcases List.suffix_cons_iff.1 h with h | h
      · cases h
      · exact backslashLast_ofChars words 0 (pos + t.width) cs' rest h
    · have hle : cs'.length ≤ cs.length := by
        rw [(List.cons.inj hcs).2]
        exact Nat.le_succ _
      rw [heq] at h
      rcases List.suffix_cons_iff.1 h with h | h
      · cases h
      · exact backslashLast_ofChars words skip' (pos + 2) cs' rest h
    · rw [heq] at h
      rcases List.suffix_cons_iff.1 h with h | h
      · obtain ⟨hc, rfl⟩ := List.cons.inj h
        cases hc
        rw [hback rfl, ofChars_nil]
      · exact backslashLast_ofChars words (skip - 1) (pos + 1) cs rest h
termination_by cs.length

end Token

/-- The characters that are left to read. -/
def Cursor.chars (c : Cursor) : List Char := c.tokens.flatMap Token.spelling

namespace Markup

/-- A character of a source, and whether a backslash stands before it. -/
structure Glyph where
  escaped : Bool
  char : Char

/-- Literal text character by character, as it stands in a source. -/
def asWritten : Style Glyph where
  write g := if g.escaped then ['\\', g.char] else [g.char]
  mean g := [g.char]

/-- A tag, or a character as it stands in a source. -/
inductive Cell where
  | glyph (g : Glyph)
  | tag (t : Tag)

/-- A cell as it is written. -/
def Cell.spelling : Cell → List Char
  | .glyph g => asWritten.write g
  | .tag t => t.spelling

/-- Characters that nothing escapes. -/
def Cell.bare (cs : List Char) : List Cell := cs.map fun c => .glyph ⟨false, c⟩

@[simp] theorem Cell.flatMap_spelling_bare (cs : List Char) :
    (bare cs).flatMap spelling = cs := by
  induction cs with
  | nil => rfl
  | cons c cs ih => exact congrArg (c :: ·) ih

namespace Item
variable {σ : Type}

mutual

/-- The cells of a piece of markup. -/
def cells : Item Glyph σ → List Cell
  | .text g => [.glyph g]
  | .call tag _ args => .tag tag :: bracketsCells args

/-- The cells of the argument list of a call, if there is one. -/
def bracketsCells : Option (List (Argument (Item Glyph σ))) → List Cell
  | none => []
  | some args => Cell.bare ['['] ++ listCells args

/-- The cells of some arguments, up to the closing bracket. -/
def listCells : List (Argument (Item Glyph σ)) → List Cell
  | [] => Cell.bare [']']
  | [arg] => argumentCells arg ++ Cell.bare [']']
  | arg :: args => argumentCells arg ++ (Cell.bare [';'] ++ listCells args)

/-- The cells of an argument. -/
def argumentCells : Argument (Item Glyph σ) → List Cell
  | .plain items => textCells items
  | .lone items => textCells items
  | .comparison op lhs rhs => textCells lhs ++ (Cell.bare op.token ++ textCells rhs)

/-- The cells of a text. -/
def textCells : List (Item Glyph σ) → List Cell
  | [] => []
  | item :: items => cells item ++ textCells items

end

theorem listCells_cons (arg : Argument (Item Glyph σ)) {args : List (Argument (Item Glyph σ))}
    (h : args ≠ []) :
    listCells (arg :: args) = argumentCells arg ++ (Cell.bare [';'] ++ listCells args) := by
  cases args with
  | nil => exact absurd rfl h
  | cons arg' args => rfl

mutual

/-- The cells of markup, as they are written, are the markup as it is written. -/
theorem flatMap_spelling_cells (item : Item Glyph σ) :
    item.cells.flatMap Cell.spelling = item.spelling asWritten := by
  match item with
  | .text g => exact List.flatMap_singleton _ _
  | .call tag native args =>
    rw [cells, List.flatMap_cons, flatMap_spelling_bracketsCells, spelling]
    rfl

theorem flatMap_spelling_bracketsCells (args : Option (List (Argument (Item Glyph σ)))) :
    (bracketsCells args).flatMap Cell.spelling = bracketsSpelling asWritten args := by
  match args with
  | none => rfl
  | some args =>
    rw [bracketsCells, List.flatMap_append, Cell.flatMap_spelling_bare,
      flatMap_spelling_listCells, bracketsSpelling]
    rfl

theorem flatMap_spelling_listCells (args : List (Argument (Item Glyph σ))) :
    (listCells args).flatMap Cell.spelling = listSpelling asWritten args := by
  match args with
  | [] => rfl
  | [arg] =>
    rw [listCells, List.flatMap_append, Cell.flatMap_spelling_bare,
      flatMap_spelling_argumentCells, listSpelling]
  | arg :: arg' :: args =>
    rw [listCells_cons _ (List.cons_ne_nil _ _), List.flatMap_append, List.flatMap_append,
      Cell.flatMap_spelling_bare, flatMap_spelling_argumentCells, flatMap_spelling_listCells,
      listSpelling_cons _ _ (List.cons_ne_nil _ _)]
    rfl

theorem flatMap_spelling_argumentCells (arg : Argument (Item Glyph σ)) :
    (argumentCells arg).flatMap Cell.spelling = argumentSpelling asWritten arg := by
  match arg with
  | .plain items | .lone items => exact flatMap_spelling_textCells items
  | .comparison op lhs rhs =>
    rw [argumentCells, List.flatMap_append, List.flatMap_append, Cell.flatMap_spelling_bare,
      flatMap_spelling_textCells, flatMap_spelling_textCells, argumentSpelling]

theorem flatMap_spelling_textCells (items : List (Item Glyph σ)) :
    (textCells items).flatMap Cell.spelling = textSpelling asWritten items := by
  match items with
  | [] => rfl
  | item :: items =>
    rw [textCells, List.flatMap_append, flatMap_spelling_cells, flatMap_spelling_textCells,
      textSpelling]

end

/-- The character that a piece of markup is, if nothing escapes it. -/
def bare? : Item Glyph σ → Option Char
  | .text g => if g.escaped then none else some g.char
  | .call _ _ _ => none

/-- Whether no bare character of a text ends an argument. -/
def Closed (items : List (Item Glyph σ)) : Prop :=
  ∀ item ∈ items, item.bare? ≠ some ';' ∧ item.bare? ≠ some ']'

/-- Whether no operator begins at a bare character of a text. -/
def OperatorFree : List (Item Glyph σ) → Prop
  | [] => True
  | item :: items =>
    (∀ c, item.bare? = some c → Operator.scan (c :: textSpelling asWritten items) = none) ∧
      OperatorFree items

/-- Whether an argument is read the way it is meant: nothing in it ends it early, and
only the operator of a comparison splits it. -/
def ArgumentWritten : Argument (Item Glyph σ) → Prop
  | .plain items => Closed items
  | .lone items => Closed items ∧ OperatorFree items
  | .comparison op lhs rhs => op ≠ .unknown ∧ Closed lhs ∧ OperatorFree lhs ∧ Closed rhs

/-- Whether a piece of markup is read the way it is meant: a bare character is no
backslash, and the name of a call resolves to its native. -/
def Written (v : Vocabulary σ) : Item Glyph σ → Prop
  | .text g => g.escaped = false → g.char ≠ '\\'
  | .call tag native args =>
    v.resolve tag.name = some native ∧ ∀ arg ∈ args.getD [], ArgumentWritten arg

end Item

end Markup

/-- The cell that a token is. -/
def Token.cell : Token → Markup.Cell
  | .tag _ t => .tag t
  | .escape _ c => .glyph ⟨true, c⟩
  | .char c => .glyph ⟨false, c⟩

theorem Token.spelling_cell (t : Token) : t.cell.spelling = t.spelling := by
  cases t <;> rfl

theorem Token.flatMap_spelling_map_cell (ts : List Token) :
    (ts.map cell).flatMap Markup.Cell.spelling = ts.flatMap spelling := by
  rw [List.flatMap_map]
  exact congrArg (List.flatMap · ts) (funext spelling_cell)

/-- Whether a cursor has moved over some cells and some calls. -/
structure Cursor.Passes (cells : List Markup.Cell) (calls : Nat) (c c' : Cursor) : Prop where
  tokens : ∃ read, c.tokens = read ++ c'.tokens ∧ read.map Token.cell = cells
  next : c'.next = c.next + calls

namespace Cursor.Passes
variable {cells cells' : List Markup.Cell} {calls calls' : Nat} {c c' c'' : Cursor}

theorem trans (h : Passes cells calls c c') (h' : Passes cells' calls' c' c'') :
    Passes (cells ++ cells') (calls + calls') c c'' where
  tokens := by
    obtain ⟨read, hread, rfl⟩ := h.tokens
    obtain ⟨read', hread', rfl⟩ := h'.tokens
    exact ⟨read ++ read', by rw [hread, hread', List.append_assoc], List.map_append⟩
  next := by rw [h'.next, h.next, Nat.add_assoc]

/-- The characters that a cursor has moved over are those of the cells. -/
theorem chars (h : Passes cells calls c c') :
    c.chars = cells.flatMap Markup.Cell.spelling ++ c'.chars := by
  obtain ⟨read, hread, rfl⟩ := h.tokens
  rw [Cursor.chars, hread, List.flatMap_append, Token.flatMap_spelling_map_cell]
  rfl

end Cursor.Passes

/-! ### Where the tags are -/

/-- Whether the tags among some tokens all start in calls of the markup that they spell. -/
def Markup.Item.HoldsTags {σ : Type} (offset : Nat) (items : List (Item Glyph σ))
    (ts : List Token) : Prop :=
  ∀ before start t rest, ts = before ++ .tag start t :: rest →
    ∃ call ∈ callSpans asWritten offset items,
      call.Has (offset + Text.byteWidth (before.flatMap Token.spelling))

namespace Markup.Item.HoldsTags
variable {σ : Type} {offset : Nat} {items : List (Item Glyph σ)} {ts ts' : List Token}

theorem of_any_eq_false (h : ts.any Token.marksTag = false) : HoldsTags offset items ts := by
  intro before start t rest hts
  rw [hts, List.any_append, List.any_cons, Token.marksTag, Bool.true_or, Bool.or_true] at h
  cases h

/-- Tokens before those of a text are the text before it. -/
theorem append {item : Item Glyph σ} (front : List Token)
    (h : HoldsTags (offset + Text.byteWidth (item.spelling asWritten)) items ts')
    (hfront : front.flatMap Token.spelling = item.spelling asWritten)
    (hcall : ∀ start t, .tag start t ∈ front →
      Text.spanAt offset (item.spelling asWritten) ∈ callSpans asWritten offset (item :: items)) :
    HoldsTags offset (item :: items) (front ++ ts') := by
  intro before start t rest hts
  have hlater {between : List Token} (hbefore : before = front ++ between)
      (hrest : ts' = between ++ .tag start t :: rest) :
      ∃ call ∈ callSpans asWritten offset (item :: items),
        call.Has (offset + Text.byteWidth (before.flatMap Token.spelling)) := by
    obtain ⟨call, hcall, hhas⟩ := h between start t rest hrest
    refine ⟨call, mem_callSpans_cons hcall, ?_⟩
    rwa [hbefore, List.flatMap_append, hfront, Text.byteWidth_append, ← Nat.add_assoc]
  rcases List.append_eq_append_iff.1 hts with ⟨between, hbefore, hrest⟩ | ⟨inner, hinner, hrest⟩
  · exact hlater hbefore hrest
  cases inner with
  | nil =>
    rw [List.append_nil] at hinner
    exact hlater (hinner.symm.trans (List.append_nil _).symm) hrest.symm
  | cons token inner =>
    obtain ⟨rfl, -⟩ := List.cons.inj hrest
    have hmem : .tag start t ∈ front := hinner ▸ List.mem_append_right _ List.mem_cons_self
    refine ⟨_, hcall start t hmem, ?_⟩
    rw [← hfront, hinner, List.flatMap_append]
    exact Text.spanAt_has_of_append (List.cons_ne_nil _ _)

/-- Tokens that are the cells of markup, with text behind them in which no tag is found. -/
theorem of_cells {read rest : List Token} (hitems : read.map Token.cell = textCells items)
    (hrest : rest.any Token.marksTag = false) : HoldsTags offset items (read ++ rest) := by
  induction items generalizing offset read with
  | nil =>
    rw [List.map_eq_nil_iff.1 hitems]
    exact of_any_eq_false hrest
  | cons item items ih =>
    obtain ⟨front, read, rfl, hfront, hread⟩ := List.map_eq_append_iff.1 hitems
    rw [List.append_assoc]
    refine (ih hread).append front ?_ fun start t ht => ?_
    · rw [← Token.flatMap_spelling_map_cell, hfront, flatMap_spelling_cells]
    · cases item with
      | text g =>
        have hcell := hfront ▸ List.mem_map_of_mem ht
        cases List.mem_singleton.1 hcell
      | call _ _ _ => exact List.mem_cons_self

end Markup.Item.HoldsTags

namespace Program
open Markup
variable {σ : Type} {v : Vocabulary σ} {depth : Nat}

/-- The character that ends an argument. -/
def ender (closed : Bool) : Char := if closed then ']' else ';'

/-- What an argument was read from: markup that goes on with the draft and, where an
operator was found in it, the markup behind that operator. -/
inductive ArgumentRead (v : Vocabulary σ) (depth : Nat) (condition : Bool) (draft : Draft σ)
    (before : Option (Operator × Draft σ)) (c : Cursor) :
    Field (Invocation σ) → Bool → Cursor → Prop
  | whole {closed c'} (items : List (Item Glyph σ))
      (passes : c.Passes (Item.textCells items ++ Cell.bare [ender closed])
        (Item.textCalls items) c')
      (written : Item.TextAll (Item.Written v) items) (ends : Item.Closed items)
      (free : condition = true → before = none → Item.OperatorFree items) :
      ArgumentRead v depth condition draft before c
        ((draft.extend (Item.textParts asWritten depth c.next items)).field condition before)
        closed c'
  | split {closed c'} (op : Operator) (lhs rhs : List (Item Glyph σ))
      (splits : condition = true ∧ before = none) (named : op ≠ .unknown)
      (passes : c.Passes (Item.textCells lhs ++
        (Cell.bare op.token ++ (Item.textCells rhs ++ Cell.bare [ender closed])))
        (Item.textCalls lhs + Item.textCalls rhs) c')
      (written : Item.TextAll (Item.Written v) lhs ∧ Item.TextAll (Item.Written v) rhs)
      (ends : Item.Closed lhs ∧ Item.Closed rhs) (free : Item.OperatorFree lhs) :
      ArgumentRead v depth condition draft before c
        (.condition op (draft.extend (Item.textParts asWritten depth c.next lhs)).finish
          (some (({} : Draft σ).extend
            (Item.textParts asWritten depth (c.next + Item.textCalls lhs) rhs)).finish))
        closed c'

namespace ArgumentRead
variable {condition : Bool} {draft : Draft σ} {before : Option (Operator × Draft σ)}
  {c c₁ c' : Cursor} {field : Field (Invocation σ)} {closed : Bool}

/-- The argument begins one piece of markup earlier. -/
theorem cons (item : Item Glyph σ) (passes : c.Passes item.cells item.calls c₁)
    (written : item.All (Item.Written v)) (ends : item.bare? ≠ some ';' ∧ item.bare? ≠ some ']')
    (free : condition = true → before = none →
      ∀ ch, item.bare? = some ch → Operator.scan (ch :: c₁.chars) = none)
    (h : ArgumentRead v depth condition
      (draft.extend (Item.parts asWritten depth c.next item)) before c₁ field closed c') :
    ArgumentRead v depth condition draft before c field closed c' := by
  cases h with
  | whole items hp hw he hf =>
    rw [← Draft.extend_append, passes.next]
    refine .whole (item :: items) ?_ ⟨written, hw⟩ (List.forall_mem_cons.2 ⟨ends, he⟩)
      fun hc hb => ⟨fun ch hch => ?_, hf hc hb⟩
    · simpa only [Item.textCells, Item.textCalls, List.append_assoc] using passes.trans hp
    · have hscan := free hc hb ch hch
      rw [hp.chars, List.flatMap_append, Item.flatMap_spelling_textCells, List.append_assoc,
        ← List.cons_append] at hscan
      exact Operator.scan_of_append hscan
  | split op lhs rhs hs hn hp hw he hf =>
    rw [← Draft.extend_append, passes.next, Nat.add_assoc]
    refine .split op (item :: lhs) rhs hs hn ?_ ⟨⟨written, hw.1⟩, hw.2⟩
      ⟨List.forall_mem_cons.2 ⟨ends, he.1⟩, he.2⟩ ⟨fun ch hch => ?_, hf⟩
    · simpa only [Item.textCells, Item.textCalls, List.append_assoc, Nat.add_assoc] using
        passes.trans hp
    · have hscan := free hs.1 hs.2 ch hch
      rw [hp.chars, List.flatMap_append, Item.flatMap_spelling_textCells, List.append_assoc,
        ← List.cons_append] at hscan
      exact Operator.scan_of_append hscan

/-- An operator comes before the argument, which cannot be split again. -/
theorem operator {op : Operator} (named : op ≠ .unknown)
    (passes : c.Passes (Cell.bare op.token) 0 c₁)
    (h : ArgumentRead v depth true {} (some (op, draft)) c₁ field closed c') :
    ArgumentRead v depth true draft none c field closed c' := by
  cases h with
  | whole items hp hw he hf =>
    have hnext : c₁.next = c.next + Item.textCalls ([] : List (Item Glyph σ)) := passes.next
    rw [hnext]
    refine .split op [] items ⟨rfl, rfl⟩ named ?_ ⟨trivial, hw⟩ ⟨List.forall_mem_nil _, he⟩ trivial
    exact passes.trans hp
  | split op' lhs rhs hs => cases hs.2

/-- A whole argument was read from an argument as it is written. -/
theorem argument (h : ArgumentRead v depth condition {} none c field closed c') :
    ∃ arg : Argument (Item Glyph σ),
      c.Passes (Item.argumentCells arg ++ Cell.bare [ender closed]) (Item.argumentCalls arg) c' ∧
      Item.ArgumentAll (Item.Written v) arg ∧ Item.ArgumentWritten arg ∧
      field = Item.argumentField asWritten depth c.next arg := by
  cases h with
  | whole items hp hw he hf =>
    cases condition with
    | false =>
      refine ⟨.plain items, hp, hw, he, ?_⟩
      exact congrArg Field.plain (Draft.finish_extend _)
    | true =>
      refine ⟨.lone items, hp, hw, ⟨he, hf rfl rfl⟩, ?_⟩
      exact congrArg (Field.condition .unknown · none) (Draft.finish_extend _)
  | split op lhs rhs hs hn hp hw he hf =>
    refine ⟨.comparison op lhs rhs, ?_, hw, ⟨hn, he.1, hf, he.2⟩, ?_⟩
    · simpa only [Item.argumentCells, Item.argumentCalls, List.append_assoc] using hp
    · rw [Draft.finish_extend, Draft.finish_extend]
      rfl

end ArgumentRead

/-- What some arguments were read from, with the closing bracket. -/
def ListRead (v : Vocabulary σ) (depth : Nat) (c : Cursor) (fields : List (Field (Invocation σ)))
    (c' : Cursor) : Prop :=
  ∃ args : List (Argument (Item Glyph σ)), args ≠ [] ∧
    c.Passes (Item.listCells args) (Item.listCalls args) c' ∧
    Item.ListAll (Item.Written v) args ∧ (∀ arg ∈ args, Item.ArgumentWritten arg) ∧
    fields = Item.listFields asWritten depth c.next args

theorem ListRead.last {condition : Bool} {c c' : Cursor} {field : Field (Invocation σ)}
    (h : ArgumentRead v depth condition {} none c field true c') :
    ListRead v depth c [field] c' := by
  obtain ⟨arg, hp, hall, harg, rfl⟩ := h.argument
  exact ⟨[arg], List.cons_ne_nil _ _, hp, ⟨hall, trivial⟩, List.forall_mem_singleton.2 harg, rfl⟩

theorem ListRead.cons {condition : Bool} {c c₁ c' : Cursor} {field : Field (Invocation σ)}
    {fields : List (Field (Invocation σ))}
    (h : ArgumentRead v depth condition {} none c field false c₁)
    (hmore : ListRead v depth c₁ fields c') : ListRead v depth c (field :: fields) c' := by
  obtain ⟨arg, hp, hall, harg, rfl⟩ := h.argument
  obtain ⟨args, hne, hps, halls, hargs, rfl⟩ := hmore
  refine ⟨arg :: args, List.cons_ne_nil _ _, ?_, ⟨hall, halls⟩,
    List.forall_mem_cons.2 ⟨harg, hargs⟩, ?_⟩
  · rw [Item.listCells_cons _ hne, ← List.append_assoc]
    exact hp.trans hps
  · rw [hp.next]
    rfl

/-! ### Along a derivation -/

mutual

theorem ReadsInvocation.spelled {tag : Tag} {c c' : Cursor} {i : Invocation σ}
    (h : ReadsInvocation v depth tag c i c') (hc : Token.BackslashLast c.tokens) :
    ∃ item : Item Glyph σ, item.bare? = none ∧
      (∀ start, Cursor.Passes item.cells item.calls ⟨.tag start tag :: c.tokens, c.next⟩ c') ∧
      item.All (Item.Written v) ∧ item.parts asWritten depth c.next = [.slot i] := by
  match h with
  | .mk hn ha =>
    obtain ⟨args, hp, hall, hargs, rfl⟩ := ha.spelled hc
    refine ⟨.call tag _ args, rfl, fun start => ⟨?_, ?_⟩, ⟨⟨hn, hargs⟩, hall⟩, ?_⟩
    · obtain ⟨read, hread, hcells⟩ := hp.tokens
      exact ⟨.tag start tag :: read, congrArg (_ :: ·) hread, congrArg (_ :: ·) hcells⟩
    · exact congrArg (· + 1) hp.next
    · rw [hp.next]
      rfl

theorem ReadsArguments.spelled {args : Option ArgumentSchema} {c c' : Cursor}
    {fields : Option (List (Field (Invocation σ)))}
    (h : ReadsArguments v depth args c fields c') (hc : Token.BackslashLast c.tokens) :
    ∃ args : Option (List (Argument (Item Glyph σ))),
      c.Passes (Item.bracketsCells args) (Item.bracketsCalls args) c' ∧
      Item.BracketsAll (Item.Written v) args ∧ (∀ arg ∈ args.getD [], Item.ArgumentWritten arg) ∧
      fields = Item.bracketsFields asWritten depth c.next args := by
  match h with
  | .noSchema => exact ⟨none, ⟨⟨[], rfl, rfl⟩, rfl⟩, trivial, List.forall_mem_nil _, rfl⟩
  | .omitted _ _ => exact ⟨none, ⟨⟨[], rfl, rfl⟩, rfl⟩, trivial, List.forall_mem_nil _, rfl⟩
  | .empty _ =>
    exact ⟨some [], ⟨⟨[.char '[', .char ']'], rfl, rfl⟩, rfl⟩, trivial, List.forall_mem_nil _, rfl⟩
  | .listed _ hf =>
    obtain ⟨args, -, hp, hall, hargs, rfl⟩ := hf.spelled (hc.of_suffix (List.suffix_cons _ _))
    obtain ⟨read, hread, hcells⟩ := hp.tokens
    refine ⟨some args, ⟨⟨.char '[' :: read, ?_, ?_⟩, hp.next⟩, hall, hargs, rfl⟩
    · exact congrArg (_ :: ·) hread
    · exact congrArg (_ :: ·) hcells

theorem ReadsFields.spelled {spec : FieldSpec} {specs : List FieldSpec} {c c' : Cursor}
    {fields : List (Field (Invocation σ))} (h : ReadsFields v depth spec specs c fields c')
    (hc : Token.BackslashLast c.tokens) :
    ListRead v depth c fields c' := by
  match h with
  | .last hone => exact .last (hone.spelled hc)
  | .again _ hone hmore =>
    have hc' := hc.of_suffix (hone.suffix.trans (List.tail_suffix _))
    exact .cons (hone.spelled hc) (hmore.spelled hc')
  | .next _ hone hmore =>
    have hc' := hc.of_suffix (hone.suffix.trans (List.tail_suffix _))
    exact .cons (hone.spelled hc) (hmore.spelled hc')

theorem ReadsField.spelled {condition : Bool} {draft : Draft σ}
    {before : Option (Operator × Draft σ)} {c c' : Cursor} {field : Field (Invocation σ)}
    {closed : Bool} (h : ReadsField v depth condition draft before c field closed c')
    (hc : Token.BackslashLast c.tokens) :
    ArgumentRead v depth condition draft before c field closed c' := by
  match h with
  | .close hends =>
    refine .whole [] ⟨⟨[.char _], rfl, ?_⟩, rfl⟩ trivial (List.forall_mem_nil _) fun _ _ => trivial
    rcases hends with rfl | rfl <;> rfl
  | .escape (c := ch) h =>
    have h := h.spelled (hc.of_suffix (List.suffix_cons _ _))
    refine .cons (.text ⟨true, ch⟩) ?_ (fun h => nomatch h) ⟨nofun, nofun⟩
      (fun _ _ _ h => nomatch h) h
    exact ⟨⟨[.escape _ ch], rfl, rfl⟩, rfl⟩
  | .tag hi h =>
    have hc₁ := hc.of_suffix (List.suffix_cons _ _)
    obtain ⟨item, hbare, hp, hall, hparts⟩ := hi.spelled hc₁
    have h := h.spelled (hc₁.of_suffix hi.suffix)
    refine .cons item (hp _) hall ?_ ?_ ?_
    · rw [hbare]
      exact ⟨nofun, nofun⟩
    · intro _ _ ch hch
      rw [hbare] at hch
      cases hch
    · rw [hparts]
      exact h
  | .operator _ hop hmore =>
    have hmore := hmore.spelled (hc.of_suffix (List.drop_suffix _ _))
    unfold Token.operator? at hop
    split at hop
    · rename_i hsplit
      obtain ⟨rfl, hbefore⟩ := Bool.and_eq_true_iff.1 hsplit
      obtain rfl := Option.isNone_iff_eq_none.1 hbefore
      obtain ⟨hnamed, htokens⟩ := Token.eq_append_drop_operator hop
      refine .operator hnamed ⟨⟨_, htokens, ?_⟩, rfl⟩ hmore
      exact List.map_map
    · cases hop
  | .char (c := ch) hgo hop h =>
    have hback : ch ≠ '\\' := by
      rintro rfl
      have hts := hc _ List.suffix_rfl
      subst hts
      cases h
    have h := h.spelled (hc.of_suffix (List.suffix_cons _ _))
    refine .cons (.text ⟨false, ch⟩) ?_ (fun _ => hback) ?_ ?_ h
    · exact ⟨⟨[.char ch], rfl, rfl⟩, rfl⟩
    · exact ⟨fun h => hgo.1 (Option.some.inj h), fun h => hgo.2 (Option.some.inj h)⟩
    · rintro rfl rfl _ ⟨⟩
      rw [← hop]
      exact (Token.scan_lead ch _).symm

end

/-- Text without tags is taken as it stands. -/
theorem ReadsText.verbatim {draft result : Draft σ} {c : Cursor}
    (h : ReadsText v depth draft c result) (hc : c.tokens.any Token.marksTag = false) :
    result = draft.extend (c.chars.map .char) := by
  induction h with
  | done => rfl
  | tag _ _ _ => simp [Token.marksTag] at hc
  | undone hb _ _ =>
    rw [List.any_cons] at hc
    rw [Token.marksTag] at hc
    rw [hb] at hc
    cases hc
  | kept hb _ ih =>
    exact ih (Bool.or_eq_false_iff.1 hb).2
  | char _ ih =>
    rw [List.any_cons] at hc
    exact ih (Bool.or_eq_false_iff.1 hc).2

/-- A text was read from markup, of which its first tokens are the cells, and from text behind it
in which no tag is found. -/
theorem ReadsText.spelled_cells {draft result : Draft σ} {c : Cursor}
    (h : ReadsText v depth draft c result) (hc : Token.BackslashLast c.tokens) :
    ∃ (items : List (Item Glyph σ)) (read rest : List Token),
      c.tokens = read ++ rest ∧ read.map Token.cell = Item.textCells items ∧
      rest.any Token.marksTag = false ∧ Item.TextAll (Item.Written v) items ∧
      result = draft.extend (Item.textParts asWritten depth c.next items ++
        (rest.flatMap Token.spelling).map .char) := by
  induction h with
  | done => exact ⟨[], [], [], rfl, rfl, rfl, trivial, rfl⟩
  | @tag _ start tag ts _ i c' _ hi _ ih =>
    have hc₁ := hc.of_suffix (List.suffix_cons _ _)
    obtain ⟨item, -, hp, hall, hparts⟩ := hi.spelled hc₁
    obtain ⟨front, hfront, hcells⟩ := (hp start).tokens
    obtain ⟨items, read, rest, hread, hitems, hrest, halls, rfl⟩ := ih (hc₁.of_suffix hi.suffix)
    refine ⟨item :: items, front ++ read, rest, ?_, ?_, hrest, ⟨hall, halls⟩, ?_⟩
    · rw [List.append_assoc, ← hread]
      exact hfront
    · rw [List.map_append, hcells, hitems, Item.textCells]
    · rw [Item.textParts, hparts, (hp start).next]
      rfl
  | @undone _ hidden ch _ _ _ _ _ ih =>
    have hc₁ := hc.of_suffix (List.suffix_cons _ _)
    obtain ⟨items, read, rest, hread, hitems, hrest, halls, rfl⟩ := ih hc₁
    refine ⟨.text ⟨true, ch⟩ :: items, .escape hidden ch :: read, rest, congrArg (_ :: ·) hread, ?_,
      hrest, ⟨nofun, halls⟩, rfl⟩
    rw [List.map_cons, hitems]
    rfl
  | @kept _ hidden ch ts _ _ hb hmore _ =>
    have hverbatim := hmore.verbatim (Bool.or_eq_false_iff.1 hb).2
    exact ⟨[], [], .escape hidden ch :: ts, rfl, rfl, hb, trivial, hverbatim⟩
  | @char _ ch ts _ _ hmore ih =>
    by_cases hback : ch = '\\'
    · subst hback
      obtain rfl := hc _ List.suffix_rfl
      exact ⟨[], [], [.char '\\'], rfl, rfl, rfl, trivial, hmore.verbatim rfl⟩
    · have hc₁ := hc.of_suffix (List.suffix_cons _ _)
      obtain ⟨items, read, rest, hread, hitems, hrest, halls, rfl⟩ := ih hc₁
      refine ⟨.text ⟨false, ch⟩ :: items, .char ch :: read, rest, congrArg (_ :: ·) hread, ?_,
        hrest, ⟨fun _ => hback, halls⟩, rfl⟩
      rw [List.map_cons, hitems]
      rfl

/-- A text was read from markup and text behind it, and all its tags stand in calls of the
markup. -/
theorem ReadsText.spelled_tags {draft result : Draft σ} {c : Cursor}
    (h : ReadsText v depth draft c result) (hc : Token.BackslashLast c.tokens) (offset : Nat) :
    ∃ (items : List (Item Glyph σ)) (tail : List Char),
      c.chars = Item.textSpelling asWritten items ++ tail ∧
      Item.TextAll (Item.Written v) items ∧
      result = draft.extend (Item.textParts asWritten depth c.next items ++ tail.map .char) ∧
      Item.HoldsTags offset items c.tokens := by
  obtain ⟨items, read, rest, hread, hitems, hrest, hall, hresult⟩ := h.spelled_cells hc
  refine ⟨items, rest.flatMap Token.spelling, ?_, hall, hresult, ?_⟩
  · rw [Cursor.chars, hread, List.flatMap_append, ← Token.flatMap_spelling_map_cell read, hitems,
      Item.flatMap_spelling_textCells]
  · rw [hread]
    exact .of_cells hitems hrest

theorem ReadsText.spelled {draft result : Draft σ} {c : Cursor}
    (h : ReadsText v depth draft c result) (hc : Token.BackslashLast c.tokens) :
    ∃ (items : List (Item Glyph σ)) (tail : List Char),
      c.chars = Item.textSpelling asWritten items ++ tail ∧
      Item.TextAll (Item.Written v) items ∧
      result = draft.extend (Item.textParts asWritten depth c.next items ++ tail.map .char) := by
  obtain ⟨items, tail, hchars, hall, hresult, -⟩ := h.spelled_tags hc 0
  exact ⟨items, tail, hchars, hall, hresult⟩

/-- **The source of a program is a spelling of it.** It is written markup, as far as that
is read, and text behind it that is taken as it stands; the program is what that markup
compiles to, with the text behind it. -/
theorem source_spells_compile {source : String} {path : Option String} {p : Program σ}
    (h : compile v source path = .ok p) :
    ∃ (items : List (Item Glyph σ)) (tail : List Char),
      source.toList = Item.textSpelling asWritten items ++ tail ∧
      Item.TextAll (Item.Written v) items ∧
      p = ofText source path 0
        (.ofParts (Item.textParts asWritten 0 0 items ++ tail.map .char)) := by
  obtain ⟨draft, hread, rfl⟩ := compileAt_eq_ok_iff.1 h
  obtain ⟨items, tail, hchars, hall, rfl⟩ := hread.spelled (Token.backslashLast_ofChars _ 0 0 _)
  refine ⟨items, tail, ?_, hall, ofDraft_extend source path 0 _⟩
  rw [← hchars]
  exact (Token.flatMap_spelling_ofChars v.words 0 0 source.toList).symm

/-- A tag that is escaped, a comparison with a call in it, an escaped separator, and an
escape behind the last tag: all of it is in the spelling. -/
theorem source_spells_compile_builtin :
    ∃ (p : Program Unit), compile (Vocabulary.ofNatives Builtin.all)
        "\\$stop$!if[\\==$get[x];a\\;]\\n" none = .ok p ∧
      ∃ (items : List (Item Glyph Unit)) (tail : List Char),
        "\\$stop$!if[\\==$get[x];a\\;]\\n".toList = Item.textSpelling asWritten items ++ tail ∧
        Item.TextAll (Item.Written (Vocabulary.ofNatives Builtin.all)) items ∧
        p = ofText "\\$stop$!if[\\==$get[x];a\\;]\\n" none 0
          (.ofParts (Item.textParts asWritten 0 0 items ++ tail.map .char)) := by
  have hok : (compile (Vocabulary.ofNatives (Builtin.all : List (Native Unit)))
      "\\$stop$!if[\\==$get[x];a\\;]\\n" none).toBool = true := by decide +kernel
  cases hp : compile (Vocabulary.ofNatives (Builtin.all : List (Native Unit)))
      "\\$stop$!if[\\==$get[x];a\\;]\\n" none with
  | error e =>
    rw [hp] at hok
    cases hok
  | ok p => exact ⟨p, rfl, source_spells_compile hp⟩

end Program

end TagTemplate
