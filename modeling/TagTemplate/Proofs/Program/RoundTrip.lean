import TagTemplate.Native.Builtin
import TagTemplate.Proofs.Program.Tokens
import TagTemplate.Proofs.Program.Markup
import TagTemplate.Proofs.Tag.Words

/-! Compiling undoes writing.

Markup that ends in a call is written with a backslash before every literal character;
what comes out of the compiler is that markup again, numbered and laid out. It holds for
every tree that fits the schemas of its natives, over every vocabulary of plain names.

The proof goes through the tree once. What has to be known in front of each piece is
that the text behind it `Stops` a tag, and all markup begins with something that does: a
backslash or a dollar sign. -/
namespace TagTemplate

namespace Markup

/-- Literal text with a backslash before every character. -/
def escape (cs : List Char) : List Char := cs.flatMap fun c => ['\\', c]

/-- Literal text that is written with a backslash before every character. -/
def escaping : Style String where
  write s := escape s.toList
  mean s := s.toList

namespace Argument
variable {α : Type}

/-- Whether an argument is of the kind that a spec asks for. -/
def Answers (spec : FieldSpec) : Argument α → Prop
  | .plain _ => spec.condition = false
  | .lone _ => spec.condition = true
  | .comparison op _ _ => spec.condition = true ∧ op ≠ .unknown

/-- Whether arguments, of which there is at least one, answer the specs from one on; a
spec for the rest is answered again and again. -/
def AllAnswer : FieldSpec → List FieldSpec → List (Argument α) → Prop
  | _, _, [] => False
  | spec, _, [arg] => arg.Answers spec
  | spec, specs, arg :: args =>
    arg.Answers spec ∧
      if spec.rest then AllAnswer spec specs args
      else
        match specs with
        | [] => False
        | spec :: specs => AllAnswer spec specs args

theorem allAnswer_cons {spec : FieldSpec} {specs : List FieldSpec} {arg : Argument α}
    {args : List (Argument α)} (hne : args ≠ []) (h : AllAnswer spec specs (arg :: args)) :
    arg.Answers spec ∧ (spec.rest = true ∧ AllAnswer spec specs args ∨
      spec.rest = false ∧ ∃ spec' specs', specs = spec' :: specs' ∧ AllAnswer spec' specs' args) := by
  cases args with
  | nil => exact absurd rfl hne
  | cons arg' args =>
    obtain ⟨harg, hmore⟩ := h
    refine ⟨harg, ?_⟩
    split at hmore
    · rename_i hrest
      exact .inl ⟨hrest, hmore⟩
    · rename_i hrest
      cases specs with
      | nil => exact hmore.elim
      | cons spec' specs' => exact .inr ⟨Bool.eq_false_iff.2 hrest, spec', specs', rfl, hmore⟩

/-- Whether an argument list, or leaving it out, fits a schema. -/
def ListFits : Option ArgumentSchema → Option (List (Argument α)) → Prop
  | none, none => True
  | none, some _ => False
  | some schema, none => schema.brackets = false
  | some schema, some args =>
    match schema.fields with
    | [] => args = []
    | spec :: specs => AllAnswer spec specs args

end Argument

namespace Item
variable {σ : Type}

/-- Whether a call can be made as it stands: its name resolves to its native, nothing in
its annotation ends it early, and its arguments fit. -/
def Fits (v : Vocabulary σ) : Item String σ → Prop
  | .text _ => True
  | .call tag native args =>
    (∃ name, v.resolve name = some native ∧ tag.name = bareName (Text.trim name)) ∧
    (∀ count, tag.count = some count → ∀ c ∈ count.toList, c ≠ ']' ∧ c ≠ '\n') ∧
    Argument.ListFits native.signature.args args

/-- Whether the last piece of a text is a call. -/
def EndsInCall (items : List (Item String σ)) : Prop :=
  ∃ init tag native args, items = init ++ [.call tag native args]

theorem EndsInCall.of_cons {item : Item String σ} {items : List (Item String σ)}
    (h : EndsInCall (item :: items)) : items = [] ∨ EndsInCall items := by
  obtain ⟨init, tag, native, args, heq⟩ := h
  cases init with
  | nil => exact .inl (List.cons.inj heq).2
  | cons _ init => exact .inr ⟨init, tag, native, args, (List.cons.inj heq).2⟩

theorem EndsInCall.of_text {s : String} {items : List (Item String σ)}
    (h : EndsInCall (.text s :: items)) : EndsInCall items := by
  obtain ⟨init, tag, native, args, heq⟩ := h
  cases init with
  | nil => cases (List.cons.inj heq).1
  | cons _ init => exact ⟨init, tag, native, args, (List.cons.inj heq).2⟩

end Item

end Markup

open Markup

/-- An operator is written in characters that need no escape and end no argument. -/
theorem Operator.ne_of_mem_token {op : Operator} : ∀ c ∈ op.token,
    (c ≠ '\\' ∧ c ≠ '$') ∧ c ≠ ';' ∧ c ≠ ']' := by
  have hall : op.token.all fun c => (c ≠ '\\' ∧ c ≠ '$') ∧ c ≠ ';' ∧ c ≠ ']' := by
    cases op <;> decide
  exact fun c h => of_decide_eq_true (List.all_eq_true.1 hall c h)

/-- A cursor before a text that is still to be cut into tokens. -/
def Cursor.over (words : List (List Char)) (pos next : Nat) (cs : List Char) : Cursor :=
  ⟨Token.ofChars words 0 pos cs, next⟩

/-! ### What stands in front -/

namespace Tag.Stops

theorem escape (c : Char) (cs : List Char) : Stops ('\\' :: c :: cs) := .single (by decide)

theorem spelling (t : Tag) (rest : List Char) : Stops (t.spelling ++ rest) := .single (by decide)

theorem literal (cs : List Char) {rest : List Char} (h : Stops rest) :
    Stops (Markup.escape cs ++ rest) := by
  cases cs with
  | nil => exact h
  | cons c cs => exact .escape c _

theorem text {σ : Type} (items : List (Item String σ)) {rest : List Char} (h : Stops rest) :
    Stops (Item.textSpelling escaping items ++ rest) := by
  induction items with
  | nil => exact h
  | cons item items ih =>
    rw [Item.textSpelling, List.append_assoc]
    cases item with
    | text s => exact .literal s.toList ih
    | call tag native args =>
      rw [Item.spelling, List.append_assoc]
      exact .spelling tag _

theorem ender {e : Char} (he : e = ';' ∨ e = ']') (rest : List Char) : Stops (e :: rest) := by
  rcases he with rfl | rfl <;> exact .single (by decide)

theorem operator {op : Operator} (h : op ≠ .unknown) (rest : List Char) :
    Stops (op.token ++ rest) := by
  cases op with
  | ne => exact .differs
  | unknown => exact absurd rfl h
  | _ => exact .single (by decide)

/-- The text behind an operator does not make it another one. -/
theorem head_text {σ : Type} (items : List (Item String σ)) {e : Char} (he : e = ';' ∨ e = ']')
    (rest : List Char) : (Item.textSpelling escaping items ++ e :: rest).head? ≠ some '=' := by
  induction items with
  | nil => rcases he with rfl | rfl <;> exact fun h => absurd (Option.some.inj h) (by decide)
  | cons item items ih =>
    cases item with
    | text s =>
      rw [Item.textSpelling, List.append_assoc, Item.spelling]
      cases hs : s.toList with
      | nil => simpa [escaping, Markup.escape, hs] using ih
      | cons c cs => simp [escaping, Markup.escape, hs]
    | call tag native args => exact fun h => absurd (Option.some.inj h) (by decide)

theorem ne_bracket {c : Char} {cs : List Char} (h : Stops (c :: cs)) : c ≠ '[' := by
  rintro rfl
  cases h with
  | single h => exact absurd h (by decide)

end Tag.Stops

namespace Token
variable {words : List (List Char)} (hw : Vocabulary.PlainWords words)
include hw

/-- Literal text becomes one token for each character. -/
theorem ofChars_escape_append (pos : Nat) (cs : List Char) {rest : List Char}
    (h : Tag.Stops rest) :
    ∃ pos', ofChars words 0 pos (Markup.escape cs ++ rest) =
      cs.map (.escape false) ++ ofChars words 0 pos' rest := by
  induction cs generalizing pos with
  | nil => exact ⟨pos, rfl⟩
  | cons c cs ih =>
    obtain ⟨pos', ih⟩ := ih (pos + 2)
    have hnone : Tag.tagAt words (c :: (Markup.escape cs ++ rest)) = none := by
      by_cases hc : c = '$'
      · subst hc
        exact Tag.tagAt_of_stops hw (h.literal cs)
      · exact Tag.tagAt_of_ne _ hc
    exact ⟨pos', (ofChars_escape_of_none words hnone).trans (congrArg (.escape false c :: ·) ih)⟩

end Token

namespace Program
variable {σ : Type} {v : Vocabulary σ} {depth : Nat}

/-! ### Pieces that stand in arguments -/

/-- Escaped characters of an argument go into its text. -/
theorem ReadsField.literal {condition : Bool} {draft : Draft σ}
    {before : Option (Operator × Draft σ)} (cs : List Char) {ts : List Token} {n : Nat}
    {field : Field (Invocation σ)} {closed : Bool} {c' : Cursor}
    (h : ReadsField v depth condition (draft.extend (cs.map .char)) before ⟨ts, n⟩ field closed
      c') :
    ReadsField v depth condition draft before ⟨cs.map (.escape false) ++ ts, n⟩ field closed
      c' := by
  induction cs generalizing draft with
  | nil => exact h
  | cons c cs ih => exact .escape (ih h)

/-- An operator that is written splits an argument that is not split yet. -/
theorem ReadsField.split {draft : Draft σ} {op : Operator} (named : op ≠ .unknown)
    {pos next : Nat} {rest : List Char} (hr : rest.head? ≠ some '=') :
    ∃ pos', ∀ field closed c',
      ReadsField v depth true {} (some (op, draft)) (.over v.words pos' next rest) field closed c' →
        ReadsField v depth true draft none (.over v.words pos next (op.token ++ rest))
          field closed c' := by
  refine ⟨pos + op.token.length, fun field closed c' h => ?_⟩
  have htokens : Token.ofChars v.words 0 pos (op.token ++ rest) = op.token.map .char ++ _ :=
    Token.ofChars_append v.words op.token fun c hc => (Operator.ne_of_mem_token c hc).1
  have hdrop : (Token.ofChars v.words 0 pos (op.token ++ rest)).drop op.width =
      Token.ofChars v.words 0 (pos + op.token.length) rest := by
    rw [htokens]
    exact List.drop_left' (List.length_map _)
  have hchars := Token.flatMap_spelling_ofChars v.words 0 pos (op.token ++ rest)
  obtain ⟨c, ts, hop, hts⟩ : ∃ c ts, c ∈ op.token ∧
      Token.ofChars v.words 0 pos (op.token ++ rest) = .char c :: ts := by
    cases op with
    | unknown => exact absurd rfl named
    | _ => exact ⟨_, _, List.mem_cons_self, htokens⟩
  rw [hts] at hdrop hchars
  have hfound : Token.operator? true (none : Option (Operator × Draft σ)) (.char c :: ts) =
      some op := by
    refine (Token.scan_lead c ts).trans ?_
    rw [List.flatMap_cons] at hchars
    exact (congrArg Operator.scan hchars).trans (Operator.scan_token_append op named rest hr)
  rw [Cursor.over, hts]
  refine .operator (Operator.ne_of_mem_token c hop).2 hfound ?_
  rw [hdrop]
  exact h

/-- The tokens of a call. -/
theorem ofChars_call (hv : v.Plain) {tag : Tag} {native : Native σ}
    {args : Option (List (Argument (Item String σ)))} (hfit : Item.Fits v (.call tag native args))
    {rest : List Char} (hrest : Tag.Stops rest) (pos : Nat) :
    Token.ofChars v.words 0 pos (Item.spelling escaping (.call tag native args) ++ rest) =
      .tag pos tag :: Token.ofChars v.words 0 (pos + tag.width)
        (Item.bracketsSpelling escaping args ++ rest) := by
  obtain ⟨⟨name, hname, htag⟩, hcount, -⟩ := hfit
  have hspells : Tag.Spells v.words tag.name.toList := by
    rw [htag]
    exact hv.spells hname
  have hbars : ∀ c ∈ (Item.bracketsSpelling escaping args ++ rest).head?, Text.Bars c := by
    cases args with
    | none => exact hrest.bars
    | some args =>
      rintro _ ⟨⟩
      rfl
  rw [Item.spelling, List.append_assoc]
  exact Token.ofChars_tag v.words (Tag.tagAt_spelling hv.words hspells hcount hbars)

/-- Text that stops a tag opens no argument list. -/
theorem not_opensList {pos next : Nat} {rest : List Char} (h : Tag.Stops rest) :
    ¬ (Cursor.over v.words pos next rest).opensList := by
  intro hopens
  obtain ⟨ts, hts⟩ := List.head?_eq_some_iff.1 hopens
  have hchars := Token.flatMap_spelling_ofChars v.words 0 pos rest
  rw [show Token.ofChars v.words 0 pos rest = .char '[' :: ts from hts] at hchars
  rw [← hchars] at h
  exact h.ne_bracket rfl

theorem resolve_of_fits (hv : v.Plain) {tag : Tag} {native : Native σ}
    {args : Option (List (Argument (Item String σ)))} (hfit : Item.Fits v (.call tag native args)) :
    v.resolve tag.name = some native := by
  obtain ⟨⟨name, hname, htag⟩, -⟩ := hfit
  rw [htag]
  exact hv.bare hname

/-- A separator or closing bracket that stands by itself ends an argument. -/
theorem ReadsField.ended {condition : Bool} {draft : Draft σ} {before : Option (Operator × Draft σ)}
    {e : Char} (he : e = ';' ∨ e = ']') (pos next : Nat) (rest : List Char) :
    ReadsField v depth condition draft before (.over v.words pos next (e :: rest))
      (draft.field condition before) (e == ']') (.over v.words (pos + 1) next rest) := by
  have hplain : e ≠ '\\' ∧ e ≠ '$' := by
    rcases he with rfl | rfl <;> decide
  rw [Cursor.over, Token.ofChars_char v.words hplain.1 fun _ => Tag.tagAt_of_ne _ hplain.2]
  exact .close he

/-- Whether an argument is read over some characters, which leave some parts in its draft
and go on with `rest`. -/
def ReadsOver (v : Vocabulary σ) (depth : Nat) (rest cs : List Char) (calls : Nat)
    (parts : Nat → List (Part (Invocation σ))) : Prop :=
  ∀ (condition : Bool) (draft : Draft σ) (before : Option (Operator × Draft σ)) (pos next : Nat),
    ∃ pos', ∀ field closed c',
      ReadsField v depth condition (draft.extend (parts next)) before
          (.over v.words pos' (next + calls) rest) field closed c' →
        ReadsField v depth condition draft before (.over v.words pos next (cs ++ rest))
          field closed c'

theorem ReadsOver.append {rest cs₁ cs₂ : List Char} {calls₁ calls₂ : Nat}
    {parts₁ parts₂ : Nat → List (Part (Invocation σ))}
    (h₁ : ReadsOver v depth (cs₂ ++ rest) cs₁ calls₁ parts₁)
    (h₂ : ReadsOver v depth rest cs₂ calls₂ parts₂) :
    ReadsOver v depth rest (cs₁ ++ cs₂) (calls₁ + calls₂)
      fun next => parts₁ next ++ parts₂ (next + calls₁) := by
  intro condition draft before pos next
  obtain ⟨pos₁, h₁⟩ := h₁ condition draft before pos next
  obtain ⟨pos₂, h₂⟩ := h₂ condition (draft.extend (parts₁ next)) before pos₁ (next + calls₁)
  refine ⟨pos₂, fun field closed c' h => ?_⟩
  rw [Draft.extend_append, ← Nat.add_assoc] at h
  rw [List.append_assoc]
  exact h₁ field closed c' (h₂ field closed c' h)

/-! ### The whole tree -/

mutual

theorem readsOver_item (hv : v.Plain) (item : Item String σ) (hall : item.All (Item.Fits v))
    {rest : List Char} (hrest : Tag.Stops rest) :
    ReadsOver v depth rest (item.spelling escaping) item.calls
      fun next => item.parts escaping depth next := by
  intro condition draft before pos next
  match item, hall with
  | .text s, _ =>
    obtain ⟨pos', htokens⟩ := Token.ofChars_escape_append hv.words pos s.toList hrest
    refine ⟨pos', fun field closed c' h => ?_⟩
    rw [Item.spelling, Cursor.over]
    rw [show escaping.write s = Markup.escape s.toList from rfl, htokens]
    exact .literal s.toList h
  | .call tag native args, ⟨hfit, hargs⟩ =>
    obtain ⟨pos', harguments⟩ :=
      readsArguments hv args hargs hfit.2.2 hrest (pos + tag.width) next
    refine ⟨pos', fun field closed c' h => ?_⟩
    rw [Cursor.over, ofChars_call hv hfit hrest]
    exact .tag (.mk (resolve_of_fits hv hfit) harguments) h

theorem readsOver_text (hv : v.Plain) (items : List (Item String σ))
    (hall : Item.TextAll (Item.Fits v) items) {rest : List Char} (hrest : Tag.Stops rest) :
    ReadsOver v depth rest (Item.textSpelling escaping items) (Item.textCalls items)
      fun next => Item.textParts escaping depth next items := by
  match items, hall with
  | [], _ => exact fun _ _ _ pos _ => ⟨pos, fun _ _ _ h => h⟩
  | item :: items, ⟨hitem, hitems⟩ =>
    exact (readsOver_item hv item hitem (hrest.text items)).append
      (readsOver_text hv items hitems hrest)

theorem readsArguments (hv : v.Plain) (args : Option (List (Argument (Item String σ))))
    (hall : Item.BracketsAll (Item.Fits v) args) {schema : Option ArgumentSchema}
    (hfit : Argument.ListFits schema args) {rest : List Char} (hrest : Tag.Stops rest)
    (pos next : Nat) :
    ∃ pos', ReadsArguments v depth schema
      (.over v.words pos next (Item.bracketsSpelling escaping args ++ rest))
      (Item.bracketsFields escaping depth next args)
      (.over v.words pos' (next + Item.bracketsCalls args) rest) := by
  match schema, args, hall, hfit with
  | none, none, _, _ => exact ⟨pos, .noSchema⟩
  | some schema, none, _, hfit => exact ⟨pos, .omitted hfit (not_opensList hrest)⟩
  | some schema, some [], _, hfit =>
    have hnone : schema.fields = [] := by
      cases hfields : schema.fields with
      | nil => rfl
      | cons spec specs =>
        rw [Argument.ListFits, hfields] at hfit
        exact hfit.elim
    have htokens : Token.ofChars v.words 0 pos (['[', ']'] ++ rest) = [.char '[', .char ']'] ++ _ :=
      Token.ofChars_append v.words ['[', ']'] (by simp)
    refine ⟨pos + 2, ?_⟩
    rw [Cursor.over, Item.bracketsSpelling, Item.listSpelling]
    rw [show '[' :: [']'] ++ rest = ['[', ']'] ++ rest from rfl, htokens]
    exact .empty hnone
  | some schema, some (arg :: args), hall, hfit =>
    cases hfields : schema.fields with
    | nil =>
      rw [Argument.ListFits, hfields] at hfit
      cases hfit
    | cons spec specs =>
      rw [Argument.ListFits, hfields] at hfit
      obtain ⟨pos', h⟩ := readsFields hv (arg :: args) hall hfit rest (pos + 1) next
      have htokens : Token.ofChars v.words 0 pos
          ('[' :: (Item.listSpelling escaping (arg :: args) ++ rest)) = .char '[' :: _ :=
        Token.ofChars_char v.words (by decide) fun _ => Tag.tagAt_of_ne _ (by decide)
      refine ⟨pos', ?_⟩
      rw [Cursor.over, Item.bracketsSpelling, List.cons_append, htokens]
      exact .listed hfields h

theorem readsFields (hv : v.Plain) (args : List (Argument (Item String σ)))
    (hall : Item.ListAll (Item.Fits v) args) {spec : FieldSpec} {specs : List FieldSpec}
    (hfit : Argument.AllAnswer spec specs args) (rest : List Char) (pos next : Nat) :
    ∃ pos', ReadsFields v depth spec specs
      (.over v.words pos next (Item.listSpelling escaping args ++ rest))
      (Item.listFields escaping depth next args)
      (.over v.words pos' (next + Item.listCalls args) rest) := by
  match args, hall, hfit with
  | [arg], ⟨harg, _⟩, hfit =>
    obtain ⟨pos', h⟩ := readsField_argument hv arg harg hfit (.inr rfl) rest pos next
    refine ⟨pos', ?_⟩
    rw [Item.listSpelling, List.append_assoc]
    exact .last h
  | arg :: arg' :: args, ⟨harg, hargs⟩, hfit =>
    obtain ⟨hans, hmore⟩ := Argument.allAnswer_cons (List.cons_ne_nil _ _) hfit
    obtain ⟨pos₁, h₁⟩ := readsField_argument hv arg harg hans (.inl rfl)
      (Item.listSpelling escaping (arg' :: args) ++ rest) pos next
    rw [Item.listSpelling_cons _ _ (List.cons_ne_nil _ _), List.append_assoc, List.cons_append,
      Item.listCalls, ← Nat.add_assoc]
    rcases hmore with ⟨hrest, hmore⟩ | ⟨hrest, spec', specs', hspecs, hmore⟩
    · obtain ⟨pos₂, h₂⟩ := readsFields hv (arg' :: args) hargs hmore rest pos₁
        (next + Item.argumentCalls arg)
      exact ⟨pos₂, .again hrest h₁ h₂⟩
    · obtain ⟨pos₂, h₂⟩ := readsFields hv (arg' :: args) hargs hmore rest pos₁
        (next + Item.argumentCalls arg)
      rw [hspecs]
      exact ⟨pos₂, .next hrest h₁ h₂⟩

theorem readsField_argument (hv : v.Plain) (arg : Argument (Item String σ))
    (hall : Item.ArgumentAll (Item.Fits v) arg) {spec : FieldSpec} (hfit : arg.Answers spec)
    {e : Char} (he : e = ';' ∨ e = ']') (rest : List Char) (pos next : Nat) :
    ∃ pos', ReadsField v depth spec.condition {} none
      (.over v.words pos next (Item.argumentSpelling escaping arg ++ e :: rest))
      (Item.argumentField escaping depth next arg) (e == ']')
      (.over v.words pos' (next + Item.argumentCalls arg) rest) := by
  match arg, hall, hfit with
  | .plain items, hall, hfit =>
    obtain ⟨pos', hread⟩ :=
      readsOver_text hv items hall (.ender he rest) spec.condition {} none pos next
    have h := hread _ _ _ (.ended he pos' _ rest)
    rw [hfit] at h ⊢
    rw [Draft.field, Draft.finish_extend] at h
    exact ⟨pos' + 1, h⟩
  | .lone items, hall, hfit =>
    obtain ⟨pos', hread⟩ :=
      readsOver_text hv items hall (.ender he rest) spec.condition {} none pos next
    have h := hread _ _ _ (.ended he pos' _ rest)
    rw [hfit] at h ⊢
    rw [Draft.field, Draft.finish_extend] at h
    exact ⟨pos' + 1, h⟩
  | .comparison op lhs rhs, ⟨hlhs, hrhs⟩, ⟨hcondition, named⟩ =>
    rw [hcondition]
    obtain ⟨pos₁, h₁⟩ := readsOver_text hv lhs hlhs
      (.operator named (Item.textSpelling escaping rhs ++ e :: rest)) true {} none pos next
    obtain ⟨pos₂, h₂⟩ := ReadsField.split named (Tag.Stops.head_text rhs he rest)
    obtain ⟨pos₃, h₃⟩ := readsOver_text hv rhs hrhs (.ender he rest) true {} _ pos₂ _
    have h := h₁ _ _ _ (h₂ _ _ _ (h₃ _ _ _ (.ended he pos₃ _ rest)))
    refine ⟨pos₃ + 1, ?_⟩
    rw [Item.argumentSpelling, List.append_assoc, List.append_assoc, Item.argumentCalls,
      ← Nat.add_assoc, Item.argumentField, ← Draft.finish_extend, ← Draft.finish_extend]
    exact h

end

/-! ### Top level -/

/-- Escapes are undone at top level as long as a tag is still to come. -/
theorem ReadsText.literal {draft result : Draft σ} (cs : List Char) {ts : List Token} {n : Nat}
    (hts : ts.any Token.marksTag = true)
    (h : ReadsText v depth (draft.extend (cs.map .char)) ⟨ts, n⟩ result) :
    ReadsText v depth draft ⟨cs.map (.escape false) ++ ts, n⟩ result := by
  induction cs generalizing draft with
  | nil => exact h
  | cons c cs ih =>
    have hlater : (cs.map (Token.escape false) ++ ts).any Token.marksTag = true := by
      rw [List.any_append, hts, Bool.or_true]
    exact .undone hlater (ih h)

/-- In front of its last call a text still has a tag to come. -/
theorem any_marksTag (hv : v.Plain) {items : List (Item String σ)}
    (hall : Item.TextAll (Item.Fits v) items) (hends : Item.EndsInCall items) (pos : Nat) :
    (Token.ofChars v.words 0 pos (Item.textSpelling escaping items)).any Token.marksTag = true := by
  induction items generalizing pos with
  | nil =>
    obtain ⟨init, tag, native, args, heq⟩ := hends
    cases init <;> cases heq
  | cons item items ih =>
    obtain ⟨hitem, hitems⟩ := hall
    have hstops : Tag.Stops (Item.textSpelling escaping items ++ []) := .text items .nil
    rw [List.append_nil] at hstops
    cases item with
    | text s =>
      obtain ⟨pos', htokens⟩ := Token.ofChars_escape_append hv.words pos s.toList hstops
      rw [Item.textSpelling, Item.spelling, show escaping.write s = escape s.toList from rfl,
        htokens, List.any_append, ih hitems hends.of_text, Bool.or_true]
    | call tag native args =>
      rw [Item.textSpelling, ofChars_call hv hitem.1 hstops]
      rfl

theorem readsText_text (hv : v.Plain) {items : List (Item String σ)}
    (hall : Item.TextAll (Item.Fits v) items) (hends : items = [] ∨ Item.EndsInCall items)
    (draft : Draft σ) (pos next : Nat) :
    ReadsText v depth draft (.over v.words pos next (Item.textSpelling escaping items))
      (draft.extend (Item.textParts escaping depth next items)) := by
  induction items generalizing draft pos next with
  | nil =>
    rw [Cursor.over, Item.textSpelling, Token.ofChars_nil]
    exact .done
  | cons item items ih =>
    obtain ⟨hitem, hitems⟩ := hall
    have hends : Item.EndsInCall (item :: items) := hends.resolve_left (List.cons_ne_nil _ _)
    have hstops : Tag.Stops (Item.textSpelling escaping items ++ []) := .text items .nil
    rw [List.append_nil] at hstops
    rw [Item.textParts, Draft.extend_append, Item.textSpelling, Cursor.over]
    cases item with
    | text s =>
      obtain ⟨pos', htokens⟩ := Token.ofChars_escape_append hv.words pos s.toList hstops
      rw [Item.spelling, show escaping.write s = escape s.toList from rfl, htokens]
      have hlast := hends.of_text
      exact .literal s.toList (any_marksTag hv hitems hlast pos')
        (ih hitems (.inr hlast) _ pos' next)
    | call tag native args =>
      obtain ⟨hfit, hargs⟩ := hitem
      obtain ⟨pos', harguments⟩ :=
        readsArguments hv args hargs hfit.2.2 hstops (pos + tag.width) next
      rw [ofChars_call hv hfit hstops]
      exact .tag (.mk (resolve_of_fits hv hfit) harguments) (ih hitems hends.of_cons _ pos' _)

/-- **Compiling undoes writing.** Over natives with plain names, markup that fits and that
ends in a call compiles, from the way it is written, to the program it stands for. -/
theorem compile_textSpelling {natives : List (Native σ)}
    (hplain : ∀ n ∈ natives, ∀ name ∈ n.signature.names, PlainName (normalise name))
    {items : List (Item String σ)}
    (hfits : Item.TextAll (Item.Fits (Vocabulary.ofNatives natives)) items)
    (hends : Item.EndsInCall items) (path : Option String) :
    compile (Vocabulary.ofNatives natives) (String.ofList (Item.textSpelling escaping items)) path =
      .ok (ofText (String.ofList (Item.textSpelling escaping items)) path 0
        (.ofParts (Item.textParts escaping 0 0 items))) := by
  have hread : ReadsText (Vocabulary.ofNatives natives) 0 {} _ _ :=
    readsText_text (Vocabulary.plain_ofNatives hplain) hfits (.inr hends) {} 0 0
  refine compileAt_eq_ok_iff.2 ⟨_, ?_, (ofDraft_extend _ path 0 _).symm⟩
  rw [String.toList_ofList]
  exact hread

/-- The text of a tag stands before a comparison with a call in it, which has a bracket
as its argument. -/
theorem compile_textSpelling_builtin :
    let natives : List (Native Unit) := Builtin.all
    let get : Item String Unit :=
      .call ⟨false, true, none, "get"⟩ Builtin.getNative (some [.plain [.text "]"]])
    let items : List (Item String Unit) :=
      [.text "$stop", .call ⟨true, false, some "a;", "If"⟩ Builtin.ifNative
        (some [.comparison .le [.text "$"] [get, .text "=="], .plain []])]
    (∀ n ∈ natives, ∀ name ∈ n.signature.names, PlainName (normalise name)) ∧
      Item.TextAll (Item.Fits (Vocabulary.ofNatives natives)) items ∧ Item.EndsInCall items ∧
      compile (Vocabulary.ofNatives natives) (String.ofList (Item.textSpelling escaping items))
        none = .ok (ofText (String.ofList (Item.textSpelling escaping items)) none 0
          (.ofParts (Item.textParts escaping 0 0 items))) := by
  intro natives get items
  have hplain : ∀ n ∈ natives, ∀ name ∈ n.signature.names, PlainName (normalise name) := by
    decide +kernel
  have hget : Item.Fits (Vocabulary.ofNatives natives) get :=
    ⟨⟨"get", rfl, by decide +kernel⟩, nofun, rfl⟩
  have hif : Item.Fits (Vocabulary.ofNatives natives) items[1] := by
    refine ⟨⟨"$If ", rfl, by decide +kernel⟩, ?_, ⟨rfl, by decide⟩, rfl⟩
    rintro _ ⟨⟩
    simp
  have hfits : Item.TextAll (Item.Fits (Vocabulary.ofNatives natives)) items :=
    ⟨trivial, ⟨hif, ⟨⟨trivial, trivial⟩, ⟨hget, ⟨trivial, trivial⟩, trivial⟩, trivial, trivial⟩,
      trivial, trivial⟩, trivial⟩
  have hends : Item.EndsInCall items := ⟨[items[0]], _, _, _, rfl⟩
  exact ⟨hplain, hfits, hends, compile_textSpelling hplain hfits hends none⟩

end Program

end TagTemplate
