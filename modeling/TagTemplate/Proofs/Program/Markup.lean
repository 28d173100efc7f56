import TagTemplate.Proofs.Program.Parts
import TagTemplate.Proofs.Text.Spans

/-! Markup: templates as trees, and how they are written.

A piece of markup is literal text or a call: a tag, the native that it calls and the
arguments, which are markup again. How literal text is written and what it means is a
`Style`, so that one tree serves both for the text an author has in mind and for the
characters that stand in a source.

`Item.textSpelling` writes markup down: an argument list in brackets, a separator between
arguments, the token of an operator between its two sides. `Item.textParts` says what the
same markup compiles to, with no reading in between: the literal texts as they are meant,
and the calls numbered when they are complete, nested ones first. -/
namespace TagTemplate.Markup

/-- An argument as markup of type `α`: text, the lone side of a condition, or a
comparison. -/
inductive Argument (α : Type) where
  | plain (text : List α)
  | lone (text : List α)
  | comparison (op : Operator) (lhs rhs : List α)

/-- A piece of markup: literal text of type `τ`, or a call with the arguments that are
written for it, if a list of them is. -/
inductive Item (τ σ : Type) where
  | text (content : τ)
  | call (tag : Tag) (native : Native σ) (args : Option (List (Argument (Item τ σ))))

/-- How literal text is written, and what it means. -/
structure Style (τ : Type) where
  write : τ → List Char
  mean : τ → List Char

namespace Item
variable {τ σ : Type}

section Spelling
variable (w : Style τ)

mutual

/-- A piece of markup as it is written. -/
def spelling : Item τ σ → List Char
  | .text content => w.write content
  | .call tag _ args => tag.spelling ++ bracketsSpelling args

/-- The argument list of a call as it is written, if there is one. -/
def bracketsSpelling : Option (List (Argument (Item τ σ))) → List Char
  | none => []
  | some args => '[' :: listSpelling args

/-- Some arguments as they are written, up to the closing bracket. -/
def listSpelling : List (Argument (Item τ σ)) → List Char
  | [] => [']']
  | [arg] => argumentSpelling arg ++ [']']
  | arg :: args => argumentSpelling arg ++ ';' :: listSpelling args

/-- An argument as it is written. -/
def argumentSpelling : Argument (Item τ σ) → List Char
  | .plain items => textSpelling items
  | .lone items => textSpelling items
  | .comparison op lhs rhs => textSpelling lhs ++ (op.token ++ textSpelling rhs)

/-- A text as it is written. -/
def textSpelling : List (Item τ σ) → List Char
  | [] => []
  | item :: items => spelling item ++ textSpelling items

end

/-- The bytes that the calls in a text take up as it is written, from an offset on; what is nested
in them is not counted again. -/
def callSpans (offset : Nat) : List (Item τ σ) → List Text.Span
  | [] => []
  | .text content :: items => callSpans (offset + Text.byteWidth (w.write content)) items
  | .call tag native args :: items =>
    Text.spanAt offset (spelling w (.call tag native args)) ::
      callSpans (offset + Text.byteWidth (spelling w (.call tag native args))) items

end Spelling

mutual

/-- The number of calls in a piece of markup. -/
def calls : Item τ σ → Nat
  | .text _ => 0
  | .call _ _ args => bracketsCalls args + 1

/-- The number of calls in an argument list. -/
def bracketsCalls : Option (List (Argument (Item τ σ))) → Nat
  | none => 0
  | some args => listCalls args

/-- The number of calls in some arguments. -/
def listCalls : List (Argument (Item τ σ)) → Nat
  | [] => 0
  | arg :: args => argumentCalls arg + listCalls args

/-- The number of calls in an argument. -/
def argumentCalls : Argument (Item τ σ) → Nat
  | .plain items => textCalls items
  | .lone items => textCalls items
  | .comparison _ lhs rhs => textCalls lhs + textCalls rhs

/-- The number of calls in a text. -/
def textCalls : List (Item τ σ) → Nat
  | [] => 0
  | item :: items => calls item + textCalls items

end

section Parts
variable (w : Style τ) (depth : Nat)

mutual

/-- The parts that a piece of markup compiles to, its calls numbered from `next` on. -/
def parts (next : Nat) : Item τ σ → List (Part (Invocation σ))
  | .text content => (w.mean content).map .char
  | .call tag native args =>
    [.slot (.mk (tag.heading native (next + bracketsCalls args) depth) native
      (bracketsFields next args))]

/-- The arguments that an argument list compiles to, if there is one. -/
def bracketsFields (next : Nat) :
    Option (List (Argument (Item τ σ))) → Option (List (Field (Invocation σ)))
  | none => none
  | some args => some (listFields next args)

/-- What some arguments compile to. -/
def listFields (next : Nat) : List (Argument (Item τ σ)) → List (Field (Invocation σ))
  | [] => []
  | arg :: args => argumentField next arg :: listFields (next + argumentCalls arg) args

/-- What an argument compiles to. -/
def argumentField (next : Nat) : Argument (Item τ σ) → Field (Invocation σ)
  | .plain items => .plain (.ofParts (textParts next items))
  | .lone items => .condition .unknown (.ofParts (textParts next items)) none
  | .comparison op lhs rhs =>
    .condition op (.ofParts (textParts next lhs))
      (some (.ofParts (textParts (next + textCalls lhs) rhs)))

/-- The parts that a text compiles to. -/
def textParts (next : Nat) : List (Item τ σ) → List (Part (Invocation σ))
  | [] => []
  | item :: items => parts next item ++ textParts (next + calls item) items

end

end Parts

section Everywhere
variable (P : Item τ σ → Prop)

mutual

/-- Whether a property holds of a piece of markup and of all markup nested in it. -/
def All : Item τ σ → Prop
  | .text content => P (.text content)
  | .call tag native args => P (.call tag native args) ∧ BracketsAll args

/-- Whether a property holds of all markup in an argument list. -/
def BracketsAll : Option (List (Argument (Item τ σ))) → Prop
  | none => True
  | some args => ListAll args

/-- Whether a property holds of all markup in some arguments. -/
def ListAll : List (Argument (Item τ σ)) → Prop
  | [] => True
  | arg :: args => ArgumentAll arg ∧ ListAll args

/-- Whether a property holds of all markup in an argument. -/
def ArgumentAll : Argument (Item τ σ) → Prop
  | .plain items => TextAll items
  | .lone items => TextAll items
  | .comparison _ lhs rhs => TextAll lhs ∧ TextAll rhs

/-- Whether a property holds of all markup in a text. -/
def TextAll : List (Item τ σ) → Prop
  | [] => True
  | item :: items => All item ∧ TextAll items

end

end Everywhere

theorem mem_callSpans_cons {w : Style τ} {offset : Nat} {item : Item τ σ}
    {items : List (Item τ σ)} {call : Text.Span}
    (h : call ∈ callSpans w (offset + Text.byteWidth (item.spelling w)) items) :
    call ∈ callSpans w offset (item :: items) := by
  cases item with
  | text content => exact h
  | call tag native args => exact List.mem_cons_of_mem _ h

theorem listSpelling_cons (w : Style τ) (arg : Argument (Item τ σ))
    {args : List (Argument (Item τ σ))} (h : args ≠ []) :
    listSpelling w (arg :: args) = argumentSpelling w arg ++ ';' :: listSpelling w args := by
  cases args with
  | nil => exact absurd rfl h
  | cons arg' args => rfl

end Item

end TagTemplate.Markup
