import TagTemplate.Comparison
import TagTemplate.Native.Behaviour
import TagTemplate.Template

/-! Programs: compiled templates.

A program is a tree. Its text, and the text of every argument, is kept as code
with placeholders, as a template, and as the list of invocations that stand in
the slots of that template. Each invocation carries the native it was resolved
to. `Program.walk` lists all invocations, each before those nested in it. -/
namespace TagTemplate

/-- One side of an argument: a text with nested invocations of type `ι`. -/
structure FieldText (ι : Type) where
  /-- The text with placeholders. -/
  value : String
  /-- The nested invocations in the order of their slots. -/
  invocations : List ι
  template : Template

/-- An argument of an invocation. -/
inductive Field (ι : Type) where
  | plain (text : FieldText ι)
  | condition (op : Operator) (lhs : FieldText ι) (rhs : Option (FieldText ι))

/-- An invocation: what is known of it, its native, and its arguments if an
argument list was written. -/
inductive Invocation (σ : Type) where
  | mk (heading : Heading) (native : Native σ) (fields : Option (List (Field (Invocation σ))))

/-- A compiled template. -/
structure Program (σ : Type) where
  source : String
  path : Option String
  /-- The source with a placeholder for each top-level invocation. -/
  code : String
  /-- The top-level invocations in the order of their slots. -/
  invocations : List (Invocation σ)
  template : Template
  /-- How many expansions the program is away from its run's own template. -/
  depth : Nat

/-- The invocations of an argument in source order. -/
def Field.invocations {ι : Type} : Field ι → List ι
  | .plain text => text.invocations
  | .condition _ lhs none => lhs.invocations
  | .condition _ lhs (some rhs) => lhs.invocations ++ rhs.invocations

namespace Invocation
variable {σ : Type}

/-- What is known of an invocation. -/
def heading : Invocation σ → Heading
  | .mk heading _ _ => heading

/-- The native of an invocation. -/
def native : Invocation σ → Native σ
  | .mk _ native _ => native

/-- The arguments of an invocation. -/
def fields : Invocation σ → Option (List (Field (Invocation σ)))
  | .mk _ _ fields => fields

/-- The invocations in the arguments of an invocation. -/
def nested (i : Invocation σ) : List (Invocation σ) :=
  (i.fields.getD []).flatMap Field.invocations

mutual

/-- The number of invocations in a tree. -/
def size : Invocation σ → Nat
  | .mk _ _ none => 1
  | .mk _ _ (some fields) => fieldsSize fields + 1

/-- The number of invocations in some arguments. -/
def fieldsSize : List (Field (Invocation σ)) → Nat
  | [] => 0
  | field :: fields => fieldSize field + fieldsSize fields

/-- The number of invocations in an argument. -/
def fieldSize : Field (Invocation σ) → Nat
  | .plain text => textSize text
  | .condition _ lhs none => textSize lhs
  | .condition _ lhs (some rhs) => textSize lhs + textSize rhs

/-- The number of invocations in one side of an argument. -/
def textSize : FieldText (Invocation σ) → Nat
  | ⟨_, invocations, _⟩ => forestSize invocations

/-- The number of invocations in some trees. -/
def forestSize : List (Invocation σ) → Nat
  | [] => 0
  | i :: is => size i + forestSize is

end

/-- Takes up to `steps` invocations off a stack, each replaced by those nested in
it. -/
def unstack : (steps : Nat) → List (Invocation σ) → List (Invocation σ)
  | 0, _ => []
  | _ + 1, [] => []
  | steps + 1, i :: stack => i :: unstack steps (i.nested ++ stack)

end Invocation

namespace Program
variable {σ : Type}

/-- Every invocation of a program, outer before inner, in source order. -/
def walk (p : Program σ) : List (Invocation σ) :=
  Invocation.unstack (Invocation.forestSize p.invocations) p.invocations

/-- The names of all invocations, outer before inner. -/
def functionNames (p : Program σ) : List String := p.walk.map (·.heading.name)

/-- The text with the values of the top-level invocations in their slots. -/
def resolve (p : Program σ) (values : List Json) : String := p.template.resolve values

end Program

end TagTemplate
