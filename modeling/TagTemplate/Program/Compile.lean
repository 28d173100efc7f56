import TagTemplate.Program.Basic
import TagTemplate.Program.Token
import TagTemplate.Tag.Shape
import TagTemplate.Vocabulary

/-! Compiling templates.

The tokens of a template are read by recursive descent: an invocation is a tag
and, if its schema allows one, a bracketed list of arguments; an argument is text
with nested invocations up to a separator or the closing bracket. Escapes are
undone inside arguments, and at top level as long as a tag is still to come; after
the last tag the text is taken as it is. Invocations are numbered when they are
complete, so nested ones come first. -/
namespace TagTemplate

/-- A fault, the function it concerns, and the character at which its tag starts. -/
structure Problem where
  fault : CompileFault
  function : String
  start : Nat
  deriving DecidableEq, Repr

/-- What is still to be read, and the number of the next invocation. -/
structure Cursor where
  tokens : List Token
  next : Nat

/-- Text under construction, with its invocations. -/
structure Draft (σ : Type) where
  text : Template.Builder := {}
  invocations : List (Invocation σ) := []

namespace Draft
variable {σ : Type}

/-- Appends a literal character. -/
def char (d : Draft σ) (c : Char) : Draft σ := { d with text := d.text.push c }

/-- Appends an invocation. -/
def invoke (d : Draft σ) (i : Invocation σ) : Draft σ :=
  ⟨d.text.pushSlot i.heading.id, d.invocations ++ [i]⟩

/-- The finished text of an argument. -/
def finish (d : Draft σ) : FieldText (Invocation σ) :=
  ⟨d.text.code, d.invocations, d.text.finish⟩

/-- The finished argument, given what was read before an operator. -/
def field (d : Draft σ) (condition : Bool) (before : Option (Operator × Draft σ)) :
    Field (Invocation σ) :=
  if condition then
    match before with
    | some (op, lhs) => .condition op lhs.finish (some d.finish)
    | none => .condition .unknown d.finish none
  else .plain d.finish

end Draft

namespace Program
variable {σ : Type}

mutual

/-- Reads the invocation of a tag; `fuel` bounds the calls that nest. -/
def readInvocation (v : Vocabulary σ) (depth : Nat) :
    (fuel : Nat) → (start : Nat) → Tag → Cursor → Except Problem (Invocation σ × Cursor)
  | 0, start, tag, _ => .error ⟨.unclosed, tag.name, start⟩
  | fuel + 1, start, tag, cursor =>
    match v.resolve tag.name with
    | none => .error ⟨.unregistered, normalise tag.name, start⟩
    | some native => do
      let name := native.signature.name
      let (fields, cursor) ← readArguments v depth fuel start name native.signature.args cursor
      let heading : Heading := ⟨cursor.next, name, tag.negated, tag.silent, tag.count, depth⟩
      return (.mk heading native fields, { cursor with next := cursor.next + 1 })

/-- Reads the argument list of a function, if one is written. -/
def readArguments (v : Vocabulary σ) (depth : Nat) :
    (fuel : Nat) → (start : Nat) → (name : String) → Option ArgumentSchema → Cursor →
      Except Problem (Option (List (Field (Invocation σ))) × Cursor)
  | 0, start, name, _, _ => .error ⟨.unclosed, name, start⟩
  | _ + 1, _, _, none, cursor => .ok (none, cursor)
  | fuel + 1, start, name, some schema, cursor =>
    match cursor.tokens with
    | .char '[' :: tokens =>
      match schema.fields, tokens with
      | [], [] => .error ⟨.unclosed, name, start⟩
      | [], .char ']' :: tokens => .ok (some [], { cursor with tokens })
      | [], _ => .error ⟨.tooManyArguments 0, name, start⟩
      | spec :: specs, _ => do
        let (fields, cursor) ←
          readFields v depth fuel start name schema.fields.length spec specs { cursor with tokens }
        return (some fields, cursor)
    | _ =>
      if schema.brackets then .error ⟨.missingBrackets, name, start⟩ else .ok (none, cursor)

/-- Reads arguments from one spec on up to the closing bracket. -/
def readFields (v : Vocabulary σ) (depth : Nat) :
    (fuel : Nat) → (start : Nat) → (name : String) → (max : Nat) → FieldSpec → List FieldSpec →
      Cursor → Except Problem (List (Field (Invocation σ)) × Cursor)
  | 0, start, name, _, _, _, _ => .error ⟨.unclosed, name, start⟩
  | fuel + 1, start, name, max, spec, specs, cursor => do
    let (field, closed, cursor) ← readField v depth fuel start name spec.condition {} none cursor
    if closed then return ([field], cursor)
    else if spec.rest then
      let (fields, cursor) ← readFields v depth fuel start name max spec specs cursor
      return (field :: fields, cursor)
    else
      match specs with
      | [] => .error ⟨.tooManyArguments max, name, start⟩
      | spec :: specs =>
        let (fields, cursor) ← readFields v depth fuel start name max spec specs cursor
        return (field :: fields, cursor)

/-- Reads one argument, of which `draft` is read already and `before` holds what
stands before an operator; says whether the closing bracket ended it. -/
def readField (v : Vocabulary σ) (depth : Nat) :
    (fuel : Nat) → (start : Nat) → (name : String) → (condition : Bool) → (draft : Draft σ) →
      (before : Option (Operator × Draft σ)) → Cursor →
      Except Problem (Field (Invocation σ) × Bool × Cursor)
  | 0, start, name, _, _, _, _ => .error ⟨.unclosed, name, start⟩
  | fuel + 1, start, name, condition, draft, before, cursor =>
    match cursor.tokens with
    | [] => .error ⟨.unclosed, name, start⟩
    | .escape _ c :: tokens =>
      readField v depth fuel start name condition (draft.char c) before { cursor with tokens }
    | .tag inner tag :: tokens => do
      let (i, cursor) ← readInvocation v depth fuel inner tag { cursor with tokens }
      readField v depth fuel start name condition (draft.invoke i) before cursor
    | .char c :: tokens =>
      if c == ';' || c == ']' then
        .ok (draft.field condition before, c == ']', { cursor with tokens })
      else
        let found :=
          if condition && before.isNone then
            Operator.scan ((cursor.tokens.take 2).map Token.lead)
          else none
        match found with
        | some op =>
          readField v depth fuel start name condition {} (some (op, draft))
            { cursor with tokens := cursor.tokens.drop op.width }
        | none =>
          readField v depth fuel start name condition (draft.char c) before { cursor with tokens }

end

/-- Reads text at top level to its end. -/
def readText (v : Vocabulary σ) (depth : Nat) :
    (fuel : Nat) → Draft σ → Cursor → Except Problem (Draft σ)
  | 0, draft, _ => .ok draft
  | fuel + 1, draft, cursor =>
    match cursor.tokens with
    | [] => .ok draft
    | .tag start tag :: tokens => do
      let (i, cursor) ← readInvocation v depth fuel start tag { cursor with tokens }
      readText v depth fuel (draft.invoke i) cursor
    | .escape hidden c :: tokens =>
      let draft :=
        if hidden || tokens.any Token.marksTag then draft.char c else (draft.char '\\').char c
      readText v depth fuel draft { cursor with tokens }
    | .char c :: tokens => readText v depth fuel (draft.char c) { cursor with tokens }

/-- Compiles a template at a depth. Each token is read once and takes at most two
nested calls, so the fuel never runs out. -/
def compileAt (v : Vocabulary σ) (source : String) (path : Option String) (depth : Nat) :
    Except CompileError (Program σ) :=
  let cs := source.toList
  let tokens := Token.scan v.words cs
  match readText v depth (2 * tokens.length + 2) {} ⟨tokens, 0⟩ with
  | .ok draft =>
    .ok ⟨source, path, draft.text.code, draft.invocations, draft.text.finish, depth⟩
  | .error problem =>
    .error ⟨problem.fault, problem.function, Text.locate cs problem.start,
      path.getD defaultPath⟩

/-- Compiles a template. -/
def compile (v : Vocabulary σ) (source : String) (path : Option String) :
    Except CompileError (Program σ) :=
  compileAt v source path 0

/-- Compiles a produced value one level deeper; nothing to compile when the value
has no tag shape or the depth is exhausted. -/
def compileValue (v : Vocabulary σ) (value : String) (path : Option String) (depth maxDepth : Nat) :
    Except CompileError (Option (Program σ)) :=
  if !Tag.hasShape value || maxDepth ≤ depth then .ok none
  else (compileAt v value path (depth + 1)).map some

end Program

end TagTemplate
