import TagTemplate.Program.Compile
import TagTemplate.Run.Context

/-! Executing one invocation.

The arguments of an eager native are resolved in order, nested invocations first,
and gathered as its schema says; then the native is called, and the modifiers of
the tag are applied to what it returns. A native may also resolve arguments on
its own. A nested invocation that does not succeed interrupts the resolution,
unless it fails silently, which counts as null. -/
namespace TagTemplate

namespace ArgumentSchema

/-- Whether the value at a position is gathered into the rest. -/
def gathers (s : ArgumentSchema) (position : Nat) : Bool :=
  match s.fields[min position (s.fields.length - 1)]? with
  | some spec => spec.rest
  | none => false

/-- The arguments made from the values of the written fields: those of the rest
become one array at the end. -/
def gather (s : ArgumentSchema) (values : List Json) : List Json :=
  let numbered := values.zipIdx
  let alone := numbered.filter fun v => !s.gathers v.2
  let rest := numbered.filter fun v => s.gathers v.2
  alone.map (·.1) ++ if rest.isEmpty then [] else [.array (rest.map (·.1))]

/-- The first argument that is required but lies beyond the given number. -/
def missing? (s : ArgumentSchema) (given : Nat) : Option FieldSpec :=
  (s.fields.drop given).find? (·.required)

end ArgumentSchema

/-- The failure of an invocation that lacks an argument. -/
def Heading.lacks (h : Heading) (spec : FieldSpec) : Outcome :=
  .failure ⟨"Missing required argument \"" ++ spec.name ++ "\" of " ++ h.name, none⟩

/-- Applies the modifiers of a tag: a negated success is null, and the items of an
array are joined when the tag has a count annotation. -/
def Heading.modify (h : Heading) : Outcome → Outcome
  | .success v =>
    if h.negated then .success .null
    else
      match h.count, v with
      | some separator, .array items =>
        .success (.string (String.intercalate separator (items.map Json.display)))
      | _, _ => .success v
  | outcome => outcome

/-- The resolution of an argument, as an action that may be interrupted. -/
abbrev Resolver (σ : Type) := Run σ (Except Interruption Json)

namespace Behaviour
variable {σ : Type}

/-- Runs a behaviour; `fields` resolve the written arguments of the invocation. -/
def run (fields : List (Resolver σ)) : Behaviour σ → Run σ (Except Interruption Outcome)
  | .finish result => pure result
  | .inspect next => do
    let c ← Timed.get
    (next c.session).run fields
  | .remember change next => do
    let c ← Timed.get
    Timed.modify fun c => { c with memory := change c.memory }
    (next c.memory).run fields
  | .assign name value next => do
    Timed.modify (·.onSession (·.assign name value))
    next.run fields
  | .edit change next => do
    Timed.modify (·.onSession fun s => { s with container := s.container.edit change })
    Run.record (.edited change)
    next.run fields
  | .sleep ms next => do
    Timed.sleep ms
    next.run fields
  | .swap source path next => do
    let c ← Timed.get
    match Program.compile c.vocabulary source path with
    | .ok program => do
      Timed.modify (·.replaceProgram program)
      (next none).run fields
    | .error e => (next (some e)).run fields
  | .field index next => do
    match fields[index]? with
    | some x => do
      let value ← x
      (next value).run fields
    | none => (next (.ok .null)).run fields

end Behaviour

namespace Invocation
variable {σ : Type}

/-- Resolves arguments in order, up to the first that is interrupted. -/
def resolveAll : List (Resolver σ) → Run σ (Except Interruption (List Json))
  | [] => pure (.ok [])
  | field :: fields => do
    match ← field with
    | .error e => pure (.error e)
    | .ok v => do
      match ← resolveAll fields with
      | .error e => pure (.error e)
      | .ok vs => pure (.ok (v :: vs))

/-- Calls the native of an invocation with resolved arguments. -/
def call (heading : Heading) (native : Native σ) (fields : List (Resolver σ)) (args : List Json) :
    Run σ (Except Interruption Outcome) := do
  let call : Call := ⟨heading, fields.length, args⟩
  let c ← Timed.get
  Run.record (.called call c.session.replay c.session.replays native.audited)
  (native.behave call).run fields

/-- Resolves the arguments of an eager native and calls it. -/
def perform (heading : Heading) (native : Native σ) (fields : List (Resolver σ)) :
    Run σ (Except Interruption Outcome) := do
  Run.record (.entered heading)
  match native.signature.eager, native.signature.args with
  | true, some schema => do
    match ← resolveAll fields with
    | .error e => pure (.error e)
    | .ok values =>
      let args := schema.gather values
      match schema.missing? args.length with
      | some spec => pure (.ok (heading.lacks spec))
      | none => call heading native fields args
  | _, _ => call heading native fields []

/-- The value that a nested invocation contributes to the text around it. -/
def contribution (h : Heading) : Except String Outcome → Except Interruption Json
  | .ok (.success v) => .ok v
  | .ok (.failure f) => if h.silent then .ok .null else .error (.nested (.failure f))
  | .ok outcome => .error (.nested outcome)
  | .error fault => .error (.fault fault)

mutual

/-- Executes an invocation: an outcome, or a fault. -/
def execute : Invocation σ → Run σ (Except String Outcome)
  | .mk heading native none => finishing heading (perform heading native [])
  | .mk heading native (some fields) =>
    finishing heading (perform heading native (resolvers fields))

/-- Settles an interruption and applies the modifiers. -/
def finishing (heading : Heading) (x : Run σ (Except Interruption Outcome)) :
    Run σ (Except String Outcome) := do
  let result ← x
  return (Interruption.settle result).map heading.modify

/-- The resolutions of some arguments. -/
def resolvers : List (Field (Invocation σ)) → List (Resolver σ)
  | [] => []
  | field :: fields => resolveField field :: resolvers fields

/-- Resolves an argument: a text to a string, a condition to a truth value. -/
def resolveField : Field (Invocation σ) → Run σ (Except Interruption Json)
  | .plain text => do
    match ← resolveText text with
    | .error e => pure (.error e)
    | .ok s => pure (.ok (.string s))
  | .condition op lhs none => do
    match ← resolveText lhs with
    | .error e => pure (.error e)
    | .ok s => pure (.ok (.bool (op.holds s none)))
  | .condition op lhs (some rhs) => do
    match ← resolveText lhs with
    | .error e => pure (.error e)
    | .ok s => do
      match ← resolveText rhs with
      | .error e => pure (.error e)
      | .ok t => pure (.ok (.bool (op.holds s (some t))))

/-- Resolves one side of an argument. -/
def resolveText : FieldText (Invocation σ) → Run σ (Except Interruption String)
  | ⟨_, invocations, template⟩ => do
    match ← contributions invocations with
    | .error e => pure (.error e)
    | .ok values => pure (.ok (template.resolve values))

/-- The values of nested invocations, up to the first that interrupts. -/
def contributions : List (Invocation σ) → Run σ (Except Interruption (List Json))
  | [] => pure (.ok [])
  | i :: is => do
    match contribution i.heading (← execute i) with
    | .error e => pure (.error e)
    | .ok v => do
      match ← contributions is with
      | .error e => pure (.error e)
      | .ok vs => pure (.ok (v :: vs))

end

end Invocation

end TagTemplate
