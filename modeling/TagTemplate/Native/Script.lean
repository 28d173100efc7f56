import TagTemplate.Native.Behaviour

/-! Natives described by data.

A host that configures its functions writes each as an action: produce a value,
read an argument, use the session, or combine other actions. A scripted native
carries a key; the memory lists the keys of the natives executed so far, so an
action can tell how often its native was executed before. -/
namespace TagTemplate

/-- What a scripted native does. -/
inductive Action where
  | success (value : Json)
  | failure (message : String) (value : Option Json)
  | giveBack (value : Json)
  | stop
  | fault (message : String)
  /-- Succeeds with all resolved arguments. -/
  | args
  /-- Succeeds with one resolved argument, or null. -/
  | arg (index : Nat)
  /-- Succeeds with the text of one resolved argument. -/
  | text (index : Nat)
  /-- Succeeds with a description of the call. -/
  | info
  /-- Succeeds with a written argument; interrupted where that is. -/
  | field (index : Nat)
  /-- Succeeds with a written argument, or with the words for its interruption. -/
  | catchField (index : Nat)
  /-- Succeeds with a variable, or null. -/
  | keyword (key : String)
  | assign (key : String) (value : Json)
  /-- Adds one to a variable, which counts as zero unless it is an integer of 64
  bits, and succeeds with the sum. -/
  | bump (key : String)
  | edit (change : Container.Edit)
  | sleep (ms : Nat)
  | swap (source : String) (path : Option String)
  /-- Runs actions up to the first that does not succeed. -/
  | sequence (steps : List Action)
  /-- Chooses by whether a replay is going on. -/
  | inReplay (yes no : Action)
  /-- Chooses by how often the native was executed before; the last step stands
  for all occasions after it. -/
  | occasion (steps : List Action)

namespace Script

/-- The keys of the executed natives. -/
abbrev Memory := List Nat

/-- The integer of 64 bits in a variable, or zero. -/
def counter : Option Json → Int
  | some (.number (.integer n)) => if -Nat.pow 2 63 ≤ n && n < Nat.pow 2 63 then n else 0
  | _ => 0

/-- The sum of a 64-bit integer and one, which wraps around. -/
def successor (n : Int) : Int := Int.bmod (n + 1) (Nat.pow 2 64)

/-- The description of a call. -/
def describe (call : Call) : Json :=
  let h := call.heading
  Json.ofEntries [
    ("index", .ofNat h.index),
    ("id", .string h.id),
    ("name", .string (bareName h.name)),
    ("negated", .bool h.negated),
    ("silent", .bool h.silent),
    ("count", .ofText? h.count),
    ("depth", .ofNat h.depth),
    ("field_count", .ofNat call.fieldCount)]

mutual

/-- What an action does in a call, on the given occasion; its result goes on to
`next`. -/
def perform (call : Call) (before : Nat) (next : Except Interruption Outcome → Behaviour Memory) :
    Action → Behaviour Memory
  | .success value => next (.ok (.success value))
  | .failure message value => next (.ok (.failure ⟨message, value⟩))
  | .giveBack value => next (.ok (.giveBack value))
  | .stop => next (.ok .stop)
  | .fault message => next (.error (.fault message))
  | .args => next (.ok (.success (.array call.args)))
  | .arg index => next (.ok (.success (call.arg index)))
  | .text index => next (.ok (.success (.string (call.text index))))
  | .info => next (.ok (.success (describe call)))
  | .field index => .field index fun
    | .ok value => next (.ok (.success value))
    | .error interruption => next (.error interruption)
  | .catchField index => .field index fun
    | .ok value => next (.ok (.success value))
    | .error interruption => next (.ok (.success (.string interruption.message)))
  | .keyword key => .inspect fun s => next (.ok (.success ((s.keyword? key).getD .null)))
  | .assign key value => .assign key value (next (.ok (.success .null)))
  | .bump key => .inspect fun s =>
    let sum := Json.number (.integer (successor (counter (s.keyword? key))))
    .assign key sum (next (.ok (.success sum)))
  | .edit change => .edit change (next (.ok (.success .null)))
  | .sleep ms => .sleep ms (next (.ok (.success .null)))
  | .swap source path => .swap source path fun
    | none => next (.ok (.success .null))
    | some e => next (.error (.fault e.message))
  | .sequence steps => performAll call before next (.ok (.success .null)) steps
  | .inReplay yes no => .inspect fun s =>
    if s.replay.isSome then perform call before next yes else perform call before next no
  | .occasion steps => performNth call before next before steps

/-- Runs actions in order up to the first that does not succeed; `last` is the
result of the one before. -/
def performAll (call : Call) (before : Nat)
    (next : Except Interruption Outcome → Behaviour Memory) (last : Except Interruption Outcome) :
    List Action → Behaviour Memory
  | [] => next last
  | step :: steps =>
    perform call before
      (fun
        | .ok (.success value) => performAll call before next (.ok (.success value)) steps
        | result => next result)
      step

/-- Runs the action at a position, or the last one. -/
def performNth (call : Call) (before : Nat)
    (next : Except Interruption Outcome → Behaviour Memory) : Nat → List Action → Behaviour Memory
  | _, [] => next (.error (.fault "no step"))
  | _, [step] => perform call before next step
  | 0, step :: _ => perform call before next step
  | n + 1, _ :: steps => performNth call before next n steps

end

/-- The native with an action. Its calls are audited, and each execution enters
its key into the memory first. -/
def native (key : Nat) (signature : Signature) (action : Action) : Native Memory where
  signature := signature
  audited := true
  behave call :=
    .remember (key :: ·) fun memory => perform call (memory.count key) .finish action

end Script

end TagTemplate
