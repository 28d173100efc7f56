import TagTemplate.Native.Outcome
import TagTemplate.Native.Signature
import TagTemplate.Program.Fault
import TagTemplate.Run.Session

/-! Natives: the functions that a template calls.

A native is a signature and a behaviour for each call. A behaviour is a tree of
requests: it may read the session, use memory of the host, set a variable, edit
the container, sleep, replace the running program, or resolve one of its own
arguments, and it goes on with the answer; in the end it finishes. Every path
through the tree is finite, so a native always returns. The host's memory has an
arbitrary type `σ`, and natives never see the programs they run in.

A host could let its natives do more to a context than there are requests for: handle
a failure themselves, so that it is reported or put to the hook at once; withhold the
result of the run, or change its target; take elements out of the container, or put
others in their place; run in it a program of another depth, or one that was compiled
with another vocabulary. None of this is modelled. What is proved of runs is proved
for natives that keep to the requests. -/
namespace TagTemplate

/-- What a native does in the course of one call. -/
inductive Behaviour (σ : Type) where
  /-- It ends. -/
  | finish (result : Except Interruption Outcome)
  /-- It reads the session. -/
  | inspect (next : Session → Behaviour σ)
  /-- It changes the host's memory and goes on with what the memory was. -/
  | remember (change : σ → σ) (next : σ → Behaviour σ)
  /-- It sets a variable. -/
  | assign (name : String) (value : Json) (next : Behaviour σ)
  /-- It edits the container. -/
  | edit (change : Container.Edit) (next : Behaviour σ)
  /-- It waits for some milliseconds. -/
  | sleep (ms : Nat) (next : Behaviour σ)
  /-- It replaces the program of the run by a compiled text, unless that text
  does not compile. -/
  | swap (source : String) (path : Option String) (next : Option CompileError → Behaviour σ)
  /-- It resolves one of its written arguments; a missing one is null. -/
  | field (index : Nat) (next : Except Interruption Json → Behaviour σ)

namespace Behaviour
variable {σ : Type}

/-- A native that ends with an outcome. -/
def done (outcome : Outcome) : Behaviour σ := .finish (.ok outcome)

/-- A native that succeeds with a value. -/
def succeed (value : Json) : Behaviour σ := done (.success value)

/-- A native that fails without a value. -/
def fail (message : String) : Behaviour σ := done (.failure ⟨message, none⟩)

/-- A native that resolves an argument and goes on if that succeeds; otherwise it
ends with the interruption. -/
def needField (index : Nat) (next : Json → Behaviour σ) : Behaviour σ :=
  .field index fun
    | .ok value => next value
    | .error interruption => .finish (.error interruption)

end Behaviour

/-- A function that templates may call. -/
structure Native (σ : Type) where
  signature : Signature
  /-- Whether the host wants to know of the calls. -/
  audited : Bool
  behave : Call → Behaviour σ

end TagTemplate
