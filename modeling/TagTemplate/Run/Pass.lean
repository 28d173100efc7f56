import TagTemplate.Run.Replay

/-! One pass over a program.

The top-level invocations are executed in order. A value that is not null is
expanded; what takes the place of a failure is left as it is, unless a replay
finds something better. A control signal ends the pass, and so does a fault. -/
namespace TagTemplate

/-- How a pass ended. -/
inductive Flow where
  /-- Every invocation has a value. -/
  | complete (values : List Json)
  | giveBack (value : Json)
  | stop
  deriving DecidableEq

namespace Run
variable {σ : Type}

/-- The value in the place of a failed invocation. -/
def afterFailure (program : Program σ) (edition : Option Nat) (position : Nat) (heading : Heading)
    (failure : Failure) : Run σ Json := do
  record (.failed (program.invocations.map (·.heading)) position failure)
  let value ← failureValue heading failure
  let c ← Timed.get
  if wantsReplay c heading.name value then
    return (← replay program edition position heading.name).getD value
  else return value

/-- Executes the invocations of a program from a position on. -/
def passFrom (expand : Json → Run σ Json) (program : Program σ) (edition : Option Nat) :
    (position : Nat) → List (Invocation σ) → Run σ (Except String Flow)
  | _, [] => pure (.ok (.complete []))
  | position, i :: is => do
    let value ←
      match ← i.execute with
      | .error fault => return .error fault
      | .ok (.giveBack v) => return .ok (.giveBack v)
      | .ok .stop => return .ok .stop
      | .ok (.success v) => if v.isNull then pure v else expand v
      | .ok (.failure f) => afterFailure program edition position i.heading f
    match ← passFrom expand program edition (position + 1) is with
    | .ok (.complete values) => return .ok (.complete (value :: values))
    | result => return result

/-- Executes a program. `edition` is that of the context when the program is the
run's own template. -/
def pass (expand : Json → Run σ Json) (program : Program σ) (edition : Option Nat) :
    Run σ (Except String Flow) :=
  passFrom expand program edition 0 program.invocations

end Run

end TagTemplate
