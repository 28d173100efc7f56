import TagTemplate.Json.Printer

/-! How the execution of a native ends.

A native succeeds with a value, fails with a reason and perhaps a value, or ends
the pass it runs in: by returning a value for it or by stopping it. What an
invocation nested in an argument does instead of succeeding interrupts the
enclosing invocation; a fault interrupts everything up to the pass. -/
namespace TagTemplate

/-- A failure and the value the native produced despite it. -/
structure Failure where
  message : String
  value : Option Json
  deriving DecidableEq

/-- The result of a native that ran to its end. -/
inductive Outcome where
  | success (value : Json)
  | failure (failure : Failure)
  | giveBack (value : Json)
  | stop
  deriving DecidableEq

/-- Why the resolution of an argument was given up. -/
inductive Interruption where
  /-- A nested invocation ended this way. -/
  | nested (outcome : Outcome)
  /-- A native could not run. -/
  | fault (message : String)
  deriving DecidableEq

/-- The text of an interruption. -/
def Interruption.message : Interruption → String
  | .nested (.success _) => "nested function succeeded"
  | .nested (.failure f) => "nested function failed: " ++ f.message
  | .nested (.giveBack _) => "return signal"
  | .nested .stop => "stop signal"
  | .fault message => message

/-- What an invocation comes to: an interruption by a nested invocation becomes
the outcome of the enclosing one, and a fault stays a fault. -/
def Interruption.settle : Except Interruption Outcome → Except String Outcome
  | .ok outcome => .ok outcome
  | .error (.nested outcome) => .ok outcome
  | .error (.fault message) => .error message

end TagTemplate
