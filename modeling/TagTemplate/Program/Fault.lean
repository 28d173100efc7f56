import TagTemplate.Text.Location

/-! Why a template does not compile. -/
namespace TagTemplate

/-- What is wrong with an invocation. -/
inductive CompileFault where
  /-- No function answers to the name. -/
  | unregistered
  /-- The function needs an argument list and none follows. -/
  | missingBrackets
  /-- More arguments are written than the function takes. -/
  | tooManyArguments (max : Nat)
  /-- The text ends inside an argument. -/
  | unclosed
  deriving DecidableEq, Repr

/-- A fault, the function it concerns, and where its tag stands. -/
structure CompileError where
  fault : CompileFault
  function : String
  place : Text.Location
  path : String
  deriving DecidableEq, Repr

/-- The path of a template that has none. -/
def defaultPath : String := "index file"

/-- The words for a fault of a function. -/
def CompileFault.message (function : String) : CompileFault → String
  | .unregistered => "Function " ++ function ++ " is not registered"
  | .missingBrackets => "Function " ++ function ++ " requires brackets"
  | .tooManyArguments max =>
    "Function " ++ function ++ " expects " ++ toString max ++ " arguments at most"
  | .unclosed => "Function " ++ function ++ " is missing brace closure"

/-- The words for a compile error, with its place. -/
def CompileError.message (e : CompileError) : String :=
  e.fault.message e.function ++ " (at " ++ e.path ++ ":" ++ toString e.place.line ++ ":" ++
    toString e.place.column ++ ")"

end TagTemplate
