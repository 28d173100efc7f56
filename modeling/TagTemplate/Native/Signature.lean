import TagTemplate.Text.Blank
import TagTemplate.Text.LowerCase

/-! What a native function declares: its names and its arguments.

Names are compared in a normal form: trimmed, in lower case, and with a leading
dollar sign. A schema lists the arguments in order; an argument may be optional,
may be a condition, and may stand for all that follow. -/
namespace TagTemplate

/-- A function name in lower case and with a leading dollar sign. -/
def normalise (name : String) : String :=
  let lowered := Text.lower (Text.trim name)
  match lowered.toList with
  | '$' :: _ => lowered
  | _ => "$" ++ lowered

/-- A name without the dollar signs it begins with. -/
def bareName (name : String) : String :=
  String.ofList (name.toList.dropWhile (· == '$'))

/-- One argument of a schema. -/
structure FieldSpec where
  name : String
  required : Bool := true
  /-- Whether the argument is read as a comparison. -/
  condition : Bool := false
  /-- Whether the argument repeats while separators follow. -/
  rest : Bool := false
  deriving DecidableEq, Repr

/-- The arguments a function takes. -/
structure ArgumentSchema where
  /-- Whether an argument list must be written. -/
  brackets : Bool
  fields : List FieldSpec
  deriving DecidableEq, Repr

/-- What a native function declares about itself. -/
structure Signature where
  name : String
  aliases : List String := []
  /-- The schema; a function without one never takes brackets. -/
  args : Option ArgumentSchema := none
  /-- Whether the arguments are resolved before the native is called. -/
  eager : Bool := true
  deriving DecidableEq, Repr

namespace Signature

/-- A signature with its names in normal form. -/
def named (name : String) (aliases : List String) : Signature :=
  { name := normalise name, aliases := aliases.map normalise }

/-- The names a function answers to, its own first. -/
def names (s : Signature) : List String := s.name :: s.aliases

end Signature

end TagTemplate
