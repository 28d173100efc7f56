/-! Command-line arguments.

Arguments are read from left to right against the options that are declared. The
first that does not fit refuses the whole line, and so does an option without a
value, one given twice, or an invalid value; a request for help that comes first is
answered instead. After a lone double dash no argument is an option. -/
namespace TagTemplate.CommandLine

/-- Why arguments do not make up a request. -/
inductive Refusal where
  /-- Help is asked for. -/
  | help
  /-- They do not fit. -/
  | usage
  deriving DecidableEq, Repr

/-- An option that takes a value. -/
structure ValueOption where
  name : String
  /-- Whether it may be given more than once. -/
  repeats : Bool := false
  valid : String → Bool := fun _ => true

/-- What a command takes. -/
structure Declaration where
  /-- Whether it works on a file. -/
  file : Bool := false
  flags : List String := []
  options : List ValueOption := []

structure Arguments where
  file : Option String := none
  flags : List String := []
  /-- The values of options in the order given. -/
  values : List (String × String) := []

namespace Arguments

/-- The value of an option, the first if there are several. -/
def value? (a : Arguments) (name : String) : Option String :=
  (a.values.find? fun entry => entry.1 == name).map (·.2)

/-- All values of an option in the order given. -/
def valuesOf (a : Arguments) (name : String) : List String :=
  (a.values.filter fun entry => entry.1 == name).map (·.2)

def addFile (d : Declaration) (a : Arguments) (file : String) : Except Refusal Arguments :=
  if d.file && a.file.isNone && !file.isEmpty then .ok { a with file := some file }
  else .error .usage

def addFlag (d : Declaration) (a : Arguments) (name : String) : Except Refusal Arguments :=
  if d.flags.contains name && !a.flags.contains name then .ok { a with flags := name :: a.flags }
  else .error .usage

def addValue (a : Arguments) (option : ValueOption) (value : String) : Except Refusal Arguments :=
  if option.valid value && (option.repeats || (a.value? option.name).isNone) then
    .ok { a with values := a.values ++ [(option.name, value)] }
  else .error .usage

end Arguments

/-- An argument by its form. -/
inductive Shape where
  | plain
  /-- A lone double dash. -/
  | separator
  /-- A single dash with letters after it. -/
  | letters (letters : List Char)
  /-- A double dash with a name after it and perhaps a value. -/
  | named (name : String) (value : Option String)
  deriving DecidableEq

/-- The form of an argument; a lone dash is plain. -/
def Shape.of (argument : String) : Shape :=
  match argument.toList with
  | ['-', '-'] => .separator
  | '-' :: '-' :: cs =>
    match cs.dropWhile (· != '=') with
    | [] => .named (String.ofList cs) none
    | _ :: value => .named (String.ofList (cs.takeWhile (· != '='))) (some (String.ofList value))
  | '-' :: c :: cs => .letters (c :: cs)
  | _ => .plain

/-- What letters after a single dash ask for: only help has a letter. -/
def Shape.refusal : List Char → Refusal
  | 'h' :: _ => .help
  | _ => .usage

/-- Reads the arguments of a command; `pending` is the option whose value comes
next, and `closed` says that options are over. -/
def Declaration.read (d : Declaration) :
    (a : Arguments) → (pending : Option ValueOption) → (closed : Bool) → List String →
      Except Refusal Arguments
  | a, none, _, [] => .ok a
  | _, some _, _, [] => .error .usage
  | a, some option, closed, argument :: rest =>
    match Shape.of argument with
    | .plain => do d.read (← a.addValue option argument) none closed rest
    | _ => .error .usage
  | a, none, true, argument :: rest => do d.read (← a.addFile d argument) none true rest
  | a, none, false, argument :: rest =>
    match Shape.of argument with
    | .plain => do d.read (← a.addFile d argument) none false rest
    | .separator => d.read a none true rest
    | .letters letters => .error (Shape.refusal letters)
    | .named name value =>
      match d.options.find? (·.name == name), value with
      | some option, some value => do d.read (← a.addValue option value) none false rest
      | some option, none => d.read a (some option) false rest
      | none, none =>
        if name == "help" then .error .help
        else do d.read (← a.addFlag d name) none false rest
      | none, some _ => .error .usage

end TagTemplate.CommandLine
