import TagTemplate.Json.Reader
import TagTemplate.Run.Pass

/-! Expanding values that contain tags.

The strings of a value are expanded in order. A string without a tag shape stays;
a string that is the JSON text of an array or object is read, the strings in it
are expanded, and the text is written again; any other string is compiled one
level deeper and run in the same context. At the greatest depth, and whenever the
text does not compile, has no invocation, faults or is stopped, it stays as it is. -/
namespace TagTemplate

namespace Json
variable {S : Type}

mutual

/-- Replaces each string of a value by what an action makes of it, in order. -/
def eachString (f : String → Timed S Json) : Json → Timed S Json
  | .string s => f s
  | .array items => do return .array (← eachStringOfItems f items)
  | .object entries => do return .object (← eachStringOfEntries f entries)
  | v => pure v

/-- Replaces each string of some values. -/
def eachStringOfItems (f : String → Timed S Json) : List Json → Timed S (List Json)
  | [] => pure []
  | v :: vs => do
    let v ← eachString f v
    let vs ← eachStringOfItems f vs
    return v :: vs

/-- Replaces each string in the values of some entries. -/
def eachStringOfEntries (f : String → Timed S Json) :
    List (String × Json) → Timed S (List (String × Json))
  | [] => pure []
  | (k, v) :: vs => do
    let v ← eachString f v
    let vs ← eachStringOfEntries f vs
    return (k, v) :: vs

end

/-- The array or object whose JSON text a string is, apart from blanks around it. -/
def containerIn (s : String) : Option Json :=
  (Json.read (Text.trim s)).filter Json.isContainer

end Json

namespace Run
variable {σ : Type}

/-- Expands a string; `text` expands what is no JSON text. JSON texts nest in
strings of other JSON texts, each shorter than the one around it, and `fuel`
counts down with them. -/
def expandString (text : String → Run σ String) : (fuel : Nat) → String → Run σ Json
  | 0, s => pure (.string s)
  | fuel + 1, s =>
    if !Tag.hasShape s then pure (.string s)
    else
      match Json.containerIn s with
      | some v => do return .string (← v.eachString (expandString text fuel)).compact
      | none => do return .string (← text s)

/-- Expands the strings of a value, if the settings ask for it. -/
def expandWith (text : String → Run σ String) (v : Json) : Run σ Json := do
  let c ← Timed.get
  if c.settings.expand then v.eachString fun s => expandString text (s.length + 1) s
  else return v

/-- Runs the program of a text whose expansion is noted already. -/
def passOver (expand : Json → Run σ Json) (s : String) (program : Program σ) : Run σ String := do
  match ← pass expand program none with
  | .ok (.complete values) => return program.resolve values
  | .ok (.giveBack v) => return v.display
  | _ => return s

/-- Runs a text that was produced at a depth as a program of the next depth, whose
values `expand` expands. -/
def runText (expand : Json → Run σ Json) (depth : Nat) (s : String) : Run σ String := do
  let c ← Timed.get
  match Program.compileValue c.vocabulary s c.program.path depth c.settings.maxDepth with
  | .ok (some program) =>
    if program.invocations.isEmpty then return s
    else
      record (.expanded depth program.depth program.functionNames)
      passOver expand s program
  | _ => return s

/-- Runs a text that was produced at a depth, and what its values produce in turn;
`levels` is how many depths are left. -/
def expandText : (levels : Nat) → (depth : Nat) → String → Run σ String
  | 0, _, s => pure s
  | levels + 1, depth, s => runText (expandWith (expandText levels (depth + 1))) depth s

/-- Runs a text that was produced at a depth. -/
def expandTextAt (depth : Nat) (s : String) : Run σ String := do
  let c ← Timed.get
  expandText (c.settings.maxDepth - depth) depth s

/-- Expands a value that was produced at a depth. -/
def expandAt (depth : Nat) (v : Json) : Run σ Json := expandWith (expandTextAt depth) v

end Run

end TagTemplate
