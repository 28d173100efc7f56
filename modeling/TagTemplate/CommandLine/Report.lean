import TagTemplate.CommandLine.Request
import TagTemplate.Native.Builtin
import TagTemplate.Program.Record
import TagTemplate.Run.Whole

/-! Reports: what a command line answers.

Templates are compiled and run with the built-in functions, and nothing is
delivered. A request that cannot be met exits with code 1, one that cannot be
understood with code 2. -/
namespace TagTemplate.CommandLine

/-- What a command line answers. -/
structure Report where
  code : Nat := 0
  output : String := ""
  /-- The failures that a run reported, or why the request is not met. -/
  errors : List String := []
  deriving DecidableEq, Repr

/-- The functions that templates may call. -/
def vocabulary : Vocabulary Unit := Vocabulary.ofNatives Builtin.all

namespace Report

/-- The session variable that an assignment sets: a name before the first equals
sign and a value after it, which is a string unless it is JSON text. -/
def assignment (written : String) : Except String (String × Json) :=
  let cs := written.toList
  match cs.dropWhile (· != '=') with
  | [] => .error ("Expected NAME=VALUE, got " ++ written)
  | _ :: value =>
    let value := String.ofList value
    .ok (Text.trim (String.ofList (cs.takeWhile (· != '='))),
      (Json.read value).getD (.string value))

/-- The text of a file. -/
def textOf (read : String → Option String) (file : String) : Except String String :=
  match read file with
  | some text => .ok text
  | none => .error ("Cannot read " ++ file)

/-- The program of the template in a file. -/
def programOf (read : String → Option String) (file : String) : Except String (Program Unit) := do
  let source ← textOf read file
  (Program.compile vocabulary source (some file)).mapError CompileError.message

/-- The settings of a run: those of its file or else of the environment, with what
the options change. -/
def settingsOf (read : String → Option String) (setting? : String → Option String)
    (o : RunOptions) : Except String Settings := do
  let s ←
    match o.settingsFile with
    | some file => (Settings.load (read file)).mapError SettingsError.message
    | none => .ok (Settings.ofEnvironment setting?)
  return { s with
    maxDepth := o.maxDepth.getD s.maxDepth
    expand := s.expand && o.expand
    replay := s.replay && o.replay }

/-- The context in which the template of a file is run. -/
def contextOf (read : String → Option String) (setting? : String → Option String) (file : String)
    (o : RunOptions) : Except String (Context Unit) := do
  let settings ← settingsOf read setting? o
  let program ← programOf read file
  let assignments ← o.assignments.mapM assignment
  return {
    program, vocabulary, settings
    withheld := true
    session := { keywords := Keyed.ofList assignments }
    memory := () }

/-- The report of a run in a context. -/
def ofRun (c : Context Unit) : Report :=
  let (text, after) := c.run
  { output := text.getD "<no output>" ++ "\n", errors := after.session.errors }

/-- The line that lists a function. -/
def functionLine (s : Signature) : String :=
  "  " ++ s.name ++
    (if s.aliases.isEmpty then "" else "  (aliases: " ++ ", ".intercalate s.aliases ++ ")") ++ "\n"

/-- The report that lists the functions. -/
def listing : Report :=
  let lines := vocabulary.functions.map fun native => functionLine native.signature
  { output := "Functions:\n" ++ String.join lines }

/-- The report of a request that is met, or else of the reason why it is not. -/
def settle : Except String Report → Report
  | .ok report => report
  | .error reason => { code := 1, errors := [reason] }

/-- The report on a request, given the texts of files and the environment. -/
def ofRequest (read : String → Option String) (setting? : String → Option String) :
    Request → Report
  | .compile file =>
    settle do
      let program ← programOf read file
      return { output := program.toDocument.render .indented ++ "\n" }
  | .run file options => settle ((contextOf read setting? file options).map ofRun)
  | .functions => listing

/-- The report on a command line. -/
def ofArguments (read : String → Option String) (setting? : String → Option String)
    (args : List String) : Report :=
  match Request.read args with
  | .ok request => ofRequest read setting? request
  | .error .help => { output := Request.usage }
  | .error .usage => { code := 2, errors := ["These arguments make no request"] }

end Report

end TagTemplate.CommandLine
