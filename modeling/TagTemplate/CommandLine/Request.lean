import TagTemplate.CommandLine.Arguments
import TagTemplate.Settings

/-! Requests: what a command line asks for. -/
namespace TagTemplate.CommandLine

/-- How a template is to be run. -/
structure RunOptions where
  /-- Assignments of session variables, as written. -/
  assignments : List String := []
  settingsFile : Option String := none
  maxDepth : Option Nat := none
  expand : Bool := true
  replay : Bool := true
  deriving DecidableEq, Repr

/-- A request. -/
inductive Request where
  /-- Print the compiled template in a file. -/
  | compile (file : String)
  /-- Run the template in a file. -/
  | run (file : String) (options : RunOptions)
  /-- List the functions. -/
  | functions
  deriving DecidableEq, Repr

namespace Request

/-- What each command takes, by the name of the command. -/
def declarations : List (String × Declaration) := [
  ("compile", { file := true }),
  ("run",
    { file := true
      flags := ["no-reprocess", "no-recovery"]
      options := [
        { name := "var", repeats := true },
        { name := "config", valid := fun path => !path.isEmpty },
        { name := "max-depth", valid := fun depth => (Settings.word? depth).isSome }] }),
  ("functions", {})]

/-- The request that a command makes with its arguments. -/
def ofArguments (command : String) (a : Arguments) : Except Refusal Request :=
  match command, a.file with
  | "compile", some file => .ok (.compile file)
  | "run", some file =>
    .ok (.run file
      { assignments := a.valuesOf "var"
        settingsFile := a.value? "config"
        maxDepth := (a.value? "max-depth").bind Settings.word?
        expand := !a.flags.contains "no-reprocess"
        replay := !a.flags.contains "no-recovery" })
  | "functions", none => .ok .functions
  | _, _ => .error .usage

/-- The forms of a request. -/
def usage : String :=
  "compile FILE\n" ++
  "run FILE [--var NAME=VALUE]... [--config FILE] [--max-depth N] [--no-reprocess] [--no-recovery]\n" ++
  "functions\n"

/-- What is answered when help is asked for by the word: help exists for every
command and for help itself. -/
def helpOn : List String → Refusal
  | [] => .help
  | [command] =>
    if command == "help" || declarations.any (·.1 == command) then .help else .usage
  | _ => .usage

/-- The request that command-line arguments make. -/
def read : List String → Except Refusal Request
  | [] => .error .usage
  | command :: rest =>
    match declarations.find? (·.1 == command) with
    | some (_, d) => do ofArguments command (← d.read {} none false rest)
    | none =>
      match Shape.of command with
      | .letters letters => .error (Shape.refusal letters)
      | .named "help" none => .error .help
      | _ => .error (if command == "help" then helpOn rest else .usage)

/-- The files that a request reads. -/
def files : Request → List String
  | .compile file => [file]
  | .run file options => options.settingsFile.toList ++ [file]
  | .functions => []

end Request

end TagTemplate.CommandLine
