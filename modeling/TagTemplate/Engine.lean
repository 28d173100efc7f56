import TagTemplate.Catalog
import TagTemplate.Run.Whole

/-! Engines: compile once, run often.

An engine has one vocabulary and one choice of settings, and keeps the programs it
compiled. A template that was compiled before under the same path is not compiled
again; a path that is absent and an empty one are the same. When as many programs
are kept as the capacity allows, all of them are dropped before the next one is
kept, and with no capacity none is kept at all. -/
namespace TagTemplate

/-- A compiled program with a serial number, which tells it from all others of its
engine. -/
structure Issue (σ : Type) where
  serial : Nat
  program : Program σ

/-- A compiler and runner of templates. -/
structure Engine (σ : Type) where
  vocabulary : Vocabulary σ
  settings : Settings := {}
  /-- How many programs are kept at most. -/
  capacity : Nat := 1024
  /-- The kept programs. -/
  issues : Keyed (Issue σ) := []
  /-- The serial number of the next issue. -/
  next : Nat := 0

namespace Engine
variable {σ : Type}

/-- The engine with what a catalog holds at the moment. -/
def ofCatalog (c : Catalog σ) : Engine σ := { vocabulary := c.snapshot, settings := c.settings }

/-- The key under which a program is kept: its path and its source, with a
character between them. The text stands for its blake3 hash here, which is taken
to be injective. -/
def key (source : String) (path : Option String) : String := path.getD "" ++ "\x00" ++ source

/-- Compiles a template without keeping it. -/
def compile (e : Engine σ) (source : String) (path : Option String) :
    Except CompileError (Program σ) :=
  Program.compile e.vocabulary source path

/-- Keeps an issue under a key. -/
def keep (e : Engine σ) (key : String) (issue : Issue σ) : Engine σ :=
  if e.capacity == 0 then e
  else
    let issues := if e.capacity ≤ e.issues.length then [] else e.issues
    { e with issues := Keyed.insert key issue issues }

/-- The kept issue of a template, or else a new one; a template that does not
compile leaves the engine as it is. -/
def issue (e : Engine σ) (source : String) (path : Option String) :
    Except CompileError (Issue σ × Engine σ) :=
  match Keyed.get? (key source path) e.issues with
  | some issue => .ok (issue, e)
  | none => do
    let program ← e.compile source path
    let issue : Issue σ := ⟨e.next, program⟩
    return (issue, { e with next := e.next + 1 }.keep (key source path) issue)

/-- Drops every kept program. -/
def clear (e : Engine σ) : Engine σ := { e with issues := [] }

/-- A fresh context for a program. -/
def context (e : Engine σ) (program : Program σ) (memory : σ) : Context σ :=
  { program, vocabulary := e.vocabulary, settings := e.settings, memory }

/-- Runs a template with some variables and without delivery: the text, the context
afterwards, and the engine. -/
def render (e : Engine σ) (source : String) (keywords : Keyed Json) (memory : σ) :
    Except CompileError (Option String × Context σ × Engine σ) := do
  let (issue, e) ← e.issue source none
  let (text, after) := ({ e.context issue.program memory with withheld := true }.onSession
    fun s => { s with keywords }).run
  return (text, after, e)

end Engine

end TagTemplate
