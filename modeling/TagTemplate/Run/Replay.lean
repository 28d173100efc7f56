import TagTemplate.Run.Invoke

/-! Replays.

Some functions fail only because they ran before the rest of the template. A
replay compiles the run's template anew, executes all its invocations, and then
executes the program of the failed invocation once more to take the value at its
place; for a top-level invocation the text of the whole replay stands in when that
value is blank. Failures inside a replay are empty, control signals end it, and
no replay begins during another. -/
namespace TagTemplate

namespace Context
variable {σ : Type}

/-- A context in which a replay is tried. -/
def tryReplay (c : Context σ) : Context σ :=
  c.onSession fun s => { s.record .replayTried with replays := s.replays + 1 }

/-- A context in which a replay has begun. -/
def beginReplay (r : Replay) (c : Context σ) : Context σ :=
  c.onSession fun s => { s.record (.replayBegan r) with replay := some r }

/-- A context in which a replay is over, and the one goes on that went on before it. -/
def endReplay (before : Option Replay) (c : Context σ) : Context σ :=
  c.onSession fun s => { s.record .replayEnded with replay := before }

end Context

namespace Run
variable {σ : Type}

/-- Whether a failure whose place is to be taken by `value` sets off a replay. -/
def wantsReplay (c : Context σ) (function : String) (value : Json) : Bool :=
  c.settings.replay && c.session.replay.isNone && c.session.replays < c.settings.maxReplays &&
    ((match value with
      | .string s => Tag.hasShape s
      | _ => false) || c.settings.needsReplay function)

theorem wantsReplay_string (c : Context σ) (function s : String) :
    wantsReplay c function (.string s) =
      (c.settings.replay && c.session.replay.isNone && c.session.replays < c.settings.maxReplays &&
        (Tag.hasShape s || c.settings.needsReplay function)) := rfl

/-- Executes invocations once: their values, nothing when a control signal ended
the pass, or a fault. -/
def replayPass : List (Invocation σ) → Run σ (Except String (Option (List Json)))
  | [] => pure (.ok (some []))
  | i :: is => do
    let value : Option Json ←
      match ← i.execute with
      | .error fault => return .error fault
      | .ok (.success v) => pure (some v)
      | .ok (.failure _) => pure (some .null)
      | .ok _ => pure none
    match value with
    | none => return .ok none
    | some v =>
      match ← replayPass is with
      | .ok (some vs) => return .ok (some (v :: vs))
      | result => return result

/-- Whether a value says nothing. -/
def isBlank : Json → Bool
  | .null => true
  | .string s => s.isEmpty
  | _ => false

/-- Executes the program of the failed invocation on its own; a value only if it
says something. -/
def isolated (invocations : List (Invocation σ)) (position : Nat) : Run σ (Option Json) := do
  if position < invocations.length then
    match ← replayPass invocations with
    | .ok (some values) => return (values[position]?).filter (!isBlank ·)
    | _ => return none
  else return none

/-- Replays a program and looks for the value of the failed invocation, which
stands at a position of `failed`. -/
def replayProgram (whole : Program σ) (failed : List (Invocation σ)) (position : Nat)
    (topLevel : Bool) : Run σ (Option Json) := do
  match ← replayPass whole.invocations with
  | .ok (some values) =>
    match ← isolated failed position with
    | some value => return some value
    | none => return if topLevel then some (.string (whole.resolve values)) else none
  | _ => return none

/-- Runs an action as a replay: the session says so as long as it lasts, even when
it is abandoned. -/
def asReplay (replay : Replay) (x : Run σ (Option Json)) : Run σ (Option Json) := do
  let c ← Timed.get
  Timed.modify (·.beginReplay replay)
  x.afterwards (·.endReplay c.session.replay)

/-- Replays the run's template for the sake of a failed invocation. `edition` is
that of the running program if it is the template itself. -/
def replay (program : Program σ) (edition : Option Nat) (position : Nat) (function : String) :
    Run σ (Option Json) := do
  Timed.modify Context.tryReplay
  let c ← Timed.get
  let root := c.program
  let topLevel := edition == some c.edition
  match Program.compileAt c.vocabulary root.source root.path root.depth with
  | .error _ => return none
  | .ok whole =>
    if topLevel && whole.invocations.isEmpty then return some (.string root.source)
    else
      let failed := if topLevel then whole.invocations else program.invocations
      asReplay ⟨function, position⟩ (replayProgram whole failed position topLevel)

end Run

end TagTemplate
