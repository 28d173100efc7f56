import TagTemplate.Program.Basic
import TagTemplate.Run.Timed
import TagTemplate.Settings
import TagTemplate.Vocabulary

/-! Contexts: all that a run works on.

A context holds the program, the vocabulary for texts that the run compiles
itself, the settings, who triggered the run and under which gates, where the
result goes, the session, and the host's memory. Natives may replace the program;
the edition counts how often that happened, so a pass can tell whether it still
runs the program of the context. -/
namespace TagTemplate

/-- The gates of a command. -/
structure Command where
  allowBots : Bool := false
  guildOnly : Bool := false
  deriving DecidableEq, Repr

/-- Who triggered a run. -/
structure Invoker where
  userId : String := ""
  guildId : Option String := none
  isBot : Bool := false
  deriving DecidableEq, Repr

/-- Why a container was not delivered. -/
inductive DeliveryError where
  | rejected (message : String)
  | failed (message : String)
  deriving DecidableEq, Repr

/-- Where a container is sent. -/
abbrev Target (σ : Type) := Container → σ → Except DeliveryError Unit × σ

/-- What a host puts in the place of a failure, if it handles it. -/
abbrev FailureHook (σ : Type) := Heading → Failure → σ → Option Json × σ

/-- All that a run works on. -/
structure Context (σ : Type) where
  program : Program σ
  /-- How often the program was replaced. -/
  edition : Nat := 0
  vocabulary : Vocabulary σ
  settings : Settings := {}
  command : Option Command := none
  invoker : Invoker := {}
  /-- Whether the result stays undelivered. -/
  withheld : Bool := false
  target : Option (Target σ) := none
  hook : Option (FailureHook σ) := none
  session : Session := {}
  memory : σ

/-- An action of a run. -/
abbrev Run (σ α : Type) := Timed (Context σ) α

namespace Context
variable {σ : Type}

/-- Changes the session. -/
def onSession (f : Session → Session) (c : Context σ) : Context σ :=
  { c with session := f c.session }

/-- Replaces the program. -/
def replaceProgram (c : Context σ) (program : Program σ) : Context σ :=
  { c with program, edition := c.edition + 1 }

/-- Whether the command lets the invoker through. -/
def passesCommand (c : Context σ) : Bool :=
  match c.command with
  | none => true
  | some command =>
    (command.allowBots || !c.invoker.isBot) && (!command.guildOnly || c.invoker.guildId.isSome)

/-- Whether the lists of the settings let the invoker through. A list applies only
to an id that the run has. -/
def passesRestrictions (c : Context σ) : Bool :=
  match c.settings.restrictions with
  | none => true
  | some lists =>
    let user := c.invoker.userId
    (lists.userIds.isEmpty || user.isEmpty || lists.userIds.contains user) &&
      match c.invoker.guildId with
      | none => true
      | some guild => lists.guildIds.isEmpty || lists.guildIds.contains guild

/-- Whether the invoker may run the program at all. -/
def passesGates (c : Context σ) : Bool := c.passesCommand && c.passesRestrictions

/-- Decides what takes the place of a failure. A hook decides alone; without one a
silent failure is null, and any other is reported and keeps its value. Nothing
means that the failure is not handled. -/
def handleFailure (heading : Heading) (failure : Failure) (c : Context σ) :
    Option Json × Context σ :=
  match c.hook with
  | some hook =>
    let (value, memory) := hook heading failure c.memory
    (value, { c with memory })
  | none =>
    if heading.silent then (some .null, c)
    else
      let report := Event.reported (heading.name ++ ": " ++ failure.message)
      (failure.value, c.onSession (·.record report))

end Context

namespace Run
variable {σ : Type}

/-- Notes an event in the journal. -/
def record (event : Event) : Run σ Unit := Timed.modify (·.onSession (·.record event))

/-- Decides what takes the place of a failure; null if it is not handled. -/
def failureValue (heading : Heading) (failure : Failure) : Run σ Json := fun c =>
  let (value, state) := c.state.handleFailure heading failure
  (some (value.getD .null), { c with state })

end Run

end TagTemplate
