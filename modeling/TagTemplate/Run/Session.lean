import TagTemplate.Container
import TagTemplate.Native.Call
import TagTemplate.Native.Outcome

/-! Sessions: the part of a run that natives read and write.

A session holds the variables, the container, whether a replay is going on, how
many there were, and a journal. The journal only grows; what a run reports, what
it found while expanding values and what it sent are read off it. -/
namespace TagTemplate

/-- The failed invocation for whose sake a template is replayed. -/
structure Replay where
  /-- The name of the function that failed. -/
  function : String
  /-- Its place among the invocations of its program. -/
  position : Nat
  deriving DecidableEq, Repr

/-- Something that happened in a run. -/
inductive Event where
  /-- The execution of an invocation began. -/
  | entered (heading : Heading)
  /-- A native was called, perhaps during a replay, after this many replays were
  tried; `audited` says whether the host wants to know of it. -/
  | called (call : Call) (replay : Option Replay) (replays : Nat) (audited : Bool)
  /-- The invocation at a position of a running program failed; these are the
  top-level invocations of that program. -/
  | failed (program : List Heading) (position : Nat) (failure : Failure)
  /-- A replay was tried for the failure that was noted last. -/
  | replayTried
  /-- A replay began. -/
  | replayBegan (replay : Replay)
  /-- The replay that began last was left. -/
  | replayEnded
  /-- A text that was produced at a depth was expanded, as a program of a depth with these
  functions. -/
  | expanded (produced depth : Nat) (names : List String)
  /-- A failure was reported. -/
  | reported (message : String)
  /-- A native edited the container. -/
  | edited (edit : Container.Edit)
  /-- The elements of a part were taken out of the container. -/
  | taken (part : Container.Part)
  /-- Elements were put in the place of a part. -/
  | stored (part : Container.Part)
  /-- The container was handed to the target. -/
  | sent (container : Container)
  deriving DecidableEq

/-- The state that natives share with the run. -/
structure Session where
  /-- The session variables. -/
  keywords : Keyed Json := []
  container : Container := {}
  /-- The replay that is going on. -/
  replay : Option Replay := none
  /-- How many replays were tried. -/
  replays : Nat := 0
  journal : List Event := []
  deriving DecidableEq

namespace Event

/-- The report that an event makes. -/
def report? : Event → Option String
  | .reported message => some message
  | _ => none

/-- The functions that an event found in a value. -/
def found : Event → List String
  | .expanded _ _ names => names
  | _ => []

def sent? : Event → Option Container
  | .sent container => some container
  | _ => none

/-- The call that an event tells the host of, with the replay it belongs to. -/
def audit? : Event → Option (Call × Option Replay)
  | .called call replay _ true => some (call, replay)
  | _ => none

end Event

namespace Session

/-- A session with one event more. -/
def record (s : Session) (event : Event) : Session :=
  { s with journal := s.journal ++ [event] }

def keyword? (s : Session) (name : String) : Option Json := Keyed.get? name s.keywords

def assign (s : Session) (name : String) (value : Json) : Session :=
  { s with keywords := Keyed.insert name value s.keywords }

/-- The reported failures. -/
def errors (s : Session) : List String := s.journal.filterMap Event.report?

/-- The functions found while expanding values. -/
def discovered (s : Session) : List String := s.journal.flatMap Event.found

def sent (s : Session) : List Container := s.journal.filterMap Event.sent?

@[simp] theorem journal_record (s : Session) (event : Event) :
    (s.record event).journal = s.journal ++ [event] := rfl

theorem errors_record (s : Session) (event : Event) :
    (s.record event).errors = s.errors ++ event.report?.toList := by
  cases h : event.report? <;> simp [errors, h]

theorem discovered_record (s : Session) (event : Event) :
    (s.record event).discovered = s.discovered ++ event.found := by
  simp [discovered]

theorem keyword?_assign (s : Session) (name other : String) (value : Json) :
    (s.assign name value).keyword? other = if other = name then some value else s.keyword? other :=
  Keyed.get?_insert name other value s.keywords

end Session

end TagTemplate
