import TagTemplate.Run.Timed

/-! Errands: the smallest work under a deadline.

An errand logs its item and then sleeps several times, logging each sleep when it
is over. Errands show what a deadline lets through. -/
namespace TagTemplate

/-- An item, and how long to sleep for it. -/
structure Errand (α : Type) where
  item : α
  sleeps : List Nat

/-- Something an errand logs. -/
inductive Errand.Entry (α : Type) where
  | item (item : α)
  | slept (ms : Nat)

namespace Errand
variable {α : Type}

/-- Sleeps several times and logs each sleep. -/
def sleepAll : List Nat → Timed (List (Entry α)) Unit
  | [] => pure ()
  | ms :: rest => do
    Timed.sleep ms
    Timed.modify (· ++ [.slept ms])
    sleepAll rest

/-- Does an errand. -/
def run (e : Errand α) : Timed (List (Entry α)) α := do
  Timed.modify (· ++ [.item e.item])
  sleepAll e.sleeps
  return e.item

/-- Does errands one after the other, each under a deadline; says which were
finished, and gives the log. -/
def runAll (deadline : Nat) (errands : List (Errand α)) : List (Errand α × Bool) × List (Entry α) :=
  let job (e : Errand α × Bool) : Timed (List (Entry α)) (Errand α × Bool) := do
    let _ ← run e.1
    return (e.1, true)
  let (done, after) := Timed.eachWithin deadline job (errands.map (·, false)) ⟨none, []⟩
  (done.getD [], after.state)

end Errand

end TagTemplate
