/-! Actions that take time, and deadlines.

An action changes a state, may sleep, and ends with a value or is abandoned.
Sleeping uses up the time that is left until the deadline; the sleep that would
end after it never returns, and the action is abandoned there with the state it
has reached. A deadline set by `within` covers one action only: what follows goes
on with the time it had before. -/
namespace TagTemplate

/-- A state and the milliseconds left until the deadline, if there is one. -/
structure Clocked (S : Type) where
  remaining : Option Nat
  state : S

/-- An action on a state; no value means that it was abandoned. -/
def Timed (S α : Type) : Type := Clocked S → Option α × Clocked S

namespace Timed
variable {S α β : Type}

instance : Monad (Timed S) where
  pure a := fun c => (some a, c)
  bind x f := fun c =>
    match x c with
    | (some a, c) => f a c
    | (none, c) => (none, c)

@[simp] theorem pure_apply (a : α) (c : Clocked S) : (pure a : Timed S α) c = (some a, c) := rfl

theorem bind_apply (x : Timed S α) (f : α → Timed S β) (c : Clocked S) :
    (x >>= f) c =
      match x c with
      | (some a, c) => f a c
      | (none, c) => (none, c) := rfl

/-- An action goes on where a first one ended with a value. -/
theorem bind_some {x : Timed S α} {f : α → Timed S β} {c d : Clocked S} {a : α}
    (h : x c = (some a, d)) : (x >>= f) c = f a d := by
  rw [bind_apply, h]

/-- An action that follows an abandoned one does nothing. -/
theorem bind_none {x : Timed S α} {f : α → Timed S β} {c d : Clocked S}
    (h : x c = (none, d)) : (x >>= f) c = (none, d) := by
  rw [bind_apply, h]

/-- Changing the result changes nothing else. -/
theorem bind_pure_apply (x : Timed S α) (f : α → β) (c : Clocked S) :
    (x >>= fun a => pure (f a)) c = ((x c).1.map f, (x c).2) := by
  rcases h : x c with ⟨_ | a, d⟩
  · exact bind_none h
  · exact bind_some h

/-- An action leaves the state behind that it leaves before steps that keep it. -/
theorem bind_after {x : Timed S α} {f : α → Timed S β} (hf : ∀ a d, (f a d).2 = d)
    (c : Clocked S) : ((x >>= f) c).2 = (x c).2 := by
  rcases h : x c with ⟨_ | a, d⟩
  · rw [bind_none h]
  · rw [bind_some h]
    exact hf a d

instance : LawfulMonad (Timed S) :=
  LawfulMonad.mk' (Timed S)
    (fun x => by
      funext c
      rcases h : x c with ⟨_ | a, d⟩
      · exact bind_none h
      · exact bind_some h)
    (fun _ _ => rfl)
    (fun x f g => by
      funext c
      rcases h : x c with ⟨_ | a, d⟩
      · rw [bind_none h, bind_none (bind_none h)]
      · rw [bind_some h, bind_apply, bind_some h, bind_apply])

/-- The state. -/
def get : Timed S S := fun c => (some c.state, c)

/-- Changes the state. -/
def modify (f : S → S) : Timed S Unit := fun c => (some (), { c with state := f c.state })

@[simp] theorem get_apply (c : Clocked S) : get c = (some c.state, c) := rfl

@[simp] theorem modify_apply (f : S → S) (c : Clocked S) :
    modify f c = (some (), { c with state := f c.state }) := rfl

/-- Waits for some milliseconds. -/
def sleep (ms : Nat) : Timed S Unit := fun c =>
  match c.remaining with
  | none => (some (), c)
  | some left =>
    if ms ≤ left then (some (), { c with remaining := some (left - ms) }) else (none, c)

/-- Runs an action under a deadline of its own; no value when it was abandoned. -/
def within (deadline : Nat) (x : Timed S α) : Timed S (Option α) := fun c =>
  match x { c with remaining := some deadline } with
  | (result, after) => (some result, { after with remaining := c.remaining })

/-- A deadline ends with its action, and the action always leaves a result. -/
theorem within_apply (deadline : Nat) (x : Timed S α) (c : Clocked S) :
    within deadline x c =
      (some (x ⟨some deadline, c.state⟩).1,
        ⟨c.remaining, (x ⟨some deadline, c.state⟩).2.state⟩) := rfl

/-- Runs an action and then changes the state, whether it was abandoned or not. -/
def afterwards (x : Timed S α) (f : S → S) : Timed S α := fun c =>
  match x c with
  | (result, after) => (result, { after with state := f after.state })

theorem afterwards_apply (x : Timed S α) (f : S → S) (c : Clocked S) :
    x.afterwards f c = ((x c).1, { (x c).2 with state := f (x c).2.state }) := rfl

/-- Maps a list by an action, in order. -/
def each (f : α → Timed S β) : List α → Timed S (List β)
  | [] => pure []
  | a :: as => do
    let b ← f a
    let bs ← each f as
    return b :: bs

/-- Maps a list by an action, each item under a deadline of its own; an item whose
action is abandoned stays as it is. -/
def eachWithin (deadline : Nat) (f : α → Timed S α) : List α → Timed S (List α)
  | [] => pure []
  | a :: as => do
    let b ← within deadline (f a)
    let bs ← eachWithin deadline f as
    return b.getD a :: bs

/-- A list is mapped to one of the same length, whatever is abandoned. -/
theorem eachWithin_eq_some (deadline : Nat) (f : α → Timed S α) (as : List α) (c : Clocked S) :
    ∃ bs d, eachWithin deadline f as c = (some bs, d) ∧ bs.length = as.length := by
  induction as generalizing c with
  | nil => exact ⟨[], c, rfl, rfl⟩
  | cons a as ih =>
    have hfirst := within_apply deadline (f a) c
    obtain ⟨bs, d, hrest, hlength⟩ :=
      ih ⟨c.remaining, (f a ⟨some deadline, c.state⟩).2.state⟩
    refine ⟨(f a ⟨some deadline, c.state⟩).1.getD a :: bs, d, ?_, by simp [hlength]⟩
    rw [eachWithin, bind_some hfirst, bind_some hrest]
    rfl

end Timed

end TagTemplate
