import TagTemplate.Proofs.Run.GoesOn
import TagTemplate.Proofs.Run.Rules

/-! What a run does before it sends.

All that a run does, except for the sending itself, is `Quiet`: it is abandoned only when a
deadline is set, it sends nothing, and it takes no notice of where the result is to be sent
or whether it is at all. Each rule by which actions are put together keeps them quiet, so
this is seen step by step along the definitions: for behaviours and for the tree of an
invocation, for replays, for passes and for the run of a text. For values and for the parts of
a container it follows by the rules for these: `Quiet.rules`. -/
namespace TagTemplate

/-- Where the result of a run is sent, and whether it is withheld. -/
structure Destination (σ : Type) where
  target : Option (Target σ)
  withheld : Bool

namespace Context
variable {σ : Type}

/-- The destination of a context. -/
def destination (c : Context σ) : Destination σ := ⟨c.target, c.withheld⟩

/-- A context with another destination. -/
def redirect (d : Destination σ) (c : Context σ) : Context σ :=
  { c with target := d.target, withheld := d.withheld }

/-- A run goes on without sending anything. -/
abbrev GoesOnUnsent (c c' : Context σ) : Prop := c.GoesOn (fun e => e.sent? = none) c'

theorem GoesOn.sent_eq {c c' : Context σ} (h : c.GoesOnUnsent c') :
    c'.session.sent = c.session.sent := by
  obtain ⟨events, hjournal, hall⟩ := h.events
  have hnone : events.filterMap Event.sent? = [] := List.filterMap_eq_nil_iff.2 hall
  rw [Session.sent, hjournal, List.filterMap_append, hnone, List.append_nil]
  rfl

end Context

/-- A timed context with another destination. -/
def Clocked.redirect {σ : Type} (d : Destination σ) (c : Clocked (Context σ)) :
    Clocked (Context σ) :=
  ⟨c.remaining, c.state.redirect d⟩

/-- What a pass does behind the value of its first invocation. -/
def Run.passOn {σ : Type} (expand : Json → Run σ Json) (program : Program σ)
    (edition : Option Nat) (position : Nat) (is : List (Invocation σ)) (value : Json) :
    Run σ (Except String Flow) := do
  match ← Run.passFrom expand program edition (position + 1) is with
  | .ok (.complete values) => return .ok (.complete (value :: values))
  | result => return result

/-- Whether an action ends unless there is a deadline, sends nothing, and does the same
whatever the destination is. -/
structure Quiet {σ α : Type} (x : Run σ α) : Prop where
  ends : ∀ {c : Clocked (Context σ)}, c.remaining = none →
    ∃ a after, x c = (some a, after) ∧ after.remaining = none
  goesOn : ∀ c : Clocked (Context σ), c.state.GoesOnUnsent (x c).2.state
  blind : ∀ (d : Destination σ) c, x (c.redirect d) = ((x c).1, (x c).2.redirect d)

namespace Quiet
variable {σ α β : Type}

/-! ### Rules -/

theorem pure (a : α) : Quiet (Pure.pure a : Run σ α) where
  ends h := ⟨a, _, rfl, h⟩
  goesOn _ := .refl _
  blind _ _ := rfl

theorem bind {x : Run σ α} {f : α → Run σ β} (hx : Quiet x) (hf : ∀ a, Quiet (f a)) :
    Quiet (x >>= f) where
  ends h := by
    obtain ⟨a, after, ha, hafter⟩ := hx.ends h
    rw [Timed.bind_some ha]
    exact (hf a).ends hafter
  goesOn c := by
    have hfirst := hx.goesOn c
    rcases h : x c with ⟨_ | a, after⟩
    · rw [Timed.bind_none h]
      rwa [h] at hfirst
    · rw [Timed.bind_some h]
      rw [h] at hfirst
      exact hfirst.trans ((hf a).goesOn after)
  blind d c := by
    have hfirst := hx.blind d c
    rcases h : x c with ⟨_ | a, after⟩
    · rw [h] at hfirst
      rw [Timed.bind_none h, Timed.bind_none hfirst]
    · rw [h] at hfirst
      rw [Timed.bind_some h, Timed.bind_some hfirst]
      exact (hf a).blind d after

/-- An action may go by anything in the context but its destination. -/
theorem get_bind {f : Context σ → Run σ β}
    (hblind : ∀ (d : Destination σ) c, f (c.redirect d) = f c) (hf : ∀ c, Quiet (f c)) :
    Quiet (Timed.get >>= f) where
  ends {c} h := (hf c.state).ends h
  goesOn c := (hf c.state).goesOn c
  blind d c := by
    rw [Timed.bind_some (Timed.get_apply _), Timed.bind_some (Timed.get_apply _), Clocked.redirect,
      hblind]
    exact (hf c.state).blind d c

theorem modify {f : Context σ → Context σ}
    (hblind : ∀ (d : Destination σ) c, f (c.redirect d) = (f c).redirect d)
    (hf : ∀ c : Context σ, c.GoesOnUnsent (f c)) : Quiet (Timed.modify f) where
  ends h := ⟨(), _, rfl, h⟩
  goesOn c := hf c.state
  blind d c := by
    rw [Timed.modify_apply, Timed.modify_apply, Clocked.redirect, hblind]
    rfl

theorem record {e : Event} (he : e.sent? = none) : Quiet (Run.record e : Run σ Unit) :=
  modify (fun _ _ => rfl) fun c => .record c he

theorem sleep (ms : Nat) : Quiet (Timed.sleep ms : Run σ Unit) where
  ends {c} h := ⟨(), c, by rw [Timed.sleep, h], h⟩
  goesOn c := by
    unfold Timed.sleep
    split
    · exact .refl _
    · split <;> exact .refl _
  blind d c := by
    unfold Timed.sleep Clocked.redirect
    dsimp only
    split
    · rfl
    · split <;> rfl

theorem within {x : Run σ α} (hx : Quiet x) (deadline : Nat) : Quiet (Timed.within deadline x) where
  ends h := ⟨_, _, Timed.within_apply deadline x _, h⟩
  goesOn c := hx.goesOn ⟨some deadline, c.state⟩
  blind d c := by
    have hlimited := hx.blind d ⟨some deadline, c.state⟩
    rw [Clocked.redirect] at hlimited
    rw [Timed.within_apply, Timed.within_apply, Clocked.redirect, hlimited]
    rfl

theorem afterwards {x : Run σ α} (hx : Quiet x) {f : Context σ → Context σ}
    (hblind : ∀ (d : Destination σ) c, f (c.redirect d) = (f c).redirect d)
    (hf : ∀ c : Context σ, c.GoesOnUnsent (f c)) :
    Quiet (x.afterwards f) where
  ends h := by
    obtain ⟨a, after, ha, hafter⟩ := hx.ends h
    rw [Timed.afterwards_apply, ha]
    exact ⟨a, _, rfl, hafter⟩
  goesOn c := (hx.goesOn c).trans (hf _)
  blind d c := by
    rw [Timed.afterwards_apply, Timed.afterwards_apply, hx.blind]
    dsimp only [Clocked.redirect]
    rw [hblind]

/-! ### Invocations -/

theorem run {fields : List (Resolver σ)} (hfields : ∀ x ∈ fields, Quiet x) (b : Behaviour σ) :
    Quiet (b.run fields) := by
  induction b with
  | finish result => exact pure result
  | inspect next ih => exact get_bind (fun _ _ => rfl) fun c => ih c.session
  | remember change next ih =>
    refine get_bind (fun _ _ => rfl) fun c => bind ?_ fun _ => ih c.memory
    exact modify (fun _ _ => rfl) fun _ => .of_journal_eq rfl rfl rfl rfl
  | assign name value next ih =>
    refine bind ?_ fun _ => ih
    exact modify (fun _ _ => rfl) fun _ => .of_journal_eq rfl rfl rfl rfl
  | edit change next ih =>
    refine bind ?_ fun _ => bind (record rfl) fun _ => ih
    exact modify (fun _ _ => rfl) fun _ => .of_journal_eq rfl rfl rfl rfl
  | sleep ms next ih => exact (sleep ms).bind fun _ => ih
  | swap source path next ih =>
    rw [Behaviour.run]
    refine get_bind (fun _ _ => rfl) fun c => ?_
    cases Program.compile c.vocabulary source path with
    | error e => exact ih (some e)
    | ok program =>
      refine bind ?_ fun _ => ih none
      exact modify (fun _ _ => rfl) fun _ => .of_journal_eq rfl rfl rfl rfl
  | field index next ih =>
    rw [Behaviour.run]
    split
    · rename_i x hx
      exact (hfields x (List.mem_of_getElem? hx)).bind fun value => ih value
    · exact ih (.ok .null)

theorem resolveAll {fields : List (Resolver σ)} (hfields : ∀ x ∈ fields, Quiet x) :
    Quiet (Invocation.resolveAll fields) := by
  induction fields with
  | nil => exact pure _
  | cons field fields ih =>
    obtain ⟨hfield, hfields⟩ := List.forall_mem_cons.1 hfields
    refine hfield.bind fun result => ?_
    cases result with
    | error e => exact pure _
    | ok v =>
      refine (ih hfields).bind fun results => ?_
      cases results <;> exact pure _

theorem call (heading : Heading) (native : Native σ) {fields : List (Resolver σ)}
    (hfields : ∀ x ∈ fields, Quiet x) (args : List Json) :
    Quiet (Invocation.call heading native fields args) :=
  get_bind (fun _ _ => rfl) fun _ => (record rfl).bind fun _ => run hfields _

theorem perform (heading : Heading) (native : Native σ) {fields : List (Resolver σ)}
    (hfields : ∀ x ∈ fields, Quiet x) : Quiet (Invocation.perform heading native fields) := by
  refine (record rfl).bind fun _ => ?_
  split
  · refine (resolveAll hfields).bind fun result => ?_
    cases result with
    | error e => exact pure _
    | ok values =>
      dsimp only
      split
      · exact pure _
      · exact call heading native hfields _
  · exact call heading native hfields []

mutual

/-- **Executing an invocation is quiet.** -/
theorem execute (i : Invocation σ) : Quiet i.execute := by
  match i with
  | .mk heading native none =>
    exact (perform heading native (List.forall_mem_nil _)).bind fun _ => pure _
  | .mk heading native (some fields) =>
    exact (perform heading native (resolvers fields)).bind fun _ => pure _

theorem resolvers (fields : List (Field (Invocation σ))) :
    ∀ x ∈ Invocation.resolvers fields, Quiet x := by
  match fields with
  | [] => exact nofun
  | field :: fields => exact List.forall_mem_cons.2 ⟨resolveField field, resolvers fields⟩

theorem resolveField (field : Field (Invocation σ)) : Quiet (Invocation.resolveField field) := by
  match field with
  | .plain text =>
    refine (resolveText text).bind fun result => ?_
    cases result <;> exact pure _
  | .condition op lhs none =>
    refine (resolveText lhs).bind fun result => ?_
    cases result <;> exact pure _
  | .condition op lhs (some rhs) =>
    refine (resolveText lhs).bind fun result => ?_
    cases result with
    | error e => exact pure _
    | ok s =>
      refine (resolveText rhs).bind fun result => ?_
      cases result <;> exact pure _

theorem resolveText (text : FieldText (Invocation σ)) : Quiet (Invocation.resolveText text) := by
  match text with
  | ⟨_, invocations, template⟩ =>
    refine (contributions invocations).bind fun result => ?_
    cases result <;> exact pure _

theorem contributions (is : List (Invocation σ)) : Quiet (Invocation.contributions is) := by
  match is with
  | [] => exact pure _
  | i :: is =>
    refine (execute i).bind fun outcome => ?_
    split
    · exact pure _
    · refine (contributions is).bind fun result => ?_
      cases result <;> exact pure _

end

/-! ### Failures and replays -/

theorem replayPass (is : List (Invocation σ)) : Quiet (Run.replayPass is) := by
  induction is with
  | nil => exact pure _
  | cons i is ih =>
    rw [Run.replayPass]
    refine (execute i).bind fun result => ?_
    split
    · exact pure _
    · refine ih.bind fun result => ?_
      split <;> exact pure _
    · refine ih.bind fun result => ?_
      split <;> exact pure _
    · exact pure _

theorem isolated (is : List (Invocation σ)) (position : Nat) :
    Quiet (Run.isolated is position) := by
  unfold Run.isolated
  split
  · refine (replayPass is).bind fun result => ?_
    split <;> exact pure _
  · exact pure _

theorem replayProgram (whole : Program σ) (failed : List (Invocation σ)) (position : Nat)
    (topLevel : Bool) : Quiet (Run.replayProgram whole failed position topLevel) := by
  refine (replayPass whole.invocations).bind fun result => ?_
  split
  · refine (isolated failed position).bind fun value => ?_
    split <;> exact pure _
  · exact pure _

theorem asReplay (replay : Replay) {x : Run σ (Option Json)} (hx : Quiet x) :
    Quiet (Run.asReplay replay x) := by
  refine get_bind (fun _ _ => rfl) fun c => bind ?_ fun _ => hx.afterwards (fun _ _ => rfl) ?_
  · exact modify (fun _ _ => rfl) fun _ =>
      .of_event (e := .replayBegan replay) rfl rfl rfl rfl rfl
  · exact fun _ => .of_event (e := .replayEnded) rfl rfl rfl rfl rfl

theorem replay (program : Program σ) (edition : Option Nat) (position : Nat) (function : String) :
    Quiet (Run.replay program edition position function) := by
  have htried : Quiet (Timed.modify (Context.tryReplay (σ := σ))) :=
    modify (fun _ _ => rfl) fun _ => .of_event (e := .replayTried) rfl rfl rfl rfl rfl
  refine htried.bind fun _ => get_bind (fun _ _ => rfl) fun c => ?_
  dsimp only
  split
  · exact pure _
  · split
    · exact pure _
    · exact asReplay _ (replayProgram _ _ _ _)

theorem failureValue (heading : Heading) (failure : Failure) :
    Quiet (Run.failureValue heading failure : Run σ Json) where
  ends h := ⟨_, _, rfl, h⟩
  goesOn c := by
    show c.state.GoesOnUnsent (c.state.handleFailure heading failure).2
    unfold Context.handleFailure
    split
    · exact .of_journal_eq rfl rfl rfl rfl
    · split
      · exact .refl _
      · exact .record _ rfl
  blind d c := by
    simp only [Run.failureValue, Context.handleFailure, Clocked.redirect, Context.redirect]
    split
    · rfl
    · split <;> rfl

theorem afterFailure (program : Program σ) (edition : Option Nat) (position : Nat)
    (heading : Heading) (failure : Failure) :
    Quiet (Run.afterFailure program edition position heading failure) := by
  refine (record rfl).bind fun _ => (failureValue heading failure).bind fun value => ?_
  refine get_bind (fun _ _ => rfl) fun c => ?_
  split
  · exact (replay program edition position heading.name).bind fun _ => pure _
  · exact pure _

/-! ### Passes and expansions -/

theorem passFrom {expand : Json → Run σ Json} (hexpand : ∀ v, Quiet (expand v))
    (program : Program σ) (edition : Option Nat) (position : Nat) (is : List (Invocation σ)) :
    Quiet (Run.passFrom expand program edition position is) := by
  induction is generalizing position with
  | nil => exact pure _
  | cons i is ih =>
    have hrest (value : Json) : Quiet (Run.passOn expand program edition position is value) := by
      refine (ih (position + 1)).bind fun result => ?_
      rcases result with _ | _ | _ | _ <;> exact pure _
    rw [Run.passFrom]
    refine (execute i).bind fun result => ?_
    rcases result with fault | v | failure | v | _
    · exact pure _
    · dsimp only
      split
      · exact hrest v
      · exact (hexpand v).bind hrest
    · exact (afterFailure program edition position i.heading failure).bind hrest
    · exact pure _
    · exact pure _

/-- **A pass is quiet** if the expansion of values is. -/
theorem pass {expand : Json → Run σ Json} (hexpand : ∀ v, Quiet (expand v)) (program : Program σ)
    (edition : Option Nat) : Quiet (Run.pass expand program edition) :=
  passFrom hexpand program edition 0 program.invocations

theorem passOver {expand : Json → Run σ Json} (hexpand : ∀ v, Quiet (expand v)) (s : String)
    (program : Program σ) : Quiet (Run.passOver expand s program) := by
  refine (pass hexpand program none).bind fun flow => ?_
  split <;> exact pure _

theorem runText {expand : Json → Run σ Json} (hexpand : ∀ v, Quiet (expand v)) (depth : Nat)
    (s : String) : Quiet (Run.runText expand depth s) := by
  refine get_bind (fun _ _ => rfl) fun c => ?_
  split
  · split
    · exact pure _
    · exact (record rfl).bind fun _ => passOver hexpand s _
  · exact pure _

/-- What a run does to values and to the parts of a container is quiet by the rules. -/
theorem rules : Run.Rules (@Quiet σ) where
  pure := pure
  bind := bind
  reads hf := get_bind fun d c => hf (c.redirect d) c rfl rfl rfl
  within deadline hx := hx.within deadline
  taken _ _ := modify (fun _ _ => rfl) fun _ => .of_event (e := .taken _) rfl rfl rfl rfl rfl
  stored _ _ := modify (fun _ _ => rfl) fun _ => .of_event (e := .stored _) rfl rfl rfl rfl rfl
  text hexpand s := runText hexpand _ s

/-- **Expanding a value is quiet**, whatever it finds in it. -/
theorem expandAt (depth : Nat) (v : Json) : Quiet (Run.expandAt depth v : Run σ Json) :=
  rules.expandAt depth v

end Quiet

end TagTemplate
