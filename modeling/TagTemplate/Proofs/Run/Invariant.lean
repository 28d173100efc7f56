import TagTemplate.Proofs.Program.Walk
import TagTemplate.Run.Replay

/-! What natives cannot break.

An `Invariant` is a property of contexts that every step of a native keeps: what it does to
the memory, the variables, the container and the program, and the notes that the journal
takes of it. Such a property holds after every behaviour, by induction on the behaviour, and
after the execution of every invocation, by recursion on the tree: `Invariant.keeps_execute`.
It makes no difference whether an action ends or is abandoned on its way.

The pass that a replay makes executes invocations and does nothing else, so it keeps an
invariant too: `Invariant.keeps_replayProgram`. -/
namespace TagTemplate

/-- A journal that has grown by events with some property, and then by one more. -/
theorem Session.exists_journal_snoc {s₀ s s' : Session} {P Q : List Event → Prop} {e : Event}
    (h : ∃ events, s.journal = s₀.journal ++ events ∧ P events)
    (hjournal : s'.journal = s.journal ++ [e]) (hnext : ∀ events, P events → Q (events ++ [e])) :
    ∃ events, s'.journal = s₀.journal ++ events ∧ Q events := by
  obtain ⟨events, hevents, hP⟩ := h
  exact ⟨events ++ [e], by rw [hjournal, hevents, List.append_assoc], hnext events hP⟩

/-- A property of contexts that the steps of natives keep; `allows` says which invocations
may be executed. -/
structure Invariant (σ : Type) where
  holds : Context σ → Prop
  allows : Heading → Prop
  remember : ∀ {c} (change : σ → σ), holds c → holds { c with memory := change c.memory }
  assign : ∀ {c} name value, holds c → holds (c.onSession (·.assign name value))
  edit : ∀ {c} change, holds c →
    holds (c.onSession fun s =>
      { s.record (.edited change) with container := s.container.edit change })
  swap : ∀ {c source path program}, Program.compile c.vocabulary source path = .ok program →
    holds c → holds (c.replaceProgram program)
  entered : ∀ {c heading}, allows heading → holds c →
    holds (c.onSession (·.record (.entered heading)))
  called : ∀ {c} {call : Call} audited, allows call.heading → holds c →
    holds (c.onSession (·.record (.called call c.session.replay c.session.replays audited)))

namespace Invariant
variable {σ α β : Type} (I : Invariant σ)

/-- Whether an action, however it ends, keeps an invariant. -/
def Keeps (x : Run σ α) : Prop := ∀ c, I.holds c.state → I.holds (x c).2.state

/-- Whether all invocations of a program may be executed. -/
def Admits (p : Program σ) : Prop := ∀ i ∈ p.walk, I.allows i.heading

/-! ### Actions -/

theorem keeps_pure (a : α) : I.Keeps (pure a : Run σ α) := fun _ hc => hc

theorem keeps_get : I.Keeps (Timed.get : Run σ (Context σ)) := fun _ hc => hc

theorem keeps_modify {f : Context σ → Context σ} (h : ∀ c, I.holds c → I.holds (f c)) :
    I.Keeps (Timed.modify f) := fun c hc => h c.state hc

theorem keeps_sleep (ms : Nat) : I.Keeps (Timed.sleep ms : Run σ Unit) := by
  intro c hc
  unfold Timed.sleep
  split
  · exact hc
  · split <;> exact hc

variable {I}

theorem Keeps.bind {x : Run σ α} {f : α → Run σ β} (hx : I.Keeps x) (hf : ∀ a, I.Keeps (f a)) :
    I.Keeps (x >>= f) := by
  intro c hc
  have hd := hx c hc
  rcases h : x c with ⟨_ | a, d⟩
  · rw [Timed.bind_none h]
    rw [h] at hd
    exact hd
  · rw [Timed.bind_some h]
    rw [h] at hd
    exact hf a d hd

/-! ### Behaviours -/

theorem keeps_run {fields : List (Resolver σ)} (hfields : ∀ x ∈ fields, I.Keeps x)
    (b : Behaviour σ) : I.Keeps (b.run fields) := by
  induction b with
  | finish result => exact I.keeps_pure result
  | inspect next ih => exact I.keeps_get.bind fun c => ih c.session
  | remember change next ih =>
    apply I.keeps_get.bind
    intro c
    exact (I.keeps_modify fun _ => I.remember change).bind fun _ => ih c.memory
  | assign name value next ih =>
    exact (I.keeps_modify fun _ => I.assign name value).bind fun _ => ih
  | edit change next ih => exact fun c hc => ih _ (I.edit change hc)
  | sleep ms next ih => exact (I.keeps_sleep ms).bind fun _ => ih
  | swap source path next ih =>
    intro c hc
    rw [Behaviour.run, Timed.bind_some (Timed.get_apply c)]
    cases hprogram : Program.compile c.state.vocabulary source path with
    | ok program => exact ih none _ (I.swap hprogram hc)
    | error e => exact ih (some e) c hc
  | field index next ih =>
    rw [Behaviour.run]
    split
    · rename_i x hx
      exact (hfields x (List.mem_of_getElem? hx)).bind fun value => ih value
    · exact ih (.ok .null)

theorem keeps_call {heading : Heading} (hallows : I.allows heading) (native : Native σ)
    {fields : List (Resolver σ)} (hfields : ∀ x ∈ fields, I.Keeps x) (args : List Json) :
    I.Keeps (Invocation.call heading native fields args) :=
  fun _ hc => keeps_run hfields _ _ (I.called native.audited hallows hc)

theorem keeps_resolveAll {fields : List (Resolver σ)} (hfields : ∀ x ∈ fields, I.Keeps x) :
    I.Keeps (Invocation.resolveAll fields) := by
  induction fields with
  | nil => exact I.keeps_pure _
  | cons field fields ih =>
    obtain ⟨hfield, hfields⟩ := List.forall_mem_cons.1 hfields
    apply hfield.bind
    intro result
    cases result with
    | error e => exact I.keeps_pure _
    | ok v =>
      apply (ih hfields).bind
      intro results
      cases results <;> exact I.keeps_pure _

theorem keeps_perform {heading : Heading} (hallows : I.allows heading) (native : Native σ)
    {fields : List (Resolver σ)} (hfields : ∀ x ∈ fields, I.Keeps x) :
    I.Keeps (Invocation.perform heading native fields) := by
  apply (I.keeps_modify fun _ => I.entered hallows).bind
  intro _
  split
  · apply (keeps_resolveAll hfields).bind
    intro result
    cases result with
    | error e => exact I.keeps_pure _
    | ok values =>
      dsimp only
      split
      · exact I.keeps_pure _
      · exact keeps_call hallows native hfields _
  · exact keeps_call hallows native hfields []

/-! ### Invocations -/

/-- Whether some invocations, and with each of them all that are nested in it, may be
executed. -/
structure Allows (I : Invariant σ) (W : Invocation σ → Prop) : Prop where
  nested : ∀ i, W i → ∀ j ∈ i.nested, W j
  heading : ∀ i, W i → I.allows i.heading

section Tree
variable {W : Invocation σ → Prop}

mutual

/-- **Executing an invocation keeps an invariant** that allows it and all nested in it. -/
theorem keeps_execute (hW : I.Allows W) (i : Invocation σ) (hi : W i) : I.Keeps i.execute := by
  match i with
  | .mk heading native none =>
    exact (keeps_perform (hW.heading _ hi) native (List.forall_mem_nil _)).bind
      fun result => I.keeps_pure _
  | .mk heading native (some fields) =>
    have hfields : ∀ j ∈ fields.flatMap Field.invocations, W j := hW.nested _ hi
    exact (keeps_perform (hW.heading _ hi) native (keeps_resolvers hW fields hfields)).bind
      fun result => I.keeps_pure _

theorem keeps_resolvers (hW : I.Allows W) (fields : List (Field (Invocation σ)))
    (h : ∀ j ∈ fields.flatMap Field.invocations, W j) :
    ∀ x ∈ Invocation.resolvers fields, I.Keeps x := by
  match fields with
  | [] => exact nofun
  | field :: fields =>
    rw [List.flatMap_cons, List.forall_mem_append] at h
    exact List.forall_mem_cons.2 ⟨keeps_resolveField hW field h.1, keeps_resolvers hW fields h.2⟩

theorem keeps_resolveField (hW : I.Allows W) (field : Field (Invocation σ))
    (h : ∀ j ∈ field.invocations, W j) : I.Keeps (Invocation.resolveField field) := by
  match field with
  | .plain text =>
    apply (keeps_resolveText hW text h).bind
    intro result
    cases result <;> exact I.keeps_pure _
  | .condition op lhs none =>
    apply (keeps_resolveText hW lhs h).bind
    intro result
    cases result <;> exact I.keeps_pure _
  | .condition op lhs (some rhs) =>
    obtain ⟨hlhs, hrhs⟩ := List.forall_mem_append.1 h
    apply (keeps_resolveText hW lhs hlhs).bind
    intro result
    cases result with
    | error e => exact I.keeps_pure _
    | ok s =>
      apply (keeps_resolveText hW rhs hrhs).bind
      intro result
      cases result <;> exact I.keeps_pure _

theorem keeps_resolveText (hW : I.Allows W) (text : FieldText (Invocation σ))
    (h : ∀ j ∈ text.invocations, W j) : I.Keeps (Invocation.resolveText text) := by
  match text with
  | ⟨_, invocations, template⟩ =>
    apply (keeps_contributions hW invocations h).bind
    intro result
    cases result <;> exact I.keeps_pure _

theorem keeps_contributions (hW : I.Allows W) (is : List (Invocation σ)) (h : ∀ j ∈ is, W j) :
    I.Keeps (Invocation.contributions is) := by
  match is with
  | [] => exact I.keeps_pure _
  | i :: is =>
    obtain ⟨hi, his⟩ := List.forall_mem_cons.1 h
    apply (keeps_execute hW i hi).bind
    intro outcome
    split
    · exact I.keeps_pure _
    · apply (keeps_contributions hW is his).bind
      intro result
      cases result <;> exact I.keeps_pure _

end

end Tree

/-- Where every invocation may be executed, every execution keeps the invariant. -/
theorem keeps_execute_of_forall (h : ∀ heading, I.allows heading) (i : Invocation σ) :
    I.Keeps i.execute :=
  have hallows : I.Allows fun _ => True := ⟨fun _ _ _ _ => trivial, fun j _ => h j.heading⟩
  keeps_execute hallows i trivial

/-- Executing an invocation of a program keeps an invariant that admits the program. -/
theorem Admits.keeps_execute {p : Program σ} (h : I.Admits p) {i : Invocation σ}
    (hi : i ∈ p.invocations) : I.Keeps i.execute :=
  have hallows : I.Allows (· ∈ p.walk) := ⟨fun _ hi _ hj => Program.nested_mem_walk hi hj, h⟩
  Invariant.keeps_execute hallows i (Program.mem_walk hi)

/-! ### Replays -/

theorem keeps_replayPass {is : List (Invocation σ)} (his : ∀ i ∈ is, I.Keeps i.execute) :
    I.Keeps (Run.replayPass is) := by
  induction is with
  | nil => exact I.keeps_pure _
  | cons i is ih =>
    obtain ⟨hi, his⟩ := List.forall_mem_cons.1 his
    rw [Run.replayPass]
    apply hi.bind
    intro result
    split
    · exact I.keeps_pure _
    · apply (ih his).bind
      intro result
      split <;> exact I.keeps_pure _
    · apply (ih his).bind
      intro result
      split <;> exact I.keeps_pure _
    · exact I.keeps_pure _

theorem keeps_isolated {is : List (Invocation σ)} (his : ∀ i ∈ is, I.Keeps i.execute)
    (position : Nat) : I.Keeps (Run.isolated is position) := by
  unfold Run.isolated
  split
  · apply (keeps_replayPass his).bind
    intro result
    split <;> exact I.keeps_pure _
  · exact I.keeps_pure _

/-- **The passes of a replay keep an invariant** that the execution of each of their
invocations keeps. -/
theorem keeps_replayProgram {whole : Program σ} (hwhole : I.Admits whole)
    {failed : List (Invocation σ)} (hfailed : ∀ i ∈ failed, I.Keeps i.execute) (position : Nat)
    (topLevel : Bool) : I.Keeps (Run.replayProgram whole failed position topLevel) := by
  apply (keeps_replayPass fun _ hi => hwhole.keeps_execute hi).bind
  intro result
  split
  · apply (keeps_isolated hfailed position).bind
    intro value
    split <;> exact I.keeps_pure _
  · exact I.keeps_pure _

end Invariant

end TagTemplate
