import TagTemplate.Native.Builtin
import TagTemplate.Proofs.Run.Sending

/-! What ends a run without a text.

A pass comes to one invocation after another; `Run.Reaches` says to which, and at which
context, as long as each before it had a value. It ends early exactly when it reaches an
invocation whose outcome is a control signal or a fault (`Run.passFrom_ends_iff`), be it of
its own or of one nested in its arguments. The pass of a run over its own program is the only
one that can end the run: what values, containers and replays run is settled where it is run,
so all that matters are the invocations which that one pass reaches: `Context.run_eq_none_iff`. -/
namespace TagTemplate

namespace Run
variable {σ : Type}

/-- A pass from some position on comes to execute an invocation at some context: every one
before it succeeds or fails, and its value is expanded or put in the place of the failure. -/
inductive Reaches (expand : Json → Run σ Json) (program : Program σ) (edition : Option Nat) :
    Nat → List (Invocation σ) → Clocked (Context σ) → Invocation σ → Clocked (Context σ) → Prop
  | here {position i is c} : Reaches expand program edition position (i :: is) c i c
  | pastSuccess {position i is c v d value e j f}
      (outcome : i.execute c = (some (.ok (.success v)), d))
      (expanded : (if v.isNull then pure v else expand v : Run σ Json) d = (some value, e))
      (later : Reaches expand program edition (position + 1) is e j f) :
      Reaches expand program edition position (i :: is) c j f
  | pastFailure {position i is c failure d value e j f}
      (outcome : i.execute c = (some (.ok (.failure failure)), d))
      (handled : afterFailure program edition position i.heading failure d = (some value, e))
      (later : Reaches expand program edition (position + 1) is e j f) :
      Reaches expand program edition position (i :: is) c j f

/-- A pass has a value for the invocation at a position, which it comes to at some context. -/
inductive Fills (expand : Json → Run σ Json) (program : Program σ) (edition : Option Nat)
    (position : Nat) (i : Invocation σ) (c : Clocked (Context σ)) :
    Json → Clocked (Context σ) → Prop
  | success {v value d e} (outcome : i.execute c = (some (.ok (.success v)), d))
      (expanded : (if v.isNull then pure v else expand v : Run σ Json) d = (some value, e)) :
      Fills expand program edition position i c value e
  | failure {failure value d e} (outcome : i.execute c = (some (.ok (.failure failure)), d))
      (handled : afterFailure program edition position i.heading failure d = (some value, e)) :
      Fills expand program edition position i c value e

/-- How a pass ends at an invocation with some outcome, if that ends it. -/
def ending : Except String Outcome → Option (Except String Flow)
  | .error fault => some (.error fault)
  | .ok .stop => some (.ok .stop)
  | .ok (.giveBack v) => some (.ok (.giveBack v))
  | .ok (.success _) | .ok (.failure _) => none

section Pass
variable {expand : Json → Run σ Json} {program : Program σ} {edition : Option Nat}
  {position : Nat} {is : List (Invocation σ)} {c d : Clocked (Context σ)} {i : Invocation σ}
  {flow : Except String Flow} {value : Json}

theorem Fills.reaches (h : Fills expand program edition position i c value d)
    {j : Invocation σ} {e : Clocked (Context σ)}
    (hlater : Reaches expand program edition (position + 1) is d j e) :
    Reaches expand program edition position (i :: is) c j e := by
  cases h with
  | success outcome expanded => exact .pastSuccess outcome expanded hlater
  | failure outcome handled => exact .pastFailure outcome handled hlater

theorem passFrom_of_ending {r : Except String Outcome} (houtcome : i.execute c = (some r, d))
    (hending : ending r = some flow) :
    passFrom expand program edition position (i :: is) c = (some flow, d) := by
  rw [passFrom, Timed.bind_some houtcome]
  rcases r with fault | v | failure | v | _ <;> cases hending <;> rfl

theorem passFrom_of_success {v : Json} (houtcome : i.execute c = (some (.ok (.success v)), d)) :
    passFrom expand program edition position (i :: is) c =
      ((if v.isNull then pure v else expand v) >>= passOn expand program edition position is) d := by
  rw [passFrom, Timed.bind_some houtcome]
  dsimp only
  split <;> rfl

theorem passFrom_of_failure {failure : Failure}
    (houtcome : i.execute c = (some (.ok (.failure failure)), d)) :
    passFrom expand program edition position (i :: is) c =
      (afterFailure program edition position i.heading failure >>=
        passOn expand program edition position is) d := by
  rw [passFrom, Timed.bind_some houtcome]
  rfl

/-- **What a pass does at an invocation**: it ends there, or it has a value for it and goes
on. -/
theorem passFrom_cases {after : Clocked (Context σ)}
    (h : passFrom expand program edition position (i :: is) c = (some flow, after)) :
    (∃ r, i.execute c = (some r, after) ∧ ending r = some flow) ∨
    ∃ value d, Fills expand program edition position i c value d ∧
      passOn expand program edition position is value d = (some flow, after) := by
  rcases houtcome : i.execute c with ⟨_ | r, d⟩
  · rw [passFrom, Timed.bind_none houtcome] at h
    cases h
  rcases hending : ending r with _ | flow'
  · rcases r with fault | v | failure | v | _
    · cases hending
    · rw [passFrom_of_success houtcome] at h
      rcases hexpanded : (if v.isNull then pure v else expand v : Run σ Json) d with ⟨_ | value, e⟩
      · rw [Timed.bind_none hexpanded] at h
        cases h
      · rw [Timed.bind_some hexpanded] at h
        exact .inr ⟨value, e, .success houtcome hexpanded, h⟩
    · rw [passFrom_of_failure houtcome] at h
      rcases hhandled : afterFailure program edition position i.heading failure d with
        ⟨_ | value, e⟩
      · rw [Timed.bind_none hhandled] at h
        cases h
      · rw [Timed.bind_some hhandled] at h
        exact .inr ⟨value, e, .failure houtcome hhandled, h⟩
    · cases hending
    · cases hending
  · rw [passFrom_of_ending houtcome hending] at h
    cases h
    exact .inl ⟨r, rfl, hending⟩

/-- Behind a value a pass ends as the rest of it does, with the value in front if it
completes. -/
theorem exists_of_passOn {e : Clocked (Context σ)}
    (h : passOn expand program edition position is value c = (some flow, e)) :
    ∃ rest, passFrom expand program edition (position + 1) is c = (some rest, e) ∧
      ((∃ values, rest = .ok (.complete values) ∧ flow = .ok (.complete (value :: values))) ∨
        (∀ values, rest ≠ .ok (.complete values)) ∧ flow = rest) := by
  rcases hrest : passFrom expand program edition (position + 1) is c with ⟨_ | rest, d⟩
  · rw [passOn, Timed.bind_none hrest] at h
    cases h
  · rw [passOn, Timed.bind_some hrest] at h
    rcases rest with fault | values | v | _ <;> cases h
    · exact ⟨_, rfl, .inr ⟨nofun, rfl⟩⟩
    · exact ⟨_, rfl, .inl ⟨values, rfl, rfl⟩⟩
    · exact ⟨_, rfl, .inr ⟨nofun, rfl⟩⟩
    · exact ⟨_, rfl, .inr ⟨nofun, rfl⟩⟩

/-- A pass ends early behind a value exactly as it does without it. -/
theorem passOn_eq_iff {e : Clocked (Context σ)}
    (hearly : ∀ values, flow ≠ .ok (.complete values)) :
    passOn expand program edition position is value c = (some flow, e) ↔
      passFrom expand program edition (position + 1) is c = (some flow, e) := by
  rcases hrest : passFrom expand program edition (position + 1) is c with ⟨_ | result, after⟩
  · rw [passOn, Timed.bind_none hrest]
  · rw [passOn, Timed.bind_some hrest]
    split
    · constructor <;> intro h <;> cases h <;> exact absurd rfl (hearly _)
    · exact Iff.rfl

/-- **A pass ends early exactly where it reaches an invocation that ends it.** -/
theorem passFrom_ends_iff {after : Clocked (Context σ)}
    (hearly : ∀ values, flow ≠ .ok (.complete values)) :
    passFrom expand program edition position is c = (some flow, after) ↔
      ∃ i d r, Reaches expand program edition position is c i d ∧
        i.execute d = (some r, after) ∧ ending r = some flow := by
  constructor
  · intro h
    induction is generalizing position c with
    | nil =>
      cases h
      exact absurd rfl (hearly [])
    | cons i is ih =>
      rcases passFrom_cases h with ⟨r, houtcome, hending⟩ | ⟨value, d, hfills, hrest⟩
      · exact ⟨i, c, r, .here, houtcome, hending⟩
      · obtain ⟨j, e, r, hreaches, hlater⟩ := ih ((passOn_eq_iff hearly).1 hrest)
        exact ⟨j, e, r, hfills.reaches hreaches, hlater⟩
  · rintro ⟨i, d, r, hreaches, houtcome, hending⟩
    induction hreaches with
    | here => exact passFrom_of_ending houtcome hending
    | pastSuccess hfirst hexpanded _ ih =>
      rw [passFrom_of_success hfirst, Timed.bind_some hexpanded, passOn_eq_iff hearly]
      exact ih houtcome
    | pastFailure hfirst hhandled _ ih =>
      rw [passFrom_of_failure hfirst, Timed.bind_some hhandled, passOn_eq_iff hearly]
      exact ih houtcome

end Pass

end Run

namespace Context
variable {σ : Type}

/-- The pass of a run over its own program comes to execute an invocation at some context. -/
def Executes (c : Context σ) : Invocation σ → Clocked (Context σ) → Prop :=
  Run.Reaches (Run.expandAt c.program.depth) c.program (some c.edition) 0 c.program.invocations
    ⟨none, c⟩

/-- Whether an outcome is a stop signal or a fault. -/
def Halts (result : Option (Except String Outcome)) : Prop :=
  result = some (.ok .stop) ∨ ∃ fault, result = some (.error fault)

/-- The pass of a run ends early exactly where it executes an invocation that ends it. -/
theorem rootPass_ends_iff {c : Context σ} {flow : Except String Flow} {after : Clocked (Context σ)}
    (hearly : ∀ values, flow ≠ .ok (.complete values)) :
    c.rootPass = (some flow, after) ↔
      ∃ i d r, c.Executes i d ∧ i.execute d = (some r, after) ∧ Run.ending r = some flow :=
  Run.passFrom_ends_iff hearly

/-- The text of a run, as its pass ends. -/
theorem run_text_of_rootPass {c : Context σ} (hgates : c.passesGates = true)
    {flow : Except String Flow} {after : Clocked (Context σ)}
    (hpass : c.rootPass = (some flow, after)) :
    (c.run.1 = none ↔ flow = .ok .stop ∨ ∃ fault, flow = .error fault) ∧
      ∀ v, flow = .ok (.giveBack v) → c.run.1 = some v.display := by
  rcases flow with fault | values | v | _
  · rw [run_of_rootPass hgates hpass]
    exact ⟨⟨fun _ => .inr ⟨fault, rfl⟩, fun _ => rfl⟩, nofun⟩
  · obtain ⟨text, _, _, -, -, hrun⟩ := run_of_completes hgates hpass
    rw [hrun]
    exact ⟨⟨nofun, fun h => by rcases h with h | ⟨_, h⟩ <;> cases h⟩, nofun⟩
  · rw [run_of_rootPass hgates hpass]
    refine ⟨⟨nofun, fun h => by rcases h with h | ⟨_, h⟩ <;> cases h⟩, fun w h => ?_⟩
    cases h
    rfl
  · rw [run_of_rootPass hgates hpass]
    exact ⟨⟨fun _ => .inl rfl, fun _ => rfl⟩, nofun⟩

/-- **Only the pass over its own program ends a run without a text**, and it does so exactly
where the outcome of one of the invocations that it executes is a stop signal or a fault. A
return signal there is the text of the run, and then nothing is sent. Who raises such an outcome
of an eager invocation is told by `Invocation.raised_of_execute`. -/
theorem run_eq_none_iff {c : Context σ} (hgates : c.passesGates = true) :
    (c.run.1 = none ↔ ∃ i d, c.Executes i d ∧ Halts (i.execute d).1) ∧
      ∀ i d v, c.Executes i d → (i.execute d).1 = some (.ok (.giveBack v)) →
        c.run.1 = some v.display ∧ c.run.2.session.sent = c.session.sent := by
  constructor
  · obtain ⟨flow, after, hpass, -⟩ := c.exists_rootPass
    rw [(run_text_of_rootPass hgates hpass).1]
    constructor
    · intro h
      have hearly : ∀ values, flow ≠ .ok (.complete values) := by
        rintro values rfl
        rcases h with h | ⟨_, h⟩ <;> cases h
      obtain ⟨i, d, r, hexecutes, houtcome, hending⟩ := (rootPass_ends_iff hearly).1 hpass
      refine ⟨i, d, hexecutes, ?_⟩
      rw [houtcome]
      rcases h with rfl | ⟨fault, rfl⟩
      · rcases r with _ | _ | _ | _ | _ <;> cases hending
        exact .inl rfl
      · rcases r with _ | _ | _ | _ | _ <;> cases hending
        exact .inr ⟨fault, rfl⟩
    · rintro ⟨i, d, hexecutes, hhalts⟩
      rcases houtcome : i.execute d with ⟨r, after'⟩
      rw [houtcome] at hhalts
      rcases hhalts with rfl | ⟨fault, rfl⟩
      · have hends := (rootPass_ends_iff (by nofun)).2 ⟨i, d, _, hexecutes, houtcome, rfl⟩
        cases hpass.symm.trans hends
        exact .inl rfl
      · have hends := (rootPass_ends_iff (by nofun)).2 ⟨i, d, _, hexecutes, houtcome, rfl⟩
        cases hpass.symm.trans hends
        exact .inr ⟨fault, rfl⟩
  · intro i d v hexecutes houtcome
    have hends : c.rootPass = (some (.ok (.giveBack v)), (i.execute d).2) :=
      (rootPass_ends_iff (by nofun)).2 ⟨i, d, _, hexecutes, Prod.ext houtcome rfl, rfl⟩
    have hnot : ¬ c.Completes := by
      rintro ⟨values, after, hpass⟩
      cases hends.symm.trans hpass
    refine ⟨(run_text_of_rootPass hgates hends).2 v rfl, ?_⟩
    rw [run_of_not_completes hgates hnot]
    exact ((quiet_rootPass c).goesOn ⟨none, c⟩).sent_eq

/-- A stop signal in an argument ends the run as well. -/
theorem run_eq_none_nested :
    let v : Vocabulary Unit := .ofNatives [Builtin.letNative, Builtin.stopNative]
    let stop : Invocation Unit := .mk ⟨0, "$stop", false, false, none, 0⟩ Builtin.stopNative none
    let i : Invocation Unit :=
      .mk ⟨1, "$let", false, false, none, 0⟩ Builtin.letNative
        (some [.plain ⟨"x", [], .literal "x"⟩, .plain ⟨"[@fn:0]", [stop], ⟨[.slot 0]⟩⟩])
    let p : Program Unit :=
      ⟨"a $let[x;$stop]", none, "a [@fn:1]", [i], ⟨[.text "a ", .slot 0]⟩, 0⟩
    let c : Context Unit := { program := p, vocabulary := v, memory := () }
    Program.compile v "a $let[x;$stop]" none = .ok p ∧ c.passesGates = true ∧ c.run.1 = none := by
  intro v stop i p c
  have hcompile : Program.compile v "a $let[x;$stop]" none = .ok p := by
    with_unfolding_all rfl
  have hexecutes : c.Executes i ⟨none, c⟩ := .here
  have hhalts : Halts (i.execute ⟨none, c⟩).1 := .inl rfl
  exact ⟨hcompile, rfl, (run_eq_none_iff rfl).1.2 ⟨i, _, hexecutes, hhalts⟩⟩

end Context

end TagTemplate
