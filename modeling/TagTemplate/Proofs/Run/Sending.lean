import TagTemplate.Proofs.Run.Quiet

/-! What a run sends.

A run that completes its pass takes a last look at the text, prepares the container and
hands it to the target. All but the last of these is quiet, so a run comes to the point of
sending without having sent anything, and with the destination that it began with:
`Context.run_sends` says when it sends, that this is the last that happens, and that the
text is the same wherever it is sent. -/
namespace TagTemplate

/-- A context whose container was handed to a target. -/
def Context.handTo {σ : Type} (target : Target σ) (c : Context σ) : Context σ :=
  { c with memory := (target c.session.container c.memory).2 }.onSession
    (·.record (.sent c.session.container))

/-- A context whose container was handed to its own target, if it has one. -/
def Context.dispatch {σ : Type} (c : Context σ) : Context σ :=
  match c.target with
  | none => c
  | some target => c.handTo target

theorem Quiet.destination_eq {σ α : Type} {x : Run σ α} (hx : Quiet x) (c : Clocked (Context σ)) :
    (x c).2.state.destination = c.state.destination := by
  -- To send a context where it is sent already changes nothing, so neither does it afterwards.
  have hsame : x c = ((x c).1, (x c).2.redirect c.state.destination) :=
    hx.blind c.state.destination c
  rw [hsame]
  rfl

namespace Run
variable {σ : Type}

/-- The text of a program, with the expansion of what straddles its pieces. -/
def lastLook (program : Program σ) (values : List Json) : Run σ String := do
  let c ← Timed.get
  let text := program.resolve values
  if c.settings.expand && straddles text (program.template.spans values) then
    expandTextAt program.depth text
  else pure text

/-- What a run does when its pass is over. -/
def afterPass (program : Program σ) : Except String Flow → Run σ (Option String)
  | .ok (.complete values) => do return some (← conclude program values)
  | .ok (.giveBack v) => return some v.display
  | _ => return none

/-- A delivery up to the sending. -/
def prepare (text : String) : Run σ Unit := do
  Timed.modify (·.onSession fun s =>
    { s with container := { s.container with content := some text } })
  expandContainer expandAt

theorem quiet_lastLook (program : Program σ) (values : List Json) :
    Quiet (lastLook program values) := by
  refine .get_bind (fun _ _ => rfl) fun c => ?_
  dsimp only
  split
  · exact Quiet.rules.expandTextAt _ _
  · exact .pure _

theorem quiet_prepare (text : String) : Quiet (prepare text : Run σ Unit) :=
  have hcontent : Quiet (Timed.modify fun c : Context σ => c.onSession fun s =>
      { s with container := { s.container with content := some text } }) :=
    .modify (fun _ _ => rfl) fun _ => .of_journal_eq rfl rfl rfl rfl
  hcontent.bind fun _ => Quiet.rules.expandContainer .expandAt

theorem conclude_eq_bind (program : Program σ) (values : List Json) :
    conclude program values = lastLook program values >>= fun text => do
      let c ← Timed.get
      if c.withheld then return text
      else
        prepare text
        send
        return text := by
  simp only [conclude, concludeBy, lastLook, prepare, deliver, bind_assoc]
  congr 1
  funext c
  split <;> rfl

theorem send_apply (c : Clocked (Context σ)) :
    send c = (some (), ⟨c.remaining, c.state.dispatch⟩) := by
  rw [send, Timed.bind_some (Timed.get_apply c), Context.dispatch]
  cases c.state.target <;> rfl

/-- Where nothing is abandoned, the conclusion of a run has the text of the last look, and
hands the container over unless it is withheld. -/
theorem conclude_apply (program : Program σ) (values : List Json) {c : Clocked (Context σ)}
    (hc : c.remaining = none) :
    ∃ text looked ready, lastLook program values c = (some text, looked) ∧
      prepare text looked = (some (), ready) ∧
      conclude program values c =
        if looked.state.withheld then (some text, looked)
        else (some text, ⟨ready.remaining, ready.state.dispatch⟩) := by
  obtain ⟨text, looked, hlook, hlooked⟩ := (quiet_lastLook program values).ends hc
  obtain ⟨_, ready, hready, -⟩ := (quiet_prepare text).ends hlooked
  refine ⟨text, looked, ready, hlook, hready, ?_⟩
  rw [conclude_eq_bind, Timed.bind_some hlook, Timed.bind_some (Timed.get_apply looked)]
  split
  · rfl
  · rw [Timed.bind_some hready, Timed.bind_some (send_apply ready)]
    rfl

end Run

namespace Context
variable {σ : Type}

/-- The pass of a run over its own program: how it ends, and the context then. -/
def rootPass (c : Context σ) : Option (Except String Flow) × Clocked (Context σ) :=
  Run.pass (Run.expandAt c.program.depth) c.program (some c.edition) ⟨none, c⟩

theorem quiet_rootPass (c : Context σ) :
    Quiet (Run.pass (Run.expandAt c.program.depth) c.program (some c.edition)) :=
  .pass (.expandAt c.program.depth) c.program (some c.edition)

/-- The pass of a run is not abandoned. -/
theorem exists_rootPass (c : Context σ) :
    ∃ flow after, c.rootPass = (some flow, after) ∧ after.remaining = none :=
  (quiet_rootPass c).ends rfl

theorem run_of_not_passesGates {c : Context σ} (h : c.passesGates = false) : c.run = (none, c) := by
  simp only [run, Run.whole, Run.wholeBy, Timed.bind_some (Timed.get_apply _), h]
  rfl

/-- A run that its gates let through goes on from its pass. -/
theorem run_of_rootPass {c : Context σ} (hgates : c.passesGates = true)
    {flow : Except String Flow} {after : Clocked (Context σ)}
    (hpass : c.rootPass = (some flow, after)) :
    c.run =
      ((Run.afterPass c.program flow after).1.join,
        (Run.afterPass c.program flow after).2.state) := by
  rw [run, Run.whole, Run.wholeBy, Timed.bind_some (Timed.get_apply _)]
  dsimp only
  rw [if_pos hgates, Timed.bind_some hpass]
  rfl

/-- Whether every invocation of the pass of a run has a value. -/
def Completes (c : Context σ) : Prop :=
  ∃ values after, c.rootPass = (some (.ok (.complete values)), after)

/-- Whether a run delivers: its gates are passed, its pass completes, and the result is to
be sent somewhere. -/
structure Delivers (c : Context σ) : Prop where
  gates : c.passesGates = true
  completes : c.Completes
  wanted : c.withheld = false
  target : c.target.isSome = true

/-- A run whose pass does not complete ends with the pass. -/
theorem run_of_not_completes {c : Context σ} (hgates : c.passesGates = true)
    (h : ¬ c.Completes) : c.run.2 = c.rootPass.2.state := by
  obtain ⟨flow, after, hpass, -⟩ := c.exists_rootPass
  rw [run_of_rootPass hgates hpass, hpass]
  rcases flow with _ | values | _ | _
  · rfl
  · exact absurd ⟨values, after, hpass⟩ h
  · rfl
  · rfl

/-- A run whose pass completes takes its last look, and unless it is withheld it prepares
the container and hands it over. -/
theorem run_of_completes {c : Context σ} (hgates : c.passesGates = true)
    {values : List Json} {after : Clocked (Context σ)}
    (hpass : c.rootPass = (some (.ok (.complete values)), after)) :
    ∃ text looked ready, Run.lastLook c.program values after = (some text, looked) ∧
      Run.prepare text looked = (some (), ready) ∧
      c.run = (some text, if c.withheld then looked.state else ready.state.dispatch) := by
  obtain ⟨_, _, hends, hafter⟩ := c.exists_rootPass
  cases hpass.symm.trans hends
  obtain ⟨text, looked, ready, hlook, hready, hconclude⟩ :=
    Run.conclude_apply c.program values hafter
  have hroot := (quiet_rootPass c).destination_eq ⟨none, c⟩
  have hlooked := (Run.quiet_lastLook c.program values).destination_eq after
  have hwithheld : looked.state.withheld = c.withheld := by
    rw [hlook] at hlooked
    rw [← rootPass, hpass] at hroot
    exact congrArg Destination.withheld (hlooked.trans hroot)
  refine ⟨text, looked, ready, hlook, hready, ?_⟩
  rw [run_of_rootPass hgates hpass, Run.afterPass, Timed.bind_pure_apply, hconclude, hwithheld]
  split <;> rfl

/-- A run comes to the point of sending without having sent anything. -/
theorem exists_before_dispatch (c : Context σ) :
    ∃ before : Context σ, c.GoesOnUnsent before ∧ before.target = c.target ∧
      (c.passesGates = true → c.Completes → c.withheld = false → c.run.2 = before.dispatch) ∧
      (¬ (c.passesGates = true ∧ c.Completes ∧ c.withheld = false) → c.run.2 = before) := by
  by_cases hgates : c.passesGates = true
  case neg =>
    rw [run_of_not_passesGates (Bool.eq_false_iff.2 hgates)]
    exact ⟨c, .refl c, rfl, fun h => absurd h hgates, fun _ => rfl⟩
  have hroot := (quiet_rootPass c).goesOn ⟨none, c⟩
  have hrooted := (quiet_rootPass c).destination_eq ⟨none, c⟩
  by_cases hcompletes : c.Completes
  case neg =>
    rw [run_of_not_completes hgates hcompletes]
    exact ⟨_, hroot, congrArg Destination.target hrooted, fun _ h => absurd h hcompletes,
      fun _ => rfl⟩
  obtain ⟨values, after, hpass⟩ := hcompletes
  obtain ⟨text, looked, ready, hlook, hready, hrun⟩ := run_of_completes hgates hpass
  have hlooks := (Run.quiet_lastLook c.program values).goesOn after
  have hlooked := (Run.quiet_lastLook c.program values).destination_eq after
  rw [← rootPass, hpass] at hroot hrooted
  rw [hlook] at hlooks hlooked
  rw [hrun]
  cases hwithheld : c.withheld with
  | true =>
    exact ⟨looked.state, hroot.trans hlooks, congrArg Destination.target (hlooked.trans hrooted),
      fun _ _ => nofun, fun _ => rfl⟩
  | false =>
    have hprepares := (Run.quiet_prepare text).goesOn looked
    have hprepared := (Run.quiet_prepare text).destination_eq looked
    rw [hready] at hprepares hprepared
    exact ⟨ready.state, (hroot.trans hlooks).trans hprepares,
      congrArg Destination.target (hprepared.trans (hlooked.trans hrooted)), fun _ _ _ => rfl,
      fun h => absurd ⟨hgates, ⟨values, after, hpass⟩, rfl⟩ h⟩

/-- The text of a run is the same wherever it is sent, and also when it is withheld. -/
theorem run_redirect_text (d : Destination σ) (c : Context σ) :
    (c.redirect d).run.1 = c.run.1 := by
  cases hgates : c.passesGates with
  | false =>
    have hredirected : (c.redirect d).passesGates = false := hgates
    rw [run_of_not_passesGates hgates, run_of_not_passesGates hredirected]
  | true =>
    obtain ⟨flow, after, hpass, -⟩ := c.exists_rootPass
    have hblind : (c.redirect d).rootPass = (some flow, after.redirect d) := by
      have h := (quiet_rootPass c).blind d ⟨none, c⟩
      rwa [← rootPass, hpass] at h
    have hredirected : (c.redirect d).passesGates = true := hgates
    by_cases hcompletes : ∃ values, flow = .ok (.complete values)
    · obtain ⟨values, rfl⟩ := hcompletes
      obtain ⟨text, looked, _, hlook, -, hrun⟩ := run_of_completes hgates hpass
      obtain ⟨text', _, _, hlook', -, hrun'⟩ := run_of_completes hredirected hblind
      have hsame := (Run.quiet_lastLook c.program values).blind d after
      rw [hlook] at hsame
      cases hlook'.symm.trans hsame
      rw [hrun, hrun']
    · rw [run_of_rootPass hgates hpass, run_of_rootPass hredirected hblind]
      rcases flow with _ | values | _ | _
      · rfl
      · exact absurd ⟨values, rfl⟩ hcompletes
      · rfl
      · rfl

/-- **A run sends at most once, and last.** It comes to a point before which nothing was
sent; if the run delivers, its container is then handed to its target, and otherwise that
was the end. Where the container goes, and what becomes of it there, makes no difference to
the text. -/
theorem run_sends (c : Context σ) :
    (∃ before : Context σ, c.GoesOnUnsent before ∧
      (c.Delivers → ∃ target, c.target = some target ∧ c.run.2 = before.handTo target) ∧
      (¬ c.Delivers → c.run.2 = before)) ∧
    ∀ d : Destination σ, (c.redirect d).run.1 = c.run.1 := by
  refine ⟨?_, fun d => run_redirect_text d c⟩
  obtain ⟨before, hbefore, htarget, hdispatch, hends⟩ := c.exists_before_dispatch
  refine ⟨before, hbefore, fun h => ?_, fun h => ?_⟩
  · obtain ⟨target, hsome⟩ := Option.isSome_iff_exists.1 h.target
    refine ⟨target, hsome, ?_⟩
    rw [hdispatch h.gates h.completes h.wanted, dispatch, htarget, hsome]
  · by_cases hgoes : c.passesGates = true ∧ c.Completes ∧ c.withheld = false
    · obtain ⟨hgates, hcompletes, hwanted⟩ := hgoes
      have hnone : c.target = none := by
        rw [← Option.not_isSome_iff_eq_none]
        exact fun hsome => h ⟨hgates, hcompletes, hwanted, hsome⟩
      rw [hdispatch hgates hcompletes hwanted, dispatch, htarget, hnone]
    · exact hends hgoes

end Context

end TagTemplate
