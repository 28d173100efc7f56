import TagTemplate.Proofs.Run.Blames

/-! Replays are bounded, never nested, and always left.

What a run does is told as a list of deeds: an invocation is executed, outside of replays or in a
pass of one, or a replay is tried. `Run.Course` says which deeds there are, along the definition
of a run. A replay is tried where an invocation fails that the run came to in a pass over its own
program or over that of a text, and it consists of its passes: `Run.Replayed`,
`Run.ReplayPassage`. So which execution is part of which replay is read off the passes that are
made, and not off what the session says.

Whether the session says the right thing is what `Deed.Proper` asks: before and behind an execution
and at each call in it a replay goes on exactly if the execution is part of one, and it is that
one; and a replay is tried only while none goes on, and not more often than the settings allow.
Every run has a course (`Context.exists_course`), and all deeds in it are proper:
`Context.Later.proper_course`. -/
namespace TagTemplate

/-! ### Deeds -/

/-- What a run does: it executes an invocation, perhaps in a pass of a replay, or it tries a
replay. -/
inductive Deed (σ : Type) where
  | executed (during : Option Replay) (i : Invocation σ) (before after : Clocked (Context σ))
  | tried (replay : Replay) (before : Clocked (Context σ))

/-- The template of a run, compiled anew. -/
def Context.recompiled {σ : Type} (c : Context σ) : Except CompileError (Program σ) :=
  Program.compileAt c.vocabulary c.program.source c.program.path c.program.depth

namespace Run
variable {σ : Type}

/-- A pass of a replay executes one invocation after the other, up to the first that is abandoned
or neither succeeds nor fails; `completes` says that it gets to the end. -/
inductive ReplayPassage (r : Replay) : List (Invocation σ) → Clocked (Context σ) →
    List (Deed σ) → (completes : Bool) → Clocked (Context σ) → Prop
  | complete {c} : ReplayPassage r [] c [] true c
  | abandoned {i is c d} (outcome : i.execute c = (none, d)) :
      ReplayPassage r (i :: is) c [.executed (some r) i c d] false d
  | ending {i is c result flow d} (outcome : i.execute c = (some result, d))
      (ends : ending result = some flow) :
      ReplayPassage r (i :: is) c [.executed (some r) i c d] false d
  | step {i is c result d deeds completes e} (outcome : i.execute c = (some result, d))
      (goesOn : ending result = none) (rest : ReplayPassage r is d deeds completes e) :
      ReplayPassage r (i :: is) c (.executed (some r) i c d :: deeds) completes e

/-- What a replay executes on its own, after the whole template: the program of the failed
invocation, as it is compiled anew if it is the template itself. -/
def isolatedInvocations (program : Program σ) (edition : Option Nat) (whole : Program σ)
    (c : Context σ) : List (Invocation σ) :=
  if edition == some c.edition then whole.invocations else program.invocations

/-- What is done when a replay is tried for the sake of an invocation of a program. The template of
the run is compiled anew and passed through; if that completes, the program of the invocation is
passed through on its own. -/
inductive Replayed (program : Program σ) (edition : Option Nat) (r : Replay)
    (c : Clocked (Context σ)) : List (Deed σ) → Clocked (Context σ) → Prop
  | vain (nothing : ∀ whole, c.state.recompiled = .ok whole →
        edition = some c.state.edition ∧ whole.invocations = []) :
      Replayed program edition r c [.tried r c] ⟨c.remaining, c.state.tryReplay⟩
  | once {whole deeds completes d} (compiled : c.state.recompiled = .ok whole)
      (something : ¬(edition = some c.state.edition ∧ whole.invocations = []))
      (passage : ReplayPassage r whole.invocations
        ⟨c.remaining, c.state.tryReplay.beginReplay r⟩ deeds completes d)
      (ends : completes = false ∨
        (isolatedInvocations program edition whole c.state).length ≤ r.position) :
      Replayed program edition r c (.tried r c :: deeds)
        ⟨d.remaining, d.state.endReplay c.state.session.replay⟩
  | twice {whole first d later completes e} (compiled : c.state.recompiled = .ok whole)
      (passage : ReplayPassage r whole.invocations
        ⟨c.remaining, c.state.tryReplay.beginReplay r⟩ first true d)
      (stands : r.position < (isolatedInvocations program edition whole c.state).length)
      (isolated : ReplayPassage r (isolatedInvocations program edition whole c.state)
        d later completes e) :
      Replayed program edition r c (.tried r c :: (first ++ later))
        ⟨e.remaining, e.state.endReplay c.state.session.replay⟩

/-- Where a run is: outside of the passes that it makes, in one of them with some invocations to
come from a position on, or at the one that stands there. -/
inductive Place (σ : Type) where
  | outside
  | pass (program : Program σ) (edition : Option Nat) (position : Nat) (is : List (Invocation σ))
  | turn (program : Program σ) (edition : Option Nat) (position : Nat) (i : Invocation σ)

/-- What a run does from one context to another. -/
inductive Course :
    Place σ → Clocked (Context σ) → List (Deed σ) → Clocked (Context σ) → Prop
  | rest {c d} (clock : d.remaining = c.remaining) (rests : c.state.Rests d.state) :
      Course .outside c [] d
  | append {c first d later e} (before : Course .outside c first d)
      (after : Course .outside d later e) : Course .outside c (first ++ later) e
  /-- An element is expanded under a deadline of its own. -/
  | within {c deeds d} (deadline : Nat)
      (during : Course .outside ⟨some deadline, c.state⟩ deeds d) :
      Course .outside c deeds ⟨c.remaining, d.state⟩
  /-- A text is run as a program. -/
  | text {c s depth program deeds d}
      (compiled : Program.compileValue c.state.vocabulary s c.state.program.path depth
        c.state.settings.maxDepth = .ok (some program))
      (invokes : program.invocations ≠ [])
      (passage : Course (.pass program none 0 program.invocations)
        ⟨c.remaining,
          c.state.onSession (·.record (.expanded depth program.depth program.functionNames))⟩
        deeds d) : Course .outside c deeds d
  | complete {program edition position c} : Course (.pass program edition position []) c [] c
  | last {program edition position i is c deeds d}
      (turn : Course (.turn program edition position i) c deeds d) :
      Course (.pass program edition position (i :: is)) c deeds d
  | step {program edition position i is c first d later e}
      (turn : Course (.turn program edition position i) c first d)
      (rest : Course (.pass program edition (position + 1) is) d later e) :
      Course (.pass program edition position (i :: is)) c (first ++ later) e
  | abandoned {program edition position i c d} (outcome : i.execute c = (none, d)) :
      Course (.turn program edition position i) c [.executed none i c d] d
  | ending {program edition position i c result flow d}
      (outcome : i.execute c = (some result, d)) (ends : ending result = some flow) :
      Course (.turn program edition position i) c [.executed none i c d] d
  | success {program edition position i c v d deeds e}
      (outcome : i.execute c = (some (.ok (.success v)), d))
      (meanwhile : Course .outside d deeds e) :
      Course (.turn program edition position i) c (.executed none i c d :: deeds) e
  | failure {program edition position i c failure value d noted}
      (stands : program.invocations[position]? = some i)
      (outcome : i.execute c = (some (.ok (.failure failure)), d))
      (handled : d.state.note program position i.heading failure = (value, noted))
      (unwanted : wantsReplay noted i.heading.name value = false) :
      Course (.turn program edition position i) c [.executed none i c d] ⟨d.remaining, noted⟩
  /-- A replay is tried for the sake of the invocation that failed. -/
  | replayed {program edition position i c failure value d noted deeds e}
      (stands : program.invocations[position]? = some i)
      (outcome : i.execute c = (some (.ok (.failure failure)), d))
      (handled : d.state.note program position i.heading failure = (value, noted))
      (wanted : wantsReplay noted i.heading.name value = true)
      (replay : Replayed program edition ⟨i.heading.name, position⟩ ⟨d.remaining, noted⟩ deeds e) :
      Course (.turn program edition position i) c (.executed none i c d :: deeds) e

end Run

/-- What a run does: its gates let nothing through, or it makes the pass over its own program and
what follows that. -/
inductive Context.Course {σ : Type} (c : Context σ) : List (Deed σ) → Prop
  | barred (gates : c.passesGates = false) (unchanged : c.run.2 = c) : Course c []
  | ran {first later last} (gates : c.passesGates = true)
      (passage : Run.Course (.pass c.program (some c.edition) 0 c.program.invocations)
        ⟨none, c⟩ first c.rootPass.2)
      (rest : Run.Course .outside c.rootPass.2 later last) (ends : last.state = c.run.2) :
      Course c (first ++ later)

/-! ### Every run has a course -/

namespace Run
variable {σ : Type}

/-- Whether a pass of a replay got to its end. -/
def completes : Option (Except String (Option (List Json))) → Bool
  | some (.ok (some _)) => true
  | _ => false

theorem replayPass_of_ending {i : Invocation σ} (is : List (Invocation σ))
    {c d : Clocked (Context σ)} {result : Except String Outcome} {flow : Except String Flow}
    (houtcome : i.execute c = (some result, d)) (hending : ending result = some flow) :
    completes (replayPass (i :: is) c).1 = false ∧ (replayPass (i :: is) c).2 = d := by
  rw [replayPass, Timed.bind_some houtcome]
  rcases result with fault | v | failure | v | _
  · exact ⟨rfl, rfl⟩
  · cases hending
  · cases hending
  · exact ⟨rfl, rfl⟩
  · exact ⟨rfl, rfl⟩

/-- What only adds a value to those of a pass changes neither whether it completes nor what it
leaves behind. -/
theorem completes_bind {x : Run σ (Except String (Option (List Json)))}
    {f : Except String (Option (List Json)) → Run σ (Except String (Option (List Json)))}
    (hf : ∀ rest d, completes (f rest d).1 = completes (some rest) ∧ (f rest d).2 = d)
    (c : Clocked (Context σ)) :
    completes ((x >>= f) c).1 = completes (x c).1 ∧ ((x >>= f) c).2 = (x c).2 := by
  rcases h : x c with ⟨_ | rest, d⟩
  · rw [Timed.bind_none h]
    exact ⟨rfl, rfl⟩
  · rw [Timed.bind_some h]
    exact hf rest d

/-- Behind a success or a failure a pass of a replay goes on. -/
theorem replayPass_of_goesOn {i : Invocation σ} (is : List (Invocation σ))
    {c d : Clocked (Context σ)} {result : Except String Outcome}
    (houtcome : i.execute c = (some result, d)) (hgoesOn : ending result = none) :
    completes (replayPass (i :: is) c).1 = completes (replayPass is d).1 ∧
      (replayPass (i :: is) c).2 = (replayPass is d).2 := by
  rw [replayPass, Timed.bind_some houtcome]
  rcases result with fault | v | failure | v | _
  · cases hgoesOn
  · refine completes_bind (fun rest e => ?_) d
    rcases rest with fault | _ | vs <;> exact ⟨rfl, rfl⟩
  · refine completes_bind (fun rest e => ?_) d
    rcases rest with fault | _ | vs <;> exact ⟨rfl, rfl⟩
  · cases hgoesOn
  · cases hgoesOn

/-- **Every pass of a replay is a passage**, by induction on the invocations that are left. -/
theorem exists_replayPassage (r : Replay) (is : List (Invocation σ)) (c : Clocked (Context σ)) :
    ∃ deeds,
      ReplayPassage r is c deeds (completes (replayPass is c).1) (replayPass is c).2 := by
  induction is generalizing c with
  | nil => exact ⟨[], .complete⟩
  | cons i is ih =>
    rcases houtcome : i.execute c with ⟨_ | result, d⟩
    · rw [replayPass, Timed.bind_none houtcome]
      exact ⟨_, .abandoned houtcome⟩
    cases hending : ending result with
    | some flow =>
      obtain ⟨hcompletes, hends⟩ := replayPass_of_ending is houtcome hending
      rw [hcompletes, hends]
      exact ⟨_, .ending houtcome hending⟩
    | none =>
      obtain ⟨hcompletes, hends⟩ := replayPass_of_goesOn is houtcome hending
      obtain ⟨deeds, hrest⟩ := ih d
      rw [hcompletes, hends]
      exact ⟨_, .step houtcome hending hrest⟩

theorem isolated_after (is : List (Invocation σ)) (position : Nat) (c : Clocked (Context σ)) :
    (isolated is position c).2 = if position < is.length then (replayPass is c).2 else c := by
  unfold isolated
  split
  · exact Timed.bind_after (fun _ _ => by split <;> rfl) c
  · rfl

/-- The second pass of a replay is made if the first one completes and the failed invocation stands
in the program of the second. -/
theorem replayProgram_after (whole : Program σ) (failed : List (Invocation σ)) (position : Nat)
    (topLevel : Bool) (c : Clocked (Context σ)) :
    let first := replayPass whole.invocations c
    (replayProgram whole failed position topLevel c).2 =
      if completes first.1 && position < failed.length then (replayPass failed first.2).2
      else first.2 := by
  intro first
  rcases hfirst : first with ⟨_ | result, d⟩
  · rw [replayProgram, Timed.bind_none hfirst]
    rfl
  rw [replayProgram, Timed.bind_some hfirst]
  rcases result with fault | _ | values
  · rfl
  · rfl
  · refine (Timed.bind_after (fun _ _ => by split <;> rfl) d).trans ?_
    rw [isolated_after]
    simp only [completes, Bool.true_and, decide_eq_true_eq]

section Replays
variable {program whole : Program σ} {edition : Option Nat} {position : Nat} {function : String}
  {c : Clocked (Context σ)}

/-- A replay is over as soon as it is tried if there is nothing to replay. -/
theorem replay_of_vain (hnothing : ∀ whole, c.state.recompiled = .ok whole →
      edition = some c.state.edition ∧ whole.invocations = []) :
    (replay program edition position function c).2 = ⟨c.remaining, c.state.tryReplay⟩ := by
  have htried : Timed.modify Context.tryReplay c =
      (some (), ⟨c.remaining, c.state.tryReplay⟩) := rfl
  rw [replay, Timed.bind_some htried, Timed.bind_some (Timed.get_apply _)]
  dsimp only
  cases hwhole : Program.compileAt c.state.tryReplay.vocabulary c.state.tryReplay.program.source
    c.state.tryReplay.program.path c.state.tryReplay.program.depth with
  | error e => rfl
  | ok whole =>
    obtain ⟨hedition, hbare⟩ := hnothing whole hwhole
    have htopLevel : (edition == some c.state.tryReplay.edition) = true := beq_iff_eq.2 hedition
    dsimp only
    rw [htopLevel, hbare]
    rfl

/-- Otherwise its passes are made while it goes on, and then it is left. -/
theorem replay_of_ok (hwhole : c.state.recompiled = .ok whole)
    (hsomething : ¬(edition = some c.state.edition ∧ whole.invocations = [])) :
    let last := (replayProgram whole (isolatedInvocations program edition whole c.state) position
      (edition == some c.state.edition)
      ⟨c.remaining, c.state.tryReplay.beginReplay ⟨function, position⟩⟩).2
    (replay program edition position function c).2 =
      ⟨last.remaining, last.state.endReplay c.state.session.replay⟩ := by
  have htried : Timed.modify Context.tryReplay c =
      (some (), ⟨c.remaining, c.state.tryReplay⟩) := rfl
  have hinvokes :
      ¬(edition == some c.state.tryReplay.edition && whole.invocations.isEmpty) = true := by
    rw [Bool.and_eq_true, beq_iff_eq, List.isEmpty_iff]
    exact hsomething
  replace hwhole : Program.compileAt c.state.tryReplay.vocabulary
    c.state.tryReplay.program.source c.state.tryReplay.program.path
    c.state.tryReplay.program.depth = .ok whole := hwhole
  intro last
  rw [replay, Timed.bind_some htried, Timed.bind_some (Timed.get_apply _)]
  dsimp only
  rw [hwhole]
  dsimp only
  rw [if_neg hinvokes]
  rfl

/-- **Every replay consists of its passes**, however it ends. -/
theorem exists_replayed (program : Program σ) (edition : Option Nat) (position : Nat)
    (function : String) (c : Clocked (Context σ)) :
    ∃ deeds, Replayed program edition ⟨function, position⟩ c deeds
      (replay program edition position function c).2 := by
  by_cases hnothing : ∀ whole, c.state.recompiled = .ok whole →
      edition = some c.state.edition ∧ whole.invocations = []
  · rw [replay_of_vain hnothing]
    exact ⟨_, .vain hnothing⟩
  obtain ⟨whole, hnothing⟩ := Classical.not_forall.1 hnothing
  obtain ⟨hwhole, hsomething⟩ := Classical.not_imp.1 hnothing
  let began : Clocked (Context σ) :=
    ⟨c.remaining, c.state.tryReplay.beginReplay ⟨function, position⟩⟩
  let failed := isolatedInvocations program edition whole c.state
  let first := replayPass whole.invocations began
  obtain ⟨deeds, hfirst⟩ := exists_replayPassage ⟨function, position⟩ whole.invocations began
  rw [replay_of_ok hwhole hsomething, replayProgram_after]
  by_cases htwice : completes first.1 = true ∧ position < failed.length
  · obtain ⟨later, hsecond⟩ := exists_replayPassage ⟨function, position⟩ failed first.2
    rw [htwice.1] at hfirst
    rw [if_pos (by simpa using htwice)]
    exact ⟨_, .twice hwhole hfirst htwice.2 hsecond⟩
  · rw [if_neg (by simpa using htwice)]
    rw [Classical.not_and_iff_not_or_not, Bool.not_eq_true, Nat.not_lt] at htwice
    exact ⟨_, .once hwhole hsomething hfirst htwice⟩

end Replays

mutual

/-- **Every interlude has a course**, and so have the passes in it, by induction on them. -/
theorem Interlude.exists_course {c d : Clocked (Context σ)} {blames : List Blame}
    (h : Interlude c blames d) : ∃ deeds, Course .outside c deeds d := by
  match h with
  | .rest clock rests => exact ⟨[], .rest clock rests⟩
  | .append before after =>
    obtain ⟨first, hfirst⟩ := before.exists_course
    obtain ⟨later, hlater⟩ := after.exists_course
    exact ⟨first ++ later, .append hfirst hlater⟩
  | .within deadline during =>
    obtain ⟨deeds, hduring⟩ := during.exists_course
    exact ⟨deeds, .within deadline hduring⟩
  | .text _ compiled invokes passage =>
    obtain ⟨deeds, hpassage⟩ := passage.exists_course rfl
    exact ⟨deeds, .text compiled invokes hpassage⟩

theorem Turn.exists_course {expand : Json → Run σ Json} {program : Program σ}
    {edition : Option Nat} {position : Nat} {i : Invocation σ} {value : Option Json}
    {c d : Clocked (Context σ)} {blames : List Blame}
    (h : Turn expand program edition position i c value blames d)
    (hi : program.invocations[position]? = some i) :
    ∃ deeds, Course (.turn program edition position i) c deeds d := by
  match h with
  | .abandoned outcome => exact ⟨_, .abandoned outcome⟩
  | .ending outcome ends => exact ⟨_, .ending outcome ends⟩
  | .success outcome _ meanwhile =>
    obtain ⟨deeds, hmeanwhile⟩ := meanwhile.exists_course
    exact ⟨_, .success outcome hmeanwhile⟩
  | .failure (d := d) failure outcome handled =>
    rw [afterFailure_apply] at handled
    split at handled
    · rename_i hwanted
      obtain ⟨-, rfl⟩ := Prod.mk.inj handled
      obtain ⟨deeds, hreplayed⟩ := exists_replayed program edition position i.heading.name
        ⟨d.remaining, (d.state.note program position i.heading failure).2⟩
      exact ⟨_, .replayed hi outcome rfl hwanted hreplayed⟩
    · rename_i hunwanted
      obtain ⟨-, rfl⟩ := Prod.mk.inj handled
      exact ⟨_, .failure hi outcome rfl (Bool.eq_false_iff.2 hunwanted)⟩

theorem Passage.exists_course {expand : Json → Run σ Json} {program : Program σ}
    {edition : Option Nat} {position : Nat} {is : List (Invocation σ)}
    {c d : Clocked (Context σ)} {blames : List Blame}
    (h : Passage expand program edition position is c blames d)
    (his : program.invocations.drop position = is) :
    ∃ deeds, Course (.pass program edition position is) c deeds d := by
  match h with
  | .complete => exact ⟨[], .complete⟩
  | .last turn =>
    obtain ⟨deeds, hturn⟩ := turn.exists_course (by rw [← List.head?_drop, his]; rfl)
    exact ⟨deeds, .last hturn⟩
  | .step turn rest =>
    obtain ⟨first, hturn⟩ := turn.exists_course (by rw [← List.head?_drop, his]; rfl)
    obtain ⟨later, hrest⟩ := rest.exists_course (by rw [← List.tail_drop, his]; rfl)
    exact ⟨first ++ later, .step hturn hrest⟩

end

end Run

/-- **Every run has a course.** -/
theorem Context.exists_course {σ : Type} (c : Context σ) : ∃ deeds, c.Course deeds := by
  obtain ⟨blames, haccount⟩ := c.exists_account
  cases haccount with
  | barred gates unchanged => exact ⟨[], .barred gates unchanged⟩
  | ran gates passage rest ends =>
    obtain ⟨first, hfirst⟩ := passage.exists_course rfl
    obtain ⟨later, hlater⟩ := rest.exists_course
    exact ⟨first ++ later, .ran gates hfirst hlater ends⟩

/-! ### What the session says of replays -/

/-- Whether an event tells of a call. -/
def Event.isCall : Event → Bool
  | .called .. => true
  | _ => false

/-- What a session tells of calls. -/
def Session.callEvents (s : Session) : List Event := s.journal.filter Event.isCall

/-- Whether an event may happen in an execution while a replay, or none, goes on, after some were
tried. -/
def Event.Inside (replay : Option Replay) (tried : Nat) : Event → Prop
  | .called _ during replays _ => during = replay ∧ replays = tried
  | .entered _ | .edited _ => True
  | _ => False

/-- What is executed has not meddled with replays. -/
structure Context.StaysIn {σ : Type} (c d : Context σ) : Prop where
  replay : d.session.replay = c.session.replay
  replays : d.session.replays = c.session.replays
  settings : d.settings = c.settings
  events : ∃ events, d.session.journal = c.session.journal ++ events ∧
    ∀ e ∈ events, e.Inside c.session.replay c.session.replays

/-- Whether the session says of replays what it should, and there are no more of them than some
bound: in an execution it tells of the replay that it is part of, if any, and a replay is tried
only while none goes on and the settings allow another one. -/
def Deed.Proper {σ : Type} (bound : Nat) : Deed σ → Prop
  | .executed during _ before after => before.state.session.replay = during ∧
      before.state.session.replays ≤ bound ∧ before.state.StaysIn after.state
  | .tried _ before => before.state.session.replay = none ∧
      before.state.session.replays < before.state.settings.maxReplays

/-- Whether a deed is the try of a replay. -/
def Deed.isTry {σ : Type} : Deed σ → Bool
  | .executed .. => false
  | .tried .. => true

/-- What the session tells of the calls in an execution. -/
def Deed.callEvents {σ : Type} : Deed σ → List Event
  | .executed _ _ before after =>
    (after.state.session.journal.drop before.state.session.journal.length).filter Event.isCall
  | .tried .. => []

namespace Context.StaysIn
variable {σ : Type} {c₀ b c : Context σ}

theorem same (h : c₀.StaysIn b) (hreplay : c.session.replay = b.session.replay)
    (hreplays : c.session.replays = b.session.replays) (hsettings : c.settings = b.settings)
    (hjournal : c.session.journal = b.session.journal) : c₀.StaysIn c where
  replay := hreplay.trans h.replay
  replays := hreplays.trans h.replays
  settings := hsettings.trans h.settings
  events := hjournal ▸ h.events

theorem snoc (h : c₀.StaysIn b) {e : Event} (he : e.Inside c₀.session.replay c₀.session.replays)
    (hreplay : c.session.replay = b.session.replay)
    (hreplays : c.session.replays = b.session.replays) (hsettings : c.settings = b.settings)
    (hjournal : c.session.journal = b.session.journal ++ [e]) : c₀.StaysIn c where
  replay := hreplay.trans h.replay
  replays := hreplays.trans h.replays
  settings := hsettings.trans h.settings
  events := Session.exists_journal_snoc h.events hjournal fun _ hall =>
    List.forall_mem_append.2 ⟨hall, List.forall_mem_singleton.2 he⟩

end Context.StaysIn

/-- The steps of natives stay in a replay, or outside of all. -/
def Invariant.staysIn {σ : Type} (c₀ : Context σ) : Invariant σ where
  holds := c₀.StaysIn
  allows _ := True
  remember _ h := h.same rfl rfl rfl rfl
  assign _ _ h := h.same rfl rfl rfl rfl
  edit change h := h.snoc (e := .edited change) trivial rfl rfl rfl rfl
  swap _ h := h.same rfl rfl rfl rfl
  entered {_ heading} _ h := h.snoc (e := .entered heading) trivial rfl rfl rfl rfl
  called {_ call} audited _ h :=
    h.snoc (e := .called call _ _ audited) ⟨h.replay, h.replays⟩ rfl rfl rfl rfl

/-- **An execution stays in the replay that it is part of**, or outside of all. -/
theorem Invocation.staysIn_execute {σ : Type} (i : Invocation σ) (c : Clocked (Context σ)) :
    c.state.StaysIn (i.execute c).2.state :=
  Invariant.keeps_execute_of_forall (I := .staysIn c.state) (fun _ => trivial) i c
    ⟨rfl, rfl, rfl, [], (List.append_nil _).symm, List.forall_mem_nil _⟩

/-! ### All deeds are proper -/

/-- Whether a replay, or none, goes on in a context, and there are no more of them than some bound,
now and as far as the settings allow. -/
structure Context.Replaying {σ : Type} (during : Option Replay) (bound : Nat) (c : Context σ) :
    Prop where
  replay : c.session.replay = during
  replays : c.session.replays ≤ bound
  maxReplays : c.settings.maxReplays ≤ bound

/-- A run has gone on to a context in which a replay, or none, goes on; what it did meanwhile is
proper, and all calls and tries belong to that. -/
structure Context.Does {σ : Type} (during : Option Replay) (bound : Nat) (c : Context σ)
    (deeds : List (Deed σ)) (d : Context σ) : Prop where
  replaying : d.Replaying during bound
  proper : ∀ deed ∈ deeds, deed.Proper bound
  tries : d.session.replays = c.session.replays + deeds.countP Deed.isTry
  calls : d.session.callEvents = c.session.callEvents ++ deeds.flatMap Deed.callEvents

namespace Context.Does
variable {σ : Type} {during earlier : Option Replay} {bound : Nat} {first later : List (Deed σ)}
  {a b c : Context σ}

theorem trans (h : a.Does earlier bound first b) (h' : b.Does during bound later c) :
    a.Does during bound (first ++ later) c where
  replaying := h'.replaying
  proper := List.forall_mem_append.2 ⟨h.proper, h'.proper⟩
  tries := by rw [h'.tries, h.tries, List.countP_append, Nat.add_assoc]
  calls := by rw [h'.calls, h.calls, List.flatMap_append, List.append_assoc]

/-- What calls nothing is no deed. -/
theorem of_quiet (ha : a.Replaying earlier bound) {events : List Event}
    (hreplay : b.session.replay = during) (hreplays : b.session.replays = a.session.replays)
    (hsettings : b.settings = a.settings)
    (hjournal : b.session.journal = a.session.journal ++ events)
    (hquiet : ∀ e ∈ events, e.isCall = false) : a.Does during bound [] b where
  replaying := ⟨hreplay, hreplays ▸ ha.replays, hsettings ▸ ha.maxReplays⟩
  proper := List.forall_mem_nil _
  tries := hreplays
  calls := by
    have hnone : events.filter Event.isCall = [] :=
      List.filter_eq_nil_iff.2 fun e he => Bool.eq_false_iff.1 (hquiet e he)
    rw [Session.callEvents, hjournal, List.filter_append, hnone]
    rfl

theorem refl (hc : c.Replaying during bound) : c.Does during bound [] c :=
  of_quiet hc hc.replay rfl rfl (List.append_nil _).symm (List.forall_mem_nil _)

end Context.Does

namespace Context.Replaying
variable {σ : Type} {during : Option Replay} {bound : Nat} {c d : Context σ}

/-- Nothing is called where a run rests. -/
theorem does_rests (hc : c.Replaying during bound) (h : c.Rests d) :
    c.Does during bound [] d := by
  obtain ⟨memory, container, events, hevents, rfl⟩ := h
  refine .of_quiet hc hc.replay rfl rfl rfl fun e he => ?_
  have hdelivers := hevents e he
  cases e <;> first | rfl | exact hdelivers.elim

theorem does_expanded (hc : c.Replaying during bound) (produced depth : Nat)
    (names : List String) :
    c.Does during bound [] (c.onSession (·.record (.expanded produced depth names))) :=
  .of_quiet hc hc.replay rfl rfl rfl (List.forall_mem_singleton.2 rfl)

theorem does_note (hc : c.Replaying during bound) {program : Program σ} {position : Nat}
    {heading : Heading} {failure : Failure} {value : Json}
    (hnoted : c.note program position heading failure = (value, d)) :
    c.Does during bound [] d := by
  obtain ⟨hreplay, hreplays, hsettings, reports, hjournal, hreports⟩ :=
    c.note_session program position heading failure
  rw [hnoted] at hreplay hreplays hsettings hjournal
  refine .of_quiet hc (hreplay.trans hc.replay) hreplays hsettings hjournal
    (List.forall_mem_cons.2 ⟨rfl, fun e he => ?_⟩)
  obtain ⟨message, rfl⟩ := hreports e he
  rfl

/-- **An execution is proper** where the session says which replay it is part of. -/
theorem does_execute {c d : Clocked (Context σ)} (hc : c.state.Replaying during bound)
    {i : Invocation σ} {result : Option (Except String Outcome)}
    (houtcome : i.execute c = (result, d)) :
    c.state.Does during bound [.executed during i c d] d.state := by
  have hstays := i.staysIn_execute c
  rw [houtcome] at hstays
  obtain ⟨events, hjournal, -⟩ := hstays.events
  have hcalls : d.state.session.callEvents =
      c.state.session.callEvents ++ Deed.callEvents (.executed during i c d) := by
    simp only [Session.callEvents, Deed.callEvents]
    rw [hjournal, List.filter_append, List.drop_left]
  exact {
    replaying := ⟨hstays.replay.trans hc.replay, hstays.replays ▸ hc.replays,
      hstays.settings ▸ hc.maxReplays⟩
    proper := List.forall_mem_singleton.2 ⟨hc.replay, hc.replays, hstays⟩
    tries := hstays.replays
    calls := by simpa using hcalls }

/-- Trying a replay is proper where none goes on and another one is allowed. -/
theorem does_tryReplay {c : Clocked (Context σ)} (hc : c.state.Replaying none bound) (r : Replay)
    (hmore : c.state.session.replays < c.state.settings.maxReplays) :
    c.state.Does none bound [.tried r c] c.state.tryReplay where
  replaying := ⟨hc.replay, Nat.le_trans hmore hc.maxReplays, hc.maxReplays⟩
  proper := List.forall_mem_singleton.2 ⟨hc.replay, hmore⟩
  tries := rfl
  calls := by simp [Session.callEvents, Deed.callEvents, tryReplay, onSession, Event.isCall]

theorem does_beginReplay (hc : c.Replaying during bound) (r : Replay) :
    c.Does (some r) bound [] (c.beginReplay r) :=
  have hquiet : (Event.replayBegan r).isCall = false := rfl
  .of_quiet hc rfl rfl rfl rfl (List.forall_mem_singleton.2 hquiet)

theorem does_endReplay (hc : c.Replaying during bound) (before : Option Replay) :
    c.Does before bound [] (c.endReplay before) :=
  have hquiet : Event.replayEnded.isCall = false := rfl
  .of_quiet hc rfl rfl rfl rfl (List.forall_mem_singleton.2 hquiet)

end Context.Replaying

/-- A replay is wanted only while the settings allow another one. -/
theorem Run.lt_of_wantsReplay {σ : Type} {c : Context σ} {function : String} {value : Json}
    (h : wantsReplay c function value = true) : c.session.replays < c.settings.maxReplays := by
  unfold wantsReplay at h
  simp only [Bool.and_eq_true, decide_eq_true_eq] at h
  exact h.1.2

namespace Run
variable {σ : Type} {bound : Nat} {c d : Clocked (Context σ)} {deeds : List (Deed σ)}

/-- **A pass of a replay is proper** while the session says that this replay goes on. -/
theorem ReplayPassage.does {r : Replay} {is : List (Invocation σ)} {completes : Bool}
    (h : ReplayPassage r is c deeds completes d) (hc : c.state.Replaying (some r) bound) :
    c.state.Does (some r) bound deeds d.state := by
  induction h with
  | complete => exact .refl hc
  | abandoned outcome | ending outcome _ => exact hc.does_execute outcome
  | step outcome _ _ ih =>
    have hfirst := hc.does_execute outcome
    exact hfirst.trans (ih hfirst.replaying)

/-- **A replay is proper** where none goes on and another one is allowed, and it is left in the
end. -/
theorem Replayed.does {program : Program σ} {edition : Option Nat} {r : Replay}
    (h : Replayed program edition r c deeds d) (hc : c.state.Replaying none bound)
    (hmore : c.state.session.replays < c.state.settings.maxReplays) :
    c.state.Does none bound deeds d.state := by
  have htried := hc.does_tryReplay r hmore
  have hbegan := htried.trans (htried.replaying.does_beginReplay r)
  have hended {deeds : List (Deed σ)} {d : Context σ} (h : c.state.Does (some r) bound deeds d) :
      c.state.Does none bound deeds (d.endReplay c.state.session.replay) := by
    have hleft := h.trans (h.replaying.does_endReplay c.state.session.replay)
    rw [List.append_nil] at hleft
    exact hc.replay ▸ hleft
  cases h with
  | vain => exact htried
  | once _ _ passage _ => exact hended (hbegan.trans (passage.does hbegan.replaying))
  | twice _ passage _ isolated =>
    have hpassage := passage.does hbegan.replaying
    exact hended (hbegan.trans (hpassage.trans (isolated.does hpassage.replaying)))

/-- **Outside of replays everything that a run does is proper**, by induction on its course. -/
theorem Course.does {place : Place σ} (h : Course place c deeds d)
    (hc : c.state.Replaying none bound) : c.state.Does none bound deeds d.state := by
  induction h with
  | rest _ rests => exact hc.does_rests rests
  | append _ _ ihBefore ihAfter | step _ _ ihBefore ihAfter =>
    have hbefore := ihBefore hc
    exact hbefore.trans (ihAfter hbefore.replaying)
  | within _ _ ih => exact ih hc
  | @text _ _ depth program _ _ _ _ _ ih =>
    have hnoted := hc.does_expanded depth program.depth program.functionNames
    exact hnoted.trans (ih hnoted.replaying)
  | complete => exact .refl hc
  | last _ ih => exact ih hc
  | abandoned outcome | ending outcome _ => exact hc.does_execute outcome
  | success outcome _ ih =>
    have hexecuted := hc.does_execute outcome
    exact hexecuted.trans (ih hexecuted.replaying)
  | failure _ outcome handled _ =>
    have hexecuted := hc.does_execute outcome
    exact hexecuted.trans (hexecuted.replaying.does_note handled)
  | replayed _ outcome handled wanted replay =>
    have hexecuted := hc.does_execute outcome
    have hnoted := hexecuted.trans (hexecuted.replaying.does_note handled)
    exact hnoted.trans (replay.does hnoted.replaying (lt_of_wantsReplay wanted))

end Run

/-! ### Runs -/

namespace Context
variable {σ : Type} {c d : Context σ} {bound : Nat}

/-- **Everything that a run does is proper** if no replay goes on before. -/
theorem Course.does {deeds : List (Deed σ)} (h : c.Course deeds) (hc : c.Replaying none bound) :
    c.Does none bound deeds c.run.2 := by
  cases h with
  | barred _ unchanged =>
    rw [unchanged]
    exact .refl hc
  | ran _ passage rest ends =>
    have hpassage := passage.does hc
    rw [← ends]
    exact hpassage.trans (rest.does hpassage.replaying)

/-- What a host may do to a context between runs: anything but change the settings or meddle with
replays. -/
structure HostStep (c d : Context σ) : Prop where
  settings : d.settings = c.settings
  replay : d.session.replay = c.session.replay
  replays : d.session.replays = c.session.replays

/-- A context after some runs, between which the host may do what it may. -/
inductive Later (c : Context σ) : Context σ → Prop
  | refl : Later c c
  | run {d : Context σ} : Later c d → Later c d.run.2
  | host {d e : Context σ} : Later c d → d.HostStep e → Later c e

theorem Later.replaying (h : c.Later d) (hc : c.Replaying none bound) : d.Replaying none bound := by
  induction h with
  | refl => exact hc
  | run _ ih =>
    obtain ⟨deeds, hcourse⟩ := exists_course _
    exact (hcourse.does ih).replaying
  | host _ hstep ih =>
    exact ⟨hstep.replay.trans ih.replay, hstep.replays ▸ ih.replays, hstep.settings ▸ ih.maxReplays⟩

/-- **Replays are bounded, never nested, and always left.** On a context without a replay any
sequence of runs ends without one, and there are never more of them than the settings allow. Each
run has a course; it tries the replays in it and no others, and makes its calls in the executions
in it. At each of them the session tells of the replay that the execution is part of, if it is part
of one, and no replay is tried during another. -/
theorem Later.proper_course (h : c.Later d) (hidle : c.session.replay = none) :
    let bound := max c.session.replays c.settings.maxReplays
    d.session.replay = none ∧ d.session.replays ≤ bound ∧
      d.run.2.session.replay = none ∧ d.run.2.session.replays ≤ bound ∧
      (∃ deeds, d.Course deeds) ∧
      ∀ deeds, d.Course deeds →
        d.run.2.session.replays = d.session.replays + deeds.countP Deed.isTry ∧
          d.run.2.session.callEvents = d.session.callEvents ++ deeds.flatMap Deed.callEvents ∧
          ∀ deed ∈ deeds, deed.Proper bound := by
  intro bound
  have hc : c.Replaying none bound := ⟨hidle, Nat.le_max_left _ _, Nat.le_max_right _ _⟩
  have hd := h.replaying hc
  have hleft := h.run.replaying hc
  refine ⟨hd.replay, hd.replays, hleft.replay, hleft.replays, exists_course d,
    fun deeds hcourse => ?_⟩
  have hdoes := hcourse.does hd
  exact ⟨hdoes.tries, hdoes.calls, hdoes.proper⟩

/-- A function that fails twice more when it is replayed, in the template and on its own. -/
theorem proper_course_json :
    let json : Native Unit := ⟨{ name := "$json" }, false, fun _ => .fail "no"⟩
    let i : Invocation Unit := .mk ⟨0, "$json", false, false, none, 0⟩ json none
    let c : Context Unit :=
      { program := ⟨"$json", none, "[@fn:0]", [i], ⟨[.slot 0]⟩, 0⟩
        vocabulary := .ofNatives [json]
        memory := () }
    let call : Call := ⟨i.heading, 0, []⟩
    c.Later c ∧ c.session.replay = none ∧ c.run.2.session.replay = none ∧
      ∃ deeds, c.Course deeds ∧ deeds.countP Deed.isTry = 1 ∧ (∀ deed ∈ deeds, deed.Proper 3) ∧
        deeds.flatMap Deed.callEvents =
          [.called call none 0 false, .called call (some ⟨"$json", 0⟩) 1 false,
            .called call (some ⟨"$json", 0⟩) 1 false] := by
  intro json i c call
  have hlater : c.Later c := .refl
  obtain ⟨hidle, -, hleft, -, ⟨deeds, hcourse⟩, hproper⟩ := hlater.proper_course rfl
  obtain ⟨htries, hcalls, hall⟩ := hproper deeds hcourse
  have honce : deeds.countP Deed.isTry = 1 := by
    have hreplays : c.run.2.session.replays = 0 + 1 := by decide +kernel
    exact Nat.add_left_cancel (htries.symm.trans hreplays)
  refine ⟨hlater, hidle, hleft, deeds, hcourse, honce, hall, ?_⟩
  exact hcalls.symm.trans (by decide +kernel)

end Context

end TagTemplate
