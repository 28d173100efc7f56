import TagTemplate.Proofs.Run.Arguments
import TagTemplate.Proofs.Run.Reports
import TagTemplate.Proofs.Run.Signals

/-! Whom a run blames.

Programs are run in passes: the run's own, and below the values of a pass, in the texts of the
container and in the last look those of other texts. `Run.Passage` says what happens in a pass,
invocation by invocation, and `Run.Interlude` what happens outside of the invocations, where
nothing is executed except in the passes of other texts. Both come with the failures of the
invocations that stand in these passes.

Every run is accounted for in this way (`Context.exists_account`), and in one way only, since the
journal notes the same failures. Without a hook each failure in the account that is not silent is
reported, in order, and nothing else is: the execution of an invocation with all that is nested in
it is `Tacit`, and so is a replay once it is tried. `Context.run_blames` says all this. -/
namespace TagTemplate

/-! ### Accounts -/

/-- An invocation that stands in a running program, and its failure. -/
structure Blame where
  heading : Heading
  failure : Failure

/-- What is reported of a failure, unless it is silent. -/
def Blame.report? (b : Blame) : Option String :=
  if b.heading.silent then none else some (b.heading.name ++ ": " ++ b.failure.message)

/-- The failure that an event notes, with the invocation that stands at its place. -/
def Event.blame? : Event → Option Blame
  | .failed headings position failure => headings[position]?.map (⟨·, failure⟩)
  | _ => none

/-- The failures that were noted. -/
def Session.blames (s : Session) : List Blame := s.journal.filterMap Event.blame?

theorem Session.blames_record (s : Session) (event : Event) :
    (s.record event).blames = s.blames ++ event.blame?.toList := by
  cases h : event.blame? <;> simp [blames, h]

/-- Whether an event belongs to the delivery of the container. -/
def Event.Delivers : Event → Prop
  | .taken _ | .stored _ | .sent _ => True
  | _ => False

/-- Whether nothing is executed from one context to another: elements of the container are
taken, filled in and stored, or the container is sent. -/
def Context.Rests {σ : Type} (c d : Context σ) : Prop :=
  ∃ memory container events, (∀ e ∈ events, Event.Delivers e) ∧
    d = { c with
      memory, session := { c.session with container, journal := c.session.journal ++ events } }

theorem Context.Rests.refl {σ : Type} (c : Context σ) : c.Rests c :=
  ⟨c.memory, c.session.container, [], nofun, by rw [List.append_nil]⟩

namespace Run
variable {σ α β : Type}

mutual

/-- What happens where no invocation of the pass at hand is executed, and the failures in the
programs that run meanwhile. -/
inductive Interlude : Clocked (Context σ) → List Blame → Clocked (Context σ) → Prop
  | rest {c d} (clock : d.remaining = c.remaining) (rests : c.state.Rests d.state) :
      Interlude c [] d
  | append {c d e first later} (before : Interlude c first d) (after : Interlude d later e) :
      Interlude c (first ++ later) e
  /-- An element is expanded under a deadline of its own. -/
  | within {c d blames} (deadline : Nat) (during : Interlude ⟨some deadline, c.state⟩ blames d) :
      Interlude c blames ⟨c.remaining, d.state⟩
  /-- A text is run as a program. -/
  | text {c d blames s depth program} (levels : Nat)
      (compiled : Program.compileValue c.state.vocabulary s c.state.program.path depth
        c.state.settings.maxDepth = .ok (some program))
      (invokes : program.invocations ≠ [])
      (passage : Passage (expandWith (expandText levels (depth + 1))) program none 0
        program.invocations
        ⟨c.remaining,
          c.state.onSession (·.record (.expanded depth program.depth program.functionNames))⟩
        blames d) :
      Interlude c blames d

/-- What a pass does at one invocation: the value that it has for it, if it goes on, and the
failures. -/
inductive Turn : (Json → Run σ Json) → Program σ → Option Nat → Nat → Invocation σ →
    Clocked (Context σ) → Option Json → List Blame → Clocked (Context σ) → Prop
  | abandoned {expand program edition position i c d} (outcome : i.execute c = (none, d)) :
      Turn expand program edition position i c none [] d
  | ending {expand program edition position i c r flow d} (outcome : i.execute c = (some r, d))
      (ends : ending r = some flow) : Turn expand program edition position i c none [] d
  | success {expand program edition position i c v d value blames e}
      (outcome : i.execute c = (some (.ok (.success v)), d))
      (expanded : (if v.isNull then pure v else expand v : Run σ Json) d = (value, e))
      (meanwhile : Interlude d blames e) : Turn expand program edition position i c value blames e
  | failure {expand program edition position i c d value e} (failure : Failure)
      (outcome : i.execute c = (some (.ok (.failure failure)), d))
      (handled : afterFailure program edition position i.heading failure d = (value, e)) :
      Turn expand program edition position i c value [⟨i.heading, failure⟩] e

/-- What a pass does from a position on, and the failures of the invocations that it comes to
and of those in the programs that run meanwhile. -/
inductive Passage : (Json → Run σ Json) → Program σ → Option Nat → Nat → List (Invocation σ) →
    Clocked (Context σ) → List Blame → Clocked (Context σ) → Prop
  | complete {expand program edition position c} : Passage expand program edition position [] c [] c
  | last {expand program edition position i is c blames d}
      (turn : Turn expand program edition position i c none blames d) :
      Passage expand program edition position (i :: is) c blames d
  | step {expand program edition position i is c value first d later e}
      (turn : Turn expand program edition position i c (some value) first d)
      (rest : Passage expand program edition (position + 1) is d later e) :
      Passage expand program edition position (i :: is) c (first ++ later) e

end

end Run

/-- The failures that a run comes to: its gates let nothing through, or it makes the pass over its
own program and what follows that. -/
inductive Context.Account {σ : Type} (c : Context σ) : List Blame → Prop
  | barred (gates : c.passesGates = false) (unchanged : c.run.2 = c) : Account c []
  | ran {first later last} (gates : c.passesGates = true)
      (passage : Run.Passage (Run.expandAt c.program.depth) c.program (some c.edition) 0
        c.program.invocations ⟨none, c⟩ first c.rootPass.2)
      (rest : Run.Interlude c.rootPass.2 later last) (ends : last.state = c.run.2) :
      Account c (first ++ later)

/-! ### Every run is accounted for -/

namespace Run
variable {σ α β : Type}

/-- Whether what an action does can be accounted for, as long as it executes no invocation of the
pass at hand. -/
def Accounted (x : Run σ α) : Prop := ∀ c, ∃ blames, Interlude c blames (x c).2

namespace Accounted

theorem pure (a : α) : Accounted (Pure.pure a : Run σ α) := fun c =>
  ⟨[], .rest rfl (.refl c.state)⟩

theorem bind {x : Run σ α} {f : α → Run σ β} (hx : Accounted x) (hf : ∀ a, Accounted (f a)) :
    Accounted (x >>= f) := by
  intro c
  obtain ⟨first, hfirst⟩ := hx c
  rcases h : x c with ⟨_ | a, d⟩
  · rw [h] at hfirst
    rw [Timed.bind_none h]
    exact ⟨first, hfirst⟩
  · rw [h] at hfirst
    rw [Timed.bind_some h]
    obtain ⟨later, hlater⟩ := hf a d
    exact ⟨first ++ later, hfirst.append hlater⟩

theorem get_bind {f : Context σ → Run σ β} (hf : ∀ c, Accounted (f c)) :
    Accounted (Timed.get >>= f) :=
  fun c => hf c.state c

theorem modify {f : Context σ → Context σ} (hf : ∀ c : Context σ, c.Rests (f c)) :
    Accounted (Timed.modify f) :=
  fun c => ⟨[], .rest rfl (hf c.state)⟩

end Accounted

/-- What follows a value in a pass leaves the context behind that the rest of the pass does. -/
theorem passOn_after (expand : Json → Run σ Json) (program : Program σ) (edition : Option Nat)
    (position : Nat) (is : List (Invocation σ)) (value : Json) (c : Clocked (Context σ)) :
    (passOn expand program edition position is value c).2 =
      (passFrom expand program edition (position + 1) is c).2 :=
  Timed.bind_after (fun _ _ => by split <;> rfl) c

/-- The run of a text leaves the context behind that its pass does. -/
theorem passOver_after (expand : Json → Run σ Json) (s : String) (program : Program σ)
    (c : Clocked (Context σ)) :
    (passOver expand s program c).2 = (pass expand program none c).2 :=
  Timed.bind_after (fun _ _ => by split <;> rfl) c

/-- A pass goes on behind an invocation if there is a value for it. -/
theorem bind_passOn_after {expand : Json → Run σ Json} {program : Program σ} {edition : Option Nat}
    {position : Nat} {is : List (Invocation σ)} {x : Run σ Json} {value : Option Json}
    {c d : Clocked (Context σ)} (h : x c = (value, d)) :
    ((x >>= passOn expand program edition position is) c).2 =
      if value.isSome then (passFrom expand program edition (position + 1) is d).2 else d := by
  cases value with
  | none => rw [Timed.bind_none h]; rfl
  | some value =>
    rw [Timed.bind_some h]
    exact passOn_after expand program edition position is value d

section Passages
variable {expand : Json → Run σ Json} (hexpand : ∀ v, Accounted (expand v)) (program : Program σ)
  (edition : Option Nat)
include hexpand

/-- A pass makes a turn at its first invocation, and then it is over or goes on. -/
theorem exists_turn (position : Nat) (i : Invocation σ) (is : List (Invocation σ))
    (c : Clocked (Context σ)) :
    ∃ value blames d, Turn expand program edition position i c value blames d ∧
      (passFrom expand program edition position (i :: is) c).2 =
        if value.isSome then (passFrom expand program edition (position + 1) is d).2 else d := by
  rcases houtcome : i.execute c with ⟨_ | r, d⟩
  · refine ⟨none, [], d, .abandoned houtcome, ?_⟩
    rw [passFrom, Timed.bind_none houtcome]
    rfl
  rcases hending : ending r with _ | flow
  · rcases r with fault | v | failure | v | _
    · cases hending
    · have hvalue : Accounted (if v.isNull then pure v else expand v : Run σ Json) := by
        split
        · exact .pure v
        · exact hexpand v
      obtain ⟨blames, hmeanwhile⟩ := hvalue d
      refine ⟨_, blames, _, .success houtcome rfl hmeanwhile, ?_⟩
      rw [passFrom_of_success houtcome]
      exact bind_passOn_after rfl
    · refine ⟨_, [⟨i.heading, failure⟩], _, .failure failure houtcome rfl, ?_⟩
      rw [passFrom_of_failure houtcome]
      exact bind_passOn_after rfl
    · cases hending
    · cases hending
  · refine ⟨none, [], d, .ending houtcome hending, ?_⟩
    rw [passFrom_of_ending houtcome hending]
    rfl

/-- **Every pass is accounted for**, by induction on the invocations that are left. -/
theorem exists_passage (position : Nat) (is : List (Invocation σ)) (c : Clocked (Context σ)) :
    ∃ blames, Passage expand program edition position is c blames
      (passFrom expand program edition position is c).2 := by
  induction is generalizing position c with
  | nil => exact ⟨[], .complete⟩
  | cons i is ih =>
    obtain ⟨value, first, d, hturn, hends⟩ :=
      exists_turn hexpand program edition position i is c
    rw [hends]
    cases value with
    | none => exact ⟨first, .last hturn⟩
    | some value =>
      obtain ⟨later, hrest⟩ := ih (position + 1) d
      exact ⟨first ++ later, .step hturn hrest⟩

end Passages

/-- The run of a text is accounted for if the expansion of the values of its program is. -/
theorem accounted_expandText {levels depth : Nat}
    (hexpand : ∀ v, Accounted (expandWith (expandText levels (depth + 1)) v : Run σ Json))
    (s : String) : Accounted (expandText (levels + 1) depth s : Run σ String) := by
  intro c
  rw [expandText, runText, Timed.bind_some (Timed.get_apply c)]
  rcases hcompiled : Program.compileValue c.state.vocabulary s c.state.program.path depth
    c.state.settings.maxDepth with e | _ | program
  · exact Accounted.pure s c
  · exact Accounted.pure s c
  · dsimp only
    split
    · exact Accounted.pure s c
    · rename_i hinvokes
      let noted : Clocked (Context σ) := ⟨c.remaining,
        c.state.onSession (·.record (.expanded depth program.depth program.functionNames))⟩
      obtain ⟨blames, hpassage⟩ := exists_passage hexpand program none 0 program.invocations noted
      refine ⟨blames, .text levels hcompiled (fun hnil => hinvokes (by simp [hnil])) ?_⟩
      show Passage _ _ _ _ _ _ _ (passOver _ s program noted).2
      rw [passOver_after]
      exact hpassage

/-- What a run does to values and to the parts of a container is accounted for by the rules. -/
theorem Accounted.rules : Rules (@Accounted σ) where
  pure := pure
  bind := bind
  reads _ := get_bind
  within deadline hx c := by
    obtain ⟨blames, hduring⟩ := hx ⟨some deadline, c.state⟩
    exact ⟨blames, hduring.within deadline⟩
  taken part change := modify fun c =>
    ⟨c.memory, change c.session.container, [.taken part], List.forall_mem_singleton.2 trivial, rfl⟩
  stored part change := modify fun c =>
    ⟨c.memory, change c.session.container, [.stored part], List.forall_mem_singleton.2 trivial, rfl⟩
  text := accounted_expandText

theorem accounted_send : Accounted (send : Run σ Unit) := by
  intro c
  rw [send_apply]
  refine ⟨[], .rest rfl ?_⟩
  show c.state.Rests c.state.dispatch
  unfold Context.dispatch
  split
  · exact .refl _
  · exact ⟨_, c.state.session.container, [.sent c.state.session.container],
      List.forall_mem_singleton.2 trivial, rfl⟩

theorem accounted_conclude (program : Program σ) (values : List Json) :
    Accounted (conclude program values) := by
  rw [conclude_eq_bind]
  refine .bind ?look fun text => .get_bind fun c => ?_
  case look =>
    refine .get_bind fun c => ?_
    dsimp only
    split
    · exact Accounted.rules.expandTextAt _ _
    · exact .pure _
  split
  · exact .pure text
  · have hprepare : Accounted (prepare text : Run σ Unit) :=
      (Accounted.modify fun c => ⟨c.memory, _, [], nofun, by rw [List.append_nil]; rfl⟩).bind
        fun _ => Accounted.rules.expandContainer Accounted.rules.expandAt
    exact hprepare.bind fun _ => accounted_send.bind fun _ => .pure text

end Run

namespace Context
variable {σ : Type}

/-- **Every run is accounted for.** -/
theorem exists_account (c : Context σ) : ∃ blames, c.Account blames := by
  cases hgates : c.passesGates with
  | false => exact ⟨[], .barred hgates (congrArg Prod.snd (run_of_not_passesGates hgates))⟩
  | true =>
    obtain ⟨flow, after, hpass, -⟩ := c.exists_rootPass
    obtain ⟨first, hpassage⟩ := Run.exists_passage (Run.Accounted.rules.expandAt c.program.depth)
      c.program (some c.edition) 0 c.program.invocations ⟨none, c⟩
    have hbehind : Run.Accounted (Run.afterPass c.program flow) := by
      rcases flow with _ | values | _ | _
      · exact .pure none
      · exact (Run.accounted_conclude c.program values).bind fun _ => .pure _
      · exact .pure _
      · exact .pure none
    obtain ⟨later, hrest⟩ := hbehind c.rootPass.2
    refine ⟨first ++ later, .ran hgates hpassage hrest ?_⟩
    rw [run_of_rootPass hgates hpass, hpass]

end Context

/-! ### What is not reported -/

/-- A run has gone on tacitly: no failure was noted, nothing was reported or found, and no replay
was tried. -/
structure Context.Tacit {σ : Type} (c d : Context σ) : Prop where
  hook : d.hook = c.hook
  blames : d.session.blames = c.session.blames
  errors : d.session.errors = c.session.errors
  discovered : d.session.discovered = c.session.discovered
  replays : d.session.replays = c.session.replays

namespace Context.Tacit
variable {σ : Type} {a b c : Context σ}

theorem of_journal_eq (hook : b.hook = a.hook) (replays : b.session.replays = a.session.replays)
    (journal : b.session.journal = a.session.journal) : a.Tacit b where
  hook := hook
  blames := congrArg (List.filterMap Event.blame?) journal
  errors := congrArg (List.filterMap Event.report?) journal
  discovered := congrArg (List.flatMap Event.found) journal
  replays := replays

theorem refl (c : Context σ) : c.Tacit c := of_journal_eq rfl rfl rfl

theorem trans (h : a.Tacit b) (h' : b.Tacit c) : a.Tacit c where
  hook := h'.hook.trans h.hook
  blames := h'.blames.trans h.blames
  errors := h'.errors.trans h.errors
  discovered := h'.discovered.trans h.discovered
  replays := h'.replays.trans h.replays

theorem record (c : Context σ) {e : Event} (hblame : e.blame? = none) (hreport : e.report? = none)
    (hfound : e.found = []) : c.Tacit (c.onSession (·.record e)) where
  hook := rfl
  blames := (Session.blames_record _ e).trans (by rw [hblame]; exact List.append_nil _)
  errors := (Session.errors_record _ e).trans (by rw [hreport]; exact List.append_nil _)
  discovered := (Session.discovered_record _ e).trans (by rw [hfound]; exact List.append_nil _)
  replays := rfl

end Context.Tacit

/-- The steps of natives are tacit. -/
def Frame.tacit (σ : Type) : Frame σ where
  relates := Context.Tacit
  calls _ := True
  refl := .refl
  trans := .trans
  remember _ _ := .of_journal_eq rfl rfl rfl
  assign _ _ _ := .of_journal_eq rfl rfl rfl
  edit _ _ := .of_journal_eq rfl rfl rfl
  edited c _ := .record c rfl rfl rfl
  replace _ _ := .of_journal_eq rfl rfl rfl
  entered c _ _ := .record c rfl rfl rfl
  called c _ _ _ _ _ := .record c rfl rfl rfl

namespace Run
variable {σ : Type}

/-- **Executing an invocation is tacit**, whatever is nested in it. -/
theorem tacit_execute (i : Invocation σ) : (Frame.tacit σ).Keeps i.execute :=
  Frame.keeps_execute (W := fun _ => True) ⟨fun _ _ _ _ => trivial, fun _ _ => trivial⟩ i trivial

theorem tacit_replayProgram (whole : Program σ) (failed : List (Invocation σ)) (position : Nat)
    (topLevel : Bool) : (Frame.tacit σ).Keeps (replayProgram whole failed position topLevel) :=
  Frame.keeps_of_since fun _ => Invariant.keeps_replayProgram (fun _ _ => trivial)
    (fun i _ => Invariant.keeps_execute_of_forall (fun _ => trivial) i) position topLevel

/-- The session is told that a replay begins and that it is over, and nobody else. -/
theorem tacit_asReplay (replay : Replay) {x : Run σ (Option Json)} (hx : (Frame.tacit σ).Keeps x) :
    (Frame.tacit σ).Keeps (asReplay replay x) := by
  intro c
  have hbegan : c.state.Tacit (c.state.beginReplay replay) :=
    (Context.Tacit.record c.state (e := .replayBegan replay) rfl rfl rfl).trans
      (.of_journal_eq rfl rfl rfl)
  have hended (d : Context σ) : d.Tacit (d.endReplay c.state.session.replay) :=
    (Context.Tacit.record d (e := .replayEnded) rfl rfl rfl).trans (.of_journal_eq rfl rfl rfl)
  exact (hbegan.trans (hx ⟨c.remaining, c.state.beginReplay replay⟩)).trans (hended _)

/-- **A replay is tacit** as soon as it is tried, whatever fails or runs in it. -/
theorem tacit_replay (program : Program σ) (edition : Option Nat) (position : Nat)
    (function : String) (c : Clocked (Context σ)) :
    c.state.tryReplay.Tacit (replay program edition position function c).2.state := by
  let tried : Context σ := c.state.tryReplay
  have htried : Timed.modify Context.tryReplay c = (some (), ⟨c.remaining, tried⟩) := rfl
  rw [replay, Timed.bind_some htried, Timed.bind_some (Timed.get_apply _)]
  dsimp only
  cases Program.compileAt tried.vocabulary tried.program.source tried.program.path
    tried.program.depth with
  | error e => exact .refl tried
  | ok whole =>
    dsimp only
    split
    · exact .refl tried
    · exact tacit_asReplay _ (tacit_replayProgram whole _ position _) ⟨c.remaining, tried⟩

/-- **A replay is counted once**, and nothing of it is noted, reported or found. -/
theorem replay_unreported (program : Program σ) (edition : Option Nat) (position : Nat)
    (function : String) (c : Clocked (Context σ)) :
    let d := (replay program edition position function c).2.state
    d.hook = c.state.hook ∧ d.session.blames = c.state.session.blames ∧
      d.session.errors = c.state.session.errors ∧
      d.session.discovered = c.state.session.discovered ∧
      d.session.replays = c.state.session.replays + 1 := by
  obtain ⟨hhook, hblames, herrors, hdiscovered, hreplays⟩ :=
    tacit_replay program edition position function c
  have htried := Context.Tacit.record c.state (e := .replayTried) rfl rfl rfl
  exact ⟨hhook, hblames.trans htried.blames, herrors.trans htried.errors,
    hdiscovered.trans htried.discovered, hreplays⟩

end Run

/-! ### What is reported -/

/-- A run without a hook has gone on, noted some failures and reported those that are not
silent. -/
structure Context.Tells {σ : Type} (c : Context σ) (blames : List Blame) (d : Context σ) :
    Prop where
  unhooked : d.hook = none
  noted : d.session.blames = c.session.blames ++ blames
  errors : d.session.errors = c.session.errors ++ blames.filterMap Blame.report?

namespace Context.Tells
variable {σ : Type} {first later : List Blame} {a b c : Context σ}

theorem trans (h : a.Tells first b) (h' : b.Tells later c) : a.Tells (first ++ later) c where
  unhooked := h'.unhooked
  noted := by rw [h'.noted, h.noted, List.append_assoc]
  errors := by rw [h'.errors, h.errors, List.filterMap_append, List.append_assoc]

end Context.Tells

theorem Context.Tacit.tells {σ : Type} {a b : Context σ} (h : a.Tacit b) (hhook : a.hook = none) :
    a.Tells [] b where
  unhooked := h.hook.trans hhook
  noted := h.blames.trans (List.append_nil _).symm
  errors := h.errors.trans (List.append_nil _).symm

theorem Context.tells_record {σ : Type} (c : Context σ) (hhook : c.hook = none) {e : Event}
    (hblame : e.blame? = none) (hreport : e.report? = none) :
    c.Tells [] (c.onSession (·.record e)) where
  unhooked := hhook
  noted := (Session.blames_record _ e).trans (by rw [hblame]; rfl)
  errors := (Session.errors_record _ e).trans (by rw [hreport]; rfl)

theorem Context.Rests.tells {σ : Type} {a b : Context σ} (h : a.Rests b) (hhook : a.hook = none) :
    a.Tells [] b := by
  obtain ⟨memory, container, events, hevents, rfl⟩ := h
  have hnothing : ∀ e ∈ events, e.blame? = none ∧ e.report? = none := by
    intro e he
    have hdelivers := hevents e he
    cases e <;> first | exact ⟨rfl, rfl⟩ | exact hdelivers.elim
  refine ⟨hhook, ?_, ?_⟩
  · show (a.session.journal ++ events).filterMap Event.blame? = _
    rw [List.filterMap_append, List.filterMap_eq_nil_iff.2 fun e he => (hnothing e he).1]
    rfl
  · show (a.session.journal ++ events).filterMap Event.report? = _
    rw [List.filterMap_append, List.filterMap_eq_nil_iff.2 fun e he => (hnothing e he).2]
    rfl

theorem Context.tells_blame {σ : Type} {program : Program σ} {position : Nat} {i : Invocation σ}
    (hi : program.invocations[position]? = some i) (failure : Failure) (c : Context σ)
    (hhook : c.hook = none) :
    c.Tells [⟨i.heading, failure⟩] (c.blame program position i.heading failure) := by
  let failed : Event := .failed (program.invocations.map (·.heading)) position failure
  have hblame : failed.blame? = some ⟨i.heading, failure⟩ := by simp [failed, Event.blame?, hi]
  have hblames : (c.session.record failed).blames = c.session.blames ++ [⟨i.heading, failure⟩] := by
    rw [Session.blames_record, hblame]
    rfl
  have herrors : (c.session.record failed).errors = c.session.errors :=
    (Session.errors_record _ failed).trans (List.append_nil _)
  rw [Context.blame]
  cases hsilent : i.heading.silent with
  | true =>
    refine ⟨hhook, hblames, herrors.trans ?_⟩
    simp [Blame.report?, hsilent]
  | false =>
    refine ⟨hhook, (Session.blames_record _ _).trans ?_, (Session.errors_record _ _).trans ?_⟩
    · exact (List.append_nil _).trans hblames
    · show (c.session.record failed).errors ++ _ = _
      rw [herrors]
      simp [Blame.report?, Event.report?, hsilent]

namespace Run
variable {σ : Type}

/-- **Without a hook** the handling of a failure reports it, unless it is silent, and nothing
else, also where a replay is tried. -/
theorem tells_afterFailure {program : Program σ} (edition : Option Nat) {position : Nat}
    {i : Invocation σ} (hi : program.invocations[position]? = some i) (failure : Failure)
    {c : Clocked (Context σ)} (hhook : c.state.hook = none) :
    c.state.Tells [⟨i.heading, failure⟩]
      (afterFailure program edition position i.heading failure c).2.state := by
  let blamed : Clocked (Context σ) :=
    ⟨c.remaining, c.state.blame program position i.heading failure⟩
  have hblamed := Context.tells_blame hi failure c.state hhook
  rw [afterFailure_of_unhooked program edition position i.heading failure hhook]
  split
  · obtain ⟨hkept, hblames, herrors, -, -⟩ :=
      replay_unreported program edition position i.heading.name blamed
    exact ⟨hkept.trans hblamed.unhooked, hblames.trans hblamed.noted,
      herrors.trans hblamed.errors⟩
  · exact hblamed

mutual

/-- **Without a hook the reports follow the account**, by induction on it. -/
theorem Interlude.tells {c d : Clocked (Context σ)} {blames : List Blame}
    (h : Interlude c blames d) (hhook : c.state.hook = none) : c.state.Tells blames d.state := by
  match h with
  | .rest _ rests => exact rests.tells hhook
  | .append before after =>
    have hbefore := before.tells hhook
    exact hbefore.trans (after.tells hbefore.unhooked)
  | .within _ during => exact during.tells hhook
  | .text _ _ _ passage =>
    exact (c.state.tells_record hhook rfl rfl).trans (passage.tells rfl hhook)

theorem Turn.tells {expand : Json → Run σ Json} {program : Program σ} {edition : Option Nat}
    {position : Nat} {i : Invocation σ} {value : Option Json} {c d : Clocked (Context σ)}
    {blames : List Blame} (h : Turn expand program edition position i c value blames d)
    (hi : program.invocations[position]? = some i) (hhook : c.state.hook = none) :
    c.state.Tells blames d.state := by
  have hexecute := tacit_execute i c
  match h with
  | .abandoned outcome | .ending outcome _ =>
    rw [outcome] at hexecute
    exact hexecute.tells hhook
  | .success outcome _ meanwhile =>
    rw [outcome] at hexecute
    have hbefore := hexecute.tells hhook
    exact hbefore.trans (meanwhile.tells hbefore.unhooked)
  | .failure failure outcome handled =>
    -- Wherever in the invocation it arose, the failure is noted under its own heading.
    rw [outcome] at hexecute
    have hbefore := hexecute.tells hhook
    have hafter := tells_afterFailure edition hi failure hbefore.unhooked
    rw [handled] at hafter
    exact hbefore.trans hafter

theorem Passage.tells {expand : Json → Run σ Json} {program : Program σ} {edition : Option Nat}
    {position : Nat} {is : List (Invocation σ)} {c d : Clocked (Context σ)} {blames : List Blame}
    (h : Passage expand program edition position is c blames d)
    (his : program.invocations.drop position = is) (hhook : c.state.hook = none) :
    c.state.Tells blames d.state := by
  match h with
  | .complete => exact (Context.Tacit.refl _).tells hhook
  | .last turn => exact turn.tells (by rw [← List.head?_drop, his]; rfl) hhook
  | .step turn rest =>
    have hturn := turn.tells (by rw [← List.head?_drop, his]; rfl) hhook
    exact hturn.trans (rest.tells (by rw [← List.tail_drop, his]; rfl) hturn.unhooked)

end

end Run

namespace Context
variable {σ : Type} {c : Context σ} {blames : List Blame}

/-- **Without a hook a run notes what is in its account**, and reports it in order but for the
silent failures. -/
theorem Account.tells (h : c.Account blames) (hhook : c.hook = none) : c.Tells blames c.run.2 := by
  cases h with
  | barred _ unchanged =>
    rw [unchanged]
    exact (Tacit.refl c).tells hhook
  | ran _ passage rest ends =>
    have hpassage := passage.tells rfl hhook
    rw [← ends]
    exact hpassage.trans (rest.tells hpassage.unhooked)

/-- **Failures are reported exactly once.** There is one account of a run without a hook, and the
reports are those of the failures in it that are not silent, in order. The execution of an
invocation reports nothing and finds nothing, whatever fails in its arguments: such a failure
becomes that of the invocation itself. Neither does a replay, which counts as one. -/
theorem run_blames (hhook : c.hook = none) :
    (∃ blames, c.Account blames ∧ (∀ others, c.Account others → others = blames) ∧
      c.run.2.session.errors = c.session.errors ++ blames.filterMap Blame.report?) ∧
    (∀ (i : Invocation σ) (d : Clocked (Context σ)), d.state.Tacit (i.execute d).2.state) ∧
    (∀ (i : Invocation σ) (d e : Clocked (Context σ)) (failure : Failure), i.Eager →
      Invocation.contributions i.nested (d.enter i.heading) =
          (some (.error (.nested (.failure failure))), e) →
        i.execute d = (some (.ok (.failure failure)), e)) ∧
    ∀ (program : Program σ) (edition : Option Nat) (position : Nat) (function : String)
      (d : Clocked (Context σ)),
      let e := (Run.replay program edition position function d).2.state
      e.session.errors = d.state.session.errors ∧
        e.session.discovered = d.state.session.discovered ∧
        e.session.replays = d.state.session.replays + 1 := by
  obtain ⟨blames, haccount⟩ := c.exists_account
  have htells := haccount.tells hhook
  refine ⟨⟨blames, haccount, fun others hothers => ?_, htells.errors⟩, Run.tacit_execute,
    fun i d e failure heager hnested => Invocation.execute_of_interrupted heager hnested, ?_⟩
  · exact List.append_cancel_left ((hothers.tells hhook).noted.symm.trans htells.noted)
  · intro program edition position function d
    exact (Run.replay_unreported program edition position function d).2.2

/-- What fails in an argument is reported for the function around it, what is silent is not
reported, and what fails in a text that is run is; the replay that the last failure sets off runs
all of it once more and reports nothing. -/
theorem run_blames_replayed :
    let bad : Native Unit := ⟨{ name := "$bad" }, false, fun _ => .fail "no"⟩
    let again : Native Unit := ⟨{ name := "$again" }, false, fun _ => .succeed (.string "$bad")⟩
    let json : Native Unit := ⟨{ name := "$json" }, false, fun _ => .fail "late"⟩
    let outer : Native Unit :=
      ⟨{ name := "$outer", args := some ⟨true, [{ name := "x" }]⟩ }, false, fun _ => .succeed .null⟩
    let v : Vocabulary Unit := .ofNatives [bad, again, json, outer]
    let nested : Invocation Unit := .mk ⟨0, "$bad", false, false, none, 0⟩ bad none
    let i : Invocation Unit := .mk ⟨1, "$outer", false, false, none, 0⟩ outer
      (some [.plain ⟨"[@fn:0]", [nested], ⟨[.slot 0]⟩⟩])
    let p : Program Unit := {
      source := "$outer[$bad]$#bad$again$json"
      path := none
      code := "[@fn:1][@fn:2][@fn:3][@fn:4]"
      invocations := [i, .mk ⟨2, "$bad", false, true, none, 0⟩ bad none,
        .mk ⟨3, "$again", false, false, none, 0⟩ again none,
        .mk ⟨4, "$json", false, false, none, 0⟩ json none]
      template := ⟨[.slot 0, .slot 1, .slot 2, .slot 3]⟩
      depth := 0 }
    let c : Context Unit := { program := p, vocabulary := v, memory := () }
    let reports := ["$outer: no", "$bad: no", "$json: late"]
    c.hook = none ∧ c.run.2.session.errors = reports ∧
      c.run.2.session.replays = 1 ∧
      (∃ blames, c.Account blames ∧ blames.filterMap Blame.report? = reports) ∧
      (∃ d, i.execute ⟨none, c⟩ = (some (.ok (.failure ⟨"no", none⟩)), d)) ∧
      (Run.replay p (some 0) 3 "$json" ⟨none, c⟩).2.state.session.errors = [] := by
  intro bad again json outer v nested i p c reports
  obtain ⟨hreports, hreplays⟩ :
      c.run.2.session.errors = reports ∧ c.run.2.session.replays = 1 := by decide +kernel
  obtain ⟨⟨blames, haccount, -, herrors⟩, -, hnested, hreplay⟩ := run_blames (c := c) rfl
  have heager : i.Eager := ⟨rfl, nofun⟩
  obtain ⟨d, hd⟩ : ∃ d, Invocation.contributions i.nested (Clocked.enter i.heading ⟨none, c⟩) =
      (some (.error (.nested (.failure ⟨"no", none⟩))), d) := ⟨_, rfl⟩
  refine ⟨rfl, hreports, hreplays, ⟨blames, haccount, ?_⟩,
    ⟨d, hnested i ⟨none, c⟩ d _ heager hd⟩, (hreplay p (some 0) 3 "$json" ⟨none, c⟩).1⟩
  exact herrors.symm.trans hreports

end Context

end TagTemplate
