import TagTemplate.Proofs.Run.Delivery

/-! What a run reports.

Without a hook every failure of an invocation that stands directly in a running program is
reported as soon as it is noted, unless the invocation is silent, and nothing else is ever
reported: not what fails in an argument, and nothing of what happens in a replay. So the
reports of a run can be read off the failures in its journal: `Context.errors_run`. -/
namespace TagTemplate

/-! ### What no step changes -/

/-- Whether a part of a context is apart from its program, its session and its memory. -/
structure Context.Fixed {σ α : Type} (part : Context σ → α) : Prop where
  memory : ∀ (c : Context σ) m, part { c with memory := m } = part c
  session : ∀ (c : Context σ) f, part (c.onSession f) = part c
  program : ∀ (c : Context σ) p, part (c.replaceProgram p) = part c

theorem Context.fixed_hook {σ : Type} : Fixed fun c : Context σ => c.hook :=
  ⟨fun _ _ => rfl, fun _ _ => rfl, fun _ _ => rfl⟩

namespace Invariant
variable {σ α : Type} {part : Context σ → α}

/-- No step of a native changes a part of a context that is apart from what it works on. -/
def fixed (hpart : Context.Fixed part) (a : α) : Invariant σ where
  holds c := part c = a
  allows _ := True
  remember _ h := (hpart.memory _ _).trans h
  assign _ _ h := (hpart.session _ _).trans h
  edit _ h := (hpart.session _ _).trans h
  swap _ h := (hpart.program _ _).trans h
  entered _ h := (hpart.session _ _).trans h
  called _ _ h := (hpart.session _ _).trans h

theorem keptBySteps_fixed (hpart : Context.Fixed part) (a : α) :
    (fixed hpart a).KeptBySteps where
  root _ _ _ := trivial
  compiled _ _ _ _ := trivial
  expanded h _ := (hpart.session _ _).trans h
  recompiled _ _ _ _ := trivial
  failed _ _ _ h := (hpart.session _ _).trans h
  reported _ h := (hpart.session _ _).trans h
  tried h := (hpart.session _ _).trans h
  began _ h := (hpart.session _ _).trans h
  ended _ h := (hpart.session _ _).trans h

end Invariant

/-! ### The handling of a failure -/

/-- What takes the place of the failure of an invocation, before any replay, and the context in
which it was noted and handled. -/
def Context.note {σ : Type} (program : Program σ) (position : Nat) (heading : Heading)
    (failure : Failure) (c : Context σ) : Json × Context σ :=
  let noted := c.onSession
    (·.record (.failed (program.invocations.map (·.heading)) position failure))
  let (value, handled) := noted.handleFailure heading failure
  (value.getD .null, handled)

/-- To note a failure adds it to the journal, and at most a report behind it. -/
theorem Context.note_session {σ : Type} (program : Program σ) (position : Nat) (heading : Heading)
    (failure : Failure) (c : Context σ) :
    let d := (c.note program position heading failure).2
    d.session.replay = c.session.replay ∧ d.session.replays = c.session.replays ∧
      d.settings = c.settings ∧
      ∃ reports, d.session.journal = c.session.journal ++
          .failed (program.invocations.map (·.heading)) position failure :: reports ∧
        ∀ e ∈ reports, ∃ message, e = .reported message := by
  unfold note handleFailure
  dsimp only
  split
  · exact ⟨rfl, rfl, rfl, [], rfl, List.forall_mem_nil _⟩
  · split
    · exact ⟨rfl, rfl, rfl, [], rfl, List.forall_mem_nil _⟩
    · exact ⟨rfl, rfl, rfl, [_], List.append_assoc _ [_] [_],
        List.forall_mem_singleton.2 ⟨_, rfl⟩⟩

/-- **What follows a failure**: it is noted, and a replay is tried if one is wanted for what takes
its place. -/
theorem Run.afterFailure_apply {σ : Type} (program : Program σ) (edition : Option Nat)
    (position : Nat) (heading : Heading) (failure : Failure) (c : Clocked (Context σ)) :
    let noted := c.state.note program position heading failure
    let found := replay program edition position heading.name ⟨c.remaining, noted.2⟩
    afterFailure program edition position heading failure c =
      if wantsReplay noted.2 heading.name noted.1 then (found.1.map (·.getD noted.1), found.2)
      else (some noted.1, ⟨c.remaining, noted.2⟩) := by
  intro noted found
  have hrecord : record (.failed (program.invocations.map (·.heading)) position failure) c =
      (some (), ⟨c.remaining, c.state.onSession
        (·.record (.failed (program.invocations.map (·.heading)) position failure))⟩) := rfl
  have hvalue : failureValue heading failure ⟨c.remaining, c.state.onSession
        (·.record (.failed (program.invocations.map (·.heading)) position failure))⟩ =
      (some noted.1, ⟨c.remaining, noted.2⟩) := rfl
  rw [afterFailure, Timed.bind_some hrecord, Timed.bind_some hvalue,
    Timed.bind_some (Timed.get_apply _)]
  split
  · exact Timed.bind_pure_apply _ _ _
  · rfl

/-! ### Failures without a hook -/

/-- What stands in the place of a failure that no hook handles. -/
def Heading.shown (h : Heading) (failure : Failure) : Json :=
  if h.silent then .null else failure.value.getD .null

/-- A context in which the failure of the invocation at a position of a program is noted and,
unless the invocation is silent, reported. -/
def Context.blame {σ : Type} (program : Program σ) (position : Nat) (heading : Heading)
    (failure : Failure) (c : Context σ) : Context σ :=
  let noted := c.onSession
    (·.record (.failed (program.invocations.map (·.heading)) position failure))
  if heading.silent then noted
  else noted.onSession (·.record (.reported (heading.name ++ ": " ++ failure.message)))

theorem Context.note_of_unhooked {σ : Type} (program : Program σ) (position : Nat)
    (heading : Heading) (failure : Failure) {c : Context σ} (hhook : c.hook = none) :
    c.note program position heading failure =
      (heading.shown failure, c.blame program position heading failure) := by
  have hnoted : (c.onSession (·.record
      (.failed (program.invocations.map (·.heading)) position failure))).hook = none := hhook
  rw [note, handleFailure, hnoted, blame, Heading.shown]
  cases heading.silent <;> rfl

/-- **Without a hook** a failure is noted, reported unless it is silent, and replaced by its
value, or by what a replay finds if one is wanted for that value. -/
theorem Run.afterFailure_of_unhooked {σ : Type} (program : Program σ) (edition : Option Nat)
    (position : Nat) (heading : Heading) (failure : Failure) {c : Clocked (Context σ)}
    (hhook : c.state.hook = none) :
    let blamed : Clocked (Context σ) :=
      ⟨c.remaining, c.state.blame program position heading failure⟩
    let found := replay program edition position heading.name blamed
    afterFailure program edition position heading failure c =
      if wantsReplay blamed.state heading.name (heading.shown failure) then
        (found.1.map (·.getD (heading.shown failure)), found.2)
      else (some (heading.shown failure), blamed) := by
  have happly := afterFailure_apply program edition position heading failure c
  rwa [Context.note_of_unhooked program position heading failure hhook] at happly

/-! ### Reports -/

/-- The report that is due for an event: that of the failure of an invocation that is not
silent. -/
def Event.due? : Event → Option String
  | .failed headings position failure =>
    (headings[position]?.filter (!·.silent)).map fun h => h.name ++ ": " ++ failure.message
  | _ => none

/-- Whether the reports among some events are those that are due for them. -/
def Event.Reported (events : List Event) : Prop :=
  events.filterMap Event.report? = events.filterMap Event.due?

namespace Event.Reported
variable {es es' : List Event}

theorem append (h : Reported es) (h' : Reported es') : Reported (es ++ es') := by
  rw [Reported, List.filterMap_append, List.filterMap_append, h, h']

theorem of_none (h : ∀ e ∈ es, e.report? = none ∧ e.due? = none) : Reported es := by
  rw [Reported, List.filterMap_eq_nil_iff.2 fun e he => (h e he).1,
    List.filterMap_eq_nil_iff.2 fun e he => (h e he).2]

end Event.Reported

/-- Noting a failure reports what is due for it. -/
theorem Context.reported_blame {σ : Type} {program : Program σ} {position : Nat}
    {i : Invocation σ} (hi : program.invocations[position]? = some i) (failure : Failure)
    (c : Context σ) :
    ∃ events, (c.blame program position i.heading failure).session.journal =
        c.session.journal ++ events ∧ Event.Reported events := by
  let failed : Event := .failed (program.invocations.map (·.heading)) position failure
  have hposition : (program.invocations.map (·.heading))[position]? = some i.heading := by
    rw [List.getElem?_map, hi]
    rfl
  rw [blame]
  cases hsilent : i.heading.silent with
  | true =>
    have hdue : failed.due? = none := by simp [failed, Event.due?, hposition, hsilent]
    exact ⟨[failed], rfl, .of_none (List.forall_mem_singleton.2 ⟨rfl, hdue⟩)⟩
  | false =>
    have hdue : failed.due? = some (i.heading.name ++ ": " ++ failure.message) := by
      simp only [failed, Event.due?, hposition, Option.filter, hsilent]
      rfl
    refine ⟨[failed, .reported (i.heading.name ++ ": " ++ failure.message)], ?_, ?_⟩
    · exact List.append_assoc _ [_] [_]
    · rw [Event.Reported, List.filterMap_cons_some hdue]
      rfl

/-! ### Runs -/

/-- A run without a hook has gone on, and has reported what is due. -/
structure Context.Reports {σ : Type} (c₀ c : Context σ) : Prop where
  unhooked : c.hook = none
  events : ∃ events, c.session.journal = c₀.session.journal ++ events ∧ Event.Reported events

namespace Context.Reports
variable {σ : Type} {c₀ b c : Context σ}

theorem refl (h : c.hook = none) : c.Reports c :=
  ⟨h, [], (List.append_nil _).symm, .of_none nofun⟩

theorem append (h : c₀.Reports b) (hhook : c.hook = b.hook) {es : List Event}
    (hjournal : c.session.journal = b.session.journal ++ es) (hes : Event.Reported es) :
    c₀.Reports c where
  unhooked := hhook.trans h.unhooked
  events := by
    obtain ⟨events, hevents, hreported⟩ := h.events
    exact ⟨events ++ es, by rw [hjournal, hevents, List.append_assoc], hreported.append hes⟩

theorem same (h : c₀.Reports b) (hhook : c.hook = b.hook)
    (hjournal : c.session.journal = b.session.journal) : c₀.Reports c :=
  h.append hhook (hjournal.trans (List.append_nil _).symm) (.of_none nofun)

theorem snoc (h : c₀.Reports b) {e : Event} (hreport : e.report? = none) (hdue : e.due? = none)
    (hhook : c.hook = b.hook) (hjournal : c.session.journal = b.session.journal ++ [e]) :
    c₀.Reports c :=
  h.append hhook hjournal (.of_none (List.forall_mem_singleton.2 ⟨hreport, hdue⟩))

end Context.Reports

namespace Invariant
variable {σ : Type}

/-- The steps of natives report nothing. -/
def reports (c₀ : Context σ) : Invariant σ where
  holds := c₀.Reports
  allows _ := True
  remember _ h := h.same rfl rfl
  assign _ _ h := h.same rfl rfl
  edit change h := h.snoc (e := .edited change) rfl rfl rfl rfl
  swap _ h := h.same rfl rfl
  entered {_ heading} _ h := h.snoc (e := .entered heading) rfl rfl rfl rfl
  called {_ call} audited _ h := h.snoc (e := .called call _ _ audited) rfl rfl rfl rfl

/-- Nothing is reported in a replay, and nothing is due. -/
theorem keptByReplays_reports (c₀ : Context σ) : (reports c₀).KeptByReplays where
  recompiled _ _ _ _ := trivial
  tried h := h.snoc (e := .replayTried) rfl rfl rfl rfl
  began replay h := h.snoc (e := .replayBegan replay) rfl rfl rfl rfl
  ended _ h := h.snoc (e := .replayEnded) rfl rfl rfl rfl

theorem keptByPasses_reports (c₀ : Context σ) : (reports c₀).KeptByPasses where
  root _ _ _ := trivial
  compiled _ _ _ _ := trivial
  expanded {_ _ depth p} h _ :=
    h.snoc (e := .expanded depth p.depth p.functionNames) rfl rfl rfl rfl
  afterFailure {program i position failure _ after} edition _ hi _ h := by
    let blamed : Clocked (Context σ) :=
      ⟨after.remaining, after.state.blame program position i.heading failure⟩
    have hhook : blamed.state.hook = after.state.hook := by
      simp only [blamed, Context.blame]
      split <;> rfl
    obtain ⟨events, hevents, hreported⟩ := Context.reported_blame hi failure after.state
    have hblamed : c₀.Reports blamed.state := h.append hhook hevents hreported
    rw [Run.afterFailure_of_unhooked program edition position i.heading failure h.unhooked]
    split
    · exact keeps_replay (keptByReplays_reports c₀) (fun _ _ => trivial) edition position
        i.heading.name blamed hblamed
    · exact hblamed

theorem keptByDelivery_reports (c₀ : Context σ) : (reports c₀).KeptByDelivery where
  content _ h := h.same rfl rfl
  sent {c} h := h.snoc (e := .sent c.session.container) rfl rfl rfl rfl
  taken part _ h := h.snoc (e := .taken part) rfl rfl rfl rfl
  stored part _ h := h.snoc (e := .stored part) rfl rfl rfl rfl

end Invariant

namespace Context
variable {σ : Type} {c : Context σ}

theorem reports_run (hhook : c.hook = none) : c.Reports c.run.2 := by
  have hpasses := Invariant.keptByPasses_reports c
  have hdelivery := Invariant.keptByDelivery_reports c
  exact Invariant.holds_run hpasses (Invariant.keeps_deliver hpasses hdelivery) (.refl hhook)

/-- **A run without a hook reports the failures that are not silent**, each once and in their
order, and nothing else. -/
theorem errors_run (hhook : c.hook = none) :
    ∃ events, c.run.2.session.journal = c.session.journal ++ events ∧
      c.run.2.session.errors = c.session.errors ++ events.filterMap Event.due? := by
  obtain ⟨events, hevents, hreported⟩ := (reports_run hhook).events
  refine ⟨events, hevents, ?_⟩
  rw [Session.errors, hevents, List.filterMap_append, hreported]
  rfl

end Context

end TagTemplate
