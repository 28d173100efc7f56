import TagTemplate.Proofs.Program.Order
import TagTemplate.Proofs.Run.Arguments
import TagTemplate.Proofs.Run.Reports
import TagTemplate.Proofs.Run.Signals
import TagTemplate.Proofs.Run.Untouched
import TagTemplate.Proofs.Vocabulary

/-! The order of calls.

Where every native has its arguments resolved before it is called, and nothing is expanded or
replayed, a run goes through its program in the order of its numbers. `Run.InOrder` says so of
a stretch of a run: the calls in it are some of the invocations of a list, in the order of the
list; all of them, if all that is executed succeeds; and when a signal or a fault ends it, the
last call is that of the native which raised it. Stretches are put together as the lists are,
so this goes from nested invocations to the one around them (`Invocation.inOrder_execute`),
from there along a pass (`Run.inOrder_passFrom`), and to the run: `Context.run_in_order`. -/
namespace TagTemplate

/-! ### Calls -/

/-- The call that an event tells of. -/
def Event.call? : Event → Option Call
  | .called call _ _ _ => some call
  | _ => none

/-- The calls of natives, in order. -/
def Session.calls (s : Session) : List Call := s.journal.filterMap Event.call?

theorem Session.calls_record {e : Event} (h : e.call? = none) (s : Session) :
    (s.record e).calls = s.calls := by
  rw [calls, journal_record, List.filterMap_append, List.filterMap_cons_none h]
  exact List.append_nil _

section
variable {σ : Type} (c : Clocked (Context σ))

theorem Clocked.calls_enter (h : Heading) :
    (c.enter h).state.session.calls = c.state.session.calls := Session.calls_record rfl _

theorem Clocked.calls_call (call : Call) (audited : Bool) :
    (c.call call audited).state.session.calls = c.state.session.calls ++ [call] :=
  List.filterMap_append

end

/-! ### Natives that leave their arguments alone -/

/-- Whether a native, in the course of a call, resolves no argument on its own. -/
def Behaviour.Closed {σ : Type} : Behaviour σ → Prop
  | .finish _ => True
  | .inspect next => ∀ s, (next s).Closed
  | .remember _ next => ∀ m, (next m).Closed
  | .assign _ _ next => next.Closed
  | .edit _ next => next.Closed
  | .sleep _ next => next.Closed
  | .swap _ _ next => ∀ e, (next e).Closed
  | .field _ _ => False

/-- Whether a native has its arguments resolved before it is called, and resolves none on its
own. -/
structure Native.Prompt {σ : Type} (n : Native σ) : Prop where
  eager : n.signature.eager = true
  closed : ∀ call, (n.behave call).Closed

/-- Whether the native of an invocation is prompt, and the invocation has no arguments that
the native does not take. -/
structure Invocation.Prompt {σ : Type} (i : Invocation σ) : Prop extends i.Eager where
  closed : ∀ call, (i.native.behave call).Closed

section
variable {σ : Type}

theorem Behaviour.Closed.run_eq {b : Behaviour σ} (h : b.Closed) (fields : List (Resolver σ)) :
    b.run fields = b.run [] := by
  induction b with
  | finish _ => rfl
  | inspect next ih =>
    simp only [run]
    congr 1
    funext c
    exact ih _ (h _)
  | remember change next ih =>
    simp only [run]
    congr 1
    funext c
    rw [ih _ (h _)]
  | assign name value next ih | edit change next ih | sleep ms next ih =>
    simp only [run]
    rw [ih h]
  | swap source path next ih =>
    simp only [run]
    congr 1
    funext c
    cases Program.compile c.vocabulary source path with
    | ok program => rw [ih _ (h _)]
    | error e => exact ih _ (h _)
  | field _ _ => exact h.elim

/-- The steps of a native are no calls. -/
def Invariant.uncalled (calls : List Call) : Invariant σ where
  holds c := c.session.calls = calls
  allows _ := False
  remember _ h := h
  assign _ _ h := h
  edit change h := (Session.calls_record (e := .edited change) rfl _).trans h
  swap _ h := h
  entered hallows _ := hallows.elim
  called _ hallows _ := hallows.elim

theorem Behaviour.calls_run (b : Behaviour σ) (c : Clocked (Context σ)) :
    (b.run [] c).2.state.session.calls = c.state.session.calls :=
  Invariant.keeps_run (I := .uncalled _) (List.forall_mem_nil _) b c rfl

/-- In a compiled program the invocations of prompt natives are prompt. -/
theorem Program.prompt_of_mem_postorder {v : Vocabulary σ} {source : String}
    {path : Option String} {depth : Nat} {p : Program σ}
    (hprompt : ∀ name native, v.resolve name = some native → native.Prompt)
    (hcompile : compileAt v source path depth = .ok p) : ∀ i ∈ p.postorder, i.Prompt := by
  intro i hi
  obtain ⟨_, _, _, hread⟩ := reads_of_mem_postorder hcompile i hi
  cases hread with
  | mk hresolved harguments =>
    obtain ⟨heager, hclosed⟩ := hprompt _ _ hresolved
    refine ⟨⟨heager, fun hargs => ?_⟩, hclosed⟩
    replace hargs : _ = none := hargs
    rw [Invocation.native] at hargs
    rw [hargs] at harguments
    cases harguments
    rfl

end

/-! ### What is executed -/

namespace Invocation
variable {σ : Type}

mutual

/-- To execute one invocation at a context comes to execute another one at another context:
itself, or one that is nested in it. -/
inductive Performs : Invocation σ → Clocked (Context σ) → Invocation σ → Clocked (Context σ) →
    Prop
  | self {i c} : Performs i c i c
  | nested {i c j d} (among : PerformsAmong i.nested (c.enter i.heading) j d) : Performs i c j d

/-- To execute some invocations, up to the first that interrupts, comes to execute another
one at some context. -/
inductive PerformsAmong : List (Invocation σ) → Clocked (Context σ) → Invocation σ →
    Clocked (Context σ) → Prop
  | here {i is c j d} (performs : Performs i c j d) : PerformsAmong (i :: is) c j d
  | later {i is c r v d j e} (outcome : i.execute c = (some r, d))
      (contributes : contribution i.heading r = .ok v) (among : PerformsAmong is d j e) :
      PerformsAmong (i :: is) c j e

end

/-- Whether the outcome of an invocation at a context is a success. -/
def Succeeds (i : Invocation σ) (c : Clocked (Context σ)) : Prop :=
  ∃ v d, i.execute c = (some (.ok (.success v)), d)

/-- Whether an invocation and all that are executed for its sake succeed. -/
def Thrives (i : Invocation σ) (c : Clocked (Context σ)) : Prop :=
  ∀ j d, i.Performs c j d → j.Succeeds d

/-- Whether all that is executed for the sake of some invocations succeeds. -/
def ThriveAmong (is : List (Invocation σ)) (c : Clocked (Context σ)) : Prop :=
  ∀ j d, PerformsAmong is c j d → j.Succeeds d

end Invocation

namespace Run
variable {σ : Type}

/-- Whether the last call before a context was a call of the native of one of some invocations,
and the native ended the run there in the given way. -/
def Raises (js : List (Invocation σ)) (flow : Except String Flow) (d : Clocked (Context σ)) :
    Prop :=
  ∃ j ∈ js, ∃ (call : Call) (c : Clocked (Context σ)) (x : Except Interruption Outcome),
    call.heading = j.heading ∧
    (j.native.behave call).run [] (c.call call j.native.audited) = (some x, d) ∧
    ending (Interruption.settle x) = some flow ∧ d.state.session.calls.getLast? = some call

/-- Whether what is called between two contexts goes along some invocations: they are called
in their order, and all of them if all thrive; and if that ends the run, the last call does. -/
structure InOrder (js : List (Invocation σ)) (thrive : Prop)
    (ends : Option (Except String Flow)) (c d : Clocked (Context σ)) : Prop where
  calls : ∃ made : List Call, d.state.session.calls = c.state.session.calls ++ made ∧
    (made.map (·.heading)).Sublist (js.map (·.heading)) ∧
    (thrive → made.map (·.heading) = js.map (·.heading))
  raised : ∀ flow, ends = some flow → Raises js flow d

namespace InOrder
variable {js ks : List (Invocation σ)} {P Q : Prop} {ends : Option (Except String Flow)}
  {b c d e : Clocked (Context σ)}

theorem still (h : d.state.session.calls = c.state.session.calls) : InOrder [] P none c d :=
  ⟨⟨[], h.trans (List.append_nil _).symm, List.nil_sublist _, fun _ => rfl⟩, nofun⟩

theorem after (hb : c.state.session.calls = b.state.session.calls) (h : InOrder js P ends c d) :
    InOrder js P ends b d :=
  ⟨hb ▸ h.calls, h.raised⟩

theorem mono (h : InOrder js P ends c d) (hQ : Q → P) : InOrder js Q ends c d := by
  obtain ⟨made, hmade, hsub, hall⟩ := h.calls
  exact ⟨⟨made, hmade, hsub, fun hq => hall (hQ hq)⟩, h.raised⟩

theorem append (h : InOrder js P none c d) (h' : InOrder ks P ends d e) :
    InOrder (js ++ ks) P ends c e := by
  obtain ⟨made, hmade, hsub, hall⟩ := h.calls
  obtain ⟨more, hmore, hsub', hall'⟩ := h'.calls
  refine ⟨⟨made ++ more, by rw [hmore, hmade, List.append_assoc], ?_, fun hp => ?_⟩,
    fun flow hflow => ?_⟩
  · rw [List.map_append, List.map_append]
    exact hsub.append hsub'
  · rw [List.map_append, List.map_append, hall hp, hall' hp]
  · obtain ⟨j, hj, hraises⟩ := h'.raised flow hflow
    exact ⟨j, List.mem_append_right _ hj, hraises⟩

/-- Where something does not thrive, the rest of the invocations may be missed. -/
theorem cut (h : InOrder js P ends c d) (ks : List (Invocation σ)) (hQ : ¬ Q) :
    InOrder (js ++ ks) Q ends c d := by
  obtain ⟨made, hmade, hsub, -⟩ := h.calls
  refine ⟨⟨made, hmade, ?_, fun hq => absurd hq hQ⟩, fun flow hflow => ?_⟩
  · rw [List.map_append]
    exact hsub.trans (List.sublist_append_left _ _)
  · obtain ⟨j, hj, hraises⟩ := h.raised flow hflow
    exact ⟨j, List.mem_append_left _ hj, hraises⟩

end InOrder

/-! ### How executions end a run -/

theorem ending_map_modify (h : Heading) (r : Except String Outcome) :
    ending (r.map h.modify) = ending r := by
  rcases r with fault | v | failure | v | _
  case ok.success =>
    show ending (.ok (h.modify (.success v))) = none
    obtain ⟨w, hw⟩ := h.exists_modify_success v
    rw [hw]
    rfl
  all_goals rfl

/-- How an interruption ends a run, if there is one and it does. -/
def interrupts {α : Type} : Except Interruption α → Option (Except String Flow)
  | .ok _ => none
  | .error e => ending (Interruption.settle (.error e))

/-- A nested invocation ends a run as an invocation of the program does. -/
theorem interrupts_contribution (h : Heading) (r : Except String Outcome) :
    interrupts (Invocation.contribution h r) = ending r := by
  rcases r with fault | v | failure | v | _
  case ok.failure =>
    show interrupts (if h.silent then .ok Json.null else .error _) = none
    split <;> rfl
  all_goals rfl

end Run

/-! ### Executions -/

namespace Invocation
variable {σ : Type}

/-- Whether the calls of an execution are in order, wherever it begins and however it ends. -/
def ExecutesInOrder (i : Invocation σ) : Prop :=
  ∀ {c d r}, i.execute c = (some r, d) → Run.InOrder i.postorder (i.Thrives c) (Run.ending r) c d

/-- Some invocations are executed in order if each of them is, and they have values if all
that is executed succeeds. -/
theorem inOrder_contributions {is : List (Invocation σ)} (his : ∀ i ∈ is, i.ExecutesInOrder)
    {c d : Clocked (Context σ)} {result : Except Interruption (List Json)}
    (h : contributions is c = (some result, d)) :
    Run.InOrder (is.flatMap postorder) (ThriveAmong is c) (Run.interrupts result) c d ∧
      (ThriveAmong is c → ∃ values, result = .ok values) := by
  induction is generalizing c d result with
  | nil =>
    cases h
    exact ⟨.still rfl, fun _ => ⟨[], rfl⟩⟩
  | cons i is ih =>
    obtain ⟨hi, his⟩ := List.forall_mem_cons.1 his
    rw [List.flatMap_cons]
    have hthrives (h : ThriveAmong (i :: is) c) : i.Thrives c :=
      fun j e hj => h j e (.here hj)
    rcases hexecute : i.execute c with ⟨_ | r, e⟩
    · rw [contributions, Timed.bind_none hexecute] at h
      cases h
    have hfirst := hi hexecute
    rw [contributions, Timed.bind_some hexecute] at h
    rw [← Run.interrupts_contribution i.heading] at hfirst
    cases hcontribution : contribution i.heading r with
    | error interruption =>
      rw [hcontribution] at h hfirst
      cases h
      have hnot : ¬ ThriveAmong (i :: is) c := by
        intro h
        obtain ⟨v, _, hsuccess⟩ := h i c (.here .self)
        cases hexecute.symm.trans hsuccess
        cases hcontribution
      exact ⟨hfirst.cut _ hnot, fun h => absurd h hnot⟩
    | ok v =>
      rw [hcontribution] at h hfirst
      dsimp only at h
      have hlater (h : ThriveAmong (i :: is) c) : ThriveAmong is e :=
        fun j f hj => h j f (.later hexecute hcontribution hj)
      rcases hrest : contributions is e with ⟨_ | rest, f⟩
      · rw [Timed.bind_none hrest] at h
        cases h
      obtain ⟨hinOrder, hvalues⟩ := ih his hrest
      have happend := (hfirst.mono hthrives).append (hinOrder.mono hlater)
      rw [Timed.bind_some hrest] at h
      cases rest with
      | error interruption =>
        cases h
        refine ⟨happend, fun h => ?_⟩
        obtain ⟨_, hvalues⟩ := hvalues (hlater h)
        cases hvalues
      | ok values =>
        cases h
        exact ⟨happend, fun _ => ⟨_, rfl⟩⟩

/-- The call of a prompt native is one call, and if it ends the run it is the last. -/
theorem Prompt.inOrder_call {i : Invocation σ} (hi : i.Prompt) {call : Call}
    (hheading : call.heading = i.heading) {fields : List (Resolver σ)}
    {c d : Clocked (Context σ)} {r : Except String Outcome}
    (h : finishing i.heading ((i.native.behave call).run fields)
      (c.call call i.native.audited) = (some r, d)) {thrives : Prop} :
    Run.InOrder [i] thrives (Run.ending r) c d := by
  rw [(hi.closed call).run_eq, finishing_apply] at h
  have hcalls := (i.native.behave call).calls_run (c.call call i.native.audited)
  rcases hrun : (i.native.behave call).run [] (c.call call i.native.audited) with ⟨_ | x, e⟩
  · rw [hrun] at h
    cases h
  rw [hrun] at h hcalls
  cases h
  replace hcalls := hcalls.trans (c.calls_call call i.native.audited)
  have hheadings : [call].map (·.heading) = [i].map (·.heading) := congrArg ([·]) hheading
  refine ⟨⟨[call], hcalls, hheadings ▸ List.Sublist.refl _, fun _ => hheadings⟩, ?_⟩
  intro flow hflow
  refine ⟨i, List.mem_singleton_self i, call, c, x, hheading, hrun, ?_, ?_⟩
  · rwa [Run.ending_map_modify] at hflow
  · rw [hcalls, List.getLast?_concat]

/-- **An execution is in order**: what is nested in an invocation is executed before it. -/
theorem inOrder_execute (i : Invocation σ) (hprompt : ∀ j ∈ i.postorder, j.Prompt) :
    i.ExecutesInOrder := by
  induction i using induction_nested with
  | step i ih =>
    intro c d r h
    rw [postorder_eq] at hprompt ⊢
    obtain ⟨hnested, hi⟩ := List.forall_mem_append.1 hprompt
    replace hi : i.Prompt := List.forall_mem_singleton.1 hi
    have hthrive (h : i.Thrives c) : ThriveAmong i.nested (c.enter i.heading) :=
      fun j e hj => h j e (.nested hj)
    rcases hresult : contributions i.nested (c.enter i.heading) with ⟨_ | result, e⟩
    · cases (execute_of_abandoned hi.toEager hresult).symm.trans h
    have hinOrder : ∀ j ∈ i.nested, j.ExecutesInOrder := fun j hj =>
      ih j hj fun k hk => hnested k (List.mem_flatMap_of_mem hj hk)
    obtain ⟨hfirst, hvalues⟩ := inOrder_contributions hinOrder hresult
    replace hfirst := (hfirst.mono hthrive).after (c.calls_enter i.heading)
    cases result with
    | error interruption =>
      cases (execute_of_interrupted hi.toEager hresult).symm.trans h
      rw [Run.ending_map_modify]
      refine hfirst.cut _ fun h => ?_
      obtain ⟨_, hvalues⟩ := hvalues (hthrive h)
      cases hvalues
    | ok values =>
      rcases execute_of_resolved hi.toEager hresult with ⟨failure, hfails⟩ |
        ⟨call, fields, hheading, hcalls⟩
      · cases hfails.symm.trans h
        refine hfirst.cut _ fun h => ?_
        obtain ⟨_, _, hsucceeds⟩ := h i c .self
        cases hfails.symm.trans hsucceeds
      · exact hfirst.append (hi.inOrder_call hheading (hcalls.symm.trans h))

end Invocation

/-! ### Passes -/

namespace Run
variable {σ : Type}

/-- How a pass ends early, if it does. -/
def early? : Except String Flow → Option (Except String Flow)
  | .ok (.complete _) => none
  | flow => some flow

theorem early?_eq_some {flow : Except String Flow} (h : ∀ values, flow ≠ .ok (.complete values)) :
    early? flow = some flow := by
  rcases flow with _ | values | _ | _
  case ok.complete => exact absurd rfl (h values)
  all_goals rfl

section
variable {depth : Nat} {expand : Json → Run σ Json} {program : Program σ}
  {edition : Option Nat} {position : Nat} {i : Invocation σ} {is : List (Invocation σ)}
  {c d : Clocked (Context σ)} {r : Except String Outcome} {flow : Except String Flow}

theorem early?_of_ending (h : ending r = some flow) : early? flow = some flow := by
  rcases r with _ | _ | _ | _ | _ <;> cases h <;> rfl

/-- A pass ends early behind a value if the rest of it does. -/
theorem passOn_early {value : Json}
    (h : passOn expand program edition position is value c = (some flow, d)) :
    ∃ rest, passFrom expand program edition (position + 1) is c = (some rest, d) ∧
      early? flow = early? rest := by
  obtain ⟨rest, hrest, ⟨values, rfl, rfl⟩ | ⟨-, rfl⟩⟩ := exists_of_passOn h
  · exact ⟨_, hrest, rfl⟩
  · exact ⟨_, hrest, rfl⟩

/-- Where no replay is wanted, a failure is noted and perhaps reported, and that is all. -/
theorem afterFailure_of_not_replay (program : Program σ) (edition : Option Nat) (position : Nat)
    (heading : Heading) (failure : Failure) (hreplay : c.state.settings.replay = false) :
    ∃ value d, afterFailure program edition position heading failure c = (some value, d) ∧
      d.state.settings = c.state.settings ∧
      d.state.session.calls = c.state.session.calls := by
  let noted := c.state.note program position heading failure
  obtain ⟨-, -, hsettings, reports, hjournal, hall⟩ :=
    c.state.note_session program position heading failure
  have hwants : wantsReplay noted.2 heading.name noted.1 = false := by
    unfold wantsReplay
    simp only [noted, hsettings, hreplay, Bool.false_and]
  have hnone : reports.filterMap Event.call? = [] := by
    refine List.filterMap_eq_nil_iff.2 fun e he => ?_
    obtain ⟨_, rfl⟩ := hall e he
    rfl
  refine ⟨noted.1, ⟨c.remaining, noted.2⟩, ?_, hsettings, ?_⟩
  · exact (afterFailure_apply program edition position heading failure c).trans
      (if_neg (ne_true_of_eq_false hwants))
  · show noted.2.session.journal.filterMap Event.call? = _
    rw [hjournal, List.filterMap_append, List.filterMap_cons_none rfl, hnone, List.append_nil]
    rfl

/-- Where nothing is expanded or replayed, a pass calls no native between two invocations. -/
theorem Fills.goesOn {value : Json} (hexpand : c.state.settings.expand = false)
    (hreplay : c.state.settings.replay = false)
    (h : Fills (expandAt depth) program edition position i c value d) :
    ∃ r e, i.execute c = (some r, e) ∧ ending r = none ∧ d.state.settings = c.state.settings ∧
      d.state.session.calls = e.state.session.calls := by
  have hsettings := ((Quiet.execute i).goesOn c).settings
  cases h with
  | @success v _ e _ outcome expanded =>
    rw [outcome] at hsettings
    have hvalue : (if v.isNull then pure v else expandAt depth v : Run σ Json) e =
        (some v, e) := by
      split
      · rfl
      · exact expandAt_of_not_expand depth v (hsettings ▸ hexpand)
    cases hvalue.symm.trans expanded
    exact ⟨_, _, outcome, rfl, hsettings, rfl⟩
  | @failure failure _ e _ outcome handled =>
    rw [outcome] at hsettings
    have hreplay : e.state.settings.replay = false := hsettings ▸ hreplay
    obtain ⟨_, _, hvalue, hsame, hcalls⟩ :=
      afterFailure_of_not_replay program edition position i.heading failure hreplay
    cases hvalue.symm.trans handled
    exact ⟨_, _, outcome, rfl, hsame.trans hsettings, hcalls⟩

/-- **A pass is in order** where nothing is expanded or replayed. -/
theorem inOrder_passFrom (his : ∀ i ∈ is, i.ExecutesInOrder)
    (hexpand : c.state.settings.expand = false) (hreplay : c.state.settings.replay = false)
    (h : passFrom (expandAt depth) program edition position is c = (some flow, d)) :
    InOrder (is.flatMap Invocation.postorder)
      (∀ j e, Reaches (expandAt depth) program edition position is c j e → j.Thrives e)
      (early? flow) c d := by
  induction is generalizing position c flow with
  | nil =>
    cases h
    exact .still rfl
  | cons i is ih =>
    obtain ⟨hi, his⟩ := List.forall_mem_cons.1 his
    rw [List.flatMap_cons]
    rcases passFrom_cases h with ⟨r, hexecute, hending⟩ | ⟨value, e, hfills, hgoes⟩
    · rw [early?_of_ending hending, ← hending]
      refine (hi hexecute).cut _ fun h => ?_
      obtain ⟨_, _, hsucceeds⟩ := h i c .here i c .self
      cases hexecute.symm.trans hsucceeds
      cases hending
    · obtain ⟨r, f, hexecute, hending, hsettings, hcalls⟩ := hfills.goesOn hexpand hreplay
      obtain ⟨rest, hrest, hearly⟩ := passOn_early hgoes
      have hfirst := hi hexecute
      have hlater := (ih his (hsettings ▸ hexpand) (hsettings ▸ hreplay) hrest).after hcalls
      rw [hearly]
      rw [hending] at hfirst
      exact (hfirst.mono fun h => h i c .here).append
        (hlater.mono fun h j g hj => h j g (hfills.reaches hj))

end

/-! ### Conclusions -/

theorem lastLook_of_not_expand (program : Program σ) (values : List Json)
    {c : Clocked (Context σ)} (hexpand : c.state.settings.expand = false) :
    lastLook program values c = (some (program.resolve values), c) := by
  rw [lastLook, Timed.bind_some (Timed.get_apply c), hexpand]
  rfl

/-- Where nothing is expanded, a delivery calls no native. -/
theorem calls_prepare_of_not_expand (text : String) {c : Clocked (Context σ)}
    (hexpand : c.state.settings.expand = false) :
    (prepare text c).2.state.session.calls = c.state.session.calls := by
  have hnothing (d : Clocked (Context σ)) (h : d.state.settings.expand = false) :
      expandContainer expandAt d = (some (), d) := by
    rw [expandContainer, Timed.bind_some (Timed.get_apply d), h]
    rfl
  have hcontent : prepare text c = expandContainer expandAt ⟨c.remaining, c.state.onSession fun s =>
      { s with container := { s.container with content := some text } }⟩ := rfl
  rw [hcontent, hnothing]
  · rfl
  · exact hexpand

end Run

/-! ### Runs -/

namespace Context
variable {σ : Type} {c : Context σ}

theorem calls_dispatch (c : Context σ) : c.dispatch.session.calls = c.session.calls := by
  unfold dispatch
  split
  · rfl
  · exact Session.calls_record (e := .sent c.session.container) rfl _

/-- A run comes to execute an invocation at a context, for itself or for one around it. -/
def Performs (c : Context σ) (j : Invocation σ) (d : Clocked (Context σ)) : Prop :=
  ∃ i e, c.Executes i e ∧ i.Performs e j d

theorem settings_rootPass (c : Context σ) : c.rootPass.2.state.settings = c.settings :=
  ((quiet_rootPass c).goesOn ⟨none, c⟩).settings

/-- Where nothing is expanded, all calls of a run are made by its pass. -/
theorem calls_run (hgates : c.passesGates = true) (hexpand : c.settings.expand = false) :
    c.run.2.session.calls = c.rootPass.2.state.session.calls := by
  by_cases hcompletes : c.Completes
  · obtain ⟨values, after, hpass⟩ := hcompletes
    obtain ⟨text, looked, ready, hlook, hready, hrun⟩ := run_of_completes hgates hpass
    have hsettings := settings_rootPass c
    rw [hpass] at hsettings ⊢
    have hexpand : after.state.settings.expand = false := hsettings ▸ hexpand
    cases hlook.symm.trans (Run.lastLook_of_not_expand c.program values hexpand)
    rw [hrun]
    split
    · rfl
    · have hprepared := Run.calls_prepare_of_not_expand (c.program.resolve values) hexpand
      rw [hready] at hprepared
      exact (calls_dispatch ready.state).trans hprepared
  · rw [run_of_not_completes hgates hcompletes]

/-- The pass of a run over a program of prompt natives is in order. -/
theorem inOrder_rootPass (hprompt : ∀ i ∈ c.program.postorder, i.Prompt)
    (hexpand : c.settings.expand = false) (hreplay : c.settings.replay = false)
    {flow : Except String Flow} {after : Clocked (Context σ)}
    (hpass : c.rootPass = (some flow, after)) :
    Run.InOrder c.program.postorder (∀ j d, c.Performs j d → j.Succeeds d) (Run.early? flow)
      ⟨none, c⟩ after := by
  have hin : ∀ i ∈ c.program.invocations, i.ExecutesInOrder := fun i hi =>
    i.inOrder_execute fun j hj => hprompt j (List.mem_flatMap_of_mem hi hj)
  refine (Run.inOrder_passFrom hin hexpand hreplay hpass).mono fun h => ?_
  exact fun i d hi j e hj => h j e ⟨i, d, hi, hj⟩

/-- **A run calls natives in the order of its program.** The numbers of a compiled program go
from nested invocations to the one around them and from left to right. The calls of a pass
over it follow them: each invocation is called once at most, and all of them if everything
that is executed succeeds. If a signal or a fault ends the pass, the last call is that of the
native which raised it. A run makes the calls of its pass, or none if its gates are closed. -/
theorem run_in_order {v : Vocabulary σ} {source : String} {path : Option String} {depth : Nat}
    (hprompt : ∀ name native, v.resolve name = some native → native.Prompt)
    (hcompile : Program.compileAt v source path depth = .ok c.program)
    (hexpand : c.settings.expand = false) (hreplay : c.settings.replay = false) :
    let numbers := List.range (Invocation.forestSize c.program.invocations)
    c.program.postorder.map (·.heading.index) = numbers ∧
    ∃ flow after made, c.rootPass = (some flow, after) ∧
      after.state.session.calls = c.session.calls ++ made ∧
      (made.map (·.heading)).Sublist (c.program.postorder.map (·.heading)) ∧
      (made.map (·.heading.index)).Pairwise (· < ·) ∧
      ((∀ j d, c.Performs j d → j.Succeeds d) → made.map (·.heading.index) = numbers) ∧
      ((∀ values, flow ≠ .ok (.complete values)) →
        Run.Raises c.program.postorder flow after) ∧
      c.run.2.session.calls = c.session.calls ++ if c.passesGates then made else [] := by
  intro numbers
  have hindices := Program.indices_postorder hcompile
  obtain ⟨flow, after, hpass, -⟩ := c.exists_rootPass
  obtain ⟨⟨made, hmade, hsub, hall⟩, hraised⟩ :=
    inOrder_rootPass (Program.prompt_of_mem_postorder hprompt hcompile) hexpand hreplay hpass
  refine ⟨hindices, flow, after, made, hpass, hmade, hsub, ?_, fun h => ?_,
    fun hearly => hraised flow (Run.early?_eq_some hearly), ?_⟩
  · have hsub := hsub.map Heading.index
    rw [List.map_map, List.map_map] at hsub
    exact List.pairwise_lt_range.sublist (hindices ▸ hsub)
  · have hall := congrArg (List.map Heading.index) (hall h)
    rw [List.map_map, List.map_map] at hall
    exact hall.trans hindices
  · cases hgates : c.passesGates with
    | false => rw [run_of_not_passesGates hgates, if_neg Bool.false_ne_true, List.append_nil]
    | true =>
      rw [calls_run hgates hexpand, hpass]
      exact hmade

/-- A stop signal behind a nested invocation: what stands to its right is not called. -/
theorem run_in_order_stop :
    let natives : List (Native Unit) :=
      [Builtin.letNative, Builtin.getNative, Builtin.stopNative]
    let source := "$let[x;$get[x]]$stop$get[x]"
    let get (index : Nat) : Invocation Unit :=
      .mk ⟨index, "$get", false, false, none, 0⟩ Builtin.getNative
        (some [.plain ⟨"x", [], .literal "x"⟩])
    let set : Invocation Unit :=
      .mk ⟨1, "$let", false, false, none, 0⟩ Builtin.letNative
        (some [.plain ⟨"x", [], .literal "x"⟩, .plain ⟨"[@fn:0]", [get 0], ⟨[.slot 0]⟩⟩])
    let stop : Invocation Unit := .mk ⟨2, "$stop", false, false, none, 0⟩ Builtin.stopNative none
    let p : Program Unit := ⟨source, none, "[@fn:1][@fn:2][@fn:3]", [set, stop, get 3],
      ⟨[.slot 0, .slot 1, .slot 2]⟩, 0⟩
    let c : Context Unit := { program := p
                              vocabulary := .ofNatives natives
                              settings := { expand := false, replay := false }
                              memory := () }
    Program.compileAt (.ofNatives natives) source none 0 = .ok p ∧
      (∀ native ∈ natives, native.Prompt) ∧
      c.run.2.session.calls.map (·.heading.index) = [0, 1, 2] ∧
      ∃ after, c.rootPass = (some (.ok .stop), after) ∧
        Run.Raises p.postorder (.ok .stop) after := by
  intro natives source get set stop p c
  have hcompile : Program.compileAt (.ofNatives natives) source none 0 = .ok p := by
    subst p set stop get source natives
    with_unfolding_all rfl
  have hprompt : ∀ native ∈ natives, native.Prompt := by
    refine List.forall_mem_cons.2 ⟨⟨rfl, fun call => ?_⟩, List.forall_mem_cons.2
      ⟨⟨rfl, fun _ _ => trivial⟩, List.forall_mem_singleton.2 ⟨rfl, fun _ => trivial⟩⟩⟩
    show (if (call.text 0).isEmpty then _ else _ : Behaviour Unit).Closed
    split <;> trivial
  obtain ⟨-, flow, after, made, hpass, -, -, -, -, hraises, -⟩ :=
    run_in_order (c := c) (fun _ _ h => hprompt _ (Vocabulary.mem_of_resolve h)) hcompile rfl rfl
  have hstop : c.rootPass.1 = some (.ok .stop) := rfl
  rw [hpass] at hstop
  cases hstop
  exact ⟨hcompile, hprompt, by decide +kernel, after, hpass, hraises nofun⟩

end Context

end TagTemplate
