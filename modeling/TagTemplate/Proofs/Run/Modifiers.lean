import TagTemplate.Proofs.Run.Reports
import TagTemplate.Proofs.Run.Signals

/-! What the modifiers of a tag come to.

A pass that completes has one value for each invocation, and `Run.Fills` says where it comes
from. The modifiers act in two places only: a negated success is null, and so is a silent
failure, which is not reported either. What a negated invocation fails with is shown like
that of any other, and the name of a function may ask for a replay also where its failure is
silent: then the slot shows what the replay finds. `Context.fill_of_completes` says what
each slot of the text shows, and that nothing is reported for what is silent. -/
namespace TagTemplate

/-! ### Slots of a pass -/

namespace Run
variable {σ : Type} {expand : Json → Run σ Json} {program : Program σ} {edition : Option Nat}
  {position : Nat} {i : Invocation σ} {is : List (Invocation σ)} {c d after : Clocked (Context σ)}
  {value : Json} {values : List Json}

/-- A pass that completes has a value for its first invocation and completes behind it. -/
theorem passFrom_eq_complete (h : passFrom expand program edition position (i :: is) c =
    (some (.ok (.complete values)), after)) :
    ∃ value d rest, Fills expand program edition position i c value d ∧ values = value :: rest ∧
      passFrom expand program edition (position + 1) is d =
        (some (.ok (.complete rest)), after) := by
  rcases passFrom_cases h with ⟨r, -, hending⟩ | ⟨value, d, hfills, hrest⟩
  · rcases r with _ | _ | _ | _ | _ <;> cases hending
  · obtain ⟨_, hpass, ⟨rest, rfl, hvalues⟩ | ⟨hearly, rfl⟩⟩ := exists_of_passOn hrest
    · cases hvalues
      exact ⟨value, d, rest, hfills, rfl, hpass⟩
    · exact absurd rfl (hearly values)

/-- Behind a failure that no hook handles and no replay is wanted for, a pass goes on with what
is shown in its place. -/
theorem passFrom_of_shown {failure : Failure}
    (houtcome : i.execute c = (some (.ok (.failure failure)), d)) (hhook : d.state.hook = none)
    (hwants : wantsReplay (d.state.blame program position i.heading failure) i.heading.name
      (i.heading.shown failure) = false) :
    passFrom expand program edition position (i :: is) c =
      passOn expand program edition position is (i.heading.shown failure)
        ⟨d.remaining, d.state.blame program position i.heading failure⟩ := by
  have hshown := (afterFailure_of_unhooked program edition position i.heading failure hhook).trans
    (if_neg (ne_true_of_eq_false hwants))
  rw [passFrom_of_failure houtcome, Timed.bind_some hshown]

section Invariants
variable {I : Invariant σ} (hI : I.KeptBySteps) (hall : ∀ h, I.allows h)
  (hexpand : ∀ v, I.Keeps (expand v))
include hI hall hexpand

theorem Fills.holds (h : Fills expand program edition position i c value d)
    (hc : I.holds c.state) : I.holds d.state := by
  have hafter := Invariant.keeps_execute_of_forall hall i c hc
  cases h with
  | @success v _ e _ outcome expanded =>
    rw [outcome] at hafter
    have hkept : I.Keeps (if v.isNull then pure v else expand v : Run σ Json) := by
      split
      · exact I.keeps_pure v
      · exact hexpand v
    have hd := hkept e hafter
    rwa [expanded] at hd
  | @failure failure _ e _ outcome handled =>
    rw [outcome] at hafter
    have hprogram : I.Admits program := fun _ _ => hall _
    have hd := Invariant.keeps_afterFailure hI hprogram edition position i.heading failure e hafter
    rwa [handled] at hd

/-- **A pass that completes** comes to each of its invocations, and has a value for it. -/
theorem fills_of_complete (h : passFrom expand program edition position is c =
    (some (.ok (.complete values)), after)) (hc : I.holds c.state) {k : Nat}
    (hk : is[k]? = some i) :
    ∃ value d e, values[k]? = some value ∧ Reaches expand program edition position is c i d ∧
      I.holds d.state ∧ Fills expand program edition (position + k) i d value e := by
  induction is generalizing position c values k with
  | nil => cases hk
  | cons j is ih =>
    obtain ⟨first, d, rest, hfills, rfl, hrest⟩ := passFrom_eq_complete h
    cases k with
    | zero =>
      cases hk
      exact ⟨first, c, d, rfl, .here, hc, hfills⟩
    | succ k =>
      obtain ⟨value, e, f, hvalue, hreaches, he, hlater⟩ :=
        ih hrest (hfills.holds hI hall hexpand hc) hk
      refine ⟨value, e, f, hvalue, hfills.reaches hreaches, he, ?_⟩
      rwa [Nat.add_right_comm] at hlater

end Invariants

end Run

/-! ### Modifiers -/

/-- A negated invocation succeeds with null only. -/
theorem Invocation.eq_null_of_negated {σ : Type} {i : Invocation σ}
    (hnegated : i.heading.negated = true) {c d : Clocked (Context σ)} {v : Json}
    (h : i.execute c = (some (.ok (.success v)), d)) : v = .null := by
  obtain ⟨x, hx⟩ : ∃ x : Run σ (Except Interruption Outcome),
      i.execute = Invocation.finishing i.heading x := by
    match i with
    | .mk heading native none => exact ⟨_, rfl⟩
    | .mk heading native (some fields) => exact ⟨_, rfl⟩
  rw [hx, Invocation.finishing, Timed.bind_pure_apply, Prod.mk.injEq, Option.map_eq_some_iff] at h
  obtain ⟨⟨result, -, hmodified⟩, -⟩ := h
  rcases hsettled : Interruption.settle result with fault | outcome
  · rw [hsettled] at hmodified
    cases hmodified
  · rw [hsettled] at hmodified
    cases outcome with
    | success w =>
      have hnull : i.heading.modify (.success w) = .success .null := if_pos hnegated
      cases (Except.ok.inj hmodified).symm.trans hnull
      rfl
    | _ => cases hmodified

namespace Context
variable {σ : Type} {c : Context σ} {values : List Json} {after : Clocked (Context σ)}

/-- **What the slots of a completed pass show.** The pass comes to every invocation. If it
succeeds there and is negated, its slot is empty. If it fails, its slot shows the value of
the failure, or nothing if it is silent, unless a replay is wanted for it; then the slot
shows what the replay finds, and the same as before if that is nothing. The reports of the
run are those of the failures that are not silent. -/
theorem fill_of_completes (hhook : c.hook = none)
    (hpass : c.rootPass = (some (.ok (.complete values)), after)) :
    (∀ k i, c.program.invocations[k]? = some i → ∃ d, c.Executes i d ∧
      ((∃ v e, i.execute d = (some (.ok (.success v)), e) ∧
        (i.heading.negated = true → (Segment.slot k).fill values = "")) ∨
      ∃ failure e, i.execute d = (some (.ok (.failure failure)), e) ∧
        let blamed : Clocked (Context σ) :=
          ⟨e.remaining, e.state.blame c.program k i.heading failure⟩
        let shown := i.heading.shown failure
        (Run.wantsReplay blamed.state i.heading.name shown = false →
          (Segment.slot k).fill values = shown.display) ∧
        (Run.wantsReplay blamed.state i.heading.name shown = true →
          ∃ found f, Run.replay c.program (some c.edition) k i.heading.name blamed =
              (some found, f) ∧
            (Segment.slot k).fill values = (found.getD shown).display))) ∧
    ∃ events, c.run.2.session.journal = c.session.journal ++ events ∧
      c.run.2.session.errors = c.session.errors ++ events.filterMap Event.due? := by
  refine ⟨fun k i hk => ?_, errors_run hhook⟩
  have hfixed := Invariant.keptBySteps_fixed (σ := σ) fixed_hook none
  obtain ⟨value, d, f, hvalue, hexecutes, hd, hfills⟩ :=
    Run.fills_of_complete hfixed (fun _ => trivial)
      (Invariant.keeps_expandAt hfixed.keptByPasses c.program.depth) hpass hhook hk
  have hfill : (Segment.slot k).fill values = value.display := by
    rw [Segment.fill, hvalue]
    rfl
  refine ⟨d, hexecutes, ?_⟩
  rw [Nat.zero_add] at hfills
  rw [hfill]
  cases hfills with
  | @success v _ e _ outcome expanded =>
    refine .inl ⟨v, e, outcome, fun hnegated => ?_⟩
    cases Invocation.eq_null_of_negated hnegated outcome
    cases expanded
    rfl
  | @failure failure _ e _ outcome handled =>
    have hexecute := Invariant.keeps_execute_of_forall (I := .fixed fixed_hook none)
      (fun _ => trivial) i d hd
    rw [outcome] at hexecute
    have hafter := Run.afterFailure_of_unhooked c.program (some c.edition) k i.heading failure
      hexecute
    refine .inr ⟨failure, e, outcome, fun hwants => ?_, fun hwants => ?_⟩
    · cases handled.symm.trans (hafter.trans (if_neg (ne_true_of_eq_false hwants)))
      rfl
    · have hfound := handled.symm.trans (hafter.trans (if_pos hwants))
      rcases hreplay : Run.replay c.program (some c.edition) k i.heading.name
        ⟨e.remaining, e.state.blame c.program k i.heading failure⟩ with ⟨_ | found, g⟩
      · rw [hreplay] at hfound
        cases hfound
      · rw [hreplay] at hfound
        cases hfound
        exact ⟨found, _, rfl, rfl⟩

/-- A silent failure with a value shows nothing and is not reported. -/
theorem fill_of_completes_silent :
    let bad : Native Unit :=
      ⟨{ name := "$bad" }, false, fun _ => .done (.failure ⟨"m", some (.string "x")⟩)⟩
    let v : Vocabulary Unit := .ofNatives [bad]
    let i : Invocation Unit := .mk ⟨0, "$bad", false, true, none, 0⟩ bad none
    let p : Program Unit := ⟨"$#bad", none, "[@fn:0]", [i], ⟨[.slot 0]⟩, 0⟩
    let c : Context Unit := { program := p, vocabulary := v, memory := () }
    Program.compile v "$#bad" none = .ok p ∧ c.hook = none ∧
      ∃ values after, c.rootPass = (some (.ok (.complete values)), after) ∧
        (Segment.slot 0).fill values = "" ∧ c.run.2.session.errors = [] := by
  intro bad v i p c
  have hcompile : Program.compile v "$#bad" none = .ok p := by
    subst p i v bad
    with_unfolding_all rfl
  let failure : Failure := ⟨"m", some (.string "x")⟩
  obtain ⟨d, hfails⟩ : ∃ d, i.execute ⟨none, c⟩ = (some (.ok (.failure failure)), d) := ⟨_, rfl⟩
  have hwants : Run.wantsReplay (d.state.blame p 0 i.heading failure) "$bad" .null = false := by
    cases hfails
    decide +kernel
  have hhook : d.state.hook = none := by
    cases hfails
    rfl
  obtain ⟨values, after, hpass⟩ :
      ∃ values after, c.rootPass = (some (.ok (.complete values)), after) :=
    ⟨_, _, Run.passFrom_of_shown hfails hhook hwants⟩
  obtain ⟨hslots, events, hevents, herrors⟩ := fill_of_completes rfl hpass
  obtain ⟨e, hexecutes, hslot⟩ := hslots 0 i rfl
  have hstart : e = ⟨none, c⟩ := by
    cases hexecutes with
    | here => rfl
    | pastSuccess _ _ later => cases later
    | pastFailure _ _ later => cases later
  subst hstart
  have hdue : c.run.2.session.journal.filterMap Event.due? = [] := by decide +kernel
  rw [hevents] at hdue
  rcases hslot with ⟨_, _, hsucceeds, -⟩ | ⟨_, _, hfails', hshows, -⟩
  · cases hsucceeds.symm.trans hfails
  · cases hfails'.symm.trans hfails
    exact ⟨hcompile, rfl, values, after, hpass, hshows hwants, herrors.trans hdue⟩

/-- A negated invocation shows the value that it fails with. -/
theorem fill_ne_empty_negated :
    let bad : Native Unit :=
      ⟨{ name := "$bad" }, false, fun _ => .done (.failure ⟨"m", some (.string "x")⟩)⟩
    let v : Vocabulary Unit := .ofNatives [bad]
    let i : Invocation Unit := .mk ⟨0, "$bad", true, false, none, 0⟩ bad none
    let p : Program Unit := ⟨"$!bad", none, "[@fn:0]", [i], ⟨[.slot 0]⟩, 0⟩
    let c : Context Unit := { program := p, vocabulary := v, memory := () }
    Program.compile v "$!bad" none = .ok p ∧ c.hook = none ∧ i.heading.negated = true ∧
      ∃ values after, c.rootPass = (some (.ok (.complete values)), after) ∧
        (Segment.slot 0).fill values ≠ "" := by
  intro bad v i p c
  have hcompile : Program.compile v "$!bad" none = .ok p := by
    subst p i v bad
    with_unfolding_all rfl
  let failure : Failure := ⟨"m", some (.string "x")⟩
  have hfails : i.execute ⟨none, c⟩ =
      (some (.ok (.failure failure)), (i.execute ⟨none, c⟩).2) := rfl
  have hwants : Run.wantsReplay ((i.execute ⟨none, c⟩).2.state.blame p 0 i.heading failure) "$bad"
      (.string "x") = false := by decide +kernel
  exact ⟨hcompile, rfl, rfl, _, _, Run.passFrom_of_shown hfails rfl hwants, by decide +kernel⟩

/-- The name of a silent function may ask for a replay, and its slot then shows the text of the
whole template. -/
example :
    let json : Native Unit := ⟨{ name := "$json" }, false, fun _ => .fail "m"⟩
    let i : Invocation Unit := .mk ⟨0, "$json", false, true, none, 0⟩ json none
    let p : Program Unit := ⟨"a$#json", none, "a[@fn:0]", [i], ⟨[.text "a", .slot 0]⟩, 0⟩
    let c : Context Unit :=
      { program := p, vocabulary := .ofNatives [json], withheld := true, memory := () }
    c.run.1 = some "aa" := by
  decide +kernel

end Context

end TagTemplate
