import TagTemplate.Proofs.Program.Depth
import TagTemplate.Proofs.Run.Delivery

/-! The depth of what a run executes.

A run executes its own program, texts that it compiles one level deeper than they were
produced and below the greatest depth, its own program once more in a replay, and programs
that natives put in its place, which are compiled at depth zero. So no invocation has a
greater depth than that of the first program or the greatest depth of the settings:
`Context.run_depth`. Where the settings turn expansion off, produced texts are not compiled
at all. -/
namespace TagTemplate

/-- Whether the depth that an event tells of is bounded: that of an invocation by `bound`,
that of an expansion, which is one more than that of the text, by `maxDepth`. -/
def Event.DepthAtMost (bound maxDepth : Nat) : Event → Prop
  | .entered heading => heading.depth ≤ bound
  | .called call _ _ _ => call.heading.depth ≤ bound
  | .expanded produced depth _ => depth = produced + 1 ∧ depth ≤ maxDepth
  | _ => True

/-- A run has gone on from one context to another within a depth. -/
structure Context.DepthAtMost {σ : Type} (bound : Nat) (c₀ c : Context σ) : Prop where
  settings : c.settings = c₀.settings
  root : c.program.depth ≤ bound
  walk : ∀ i ∈ c.program.walk, i.heading.depth ≤ bound
  events : ∃ events, c.session.journal = c₀.session.journal ++ events ∧
    ∀ e ∈ events, e.DepthAtMost bound c₀.settings.maxDepth

namespace Context.DepthAtMost
variable {σ : Type} {bound : Nat} {c₀ b c : Context σ}

theorem refl {v : Vocabulary σ} {source : String} {path : Option String} {depth : Nat}
    (h : Program.compileAt v source path depth = .ok c.program) (hdepth : depth ≤ bound) :
    c.DepthAtMost bound c := by
  obtain ⟨hroot, hwalk⟩ := Program.depth_of_compileAt h
  refine ⟨rfl, hroot ▸ hdepth, fun i hi => hwalk i hi ▸ hdepth, [], ?_, List.forall_mem_nil _⟩
  exact (List.append_nil _).symm

theorem same (h : c₀.DepthAtMost bound b) (hsettings : c.settings = b.settings)
    (hprogram : c.program = b.program) (hjournal : c.session.journal = b.session.journal) :
    c₀.DepthAtMost bound c where
  settings := hsettings.trans h.settings
  root := hprogram ▸ h.root
  walk := hprogram ▸ h.walk
  events := hjournal ▸ h.events

theorem snoc (h : c₀.DepthAtMost bound b) {e : Event}
    (he : e.DepthAtMost bound c₀.settings.maxDepth) (hsettings : c.settings = b.settings)
    (hprogram : c.program = b.program) (hjournal : c.session.journal = b.session.journal ++ [e]) :
    c₀.DepthAtMost bound c where
  settings := hsettings.trans h.settings
  root := hprogram ▸ h.root
  walk := hprogram ▸ h.walk
  events := Session.exists_journal_snoc h.events hjournal fun _ hall =>
    List.forall_mem_append.2 ⟨hall, List.forall_mem_singleton.2 he⟩

/-- A native puts a program in the place of the run's own, compiled at depth zero. -/
theorem swap (h : c₀.DepthAtMost bound c) {v : Vocabulary σ} {source : String}
    {path : Option String} {program : Program σ}
    (hprogram : Program.compile v source path = .ok program) :
    c₀.DepthAtMost bound (c.replaceProgram program) := by
  obtain ⟨hroot, hwalk⟩ := Program.depth_of_compileAt hprogram
  refine ⟨h.settings, ?_, fun i hi => ?_, h.events⟩
  · exact hroot.symm ▸ Nat.zero_le _
  · exact (hwalk i hi).symm ▸ Nat.zero_le _

end Context.DepthAtMost

namespace Invariant
variable {σ : Type} {bound : Nat} {c₀ : Context σ}

/-- What natives do stays within a depth. -/
def depthAtMost (bound : Nat) (c₀ : Context σ) : Invariant σ where
  holds := c₀.DepthAtMost bound
  allows heading := heading.depth ≤ bound
  remember _ h := h.same rfl rfl rfl
  assign _ _ h := h.same rfl rfl rfl
  edit change h := h.snoc (e := .edited change) trivial rfl rfl rfl
  swap hprogram h := h.swap hprogram
  entered {_ heading} hallows h := h.snoc (e := .entered heading) hallows rfl rfl rfl
  called {_ call} audited hallows h :=
    h.snoc (e := .called call _ _ audited) hallows rfl rfl rfl

theorem keptBySteps_depthAtMost (hbound : c₀.settings.maxDepth ≤ bound) :
    (depthAtMost bound c₀).KeptBySteps where
  root h := h.walk
  compiled h hp i hi := by
    obtain ⟨-, hmax, hall⟩ := Program.depth_of_compileValue hp
    rw [h.settings] at hmax
    show i.heading.depth ≤ bound
    rw [hall i hi]
    exact Nat.le_trans hmax hbound
  expanded {_ _ produced p} h hp := by
    obtain ⟨hdepth, hmax, -⟩ := Program.depth_of_compileValue hp
    rw [h.settings] at hmax
    exact h.snoc (e := .expanded produced p.depth p.functionNames) ⟨hdepth, hmax⟩ rfl rfl rfl
  recompiled h hp i hi :=
    Nat.le_trans (Nat.le_of_eq ((Program.depth_of_compileAt hp).2 i hi)) h.root
  failed program position failure h :=
    h.snoc (e := .failed program position failure) trivial rfl rfl rfl
  reported message h := h.snoc (e := .reported message) trivial rfl rfl rfl
  tried h := h.snoc (e := .replayTried) trivial rfl rfl rfl
  began replay h := h.snoc (e := .replayBegan replay) trivial rfl rfl rfl
  ended _ h := h.snoc (e := .replayEnded) trivial rfl rfl rfl

theorem keptByDelivery_depthAtMost : (depthAtMost bound c₀).KeptByDelivery where
  content _ h := h.same rfl rfl rfl
  sent {c} h := h.snoc (e := .sent c.session.container) trivial rfl rfl rfl
  taken part _ h := h.snoc (e := .taken part) trivial rfl rfl rfl
  stored part _ h := h.snoc (e := .stored part) trivial rfl rfl rfl

end Invariant

namespace Context
variable {σ : Type} {c : Context σ}

/-- Where expansion is off, nothing depends on how produced texts would be run. -/
theorem runBy_of_not_expand (h : c.settings.expand = false)
    (textAt : Nat → String → Run σ String) :
    c.runBy (fun depth => Run.expandWith (textAt depth)) textAt = c.run := by
  have hexpand (depth : Nat) (v : Json) : (Invariant.settings σ c.settings).Settles
      (fun _ (textAt : Nat → String → Run σ String) => Run.expandWith (textAt depth) v)
      (Run.expandAt depth v) := by
    apply Invariant.Settles.get_bind
    intro d hd
    have hoff : d.state.settings.expand = false := hd ▸ h
    rw [hoff]
    exact Invariant.settles_pure v d hd
  obtain ⟨enough, hequal⟩ := c.runBy_settles (T := fun _ textAt => textAt) hexpand
    fun depth s d _ hon => absurd (h.symm.trans hon) Bool.false_ne_true
  exact hequal enough (Nat.le_refl _) textAt

/-- **The depth of a run is bounded.** In the run of a program that was compiled at some
depth, every invocation that is executed has at most that depth or the greatest depth of the
settings, and every text that is expanded is run one level deeper than it was produced, which is
at most the greatest depth. So is every text that would be compiled in this way, with all its
invocations. Where expansion is off, the run is the same whatever produced texts would come
to. -/
theorem run_depth {v : Vocabulary σ} {source : String} {path : Option String} {depth : Nat}
    (h : Program.compileAt v source path depth = .ok c.program) :
    (∃ events, c.run.2.session.journal = c.session.journal ++ events ∧
        ∀ e ∈ events, e.DepthAtMost (max depth c.settings.maxDepth) c.settings.maxDepth) ∧
      (∀ text path produced p,
        Program.compileValue c.vocabulary text path produced c.settings.maxDepth = .ok (some p) →
          p.depth = produced + 1 ∧ p.depth ≤ c.settings.maxDepth ∧
            ∀ i ∈ p.walk, i.heading.depth = p.depth) ∧
      (c.settings.expand = false → ∀ textAt,
        c.runBy (fun depth => Run.expandWith (textAt depth)) textAt = c.run) := by
  refine ⟨?_, fun _ _ _ _ hp => Program.depth_of_compileValue hp, runBy_of_not_expand⟩
  have hpasses : (Invariant.depthAtMost (max depth c.settings.maxDepth) c).KeptByPasses :=
    (Invariant.keptBySteps_depthAtMost (Nat.le_max_right _ _)).keptByPasses
  have hrun : c.DepthAtMost (max depth c.settings.maxDepth) c.run.2 :=
    Invariant.holds_run hpasses
      (Invariant.keeps_deliver hpasses Invariant.keptByDelivery_depthAtMost)
      (.refl h (Nat.le_max_left _ _))
  exact hrun.events

/-- A function whose value is its own tag is executed down to the greatest depth. -/
theorem run_depth_again :
    let again : Native Unit := ⟨{ name := "$again" }, false, fun _ => .succeed (.string "$again")⟩
    let v : Vocabulary Unit := .ofNatives [again]
    let i : Invocation Unit := .mk ⟨0, "$again", false, false, none, 0⟩ again none
    let c : Context Unit :=
      { program := ⟨"$again", none, "[@fn:0]", [i], ⟨[.slot 0]⟩, 0⟩
        vocabulary := v
        settings := { maxDepth := 2 }
        memory := () }
    Program.compileAt v "$again" none 0 = .ok c.program ∧
      .expanded 1 2 ["$again"] ∈ c.run.2.session.journal ∧
      ∃ events, c.run.2.session.journal = c.session.journal ++ events ∧
        ∀ e ∈ events, e.DepthAtMost 2 2 := by
  intro again v i c
  have hcompile : Program.compileAt v "$again" none 0 = .ok c.program := by
    subst c i v again
    with_unfolding_all rfl
  exact ⟨hcompile, by decide +kernel, (run_depth hcompile).1⟩

end Context

end TagTemplate
