import TagTemplate.Proofs.Json.Strings
import TagTemplate.Proofs.Run.Settles

/-! What passes and expansions cannot break.

Between the calls of natives a run notes what it expands, handles failures and replays.
`Invariant.KeptByPasses` says that an invariant survives this, the handling of a failure with
its replay taken as one step; `Invariant.KeptBySteps` is enough for that, and speaks of each
single step, those of replays included (`Invariant.KeptByReplays`). Such an invariant holds
after a pass, after the expansion of a value, and after the run of a text, by induction on the
depths that are left: `Invariant.keeps_expandText`.

The rules for passes and values are stated for families that settle, so they also say that
a pass settles when the way in which it expands values does. -/
namespace TagTemplate

namespace Invariant
variable {σ : Type}

/-- Whether an invariant is kept by what happens for the sake of a text: the programs of the
context and of texts may be executed, and noting an expansion keeps it. -/
structure KeptByTexts (I : Invariant σ) : Prop where
  root : ∀ {c}, I.holds c → I.Admits c.program
  compiled : ∀ {c : Context σ} {value depth p}, I.holds c →
    Program.compileValue c.vocabulary value c.program.path depth c.settings.maxDepth =
      .ok (some p) → I.Admits p
  expanded : ∀ {c : Context σ} {value depth p}, I.holds c →
    Program.compileValue c.vocabulary value c.program.path depth c.settings.maxDepth =
      .ok (some p) → I.holds (c.onSession (·.record (.expanded depth p.depth p.functionNames)))

/-- Whether an invariant is kept by what happens between the calls of a pass, and so by the
handling of the failure of a top-level invocation. -/
structure KeptByPasses (I : Invariant σ) : Prop extends I.KeptByTexts where
  afterFailure : ∀ {program : Program σ} {i : Invocation σ} {position failure}
    {before after : Clocked (Context σ)} edition, I.Admits program →
    program.invocations[position]? = some i →
    i.execute before = (some (.ok (.failure failure)), after) → I.holds after.state →
    I.holds (Run.afterFailure program edition position i.heading failure after).2.state

/-- Whether an invariant is kept by each step of a replay between the calls in it. -/
structure KeptByReplays (I : Invariant σ) : Prop where
  recompiled : ∀ {c : Context σ} {p}, I.holds c →
    Program.compileAt c.vocabulary c.program.source c.program.path c.program.depth = .ok p →
      I.Admits p
  tried : ∀ {c : Context σ}, I.holds c → I.holds c.tryReplay
  began : ∀ {c : Context σ} replay, I.holds c → I.holds (c.beginReplay replay)
  ended : ∀ {c : Context σ} before, I.holds c → I.holds (c.endReplay before)

/-- Whether an invariant is kept by each step between the calls of a pass; the handling of a
failure consists of several. -/
structure KeptBySteps (I : Invariant σ) : Prop extends I.KeptByTexts, I.KeptByReplays where
  failed : ∀ {c : Context σ} program position failure, I.holds c →
    I.holds (c.onSession (·.record (.failed program position failure)))
  reported : ∀ {c : Context σ} message, I.holds c →
    I.holds (c.onSession (·.record (.reported message)))

/-! ### Failures and replays -/

section Steps
variable {I : Invariant σ}

theorem keeps_failureValue (hI : I.KeptBySteps) (heading : Heading) (failure : Failure) :
    I.Keeps (Run.failureValue heading failure) := by
  intro c hc
  show I.holds (c.state.handleFailure heading failure).2
  unfold Context.handleFailure
  split
  · rename_i hook _
    exact I.remember (fun _ => (hook heading failure c.state.memory).2) hc
  · split
    · exact hc
    · exact hI.reported _ hc

/-- A replay keeps what each of its steps keeps. -/
theorem keeps_replay (hI : I.KeptByReplays) {program : Program σ} (hprogram : I.Admits program)
    (edition : Option Nat) (position : Nat) (function : String) :
    I.Keeps (Run.replay program edition position function) := by
  apply (I.keeps_modify fun _ => hI.tried).bind
  intro _ c hc
  rw [Timed.bind_some (Timed.get_apply c)]
  dsimp only
  cases hwhole : Program.compileAt c.state.vocabulary c.state.program.source c.state.program.path
    c.state.program.depth with
  | error e => exact hc
  | ok whole =>
    have hadmits := hI.recompiled hc hwhole
    dsimp only
    split
    · exact hc
    · have hfailed : ∀ i ∈ (if (edition == some c.state.edition) = true then whole.invocations
          else program.invocations), I.Keeps i.execute := by
        intro i hi
        split at hi
        · exact hadmits.keeps_execute hi
        · exact hprogram.keeps_execute hi
      -- However the replay ends, even if it is abandoned, the session is told.
      exact hI.ended _ (keeps_replayProgram hadmits hfailed position _ _ (hI.began _ hc))

/-- Handling a failure keeps what each of its steps keeps. -/
theorem keeps_afterFailure (hI : I.KeptBySteps) {program : Program σ}
    (hprogram : I.Admits program) (edition : Option Nat) (position : Nat) (heading : Heading)
    (failure : Failure) :
    I.Keeps (Run.afterFailure program edition position heading failure) := by
  apply (I.keeps_modify fun _ => hI.failed _ position failure).bind
  intro _
  apply (keeps_failureValue hI heading failure).bind
  intro value
  apply I.keeps_get.bind
  intro c
  split
  · have hreplay := keeps_replay hI.toKeptByReplays hprogram edition position heading.name
    exact hreplay.bind fun _ => I.keeps_pure _
  · exact I.keeps_pure _

/-- What each step keeps, passes keep. -/
theorem KeptBySteps.keptByPasses (hI : I.KeptBySteps) : I.KeptByPasses where
  toKeptByTexts := hI.toKeptByTexts
  afterFailure edition hprogram _ _ hc := keeps_afterFailure hI hprogram edition _ _ _ _ hc

end Steps

section Passes
variable {ι : Type} {I : Invariant σ}

/-! ### Passes -/

theorem settles_passFrom (hI : I.KeptByPasses) {E : Nat → ι → Json → Run σ Json}
    {expand : Json → Run σ Json} (hexpand : ∀ v, I.Settles (fun fuel i => E fuel i v) (expand v))
    {program : Program σ} (hprogram : I.Admits program) (edition : Option Nat) (position : Nat)
    (is : List (Invocation σ)) (his : program.invocations.drop position = is) :
    I.Settles (fun fuel j => Run.passFrom (E fuel j) program edition position is)
      (Run.passFrom expand program edition position is) := by
  induction is generalizing position with
  | nil => exact settles_pure _
  | cons i is ih =>
    have hi : program.invocations[position]? = some i := by rw [← List.head?_drop, his]; rfl
    have hrest := ih (position + 1) (by rw [← List.tail_drop, his]; rfl)
    simp only [Run.passFrom]
    intro c hc
    have hexecute := (hprogram.keeps_execute (List.mem_of_getElem? hi)).settles (ι := ι) c hc
    apply hexecute.bind
    intro result d hresult hd
    rcases result with fault | v | failure | v | _
    · exact settles_pure _ d hd
    · dsimp only
      cases v.isNull with
      | true =>
        refine hrest.bind (fun flow => ?_) d hd
        rcases flow with _ | _ | _ | _ <;> exact settles_pure _
      | false =>
        refine (hexpand v).bind (fun value => hrest.bind fun flow => ?_) d hd
        rcases flow with _ | _ | _ | _ <;> exact settles_pure _
    · have hafter : I.SettlesAt
          (fun _ (_ : ι) => Run.afterFailure program edition position i.heading failure)
          (Run.afterFailure program edition position i.heading failure) d :=
        ⟨hI.afterFailure edition hprogram hi hresult hd, 0, fun _ _ _ => rfl⟩
      apply hafter.bind
      intro value e _ he
      refine hrest.bind (fun flow => ?_) e he
      rcases flow with _ | _ | _ | _ <;> exact settles_pure _
    · exact settles_pure _ d hd
    · exact settles_pure _ d hd

/-- **A pass settles when the expansion of values does.** -/
theorem settles_pass (hI : I.KeptByPasses) {E : Nat → ι → Json → Run σ Json}
    {expand : Json → Run σ Json} (hexpand : ∀ v, I.Settles (fun fuel i => E fuel i v) (expand v))
    {program : Program σ} (hprogram : I.Admits program) (edition : Option Nat) :
    I.Settles (fun fuel j => Run.pass (E fuel j) program edition)
      (Run.pass expand program edition) :=
  settles_passFrom hI hexpand hprogram edition 0 program.invocations rfl

/-! ### Expansions -/

mutual

/-- Replacing the strings of a value settles when that of each string does. -/
theorem settles_eachString {F : Nat → ι → String → Run σ Json} {f : String → Run σ Json}
    (v : Json) (hf : ∀ s ∈ v.strings, I.Settles (fun fuel i => F fuel i s) (f s)) :
    I.Settles (fun fuel i => v.eachString (F fuel i)) (v.eachString f) := by
  match v with
  | .null => exact settles_pure _
  | .bool _ => exact settles_pure _
  | .number _ => exact settles_pure _
  | .string s => exact hf s (by simp [Json.strings])
  | .array items =>
    rw [Json.strings] at hf
    simp only [Json.eachString]
    exact (settles_eachStringOfItems items hf).map
  | .object entries =>
    rw [Json.strings] at hf
    simp only [Json.eachString]
    exact (settles_eachStringOfEntries entries hf).map

theorem settles_eachStringOfItems {F : Nat → ι → String → Run σ Json} {f : String → Run σ Json}
    (vs : List Json)
    (hf : ∀ s ∈ Json.stringsOfItems vs, I.Settles (fun fuel i => F fuel i s) (f s)) :
    I.Settles (fun fuel i => Json.eachStringOfItems (F fuel i) vs)
      (Json.eachStringOfItems f vs) := by
  match vs with
  | [] => exact settles_pure _
  | v :: vs =>
    rw [Json.stringsOfItems, List.forall_mem_append] at hf
    simp only [Json.eachStringOfItems]
    exact (settles_eachString v hf.1).bind fun _ => (settles_eachStringOfItems vs hf.2).map

theorem settles_eachStringOfEntries {F : Nat → ι → String → Run σ Json}
    {f : String → Run σ Json} (vs : List (String × Json))
    (hf : ∀ s ∈ Json.stringsOfEntries vs, I.Settles (fun fuel i => F fuel i s) (f s)) :
    I.Settles (fun fuel i => Json.eachStringOfEntries (F fuel i) vs)
      (Json.eachStringOfEntries f vs) := by
  match vs with
  | [] => exact settles_pure _
  | (k, v) :: vs =>
    rw [Json.stringsOfEntries, List.forall_mem_append] at hf
    simp only [Json.eachStringOfEntries]
    exact (settles_eachString v hf.1).bind fun _ => (settles_eachStringOfEntries vs hf.2).map

end

theorem settles_expandString {T : Nat → ι → String → Run σ String} {text : String → Run σ String}
    (htext : ∀ s, I.Settles (fun fuel i => T fuel i s) (text s)) (room : Nat) (s : String) :
    I.Settles (fun fuel i => Run.expandString (T fuel i) room s)
      (Run.expandString text room s) := by
  induction room generalizing s with
  | zero => exact settles_pure _
  | succ room ih =>
    simp only [Run.expandString]
    split
    · exact settles_pure _
    · cases Json.containerIn s with
      | some v => exact (settles_eachString v fun s _ => ih s).map
      | none => exact (htext s).map

/-- **The expansion of values settles when that of texts does.** -/
theorem settles_expandWith {T : Nat → ι → String → Run σ String} {text : String → Run σ String}
    (htext : ∀ s, I.Settles (fun fuel i => T fuel i s) (text s)) (v : Json) :
    I.Settles (fun fuel i => Run.expandWith (T fuel i) v) (Run.expandWith text v) := by
  apply Settles.get_bind
  intro c hc
  cases c.state.settings.expand with
  | true => exact settles_eachString v (fun s _ => settles_expandString htext _ s) c hc
  | false => exact settles_pure v c hc

theorem settles_passOver (hI : I.KeptByPasses) {E : Nat → ι → Json → Run σ Json}
    {expand : Json → Run σ Json} (hexpand : ∀ v, I.Settles (fun fuel i => E fuel i v) (expand v))
    (s : String) {program : Program σ} (hprogram : I.Admits program) :
    I.Settles (fun fuel i => Run.passOver (E fuel i) s program)
      (Run.passOver expand s program) := by
  refine (settles_pass hI hexpand hprogram none).bind fun flow => ?_
  rcases flow with _ | _ | _ | _ <;> exact settles_pure _

/-- **The run of a text settles when the expansion of the values of its program does.** -/
theorem settles_runText (hI : I.KeptByPasses) {E : Nat → ι → Json → Run σ Json}
    {expand : Json → Run σ Json} (hexpand : ∀ v, I.Settles (fun fuel i => E fuel i v) (expand v))
    (depth : Nat) (s : String) :
    I.Settles (fun fuel i => Run.runText (E fuel i) depth s) (Run.runText expand depth s) := by
  apply Settles.get_bind
  intro c hc
  rcases hp : Program.compileValue c.state.vocabulary s c.state.program.path depth
    c.state.settings.maxDepth with e | _ | program
  · exact settles_pure s c hc
  · exact settles_pure s c hc
  · dsimp only
    cases program.invocations.isEmpty with
    | true => exact settles_pure s c hc
    | false =>
      have hnoted : I.SettlesAt (fun _ (_ : ι) => Run.record _) (Run.record _) c :=
        ⟨hI.expanded hc hp, 0, fun _ _ _ => rfl⟩
      apply hnoted.bind
      intro _ d _ hd
      exact settles_passOver hI hexpand s (hI.compiled hc hp) d hd

/-- **Expanding a text keeps an invariant**, whatever it finds in it. -/
theorem keeps_expandText (hI : I.KeptByPasses) (levels depth : Nat) (s : String) :
    I.Keeps (Run.expandText levels depth s) := by
  induction levels generalizing depth s with
  | zero => exact I.keeps_pure s
  | succ levels ih =>
    have hexpand (v : Json) : I.Keeps (Run.expandWith (Run.expandText levels (depth + 1)) v) :=
      (settles_expandWith (ι := Unit) (fun s => (ih (depth + 1) s).settles) v).keeps
    exact (settles_runText (ι := Unit) hI (fun v => (hexpand v).settles) depth s).keeps

theorem keeps_expandTextAt (hI : I.KeptByPasses) (depth : Nat) (s : String) :
    I.Keeps (Run.expandTextAt depth s) :=
  I.keeps_get.bind fun c => keeps_expandText hI (c.settings.maxDepth - depth) depth s

theorem keeps_expandAt (hI : I.KeptByPasses) (depth : Nat) (v : Json) :
    I.Keeps (Run.expandAt depth v) :=
  (settles_expandWith (ι := Unit) (fun s => (keeps_expandTextAt hI depth s).settles) v).keeps

end Passes

end Invariant

end TagTemplate
