import TagTemplate.Proofs.Run.Passes
import TagTemplate.Run.Whole

/-! What deliveries and whole runs cannot break.

A delivery expands the parts of the container in the texts that are shown, and sends it. Its
steps are few: the text is filled in, the elements of a part are taken out and put back, and
the container is sent. `Invariant.KeptByDelivery` says that they keep an invariant. Together
with what passes keep this covers all that a run does: `Invariant.settles_wholeBy`, and
`Invariant.holds_run` for the context that a run leaves behind.

As with passes, the rules speak of families that settle. -/
namespace TagTemplate

namespace Invariant
variable {σ ι : Type} {I : Invariant σ}

/-! ### Parts of the container -/

section Parts
variable {E : Nat → ι → Json → Run σ Json} {expand : Json → Run σ Json}

section Keys
variable (hexpand : ∀ v, I.Settles (fun fuel i => E fuel i v) (expand v))
include hexpand

theorem settles_expandEntries (keys : List String) (entries : List (String × Json)) :
    I.Settles (fun fuel i => Run.expandEntries (E fuel i) keys entries)
      (Run.expandEntries expand keys entries) := by
  induction entries with
  | nil => exact settles_pure _
  | cons entry rest ih =>
    obtain ⟨k, v⟩ := entry
    simp only [Run.expandEntries]
    split
    · exact (hexpand v).bind fun _ => ih.map
    · exact (settles_pure v).bind fun _ => ih.map

theorem settles_expandKeys (keys : List String) (v : Json) :
    I.Settles (fun fuel i => Run.expandKeys (E fuel i) keys v) (Run.expandKeys expand keys v) := by
  cases v with
  | object entries => exact (settles_expandEntries hexpand keys entries).map
  | _ => exact settles_pure _

end Keys

mutual

theorem settles_expandComponent (hexpand : ∀ v, I.Settles (fun fuel i => E fuel i v) (expand v))
    (v : Json) :
    I.Settles (fun fuel i => Run.expandComponent (E fuel i) v) (Run.expandComponent expand v) := by
  match v with
  | .null => exact settles_pure _
  | .bool _ => exact settles_pure _
  | .number _ => exact settles_pure _
  | .string _ => exact settles_pure _
  | .array items =>
    simp only [Run.expandComponent]
    exact (settles_expandComponents hexpand items).map
  | .object entries =>
    simp only [Run.expandComponent]
    exact (settles_expandComponentEntries hexpand entries).map

theorem settles_expandComponents (hexpand : ∀ v, I.Settles (fun fuel i => E fuel i v) (expand v))
    (vs : List Json) :
    I.Settles (fun fuel i => Run.expandComponents (E fuel i) vs)
      (Run.expandComponents expand vs) := by
  match vs with
  | [] => exact settles_pure _
  | v :: vs =>
    simp only [Run.expandComponents]
    exact (settles_expandComponent hexpand v).bind fun _ =>
      (settles_expandComponents hexpand vs).map

theorem settles_expandComponentEntries
    (hexpand : ∀ v, I.Settles (fun fuel i => E fuel i v) (expand v))
    (entries : List (String × Json)) :
    I.Settles (fun fuel i => Run.expandComponentEntries (E fuel i) entries)
      (Run.expandComponentEntries expand entries) := by
  match entries with
  | [] => exact settles_pure _
  | (k, .array items) :: rest =>
    have hrest := settles_expandComponentEntries hexpand rest
    simp only [Run.expandComponentEntries]
    split
    · exact (settles_expandComponents hexpand items).bind fun _ => hrest.map
    · split
      · exact (settles_each (settles_expandKeys hexpand _) items).bind fun _ => hrest.map
      · exact (settles_pure items).bind fun _ => hrest.map
  | (k, .string s) :: rest =>
    have hrest := settles_expandComponentEntries hexpand rest
    simp only [Run.expandComponentEntries]
    split
    · exact (hexpand (.string s)).bind fun _ => hrest.map
    · exact (settles_pure (Json.string s)).bind fun _ => hrest.map
  | (k, .null) :: rest =>
    simp only [Run.expandComponentEntries]
    exact (settles_expandComponentEntries hexpand rest).map
  | (k, .bool _) :: rest =>
    simp only [Run.expandComponentEntries]
    exact (settles_expandComponentEntries hexpand rest).map
  | (k, .number _) :: rest =>
    simp only [Run.expandComponentEntries]
    exact (settles_expandComponentEntries hexpand rest).map
  | (k, .object _) :: rest =>
    simp only [Run.expandComponentEntries]
    exact (settles_expandComponentEntries hexpand rest).map

end

theorem settles_onKey {F : Nat → ι → Json → Run σ Json} {f : Json → Run σ Json}
    (hf : ∀ v, I.Settles (fun fuel i => F fuel i v) (f v)) (key : String)
    (entries : List (String × Json)) :
    I.Settles (fun fuel i => Run.onKey (F fuel i) key entries) (Run.onKey f key entries) := by
  unfold Run.onKey
  cases Keyed.get? key entries with
  | none => exact settles_pure _
  | some v => exact (hf v).map

variable (hexpand : ∀ v, I.Settles (fun fuel i => E fuel i v) (expand v))
include hexpand

theorem settles_expandModal (modal : Json) :
    I.Settles (fun fuel i => Run.expandModal (E fuel i) modal) (Run.expandModal expand modal) := by
  refine (settles_expandKeys hexpand Run.modalKeys modal).bind fun modal => ?_
  cases modal with
  | object entries => exact (settles_onKey (settles_expandComponent hexpand) _ entries).map
  | _ => exact settles_pure _

theorem settles_expandAnswers (v : Json) :
    I.Settles (fun fuel i => Run.expandAnswers (E fuel i) v) (Run.expandAnswers expand v) := by
  cases v with
  | array answers => exact (settles_each (settles_expandKeys hexpand _) answers).map
  | _ => exact settles_pure _

theorem settles_expandPoll (poll : Json) :
    I.Settles (fun fuel i => Run.expandPoll (E fuel i) poll) (Run.expandPoll expand poll) := by
  cases poll with
  | object entries =>
    refine (settles_onKey (settles_expandKeys hexpand _) _ entries).bind fun entries => ?_
    exact (settles_onKey (settles_expandAnswers hexpand) _ entries).map
  | _ => exact settles_pure _

theorem settles_expandShown (s : String) :
    I.Settles (fun fuel i => Run.expandShown (E fuel i) s) (Run.expandShown expand s) :=
  (hexpand (.string s)).map

theorem settles_expandAttachment (a : Attachment) :
    I.Settles (fun fuel i => Run.expandAttachment (E fuel i) a)
      (Run.expandAttachment expand a) := by
  refine (settles_expandShown hexpand a.name).bind fun name => ?_
  cases a.description with
  | none => exact (settles_pure none).bind fun _ => settles_pure _
  | some d =>
    exact (settles_expandShown hexpand d).bind fun _ =>
      (settles_pure (some _)).bind fun _ => settles_pure _

end Parts

/-! ### Deliveries -/

/-- Whether an invariant is kept when the text is filled in and when the container is
sent. -/
structure KeptBySending (I : Invariant σ) : Prop where
  content : ∀ {c : Context σ} text, I.holds c →
    I.holds (c.onSession fun s => { s with container := { s.container with content := some text } })
  sent : ∀ {c : Context σ}, I.holds c → I.holds (c.onSession fun s => s.record (.sent s.container))

/-- Whether an invariant is kept by each step of a delivery. -/
structure KeptByDelivery (I : Invariant σ) : Prop extends I.KeptBySending where
  taken : ∀ {c : Context σ} part (container : Container → Container), I.holds c →
    I.holds (c.onSession fun s =>
      { s.record (.taken part) with container := container s.container })
  stored : ∀ {c : Context σ} part (container : Container → Container), I.holds c →
    I.holds (c.onSession fun s =>
      { s.record (.stored part) with container := container s.container })

theorem settles_onPart (hI : I.KeptByDelivery) {α : Type} (part : Container.Part)
    (get : Container → List α) (put : List α → Container → Container)
    {F : Nat → ι → α → Run σ α} {f : α → Run σ α}
    (hf : ∀ a, I.Settles (fun fuel i => F fuel i a) (f a)) :
    I.Settles (fun fuel i => Run.onPart part get put (F fuel i)) (Run.onPart part get put f) := by
  apply Settles.get_bind
  intro c hc
  have htaken : I.Keeps (Timed.modify (·.onSession fun s : Session =>
      { s.record (.taken part) with container := put [] s.container })) :=
    I.keeps_modify fun _ => hI.taken part (put [])
  have hstored (items : List α) : I.Keeps (Timed.modify (·.onSession fun s : Session =>
      { s.record (.stored part) with container := put items s.container })) :=
    I.keeps_modify fun _ => hI.stored part (put items)
  have hitems := settles_eachWithin hf c.state.settings.elementTimeout
    (get c.state.session.container)
  exact htaken.settles.bind (fun _ => hitems.bind fun items => (hstored items).settles) c hc

/-- Expanding the parts of the container settles when the expansion of values does. -/
theorem settles_expandContainer (hI : I.KeptByDelivery) {E : Nat → ι → Nat → Json → Run σ Json}
    {expandAt : Nat → Json → Run σ Json}
    (hexpand : ∀ depth v, I.Settles (fun fuel i => E fuel i depth v) (expandAt depth v)) :
    I.Settles (fun fuel i => Run.expandContainer (E fuel i)) (Run.expandContainer expandAt) := by
  apply Settles.get_bind
  intro c hc
  have hvalue := hexpand c.state.program.depth
  cases c.state.settings.expand with
  | false => exact settles_pure () c hc
  | true =>
    exact ((settles_onPart hI _ _ _ hvalue).bind fun _ =>
      (settles_onPart hI _ _ _ (settles_expandComponent hvalue)).bind fun _ =>
      (settles_onPart hI _ _ _ (settles_expandAttachment hvalue)).bind fun _ =>
      (settles_onPart hI _ _ _ (settles_expandModal hvalue)).bind fun _ =>
      (settles_onPart hI _ _ _ (settles_expandPoll hvalue)).bind fun _ =>
      (settles_onPart hI _ _ _ (settles_expandShown hvalue)).bind fun _ =>
      (settles_onPart hI _ _ _ (settles_expandShown hvalue)).bind fun _ =>
      settles_onPart hI _ _ _ (settles_expandShown hvalue)) c hc

theorem keeps_send (hI : I.KeptBySending) : I.Keeps Run.send := by
  intro c hc
  rw [Run.send, Timed.bind_some (Timed.get_apply c)]
  cases c.state.target with
  | none => exact hc
  | some target =>
    exact hI.sent (I.remember (fun memory => (target c.state.session.container memory).2) hc)

theorem settles_deliver (hI : I.KeptBySending) {E : Nat → ι → Nat → Json → Run σ Json}
    {expandAt : Nat → Json → Run σ Json}
    (hparts : I.Settles (fun fuel i => Run.expandContainer (E fuel i))
      (Run.expandContainer expandAt)) (text : String) :
    I.Settles (fun fuel i => Run.deliver (E fuel i) text) (Run.deliver expandAt text) :=
  (I.keeps_modify fun _ => hI.content text).settles.bind fun _ =>
    hparts.bind fun _ => (keeps_send hI).settles

/-! ### Whole runs -/

section Whole
variable {E : Nat → ι → Nat → Json → Run σ Json} {T : Nat → ι → Nat → String → Run σ String}
  {expandAt : Nat → Json → Run σ Json} {textAt : Nat → String → Run σ String}

theorem settles_concludeBy
    (htext : ∀ depth s c, I.holds c.state → c.state.settings.expand = true →
      I.SettlesAt (fun fuel i => T fuel i depth s) (textAt depth s) c)
    (hdeliver : ∀ text, I.Settles (fun fuel i => Run.deliver (E fuel i) text)
      (Run.deliver expandAt text)) (program : Program σ) (values : List Json) :
    I.Settles (fun fuel i => Run.concludeBy (E fuel i) (T fuel i) program values)
      (Run.concludeBy expandAt textAt program values) := by
  have hend (text : String) : I.Settles
      (fun fuel i => do
        let c ← Timed.get
        if c.withheld then return text
        else
          Run.deliver (E fuel i) text
          return text)
      (do
        let c ← Timed.get
        if c.withheld then return text
        else
          Run.deliver expandAt text
          return text) := by
    apply Settles.get_bind
    intro c hc
    cases c.state.withheld with
    | true => exact settles_pure text c hc
    | false => exact (hdeliver text).bind (fun _ => settles_pure text) c hc
  apply Settles.get_bind
  intro c hc
  dsimp only
  split
  · rename_i hlook
    rw [Bool.and_eq_true] at hlook
    exact (htext program.depth _ c hc hlook.1).bind fun text d _ hd => hend text d hd
  · exact (settles_pure _).bind hend c hc

/-- **A whole run settles when its expansions do**, as long as its deliveries do. -/
theorem settles_wholeBy (hI : I.KeptByPasses)
    (hexpand : ∀ depth v, I.Settles (fun fuel i => E fuel i depth v) (expandAt depth v))
    (htext : ∀ depth s c, I.holds c.state → c.state.settings.expand = true →
      I.SettlesAt (fun fuel i => T fuel i depth s) (textAt depth s) c)
    (hdeliver : ∀ text, I.Settles (fun fuel i => Run.deliver (E fuel i) text)
      (Run.deliver expandAt text)) :
    I.Settles (fun fuel i => Run.wholeBy (E fuel i) (T fuel i))
      (Run.wholeBy expandAt textAt) := by
  apply Settles.get_bind
  intro c hc
  cases c.state.passesGates with
  | false => exact settles_pure none c hc
  | true =>
    have hpass := settles_pass hI (hexpand c.state.program.depth) (hI.root hc)
      (some c.state.edition)
    refine hpass.bind (fun flow => ?_) c hc
    rcases flow with _ | values | _ | _
    · exact settles_pure none
    · exact (settles_concludeBy htext hdeliver c.state.program values).map
    · exact settles_pure _
    · exact settles_pure none

end Whole

/-- **A run keeps an invariant** that its passes and its delivery keep. -/
theorem holds_run (hI : I.KeptByPasses)
    (hdeliver : ∀ text, I.Keeps (Run.deliver Run.expandAt text)) {c : Context σ}
    (hc : I.holds c) : I.holds c.run.2 := by
  have hwhole : I.Keeps Run.whole :=
    (settles_wholeBy (ι := Unit) hI (fun depth v => (keeps_expandAt hI depth v).settles)
      (fun depth s c hc _ => (keeps_expandTextAt hI depth s).settles c hc)
      fun text => (hdeliver text).settles).keeps
  exact hwhole ⟨none, c⟩ hc

/-- Delivering a text keeps an invariant that passes and the steps of a delivery keep. -/
theorem keeps_deliver (hI : I.KeptByPasses) (hI' : I.KeptByDelivery) (text : String) :
    I.Keeps (Run.deliver Run.expandAt text) := by
  have hparts := settles_expandContainer (ι := Unit) hI' fun depth v =>
    (keeps_expandAt hI depth v).settles
  exact (settles_deliver hI'.toKeptBySending hparts text).keeps

/-! ### Settings -/

/-- Nothing in a run changes the settings. -/
def settings (σ : Type) (s : Settings) : Invariant σ where
  holds c := c.settings = s
  allows _ := True
  remember _ h := h
  assign _ _ h := h
  edit _ h := h
  swap _ h := h
  entered _ h := h
  called _ _ h := h

theorem keptBySteps_settings (s : Settings) : (settings σ s).KeptBySteps where
  root _ _ _ := trivial
  compiled _ _ _ _ := trivial
  expanded h _ := h
  recompiled _ _ _ _ := trivial
  failed _ _ _ h := h
  reported _ h := h
  tried h := h
  began _ h := h
  ended _ h := h

theorem keptByDelivery_settings (s : Settings) : (settings σ s).KeptByDelivery where
  content _ h := h
  sent h := h
  taken _ _ h := h
  stored _ _ h := h

end Invariant

/-- The run of a context, given how values and texts are expanded. -/
def Context.runBy {σ : Type} (expandAt : Nat → Json → Run σ Json)
    (textAt : Nat → String → Run σ String) (c : Context σ) : Option String × Context σ :=
  let (result, after) := Run.wholeBy expandAt textAt ⟨none, c⟩
  (result.join, after.state)

/-- **A run is that of any family of expansions that settles on its own**, with enough
fuel. -/
theorem Context.runBy_settles {σ ι : Type} (c : Context σ) {E : Nat → ι → Nat → Json → Run σ Json}
    {T : Nat → ι → Nat → String → Run σ String}
    (hexpand : ∀ depth v, (Invariant.settings σ c.settings).Settles
      (fun fuel i => E fuel i depth v) (Run.expandAt depth v))
    (htext : ∀ depth s d, d.state.settings = c.settings → c.settings.expand = true →
      (Invariant.settings σ c.settings).SettlesAt (fun fuel i => T fuel i depth s)
        (Run.expandTextAt depth s) d) :
    ∃ enough, ∀ fuel, enough ≤ fuel → ∀ i, c.runBy (E fuel i) (T fuel i) = c.run := by
  have hpasses := (Invariant.keptBySteps_settings (σ := σ) c.settings).keptByPasses
  have hdelivery := Invariant.keptByDelivery_settings (σ := σ) c.settings
  have hdeliver := Invariant.settles_deliver hdelivery.toKeptBySending
    (Invariant.settles_expandContainer hdelivery hexpand)
  have hwhole := Invariant.settles_wholeBy hpasses hexpand
    (fun depth s d hd hon => htext depth s d hd (hd ▸ hon)) hdeliver
  obtain ⟨-, enough, hequal⟩ := hwhole ⟨none, c⟩ rfl
  refine ⟨enough, fun fuel hfuel i => ?_⟩
  rw [runBy, hequal fuel hfuel i]
  rfl

end TagTemplate
