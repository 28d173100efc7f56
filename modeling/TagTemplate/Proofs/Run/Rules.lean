import TagTemplate.Run.Whole

/-! Rules for the expansion of values.

Values, texts and the parts of a container are all expanded by putting actions together in a
few ways: one after another, by what the context holds, under a deadline, and by running a
text. A predicate on actions that has a rule for each of these, `Run.Rules`, holds for all
that a run does to values and parts, however deep it goes: `Run.Rules.expandAt` and
`Run.Rules.expandContainer`. -/
namespace TagTemplate.Run
variable {σ α β : Type}

/-- The rules by which a predicate on actions is passed on from those that expand texts to all
that are put together of them. -/
structure Rules (P : (α : Type) → Run σ α → Prop) : Prop where
  pure : ∀ {α : Type} (a : α), P α (pure a)
  bind : ∀ {α β : Type} {x : Run σ α} {f : α → Run σ β}, P α x → (∀ a, P β (f a)) → P β (x >>= f)
  /-- An action may go by the program, the settings and the session. -/
  reads : ∀ {β : Type} {f : Context σ → Run σ β},
    (∀ c d : Context σ, c.program = d.program → c.settings = d.settings → c.session = d.session →
      f c = f d) → (∀ c, P β (f c)) → P β (Timed.get >>= f)
  within : ∀ {α : Type} {x : Run σ α} (deadline : Nat), P α x →
    P (Option α) (Timed.within deadline x)
  taken : ∀ part (change : Container → Container), P Unit (Timed.modify (·.onSession fun s =>
    { s.record (.taken part) with container := change s.container }))
  stored : ∀ part (change : Container → Container), P Unit (Timed.modify (·.onSession fun s =>
    { s.record (.stored part) with container := change s.container }))
  /-- A text may be run if the values of its program may be expanded. -/
  text : ∀ {levels depth : Nat},
    (∀ v, P Json (expandWith (expandText levels (depth + 1)) v)) →
      ∀ s, P String (expandText (levels + 1) depth s)

namespace Rules
variable {P : (α : Type) → Run σ α → Prop} (hP : Rules P)
include hP

theorem map {x : Run σ α} (hx : P α x) (g : α → β) : P β (do return g (← x)) :=
  hP.bind hx fun a => hP.pure (g a)

theorem each {f : α → Run σ β} (hf : ∀ a, P β (f a)) (as : List α) :
    P (List β) (Timed.each f as) := by
  induction as with
  | nil => exact hP.pure []
  | cons a as ih => exact hP.bind (hf a) fun b => hP.map ih (b :: ·)

theorem eachWithin {f : α → Run σ α} (hf : ∀ a, P α (f a)) (deadline : Nat) (as : List α) :
    P (List α) (Timed.eachWithin deadline f as) := by
  induction as with
  | nil => exact hP.pure []
  | cons a as ih => exact hP.bind (hP.within deadline (hf a)) fun b => hP.map ih (b.getD a :: ·)

/-! ### Values -/

mutual

theorem eachString {f : String → Run σ Json} (hf : ∀ s, P Json (f s)) (v : Json) :
    P Json (v.eachString f) := by
  match v with
  | .null => exact hP.pure _
  | .bool _ => exact hP.pure _
  | .number _ => exact hP.pure _
  | .string s => exact hf s
  | .array items =>
    simp only [Json.eachString]
    exact hP.map (eachStringOfItems hf items) _
  | .object entries =>
    simp only [Json.eachString]
    exact hP.map (eachStringOfEntries hf entries) _

theorem eachStringOfItems {f : String → Run σ Json} (hf : ∀ s, P Json (f s)) (vs : List Json) :
    P (List Json) (Json.eachStringOfItems f vs) := by
  match vs with
  | [] => exact hP.pure _
  | v :: vs =>
    simp only [Json.eachStringOfItems]
    exact hP.bind (eachString hf v) fun _ => hP.map (eachStringOfItems hf vs) _

theorem eachStringOfEntries {f : String → Run σ Json} (hf : ∀ s, P Json (f s))
    (vs : List (String × Json)) :
    P (List (String × Json)) (Json.eachStringOfEntries f vs) := by
  match vs with
  | [] => exact hP.pure _
  | (k, v) :: vs =>
    simp only [Json.eachStringOfEntries]
    exact hP.bind (eachString hf v) fun _ => hP.map (eachStringOfEntries hf vs) _

end

theorem expandString {text : String → Run σ String} (htext : ∀ s, P String (text s)) (fuel : Nat)
    (s : String) : P Json (Run.expandString text fuel s) := by
  induction fuel generalizing s with
  | zero => exact hP.pure _
  | succ fuel ih =>
    rw [Run.expandString]
    split
    · exact hP.pure _
    · split
      · exact hP.map (hP.eachString ih _) _
      · exact hP.map (htext s) _

theorem expandWith {text : String → Run σ String} (htext : ∀ s, P String (text s)) (v : Json) :
    P Json (Run.expandWith text v) := by
  refine hP.reads (fun c d _ hsettings _ => by rw [hsettings]) fun c => ?_
  split
  · exact hP.eachString (fun s => hP.expandString htext _ s) v
  · exact hP.pure _

/-- By induction on the depths that are left. -/
theorem expandText (levels depth : Nat) (s : String) :
    P String (Run.expandText levels depth s) := by
  induction levels generalizing depth s with
  | zero => exact hP.pure s
  | succ levels ih => exact hP.text (fun v => hP.expandWith (ih (depth + 1)) v) s

theorem expandTextAt (depth : Nat) (s : String) : P String (Run.expandTextAt depth s) :=
  hP.reads (fun c d _ hsettings _ => by rw [hsettings]) fun _ => hP.expandText _ depth s

/-- **What the rules pass on holds of every expansion of a value.** -/
theorem expandAt (depth : Nat) (v : Json) : P Json (Run.expandAt depth v) :=
  hP.expandWith (hP.expandTextAt depth) v

/-! ### Parts of the container -/

theorem onKey {f : Json → Run σ Json} (hf : ∀ v, P Json (f v)) (key : String)
    (entries : List (String × Json)) : P (List (String × Json)) (Run.onKey f key entries) := by
  unfold Run.onKey
  split
  · exact hP.pure _
  · exact hP.map (hf _) _

section Parts
variable {expand : Json → Run σ Json} (hexpand : ∀ v, P Json (expand v))
include hexpand

theorem expandEntries (keys : List String) (entries : List (String × Json)) :
    P (List (String × Json)) (Run.expandEntries expand keys entries) := by
  induction entries with
  | nil => exact hP.pure _
  | cons entry rest ih =>
    obtain ⟨k, v⟩ := entry
    rw [Run.expandEntries]
    split
    · exact hP.bind (hexpand v) fun _ => hP.map ih _
    · exact hP.bind (hP.pure v) fun _ => hP.map ih _

theorem expandKeys (keys : List String) (v : Json) : P Json (Run.expandKeys expand keys v) := by
  cases v with
  | object entries => exact hP.map (hP.expandEntries hexpand keys entries) _
  | _ => exact hP.pure _

end Parts

mutual

theorem expandComponent {expand : Json → Run σ Json} (hexpand : ∀ v, P Json (expand v))
    (v : Json) : P Json (Run.expandComponent expand v) := by
  match v with
  | .null => exact hP.pure _
  | .bool _ => exact hP.pure _
  | .number _ => exact hP.pure _
  | .string _ => exact hP.pure _
  | .array items =>
    simp only [Run.expandComponent]
    exact hP.map (expandComponents hexpand items) _
  | .object entries =>
    simp only [Run.expandComponent]
    exact hP.map (expandComponentEntries hexpand entries) _

theorem expandComponents {expand : Json → Run σ Json} (hexpand : ∀ v, P Json (expand v))
    (vs : List Json) : P (List Json) (Run.expandComponents expand vs) := by
  match vs with
  | [] => exact hP.pure _
  | v :: vs =>
    simp only [Run.expandComponents]
    exact hP.bind (expandComponent hexpand v) fun _ => hP.map (expandComponents hexpand vs) _

theorem expandComponentEntries {expand : Json → Run σ Json}
    (hexpand : ∀ v, P Json (expand v)) (entries : List (String × Json)) :
    P (List (String × Json)) (Run.expandComponentEntries expand entries) := by
  match entries with
  | [] => exact hP.pure _
  | (k, .array items) :: rest =>
    have hrest := expandComponentEntries hexpand rest
    simp only [Run.expandComponentEntries]
    split
    · exact hP.bind (expandComponents hexpand items) fun _ => hP.map hrest _
    · split
      · exact hP.bind (hP.each (hP.expandKeys hexpand _) items) fun _ => hP.map hrest _
      · exact hP.bind (hP.pure items) fun _ => hP.map hrest _
  | (k, .string s) :: rest =>
    have hrest := expandComponentEntries hexpand rest
    simp only [Run.expandComponentEntries]
    split
    · exact hP.bind (hexpand (.string s)) fun _ => hP.map hrest _
    · exact hP.bind (hP.pure (Json.string s)) fun _ => hP.map hrest _
  | (k, .null) :: rest | (k, .bool _) :: rest | (k, .number _) :: rest | (k, .object _) :: rest =>
    simp only [Run.expandComponentEntries]
    exact hP.map (expandComponentEntries hexpand rest) _

end

section Parts
variable {expand : Json → Run σ Json} (hexpand : ∀ v, P Json (expand v))
include hexpand

theorem expandModal (modal : Json) : P Json (Run.expandModal expand modal) := by
  refine hP.bind (hP.expandKeys hexpand Run.modalKeys modal) fun modal => ?_
  split
  · exact hP.map (hP.onKey (hP.expandComponent hexpand) _ _) _
  · exact hP.pure _

theorem expandAnswers (v : Json) : P Json (Run.expandAnswers expand v) := by
  cases v with
  | array answers => exact hP.map (hP.each (hP.expandKeys hexpand _) answers) _
  | _ => exact hP.pure _

theorem expandPoll (poll : Json) : P Json (Run.expandPoll expand poll) := by
  cases poll with
  | object entries =>
    refine hP.bind (hP.onKey (hP.expandKeys hexpand _) _ entries) fun entries => ?_
    exact hP.map (hP.onKey (hP.expandAnswers hexpand) _ entries) _
  | _ => exact hP.pure _

theorem expandShown (s : String) : P String (Run.expandShown expand s) :=
  hP.map (hexpand (.string s)) _

theorem expandAttachment (a : Attachment) : P Attachment (Run.expandAttachment expand a) := by
  refine hP.bind (hP.expandShown hexpand a.name) fun name => ?_
  cases a.description with
  | none => exact hP.bind (hP.pure none) fun _ => hP.pure _
  | some d =>
    exact hP.bind (hP.expandShown hexpand d) fun _ => hP.bind (hP.pure (some _)) fun _ => hP.pure _

end Parts

theorem onPart (part : Container.Part) (get : Container → List α)
    (put : List α → Container → Container) {f : α → Run σ α} (hf : ∀ a, P α (f a)) :
    P Unit (Run.onPart part get put f) := by
  refine hP.reads (fun c d _ hsettings hsession => by rw [hsettings, hsession]) fun c => ?_
  refine hP.bind (hP.taken part (put [])) fun _ => ?_
  exact hP.bind (hP.eachWithin hf _ _) fun items => hP.stored part (put items)

/-- **What the rules pass on holds of the expansion of all parts**, if it does of that of
values. -/
theorem expandContainer {expandAt : Nat → Json → Run σ Json}
    (hexpand : ∀ depth v, P Json (expandAt depth v)) : P Unit (Run.expandContainer expandAt) := by
  refine hP.reads (fun c d hprogram hsettings _ => by rw [hprogram, hsettings]) fun c => ?_
  have hvalue := hexpand c.program.depth
  split
  · exact hP.bind (hP.onPart _ _ _ hvalue) fun _ =>
      hP.bind (hP.onPart _ _ _ (hP.expandComponent hvalue)) fun _ =>
      hP.bind (hP.onPart _ _ _ (hP.expandAttachment hvalue)) fun _ =>
      hP.bind (hP.onPart _ _ _ (hP.expandModal hvalue)) fun _ =>
      hP.bind (hP.onPart _ _ _ (hP.expandPoll hvalue)) fun _ =>
      hP.bind (hP.onPart _ _ _ (hP.expandShown hvalue)) fun _ =>
      hP.bind (hP.onPart _ _ _ (hP.expandShown hvalue)) fun _ =>
      hP.onPart _ _ _ (hP.expandShown hvalue)
  · exact hP.pure ()

end Rules

end TagTemplate.Run
