import TagTemplate.Native.Builtin
import TagTemplate.Proofs.Json.Places
import TagTemplate.Proofs.Run.Quiet
import TagTemplate.Proofs.Run.Shapes

/-! Which texts of the parts of a container are expanded.

Embeds are expanded in full, but of components, modals and polls only the texts in certain
places. `Run.ComponentPlace`, `Run.ModalPlace` and `Run.PollPlace` are these places, and
`Run.Redone` says that the strings in them are what an expansion makes of them while all others
stay. So the parts of a container keep their shape, their keys and every other text, however
wrong the types in them are: `Run.parts_reshapedAt`. -/
namespace TagTemplate

/-- Whether all that an action can end with has a property. -/
def Timed.Gives {S α : Type} (x : Timed S α) (P : α → Prop) : Prop :=
  ∀ c a, (x c).1 = some a → P a

namespace Timed.Gives
variable {S α β : Type} {P : α → Prop} {Q : β → Prop}

theorem pure {a : α} (h : P a) : (Pure.pure a : Timed S α).Gives P := by
  intro _ _ heq
  cases heq
  exact h

theorem mono {P' : α → Prop} {x : Timed S α} (hx : x.Gives P) (h : ∀ a, P a → P' a) :
    x.Gives P' := fun c a ha => h a (hx c a ha)

theorem bind {x : Timed S α} {f : α → Timed S β} (hx : x.Gives P)
    (hf : ∀ a, P a → (f a).Gives Q) : (x >>= f).Gives Q := by
  intro c b heq
  obtain ⟨a, d, ha, hb⟩ := exists_of_bind heq
  exact hf a (hx c a (congrArg Prod.fst ha)) d b hb

/-- Mapping a list by an action keeps the shape of each item. -/
theorem each {f : Json → Timed S Json} {R : Json.Change}
    (hf : ∀ n v, (f v).Gives (v.ReshapedAt (R.behind (.item n)))) (index : Nat) (vs : List Json) :
    (Timed.each f vs).Gives (Json.ReshapedItemsAt R index vs) := by
  induction vs generalizing index with
  | nil => exact pure .nil
  | cons v vs ih =>
    refine (hf index v).bind fun w hw => ?_
    exact (ih (index + 1)).bind fun ws hws => pure (.cons hw hws)

/-- An entry whose value keeps its shape, before others. -/
theorem entry {x : Timed S α} {xs : Timed S (List (String × Json))} {R : Json.Change} {k : String}
    {v : Json} {vs : List (String × Json)} {f : α → Json}
    (hx : x.Gives fun a => v.ReshapedAt (R.behind (.key k)) (f a))
    (hxs : xs.Gives (Json.ReshapedEntriesAt R vs)) :
    (do let a ← x; let ws ← xs; Pure.pure ((k, f a) :: ws)).Gives
      (Json.ReshapedEntriesAt R ((k, v) :: vs)) :=
  hx.bind fun _ ha => hxs.bind fun _ hws => pure (.cons ha hws)

end Timed.Gives

namespace Run
open Json (Step)
variable {σ : Type}

/-! ### Places -/

/-- The places behind some keys of an object. -/
def KeyPlace (keys : List String) (place : List Step) : Prop := ∃ k ∈ keys, place = [.key k]

/-- The places of a component, or of an array of components, in which texts are expanded. -/
inductive ComponentPlace : List Step → Prop
  | text {place : List Step} (known : KeyPlace componentKeys place) : ComponentPlace place
  | option {n : Nat} {place : List Step} (known : KeyPlace optionKeys place) :
    ComponentPlace (.key "options" :: .item n :: place)
  | item {n : Nat} {place : List Step} (inner : ComponentPlace place) :
    ComponentPlace (.item n :: place)
  | child {n : Nat} {place : List Step} (inner : ComponentPlace place) :
    ComponentPlace (.key "components" :: .item n :: place)

/-- The places under a key of an object. -/
def Under (key : String) (places : List Step → Prop) (place : List Step) : Prop :=
  ∃ inner, place = .key key :: inner ∧ places inner

/-- The places in the items of an array. -/
def InItems (places : List Step → Prop) (place : List Step) : Prop :=
  ∃ n inner, place = .item n :: inner ∧ places inner

/-- The places of a modal in which texts are expanded. -/
def ModalPlace (place : List Step) : Prop :=
  KeyPlace modalKeys place ∨ Under "components" ComponentPlace place

/-- The places of a poll in which texts are expanded. -/
def PollPlace (place : List Step) : Prop :=
  Under "question" (KeyPlace ["text"]) place ∨ Under "answers" (InItems (KeyPlace ["text"])) place

@[simp] theorem keyPlace_nil (keys : List String) : ¬ KeyPlace keys [] := by
  rintro ⟨_, _, h⟩
  cases h

@[simp] theorem keyPlace_item (keys : List String) (n : Nat) (place : List Step) :
    ¬ KeyPlace keys (.item n :: place) := by
  rintro ⟨_, _, h⟩
  cases h

@[simp] theorem keyPlace_key (keys : List String) (k : String) (place : List Step) :
    KeyPlace keys (.key k :: place) ↔ k ∈ keys ∧ place = [] := by
  constructor
  · rintro ⟨k, hk, h⟩
    cases h
    exact ⟨hk, rfl⟩
  · rintro ⟨hk, rfl⟩
    exact ⟨k, hk, rfl⟩

@[simp] theorem under_nil (key : String) (places : List Step → Prop) : ¬ Under key places [] := by
  simp [Under]

@[simp] theorem under_item (key : String) (places : List Step → Prop) (n : Nat)
    (place : List Step) : ¬ Under key places (.item n :: place) := by
  simp [Under]

@[simp] theorem under_key (key : String) (places : List Step → Prop) (k : String)
    (place : List Step) : Under key places (.key k :: place) ↔ k = key ∧ places place := by
  constructor
  · rintro ⟨_, h, hplace⟩
    cases h
    exact ⟨rfl, hplace⟩
  · rintro ⟨rfl, hplace⟩
    exact ⟨place, rfl, hplace⟩

@[simp] theorem inItems_nil (places : List Step → Prop) : ¬ InItems places [] := by
  simp [InItems]

@[simp] theorem inItems_key (places : List Step → Prop) (k : String) (place : List Step) :
    ¬ InItems places (.key k :: place) := by
  simp [InItems]

@[simp] theorem inItems_item (places : List Step → Prop) (n : Nat) (place : List Step) :
    InItems places (.item n :: place) ↔ places place := by
  constructor
  · rintro ⟨_, _, h, hplace⟩
    cases h
    exact hplace
  · exact fun hplace => ⟨n, place, rfl, hplace⟩

@[simp] theorem componentPlace_nil : ¬ ComponentPlace [] := by
  rintro (h | _ | _ | _)
  exact keyPlace_nil _ h

@[simp] theorem componentPlace_item (n : Nat) (place : List Step) :
    ComponentPlace (.item n :: place) ↔ ComponentPlace place := by
  constructor
  · rintro (h | _ | h | _)
    · exact absurd h (keyPlace_item _ _ _)
    · exact h
  · exact .item

/-- A text of a component itself. -/
@[simp] theorem componentPlace_key (k : String) :
    ComponentPlace [.key k] ↔ k ∈ componentKeys := by
  constructor
  · rintro (h | _ | _ | _)
    exact ((keyPlace_key _ _ _).1 h).1
  · exact fun h => .text ((keyPlace_key _ _ _).2 ⟨h, rfl⟩)

/-- No text of an object that stands under a key is expanded. -/
@[simp] theorem componentPlace_key_key (k l : String) (place : List Step) :
    ¬ ComponentPlace (.key k :: .key l :: place) := by
  rintro (h | _ | _ | _)
  cases ((keyPlace_key _ _ _).1 h).2

/-- The texts of arrays that stand under a key: those of options and of nested components. -/
@[simp] theorem componentPlace_key_item (k : String) (n : Nat) (place : List Step) :
    ComponentPlace (.key k :: .item n :: place) ↔
      k = "options" ∧ KeyPlace optionKeys place ∨ k = "components" ∧ ComponentPlace place := by
  constructor
  · rintro (h | h | _ | h)
    · cases ((keyPlace_key _ _ _).1 h).2
    · exact .inl ⟨rfl, h⟩
    · exact .inr ⟨rfl, h⟩
  · rintro (⟨rfl, h⟩ | ⟨rfl, h⟩)
    · exact .option h
    · exact .child h

/-! ### Strings that are expanded -/

/-- Whether the strings in some places are what an expansion makes of them, and the others
stay. -/
def Redone (expand : Json → Run σ Json) (places : List Step → Prop) : Json.Change :=
  fun place s t =>
    (places place → ∃ c, (expand (.string s) c).1 = some (.string t)) ∧ (¬ places place → t = s)

section
variable {expand : Json → Run σ Json} {places places' : List Step → Prop}

/-- Outside of the places a value stays. -/
theorem redone_self (v : Json) (hstring : ∀ s, v = .string s → ¬ places [])
    (hitem : ∀ vs, v = .array vs → ∀ n place, ¬ places (.item n :: place))
    (hkey : ∀ vs, v = .object vs → ∀ k place, ¬ places (.key k :: place)) :
    v.ReshapedAt (Redone expand places) v := by
  have hself {place : List Step} (s : String) (h : ¬ places place) :
      Redone expand places place s s := ⟨fun hplace => absurd hplace h, fun _ => rfl⟩
  match v with
  | .null => exact .null
  | .bool b => exact .bool b
  | .number n => exact .number n
  | .string s => exact .string (hself s (hstring s rfl))
  | .array vs =>
    exact .array (Json.reshapedItemsAt_self vs fun n place s => hself s (hitem vs rfl n place))
  | .object vs =>
    exact .object (Json.reshapedEntriesAt_self vs fun k _ place s => hself s (hkey vs rfl k place))

theorem Redone.congr {place place' : List Step} {s t : String} (h : Redone expand places place s t)
    (hplaces : places place ↔ places' place') : Redone expand places' place' s t :=
  ⟨fun hplace => h.1 (hplaces.2 hplace), fun hnot => h.2 fun hplace => hnot (hplaces.1 hplace)⟩

variable (hexpand : ∀ s, (expand (.string s)).Gives fun w => ∃ t, w = .string t)
include hexpand

/-- A string that is expanded becomes a string. -/
theorem gives_expand (s : String) (h : places []) :
    (expand (.string s)).Gives ((Json.string s).ReshapedAt (Redone expand places)) := by
  intro c w hw
  obtain ⟨t, rfl⟩ := hexpand s c w hw
  exact .string ⟨fun _ => ⟨c, hw⟩, fun hnot => absurd h hnot⟩

theorem gives_expandEntries (keys : List String) (entries : List (String × Json)) :
    (expandEntries expand keys entries).Gives
      (Json.ReshapedEntriesAt (Redone expand (KeyPlace keys)) entries) := by
  induction entries with
  | nil => exact .pure .nil
  | cons entry rest ih =>
    obtain ⟨k, v⟩ := entry
    rw [expandEntries]
    split
    · rename_i hknown
      rw [Bool.and_eq_true, List.contains_iff_mem] at hknown
      refine .entry ?_ ih
      cases v with
      | string s => exact gives_expand hexpand s ((keyPlace_key _ _ _).2 ⟨hknown.1, rfl⟩)
      | _ => cases hknown.2
    · rename_i hunknown
      refine .entry (.pure (redone_self v ?_ (by simp) (by simp))) ih
      rintro s rfl hplace
      simp_all [Json.text?]

theorem gives_expandKeys (keys : List String) (v : Json) :
    (expandKeys expand keys v).Gives (v.ReshapedAt (Redone expand (KeyPlace keys))) := by
  cases v with
  | object entries =>
    exact (gives_expandEntries hexpand keys entries).bind fun ws hws => .pure (.object hws)
  | _ => exact .pure (redone_self _ (by simp) (by simp) (by simp))

end

/-! ### Components -/

mutual

/-- Of a component only the texts in its places are expanded. -/
theorem gives_expandComponent {expand : Json → Run σ Json}
    (hexpand : ∀ s, (expand (.string s)).Gives fun w => ∃ t, w = .string t) (v : Json) :
    (expandComponent expand v).Gives (v.ReshapedAt (Redone expand ComponentPlace)) := by
  match v with
  | .null | .bool _ | .number _ | .string _ =>
    rw [expandComponent]
    · exact .pure (redone_self _ (by simp) (by simp) (by simp))
    all_goals simp
  | .array items =>
    rw [expandComponent]
    refine (gives_expandComponents hexpand 0 items).bind fun ws hws => .pure (.array ?_)
    exact hws.mono fun n place s t h => h
  | .object entries =>
    rw [expandComponent]
    exact (gives_expandComponentEntries hexpand entries).bind fun ws hws => .pure (.object hws)

theorem gives_expandComponents {expand : Json → Run σ Json}
    (hexpand : ∀ s, (expand (.string s)).Gives fun w => ∃ t, w = .string t) (index : Nat)
    (vs : List Json) :
    (expandComponents expand vs).Gives
      (Json.ReshapedItemsAt (Redone expand ComponentPlace) index vs) := by
  match vs with
  | [] => exact .pure .nil
  | v :: vs =>
    rw [expandComponents]
    refine (gives_expandComponent hexpand v).bind fun w hw => ?_
    refine (gives_expandComponents hexpand (index + 1) vs).bind fun ws hws => .pure (.cons ?_ hws)
    exact hw.mono fun place s t h => h.congr (componentPlace_item index place).symm

theorem gives_expandComponentEntries {expand : Json → Run σ Json}
    (hexpand : ∀ s, (expand (.string s)).Gives fun w => ∃ t, w = .string t)
    (entries : List (String × Json)) :
    (expandComponentEntries expand entries).Gives
      (Json.ReshapedEntriesAt (Redone expand ComponentPlace) entries) := by
  match entries with
  | [] => exact .pure .nil
  | (k, .array items) :: rest =>
    have hrest := gives_expandComponentEntries hexpand rest
    rw [expandComponentEntries]
    split
    · rename_i hk
      cases eq_of_beq hk
      refine .entry ?_ hrest
      refine (gives_expandComponents hexpand 0 items).mono fun ws hws => .array (hws.mono ?_)
      exact fun n place s t h => h.congr (by simp)
    · split
      · rename_i hk
        cases eq_of_beq hk
        refine .entry ?_ hrest
        have hoptions (n : Nat) (v : Json) : (expandKeys expand optionKeys v).Gives (v.ReshapedAt
            fun place => Redone expand ComponentPlace (.key "options" :: .item n :: place)) :=
          (gives_expandKeys hexpand optionKeys v).mono fun _ hw =>
            hw.mono fun place s t h => h.congr (by simp)
        exact (Timed.Gives.each hoptions 0 items).mono fun _ => .array
      · refine .entry (.pure (redone_self _ (by simp) ?_ (by simp))) hrest
        simp_all
  | (k, .string s) :: rest =>
    have hrest := gives_expandComponentEntries hexpand rest
    rw [expandComponentEntries]
    split
    · rename_i hk
      have hplace := (componentPlace_key k).2 (List.contains_iff_mem.1 hk)
      exact .entry (gives_expand hexpand s hplace) hrest
    · refine .entry (.pure (redone_self _ ?_ (by simp) (by simp))) hrest
      simp_all
  | (k, .null) :: rest | (k, .bool _) :: rest | (k, .number _) :: rest | (k, .object _) :: rest =>
    have hrest := gives_expandComponentEntries hexpand rest
    rw [expandComponentEntries]
    · refine hrest.bind fun ws hws => .pure (.cons (redone_self _ ?_ ?_ ?_) hws)
      all_goals simp
    all_goals simp

end

/-! ### Modals and polls -/

section
variable {expand : Json → Run σ Json} {places places' : List Step → Prop}

/-- First the texts in some places are expanded, then those in others. -/
theorem Redone.trans {place : List Step} {s t r : String} (h : Redone expand places place s t)
    (h' : Redone expand places' place t r) (hapart : places place → ¬ places' place) :
    Redone expand (fun place => places place ∨ places' place) place s r := by
  by_cases hplace : places place
  · obtain rfl := h'.2 (hapart hplace)
    exact ⟨fun _ => h.1 hplace, fun hnot => absurd (.inl hplace) hnot⟩
  · obtain rfl := h.2 hplace
    exact ⟨fun hor => h'.1 (hor.resolve_left hplace), fun hnot => h'.2 fun hor => hnot (.inr hor)⟩

/-- Where texts under a key are expanded, other keys stay as they are. -/
theorem gives_onKey {f : Json → Run σ Json} (key : String) {entries : List (String × Json)}
    (hentries : Keyed.Ascending entries)
    (hf : ∀ v, (f v).Gives (v.ReshapedAt (Redone expand places))) :
    (onKey f key entries).Gives
      (Json.ReshapedEntriesAt (Redone expand (Under key places)) entries) := by
  have hothers (k : String) (place : List Step) (s : String) (hk : k ≠ key) :
      Redone expand (Under key places) (.key k :: place) s s :=
    ⟨fun hplace => absurd ((under_key _ _ _ _).1 hplace).1 hk, fun _ => rfl⟩
  unfold onKey
  split
  · rename_i hget
    refine .pure (Json.reshapedEntriesAt_self entries fun k hk place s => ?_)
    exact hothers k place s (Keyed.ne_of_get?_eq_none hget hk)
  · rename_i v hget
    refine (hf v).bind fun w hw => .pure (.insert hentries hget (hw.mono ?_) hothers)
    exact fun place s t h => h.congr (by simp)

variable (hexpand : ∀ s, (expand (.string s)).Gives fun w => ∃ t, w = .string t)
include hexpand

/-- Of a modal only the texts in its places are expanded. -/
theorem gives_expandModal {modal : Json} (hkeys : modal.KeysAscend) :
    (expandModal expand modal).Gives (modal.ReshapedAt (Redone expand ModalPlace)) := by
  cases modal with
  | object entries =>
    refine (gives_expandKeys hexpand modalKeys _).bind fun w hw => ?_
    cases hw with
    | @object _ _ ws hws =>
      have hascend : Keyed.Ascending ws := by
        rw [Keyed.Ascending, hws.keys_eq]
        exact hkeys
      refine (gives_onKey "components" hascend (gives_expandComponent hexpand)).bind
        fun us hus => .pure (.object (hws.trans hus fun k place s t r h h' => h.trans h' ?_))
      -- No text is expanded directly under the key of the components.
      rw [keyPlace_key, under_key]
      rintro ⟨hk, -⟩ ⟨rfl, -⟩
      exact absurd hk (by decide)
  | _ => exact .pure (redone_self _ (by simp [ModalPlace]) (by simp [ModalPlace]) (by simp))

theorem gives_expandAnswers (answers : Json) :
    (expandAnswers expand answers).Gives
      (answers.ReshapedAt (Redone expand (InItems (KeyPlace ["text"])))) := by
  cases answers with
  | array items =>
    have hanswers (n : Nat) (v : Json) : (expandKeys expand ["text"] v).Gives
        (v.ReshapedAt fun place =>
          Redone expand (InItems (KeyPlace ["text"])) (.item n :: place)) :=
      (gives_expandKeys hexpand _ v).mono fun _ hw => hw.mono fun place s t h => h.congr (by simp)
    exact (Timed.Gives.each hanswers 0 items).bind fun ws hws => .pure (.array hws)
  | _ => exact .pure (redone_self _ (by simp) (by simp) (by simp))

/-- Of a poll only the texts in its places are expanded. -/
theorem gives_expandPoll {poll : Json} (hkeys : poll.KeysAscend) :
    (expandPoll expand poll).Gives (poll.ReshapedAt (Redone expand PollPlace)) := by
  cases poll with
  | object entries =>
    refine (gives_onKey "question" hkeys (gives_expandKeys hexpand _)).bind fun ws hws => ?_
    have hascend : Keyed.Ascending ws := by
      rw [Keyed.Ascending, hws.keys_eq]
      exact hkeys
    refine (gives_onKey "answers" hascend (gives_expandAnswers hexpand)).bind
      fun us hus => .pure (.object (hws.trans hus fun k place s t r h h' => h.trans h' ?_))
    rw [under_key, under_key]
    rintro ⟨rfl, -⟩ ⟨h, -⟩
    exact absurd h (by decide)
  | _ => exact .pure (redone_self _ (by simp [PollPlace]) (by simp [PollPlace]) (by simp))

end

/-- An attachment keeps its bytes, and a description if it has one. -/
theorem gives_expandAttachment (expand : Json → Run σ Json) (a : Attachment) :
    (expandAttachment expand a).Gives fun b =>
      b.data = a.data ∧ b.description.isSome = a.description.isSome := by
  have hshown (s : String) : (expandShown expand s).Gives fun _ => True := fun _ _ _ => trivial
  refine (hshown a.name).bind fun name _ => ?_
  have hrest (d : Option String) : (pure { a with name, description := d } : Run σ Attachment).Gives
      fun b => b.data = a.data ∧ b.description.isSome = d.isSome := .pure ⟨rfl, rfl⟩
  cases a.description with
  | none => exact hrest none
  | some d => exact (hshown d).bind fun t _ => hrest (some t)

/-! ### The expansion of values -/

/-- A string becomes a string, and without a tag shape it stays. -/
theorem gives_expandAt_string (depth : Nat) (s : String) :
    (expandAt depth (.string s) : Run σ Json).Gives fun w =>
      ∃ t, w = .string t ∧ (Tag.hasShape s = false → t = s) := by
  intro c w hw
  cases (expandAt_reshaped depth (.string s) c).2.1 w hw with
  | string related => exact ⟨_, rfl, related.1⟩

/-- Whether the strings of tag shape in some places are what an expansion at a depth makes of
them, and all others stay. -/
def Changes (σ : Type) (depth : Nat) (places : List Step → Prop) : Json.Change :=
  fun place s t =>
    (places place → ∃ c : Clocked (Context σ),
      (expandAt depth (.string s) c).1 = some (.string t)) ∧
    (¬ (places place ∧ Tag.hasShape s = true) → t = s)

theorem Redone.changes {depth : Nat} {places : List Step → Prop} {place : List Step}
    {s t : String} (h : Redone (expandAt depth : Json → Run σ Json) places place s t) :
    Changes σ depth places place s t := by
  refine ⟨h.1, fun hnot => ?_⟩
  by_cases hplace : places place
  · obtain ⟨c, hc⟩ := h.1 hplace
    obtain ⟨t', ht', hplain⟩ := gives_expandAt_string depth s c _ hc
    cases ht'
    exact hplain (by simpa using fun hshape => hnot ⟨hplace, hshape⟩)
  · exact h.2 hplace

/-- **Only the texts in their places change**, whatever the values are. In every context a
component, a modal or a poll keeps its shape when it is expanded: its keys and their number, and
all that is no string. The strings of tag shape in the places of `ComponentPlace`, `ModalPlace`
and `PollPlace` are what their expansion makes of them, and the others stay. An attachment keeps
its bytes. Without a deadline all of them come to an end. -/
theorem parts_reshapedAt (depth : Nat) (c : Clocked (Context σ)) (v : Json) (a : Attachment) :
    (∀ w, (expandComponent (expandAt depth) v c).1 = some w →
      v.ReshapedAt (Changes σ depth ComponentPlace) w) ∧
    (v.KeysAscend → ∀ w, (expandModal (expandAt depth) v c).1 = some w →
      v.ReshapedAt (Changes σ depth ModalPlace) w) ∧
    (v.KeysAscend → ∀ w, (expandPoll (expandAt depth) v c).1 = some w →
      v.ReshapedAt (Changes σ depth PollPlace) w) ∧
    (∀ b, (expandAttachment (expandAt depth) a c).1 = some b →
      b.data = a.data ∧ b.description.isSome = a.description.isSome) ∧
    (c.remaining = none →
      (∃ w, (expandComponent (expandAt depth) v c).1 = some w) ∧
      (∃ w, (expandModal (expandAt depth) v c).1 = some w) ∧
      (∃ w, (expandPoll (expandAt depth) v c).1 = some w) ∧
      ∃ b, (expandAttachment (expandAt depth) a c).1 = some b) := by
  have hexpand (s : String) : (expandAt depth (.string s) : Run σ Json).Gives fun w =>
      ∃ t, w = .string t :=
    (gives_expandAt_string depth s).mono fun _ ⟨t, ht, _⟩ => ⟨t, ht⟩
  have hquiet (v : Json) : Quiet (expandAt depth v : Run σ Json) := .expandAt depth v
  have hchanges {places : List Step → Prop} {w : Json}
      (h : v.ReshapedAt (Redone (expandAt depth : Json → Run σ Json) places) w) :
      v.ReshapedAt (Changes σ depth places) w := h.mono fun _ _ _ => Redone.changes
  refine ⟨fun w hw => hchanges (gives_expandComponent hexpand v c w hw),
    fun hkeys w hw => hchanges (gives_expandModal hexpand hkeys c w hw),
    fun hkeys w hw => hchanges (gives_expandPoll hexpand hkeys c w hw),
    gives_expandAttachment _ a c, fun hclock => ?_⟩
  have hends {α : Type} {x : Run σ α} (hx : Quiet x) : ∃ w, (x c).1 = some w := by
    obtain ⟨w, after, hw, -⟩ := hx.ends hclock
    exact ⟨w, congrArg Prod.fst hw⟩
  exact ⟨hends (Quiet.rules.expandComponent hquiet v), hends (Quiet.rules.expandModal hquiet v),
    hends (Quiet.rules.expandPoll hquiet v), hends (Quiet.rules.expandAttachment hquiet a)⟩

/-- A modal whose parts are of unusual types, and a poll whose answers are: the same tag stands
everywhere, and is run in the places of texts only. -/
theorem parts_reshapedAt_nested :
    let name : Native Unit := ⟨{ name := "$name" }, false, fun _ => .succeed (.string "Al")⟩
    let c : Clocked (Context Unit) := ⟨none, { program := ⟨"", none, "", [], ⟨[]⟩, 0⟩
                                               vocabulary := .ofNatives [name]
                                               memory := () }⟩
    let modal (s : String) : Json := .ofEntries [
      ("title", .string s), ("note", .string "$name"),
      ("components", .ofEntries [
        ("label", .string s), ("url", .array [.string "$name"]),
        ("options", .array [.string "$name",
          .ofEntries [("description", .string s), ("url", .string "$name")]]),
        ("components", .array [.array [.ofEntries [("value", .string s)]]])])]
    let poll (s : String) : Json := .ofEntries [
      ("question", .ofEntries [("text", .string s), ("label", .string "$name")]),
      ("answers", .array [.ofEntries [("text", .string s)], .string "$name", .null])]
    (modal "$name").KeysAscend ∧ (poll "$name").KeysAscend ∧
      (expandModal (expandAt 0) (modal "$name") c).1 = some (modal "Al") ∧
      (expandPoll (expandAt 0) (poll "$name") c).1 = some (poll "Al") ∧
      (modal "$name").ReshapedAt (Changes Unit 0 ModalPlace) (modal "Al") ∧
      (poll "$name").ReshapedAt (Changes Unit 0 PollPlace) (poll "Al") := by
  intro name c modal poll
  have hmodal : (expandModal (expandAt 0) (modal "$name") c).1 = some (modal "Al") := by
    decide +kernel
  have hpoll : (expandPoll (expandAt 0) (poll "$name") c).1 = some (poll "Al") := by
    decide +kernel
  have hmodalKeys : (modal "$name").KeysAscend := Keyed.ascending_ofList _
  have hpollKeys : (poll "$name").KeysAscend := Keyed.ascending_ofList _
  exact ⟨hmodalKeys, hpollKeys, hmodal, hpoll,
    (parts_reshapedAt 0 c (modal "$name") ⟨"", none, []⟩).2.1 hmodalKeys _ hmodal,
    (parts_reshapedAt 0 c (poll "$name") ⟨"", none, []⟩).2.2.1 hpollKeys _ hpoll⟩

end Run

end TagTemplate
