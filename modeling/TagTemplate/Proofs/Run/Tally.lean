import TagTemplate.Proofs.Run.Delivery

/-! The elements of the container, from natives to the target.

Natives append elements to the lists of the container at any time, and a delivery takes each
list out while its elements are expanded and puts the expanded ones back. A `Tally` counts,
for one list, what is appended, and what is appended while the list is out; the latter is
lost when the list is put back, since it takes the place of all that stands there.

`Context.sent_size`: what the target gets has, of each list, as many elements as there were
at first and were appended since, less those that were lost. Nothing else adds or drops an
element: not a deadline that an element misses, not a replay, not a program that changes. -/
namespace TagTemplate

namespace Container

/-- The list that an edit appends to, if it appends. -/
def Edit.onto? : Edit → Option Part
  | .embed _ => some .embeds
  | .component _ => some .components
  | .sticker _ => some .stickers
  | .file _ => some .files
  | _ => none

namespace Part

/-- How many elements the list of a part has; a part that is no list has none. -/
def size : Part → Container → Nat
  | .embeds, c => c.embeds.length
  | .components, c => c.components.length
  | .stickers, c => c.stickers.length
  | .files, c => c.files.length
  | _, _ => 0

/-- The size of the list of a part that is given this many elements. -/
def sizeFor : Part → Nat → Nat
  | .embeds, n | .components, n | .stickers, n | .files, n => n
  | _, _ => 0

/-- How many elements of a list are out while the elements of `part` are. -/
def awayDuring (p part : Part) (c : Container) : Option Nat :=
  if part = p then some (p.size c) else none

theorem size_edit (p : Part) (c : Container) (e : Edit) :
    p.size (c.edit e) = p.size c + if e.onto? = some p then 1 else 0 := by
  cases p <;> cases e <;> simp [size, edit, Edit.onto?]

/-- Whether a part is what `get` and `put` read and write, and other lists are left alone. -/
structure Accessed {α : Type} (part : Part) (get : Container → List α)
    (put : List α → Container → Container) : Prop where
  size_get : ∀ c, part.size c = part.sizeFor (get c).length
  size_put : ∀ p items c,
    p.size (put items c) = if part = p then part.sizeFor items.length else p.size c

end Part

end Container

/-! ### Tallies -/

/-- What became of the elements of a list. -/
structure Tally where
  /-- Whether the list is out. -/
  out : Bool := false
  /-- How many elements were appended. -/
  pushed : Nat := 0
  /-- How many were appended while the list was out. -/
  lost : Nat := 0

/-- Takes account of an event. -/
def Tally.note (p : Container.Part) (t : Tally) : Event → Tally
  | .edited e =>
    if e.onto? = some p then
      { t with pushed := t.pushed + 1, lost := if t.out then t.lost + 1 else t.lost }
    else t
  | .taken part => if part = p then { t with out := true } else t
  | .stored part => if part = p then { t with out := false } else t
  | _ => t

/-- What became of the elements of a list in the course of some events. -/
def Tally.ofEvents (p : Container.Part) (events : List Event) : Tally := events.foldl (note p) {}

theorem Tally.ofEvents_snoc (p : Container.Part) (events : List Event) (e : Event) :
    ofEvents p (events ++ [e]) = (ofEvents p events).note p e := List.foldl_append

/-- Whether a tally accounts for a list that had `start` elements and has `now`; `away` says
how many elements are out. -/
structure Tally.Accounts (t : Tally) (start : Nat) (away : Option Nat) (now : Nat) : Prop where
  out : t.out = away.isSome
  total : away.getD now + t.lost = start + t.pushed

/-! ### Balances -/

/-- A run has gone on from one context to another, and the tally of a list accounts for all
that was done to it, now and whenever the container was sent. -/
structure Context.Balanced {σ : Type} (p : Container.Part) (away : Option Nat)
    (c₀ c : Context σ) : Prop where
  events : ∃ events, c.session.journal = c₀.session.journal ++ events ∧
    (Tally.ofEvents p events).Accounts (p.size c₀.session.container) away
      (p.size c.session.container) ∧
    ∀ before k after, events = before ++ .sent k :: after →
      (Tally.ofEvents p before).Accounts (p.size c₀.session.container) none (p.size k)

namespace Context.Balanced
variable {σ : Type} {p : Container.Part} {away away' : Option Nat} {c₀ c c' : Context σ}

theorem refl (p : Container.Part) (c : Context σ) : c.Balanced p none c where
  events := ⟨[], (List.append_nil _).symm, ⟨rfl, rfl⟩, fun _ _ _ h => by simp at h⟩

/-- What neither tells an event nor changes the size of the list changes nothing. -/
theorem of_same (h : c₀.Balanced p away c) (hjournal : c'.session.journal = c.session.journal)
    (hsize : p.size c'.session.container = p.size c.session.container) :
    c₀.Balanced p away c' := by
  obtain ⟨events, hevents, hnow, hsent⟩ := h.events
  exact ⟨events, hjournal.trans hevents, hsize ▸ hnow, hsent⟩

/-- One event more. -/
theorem snoc (h : c₀.Balanced p away c) {e : Event}
    (hjournal : c'.session.journal = c.session.journal ++ [e])
    (hnow : ∀ t : Tally,
      t.Accounts (p.size c₀.session.container) away (p.size c.session.container) →
      (t.note p e).Accounts (p.size c₀.session.container) away' (p.size c'.session.container))
    (hsent : ∀ k, e = .sent k → away = none ∧ k = c.session.container) :
    c₀.Balanced p away' c' where
  events := Session.exists_journal_snoc h.events hjournal fun events ⟨hbalance, hearlier⟩ => by
    refine ⟨?_, fun before k after hsplit => ?_⟩
    · rw [Tally.ofEvents_snoc]
      exact hnow _ hbalance
    · -- Either the container was sent just now, or before the last event.
      rcases List.eq_nil_or_concat after with rfl | ⟨after, last, rfl⟩
      · obtain ⟨rfl, hlast⟩ := List.append_inj' hsplit rfl
        obtain ⟨rfl, rfl⟩ := hsent k (List.singleton_inj.1 hlast)
        exact hbalance
      · rw [List.concat_eq_append, ← List.cons_append, ← List.append_assoc] at hsplit
        exact hearlier before k after (List.append_inj' hsplit rfl).1

/-- An event that no tally takes account of. -/
theorem record (h : c₀.Balanced p away c) {e : Event} (hnote : ∀ t : Tally, t.note p e = t)
    (hsent : ∀ k, e ≠ .sent k) : c₀.Balanced p away (c.onSession (·.record e)) :=
  h.snoc rfl (fun t ht => (hnote t).symm ▸ ht) fun k hk => absurd hk (hsent k)

theorem edit (h : c₀.Balanced p away c) (change : Container.Edit) :
    c₀.Balanced p away (c.onSession fun s =>
      { s.record (.edited change) with container := s.container.edit change }) := by
  refine h.snoc rfl (fun t ⟨hout, htotal⟩ => ?_) nofun
  show (t.note p (.edited change)).Accounts _ away (p.size (c.session.container.edit change))
  rw [Container.Part.size_edit]
  by_cases honto : change.onto? = some p
  · rw [Tally.note, if_pos honto, if_pos honto]
    refine ⟨hout, ?_⟩
    cases away with
    | none =>
      -- The element stands in the list.
      have hin : t.out = false := hout
      simp only [hin, Option.getD_none, Bool.false_eq_true, if_false] at htotal ⊢
      omega
    | some n =>
      -- The element is lost when the list is put back.
      have haway : t.out = true := hout
      simp only [haway, Option.getD_some, if_true] at htotal ⊢
      omega
  · rw [Tally.note, if_neg honto, if_neg honto]
    exact ⟨hout, htotal⟩

theorem sent (h : c₀.Balanced p none c) :
    c₀.Balanced p none (c.onSession fun s => s.record (.sent s.container)) :=
  h.snoc rfl (fun _ ht => ht) fun _ hk => ⟨rfl, (Event.sent.inj hk).symm⟩

section Parts
variable {α : Type} {part : Container.Part} {get : Container → List α}
  {put : List α → Container → Container} {items : List α}

theorem taken (hpart : part.Accessed get put) (h : c₀.Balanced p none c) :
    c₀.Balanced p (p.awayDuring part c.session.container) (c.onSession fun s =>
      { s.record (.taken part) with container := put [] s.container }) := by
  refine h.snoc rfl (fun t ht => ?_) nofun
  by_cases hp : part = p
  · rw [Tally.note, Container.Part.awayDuring, if_pos hp, if_pos hp]
    exact ⟨rfl, ht.total⟩
  · rw [Tally.note, Container.Part.awayDuring, if_neg hp, if_neg hp]
    show t.Accounts _ none (p.size (put [] c.session.container))
    rw [hpart.size_put, if_neg hp]
    exact ht

theorem stored (hpart : part.Accessed get put) {k : Container}
    (hlength : items.length = (get k).length) (h : c₀.Balanced p (p.awayDuring part k) c) :
    c₀.Balanced p none (c.onSession fun s =>
      { s.record (.stored part) with container := put items s.container }) := by
  refine h.snoc rfl (fun t ht => ?_) nofun
  show (t.note p (.stored part)).Accounts _ none (p.size (put items c.session.container))
  by_cases hp : part = p
  · subst hp
    rw [Container.Part.awayDuring, if_pos rfl] at ht
    rw [Tally.note, if_pos rfl, hpart.size_put, if_pos rfl, hlength, ← hpart.size_get]
    exact ⟨rfl, ht.total⟩
  · rw [Container.Part.awayDuring, if_neg hp] at ht
    rw [Tally.note, if_neg hp, hpart.size_put, if_neg hp]
    exact ht

end Parts

end Context.Balanced

/-! ### Runs -/

/-- The balance of a list is an invariant. -/
def Invariant.balance {σ : Type} (p : Container.Part) (away : Option Nat) (c₀ : Context σ) :
    Invariant σ where
  holds := c₀.Balanced p away
  allows _ := True
  remember _ h := h.of_same rfl rfl
  assign _ _ h := h.of_same rfl rfl
  edit change h := h.edit change
  swap _ h := h.of_same rfl rfl
  entered _ h := h.record (fun _ => rfl) nofun
  called _ _ h := h.record (fun _ => rfl) nofun

namespace Invariant
variable {σ α : Type} {p : Container.Part} {c₀ : Context σ}

theorem keptBySteps_balance (p : Container.Part) (away : Option Nat) (c₀ : Context σ) :
    (balance p away c₀).KeptBySteps where
  root _ _ _ := trivial
  compiled _ _ _ _ := trivial
  expanded h _ := h.record (fun _ => rfl) nofun
  recompiled _ _ _ _ := trivial
  failed _ _ _ h := h.record (fun _ => rfl) nofun
  reported _ h := h.record (fun _ => rfl) nofun
  tried h := h.snoc (e := .replayTried) rfl (fun _ ht => ht) nofun
  began replay h := h.snoc (e := .replayBegan replay) rfl (fun _ ht => ht) nofun
  ended _ h := h.snoc (e := .replayEnded) rfl (fun _ ht => ht) nofun

theorem keptBySending_balance (p : Container.Part) (c₀ : Context σ) :
    (balance p none c₀).KeptBySending where
  content _ h := h.of_same rfl (by cases p <;> rfl)
  sent h := h.sent

/-! ### Parts on their way -/

/-- Expanding a part puts back as many elements as it took out. -/
theorem keeps_onPart {part : Container.Part} {get : Container → List α}
    {put : List α → Container → Container} (hpart : part.Accessed get put)
    {f : α → Run σ α} (hf : ∀ away a, (balance p away c₀).Keeps (f a)) :
    (balance p none c₀).Keeps (Run.onPart part get put f) := by
  intro c hc
  let k := c.state.session.container
  let taken : Context σ := c.state.onSession fun s =>
    { s.record (.taken part) with container := put [] s.container }
  have htaken : c₀.Balanced p (p.awayDuring part k) taken := Context.Balanced.taken hpart hc
  have hitems : (balance p (p.awayDuring part k) c₀).Keeps
      (Timed.eachWithin c.state.settings.elementTimeout f (get k)) :=
    (settles_eachWithin (ι := Unit) (fun a => (hf _ a).settles) _ _).keeps
  have hafter := hitems ⟨c.remaining, taken⟩ htaken
  obtain ⟨items, d, hrun, hlength⟩ := Timed.eachWithin_eq_some c.state.settings.elementTimeout f
    (get k) ⟨c.remaining, taken⟩
  rw [hrun] at hafter
  rw [Run.onPart, Timed.bind_some (Timed.get_apply c), Timed.bind_some (Timed.modify_apply _ c),
    Timed.bind_some hrun]
  exact Context.Balanced.stored hpart hlength hafter

theorem keeps_expandContainer_balance (p : Container.Part) (c₀ : Context σ) :
    (balance p none c₀).Keeps (Run.expandContainer Run.expandAt) := by
  apply Invariant.keeps_get _ |>.bind
  intro c
  have hvalue (away : Option Nat) (v : Json) : (balance p away c₀).Settles
      (fun _ (_ : Unit) => Run.expandAt c.program.depth v) (Run.expandAt c.program.depth v) :=
    (keeps_expandAt (keptBySteps_balance p away c₀).keptByPasses _ v).settles
  have hshown (away : Option Nat) (s : String) :=
    (settles_expandShown (hvalue away) s).keeps
  split
  · refine
      (keeps_onPart ?_ fun away v => (hvalue away v).keeps).bind fun _ =>
      (keeps_onPart ?_ fun away v =>
        (settles_expandComponent (hvalue away) v).keeps).bind fun _ =>
      (keeps_onPart ?_ fun away a =>
        (settles_expandAttachment (hvalue away) a).keeps).bind fun _ =>
      (keeps_onPart ?_ fun away v =>
        (settles_expandModal (hvalue away) v).keeps).bind fun _ =>
      (keeps_onPart ?_ fun away v =>
        (settles_expandPoll (hvalue away) v).keeps).bind fun _ =>
      (keeps_onPart ?_ hshown).bind fun _ =>
      (keeps_onPart ?_ hshown).bind fun _ =>
      keeps_onPart ?_ hshown
    -- Each part is written by a function that leaves the other lists as they are.
    all_goals exact ⟨fun _ => rfl, fun p _ _ => by cases p <;> rfl⟩
  · exact Invariant.keeps_pure _ ()

end Invariant

namespace Context
variable {σ : Type}

/-- Whatever a run does, its tallies account for the lists of the container. -/
theorem balanced_run (p : Container.Part) (c : Context σ) : c.Balanced p none c.run.2 := by
  have hpasses := (Invariant.keptBySteps_balance p none c).keptByPasses
  have hparts := Invariant.keeps_expandContainer_balance p c
  refine Invariant.holds_run (I := .balance p none c) hpasses (fun text => ?_) (.refl p c)
  exact (Invariant.settles_deliver (ι := Unit) (Invariant.keptBySending_balance p c)
    hparts.settles text).keeps

/-- **The target gets what there was and what was appended, less what was lost**: whenever a
run sends the container, each list in it has as many elements as it had at first and were
appended since, less those that were appended while the list itself was out. -/
theorem sent_size (c : Context σ) {before after : List Event} {k : Container}
    (hsent : c.run.2.session.journal = c.session.journal ++ before ++ .sent k :: after)
    (p : Container.Part) :
    p.size k + (Tally.ofEvents p before).lost =
      p.size c.session.container + (Tally.ofEvents p before).pushed := by
  obtain ⟨events, hevents, -, hearlier⟩ := (c.balanced_run p).events
  rw [hevents, List.append_assoc] at hsent
  exact (hearlier before k after (List.append_cancel_left hsent)).total

/-- While the embed is expanded its native appends a component, which stays. -/
theorem sent_size_component :
    let add : Native Unit :=
      ⟨{ name := "$add" }, false, fun _ => .edit (.component .null) (.succeed (.string "ok"))⟩
    let p : Program Unit := ⟨"x", none, "x", [], ⟨[.text "x"]⟩, 0⟩
    let c : Context Unit :=
      { program := p
        vocabulary := .ofNatives [add]
        target := some fun _ _ => (.ok (), ())
        session := { container := { embeds := [.string "$add"] } }
        memory := () }
    let k : Container :=
      { content := some "x", embeds := [.string "ok"], components := [.null] }
    let before := c.run.2.session.journal.dropLast
    c.run.2.session.journal = c.session.journal ++ before ++ [.sent k] ∧
      Container.Part.components.size k + (Tally.ofEvents .components before).lost =
        Container.Part.components.size c.session.container +
          (Tally.ofEvents .components before).pushed ∧
      (Tally.ofEvents .components before).pushed = 1 ∧
      (Tally.ofEvents .components before).lost = 0 := by
  intro add p c k before
  have hsent : c.run.2.session.journal = c.session.journal ++ before ++ [.sent k] := by
    decide +kernel
  exact ⟨hsent, c.sent_size hsent .components, by decide +kernel, by decide +kernel⟩

/-- An embed whose native appends an embed: the target gets one embed, not two. -/
theorem sent_size_ne_pushed :
    let more : Native Unit :=
      ⟨{ name := "$more" }, false, fun _ =>
        .edit (.embed (.object [("t", .number (.integer 1))])) (.succeed (.string "ok"))⟩
    let v : Vocabulary Unit := .ofNatives [more]
    let p : Program Unit := ⟨"x", none, "x", [], ⟨[.text "x"]⟩, 0⟩
    let c : Context Unit :=
      { program := p
        vocabulary := v
        target := some fun _ _ => (.ok (), ())
        session := { container := { embeds := [.string "$more"] } }
        memory := () }
    let k : Container := { content := some "x", embeds := [.string "ok"] }
    let before := c.run.2.session.journal.dropLast
    Program.compile v "x" none = .ok p ∧
      c.run.2.session.journal = c.session.journal ++ before ++ [.sent k] ∧
      Container.Part.embeds.size k ≠
        Container.Part.embeds.size c.session.container +
          (Tally.ofEvents .embeds before).pushed := by
  intro more v p c k before
  exact ⟨by with_unfolding_all rfl, by decide +kernel, by decide +kernel⟩

end Context

end TagTemplate
