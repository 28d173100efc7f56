import TagTemplate.Proofs.Run.Frame

/-! Runs go on.

Nothing in a run takes an event back, and no step of a native or of a pass changes the
vocabulary, the settings, or whether the result is withheld. `Context.GoesOn` says so of
the contexts before and after, together with which events there are in between. It is the
relation of a frame: executing invocations that may be called adds events of some kind. -/
namespace TagTemplate

/-- A run has gone on from one context to another, and what happened in between was all
of one kind. -/
structure Context.GoesOn {σ : Type} (P : Event → Prop) (c c' : Context σ) : Prop where
  vocabulary : c'.vocabulary = c.vocabulary
  settings : c'.settings = c.settings
  withheld : c'.withheld = c.withheld
  events : ∃ events, c'.session.journal = c.session.journal ++ events ∧ ∀ e ∈ events, P e

namespace Context.GoesOn
variable {σ : Type} {P : Event → Prop} {a b c : Context σ}

/-- What adds nothing to the journal happens without events. -/
theorem of_journal_eq (vocabulary : b.vocabulary = a.vocabulary)
    (settings : b.settings = a.settings) (withheld : b.withheld = a.withheld)
    (journal : b.session.journal = a.session.journal) : a.GoesOn P b where
  vocabulary := vocabulary
  settings := settings
  withheld := withheld
  events := ⟨[], by rw [journal, List.append_nil], nofun⟩

/-- What adds an event happens with that event. -/
theorem of_event {e : Event} (he : P e) (vocabulary : b.vocabulary = a.vocabulary)
    (settings : b.settings = a.settings) (withheld : b.withheld = a.withheld)
    (journal : b.session.journal = a.session.journal ++ [e]) : a.GoesOn P b where
  vocabulary := vocabulary
  settings := settings
  withheld := withheld
  events := ⟨[e], journal, fun _ h => List.mem_singleton.1 h ▸ he⟩

theorem refl (c : Context σ) : c.GoesOn P c := of_journal_eq rfl rfl rfl rfl

theorem trans (h : a.GoesOn P b) (h' : b.GoesOn P c) : a.GoesOn P c := by
  obtain ⟨events, hjournal, hall⟩ := h.events
  obtain ⟨events', hjournal', hall'⟩ := h'.events
  refine ⟨h'.vocabulary.trans h.vocabulary, h'.settings.trans h.settings,
    h'.withheld.trans h.withheld, events ++ events', ?_, ?_⟩
  · rw [hjournal', hjournal, List.append_assoc]
  · intro e he
    rcases List.mem_append.1 he with he | he
    · exact hall e he
    · exact hall' e he

theorem record (c : Context σ) {e : Event} (he : P e) : c.GoesOn P (c.onSession (·.record e)) :=
  of_event he rfl rfl rfl rfl

/-- What a run finds stays found. -/
theorem discovered (h : a.GoesOn P b) :
    ∃ names, b.session.discovered = a.session.discovered ++ names := by
  obtain ⟨events, hjournal, -⟩ := h.events
  refine ⟨events.flatMap Event.found, ?_⟩
  rw [Session.discovered, hjournal, List.flatMap_append]
  rfl

/-- Nothing is found where nothing is expanded. -/
theorem discovered_eq (h : a.GoesOn P b) (hfound : ∀ e, P e → e.found = []) :
    b.session.discovered = a.session.discovered := by
  obtain ⟨events, hjournal, hall⟩ := h.events
  have hnone : events.flatMap Event.found = [] :=
    List.flatMap_eq_nil_iff.2 fun e he => hfound e (hall e he)
  rw [Session.discovered, hjournal, List.flatMap_append, hnone, List.append_nil]
  rfl

end Context.GoesOn

/-- The frame of the events of a kind: it contains the edits of the container and the
calls of some invocations. -/
def Frame.ofEvents (σ : Type) (P : Event → Prop) (calls : Heading → Prop)
    (hedited : ∀ change, P (.edited change)) (hentered : ∀ heading, P (.entered heading))
    (hcalled : ∀ call replay replays audited,
      calls call.heading → P (.called call replay replays audited)) :
    Frame σ where
  relates := Context.GoesOn P
  calls := calls
  refl := .refl
  trans := .trans
  remember _ _ := .of_journal_eq rfl rfl rfl rfl
  assign _ _ _ := .of_journal_eq rfl rfl rfl rfl
  edit _ _ := .of_journal_eq rfl rfl rfl rfl
  edited c change := .record c (hedited change)
  replace _ _ := .of_journal_eq rfl rfl rfl rfl
  entered c heading _ := .record c (hentered heading)
  called c call replay replays audited h := .record c (hcalled call replay replays audited h)

end TagTemplate
