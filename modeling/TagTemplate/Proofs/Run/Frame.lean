import TagTemplate.Proofs.Run.Invariant

/-! What executing an invocation leaves alone.

A `Frame` relates the contexts before and after some steps of a run. It is one that the
steps of natives keep: it holds across each of them and from step to step. To be related to
one context is then an invariant, so the frame holds across the execution of every
invocation: `Frame.keeps_execute`. What an execution does to a context is shown by choosing
the frame. -/
namespace TagTemplate

/-- A relation between contexts that the steps of natives keep; `calls` says which
invocations may be called. -/
structure Frame (σ : Type) where
  relates : Context σ → Context σ → Prop
  calls : Heading → Prop
  refl : ∀ c, relates c c
  trans : ∀ {a b c}, relates a b → relates b c → relates a c
  remember : ∀ c (change : σ → σ), relates c { c with memory := change c.memory }
  assign : ∀ c name value, relates c (c.onSession (·.assign name value))
  edit : ∀ c change,
    relates c (c.onSession fun s => { s with container := s.container.edit change })
  edited : ∀ c change, relates c (c.onSession (·.record (.edited change)))
  replace : ∀ c program, relates c (c.replaceProgram program)
  entered : ∀ c heading, calls heading → relates c (c.onSession (·.record (.entered heading)))
  called : ∀ c (call : Call) replay replays audited, calls call.heading →
    relates c (c.onSession (·.record (.called call replay replays audited)))

namespace Frame
variable {σ α : Type} (F : Frame σ)

/-- Whether an action, however it ends, keeps a frame. -/
def Keeps (x : Run σ α) : Prop := ∀ c, F.relates c.state (x c).2.state

/-- To be related to a context is an invariant. -/
def since (c₀ : Context σ) : Invariant σ where
  holds := F.relates c₀
  allows := F.calls
  remember change h := F.trans h (F.remember _ change)
  assign name value h := F.trans h (F.assign _ name value)
  edit change h := F.trans (F.trans h (F.edit _ change)) (F.edited _ change)
  swap _ h := F.trans h (F.replace _ _)
  entered hcalls h := F.trans h (F.entered _ _ hcalls)
  called _ hcalls h := F.trans h (F.called _ _ _ _ _ hcalls)

variable {F}

theorem keeps_of_since {x : Run σ α} (h : ∀ c₀, (F.since c₀).Keeps x) : F.Keeps x :=
  fun c => h c.state c (F.refl c.state)

/-- Whether some invocations, and with each of them all that are nested in it, may be
called. -/
structure Allows (F : Frame σ) (W : Invocation σ → Prop) : Prop where
  nested : ∀ i, W i → ∀ j ∈ i.nested, W j
  calls : ∀ i, W i → F.calls i.heading

/-- **Executing an invocation keeps a frame** that allows it and all nested in it to be
called. -/
theorem keeps_execute {W : Invocation σ → Prop} (hW : F.Allows W) (i : Invocation σ) (hi : W i) :
    F.Keeps i.execute :=
  keeps_of_since fun c₀ =>
    have hallows : (F.since c₀).Allows W := ⟨hW.nested, hW.calls⟩
    Invariant.keeps_execute hallows i hi

end Frame

end TagTemplate
