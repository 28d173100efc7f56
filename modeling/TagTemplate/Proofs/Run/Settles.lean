import TagTemplate.Proofs.Run.Invariant

/-! Families of actions that come to be one action.

How values are expanded is a parameter of a run, and it may depend on an amount of fuel and
on some further choice. A family of such actions *settles* on an action when at each context
there is an amount of fuel from which on all of them do exactly what the action does,
whatever the choice. The amount may be another at each context, since it depends on what the
natives produce there.

Only contexts with some invariant count, and the action has to keep it. So to keep an
invariant is the case of a family that is constant: `Settles.keeps` and `Keeps.settles`. What
puts actions together settles when the parts do: `Settles.bind` and the rules after it. -/
namespace TagTemplate

namespace Invariant
variable {σ ι α β : Type}

/-- Whether a family of actions settles on an action at one context, and the invariant holds
afterwards. -/
structure SettlesAt (I : Invariant σ) (F : Nat → ι → Run σ α) (x : Run σ α)
    (c : Clocked (Context σ)) : Prop where
  kept : I.holds (x c).2.state
  equal : ∃ enough, ∀ fuel, enough ≤ fuel → ∀ i, F fuel i c = x c

/-- Whether a family of actions settles on an action wherever an invariant holds. -/
def Settles (I : Invariant σ) (F : Nat → ι → Run σ α) (x : Run σ α) : Prop :=
  ∀ c, I.holds c.state → I.SettlesAt F x c

variable {I : Invariant σ} {F : Nat → ι → Run σ α} {x : Run σ α}

theorem Settles.keeps (h : I.Settles F x) : I.Keeps x := fun c hc => (h c hc).kept

theorem Keeps.settles (h : I.Keeps x) : I.Settles (fun _ (_ : ι) => x) x :=
  fun c hc => ⟨h c hc, 0, fun _ _ _ => rfl⟩

theorem settles_pure (a : α) : I.Settles (fun _ (_ : ι) => (pure a : Run σ α)) (pure a) :=
  (I.keeps_pure a).settles

/-- The first amounts of fuel make no difference. -/
theorem Settles.of_succ (h : I.Settles (fun fuel i => F (fuel + 1) i) x) : I.Settles F x := by
  intro c hc
  obtain ⟨kept, enough, hequal⟩ := h c hc
  refine ⟨kept, enough + 1, fun fuel hfuel i => ?_⟩
  obtain ⟨fuel, rfl⟩ : ∃ n, fuel = n + 1 := ⟨fuel - 1, by omega⟩
  exact hequal fuel (by omega) i

/-- A family settles on an action that does the same. -/
theorem Settles.congr {y : Run σ α} (h : I.Settles F x)
    (hxy : ∀ c, I.holds c.state → x c = y c) : I.Settles F y := by
  intro c hc
  obtain ⟨kept, enough, hequal⟩ := h c hc
  rw [hxy c hc] at kept
  exact ⟨kept, enough, fun fuel hfuel i => (hequal fuel hfuel i).trans (hxy c hc)⟩

/-! ### One after another -/

theorem SettlesAt.bind {c : Clocked (Context σ)} {G : Nat → ι → α → Run σ β} {f : α → Run σ β}
    (hx : I.SettlesAt F x c)
    (hf : ∀ a d, x c = (some a, d) → I.holds d.state →
      I.SettlesAt (fun fuel i => G fuel i a) (f a) d) :
    I.SettlesAt (fun fuel i => F fuel i >>= G fuel i) (x >>= f) c := by
  obtain ⟨kept, enough, hequal⟩ := hx
  rcases h : x c with ⟨_ | a, d⟩
  · rw [h] at kept
    refine ⟨by rw [Timed.bind_none h]; exact kept, enough, fun fuel hfuel i => ?_⟩
    rw [Timed.bind_none h, Timed.bind_none ((hequal fuel hfuel i).trans h)]
  · rw [h] at kept
    obtain ⟨kept', enough', hequal'⟩ := hf a d h kept
    refine ⟨by rw [Timed.bind_some h]; exact kept', max enough enough', fun fuel hfuel i => ?_⟩
    have hfirst := hequal fuel (Nat.le_trans (Nat.le_max_left _ _) hfuel) i
    rw [Timed.bind_some h, Timed.bind_some (hfirst.trans h)]
    exact hequal' fuel (Nat.le_trans (Nat.le_max_right _ _) hfuel) i

theorem Settles.bind {G : Nat → ι → α → Run σ β} {f : α → Run σ β} (hx : I.Settles F x)
    (hf : ∀ a, I.Settles (fun fuel i => G fuel i a) (f a)) :
    I.Settles (fun fuel i => F fuel i >>= G fuel i) (x >>= f) :=
  fun c hc => (hx c hc).bind fun a d _ hd => hf a d hd

/-- An action is made of what a first one does with the context. -/
theorem Settles.get_bind {G : Nat → ι → Context σ → Run σ β} {f : Context σ → Run σ β}
    (hf : ∀ c, I.holds c.state → I.SettlesAt (fun fuel i => G fuel i c.state) (f c.state) c) :
    I.Settles (fun fuel i => Timed.get >>= G fuel i) (Timed.get >>= f) := by
  intro c hc
  obtain ⟨kept, enough, hequal⟩ := hf c hc
  exact ⟨kept, enough, hequal⟩

/-- A result is given back unchanged or in another form. -/
theorem Settles.map {g : α → β} (hx : I.Settles F x) :
    I.Settles (fun fuel i => do return g (← F fuel i)) (do return g (← x)) :=
  hx.bind fun a => settles_pure (g a)

/-! ### Lists -/

theorem settles_each {γ : Type} {F : Nat → ι → α → Run σ γ} {f : α → Run σ γ}
    (hf : ∀ a, I.Settles (fun fuel i => F fuel i a) (f a)) (as : List α) :
    I.Settles (fun fuel i => Timed.each (F fuel i) as) (Timed.each f as) := by
  induction as with
  | nil => exact settles_pure _
  | cons a as ih => exact (hf a).bind fun b => ih.map

theorem settles_within (hx : I.Settles F x) (deadline : Nat) :
    I.Settles (fun fuel i => Timed.within deadline (F fuel i)) (Timed.within deadline x) := by
  intro c hc
  obtain ⟨kept, enough, hequal⟩ := hx ⟨some deadline, c.state⟩ hc
  refine ⟨kept, enough, fun fuel hfuel i => ?_⟩
  rw [Timed.within_apply, Timed.within_apply, hequal fuel hfuel i]

theorem settles_eachWithin {F : Nat → ι → α → Run σ α} {f : α → Run σ α}
    (hf : ∀ a, I.Settles (fun fuel i => F fuel i a) (f a)) (deadline : Nat) (as : List α) :
    I.Settles (fun fuel i => Timed.eachWithin deadline (F fuel i) as)
      (Timed.eachWithin deadline f as) := by
  induction as with
  | nil => exact settles_pure _
  | cons a as ih => exact (settles_within (hf a) deadline).bind fun b => ih.map

end Invariant

end TagTemplate
