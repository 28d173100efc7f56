import TagTemplate.Proofs.Program.Depth
import TagTemplate.Proofs.Run.Delivery

/-! Every run ends.

A value is expanded by two kinds of nested calls: for the JSON texts in its strings, at the
same depth, and for the programs in its other strings, one level deeper. `Run.expandFuelled`
makes these calls with nothing to bound them but an amount of fuel, and does whatever one
likes when there is none left. `Context.run_ends`: for each context there is an amount from
which on a run that expands in this way is the run of the context, so the fuel does not run
out.

What comes to an end is a pair: the depths that are left, and below one depth the lengths of
the strings, since a JSON text is longer than the strings in it. Between expansions a run
only walks through what it is given: a replay executes two programs and is never begun in
another, and a native is a finite tree. -/
namespace TagTemplate

namespace Run
variable {σ : Type}

/-- The texts in a string are shorter than the string, so more fuel than its length is
enough. -/
theorem expandString_eq (text : String → Run σ String) {fuel fuel' : Nat} {s : String}
    (h : s.length < fuel) (h' : s.length < fuel') :
    expandString text fuel s = expandString text fuel' s := by
  induction fuel generalizing fuel' s with
  | zero => exact absurd h (Nat.not_lt_zero _)
  | succ fuel ih =>
    obtain ⟨fuel', rfl⟩ : ∃ n, fuel' = n + 1 := ⟨fuel' - 1, by omega⟩
    rw [expandString, expandString]
    split
    · rfl
    · cases hin : Json.containerIn s with
      | none => rfl
      | some v =>
        have hshort := Json.length_lt_of_containerIn hin
        have hsame :
            v.eachString (expandString text fuel) = v.eachString (expandString text fuel') :=
          Json.eachString_congr v fun t ht => by
            have := hshort t ht
            exact ih (by omega) (by omega)
        dsimp only
        rw [hsame]

/-- Expands a value that was produced at a depth, with nothing but the fuel to bound the
nested calls. -/
def expandFuelled (out : Json → Run σ Json) : (fuel : Nat) → (depth : Nat) → Json → Run σ Json
  | 0, _, v => out v
  | fuel + 1, depth, v => do
    let c ← Timed.get
    if c.settings.expand then
      v.eachString fun s =>
        if !Tag.hasShape s then pure (.string s)
        else
          match Json.containerIn s with
          | some w => do return .string (← expandFuelled out fuel depth w).compact
          | none => do return .string (← runText (expandFuelled out fuel (depth + 1)) depth s)
    else return v

/-- Runs a text that was produced at a depth, likewise. -/
def textFuelled (out : Json → Run σ Json) (fuel depth : Nat) (s : String) : Run σ String :=
  runText (expandFuelled out fuel (depth + 1)) depth s

/-- At the greatest depth a text is left as it is. -/
theorem runText_of_maxDepth_le (expand : Json → Run σ Json) {depth : Nat} (s : String)
    {c : Clocked (Context σ)} (h : c.state.settings.maxDepth ≤ depth) :
    runText expand depth s c = (some s, c) := by
  have hnone : Program.compileValue c.state.vocabulary s c.state.program.path depth
      c.state.settings.maxDepth = .ok none := by
    rw [Program.compileValue, if_pos (by simp [h])]
  rw [runText, Timed.bind_some (Timed.get_apply c), hnone]
  rfl

end Run

namespace Invariant
variable {σ : Type} {st : Settings}

/-- At one depth the strings get shorter: expanding a value settles when running each text
does. -/
theorem settles_expandFuelled_of_text {depth : Nat} {text : String → Run σ String}
    (htext : ∀ s, (settings σ st).Settles (fun fuel out => Run.textFuelled out fuel depth s)
      (text s)) (bound : Nat) (v : Json) (hv : ∀ s ∈ v.strings, s.length < bound) :
    (settings σ st).Settles (fun fuel out => Run.expandFuelled out fuel depth v)
      (Run.expandWith text v) := by
  induction bound using Nat.strongRecOn generalizing v with
  | ind bound ih =>
    apply Settles.of_succ
    simp only [Run.expandFuelled]
    apply Settles.get_bind
    intro c hc
    cases hon : c.state.settings.expand with
    | false => exact settles_pure v c hc
    | true =>
      refine settles_eachString v (fun s hs => ?_) c hc
      simp only [Run.expandString]
      split
      · exact settles_pure _
      · cases hin : Json.containerIn s with
        | none => exact (htext s).map
        | some w =>
          have hshort := Json.length_lt_of_containerIn hin
          refine ((ih s.length (hv s hs) w hshort).congr fun d hd => ?_).map
          have hsame : w.eachString (fun t => Run.expandString text (t.length + 1) t) =
              w.eachString (Run.expandString text s.length) :=
            Json.eachString_congr w fun t ht =>
              Run.expandString_eq text (Nat.lt_succ_self _) (hshort t ht)
          have hon : d.state.settings.expand = true := by rw [hd, ← hc, hon]
          rw [Run.expandWith, Timed.bind_some (Timed.get_apply d), if_pos hon, hsame]

theorem settles_expandFuelled {depth : Nat} {text : String → Run σ String}
    (htext : ∀ s, (settings σ st).Settles (fun fuel out => Run.textFuelled out fuel depth s)
      (text s)) (v : Json) :
    (settings σ st).Settles (fun fuel out => Run.expandFuelled out fuel depth v)
      (Run.expandWith text v) := by
  obtain ⟨bound, hbound⟩ : ∃ bound, ∀ s ∈ v.strings, s.length < bound := by
    induction v.strings with
    | nil => exact ⟨0, List.forall_mem_nil _⟩
    | cons s ss ih =>
      obtain ⟨bound, hbound⟩ := ih
      refine ⟨bound + s.length + 1, List.forall_mem_cons.2 ⟨by omega, fun t ht => ?_⟩⟩
      have := hbound t ht
      omega
  exact settles_expandFuelled_of_text htext bound v hbound

/-- From depth to depth there is one less left. -/
theorem settles_textFuelled (levels : Nat) {depth : Nat} (h : levels = st.maxDepth - depth)
    (s : String) :
    (settings σ st).Settles (fun fuel out => Run.textFuelled out fuel depth s)
      (Run.expandText levels depth s) := by
  induction levels generalizing depth s with
  | zero =>
    intro c hc
    have hle : c.state.settings.maxDepth ≤ depth := by
      rw [show c.state.settings = st from hc]
      omega
    exact ⟨hc, 0, fun fuel _ out => Run.runText_of_maxDepth_le _ s hle⟩
  | succ levels ih =>
    have hnext : levels = st.maxDepth - (depth + 1) := by omega
    have hvalue := settles_expandFuelled (ih hnext)
    exact settles_runText (keptBySteps_settings st).keptByPasses hvalue depth s

theorem settles_textFuelled_at (depth : Nat) (s : String) :
    (settings σ st).Settles (fun fuel out => Run.textFuelled out fuel depth s)
      (Run.expandTextAt depth s) := by
  refine (settles_textFuelled (st.maxDepth - depth) rfl s).congr fun c hc => ?_
  rw [Run.expandTextAt, Timed.bind_some (Timed.get_apply c), show c.state.settings = st from hc]

end Invariant

/-- **Every run ends.** For each context there is an amount of fuel from which on a run that
is bounded by nothing else is the run of the context, whatever would happen without fuel. -/
theorem Context.run_ends {σ : Type} (c : Context σ) :
    ∃ enough, ∀ fuel, enough ≤ fuel → ∀ out : Json → Run σ Json,
      c.runBy (Run.expandFuelled out fuel) (Run.textFuelled out fuel) = c.run :=
  c.runBy_settles (E := fun fuel out => Run.expandFuelled out fuel)
    (T := fun fuel out => Run.textFuelled out fuel)
    (fun depth v => Invariant.settles_expandFuelled (Invariant.settles_textFuelled_at depth) v)
    fun depth s d hd _ => Invariant.settles_textFuelled_at depth s d hd

end TagTemplate
