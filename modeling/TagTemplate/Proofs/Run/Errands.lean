import Mathlib.Algebra.GroupWithZero.Nat
import TagTemplate.Run.Errand

/-! Deadlines, item by item.

The items of a list are mapped one after the other, and each has the whole deadline to itself
(`Timed.eachWithin_cons`). What an errand does in that time can be told from its sleeps alone: it
is finished if their sum fits in, and it logs the sleeps that are over in time
(`Errand.run_within`). So the outcome of a list of errands is put together from those of its
items, whatever became of the items before: `Errand.eachWithin_eq`. -/
namespace TagTemplate

/-- Each item has the whole deadline. Its result takes its place, or it stays where its action
was abandoned; the items behind it go on from the state that it leaves. -/
theorem Timed.eachWithin_cons {S α : Type} (deadline : Nat) (f : α → Timed S α) (a : α)
    (as : List α) (c : Clocked S) :
    eachWithin deadline f (a :: as) c =
      ((eachWithin deadline f as ⟨c.remaining, (f a ⟨some deadline, c.state⟩).2.state⟩).1.map
          ((f a ⟨some deadline, c.state⟩).1.getD a :: ·),
        (eachWithin deadline f as ⟨c.remaining, (f a ⟨some deadline, c.state⟩).2.state⟩).2) := by
  rw [eachWithin, bind_some (within_apply deadline (f a) c), bind_pure_apply]

namespace Errand
variable {α : Type}

/-! ### When sleeps are over -/

/-- Each of some sleeps with the time at which it is over, if the first begins at `start` and
each other one where the one before it ends. -/
def timed (start : Nat) : List Nat → List (Nat × Nat)
  | [] => []
  | ms :: rest => (ms, start + ms) :: timed (start + ms) rest

/-- A sleep is over when it and all sleeps before it have passed. -/
theorem mem_timed {start : Nat} {sleeps : List Nat} {ms time : Nat} :
    (ms, time) ∈ timed start sleeps ↔
      ∃ before, before ++ [ms] <+: sleeps ∧ time = start + (before ++ [ms]).sum := by
  induction sleeps generalizing start with
  | nil => simp [timed]
  | cons first rest ih =>
    rw [timed, List.mem_cons, ih]
    constructor
    · rintro (heq | ⟨before, hprefix, rfl⟩)
      · cases heq
        exact ⟨[], by simp, by simp⟩
      · exact ⟨first :: before, List.cons_prefix_cons.2 ⟨rfl, hprefix⟩, by simp [Nat.add_assoc]⟩
    · rintro ⟨before, hprefix, rfl⟩
      cases before with
      | nil =>
        obtain ⟨rfl, -⟩ := List.cons_prefix_cons.1 hprefix
        exact .inl (by simp)
      | cons _ before =>
        obtain ⟨rfl, hlater⟩ := List.cons_prefix_cons.1 hprefix
        exact .inr ⟨before, hlater, by simp [Nat.add_assoc]⟩

/-- No sleep is over before it begins. -/
theorem le_of_mem_timed {start : Nat} {sleeps : List Nat} {ms time : Nat}
    (h : (ms, time) ∈ timed start sleeps) : start + ms ≤ time := by
  obtain ⟨before, -, rfl⟩ := mem_timed.1 h
  rw [List.sum_append, List.sum_singleton]
  omega

/-! ### One errand -/

/-- Some sleeps are finished if there is time for all of them. -/
theorem sleepAll_fst (sleeps : List Nat) (left : Nat) (log : List (Entry α)) :
    (sleepAll sleeps ⟨some left, log⟩).1 = if sleeps.sum ≤ left then some () else none := by
  induction sleeps generalizing left log with
  | nil => simp [sleepAll]
  | cons ms rest ih =>
    by_cases hfits : ms ≤ left
    · have hsleep : Timed.sleep ms ⟨some left, log⟩ = (some (), ⟨some (left - ms), log⟩) :=
        if_pos hfits
      rw [sleepAll, Timed.bind_some hsleep, Timed.bind_some (Timed.modify_apply _ _), ih,
        List.sum_cons]
      have hiff : rest.sum ≤ left - ms ↔ ms + rest.sum ≤ left := by omega
      simp only [hiff]
    · have hsleep : Timed.sleep ms ⟨some left, log⟩ = (none, ⟨some left, log⟩) := if_neg hfits
      rw [sleepAll, Timed.bind_none hsleep, List.sum_cons, if_neg (by omega)]

/-- Of some sleeps those are logged that are over in time, be they finished or not. -/
theorem sleepAll_state (sleeps : List Nat) (start left : Nat) (log : List (Entry α)) :
    (sleepAll sleeps ⟨some left, log⟩).2.state =
      log ++ ((timed start sleeps).filter (·.2 ≤ start + left)).map (.slept ·.1) := by
  induction sleeps generalizing start left log with
  | nil => simp [sleepAll, timed]
  | cons ms rest ih =>
    by_cases hfits : ms ≤ left
    · have hsleep : Timed.sleep ms ⟨some left, log⟩ = (some (), ⟨some (left - ms), log⟩) :=
        if_pos hfits
      have hleft : start + ms + (left - ms) = start + left := by omega
      rw [sleepAll, Timed.bind_some hsleep, Timed.bind_some (Timed.modify_apply _ _),
        ih (start + ms), hleft, timed, List.filter_cons_of_pos (by simpa using hfits),
        List.map_cons, List.append_assoc]
      rfl
    · have hsleep : Timed.sleep ms ⟨some left, log⟩ = (none, ⟨some left, log⟩) := if_neg hfits
      have hlate : (timed start (ms :: rest)).filter (·.2 ≤ start + left) = [] := by
        rw [List.filter_eq_nil_iff, timed]
        rintro ⟨other, time⟩ hmem hle
        have hle : time ≤ start + left := by simpa using hle
        rcases List.mem_cons.1 hmem with heq | hmem
        · cases heq
          omega
        · have := le_of_mem_timed hmem
          omega
      rw [sleepAll, Timed.bind_none hsleep, hlate, List.map_nil, List.append_nil]

/-- What an errand logs under a deadline: its item, and each sleep that is over before the
deadline. -/
def logged (deadline : Nat) (e : Errand α) : List (Entry α) :=
  .item e.item :: ((timed 0 e.sleeps).filter (·.2 < deadline)).map (.slept ·.1)

/-- Whether a deadline is none of the times at which a sleep of an errand is over, and not the time
at which the errand ends, which is at once where there are no sleeps. -/
def Misses (deadline : Nat) (e : Errand α) : Prop :=
  e.sleeps.sum ≠ deadline ∧
    ∀ slept, slept <+: e.sleeps → slept ≠ [] → slept.sum ≠ deadline

theorem misses_iff {deadline : Nat} {e : Errand α} :
    e.Misses deadline ↔
      e.sleeps.sum ≠ deadline ∧ ∀ slept ∈ timed 0 e.sleeps, slept.2 ≠ deadline := by
  refine and_congr_right fun _ => ⟨?_, ?_⟩
  · rintro h ⟨ms, time⟩ hmem
    obtain ⟨before, hprefix, rfl⟩ := mem_timed.1 hmem
    rw [Nat.zero_add]
    exact h _ hprefix (by simp)
  · rintro h slept hprefix hne rfl
    have hlast := List.dropLast_concat_getLast hne
    refine h (slept.getLast hne, slept.sum) (mem_timed.2 ⟨slept.dropLast, ?_, ?_⟩) rfl
    · rwa [hlast]
    · rw [hlast, Nat.zero_add]

instance (deadline : Nat) (e : Errand α) : Decidable (e.Misses deadline) :=
  decidable_of_iff _ misses_iff.symm

/-- **What comes of an errand under a deadline.** It is finished if its sleeps are over before the
deadline, and in any case it has logged those that are. -/
theorem run_within {e : Errand α} {deadline : Nat} (h : e.Misses deadline) (log : List (Entry α)) :
    (e.run ⟨some deadline, log⟩).1 = (if e.sleeps.sum < deadline then some e.item else none) ∧
      (e.run ⟨some deadline, log⟩).2.state = log ++ e.logged deadline := by
  have hrun : e.run ⟨some deadline, log⟩ =
      ((sleepAll e.sleeps ⟨some deadline, log ++ [.item e.item]⟩).1.map fun _ => e.item,
        (sleepAll e.sleeps ⟨some deadline, log ++ [.item e.item]⟩).2) := by
    rw [run, Timed.bind_some (Timed.modify_apply _ _), Timed.bind_pure_apply]
  obtain ⟨hsum, htimes⟩ := misses_iff.1 h
  constructor
  · have hiff : e.sleeps.sum ≤ deadline ↔ e.sleeps.sum < deadline := by omega
    rw [hrun, sleepAll_fst]
    simp only [hiff]
    split <;> rfl
  · have hfilter : (timed 0 e.sleeps).filter (·.2 ≤ 0 + deadline) =
        (timed 0 e.sleeps).filter (·.2 < deadline) := by
      refine List.filter_congr fun slept hmem => ?_
      have hmisses := htimes slept hmem
      simp only [decide_eq_decide]
      omega
    rw [hrun, sleepAll_state _ 0, hfilter, logged, List.append_assoc]
    rfl

/-! ### Many errands -/

/-- The action that does the errand of an item and ends with some result. -/
def job {T : Type} (errand : T → Errand α) (result : T → T) (a : T) : Timed (List (Entry α)) T := do
  let _ ← (errand a).run
  return result a

/-- **Each item has its own deadline.** If errands are done for the items of a list, each under a
deadline at which no errand wakes up or ends, then every item gives its result if its sleeps are
over before the deadline, and is kept otherwise, in the order of the list. Logged is for each item
in turn what its errand logs alone: the item, and the sleeps that are over before the deadline. No
item has less time, or is left out, for what became of those before it. -/
theorem eachWithin_eq {T : Type} (errand : T → Errand α) (result : T → T) (deadline : Nat)
    (items : List T) (c : Clocked (List (Entry α)))
    (h : ∀ a ∈ items, (errand a).Misses deadline) :
    Timed.eachWithin deadline (job errand result) items c =
      (some (items.map fun a => if (errand a).sleeps.sum < deadline then result a else a),
        ⟨c.remaining, c.state ++ items.flatMap fun a => (errand a).logged deadline⟩) := by
  induction items generalizing c with
  | nil => simp [Timed.eachWithin]
  | cons a as ih =>
    obtain ⟨ha, has⟩ := List.forall_mem_cons.1 h
    obtain ⟨hresult, hlog⟩ := run_within ha c.state
    have hjob : job errand result a ⟨some deadline, c.state⟩ =
        (((errand a).run ⟨some deadline, c.state⟩).1.map fun _ => result a,
          ((errand a).run ⟨some deadline, c.state⟩).2) := by
      rw [job, Timed.bind_pure_apply]
    rw [Timed.eachWithin_cons, hjob, hlog, hresult, ih _ has, List.flatMap_cons,
      List.append_assoc, List.map_cons]
    split <;> rfl

/-- The first errand is abandoned in its third sleep. The one behind it needs more time than was
left then, and is finished. -/
theorem runAll_of_late :
    let errands : List (Errand String) := [⟨"a", [20, 0, 29, 5]⟩, ⟨"b", [30, 17]⟩]
    (∀ e ∈ errands, e.Misses 48) ∧
      runAll 48 errands =
        ([(⟨"a", [20, 0, 29, 5]⟩, false), (⟨"b", [30, 17]⟩, true)],
          [.item "a", .slept 20, .slept 0, .item "b", .slept 30, .slept 17]) := by
  intro errands
  have hmisses : ∀ e ∈ errands, e.Misses 48 := by decide
  have heach := eachWithin_eq (fun e : Errand String × Bool => e.1) (fun e => (e.1, true)) 48
    (errands.map (·, false)) ⟨none, []⟩ (by simpa using hmisses)
  have hrun : runAll 48 errands =
      ((Timed.eachWithin 48 (job (fun e : Errand String × Bool => e.1) fun e => (e.1, true))
          (errands.map (·, false)) ⟨none, []⟩).1.getD [],
        (Timed.eachWithin 48 (job (fun e : Errand String × Bool => e.1) fun e => (e.1, true))
          (errands.map (·, false)) ⟨none, []⟩).2.state) := rfl
  refine ⟨hmisses, ?_⟩
  rw [hrun, heach]
  rfl

end Errand

end TagTemplate
