import Mathlib.Data.List.Perm.Basic
import TagTemplate.Native.Builtin
import TagTemplate.Proofs.Program.Depth
import TagTemplate.Proofs.Program.Order

/-! A program lists each of its invocations once.

`Invocation.preorder` lists a tree from its root on, each invocation before those nested in it.
A walk keeps a stack instead of going down the tree: what is still to be listed is at each step
the trees on the stack, one after the other, and so the two lists are the same
(`Invocation.unstack_eq_flatMap_preorder`). The order of a program is the same list in another
order, and that one has the numbers 0, 1, 2 and so on; so a walk comes by each number once. -/
namespace TagTemplate

namespace Invocation
variable {σ : Type}

theorem size_lt_of_mem_nested {i j : Invocation σ} (h : j ∈ i.nested) : size j < size i := by
  rw [size_eq i]
  exact Nat.lt_succ_of_le (size_le_forestSize h)

/-- An invocation before all that are nested in it, and these in source order. -/
def preorder (i : Invocation σ) : List (Invocation σ) :=
  i :: i.nested.attach.flatMap fun j => preorder j.1
termination_by size i
decreasing_by exact size_lt_of_mem_nested j.2

theorem preorder_eq (i : Invocation σ) : i.preorder = i :: i.nested.flatMap preorder := by
  rw [preorder, List.flatMap_subtype (g := preorder) fun _ _ => rfl, List.unattach_attach]

/-- Whether an invocation is nested in another, at whatever depth. -/
inductive Within (j : Invocation σ) : Invocation σ → Prop
  | here {i} (nested : j ∈ i.nested) : Within j i
  | deeper {k i} (inner : Within j k) (nested : k ∈ i.nested) : Within j i

theorem mem_preorder (i : Invocation σ) : i ∈ i.preorder := by
  rw [preorder_eq]
  exact List.mem_cons_self

/-- What is nested in an invocation is listed behind it. -/
theorem Within.mem_flatMap_preorder {i j : Invocation σ} (h : j.Within i) :
    j ∈ i.nested.flatMap preorder := by
  induction h with
  | here hj => exact List.mem_flatMap.2 ⟨j, hj, j.mem_preorder⟩
  | @deeper k i _ hk ih =>
    refine List.mem_flatMap.2 ⟨k, hk, ?_⟩
    rw [preorder_eq]
    exact List.mem_cons_of_mem _ ih

theorem preorder_infix_flatMap {is : List (Invocation σ)} {i : Invocation σ} (h : i ∈ is) :
    i.preorder <:+: is.flatMap preorder := by
  obtain ⟨before, after, rfl⟩ := List.append_of_mem h
  rw [List.flatMap_append, List.flatMap_cons, ← List.append_assoc]
  exact ⟨_, _, rfl⟩

/-- Where an invocation is listed, all that are nested in it follow at once. -/
theorem preorder_infix_of_mem (i : Invocation σ) : ∀ j ∈ i.preorder, j.preorder <:+: i.preorder := by
  induction i using induction_nested with
  | step i ih =>
    intro j hj
    have hlist := preorder_eq i
    rw [hlist] at hj
    rcases List.mem_cons.1 hj with rfl | hj
    · exact List.infix_rfl
    · obtain ⟨k, hk, hj⟩ := List.mem_flatMap.1 hj
      have hdeep := (ih k hk j hj).trans (preorder_infix_flatMap hk)
      rw [hlist]
      exact hdeep.trans (List.suffix_cons _ _).isInfix

/-- **A walk over a stack lists the trees on it**, one after the other. -/
theorem unstack_eq_flatMap_preorder {steps : Nat} {stack : List (Invocation σ)}
    (h : forestSize stack ≤ steps) : unstack steps stack = stack.flatMap preorder := by
  induction steps generalizing stack with
  | zero =>
    cases stack with
    | nil => rfl
    | cons i stack =>
      rw [forestSize, size_eq] at h
      omega
  | succ steps ih =>
    cases stack with
    | nil => rfl
    | cons i stack =>
      rw [unstack, ih (forestSize_step h), List.flatMap_append, List.flatMap_cons, preorder_eq]
      rfl

/-- Both orders list the same invocations, each as often. -/
theorem preorder_perm_postorder (i : Invocation σ) : i.preorder.Perm i.postorder := by
  induction i using induction_nested with
  | step i ih =>
    rw [preorder_eq, postorder_eq]
    have hnested : (i.nested.flatMap preorder).Perm (i.nested.flatMap postorder) :=
      List.Perm.flatMap_left i.nested ih
    exact (hnested.cons i).trans (List.perm_append_singleton i _).symm

end Invocation

namespace Program
variable {σ : Type} {v : Vocabulary σ} {depth : Nat}

/-- All invocations of a program, each before those nested in it. -/
def preorder (p : Program σ) : List (Invocation σ) := p.invocations.flatMap Invocation.preorder

/-- **The walk of a program is its list from the roots on.** -/
theorem walk_eq_preorder (p : Program σ) : p.walk = p.preorder :=
  Invocation.unstack_eq_flatMap_preorder (Nat.le_refl _)

theorem walk_perm_postorder (p : Program σ) : p.walk.Perm p.postorder := by
  rw [walk_eq_preorder]
  exact List.Perm.flatMap_left p.invocations fun i _ => i.preorder_perm_postorder

/-- A walk comes by an invocation before it comes by those nested in it. -/
theorem sublist_walk_of_within {p : Program σ} {i j : Invocation σ} (hi : i ∈ p.walk)
    (hj : j.Within i) : [i, j].Sublist p.walk := by
  rw [walk_eq_preorder] at hi ⊢
  obtain ⟨k, hk, hi⟩ := List.mem_flatMap.1 hi
  have hinfix := (k.preorder_infix_of_mem i hi).trans (Invocation.preorder_infix_flatMap hk)
  have hpair : [i, j].Sublist i.preorder := by
    rw [Invocation.preorder_eq]
    exact (List.singleton_sublist.2 hj.mem_flatMap_preorder).cons_cons i
  exact hpair.trans hinfix.sublist

/-- **The invocations of a compiled program are numbered and listed once each.** Behind those
nested in them, and else in source order, they have the numbers from zero on, with the
placeholder of the number and the depth of the program. A walk is the list of the same
invocations from the roots on: it comes by each number once, and by an invocation before it
comes by any that is nested in it. -/
theorem numbered_of_compileAt {source : String} {path : Option String} {p : Program σ}
    (h : compileAt v source path depth = .ok p) :
    p.postorder.map (fun i => (i.heading.index, i.heading.id, i.heading.depth)) =
        (List.range (Invocation.forestSize p.invocations)).map (fun n => (n, placeholder n, depth)) ∧
      p.depth = depth ∧
      p.walk = p.preorder ∧
      p.walk.Perm p.postorder ∧
      (p.walk.map (·.heading.index)).Nodup ∧
      ∀ i ∈ p.walk, ∀ j : Invocation σ, j.Within i → [i, j].Sublist p.walk := by
  obtain ⟨hdepth, hall⟩ := depth_of_compileAt h
  have hindices := indices_postorder h
  have hperm := p.walk_perm_postorder
  refine ⟨?_, hdepth, p.walk_eq_preorder, hperm, ?_, fun i hi j hj => sublist_walk_of_within hi hj⟩
  · rw [← hindices, List.map_map]
    refine List.map_congr_left fun i hi => ?_
    rw [hall i (hperm.mem_iff.2 hi)]
    rfl
  · have hnumbers := hperm.map (·.heading.index)
    rw [hindices] at hnumbers
    exact hnumbers.nodup_iff.2 List.nodup_range

/-- Calls on both sides of a comparison, and one nested in another behind it: the call of
`$stop` is complete before the one around it, and comes last in a walk. -/
theorem numbered_of_compileAt_nested :
    ∃ p : Program Unit,
      compileAt (.ofNatives Builtin.all) "$if[$get[a]==$get[b];$get[$stop]]" none 2 = .ok p ∧
        p.walk.map (·.heading.index) = [4, 0, 1, 3, 2] ∧
        p.postorder.map (fun i => (i.heading.index, i.heading.id, i.heading.depth)) =
          (List.range 5).map (fun n => (n, placeholder n, 2)) ∧
        p.walk = p.preorder ∧ p.walk.Perm p.postorder := by
  have hwalk : (compileAt (.ofNatives (Builtin.all : List (Native Unit)))
      "$if[$get[a]==$get[b];$get[$stop]]" none 2).toOption.map (fun p =>
        (p.walk.map (·.heading.index), Invocation.forestSize p.invocations)) =
      some ([4, 0, 1, 3, 2], 5) := by decide +kernel
  cases hp : compileAt (.ofNatives (Builtin.all : List (Native Unit)))
      "$if[$get[a]==$get[b];$get[$stop]]" none 2 with
  | error e =>
    rw [hp] at hwalk
    cases hwalk
  | ok p =>
    rw [hp] at hwalk
    obtain ⟨hindices, hsize⟩ := Prod.mk.inj (Option.some.inj hwalk)
    obtain ⟨hnumbers, -, hlist, hperm, -⟩ := numbered_of_compileAt hp
    rw [hsize] at hnumbers
    exact ⟨p, rfl, hindices, hnumbers, hlist, hperm⟩

end Program

end TagTemplate
