import TagTemplate.Program.Basic

/-! The walk of a program reaches everything.

A walk takes invocations off a stack and puts those nested in them in their place, once
for each invocation that there is. So it comes by every invocation on the stack, and with
each by all that are nested in it, and by nothing else. -/
namespace TagTemplate

namespace Invocation
variable {σ : Type}

theorem forestSize_append (is js : List (Invocation σ)) :
    forestSize (is ++ js) = forestSize is + forestSize js := by
  induction is with
  | nil => simp [forestSize]
  | cons i is ih => rw [List.cons_append, forestSize, forestSize, ih, Nat.add_assoc]

theorem textSize_eq (text : FieldText (Invocation σ)) :
    textSize text = forestSize text.invocations := by
  cases text
  rw [textSize]

theorem fieldSize_eq (field : Field (Invocation σ)) :
    fieldSize field = forestSize field.invocations := by
  match field with
  | .plain text => rw [fieldSize, textSize_eq, Field.invocations]
  | .condition _ lhs none => rw [fieldSize, textSize_eq, Field.invocations]
  | .condition _ lhs (some rhs) =>
    rw [fieldSize, textSize_eq, textSize_eq, Field.invocations, forestSize_append]

theorem fieldsSize_eq (fields : List (Field (Invocation σ))) :
    fieldsSize fields = forestSize (fields.flatMap Field.invocations) := by
  induction fields with
  | nil => simp [fieldsSize, forestSize]
  | cons field fields ih =>
    rw [fieldsSize, fieldSize_eq, ih, List.flatMap_cons, forestSize_append]

/-- An invocation counts for one more than those nested in it. -/
theorem size_eq (i : Invocation σ) : size i = forestSize i.nested + 1 := by
  match i with
  | .mk _ _ none => simp [size, nested, fields, forestSize]
  | .mk _ _ (some fields) =>
    rw [size, fieldsSize_eq]
    rfl

/-- There are enough steps for all invocations on the stack and in them. -/
theorem forestSize_step {steps : Nat} {i : Invocation σ} {stack : List (Invocation σ)}
    (h : forestSize (i :: stack) ≤ steps + 1) : forestSize (i.nested ++ stack) ≤ steps := by
  rw [forestSize, size_eq] at h
  rw [forestSize_append]
  omega

theorem mem_unstack {steps : Nat} {stack : List (Invocation σ)} (h : forestSize stack ≤ steps)
    {i : Invocation σ} (hi : i ∈ stack) : i ∈ unstack steps stack := by
  induction steps generalizing stack with
  | zero =>
    cases stack with
    | nil => cases hi
    | cons j stack =>
      rw [forestSize, size_eq] at h
      omega
  | succ steps ih =>
    cases stack with
    | nil => cases hi
    | cons j stack =>
      rw [unstack]
      rcases List.mem_cons.1 hi with rfl | hi
      · exact List.mem_cons_self
      · have hlater := ih (forestSize_step h) (List.mem_append_right _ hi)
        exact List.mem_cons_of_mem _ hlater

theorem nested_mem_unstack {steps : Nat} {stack : List (Invocation σ)}
    (h : forestSize stack ≤ steps) {i j : Invocation σ} (hi : i ∈ unstack steps stack)
    (hj : j ∈ i.nested) : j ∈ unstack steps stack := by
  induction steps generalizing stack with
  | zero => cases hi
  | succ steps ih =>
    cases stack with
    | nil => cases hi
    | cons k stack =>
      rw [unstack] at hi ⊢
      have hsteps := forestSize_step h
      rcases List.mem_cons.1 hi with rfl | hi
      · exact List.mem_cons_of_mem _ (mem_unstack hsteps (List.mem_append_left _ hj))
      · exact List.mem_cons_of_mem _ (ih hsteps hi)

/-- Whether a property of headings holds of an invocation and, in turn, of all that are
nested in it. -/
inductive Everywhere (P : Heading → Prop) : Invocation σ → Prop
  | mk {i : Invocation σ} (heading : P i.heading) (nested : ∀ j ∈ i.nested, Everywhere P j) :
      Everywhere P i

theorem forall_mem_unstack {P : Heading → Prop} {steps : Nat} {stack : List (Invocation σ)}
    (h : ∀ i ∈ stack, i.Everywhere P) : ∀ i ∈ unstack steps stack, P i.heading := by
  induction steps generalizing stack with
  | zero => exact List.forall_mem_nil _
  | succ steps ih =>
    cases stack with
    | nil => exact List.forall_mem_nil _
    | cons i stack =>
      obtain ⟨⟨hheading, hnested⟩, hstack⟩ := List.forall_mem_cons.1 h
      exact List.forall_mem_cons.2 ⟨hheading, ih (List.forall_mem_append.2 ⟨hnested, hstack⟩)⟩

end Invocation

namespace Program
variable {σ : Type} {p : Program σ} {i j : Invocation σ}

theorem mem_walk (h : i ∈ p.invocations) : i ∈ p.walk :=
  Invocation.mem_unstack (Nat.le_refl _) h

theorem forall_mem_walk {P : Heading → Prop} (h : ∀ i ∈ p.invocations, i.Everywhere P) :
    ∀ i ∈ p.walk, P i.heading := Invocation.forall_mem_unstack h

/-- **What is nested in an invocation of a program is an invocation of the program.** -/
theorem nested_mem_walk (hi : i ∈ p.walk) (hj : j ∈ i.nested) : j ∈ p.walk :=
  Invocation.nested_mem_unstack (Nat.le_refl _) hi hj

end Program

end TagTemplate
