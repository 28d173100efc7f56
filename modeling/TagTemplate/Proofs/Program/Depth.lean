import TagTemplate.Proofs.Program.Reading
import TagTemplate.Proofs.Program.Walk

/-! The depth of a program is that of all its invocations.

A template is compiled at a depth, and every invocation in it, however deep it is nested in
arguments, is given that depth as it is read. A value is compiled one level deeper than it
was produced, and only where the greatest depth is not reached yet. -/
namespace TagTemplate

section
variable {σ : Type} {v : Vocabulary σ} {depth : Nat} {P : Invocation σ → Prop}

/-- What is nested in an argument was nested in what the argument is made of. -/
theorem Draft.forall_mem_field {draft : Draft σ} {condition : Bool}
    {before : Option (Operator × Draft σ)} (hdraft : ∀ i ∈ draft.invocations, P i)
    (hbefore : ∀ op lhs, before = some (op, lhs) → ∀ i ∈ lhs.invocations, P i) :
    ∀ i ∈ (draft.field condition before).invocations, P i := by
  match condition, before with
  | false, _ => exact hdraft
  | true, none => exact hdraft
  | true, some (op, lhs) => exact List.forall_mem_append.2 ⟨hbefore op lhs rfl, hdraft⟩

theorem Draft.forall_mem_invoke {draft : Draft σ} {i : Invocation σ}
    (hdraft : ∀ j ∈ draft.invocations, P j) (hi : P i) : ∀ j ∈ (draft.invoke i).invocations, P j :=
  List.forall_mem_append.2 ⟨hdraft, List.forall_mem_singleton.2 hi⟩

end

namespace Program
variable {σ : Type} {v : Vocabulary σ} {depth : Nat}

mutual

theorem ReadsInvocation.everywhere {tag : Tag} {c c' : Cursor} {i : Invocation σ}
    (h : ReadsInvocation v depth tag c i c') : i.Everywhere (·.depth = depth) := by
  match h with
  | .mk _ ha => exact .mk rfl ha.everywhere

theorem ReadsArguments.everywhere {args : Option ArgumentSchema} {c c' : Cursor}
    {fields : Option (List (Field (Invocation σ)))}
    (h : ReadsArguments v depth args c fields c') :
    ∀ i ∈ (fields.getD []).flatMap Field.invocations, i.Everywhere (·.depth = depth) := by
  match h with
  | .noSchema => exact List.forall_mem_nil _
  | .omitted _ _ => exact List.forall_mem_nil _
  | .empty _ => exact List.forall_mem_nil _
  | .listed _ hf => exact hf.everywhere

theorem ReadsFields.everywhere {spec : FieldSpec} {specs : List FieldSpec} {c c' : Cursor}
    {fields : List (Field (Invocation σ))} (h : ReadsFields v depth spec specs c fields c') :
    ∀ i ∈ fields.flatMap Field.invocations, i.Everywhere (·.depth = depth) := by
  match h with
  | .last hf =>
    exact List.forall_mem_append.2 ⟨hf.everywhere (List.forall_mem_nil _) nofun, nofun⟩
  | .again _ hf hfs =>
    exact List.forall_mem_append.2 ⟨hf.everywhere (List.forall_mem_nil _) nofun, hfs.everywhere⟩
  | .next _ hf hfs =>
    exact List.forall_mem_append.2 ⟨hf.everywhere (List.forall_mem_nil _) nofun, hfs.everywhere⟩

theorem ReadsField.everywhere {condition : Bool} {draft : Draft σ}
    {before : Option (Operator × Draft σ)} {c c' : Cursor} {field : Field (Invocation σ)}
    {closed : Bool} (h : ReadsField v depth condition draft before c field closed c')
    (hdraft : ∀ i ∈ draft.invocations, i.Everywhere (·.depth = depth))
    (hbefore : ∀ op lhs, before = some (op, lhs) →
      ∀ i ∈ lhs.invocations, i.Everywhere (·.depth = depth)) :
    ∀ i ∈ field.invocations, i.Everywhere (·.depth = depth) := by
  match h with
  | .close _ => exact Draft.forall_mem_field hdraft hbefore
  | .escape h => exact h.everywhere hdraft hbefore
  | .tag hi h => exact h.everywhere (Draft.forall_mem_invoke hdraft hi.everywhere) hbefore
  | .operator _ _ h =>
    refine h.everywhere (List.forall_mem_nil _) fun op lhs heq => ?_
    cases heq
    exact hdraft
  | .char _ _ h => exact h.everywhere hdraft hbefore

end

theorem ReadsText.everywhere {draft result : Draft σ} {c : Cursor}
    (h : ReadsText v depth draft c result)
    (hdraft : ∀ i ∈ draft.invocations, i.Everywhere (·.depth = depth)) :
    ∀ i ∈ result.invocations, i.Everywhere (·.depth = depth) := by
  induction h with
  | done => exact hdraft
  | tag hi _ ih => exact ih (Draft.forall_mem_invoke hdraft hi.everywhere)
  | undone _ _ ih => exact ih hdraft
  | kept _ _ ih => exact ih hdraft
  | char _ ih => exact ih hdraft

/-- **All invocations of a program have the depth at which it was compiled.** -/
theorem depth_of_compileAt {source : String} {path : Option String} {p : Program σ}
    (h : compileAt v source path depth = .ok p) :
    p.depth = depth ∧ ∀ i ∈ p.walk, i.heading.depth = depth := by
  obtain ⟨draft, hread, rfl⟩ := compileAt_eq_ok_iff.1 h
  have hall := hread.everywhere (List.forall_mem_nil _)
  exact ⟨rfl, forall_mem_walk (P := (·.depth = depth)) hall⟩

/-- A value compiles when there is a tag shape in it and a depth left, and the text compiles
one level deeper. -/
theorem compileValue_eq_some_iff {value : String} {path : Option String} {maxDepth : Nat}
    {p : Program σ} :
    compileValue v value path depth maxDepth = .ok (some p) ↔
      Tag.hasShape value = true ∧ depth < maxDepth ∧
        compileAt v value path (depth + 1) = .ok p := by
  unfold compileValue
  split
  · rename_i hgoes
    rw [Bool.or_eq_true, Bool.not_eq_true', decide_eq_true_eq] at hgoes
    refine ⟨nofun, fun ⟨hshape, hlt, _⟩ => ?_⟩
    rcases hgoes with h | h
    · rw [hshape] at h
      cases h
    · omega
  · rename_i hgoes
    rw [Bool.or_eq_true, Bool.not_eq_true', decide_eq_true_eq, not_or, Bool.not_eq_false,
      Nat.not_le] at hgoes
    cases compileAt v value path (depth + 1) with
    | error e => exact ⟨nofun, nofun⟩
    | ok q =>
      constructor
      · intro h
        cases h
        exact ⟨hgoes.1, hgoes.2, rfl⟩
      · rintro ⟨-, -, h⟩
        cases h
        rfl

/-- **A value compiles one level deeper than it was produced**, and that is at most the
greatest depth. -/
theorem depth_of_compileValue {value : String} {path : Option String} {maxDepth : Nat}
    {p : Program σ} (h : compileValue v value path depth maxDepth = .ok (some p)) :
    p.depth = depth + 1 ∧ p.depth ≤ maxDepth ∧ ∀ i ∈ p.walk, i.heading.depth = p.depth := by
  obtain ⟨-, hlt, hp⟩ := compileValue_eq_some_iff.1 h
  obtain ⟨hdepth, hall⟩ := depth_of_compileAt hp
  rw [hdepth]
  exact ⟨rfl, hlt, hall⟩

end Program

end TagTemplate
