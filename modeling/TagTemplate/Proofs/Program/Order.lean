import TagTemplate.Proofs.Program.Reading
import TagTemplate.Proofs.Program.Walk

/-! The order of a program.

An invocation is numbered when its argument list is closed, so after all that are nested in
it and before all that stand to its right. `Invocation.postorder` lists a tree in this order,
and `Program.indices_postorder` says that a compiled program has its numbers in this order:
0, 1, 2 and so on, each once. Since the order goes by the tree alone, whatever is shown of the
tree in this order holds of the numbers too. -/
namespace TagTemplate

namespace Invocation
variable {σ : Type}

/-! ### Trees in order -/

mutual

/-- An invocation behind all that are nested in it, and these in source order. -/
def postorder : Invocation σ → List (Invocation σ)
  | i@(.mk _ _ none) => [i]
  | i@(.mk _ _ (some fields)) => fieldsPostorder fields ++ [i]

/-- The invocations in some arguments in order. -/
def fieldsPostorder : List (Field (Invocation σ)) → List (Invocation σ)
  | [] => []
  | field :: fields => fieldPostorder field ++ fieldsPostorder fields

/-- The invocations in an argument in order. -/
def fieldPostorder : Field (Invocation σ) → List (Invocation σ)
  | .plain text => textPostorder text
  | .condition _ lhs none => textPostorder lhs
  | .condition _ lhs (some rhs) => textPostorder lhs ++ textPostorder rhs

/-- The invocations in one side of an argument in order. -/
def textPostorder : FieldText (Invocation σ) → List (Invocation σ)
  | ⟨_, invocations, _⟩ => forestPostorder invocations

/-- The invocations in some trees in order. -/
def forestPostorder : List (Invocation σ) → List (Invocation σ)
  | [] => []
  | i :: is => postorder i ++ forestPostorder is

end

theorem forestPostorder_eq (is : List (Invocation σ)) :
    forestPostorder is = is.flatMap postorder := by
  induction is with
  | nil => rw [forestPostorder, List.flatMap_nil]
  | cons i is ih => rw [forestPostorder, ih, List.flatMap_cons]

theorem textPostorder_eq (text : FieldText (Invocation σ)) :
    textPostorder text = text.invocations.flatMap postorder := by
  cases text
  rw [textPostorder, forestPostorder_eq]

theorem fieldPostorder_eq (field : Field (Invocation σ)) :
    fieldPostorder field = field.invocations.flatMap postorder := by
  match field with
  | .plain text => rw [fieldPostorder, textPostorder_eq, Field.invocations]
  | .condition _ lhs none => rw [fieldPostorder, textPostorder_eq, Field.invocations]
  | .condition _ lhs (some rhs) =>
    rw [fieldPostorder, textPostorder_eq, textPostorder_eq, Field.invocations,
      List.flatMap_append]

theorem fieldsPostorder_eq (fields : List (Field (Invocation σ))) :
    fieldsPostorder fields = (fields.flatMap Field.invocations).flatMap postorder := by
  induction fields with
  | nil => rw [fieldsPostorder, List.flatMap_nil, List.flatMap_nil]
  | cons field fields ih =>
    rw [fieldsPostorder, fieldPostorder_eq, ih, List.flatMap_cons, List.flatMap_append]

/-- An invocation stands behind those nested in it. -/
theorem postorder_eq (i : Invocation σ) :
    i.postorder = i.nested.flatMap postorder ++ [i] := by
  match i with
  | .mk _ _ none => rw [postorder, nested, fields, Option.getD_none, List.flatMap_nil,
      List.flatMap_nil, List.nil_append]
  | .mk _ _ (some fields) => rw [postorder, fieldsPostorder_eq, nested]; rfl

theorem mem_postorder (i : Invocation σ) : i ∈ i.postorder := by
  rw [postorder_eq]
  exact List.mem_append_right _ (List.mem_singleton_self i)

/-! ### Induction on a tree -/

theorem size_le_forestSize {is : List (Invocation σ)} {i : Invocation σ} (h : i ∈ is) :
    size i ≤ forestSize is := by
  induction is with
  | nil => cases h
  | cons j is ih =>
    rw [forestSize]
    rcases List.mem_cons.1 h with rfl | h
    · exact Nat.le_add_right _ _
    · exact Nat.le_add_left_of_le (ih h)

/-- What holds of an invocation if it holds of all nested in it holds of every invocation. -/
theorem induction_nested {P : Invocation σ → Prop}
    (step : ∀ i, (∀ j ∈ i.nested, P j) → P i) (i : Invocation σ) : P i := by
  induction hn : size i using Nat.strongRecOn generalizing i with
  | ind n ih =>
    refine step i fun j hj => ih (size j) ?_ j rfl
    have hle := size_le_forestSize hj
    rw [← hn, size_eq i]
    omega

theorem length_flatMap_postorder {is : List (Invocation σ)}
    (h : ∀ i ∈ is, i.postorder.length = size i) :
    (is.flatMap postorder).length = forestSize is := by
  induction is with
  | nil => simp [forestSize]
  | cons i is ih =>
    obtain ⟨hi, his⟩ := List.forall_mem_cons.1 h
    rw [List.flatMap_cons, List.length_append, hi, ih his, forestSize]

theorem length_postorder (i : Invocation σ) : i.postorder.length = size i := by
  induction i using induction_nested with
  | step i ih =>
    rw [postorder_eq, List.length_append, length_flatMap_postorder ih, size_eq]
    rfl

/-- A tree has in order only what is reached from its root. -/
theorem forall_mem_postorder {W : Invocation σ → Prop} (hW : ∀ i, W i → ∀ j ∈ i.nested, W j)
    (i : Invocation σ) (hi : W i) : ∀ j ∈ i.postorder, W j := by
  induction i using induction_nested with
  | step i ih =>
    rw [postorder_eq]
    refine List.forall_mem_append.2 ⟨fun j hj => ?_, List.forall_mem_singleton.2 hi⟩
    obtain ⟨k, hk, hj⟩ := List.mem_flatMap.1 hj
    exact ih k hk (hW i hi k hk) j hj

end Invocation

/-! ### Numbers in order -/

/-- Whether some trees are numbered in order from one number up to another. -/
structure Invocation.Numbered {σ : Type} (is : List (Invocation σ)) (first next : Nat) :
    Prop where
  next_eq : next = first + (is.flatMap postorder).length
  indices : (is.flatMap postorder).map (·.heading.index) =
    List.range' first (is.flatMap postorder).length

namespace Invocation.Numbered
variable {σ : Type} {is js : List (Invocation σ)} {a b c : Nat}

theorem nil (a : Nat) : Numbered ([] : List (Invocation σ)) a a := ⟨rfl, rfl⟩

theorem append (h : Numbered is a b) (h' : Numbered js b c) : Numbered (is ++ js) a c where
  next_eq := by
    rw [h'.next_eq, h.next_eq, List.flatMap_append, List.length_append, Nat.add_assoc]
  indices := by
    rw [List.flatMap_append, List.map_append, h.indices, h'.indices, List.length_append,
      h.next_eq, List.range'_append_1]

/-- An invocation takes the number behind those of all nested in it. -/
theorem of_nested {i : Invocation σ} (h : Numbered i.nested a b) (hindex : i.heading.index = b) :
    Numbered [i] a (b + 1) := by
  have hlist : [i].flatMap postorder = i.nested.flatMap postorder ++ [i] := by
    rw [List.flatMap_singleton, postorder_eq]
  constructor
  · rw [hlist, List.length_append, h.next_eq]
    rfl
  · rw [hlist, List.map_append, h.indices, List.length_append, List.map_singleton, hindex,
      h.next_eq, List.length_singleton, List.range'_concat, Nat.one_mul]

end Invocation.Numbered

namespace Draft
variable {σ : Type} (draft : Draft σ) (condition : Bool) (before : Option (Operator × Draft σ))

theorem invocations_field_empty :
    (({} : Draft σ).field condition none).invocations = [] := by
  cases condition <;> rfl

theorem invocations_field_char (c : Char) :
    ((draft.char c).field condition before).invocations =
      (draft.field condition before).invocations := by
  match condition, before with
  | false, _ | true, none | true, some _ => rfl

theorem invocations_field_invoke (i : Invocation σ) :
    ((draft.invoke i).field condition before).invocations =
      (draft.field condition before).invocations ++ [i] := by
  match condition, before with
  | false, _ | true, none => rfl
  | true, some (_, lhs) => exact (List.append_assoc lhs.invocations draft.invocations [i]).symm

theorem invocations_field_operator (op : Operator) :
    (({} : Draft σ).field true (some (op, draft))).invocations =
      (draft.field true none).invocations := List.append_nil draft.invocations

end Draft

namespace Program
variable {σ : Type} {v : Vocabulary σ} {depth : Nat}

/-- Whether some invocations were read one after another, with all in them numbered from one
number up to another. -/
structure ReadsAll (v : Vocabulary σ) (depth : Nat) (is : List (Invocation σ)) (first next : Nat) :
    Prop where
  numbered : Invocation.Numbered is first next
  each : ∀ i ∈ is, ∃ tag c c', ReadsInvocation v depth tag c i c'

namespace ReadsAll
variable {is js : List (Invocation σ)} {a b c : Nat}

theorem nil (a : Nat) : ReadsAll v depth [] a a := ⟨.nil a, List.forall_mem_nil _⟩

theorem append (h : ReadsAll v depth is a b) (h' : ReadsAll v depth js b c) :
    ReadsAll v depth (is ++ js) a c :=
  ⟨h.numbered.append h'.numbered, List.forall_mem_append.2 ⟨h.each, h'.each⟩⟩

end ReadsAll

mutual

theorem ReadsInvocation.readsAll {tag : Tag} {c c' : Cursor} {i : Invocation σ}
    (h : ReadsInvocation v depth tag c i c') : ReadsAll v depth [i] c.next c'.next where
  numbered := by
    match h with
    | .mk _ ha => exact .of_nested ha.readsAll.numbered rfl
  each := List.forall_mem_singleton.2 ⟨tag, c, c', h⟩

theorem ReadsArguments.readsAll {args : Option ArgumentSchema} {c c' : Cursor}
    {fields : Option (List (Field (Invocation σ)))} (h : ReadsArguments v depth args c fields c') :
    ReadsAll v depth ((fields.getD []).flatMap Field.invocations) c.next c'.next := by
  match h with
  | .noSchema => exact .nil _
  | .omitted _ _ => exact .nil _
  | .empty _ => exact .nil _
  | .listed _ hf => exact hf.readsAll

theorem ReadsFields.readsAll {spec : FieldSpec} {specs : List FieldSpec} {c c' : Cursor}
    {fields : List (Field (Invocation σ))} (h : ReadsFields v depth spec specs c fields c') :
    ReadsAll v depth (fields.flatMap Field.invocations) c.next c'.next := by
  match h with
  | .last hf =>
    obtain ⟨js, hjs, hall⟩ := hf.readsAll
    rw [Draft.invocations_field_empty, List.nil_append] at hjs
    rw [List.flatMap_singleton, hjs]
    exact hall
  | .again _ hf hfs =>
    obtain ⟨js, hjs, hall⟩ := hf.readsAll
    rw [Draft.invocations_field_empty, List.nil_append] at hjs
    rw [List.flatMap_cons, hjs]
    exact hall.append hfs.readsAll
  | .next _ hf hfs =>
    obtain ⟨js, hjs, hall⟩ := hf.readsAll
    rw [Draft.invocations_field_empty, List.nil_append] at hjs
    rw [List.flatMap_cons, hjs]
    exact hall.append hfs.readsAll

/-- What is read of an argument comes behind what is in the draft already. -/
theorem ReadsField.readsAll {condition : Bool} {draft : Draft σ}
    {before : Option (Operator × Draft σ)} {c c' : Cursor} {field : Field (Invocation σ)}
    {closed : Bool} (h : ReadsField v depth condition draft before c field closed c') :
    ∃ js, field.invocations = (draft.field condition before).invocations ++ js ∧
      ReadsAll v depth js c.next c'.next := by
  match h with
  | .close _ => exact ⟨[], (List.append_nil _).symm, .nil _⟩
  | .escape h =>
    obtain ⟨js, hjs, hall⟩ := h.readsAll
    rw [Draft.invocations_field_char] at hjs
    exact ⟨js, hjs, hall⟩
  | .tag hi h =>
    obtain ⟨js, hjs, hall⟩ := h.readsAll
    rw [Draft.invocations_field_invoke, List.append_assoc] at hjs
    exact ⟨_, hjs, hi.readsAll.append hall⟩
  | .operator _ hop h =>
    obtain ⟨js, hjs, hall⟩ := h.readsAll
    unfold Token.operator? at hop
    split at hop
    · rename_i hsplit
      rw [Bool.and_eq_true, Option.isNone_iff_eq_none] at hsplit
      obtain ⟨rfl, rfl⟩ := hsplit
      rw [Draft.invocations_field_operator] at hjs
      exact ⟨js, hjs, hall⟩
    · cases hop
  | .char _ _ h =>
    obtain ⟨js, hjs, hall⟩ := h.readsAll
    rw [Draft.invocations_field_char] at hjs
    exact ⟨js, hjs, hall⟩

end

theorem ReadsText.readsAll {draft result : Draft σ} {c : Cursor}
    (h : ReadsText v depth draft c result) :
    ∃ js next, result.invocations = draft.invocations ++ js ∧ ReadsAll v depth js c.next next := by
  induction h with
  | done => exact ⟨[], _, (List.append_nil _).symm, .nil _⟩
  | tag hi _ ih =>
    obtain ⟨js, next, hjs, hall⟩ := ih
    exact ⟨_, next, hjs.trans (List.append_assoc _ [_] js), hi.readsAll.append hall⟩
  | undone _ _ ih => exact ih
  | kept _ _ ih => exact ih
  | char _ ih => exact ih

/-! ### Compiled programs -/

/-- All invocations of a program in the order of its text, nested ones first. -/
def postorder (p : Program σ) : List (Invocation σ) := p.invocations.flatMap Invocation.postorder

theorem length_postorder (p : Program σ) :
    p.postorder.length = Invocation.forestSize p.invocations :=
  Invocation.length_flatMap_postorder fun i _ => i.length_postorder

/-- What is nested in an invocation that was read was read too. -/
theorem ReadsInvocation.nested {tag : Tag} {c c' : Cursor} {i : Invocation σ}
    (h : ReadsInvocation v depth tag c i c') :
    ∀ j ∈ i.nested, ∃ tag c c', ReadsInvocation v depth tag c j c' := by
  cases h with
  | mk _ ha => exact ha.readsAll.each

section
variable {source : String} {path : Option String} {p : Program σ}
  (h : compileAt v source path depth = .ok p)
include h

theorem readsAll_of_compileAt :
    ∃ next, ReadsAll v depth p.invocations 0 next := by
  obtain ⟨draft, hread, rfl⟩ := compileAt_eq_ok_iff.1 h
  obtain ⟨js, next, hjs, hall⟩ := hread.readsAll
  have hinvocations : (ofDraft source path depth draft).invocations = js := hjs
  exact ⟨next, hinvocations ▸ hall⟩

/-- **The invocations of a compiled program are numbered in order**, from zero on. -/
theorem indices_postorder :
    p.postorder.map (·.heading.index) = List.range (Invocation.forestSize p.invocations) := by
  obtain ⟨_, hall⟩ := readsAll_of_compileAt h
  rw [← length_postorder, List.range_eq_range']
  exact hall.numbered.indices

/-- Every invocation of a compiled program was read. -/
theorem reads_of_mem_postorder :
    ∀ i ∈ p.postorder, ∃ tag c c', ReadsInvocation v depth tag c i c' := by
  obtain ⟨_, hall⟩ := readsAll_of_compileAt h
  intro i hi
  obtain ⟨j, hj, hi⟩ := List.mem_flatMap.1 hi
  have hnested (k : Invocation σ) (hk : ∃ tag c c', ReadsInvocation v depth tag c k c') :
      ∀ j ∈ k.nested, ∃ tag c c', ReadsInvocation v depth tag c j c' := by
    obtain ⟨_, _, _, hk⟩ := hk
    exact hk.nested
  exact Invocation.forall_mem_postorder hnested j (hall.each j hj) i hi

end

end Program

end TagTemplate
