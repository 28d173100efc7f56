import Mathlib.Data.List.Chain
import TagTemplate.Native.Builtin
import TagTemplate.Proofs.Program.Order
import TagTemplate.Proofs.Program.Parts

/-! Code and template agree.

A text of a program is kept as code and as a template, and its invocations stand beside both.
`FieldText.Agrees` says that the three describe one text: the slots are numbered from left to
right, one for each invocation, placeholders in them give the code, and the literals between
them are as long as they can be. Whatever a text is put together from, it agrees
(`FieldText.agrees_ofParts`), since the parts leave no choice; and the reader puts every text of
a program together from parts, at top level and inside arguments at any depth:
`Program.agrees_of_hasText`. -/
namespace TagTemplate

/-- The position of a slot. -/
def Segment.position? : Segment → Option Nat
  | .text _ => none
  | .slot position => some position

/-- Whether code, invocations and template of a text describe the same. -/
structure FieldText.Agrees {σ : Type} (t : FieldText (Invocation σ)) : Prop where
  /-- The slots are numbered from left to right, one for each invocation. -/
  slots : t.template.segments.filterMap Segment.position? = List.range t.invocations.length
  /-- Placeholders in the slots give the code. -/
  code : t.template.resolve (t.invocations.map fun i => .string i.heading.id) = t.value
  /-- No literal is empty. -/
  nonempty : ∀ content, .text content ∈ t.template.segments → content ≠ ""
  /-- No literal stands beside another one. -/
  apart : t.template.segments.IsChain fun a b => a.isSlot = true ∨ b.isSlot = true

/-! ### Texts of parts -/

namespace Template
variable {ι : Type}

theorem positions_stretch (cs : List Char) : (stretch cs).filterMap Segment.position? = [] := by
  unfold stretch
  split <;> rfl

theorem positions_slotted (position : Nat) (slots : List (ι × List Char)) :
    (slotted position slots).filterMap Segment.position? = List.range' position slots.length := by
  induction slots generalizing position with
  | nil => rfl
  | cons slot slots ih =>
    have hslot : (Segment.slot position).position? = some position := rfl
    rw [slotted, List.filterMap_cons_some hslot, List.filterMap_append, positions_stretch,
      List.nil_append, ih]
    rfl

theorem join_fill_stretch (cs : List Char) (values : List Json) :
    String.join ((stretch cs).map (·.fill values)) = String.ofList cs := by
  unfold stretch
  split
  · rename_i hcs
    rw [List.isEmpty_iff.1 hcs]
    rfl
  · simp [Segment.fill]

theorem ne_empty_of_mem_stretch {content : String} {cs : List Char}
    (h : Segment.text content ∈ stretch cs) : content ≠ "" := by
  unfold stretch at h
  split at h
  · cases h
  · rename_i hcs
    cases List.mem_singleton.1 h
    simpa using hcs

theorem ne_empty_of_mem_slotted {content : String} {position : Nat}
    {slots : List (ι × List Char)} (h : Segment.text content ∈ slotted position slots) :
    content ≠ "" := by
  induction slots generalizing position with
  | nil => cases h
  | cons slot slots ih =>
    rw [slotted, List.mem_cons, List.mem_append] at h
    rcases h with h | h | h
    · cases h
    · exact ne_empty_of_mem_stretch h
    · exact ih h

/-- A literal stands before a slot or at the end. -/
theorem isChain_stretch_append (cs : List Char) (position : Nat) (slots : List (ι × List Char)) :
    (stretch cs ++ slotted position slots).IsChain fun a b =>
      a.isSlot = true ∨ b.isSlot = true := by
  induction slots generalizing cs position with
  | nil =>
    unfold stretch
    split
    · exact .nil
    · exact .singleton _
  | cons slot slots ih =>
    have hslots : (slotted position (slot :: slots)).IsChain fun a b =>
        a.isSlot = true ∨ b.isSlot = true :=
      (ih slot.2 (position + 1)).cons fun _ _ => .inl rfl
    unfold stretch
    split
    · exact hslots
    · exact hslots.cons fun next hnext => .inr (by cases hnext; rfl)

/-- Slots filled with placeholders are the code of the slots. -/
theorem join_fill_slotted {σ : Type} {values : List Json} {position : Nat}
    {slots : List (Invocation σ × List Char)}
    (h : values.drop position = slots.map fun slot => .string slot.1.heading.id) :
    String.join ((slotted position slots).map (·.fill values)) =
      String.ofList (Invocation.slottedCode slots) := by
  induction slots generalizing position with
  | nil => rfl
  | cons slot slots ih =>
    have hvalue : values[position]? = some (.string slot.1.heading.id) := by
      rw [← List.head?_drop, h]
      rfl
    have hrest : values.drop (position + 1) = slots.map fun slot => .string slot.1.heading.id := by
      rw [← List.tail_drop, h]
      rfl
    rw [slotted, List.map_cons, List.map_append, String.join_cons, String.join_append,
      join_fill_stretch, ih hrest, Segment.fill, hvalue]
    simp [Invocation.slottedCode, Json.display]

end Template

section
variable {σ : Type}

/-- **A text that parts make up agrees with itself**, whatever the parts are. -/
theorem FieldText.agrees_ofParts (parts : List (Part (Invocation σ))) : (ofParts parts).Agrees where
  slots := by
    show (Template.stretch _ ++ Template.slotted 0 _).filterMap Segment.position? = _
    rw [List.filterMap_append, Template.positions_stretch, Template.positions_slotted,
      List.nil_append, ← List.range_eq_range', ofParts, List.length_map]
  code := by
    show String.join ((Template.stretch _ ++ Template.slotted 0 _).map _) = _
    rw [List.map_append, String.join_append, Template.join_fill_stretch,
      Template.join_fill_slotted (by simp [ofParts]), ← String.ofList_append]
    rfl
  nonempty content h := by
    rcases List.mem_append.1 h with h | h
    · exact Template.ne_empty_of_mem_stretch h
    · exact Template.ne_empty_of_mem_slotted h
  apart := Template.isChain_stretch_append _ 0 _

/-! ### Texts of a program -/

/-- The sides of an argument. -/
def Field.sides {ι : Type} : Field ι → List (FieldText ι)
  | .plain text => [text]
  | .condition _ lhs rhs => lhs :: rhs.toList

theorem Field.mem_invocations_of_mem_sides {ι : Type} {field : Field ι} {side : FieldText ι} {i : ι}
    (hside : side ∈ field.sides) (hi : i ∈ side.invocations) : i ∈ field.invocations := by
  match field with
  | .plain text =>
    cases List.mem_singleton.1 hside
    exact hi
  | .condition _ lhs none =>
    cases List.mem_singleton.1 hside
    exact hi
  | .condition _ lhs (some rhs) =>
    rcases List.mem_cons.1 hside with rfl | hside
    · exact List.mem_append_left _ hi
    · cases List.mem_singleton.1 hside
      exact List.mem_append_right _ hi

namespace Program

/-- The text of a program at top level. -/
def text (p : Program σ) : FieldText (Invocation σ) := ⟨p.code, p.invocations, p.template⟩

/-- The texts of a program: the one at top level, and the sides of the arguments of every
invocation in one of them. -/
inductive HasText (p : Program σ) : FieldText (Invocation σ) → Prop
  | top : p.HasText p.text
  | side {outer i field side} (within : p.HasText outer) (invoked : i ∈ outer.invocations)
      (written : field ∈ i.fields.getD []) (mem : side ∈ field.sides) : p.HasText side

end Program

/-- Whether a draft was put together from parts. -/
def Draft.Built (d : Draft σ) : Prop := ∃ parts, d = ({} : Draft σ).extend parts

namespace Draft.Built
variable {d : Draft σ}

theorem empty : ({} : Draft σ).Built := ⟨[], rfl⟩

theorem add (h : d.Built) (part : Part (Invocation σ)) : (d.add part).Built := by
  obtain ⟨parts, rfl⟩ := h
  exact ⟨parts ++ [part], (extend_append _ parts [part]).symm⟩

theorem agrees (h : d.Built) : d.finish.Agrees := by
  obtain ⟨parts, rfl⟩ := h
  rw [finish_extend]
  exact FieldText.agrees_ofParts parts

theorem agrees_sides (h : d.Built) {condition : Bool} {before : Option (Operator × Draft σ)}
    (hbefore : ∀ op lhs, before = some (op, lhs) → lhs.Built) :
    ∀ side ∈ (d.field condition before).sides, side.Agrees := by
  match condition, before with
  | false, _ | true, none => exact List.forall_mem_singleton.2 h.agrees
  | true, some (op, lhs) =>
    exact List.forall_mem_cons.2 ⟨(hbefore op lhs rfl).agrees, List.forall_mem_singleton.2 h.agrees⟩

end Draft.Built

namespace Program
variable {v : Vocabulary σ} {depth : Nat}

/-- Both sides of an argument are put together from parts, as it is read. -/
theorem ReadsField.agrees_sides {condition : Bool} {draft : Draft σ}
    {before : Option (Operator × Draft σ)} {c c' : Cursor} {field : Field (Invocation σ)}
    {closed : Bool} (h : ReadsField v depth condition draft before c field closed c')
    (hdraft : draft.Built) (hbefore : ∀ op lhs, before = some (op, lhs) → lhs.Built) :
    ∀ side ∈ field.sides, side.Agrees := by
  match h, hdraft with
  | .close _, hdraft => exact hdraft.agrees_sides hbefore
  | .escape h, hdraft => exact h.agrees_sides (hdraft.add (.char _)) hbefore
  | .tag _ h, hdraft => exact h.agrees_sides (hdraft.add (.slot _)) hbefore
  | .operator _ _ h, hdraft =>
    refine h.agrees_sides .empty fun op lhs heq => ?_
    cases heq
    exact hdraft
  | .char _ _ h, hdraft => exact h.agrees_sides (hdraft.add (.char _)) hbefore

theorem ReadsFields.agrees_sides {spec : FieldSpec} {specs : List FieldSpec} {c c' : Cursor}
    {fields : List (Field (Invocation σ))} (h : ReadsFields v depth spec specs c fields c') :
    ∀ field ∈ fields, ∀ side ∈ field.sides, side.Agrees := by
  intro field hfield
  obtain ⟨_, _, _, _, hread⟩ := h.exists_reads field hfield
  exact hread.agrees_sides .empty fun _ _ hnone => absurd hnone (Option.some_ne_none _).symm

theorem ReadsArguments.agrees_sides {args : Option ArgumentSchema} {c c' : Cursor}
    {fields : Option (List (Field (Invocation σ)))}
    (h : ReadsArguments v depth args c fields c') :
    ∀ field ∈ fields.getD [], ∀ side ∈ field.sides, side.Agrees := by
  cases h with
  | noSchema | omitted | empty => exact List.forall_mem_nil _
  | listed _ hfields => exact hfields.agrees_sides

theorem ReadsInvocation.agrees_sides {tag : Tag} {c c' : Cursor} {i : Invocation σ}
    (h : ReadsInvocation v depth tag c i c') :
    ∀ field ∈ i.fields.getD [], ∀ side ∈ field.sides, side.Agrees := by
  cases h with
  | mk _ harguments => exact harguments.agrees_sides

theorem ReadsText.built {draft result : Draft σ} {c : Cursor}
    (h : ReadsText v depth draft c result) (hdraft : draft.Built) : result.Built := by
  induction h with
  | done => exact hdraft
  | tag _ _ ih => exact ih (hdraft.add (.slot _))
  | undone _ _ ih => exact ih (hdraft.add (.char _))
  | kept _ _ ih => exact ih ((hdraft.add (.char _)).add (.char _))
  | char _ ih => exact ih (hdraft.add (.char _))

/-- **Code and template describe the same text at every level.** In every text of a compiled
program, be it the program's own or a side of an argument at any depth, the slots are numbered
from left to right, one for each invocation, placeholders in them give the code, and literals
are neither empty nor next to each other. -/
theorem agrees_of_hasText {source : String} {path : Option String} {p : Program σ}
    (h : compileAt v source path depth = .ok p) {t : FieldText (Invocation σ)}
    (ht : p.HasText t) : t.Agrees := by
  -- Below the top, a text agrees because the invocation around it was read.
  suffices hread : t.Agrees ∧ ∀ i ∈ t.invocations, ∃ tag c c', ReadsInvocation v depth tag c i c' from
    hread.1
  induction ht with
  | top =>
    obtain ⟨_, hall⟩ := readsAll_of_compileAt h
    obtain ⟨draft, hdraft, rfl⟩ := compileAt_eq_ok_iff.1 h
    exact ⟨(hdraft.built .empty).agrees, hall.each⟩
  | side _ hinvoked hwritten hmem ih =>
    obtain ⟨_, _, _, hread⟩ := ih.2 _ hinvoked
    refine ⟨hread.agrees_sides _ hwritten _ hmem, fun j hj => hread.nested j ?_⟩
    exact List.mem_flatMap_of_mem hwritten (Field.mem_invocations_of_mem_sides hmem hj)

/-- One side of a comparison, in an argument of an invocation behind an escaped tag. -/
theorem agrees_of_hasText_comparison :
    let source := "\\$get $if[$get[x]%<=3;y]"
    let get : Invocation Unit :=
      .mk ⟨0, "$get", false, false, none, 0⟩ Builtin.getNative
        (some [.plain ⟨"x", [], .literal "x"⟩])
    let lhs : FieldText (Invocation Unit) := ⟨"[@fn:0]%", [get], ⟨[.slot 0, .text "%"]⟩⟩
    let rhs : FieldText (Invocation Unit) := ⟨"3", [], .literal "3"⟩
    let i : Invocation Unit :=
      .mk ⟨1, "$if", false, false, none, 0⟩ Builtin.ifNative
        (some [.condition .le lhs (some rhs), .plain ⟨"y", [], .literal "y"⟩])
    let p : Program Unit :=
      ⟨source, none, "$get [@fn:1]", [i], ⟨[.text "$get ", .slot 0]⟩, 0⟩
    let v : Vocabulary Unit := .ofNatives [Builtin.getNative, Builtin.ifNative]
    compileAt v source none 0 = .ok p ∧ p.HasText lhs ∧ lhs.Agrees := by
  intro source get lhs rhs i p v
  have hcompile : compileAt v source none 0 = .ok p := by
    subst v p i rhs lhs get source
    with_unfolding_all rfl
  have hside : p.HasText lhs :=
    .side .top (List.mem_singleton_self i) List.mem_cons_self List.mem_cons_self
  exact ⟨hcompile, hside, agrees_of_hasText hcompile hside⟩

end Program

end

end TagTemplate
