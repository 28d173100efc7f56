import TagTemplate.Proofs.Program.Reading
import TagTemplate.Proofs.Template

/-! Texts as characters and slots.

A text of a program is kept three times: as code, as a list of invocations and as a
template. All three follow from one list of parts, in which literal characters and
invocations stand in order: `FieldText.ofParts` gives them, from the literal texts
between the slots. A draft to which parts are added one by one finishes as exactly that
text (`finish_extend`), so a fact about how a text is put together is a fact about a
list. -/
namespace TagTemplate

section
variable {σ : Type}

/-- The code of some slots, each with the text after it. -/
def Invocation.slottedCode (rest : List (Invocation σ × List Char)) : List Char :=
  rest.flatMap fun slot => slot.1.heading.id.toList ++ slot.2

/-- The text that some parts make up. -/
def FieldText.ofParts (parts : List (Part (Invocation σ))) : FieldText (Invocation σ) where
  value := String.ofList ((Part.split parts).1 ++ Invocation.slottedCode (Part.split parts).2)
  invocations := (Part.split parts).2.map (·.1)
  template := ⟨Template.stretch (Part.split parts).1 ++ Template.slotted 0 (Part.split parts).2⟩

/-- The program whose text is given. -/
def Program.ofText (source : String) (path : Option String) (depth : Nat)
    (text : FieldText (Invocation σ)) : Program σ :=
  ⟨source, path, text.value, text.invocations, text.template, depth⟩

namespace Draft

/-- A draft with one part more. -/
def add (d : Draft σ) : Part (Invocation σ) → Draft σ
  | .char c => d.char c
  | .slot i => d.invoke i

/-- A draft with some parts more. -/
def extend (d : Draft σ) (parts : List (Part (Invocation σ))) : Draft σ :=
  parts.foldl add d

@[simp] theorem extend_nil (d : Draft σ) : d.extend [] = d := rfl

@[simp] theorem extend_char (d : Draft σ) (c : Char) (parts : List (Part (Invocation σ))) :
    d.extend (.char c :: parts) = (d.char c).extend parts := rfl

@[simp] theorem extend_slot (d : Draft σ) (i : Invocation σ) (parts : List (Part (Invocation σ))) :
    d.extend (.slot i :: parts) = (d.invoke i).extend parts := rfl

theorem extend_append (d : Draft σ) (a b : List (Part (Invocation σ))) :
    d.extend (a ++ b) = (d.extend a).extend b :=
  List.foldl_append

/-- The step in building a template that a part is. -/
def step : Part (Invocation σ) → Template.Builder.Step
  | .char c => .char c
  | .slot i => .slot i.heading.id

theorem parts_step (parts : List (Part (Invocation σ))) :
    (parts.map step).flatMap Template.Builder.Step.parts =
      parts.map (Part.map fun i => i.heading.id) := by
  induction parts with
  | nil => rfl
  | cons part parts ih =>
    rw [List.map_cons, List.flatMap_cons, ih, List.map_cons]
    cases part <;> rfl

/-- The text of a draft is built from the parts that are added. -/
theorem text_extend (d : Draft σ) (parts : List (Part (Invocation σ))) :
    (d.extend parts).text = d.text.build (parts.map step) := by
  induction parts generalizing d with
  | nil => rfl
  | cons part parts ih =>
    cases part with
    | char c => exact ih (d.char c)
    | slot i => exact ih (d.invoke i)

theorem code_extend (d : Draft σ) (parts : List (Part (Invocation σ))) :
    (d.extend parts).text.code.toList =
      d.text.code.toList ++
        ((Part.split parts).1 ++ Invocation.slottedCode (Part.split parts).2) := by
  rw [text_extend, Template.Builder.code_build, parts_step, Part.split_map, List.flatMap_map]
  rfl

theorem invocations_extend (d : Draft σ) (parts : List (Part (Invocation σ))) :
    (d.extend parts).invocations = d.invocations ++ (Part.split parts).2.map (·.1) := by
  induction parts generalizing d with
  | nil => simp [Part.split]
  | cons part parts ih =>
    cases part with
    | char c =>
      rw [extend_char, ih]
      simp [Draft.char, Part.split]
    | slot i =>
      rw [extend_slot, ih]
      simp [Draft.invoke, Part.split]

/-- Pending text and the text before the first slot become one segment. -/
theorem settled_extend (d : Draft σ) (parts : List (Part (Invocation σ))) :
    (d.extend parts).text.settled =
      d.text.segments ++ (Template.stretch (d.text.pending.toList ++ (Part.split parts).1) ++
        Template.slotted d.text.slots (Part.split parts).2) := by
  rw [text_extend, Template.Builder.settled_build, parts_step, Template.slotted_split_map,
    Part.split_map]

/-- Characters can be added all at once. -/
theorem extend_chars (d : Draft σ) (cs : List Char) :
    d.extend (cs.map .char) = { d with text := d.text.pushText (String.ofList cs) } := by
  induction cs generalizing d with
  | nil => simp [Template.Builder.pushText]
  | cons c cs ih =>
    rw [List.map_cons, extend_char, ih]
    simp [Draft.char, Template.Builder.push, Template.Builder.pushText, String.ext_iff]

/-- **A draft finishes as the text of the parts that were added to it.** -/
theorem finish_extend (parts : List (Part (Invocation σ))) :
    (({} : Draft σ).extend parts).finish = FieldText.ofParts parts := by
  unfold Draft.finish FieldText.ofParts
  have hcode := code_extend {} parts
  have hsettled := settled_extend {} parts
  have hinvocations := invocations_extend {} parts
  simp only [String.toList_empty, List.nil_append] at hcode hsettled hinvocations
  rw [hinvocations, Template.Builder.finish, hsettled, ← hcode, String.ofList_toList]

end Draft

/-- The program of a draft is the one whose text its parts make up. -/
theorem Program.ofDraft_extend (source : String) (path : Option String) (depth : Nat)
    (parts : List (Part (Invocation σ))) :
    ofDraft source path depth (({} : Draft σ).extend parts) =
      ofText source path depth (.ofParts parts) := by
  rw [← Draft.finish_extend]
  rfl

/-- Text without tags reads as it stands. -/
theorem Program.ReadsText.of_any_eq_false {v : Vocabulary σ} {depth : Nat} {draft : Draft σ}
    {ts : List Token} {next : Nat}
    (h : ts.any Token.marksTag = false) :
    ReadsText v depth draft ⟨ts, next⟩ (draft.extend ((ts.flatMap Token.spelling).map .char)) := by
  induction ts generalizing draft with
  | nil => exact .done
  | cons t ts ih =>
    obtain ⟨ht, hts⟩ := Bool.or_eq_false_iff.1 h
    cases t with
    | tag start tag => cases ht
    | escape hidden c =>
      exact .kept (by rw [show hidden = false from ht, hts, Bool.false_or]) (ih hts)
    | char c => exact .char (ih hts)

end

end TagTemplate
