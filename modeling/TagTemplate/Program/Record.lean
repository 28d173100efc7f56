import TagTemplate.Program.Basic

/-! Programs as JSON records. -/
namespace TagTemplate

/-- The record of a piece of a template. -/
def Segment.toDocument : Segment → Document
  | .text content => .record [("text", .text content)]
  | .slot position => .record [("slot", .nat position)]

/-- The record of a template. -/
def Template.toDocument (t : Template) : Document :=
  .record [("segments", .array (t.segments.map Segment.toDocument))]

namespace Invocation
variable {σ : Type}

mutual

/-- The record of an invocation. -/
def toDocument : Invocation σ → Document
  | .mk h _ none => headed h .null
  | .mk h _ (some fields) => headed h (.array (fieldDocuments fields))

/-- The records of some arguments. -/
def fieldDocuments : List (Field (Invocation σ)) → List Document
  | [] => []
  | field :: fields => fieldDocument field :: fieldDocuments fields

/-- The record of an argument. -/
def fieldDocument : Field (Invocation σ) → Document
  | .plain text => .record (("kind", .text "plain") :: textEntries text)
  | .condition op lhs none =>
    .record [
      ("kind", .text "condition"),
      ("op", .text op.name),
      ("lhs", .record (textEntries lhs)),
      ("rhs", .null)]
  | .condition op lhs (some rhs) =>
    .record [
      ("kind", .text "condition"),
      ("op", .text op.name),
      ("lhs", .record (textEntries lhs)),
      ("rhs", .record (textEntries rhs))]

/-- The entries of one side of an argument. -/
def textEntries : FieldText (Invocation σ) → List (String × Document)
  | ⟨value, invocations, template⟩ => [
    ("value", .text value),
    ("functions", .array (documents invocations)),
    ("template", template.toDocument)]

/-- The records of some invocations. -/
def documents : List (Invocation σ) → List Document
  | [] => []
  | i :: is => toDocument i :: documents is

/-- The record of a heading, with the arguments in their place. -/
def headed (h : Heading) (fields : Document) : Document :=
  .record [
    ("index", .nat h.index),
    ("id", .text h.id),
    ("name", .text h.name),
    ("negated", .bool h.negated),
    ("silent", .bool h.silent),
    ("count", .text? h.count),
    ("fields", fields),
    ("depth", .nat h.depth)]

end

end Invocation

/-- The entries of the record of a program. -/
def Program.entries {σ : Type} (p : Program σ) : List (String × Document) := [
  ("source", .text p.source),
  ("path", .text? p.path),
  ("code", .text p.code),
  ("functions", .array (Invocation.documents p.invocations)),
  ("template", p.template.toDocument),
  ("depth", .nat p.depth)]

/-- The record of a program. -/
def Program.toDocument {σ : Type} (p : Program σ) : Document := .record p.entries

end TagTemplate
