import TagTemplate.Json.Printer
import TagTemplate.Text.Location

/-! Templates: literal text interleaved with numbered slots.

A template is built from left to right by a `Builder`, which at the same time
writes the code: the same text with a placeholder in each slot. Filling a
template puts the display of a value into each slot, and a slot without a value
stays empty. The spans of the filled text say which bytes came from which
segment. -/
namespace TagTemplate

/-- A piece of a template. -/
inductive Segment where
  | text (content : String)
  | slot (position : Nat)
  deriving DecidableEq, Repr

/-- Whether a piece is a slot. -/
def Segment.isSlot : Segment → Bool
  | .slot _ => true
  | .text _ => false

/-- What a piece contributes to the filled text. -/
def Segment.fill (values : List Json) : Segment → String
  | .text content => content
  | .slot position => (values[position]?.map Json.display).getD ""

/-- Literal text interleaved with slots. -/
structure Template where
  segments : List Segment
  deriving DecidableEq, Repr

namespace Template

/-- The template of a literal; an empty literal has no piece. -/
def literal (content : String) : Template :=
  ⟨if content.isEmpty then [] else [.text content]⟩

/-- The number of slots. -/
def slotCount (t : Template) : Nat := t.segments.countP Segment.isSlot

/-- The pieces of the filled text, one for each segment. -/
def pieces (t : Template) (values : List Json) : List String :=
  t.segments.map (·.fill values)

/-- The text with the values in its slots. -/
def resolve (t : Template) (values : List Json) : String :=
  String.join (t.pieces values)

/-- Consecutive spans of the widths of some texts, from an offset on. -/
def tile (offset : Nat) : List String → List Text.Span
  | [] => []
  | piece :: rest =>
    let stop := offset + Text.byteWidth piece.toList
    ⟨offset, stop⟩ :: tile stop rest

/-- The bytes that each segment takes in the filled text. -/
def spans (t : Template) (values : List Json) : List Text.Span :=
  tile 0 (t.pieces values)

/-- A template under construction: the code so far, the finished segments, the
literal text after them, and the number of slots. -/
structure Builder where
  code : String := ""
  segments : List Segment := []
  pending : String := ""
  slots : Nat := 0

namespace Builder

/-- Appends a literal character. -/
def push (b : Builder) (c : Char) : Builder :=
  { b with code := b.code.push c, pending := b.pending.push c }

/-- Appends literal text. -/
def pushText (b : Builder) (content : String) : Builder :=
  { b with code := b.code ++ content, pending := b.pending ++ content }

/-- The segments with the pending text as one of them, if there is any. -/
def settled (b : Builder) : List Segment :=
  if b.pending.isEmpty then b.segments else b.segments ++ [.text b.pending]

/-- Appends the next slot, with its placeholder in the code. -/
def pushSlot (b : Builder) (placeholder : String) : Builder :=
  { code := b.code ++ placeholder
    segments := b.settled ++ [.slot b.slots]
    pending := ""
    slots := b.slots + 1 }

/-- The finished template. -/
def finish (b : Builder) : Template := ⟨b.settled⟩

end Builder

end Template

end TagTemplate
