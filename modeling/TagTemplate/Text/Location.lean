/-! Places in a text: line and column, and widths in bytes.

Lines count from one and columns from zero, both in characters; a byte width is
the length of the UTF-8 form. -/
namespace TagTemplate.Text

/-- A line, counted from one, and a column, counted from zero. -/
structure Location where
  line : Nat
  column : Nat
  deriving DecidableEq, Repr

/-- The place after a character. -/
def Location.after (place : Location) (c : Char) : Location :=
  if c == '\n' then ⟨place.line + 1, 0⟩ else ⟨place.line, place.column + 1⟩

/-- The place of the character at `index`, or of the end if there is none. -/
def locate (cs : List Char) (index : Nat) : Location :=
  (cs.take index).foldl Location.after ⟨1, 0⟩

/-- The number of bytes a character list takes. -/
def byteWidth (cs : List Char) : Nat :=
  cs.foldr (fun c width => c.utf8Size + width) 0

theorem byteWidth_append (a b : List Char) : byteWidth (a ++ b) = byteWidth a + byteWidth b := by
  induction a with
  | nil => simp [byteWidth]
  | cons c cs ih =>
    simp only [byteWidth, List.cons_append, List.foldr_cons] at ih ⊢
    rw [ih, Nat.add_assoc]

/-- A stretch of bytes: where it starts and where it ends. -/
structure Span where
  start : Nat
  stop : Nat
  deriving DecidableEq, Repr

/-- Whether a span lies wholly inside another. -/
def Span.within (inner outer : Span) : Bool :=
  outer.start ≤ inner.start && inner.stop ≤ outer.stop

end TagTemplate.Text
