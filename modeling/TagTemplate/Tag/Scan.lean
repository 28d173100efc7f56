/-! Leftmost matches that do not overlap.

Given a rule that says what matches at the start of a text, `marks` goes through
the text once and marks each character at which a match begins. Characters
inside a match are passed over, so no second match begins there. -/
namespace TagTemplate.Tag
variable {α : Type}

/-- The characters of a text, each with the match that begins at it; the first
`skip` characters belong to a match that began before. -/
def marksFrom (rule : List Char → Option α) (width : α → Nat) :
    (skip : Nat) → List Char → List (Char × Option α)
  | _, [] => []
  | skip + 1, c :: cs => (c, none) :: marksFrom rule width skip cs
  | 0, c :: cs =>
    match rule (c :: cs) with
    | some found => (c, some found) :: marksFrom rule width (width found - 1) cs
    | none => (c, none) :: marksFrom rule width 0 cs

/-- The characters of a text, each with the match that begins at it. -/
def marks (rule : List Char → Option α) (width : α → Nat) (cs : List Char) :
    List (Char × Option α) :=
  marksFrom rule width 0 cs

/-- Marking keeps the text. -/
theorem map_fst_marksFrom (rule : List Char → Option α) (width : α → Nat) (skip : Nat)
    (cs : List Char) : (marksFrom rule width skip cs).map (·.1) = cs := by
  induction cs generalizing skip with
  | nil => cases skip <;> rfl
  | cons c cs ih =>
    cases skip with
    | succ skip => simp [marksFrom, ih]
    | zero =>
      simp only [marksFrom]
      split <;> simp [ih]

end TagTemplate.Tag
