import TagTemplate.Text.LowerCase

/-! Letters that differ only in case.

Two characters are the same letter when their simple case foldings agree. The
folding of a character is its lower-case form, except that a few lower-case
letters (long s, final sigma, the curled Greek letters) fold further onto the
ordinary one, and that the youngest capitals fold onto nothing: lower case
follows Unicode 17 and folding Unicode 16, which lacks their pairs. -/
namespace TagTemplate.Text

/-- Lower-case letters that fold onto another letter. -/
def foldedVariants : List (Nat × Nat) :=
  [(0xB5, 0x3BC), (0x17F, 0x73), (0x345, 0x3B9), (0x3C2, 0x3C3), (0x3D0, 0x3B2),
    (0x3D1, 0x3B8), (0x3D5, 0x3C6), (0x3D6, 0x3C0), (0x3F0, 0x3BA), (0x3F1, 0x3C1),
    (0x3F5, 0x3B5), (0x1C80, 0x432), (0x1C81, 0x434), (0x1C82, 0x43E), (0x1C83, 0x441),
    (0x1C84, 0x442), (0x1C85, 0x442), (0x1C86, 0x44A), (0x1C87, 0x463), (0x1C88, 0xA64B),
    (0x1E9B, 0x1E61), (0x1FBE, 0x3B9), (0x1FD3, 0x390), (0x1FE3, 0x3B0), (0xFB06, 0xFB05)]

/-- The ranges of capitals that came with Unicode 17. They have a lower-case
form, but as written words they match only themselves. -/
def unfoldedCapitals : List (Nat × Nat) :=
  [(0xA7CE, 0xA7CE), (0xA7D2, 0xA7D2), (0xA7D4, 0xA7D4), (0x16EA0, 0x16EB8)]

/-- The representative of a character among all its case forms. -/
def fold (c : Char) : Char :=
  let l := lowerChar c
  if l.toNat < 128 then l
  else if inRanges unfoldedCapitals c.toNat then c
  else
    match foldedVariants.lookup l.toNat with
    | some n => Char.ofNat n
    | none => l

/-- Whether two characters differ at most in case. -/
def sameLetter (a b : Char) : Bool := fold a == fold b

/-- The part of a text, as written, that spells `word` up to case at its start. -/
def spelledAs : (word : List Char) → List Char → Option (List Char)
  | [], _ => some []
  | _ :: _, [] => none
  | w :: word, c :: cs => if sameLetter w c then (spelledAs word cs).map (c :: ·) else none

theorem length_of_spelledAs {word cs spelled : List Char} (h : spelledAs word cs = some spelled) :
    spelled.length = word.length := by
  induction word generalizing cs spelled with
  | nil => simp_all [spelledAs]
  | cons w word ih =>
    cases cs with
    | nil => simp [spelledAs] at h
    | cons c cs =>
      simp only [spelledAs] at h
      split at h
      · obtain ⟨rest, hr, rfl⟩ := Option.map_eq_some_iff.1 h
        simp [ih hr]
      · cases h

end TagTemplate.Text
