import TagTemplate.Tag.Scan
import TagTemplate.Text.CaseFold
import TagTemplate.Text.Location

/-! Recognising the tags of a vocabulary.

A tag is a dollar sign, an optional `!`, an optional `#`, an optional count
annotation `@[…]`, and one of the registered words in any letter case. The
readings of a text are tried in a fixed order and the first that reaches a word
is taken: modifiers are read rather than left out, an annotation ends as early
as it can and never contains a line break, and words are tried in the order of
the vocabulary. -/
namespace TagTemplate

/-- A tag as it is written, up to its word. -/
structure Tag where
  /-- Whether `!` was written. -/
  negated : Bool
  /-- Whether `#` was written. -/
  silent : Bool
  /-- The text of the annotation, if there was one. -/
  count : Option String
  /-- The word, in the letter case in which it was written. -/
  name : String
  deriving DecidableEq, Repr

namespace Tag

/-- An annotation as it is written. -/
def spellCount : Option String → List Char
  | none => []
  | some count => '@' :: '[' :: (count.toList ++ [']'])

/-- A tag as it is written. -/
def spelling (t : Tag) : List Char :=
  '$' :: ((if t.negated then ['!'] else []) ++ (if t.silent then ['#'] else []) ++
    spellCount t.count ++ t.name.toList)

/-- The number of characters of a tag. -/
def width (t : Tag) : Nat := t.spelling.length

/-- The first of some words that a text begins with, as it is written there. -/
def wordAt (words : List (List Char)) (cs : List Char) : Option String :=
  (words.findSome? fun word => Text.spelledAs word cs).map String.ofList

/-- The rest of an annotation and the word after it: the earliest closing bracket
that a word follows ends the annotation. -/
def countedWord (words : List (List Char)) : List Char → Option (List Char × String)
  | [] => none
  | c :: cs =>
    let later :=
      if c == '\n' then none
      else (countedWord words cs).map fun (count, name) => (c :: count, name)
    if c == ']' then
      match wordAt words cs with
      | some name => some ([], name)
      | none => later
    else later

/-- The tag whose `!` and `#` have been read. -/
def afterMarks (words : List (List Char)) (negated silent : Bool) (cs : List Char) : Option Tag :=
  let bare := (wordAt words cs).map fun name => ⟨negated, silent, none, name⟩
  match cs with
  | '@' :: '[' :: rest =>
    match countedWord words rest with
    | some (count, name) => some ⟨negated, silent, some (String.ofList count), name⟩
    | none => bare
  | _ => bare

/-- The tag whose `!` has been read. -/
def afterNegation (words : List (List Char)) (negated : Bool) (cs : List Char) : Option Tag :=
  match cs with
  | '#' :: rest => (afterMarks words negated true rest).or (afterMarks words negated false cs)
  | _ => afterMarks words negated false cs

/-- The tag whose dollar sign has been read. -/
def afterDollar (words : List (List Char)) (cs : List Char) : Option Tag :=
  match cs with
  | '!' :: rest => (afterNegation words true rest).or (afterNegation words false cs)
  | _ => afterNegation words false cs

/-- The tag at the start of a text. -/
def tagAt (words : List (List Char)) : List Char → Option Tag
  | '$' :: cs => afterDollar words cs
  | _ => none

/-- The tags of a text, marked at their dollar signs. -/
def tagMarks (words : List (List Char)) (cs : List Char) : List (Char × Option Tag) :=
  marks (tagAt words) width cs

/-- The tags among marked characters, each with the bytes it takes. -/
def located (offset : Nat) : List (Char × Option Tag) → List (Text.Span × Tag)
  | [] => []
  | (c, some tag) :: rest =>
    (⟨offset, offset + Text.byteWidth tag.spelling⟩, tag) :: located (offset + c.utf8Size) rest
  | (c, none) :: rest => located (offset + c.utf8Size) rest

end Tag

end TagTemplate
