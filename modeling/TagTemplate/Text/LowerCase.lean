import TagTemplate.Text.CaseRuns
import TagTemplate.Text.CasedLetters

/-! Lower case.

`lowerChar` maps one character to one character. A whole text follows two rules
more: the dotted capital I becomes two characters, and a capital sigma that ends
a word becomes the final form. -/
namespace TagTemplate.Text

/-- The simple lower-case form of a character. -/
def lowerChar (c : Char) : Char :=
  if c.toNat < 128 then c.toLower
  else
    match lowerRuns.findSome? (·.shift? c.toNat) with
    | some n => Char.ofNat n
    | none => c

/-- Whether the nearest character that is not transparent is a letter. -/
def meetsLetter (cs : List Char) : Bool :=
  match cs.dropWhile isTransparent with
  | [] => false
  | c :: _ => isCased c

/-- Whether a sigma between `before` (nearest first) and `after` ends a word. -/
def endsWord (before after : List Char) : Bool :=
  meetsLetter before && !meetsLetter after

/-- Lowers a text whose characters so far, nearest first, are `before`. -/
def lowerAfter (before : List Char) : List Char → List Char
  | [] => []
  | c :: after =>
    let lowered :=
      if c == 'Σ' then [if endsWord before after then 'ς' else 'σ']
      else if c == 'İ' then ['i', Char.ofNat 0x307]
      else [lowerChar c]
    lowered ++ lowerAfter (c :: before) after

/-- A text in lower case. -/
def lower (s : String) : String :=
  String.ofList (lowerAfter [] s.toList)

/-- A text with its ASCII letters in lower case. -/
def lowerAscii (s : String) : String :=
  String.ofList (s.toList.map Char.toLower)

end TagTemplate.Text
