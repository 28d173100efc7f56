import TagTemplate.Number.Binary64
import TagTemplate.Text.Blank
import TagTemplate.Text.LowerCase

/-! Numbers written by people.

A numeral is an optional sign before an infinity or a decimal; a decimal has
digits on at least one side of an optional point, and an optional exponent. The
value is the nearest double, and a decimal beyond all doubles counts as
infinite. A text that is blank counts as zero, and a text that says "not a
number" has no value. -/
namespace TagTemplate.Number

/-- A double or an infinity. -/
inductive Extended where
  | finite (value : Binary64)
  | infinite (negative : Bool)
  deriving DecidableEq, Repr

/-- Whether the first number is at most the second. -/
def Extended.le : Extended → Extended → Bool
  | .infinite negative, b => negative || b == .infinite false
  | a, .infinite negative => !negative || a == .infinite true
  | .finite a, .finite b => a.scaled ≤ b.scaled

/-- Whether the first number is less than the second. -/
def Extended.lt (a b : Extended) : Bool := !b.le a

/-- The value of a list of decimal digits. -/
def digitsValue (digits : List Char) : Nat :=
  digits.foldl (fun n c => 10 * n + (c.toNat - '0'.toNat)) 0

/-- The digits a text begins with, and the rest. -/
def takeDigits (cs : List Char) : List Char × List Char :=
  (cs.takeWhile Char.isDigit, cs.dropWhile Char.isDigit)

/-- The sign a text begins with (whether it is a minus), and the rest. -/
def takeSign : List Char → Bool × List Char
  | '-' :: cs => (true, cs)
  | '+' :: cs => (false, cs)
  | cs => (false, cs)

/-- The exponent that makes up a whole text: nothing, or a mark, an optional sign
and digits. -/
def exponentOf : List Char → Option Int
  | [] => some 0
  | mark :: cs =>
    if mark == 'e' || mark == 'E' then
      let (negative, cs) := takeSign cs
      let (digits, rest) := takeDigits cs
      if digits.isEmpty || !rest.isEmpty then none
      else some (if negative then -(digitsValue digits : Int) else digitsValue digits)
    else none

/-- The decimal that makes up a whole text, as its digits and a power of ten. -/
def decimalValue (cs : List Char) : Option (Nat × Int) :=
  let (whole, rest) := takeDigits cs
  let (fraction, rest) :=
    match rest with
    | '.' :: rest => takeDigits rest
    | rest => ([], rest)
  if whole.isEmpty && fraction.isEmpty then none
  else (exponentOf rest).map fun e => (digitsValue (whole ++ fraction), e - fraction.length)

/-- The number a text without surrounding blanks spells. -/
def numeral (cs : List Char) : Option Extended :=
  let (negative, cs) := takeSign cs
  let word := String.ofList (cs.map Char.toLower)
  if word == "inf" || word == "infinity" then some (.infinite negative)
  else
    (decimalValue cs).map fun (digits, exponent) =>
      match Binary64.ofDecimal? negative digits exponent with
      | some x => .finite x
      | none => .infinite negative

/-- The number a text stands for in a comparison. -/
def ofText (s : String) : Option Extended :=
  let cs := Text.trimChars s.toList
  if cs.isEmpty then some (.finite (Binary64.zero false)) else numeral cs

end TagTemplate.Number
