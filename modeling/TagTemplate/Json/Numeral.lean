import TagTemplate.Json.Basic
import TagTemplate.Number.Numeral

/-! The number a JSON numeral stands for.

A numeral without point and exponent is an integer when it lies between -2^63
and 2^64 - 1 and is not a negative zero. Every other numeral is a double, found
in two rounded steps: its first digits, as many as fit 64 bits, are rounded to a
double, which is then multiplied or divided by a power of ten. Digits that do
not fit are dropped, and those of the whole part still count as a place. -/
namespace TagTemplate

/-- A numeral in its written parts. -/
structure JsonNumeral where
  negative : Bool
  whole : List Char
  fraction : Option (List Char)
  exponent : Option Int

namespace JsonNumeral
open Number

/-- The largest natural of 64 bits. -/
def maxWord : Nat := Nat.pow 2 64 - 1

/-- Appends digits to a significand until one does not fit; returns what fitted
and the digits left over. -/
def gather (significand : Nat) : List Char → Nat × List Char
  | [] => (significand, [])
  | c :: cs =>
    let next := 10 * significand + (c.toNat - '0'.toNat)
    if next ≤ maxWord then gather next cs else (significand, c :: cs)

/-- The significand of a numeral, and the power of ten of its last digit. -/
def significand (n : JsonNumeral) : Nat × Int :=
  let (head, dropped) := gather 0 n.whole
  let fraction := n.fraction.getD []
  let (all, unread) := gather head fraction
  (all, (dropped.length : Int) - (fraction.length - unread.length : Nat))

/-- Ten to the power of `k`, rounded. -/
def powerOfTen (k : Nat) : Binary64 :=
  ((Binary64.ofNat? (Nat.pow 10 k)).getD (Binary64.zero false))

/-- Divides by 10^308 until the exponent is at least -308; three divisions bring
any significand to zero. -/
def descend : Nat → Binary64 → Int → Option Binary64
  | 0, _, _ => some (Binary64.zero false)
  | steps + 1, x, e =>
    if -308 ≤ e then x.div? (powerOfTen e.natAbs)
    else if x.isZero then some x
    else
      match x.div? (powerOfTen 308) with
      | some y => descend steps y (e + 308)
      | none => none

/-- A significand times a power of ten, unless it is too large. -/
def scale (significand : Nat) (exponent : Int) : Option Binary64 :=
  match Binary64.ofNat? significand with
  | none => none
  | some x =>
    if exponent < 0 then descend 5 x exponent
    else if exponent ≤ 308 then x.mul? (powerOfTen exponent.toNat)
    else if x.isZero then some x
    else none

/-- The double of a numeral, unless it is too large. -/
def real? (n : JsonNumeral) : Option Binary64 :=
  let (digits, place) := n.significand
  (scale digits (place + n.exponent.getD 0)).map fun x => { x with negative := n.negative }

/-- The number of a numeral, unless it is too large for a double. -/
def value? (n : JsonNumeral) : Option JsonNumber :=
  let magnitude := digitsValue n.whole
  let isWhole := n.fraction.isNone && n.exponent.isNone
  if isWhole && !n.negative && magnitude ≤ maxWord then some (.integer magnitude)
  else if isWhole && n.negative && magnitude != 0 && magnitude ≤ Nat.pow 2 63 then
    some (.integer (-(magnitude : Int)))
  else n.real?.map .real

end JsonNumeral

end TagTemplate
