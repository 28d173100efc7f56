/-! Finite doubles in exact arithmetic.

A finite double is a sign, a mantissa below 2^53 and a binary exponent of at
least -1074. Every operation that rounds goes through `ofRatio?`: the double
nearest to a ratio of naturals, a tie going to the even mantissa, and nothing
when the magnitude rounds to 2^1024 or more. -/
namespace TagTemplate.Number

/-- The finite double `±mantissa · 2 ^ exponent`. -/
structure Binary64 where
  negative : Bool
  mantissa : Nat
  exponent : Int
  deriving DecidableEq, Repr

namespace Binary64

/-- Zero, with a sign. -/
def zero (negative : Bool) : Binary64 := ⟨negative, 0, -1074⟩

/-- Whether the value is zero, whatever its sign. -/
def isZero (x : Binary64) : Bool := x.mantissa == 0

/-- The natural nearest to `num / den`, a tie going to the even one. -/
def roundDiv (num den : Nat) : Nat :=
  let floor := num / den
  let twice := 2 * (num % den)
  if twice < den then floor
  else if den < twice then floor + 1
  else if floor % 2 == 0 then floor else floor + 1

/-- The factor `2 ^ e` for a natural, as a numerator and a denominator. -/
def scaleUp (e : Int) : Nat := Nat.pow 2 e.toNat

/-- The exponent of the last mantissa bit of a double near `num / den`. -/
def unitExponent (num den : Nat) : Int :=
  let guess : Int := (num.log2 : Int) - den.log2 - 52
  let fits := num * scaleUp (-guess) < Nat.pow 2 52 * (den * scaleUp guess)
  max (if fits then guess - 1 else guess) (-1074)

/-- The double nearest to `num / den`, unless it is too large. -/
def ofRatio? (negative : Bool) (num den : Nat) : Option Binary64 :=
  if num == 0 then some (zero negative)
  else
    let e := unitExponent num den
    let m := roundDiv (num * scaleUp (-e)) (den * scaleUp e)
    let x : Binary64 := if m == Nat.pow 2 53 then ⟨negative, Nat.pow 2 52, e + 1⟩ else ⟨negative, m, e⟩
    if x.exponent ≤ 971 then some x else none

/-- The magnitude as a ratio of naturals. -/
def ratio (x : Binary64) : Nat × Nat :=
  (x.mantissa * scaleUp x.exponent, scaleUp (-x.exponent))

/-- The double nearest to a natural. -/
def ofNat? (n : Nat) : Option Binary64 := ofRatio? false n 1

/-- The product, rounded. -/
def mul? (x y : Binary64) : Option Binary64 :=
  ofRatio? (x.negative != y.negative) (x.ratio.1 * y.ratio.1) (x.ratio.2 * y.ratio.2)

/-- The quotient by a nonzero double, rounded. -/
def div? (x y : Binary64) : Option Binary64 :=
  ofRatio? (x.negative != y.negative) (x.ratio.1 * y.ratio.2) (x.ratio.2 * y.ratio.1)

/-- The same magnitude with the other sign. -/
def neg (x : Binary64) : Binary64 := { x with negative := !x.negative }

/-- The value times `2 ^ 1074`, which is an integer for every double. -/
def scaled (x : Binary64) : Int :=
  let magnitude : Nat := x.mantissa * Nat.pow 2 (x.exponent + 1074).toNat
  if x.negative then -magnitude else magnitude

/-- The double nearest to `digits · 10 ^ exponent`, unless it is too large. Ten to
the power of 310 is beyond every double and ten to the power of -330 rounds to
zero, so extreme exponents are settled by the number of digits. -/
def ofDecimal? (negative : Bool) (digits : Nat) (exponent : Int) : Option Binary64 :=
  let size : Int := (Nat.toDigits 10 digits).length + exponent
  if digits == 0 || size < -330 then some (zero negative)
  else if 310 < size then none
  else ofRatio? negative (digits * Nat.pow 10 exponent.toNat) (Nat.pow 10 (-exponent).toNat)

end Binary64

end TagTemplate.Number
