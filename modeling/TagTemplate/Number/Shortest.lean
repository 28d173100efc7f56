import TagTemplate.Number.Binary64

/-! The shortest decimal of a double, and its text.

The reals that round to a double form an interval around it, which contains its
ends exactly when the mantissa is even. For one, two, … seventeen digits the two
neighbours of the double on that decimal grid are tried in turn; the first grid
with a hit gives the digits, and of two hits the nearer is taken. -/
namespace TagTemplate.Number

/-- A positive decimal: its significant digits, and the exponent of the first. -/
structure Decimal where
  digits : List Char
  exponent : Int
  deriving DecidableEq, Repr

namespace Binary64

/-- Half the distance to the double below, and half that to the double above, as
numerators over four times the denominator of `ratio`. -/
def reach (x : Binary64) : Nat × Nat :=
  let unit := scaleUp x.exponent
  (if x.mantissa == Nat.pow 2 52 && -1074 < x.exponent then unit else 2 * unit, 2 * unit)

/-- Whether the decimal `n · 10 ^ k` rounds to the magnitude of `x`. -/
def readsBack (x : Binary64) (n : Nat) (k : Int) : Bool :=
  let (num, den) := x.ratio
  let (below, above) := x.reach
  let candidate := 4 * n * Nat.pow 10 k.toNat * den
  let scale := Nat.pow 10 (-k).toNat
  let low := (4 * num - below) * scale
  let high := (4 * num + above) * scale
  if x.mantissa % 2 == 0 then low ≤ candidate && candidate ≤ high
  else low < candidate && candidate < high

/-- The exponent of the first decimal digit of a positive magnitude. -/
def decimalExponent (x : Binary64) : Int :=
  let (num, den) := x.ratio
  if den ≤ num then (Nat.toDigits 10 (num / den)).length - 1
  else -((Nat.toDigits 10 ((den + num - 1) / num - 1)).length : Int)

/-- The decimal on the grid of `10 ^ k` that reads back and lies nearest. -/
def nearestOnGrid (x : Binary64) (k : Int) : Option Nat :=
  let (num, den) := x.ratio
  let num := num * Nat.pow 10 (-k).toNat
  let den := den * Nat.pow 10 k.toNat
  let floor := num / den
  let rest := 2 * (num % den)
  let lowFits := readsBack x floor k
  let highFits := readsBack x (floor + 1) k
  if lowFits && highFits then
    if rest < den || (rest == den && floor % 2 == 0) then some floor else some (floor + 1)
  else if lowFits then some floor
  else if highFits then some (floor + 1)
  else none

/-- The digits of a decimal on the grid of `10 ^ k`, without trailing zeros. -/
def decimalOf (n : Nat) (k : Int) : Decimal :=
  let digits := Nat.toDigits 10 n
  let kept := (digits.reverse.dropWhile (· == '0')).reverse
  ⟨if kept.isEmpty then ['0'] else kept, k + digits.length - 1⟩

/-- The shortest decimal of a positive magnitude; seventeen digits always do. -/
def shortest (x : Binary64) : Decimal :=
  let top := x.decimalExponent
  let grids := (List.range 17).map fun (n : Nat) => top - (n : Int)
  match grids.findSome? fun k => (x.nearestOnGrid k).map fun n => decimalOf n k with
  | some d => d
  | none => ⟨['0'], 0⟩

end Binary64

/-- How a decimal is laid out: without an exponent when that of its first digit
lies between `fixedFrom` and `fixedTo`, and in scientific form otherwise. -/
structure DecimalLayout where
  fixedFrom : Int
  fixedTo : Int

/-- The layout of numbers in JSON text. -/
def DecimalLayout.json : DecimalLayout := ⟨-5, 15⟩

/-- A decimal written out; a fixed form always has a point and a digit after it,
and an exponent always has its sign. -/
def Decimal.render (layout : DecimalLayout) (d : Decimal) : List Char :=
  let e := d.exponent
  if layout.fixedFrom ≤ e && e ≤ layout.fixedTo then
    if e < 0 then '0' :: '.' :: (List.replicate (-e - 1).toNat '0' ++ d.digits)
    else
      let whole := d.digits.take (e.toNat + 1)
      let fraction := d.digits.drop (e.toNat + 1)
      whole ++ List.replicate (e.toNat + 1 - d.digits.length) '0' ++
        '.' :: (if fraction.isEmpty then ['0'] else fraction)
  else
    let fraction := d.digits.drop 1
    d.digits.take 1 ++ (if fraction.isEmpty then [] else '.' :: fraction) ++
      'e' :: (if e < 0 then '-' else '+') :: Nat.toDigits 10 e.natAbs

/-- The text of a double: its sign, then the shortest decimal that reads back. -/
def Binary64.render (x : Binary64) : List Char :=
  let sign := if x.negative then ['-'] else []
  if x.isZero then sign ++ ['0', '.', '0'] else sign ++ x.shortest.render .json

end TagTemplate.Number
