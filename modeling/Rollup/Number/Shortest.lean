import Rollup.Number.Binary64

/-!
# Shortest decimal digits

The fewest decimal digits that read back as a given double: of the decimal numbers that round to
it, one with the fewest digits, and of those the nearest.
-/

namespace Rollup

/-- `digits * 10 ^ power`. -/
structure Decimal where
  digits : Nat
  power : Int
deriving DecidableEq, Repr

namespace Magnitude

/-- The decimal fraction `n / d` compared with `digits * 10 ^ power`, both sides as products. -/
def decimalSides (n d : Nat) (x : Decimal) : Nat × Nat :=
  if 0 ≤ x.power then (n, x.digits * Nat.pow 10 x.power.toNat * d)
  else (n * Nat.pow 10 (-x.power).toNat, x.digits * d)

/-- Whether a decimal number rounds to a positive magnitude: it lies between the midpoints to the
two neighbours, and on one only if the mantissa is even. -/
def roundsTo (x : Magnitude) (t : Decimal) : Bool :=
  let quarter : Magnitude := ⟨4 * x.mantissa, x.exponent - 2⟩
  let below := if x.mantissa = Nat.pow 2 52 ∧ -1074 < x.exponent then 1 else 2
  let (lowNum, lowDen) := Magnitude.fraction ⟨quarter.mantissa - below, quarter.exponent⟩
  let (highNum, highDen) := Magnitude.fraction ⟨quarter.mantissa + 2, quarter.exponent⟩
  let (low, tLow) := decimalSides lowNum lowDen t
  let (high, tHigh) := decimalSides highNum highDen t
  if x.mantissa % 2 = 0 then low ≤ tLow && tHigh ≤ high else low < tLow && tHigh < high

/-- The power of ten of the leading digit of a positive fraction. -/
def leadingPower (num den : Nat) : Int :=
  if den ≤ num then ((Nat.toDigits 10 (num / den)).length : Int) - 1
  else
    let d := (Nat.toDigits 10 (den / num)).length
    if den ≤ Nat.pow 10 (d - 1) * num then -((d : Int) - 1) else -(d : Int)

/-- The two neighbours of a fraction with a unit of `10 ^ power`, and whether the upper one is
nearer. -/
def neighbours (num den : Nat) (power : Int) : Decimal × Decimal × Bool :=
  let (n, d) :=
    if 0 ≤ power then (num, den * Nat.pow 10 power.toNat)
    else (num * Nat.pow 10 (-power).toNat, den)
  let q := n / d
  (⟨q, power⟩, ⟨q + 1, power⟩, d < 2 * (n % d) || (d == 2 * (n % d) && q % 2 == 1))

/-- The shortest decimal with `have` digits or more; `left` further counts may be tried. -/
def shortestFrom (x : Magnitude) (num den : Nat) (lead : Int) : (left count : Nat) → Decimal
  | 0, count => (neighbours num den (lead - count + 1)).1
  | left + 1, count =>
    let (down, up, upper) := neighbours num den (lead - count + 1)
    match x.roundsTo down, x.roundsTo up with
    | true, true => if upper then up else down
    | true, false => down
    | false, true => up
    | false, false => shortestFrom x num den lead left (count + 1)

/-- The shortest decimal of a positive magnitude.  Seventeen digits always do. -/
def shortest (x : Magnitude) : Decimal :=
  let (num, den) := x.fraction
  shortestFrom x num den (leadingPower num den) 17 1

end Magnitude

end Rollup
