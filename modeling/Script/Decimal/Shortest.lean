/-
# The fewest digits that read back

Of all decimals that round to a given double, the shortest is chosen, and among those of that
length the one nearest to the double; an exact tie goes to the even digit.  The choice is made
in exact natural-number arithmetic on the double's rounding interval.
-/
import Script.Decimal.Double

namespace Script.Decimal

/-- The decimal `coefficient * 10 ^ exponent`. -/
structure Digits where
  coefficient : Nat
  exponent : Int
  deriving DecidableEq, Repr

/-! ## 1. Comparing decimals with binary fractions -/

/-- Multiplying `c * 10 ^ k` by this and `t * 2 ^ q` by `binaryScale k q` makes both natural. -/
def decimalScale (k q : Int) : Nat := Nat.pow 10 k.toNat * Nat.pow 2 (-q).toNat

/-- The factor that goes with `decimalScale`. -/
def binaryScale (k q : Int) : Nat := Nat.pow 2 q.toNat * Nat.pow 10 (-k).toNat

/-- The number of decimal digits of a natural number. -/
def width (n : Nat) : Nat := (Nat.toDigits 10 n).length

/-- The power of ten of the leading digit of `mantissa * 2 ^ exponent`. -/
def leadingPower (mantissa : Nat) (exponent : Int) : Int :=
  let numerator := mantissa * Nat.pow 2 exponent.toNat
  let denominator := Nat.pow 2 (-exponent).toNat
  let estimate : Int := (width numerator : Int) - width denominator
  if numerator * Nat.pow 10 (-estimate).toNat ≥ denominator * Nat.pow 10 estimate.toNat then
    estimate
  else estimate - 1

/-! ## 2. The rounding interval -/

/-- The distance from a double to the lower end of its rounding interval, in quarters of its
last place: a half place, but a quarter just above a power of two. -/
def lowerGap (mantissa : Nat) (exponent : Int) : Nat :=
  if mantissa = Double.leastNormal ∧ exponent > Double.leastExponent then 1 else 2

/-- Whether `coefficient * 10 ^ k` rounds to `mantissa * 2 ^ exponent`; the ends of the interval
belong to it when the mantissa is even. -/
def readsBack (mantissa : Nat) (exponent : Int) (coefficient : Nat) (k : Int) : Bool :=
  let point := coefficient * decimalScale k (exponent - 2)
  let unit := binaryScale k (exponent - 2)
  let low := (4 * mantissa - lowerGap mantissa exponent) * unit
  let high := (4 * mantissa + 2) * unit
  if mantissa % 2 = 0 then low ≤ point && point ≤ high else low < point && point < high

/-! ## 3. The choice -/

/-- The best decimal on the grid `10 ^ k` that reads back, if either neighbour does. -/
def onGrid? (mantissa : Nat) (exponent : Int) (k : Int) : Option Digits :=
  let step := decimalScale k (exponent - 2)
  let exact := 4 * mantissa * binaryScale k (exponent - 2)
  let below := exact / step
  let above := below + 1
  match readsBack mantissa exponent below k, readsBack mantissa exponent above k with
  | true, false => some ⟨below, k⟩
  | false, true => some ⟨above, k⟩
  | false, false => none
  | true, true =>
    let down := exact - below * step
    let up := above * step - exact
    if down < up || (down == up && below % 2 == 0) then some ⟨below, k⟩ else some ⟨above, k⟩

/-- The shortest decimal that reads back as the positive double `mantissa * 2 ^ exponent`.
Seventeen digits always do. -/
def shortest (mantissa : Nat) (exponent : Int) : Digits :=
  let top := leadingPower mantissa exponent
  ((List.range 17).findSome? fun (i : Nat) =>
    onGrid? mantissa exponent (top - i)).getD ⟨0, 0⟩

end Script.Decimal
