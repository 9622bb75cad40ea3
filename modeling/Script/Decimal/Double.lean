/-
# The exact number behind a double

A finite double is `mantissa * 2 ^ exponent` with a sign.  Everything the library prints about
a number is computed from this reading in exact arithmetic, never from a rounded text.
-/

namespace Script

/-- What a double stands for. -/
inductive Double where
  | nan
  | infinite (negative : Bool)
  /-- The number `± mantissa * 2 ^ exponent`; both zeros have mantissa `0`. -/
  | finite (negative : Bool) (mantissa : Nat) (exponent : Int)
  deriving DecidableEq, Repr

namespace Double

/-- The exponent of the smallest positive double. -/
def leastExponent : Int := -1074

/-- The mantissa at which the gap to the next lower double halves. -/
def leastNormal : Nat := Nat.pow 2 52

/-- Reads sign, exponent and fraction off the 64 bits. -/
def ofFloat (x : Float) : Double :=
  let bits := x.toBits.toNat
  let negative := bits / Nat.pow 2 63 == 1
  let biased : Nat := bits / Nat.pow 2 52 % Nat.pow 2 11
  let fraction := bits % Nat.pow 2 52
  if biased = 2047 then
    if fraction = 0 then .infinite negative else .nan
  else if biased = 0 then .finite negative fraction leastExponent
  else .finite negative (leastNormal + fraction) ((biased : Int) - 1075)

/-- The magnitude of `mantissa * 2 ^ exponent` when that is a whole number. -/
def wholeMagnitude? (mantissa : Nat) (exponent : Int) : Option Nat :=
  if 0 ≤ exponent then some (mantissa * Nat.pow 2 exponent.toNat)
  else
    let unit := Nat.pow 2 (-exponent).toNat
    if mantissa % unit = 0 then some (mantissa / unit) else none

/-- The sign and magnitude of a double that is a whole number. -/
def whole? : Double → Option (Bool × Nat)
  | .finite negative mantissa exponent =>
    (wholeMagnitude? mantissa exponent).map fun magnitude => (negative, magnitude)
  | _ => none

/-- The integer a double equals, if it equals one. -/
def toInt? (d : Double) : Option Int :=
  d.whole?.map fun (negative, magnitude) => if negative then -(magnitude : Int) else magnitude

end Double

namespace Decimal

/-- A double between the powers `10 ^ -400` and `10 ^ 400` is rounded from its exact decimal;
beyond them every decimal rounds to zero or to infinity, so no such power is ever computed. -/
def reach : Nat := 400

/-- The double nearest to `coefficient * 10 ^ exponent`. -/
def toFloat (coefficient : Nat) (exponent : Int) : Float :=
  let magnitude : Int := (Nat.toDigits 10 coefficient).length + exponent
  if coefficient = 0 then 0.0
  else if magnitude > reach then 1.0 / 0.0
  else if magnitude < -reach then 0.0
  else if exponent < 0 then Float.ofScientific coefficient true (-exponent).toNat
  else Float.ofScientific coefficient false exponent.toNat

/-- The double nearest to an integer; `none` when the integer lies beyond every finite double. -/
def ofInt? (i : Int) : Option Float :=
  let magnitude := toFloat i.natAbs 0
  if magnitude.isInf then none else some (if i < 0 then -magnitude else magnitude)

end Decimal

end Script
