import Arbor.Number.Rounding

/-!
# Double-precision numbers

A double is its 64 bits: the sign, eleven bits of exponent and 52 bits of fraction.  A finite double
is a whole number of units of `2^-1074`, the smallest positive double, so its exact value needs no
fractions: `± magnitude / unitsInOne`.

* `Double.datum`     what the bits stand for: no number, an infinity, or a sign and a magnitude;
* `Double.truncate`  the integer part of a sign and a magnitude;
* `Double.ofInt?`    the double nearest to an integer, ties to even; none when that is no longer
                     finite.
-/

namespace Arbor

/-- a number in double precision -/
structure Double where
  bits : UInt64
  deriving DecidableEq

namespace Double

/-! ## fields -/

def negative (x : Double) : Bool := x.bits.toNat / Nat.pow 2 63 == 1

def exponentField (x : Double) : Nat := x.bits.toNat / Nat.pow 2 52 % Nat.pow 2 11

def fraction (x : Double) : Nat := x.bits.toNat % Nat.pow 2 52

/-- the digits of a finite double; the leading one is not stored unless the exponent field is 0 -/
def significand (x : Double) : Nat :=
  if x.exponentField = 0 then x.fraction else Nat.pow 2 52 + x.fraction

/-! ## values -/

/-- a unit has so many fractional digits, in base two as in base ten, and so has no double more -/
def places : Nat := 1074

/-- no finite double has more digits before the point, since all are below `10^309` -/
def integralPlaces : Nat := 309

/-- a double is counted in units of `2^-1074` -/
def unitsInOne : Nat := Nat.pow 2 places

/-- the absolute value of a finite double in units of `2^-1074` -/
def magnitude (x : Double) : Nat := x.significand * Nat.pow 2 (x.exponentField - 1)

/-- what a double stands for -/
inductive Datum where
  | nan
  | infinite (negative : Bool)
  | finite (negative : Bool) (magnitude : Nat)
  deriving DecidableEq

def datum (x : Double) : Datum :=
  if x.exponentField = 2047 then
    if x.fraction = 0 then .infinite x.negative else .nan
  else .finite x.negative x.magnitude

/-- the integer part of `± magnitude / unitsInOne`, which is the nearest integer towards zero -/
def truncate (negative : Bool) (magnitude : Nat) : Int :=
  if negative then -(magnitude / unitsInOne : Nat) else (magnitude / unitsInOne : Nat)

/-! ## nearest doubles -/

/-- The bits of the double nearest to a natural number.  The significand `m` has 53 digits, so its
leading one adds 1 to the exponent field, and so does a carry of the rounding. -/
def wordOfNat (n : Nat) : Nat :=
  if n = 0 then 0 else
    let e := n.log2
    let m := if e ≤ 52 then n * Nat.pow 2 (52 - e) else divNearestEven n (Nat.pow 2 (e - 52))
    (e + 1022) * Nat.pow 2 52 + m

/-- the double nearest to an integer, unless it is `2^1024` or more in absolute value -/
def ofInt? (n : Int) : Option Double :=
  let word := wordOfNat n.natAbs
  if word < 2047 * Nat.pow 2 52 then
    some ⟨UInt64.ofNat (if n < 0 then Nat.pow 2 63 + word else word)⟩
  else none

end Double
end Arbor
