import Arbor.Number.Digits
import Arbor.Number.Double

/-!
# Doubles by their shortest digits

A double is shown by as few digits as a reader needs to find it again, and of the texts with so few
digits by the nearest one.

* `Double.readers`         the numbers for which the double is the nearest one;
* `Double.onGrid?`         the multiple of a power of ten that is read as the double;
* `Double.shortest`        the digits that show the double;
* `Double.reads_shortest`  they are read as the double;
* `Double.shown`           the text that shows the double.
-/

namespace Arbor

/-! ## reading -/

/-- The numbers between two bounds, in quarters of the smallest positive double.  The bounds belong
to them or not. -/
structure Readers where
  low : Nat
  high : Nat
  closed : Bool

namespace Readers

/-- whether `a / b` is one of the numbers -/
def has (r : Readers) (a b : Nat) : Bool :=
  if r.closed then r.low * b ≤ a && a ≤ r.high * b else r.low * b < a && a < r.high * b

end Readers

/-- the number `digits * 10 ^ exponent` -/
structure Decimal where
  digits : Nat
  exponent : Int
  deriving DecidableEq

namespace Double

/-- The bounds are half-way to the next double on either side, and below a power of two the next one
is only half as far away.  What is half-way is read as the double that is even. -/
def readers (x : Double) : Readers :=
  let gap := Nat.pow 2 (x.exponentField - 1)
  let below := if x.fraction = 0 ∧ 1 < x.exponentField then gap else 2 * gap
  ⟨4 * x.magnitude - below, 4 * x.magnitude + 2 * gap, x.fraction % 2 = 0⟩

/-- whether the decimal is read as the absolute value of the double -/
def reads (x : Double) (d : Decimal) : Bool :=
  x.readers.has (4 * d.digits * (unitsInOne * Nat.pow 10 d.exponent.toNat))
    (Nat.pow 10 (-d.exponent).toNat)

/-- of the multiples of a power of ten that are read as the double the nearest -/
def onGrid? (x : Double) (exponent : Int) : Option Decimal :=
  let a := x.magnitude * Nat.pow 10 (-exponent).toNat
  let b := unitsInOne * Nat.pow 10 exponent.toNat
  let nearest := divNearestEven a b
  let other := if nearest * b ≤ a then nearest + 1 else nearest - 1
  [⟨nearest, exponent⟩, ⟨other, exponent⟩].find? x.reads

/-- with all its digits a double is a decimal -/
def allDigits (x : Double) : Decimal := ⟨x.magnitude * Nat.pow 5 places, -places⟩

/-- the coarsest power of ten comes first, so the digits are as few as can be -/
def shortest (x : Double) : Decimal :=
  let exponents := (List.range (integralPlaces + places)).map fun i : Nat =>
    (integralPlaces : Int) - 1 - i
  (exponents.findSome? x.onGrid?).getD x.allDigits

/-- a double is read as itself -/
theorem readers_has_mul (x : Double) {c : Nat} (hc : 0 < c) :
    x.readers.has (4 * x.magnitude * c) c = true := by
  have hgap : 0 < Nat.pow 2 (x.exponentField - 1) := Nat.two_pow_pos _
  have hlow : x.readers.low ≤ 4 * x.magnitude := Nat.sub_le _ _
  have hhigh : 4 * x.magnitude < x.readers.high := Nat.lt_add_of_pos_right (by omega)
  rw [Readers.has]
  split
  · rw [Bool.and_eq_true]
    exact ⟨decide_eq_true (Nat.mul_le_mul_right c hlow),
      decide_eq_true (Nat.mul_le_mul_right c (Nat.le_of_lt hhigh))⟩
  · rename_i hodd
    have hfraction : x.fraction ≠ 0 := fun h => hodd (by simp [readers, h])
    have hsignificand : 0 < x.significand := by
      rw [significand]
      split <;> omega
    have hpos : 0 < 4 * x.magnitude := Nat.mul_pos (by decide) (Nat.mul_pos hsignificand hgap)
    have hless : x.readers.low < 4 * x.magnitude := by
      simp only [readers, hfraction, false_and, if_false]
      omega
    rw [Bool.and_eq_true]
    exact ⟨decide_eq_true (Nat.mul_lt_mul_of_pos_right hless hc),
      decide_eq_true (Nat.mul_lt_mul_of_pos_right hhigh hc)⟩

theorem reads_allDigits (x : Double) : x.reads x.allDigits = true := by
  unfold reads allDigits unitsInOne
  generalize places = n
  have hvalue : 4 * (x.magnitude * Nat.pow 5 n) * (Nat.pow 2 n * Nat.pow 10 (-(n : Int)).toNat) =
      4 * x.magnitude * Nat.pow 10 n := by
    rw [Int.toNat_neg_natCast]
    show 4 * (x.magnitude * Nat.pow 5 n) * (Nat.pow 2 n * 1) = _
    rw [Nat.mul_one, ← Nat.mul_assoc, Nat.mul_assoc]
    exact congrArg (4 * x.magnitude * ·) (Nat.mul_pow 5 2 n).symm
  rw [hvalue, Int.neg_neg, Int.toNat_natCast]
  exact x.readers_has_mul (Nat.pow_pos (by decide))

/-- what shows a double is read as it -/
theorem reads_shortest (x : Double) : x.reads x.shortest = true := by
  rw [shortest]
  cases hfound : ((List.range (integralPlaces + places)).map fun i : Nat =>
      (integralPlaces : Int) - 1 - i).findSome? x.onGrid? with
  | none => exact x.reads_allDigits
  | some d =>
    obtain ⟨e, _, he⟩ := List.exists_of_findSome?_eq_some hfound
    exact List.find?_some he

/-! ## texts -/

/-- digits with the point behind `point` of them, and zeros up to the point or from there on -/
def positional (digits : List Char) (point : Int) : String :=
  let zeros := List.replicate (point - digits.length).toNat '0'
  let leading := List.replicate (-point).toNat '0'
  let integral := digits.take point.toNat ++ zeros
  let fractional := leading ++ digits.drop point.toNat
  String.ofList (if integral = [] then ['0'] else integral) ++ "." ++
    String.ofList (if fractional = [] then ['0'] else fractional)

/-- the first digit in front of the point, and the exponent with two digits at least -/
def scientific (digits : List Char) (exponent : Int) : String :=
  let fractional := digits.drop 1
  String.ofList (digits.take 1) ++
    (if fractional = [] then "" else "." ++ String.ofList fractional) ++
    (if exponent < 0 then "e-" else "e+") ++
    (if exponent.natAbs < 10 then "0" else "") ++ naturalText exponent.natAbs

/-- in positional notation as long as that is not much longer than the digits -/
def shown (x : Double) : String :=
  match x.datum with
  | .nan => "nan"
  | .infinite negative => if negative then "-inf" else "inf"
  | .finite negative magnitude =>
    let sign := if negative then "-" else ""
    if magnitude = 0 then sign ++ "0.0"
    else
      let decimal := x.shortest
      let digits := Nat.toDigits 10 decimal.digits
      let point := digits.length + decimal.exponent
      sign ++ (if -4 < point ∧ point ≤ 16 then positional digits point
        else scientific digits (point - 1))

end Double
end Arbor
