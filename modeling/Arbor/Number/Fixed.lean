import Arbor.Number.Digits
import Arbor.Number.Rounding

/-!
# Decimals in fixed-point notation

A decimal `± coefficient / 10^places` and the way it is written.

* `Fixed.round`    the decimal with at most the given number of places that is nearest to a
                   fraction, ties to even, in its shortest form;
* `Fixed.trim`     drops the zeros at the end of the fractional digits;
* `Fixed.text`     the decimal in digits.
-/

namespace Arbor

/-- the number `± coefficient / 10^places` -/
structure Fixed where
  negative : Bool
  coefficient : Nat
  places : Nat
  deriving DecidableEq

namespace Fixed

/-! ## the shortest form -/

/-- drops zeros from the end of a coefficient, at most one for each place -/
def trim : Nat → Nat → Nat × Nat
  | coefficient, 0 => (coefficient, 0)
  | coefficient, places + 1 =>
    if coefficient % 10 = 0 then trim (coefficient / 10) places else (coefficient, places + 1)

theorem trim_places_le (coefficient places : Nat) : (trim coefficient places).2 ≤ places := by
  induction places generalizing coefficient with
  | zero => exact Nat.le_refl 0
  | succ places ih =>
    rw [trim]
    split
    · exact Nat.le_succ_of_le (ih _)
    · exact Nat.le_refl _

/-- `± a / b` with at most `precision` places, rounded to nearest, ties to even; zero has no sign -/
def round (negative : Bool) (a b precision : Nat) : Fixed :=
  let coefficient := divNearestEven (a * Nat.pow 10 precision) b
  let (digits, places) := trim coefficient precision
  ⟨negative && coefficient != 0, digits, places⟩

/-! ## in digits -/

/-- the integer part has at least one digit, and there is no point without a digit after it -/
def text (x : Fixed) : String :=
  let sign := if x.negative then "-" else ""
  let integral := naturalText (x.coefficient / Nat.pow 10 x.places)
  if x.places = 0 then sign ++ integral
  else
    sign ++ integral ++ "." ++
      String.ofList (paddedDigits 10 x.places (x.coefficient % Nat.pow 10 x.places))

end Fixed
end Arbor
