/-!
# Rounding a quotient to the nearest whole number

* `divNearestEven a b`  the whole number nearest to `a / b`; of two equally near, the even one.
-/

namespace Arbor

/-- the whole number nearest to `a / b`, and the even one of two that are equally near -/
def divNearestEven (a b : Nat) : Nat :=
  let q := a / b
  let twice := 2 * (a % b)
  if twice < b then q else if b < twice then q + 1 else q + q % 2

end Arbor
