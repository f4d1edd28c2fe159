import Arbor.Fault
import Arbor.Number.Fixed
import Arbor.Value.Basic

/-!
# Stored forms of values

Attributes are texts.  A number is stored in the text that these functions write for it.

* `Value.integerText`  the integer part of a number in decimal;
* `Value.doubleText`   a number in fixed-point notation, right-aligned to a width;
* `Value.stored`       the stored form of a value.
-/

namespace Arbor

/-- the greatest number of fractional digits of a stored double -/
def defaultPrecision : Int := 8

/-- the width of a stored double, which no text of a number falls short of -/
def defaultWidth : Int := 1

/-- the greatest number of fractional digits that can be asked for -/
def maxPrecision : Int := 0x7FFFFFFF

/-- the greatest number of fractional digits for which those of every double can be counted -/
def exactPrecision : Int := maxPrecision - Double.integralPlaces

/-- widths are signed machine words -/
def maxWidth : Int := 0x7FFFFFFFFFFFFFFF

/-- no text is longer, as far as addresses reach -/
def maxLength : Int := 0x7FFFFFFFFFFF

namespace Value

/-! ## integers -/

/-- The integer part of a number, all digits written; true counts as 1 and false as 0.  That a run may
be set up to refuse integers with too many digits is left out. -/
def integerText : Value → Except Fault String
  | .flag b => .ok (if b then "1" else "0")
  | .integer n => .ok (Arbor.integerText n)
  | .double x =>
    match x.datum with
    | .nan => .error .integerOfNan
    | .infinite _ => .error .integerOfInfinity
    | .finite negative magnitude => .ok (Arbor.integerText (Double.truncate negative magnitude))
  | _ => .error .notNumeric

/-! ## doubles -/

/-- the double that stands for a number -/
def double? : Value → Except Fault Double
  | .flag b => .ok ⟨if b then 0x3ff0000000000000 else 0⟩
  | .integer n =>
    match Double.ofInt? n with
    | some x => .ok x
    | none => .error .beyondDouble
  | .double x => .ok x
  | _ => .error .notNumeric

/-- blanks in front of a text up to the width -/
def alignRight (width : Int) (text : String) : String :=
  String.ofList (List.replicate (width.toNat - text.length) ' ') ++ text

/-- The digits of a number before and behind the point are counted together, and past `maxPrecision` of
them the count goes wrong, as if there were none.  Small whole numbers are not counted. -/
def miscounted (magnitude precision : Nat) : Bool :=
  let room := maxPrecision.toNat - precision
  let small := magnitude % Double.unitsInOne = 0 ∧ magnitude < Nat.pow 10 15 * Double.unitsInOne
  room < Double.integralPlaces && Nat.pow 10 room * Double.unitsInOne ≤ magnitude && !decide small

/-- A double with at most the given number of fractional digits.  Only a finite double asks for
digits, so only for such a double the precision matters, and never beyond the digits it has. -/
def fixedText (x : Double) (precision : Int) : Except Fault String :=
  match x.datum with
  | .nan => .ok "nan"
  | .infinite negative => .ok (if negative then "-inf" else "inf")
  | .finite negative magnitude =>
    if precision < 0 ∨ maxPrecision < precision then .error .precisionOutOfRange
    else if miscounted magnitude precision.toNat then .ok "0"
    else
      .ok (Fixed.round negative magnitude Double.unitsInOne
        (min precision.toNat Double.places)).text

/-- A number as a double in fixed-point notation, with blanks in front up to the width.  Only a width
that is no machine word is refused here.  There may be no memory for a text of another width, and there
is none beyond `maxLength`; the text stands for what would be written then. -/
def doubleText (v : Value) (width precision : Int) : Except Fault String := do
  let x ← v.double?
  let text ← fixedText x precision
  if width < -maxWidth - 1 ∨ maxWidth < width then .error .widthOutOfRange
  else return alignRight width text

/-! ## attributes -/

/-- a text is stored as it is, a number as its decimal text -/
def stored (v : Value) : Except Fault String :=
  match v with
  | .text s => .ok s
  | .flag _ | .integer _ => v.integerText
  | .double _ => v.doubleText defaultWidth defaultPrecision
  | _ => .error (.unstorable v.kindName)

end Value
end Arbor
