import Arbor.Proofs.NearestEven
import Arbor.Value.Stored
import Mathlib.Data.Set.Finite.Lemmas

/-!
# Doubles in decimal

The decimal text of a finite double is that of its exact value, rounded.

* `Double.value`                  the exact value of a finite double;
* `Double.roundsTo_value_of_min`  no double has more than 1074 fractional digits;
* `Value.miscounted_iff`          which doubles have too many digits to be counted;
* `Value.fixedText_of_finite`     the text is the canonical numeral of the rounded value;
* `Value.doubleText_rounds`       the same with the width, and which calls are refused;
* `Double.Nearest`                what a reader may make of a number;
* `Value.doubleText_reread`       a double that is read back from a text has that text.
-/

namespace Arbor

namespace Double

/-! ## exact values -/

/-- a number, not an infinity -/
def Finite (x : Double) : Prop := x.exponentField ≠ 2047

instance (x : Double) : Decidable x.Finite := inferInstanceAs (Decidable (_ ≠ _))

theorem datum_of_finite {x : Double} (hx : x.Finite) : x.datum = .finite x.negative x.magnitude :=
  if_neg hx

/-- The value of a finite double.  The significand has 52 digits after the point, the exponent a
bias of 1023, and the exponent field 0 stands for the exponent of the field 1. -/
def value (x : Double) : ℚ :=
  signed x.negative (x.significand * 2 ^ (max (x.exponentField : ℤ) 1 - 1075))

theorem value_of_fields {x : Double} {e m : ℕ} (hnegative : x.negative = false)
    (he : x.exponentField = e) (hm : x.significand = m) :
    x.value = m * 2 ^ (max (e : ℤ) 1 - 1075) := by
  rw [value, hnegative, he, hm]
  rfl

theorem cast_two_pow (n : ℕ) : ((Nat.pow 2 n : ℕ) : ℚ) = 2 ^ n := by
  rw [Nat.pow_eq, Nat.cast_pow, Nat.cast_ofNat]

theorem cast_unitsInOne : (unitsInOne : ℚ) = 2 ^ places := by
  unfold unitsInOne
  generalize places = n
  exact cast_two_pow n

theorem unitsInOne_pos : 0 < unitsInOne := by
  have hpos : (0 : ℚ) < unitsInOne := by
    rw [cast_unitsInOne]
    positivity
  exact_mod_cast hpos

theorem value_eq (x : Double) : x.value = signed x.negative (x.magnitude / unitsInOne) := by
  have hexponent : max (x.exponentField : ℤ) 1 - 1075 =
      ((x.exponentField - 1 : ℕ) : ℤ) - (places : ℕ) := by
    rw [places]
    omega
  rw [value, hexponent, zpow_sub₀ two_ne_zero, zpow_natCast, zpow_natCast, cast_unitsInOne,
    magnitude, Nat.cast_mul, cast_two_pow, mul_div_assoc]

/-- with as many places as a unit has, every double is a whole number of last places -/
theorem exists_value_mul_pow (x : Double) {precision : ℕ} (h : places ≤ precision) :
    ∃ k : ℤ, x.value * 10 ^ precision = k := by
  obtain ⟨more, rfl⟩ := Nat.exists_eq_add_of_le h
  have hwhole : (x.magnitude : ℚ) / 2 ^ places * 10 ^ (places + more) =
      ((x.magnitude * 5 ^ places * 10 ^ more : ℕ) : ℤ) := by
    generalize places = n
    rw [pow_add, show (10 : ℚ) ^ n = 2 ^ n * 5 ^ n by rw [← mul_pow]; norm_num]
    push_cast
    field_simp
  rw [value_eq, cast_unitsInOne, signed]
  split
  · exact ⟨-_, by rw [neg_mul, hwhole, Int.cast_neg]⟩
  · exact ⟨_, hwhole⟩

theorem roundsTo_value_of_min {x : Double} {precision : ℕ} {q : ℚ}
    (h : RoundsTo x.value (min precision places) q) : RoundsTo x.value precision q := by
  rcases le_total precision places with hle | hge
  · rwa [min_eq_left hle] at h
  · rw [min_eq_right hge] at h
    obtain ⟨k, hk⟩ := x.exists_value_mul_pow le_rfl
    obtain ⟨l, hl⟩ := x.exists_value_mul_pow hge
    rw [h.unique (roundsTo_self hk)]
    exact roundsTo_self hl

theorem abs_value_eq (x : Double) : |x.value| = x.magnitude / unitsInOne := by
  rw [x.value_eq, abs_signed, abs_of_nonneg (div_nonneg (Nat.cast_nonneg _) (Nat.cast_nonneg _))]

theorem exists_value_eq_intCast_iff (x : Double) :
    (∃ k : ℤ, x.value = k) ↔ x.magnitude % unitsInOne = 0 := by
  have hne : (unitsInOne : ℚ) ≠ 0 := Nat.cast_ne_zero.mpr unitsInOne_pos.ne'
  rw [← Nat.dvd_iff_mod_eq_zero]
  constructor
  · rintro ⟨k, hk⟩
    have habs : (x.magnitude : ℚ) / unitsInOne = |(k : ℚ)| := by rw [← hk, abs_value_eq]
    rw [div_eq_iff hne, ← Int.cast_abs, Int.abs_eq_natAbs, Int.cast_natCast] at habs
    exact ⟨k.natAbs, by rw [mul_comm]; exact_mod_cast habs⟩
  · rintro ⟨c, hc⟩
    rw [x.value_eq, hc, Nat.cast_mul, mul_div_cancel_left₀ _ hne, signed]
    split
    · exact ⟨-c, by push_cast; rfl⟩
    · exact ⟨c, rfl⟩

theorem significand_lt (x : Double) : x.significand < 2 ^ 53 := by
  have hfraction : x.fraction < 2 ^ 52 := Nat.mod_lt _ (by decide)
  rw [significand, Nat.pow_eq]
  split <;> omega

/-- all finite doubles are below `2 ^ 1024`, which has 309 digits -/
theorem magnitude_lt {x : Double} (hx : x.Finite) :
    x.magnitude < Nat.pow 10 integralPlaces * unitsInOne := by
  have hsignificand := x.significand_lt
  have hexponent : 53 + (x.exponentField - 1) ≤ 1024 + places := by
    have hlt : x.exponentField < 2 ^ 11 := Nat.mod_lt _ (by decide)
    rw [Finite] at hx
    rw [places]
    omega
  have hbound : (2 : ℕ) ^ 1024 ≤ Nat.pow 10 integralPlaces := by decide +kernel
  unfold magnitude unitsInOne
  generalize x.significand = s at hsignificand
  generalize x.exponentField - 1 = e at hexponent
  generalize places = p at hexponent
  calc s * 2 ^ e
    _ < 2 ^ 53 * 2 ^ e := Nat.mul_lt_mul_of_pos_right hsignificand (Nat.two_pow_pos e)
    _ = 2 ^ (53 + e) := (pow_add 2 53 e).symm
    _ ≤ 2 ^ (1024 + p) := Nat.pow_le_pow_right (by decide) hexponent
    _ = 2 ^ 1024 * 2 ^ p := pow_add 2 1024 p
    _ ≤ Nat.pow 10 integralPlaces * 2 ^ p := Nat.mul_le_mul_right _ hbound

end Double

namespace Value

/-! ## the text of a double -/

theorem exactPrecision_le : exactPrecision ≤ maxPrecision := by decide

/-- The digits of a double are miscounted if there is no room for those before the point, unless it is
a small whole number. -/
theorem miscounted_iff {x : Double} (hx : x.Finite) (precision : ℕ) :
    miscounted x.magnitude precision = true ↔
      10 ^ (maxPrecision.toNat - precision) ≤ |x.value| ∧
        ¬ ((∃ k : ℤ, x.value = k) ∧ |x.value| < 10 ^ 15) := by
  have hpos : (0 : ℚ) < Double.unitsInOne := Nat.cast_pos.mpr Double.unitsInOne_pos
  have hle : ∀ k : ℕ, (10 : ℚ) ^ k ≤ |x.value| ↔
      Nat.pow 10 k * Double.unitsInOne ≤ x.magnitude := by
    intro k
    rw [x.abs_value_eq, le_div_iff₀ hpos, Nat.pow_eq]
    exact_mod_cast Iff.rfl
  have hsmall : |x.value| < 10 ^ 15 ↔ x.magnitude < Nat.pow 10 15 * Double.unitsInOne := by
    rw [← not_le, hle, not_le]
  have hroom : Nat.pow 10 (maxPrecision.toNat - precision) * Double.unitsInOne ≤ x.magnitude →
      maxPrecision.toNat - precision < Double.integralPlaces := by
    intro h
    have hlt := Nat.lt_of_mul_lt_mul_right (Nat.lt_of_le_of_lt h (Double.magnitude_lt hx))
    rw [Nat.pow_eq, Nat.pow_eq] at hlt
    exact (Nat.pow_lt_pow_iff_right (by decide)).mp hlt
  rw [miscounted, hle, hsmall, x.exists_value_eq_intCast_iff]
  simp only [Bool.and_eq_true, decide_eq_true_eq, Bool.not_eq_true', decide_eq_false_iff_not]
  constructor
  · rintro ⟨⟨-, h⟩, hnot⟩
    exact ⟨h, hnot⟩
  · rintro ⟨h, hnot⟩
    exact ⟨⟨hroom h, h⟩, hnot⟩

/-- there is room for the digits before the point of any double -/
theorem miscounted_of_le (magnitude : ℕ) {precision : ℕ}
    (hp : (precision : ℤ) ≤ exactPrecision) : miscounted magnitude precision = false := by
  have hroom : ¬ maxPrecision.toNat - precision < Double.integralPlaces := by
    have hlast : exactPrecision = maxPrecision - (Double.integralPlaces : ℕ) := rfl
    omega
  rw [miscounted, decide_eq_false hroom, Bool.false_and, Bool.false_and]

theorem fixedText_of_le {x : Double} (hx : x.Finite) {precision : ℕ}
    (hp : (precision : ℤ) ≤ maxPrecision) :
    fixedText x precision =
      .ok (if miscounted x.magnitude precision then "0"
        else (Fixed.round x.negative x.magnitude Double.unitsInOne
          (min precision Double.places)).text) := by
  have hin : ¬ ((precision : ℤ) < 0 ∨ maxPrecision < precision) := by omega
  rw [fixedText, Double.datum_of_finite hx]
  dsimp only
  rw [if_neg hin, Int.toNat_natCast]
  split <;> rfl

theorem fixedText_of_finite {x : Double} (hx : x.Finite) {precision : ℕ}
    (hp : (precision : ℤ) ≤ exactPrecision) : ∃ q t, RoundsTo x.value precision q ∧
      CanonicalText t precision q ∧ fixedText x precision = .ok t := by
  refine ⟨_, _, Double.roundsTo_value_of_min ?_, .mono
    (Fixed.canonicalText_round x.negative x.magnitude Double.unitsInOne
      (min precision Double.places)) (min_le_left _ _), ?_⟩
  · rw [x.value_eq]
    exact roundsTo_signed_div x.negative x.magnitude _ Double.unitsInOne_pos
  · rw [fixedText_of_le hx (hp.trans exactPrecision_le), miscounted_of_le _ hp]
    rfl

theorem fixedText_of_lt {x : Double} (hx : x.Finite) {precision : ℤ}
    (hp : maxPrecision < precision) : fixedText x precision = .error .precisionOutOfRange := by
  rw [fixedText, Double.datum_of_finite hx]
  exact if_pos (.inr hp)

theorem doubleText_double (x : Double) (width precision : ℤ) :
    (Value.double x).doubleText width precision =
      (fixedText x precision).bind fun t =>
        if width < -maxWidth - 1 ∨ maxWidth < width then .error .widthOutOfRange
        else .ok (alignRight width t) := rfl

theorem doubleText_of_finite {x : Double} (hx : x.Finite) {precision : ℕ}
    (hp : precision ≤ exactPrecision) {width : ℤ} (hlow : -maxWidth - 1 ≤ width)
    (hhigh : width ≤ maxWidth) : ∃ q t, RoundsTo x.value precision q ∧
      CanonicalText t precision q ∧
      (Value.double x).doubleText width precision = .ok (alignRight width t) := by
  obtain ⟨q, t, hq, ht, htext⟩ := fixedText_of_finite hx hp
  refine ⟨q, t, hq, ht, ?_⟩
  rw [doubleText_double, htext]
  exact if_neg (by omega)

/-- A finite double is written as the canonical numeral of its value, rounded to the nearest
multiple of the last place, and to the even one of two.  Blanks in front make up the width.  Only a
precision or a width beyond its machine word is refused, the precision first.  Of precisions with which
the digits are too many to be counted, and of widths that no memory can hold, nothing is said. -/
theorem doubleText_rounds {x : Double} (hx : x.Finite) (precision : ℕ) (width : ℤ) :
    (maxPrecision < precision →
      (Value.double x).doubleText width precision = .error .precisionOutOfRange) ∧
    (precision ≤ maxPrecision → width < -maxWidth - 1 ∨ maxWidth < width →
      (Value.double x).doubleText width precision = .error .widthOutOfRange) ∧
    (precision ≤ exactPrecision → -maxWidth - 1 ≤ width → width ≤ maxLength →
      ∃ q, RoundsTo x.value precision q ∧ (∀ r, RoundsTo x.value precision r → r = q) ∧
        ∃ t, CanonicalText t precision q ∧ (∀ u, CanonicalText u precision q → u = t) ∧
          (Value.double x).doubleText width precision =
            .ok (String.ofList (List.replicate (max 0 (width - t.length)).toNat ' ') ++ t)) := by
  refine ⟨fun hp => ?_, fun hp hwidth => ?_, fun hp hlow hhigh => ?_⟩
  · rw [doubleText_double, fixedText_of_lt hx hp]
    rfl
  · rw [doubleText_double, fixedText_of_le hx hp]
    exact if_pos hwidth
  · have hword : maxLength ≤ maxWidth := by decide
    obtain ⟨q, t, hq, ht, htext⟩ := doubleText_of_finite hx hp hlow (hhigh.trans hword)
    refine ⟨q, hq, fun r hr => hr.unique hq, t, ht, fun u hu => hu.unique ht, ?_⟩
    rw [htext, alignRight, show (max 0 (width - t.length)).toNat = width.toNat - t.length by omega]

/-- an eighth with two places, which is half-way between 0.12 and 0.13 -/
theorem doubleText_rounds_eighth :
    Double.Finite ⟨0x3fc0000000000000⟩ ∧ (2 : ℕ) ≤ exactPrecision ∧ -maxWidth - 1 ≤ 6 ∧
    6 ≤ maxLength ∧ ∃ q, RoundsTo (Double.value ⟨0x3fc0000000000000⟩) 2 q ∧
      ∃ t, CanonicalText t 2 q ∧ (Value.double ⟨0x3fc0000000000000⟩).doubleText 6 2 =
        .ok (String.ofList (List.replicate (max 0 ((6 : ℤ) - t.length)).toNat ' ') ++ t) ∧
      (Value.double ⟨0x3fc0000000000000⟩).doubleText 6 2 = .ok "  0.12" := by
  obtain ⟨q, hq, -, t, ht, -, htext⟩ :=
    (doubleText_rounds (x := ⟨0x3fc0000000000000⟩) (by decide) 2 6).2.2 (by decide) (by decide)
      (by decide)
  exact ⟨by decide, by decide, by decide, by decide, q, hq, t, ht, htext, by decide +kernel⟩

/-- beyond 2147483647 places, and from the width 2 ^ 63 on, there is no text, although that of a
half is short -/
theorem doubleText_half_refused :
    Double.Finite ⟨0x3fe0000000000000⟩ ∧
    (¬ ∃ q t, RoundsTo (Double.value ⟨0x3fe0000000000000⟩) (2 ^ 63) q ∧
      CanonicalText t (2 ^ 63) q ∧
      (Value.double ⟨0x3fe0000000000000⟩).doubleText 1 (2 ^ 63) =
        .ok (String.ofList (List.replicate (max 0 ((1 : ℤ) - t.length)).toNat ' ') ++ t)) ∧
    (Value.double ⟨0x3fe0000000000000⟩).doubleText 1 (2 ^ 63) = .error .precisionOutOfRange ∧
    (Value.double ⟨0x3fe0000000000000⟩).doubleText (2 ^ 63) 1 = .error .widthOutOfRange := by
  have hprecision : (Value.double ⟨0x3fe0000000000000⟩).doubleText 1 (2 ^ 63) =
      .error .precisionOutOfRange := by decide +kernel
  refine ⟨by decide, ?_, hprecision, by decide +kernel⟩
  rintro ⟨q, t, -, -, htext⟩
  rw [hprecision] at htext
  cases htext

end Value

/-! ## reading back -/

theorem Fixed.denotes_of_text {x : Fixed} {t : String} {q : ℚ} (ht : x.text = t)
    (hq : signed x.negative (x.coefficient / 10 ^ x.places) = q) : Denotes t q :=
  ⟨x.numeral, x.text_eq.symm.trans ht, x.value_numeral.trans hq⟩

namespace Double

/-- a double that a reader may make of a number, whichever way ties are broken -/
def Nearest (y : Double) (q : ℚ) : Prop :=
  y.Finite ∧ ∀ z : Double, z.Finite → |y.value - q| ≤ |z.value - q|

end Double

instance : Finite Double :=
  .of_injective (fun x : Double => x.bits.toBitVec.toFin) fun x y h => by
    cases x
    cases y
    exact congrArg Double.mk (UInt64.toBitVec_inj.mp (BitVec.toFin_inj.mp h))

namespace Double

theorem exists_nearest {x : Double} (hx : x.Finite) (q : ℚ) : ∃ y : Double, y.Nearest q :=
  Set.exists_min_image {y : Double | y.Finite} (fun y => |y.value - q|) (Set.toFinite _) ⟨x, hx⟩

end Double

namespace Value

/-- no text of a number falls short of the width of stored doubles -/
theorem doubleText_one {x : Double} (hx : x.Finite) {precision : ℕ} (hp : precision ≤ exactPrecision) :
    ∃ q t, RoundsTo x.value precision q ∧ CanonicalText t precision q ∧
      (Value.double x).doubleText 1 precision = .ok t := by
  have hlow : -maxWidth - 1 ≤ 1 := by decide
  have hhigh : 1 ≤ maxWidth := by decide
  obtain ⟨q, t, hq, ht, htext⟩ := doubleText_of_finite hx hp hlow hhigh
  refine ⟨q, t, hq, ht, ?_⟩
  have hpos := ht.length_pos
  rw [htext, alignRight, show (1 : ℤ).toNat - t.length = 0 by omega]
  exact congrArg Except.ok (String.empty_append)

/-- what is not further away from the denoted number than `x` has the text of `x` -/
theorem doubleText_of_closer {x y : Double} (hx : x.Finite) (hy : y.Finite) {precision : ℕ}
    (hp : precision ≤ exactPrecision) {t : String} {q : ℚ}
    (ht : (Value.double x).doubleText 1 precision = .ok t) (hq : Denotes t q)
    (hclose : |y.value - q| ≤ |x.value - q|) :
    (Value.double y).doubleText 1 precision = .ok t := by
  -- both round to the same number, and a number has one canonical text
  obtain ⟨q', t', hround, hcanonical, htext⟩ := doubleText_one hx hp
  obtain rfl : t' = t := Except.ok.inj (htext.symm.trans ht)
  obtain rfl : q' = q := hcanonical.denotes.unique hq
  obtain ⟨r, u, hyround, hycanonical, hytext⟩ := doubleText_one hy hp
  obtain rfl : r = q' := hyround.unique (hround.of_closer hclose)
  rw [hytext, hycanonical.unique hcanonical]

/-- there is a text, it denotes one number, and a reader that finds a nearest double has the text of
`x` again -/
theorem doubleText_of_nearest {x : Double} (hx : x.Finite) {precision : ℕ}
    (hp : precision ≤ exactPrecision) : ∃ t q,
      (Value.double x).doubleText 1 precision = .ok t ∧ Denotes t q ∧
      (∀ r, Denotes t r → r = q) ∧ (∃ y : Double, y.Nearest q) ∧
      ∀ y : Double, y.Nearest q → (Value.double y).doubleText 1 precision = .ok t := by
  obtain ⟨q, t, -, hcanonical, htext⟩ := doubleText_one hx hp
  have hq := hcanonical.denotes
  exact ⟨t, q, htext, hq, fun r hr => hr.unique hq, Double.exists_nearest hx q,
    fun y hy => doubleText_of_closer hx hy.1 hp htext hq (hy.2 x hx)⟩

/-- As long as the digits can be counted, a double that is no further away from the number denoted by
the text of another double has the same text.  So the text of a double can be read back, each way, and
written again without change, and in particular its stored form can. -/
theorem doubleText_reread {x : Double} (hx : x.Finite) {precision : ℕ}
    (hp : precision ≤ exactPrecision) :
    (∀ (y : Double) (t : String) (q : ℚ), y.Finite →
      (Value.double x).doubleText 1 precision = .ok t → Denotes t q →
      |y.value - q| ≤ |x.value - q| → (Value.double y).doubleText 1 precision = .ok t) ∧
    (∃ t q,
      (Value.double x).doubleText 1 precision = .ok t ∧ Denotes t q ∧
      (∀ r, Denotes t r → r = q) ∧ (∃ y : Double, y.Nearest q) ∧
      ∀ y : Double, y.Nearest q → (Value.double y).doubleText 1 precision = .ok t) ∧
    ∃ t q, (Value.double x).stored = .ok t ∧ Denotes t q ∧
      (∀ r, Denotes t r → r = q) ∧ (∃ y : Double, y.Nearest q) ∧
      ∀ y : Double, y.Nearest q → (Value.double y).stored = .ok t :=
  ⟨fun _ _ _ hy ht hq hclose => doubleText_of_closer hx hy hp ht hq hclose,
    doubleText_of_nearest hx hp, @doubleText_of_nearest x hx 8 (by decide)⟩

theorem value_three_halves : Double.value ⟨0x3ff8000000000000⟩ = 3 / 2 :=
  (Double.value_of_fields (e := 1023) (m := 3 * 2 ^ 51) (by decide +kernel) (by decide +kernel)
    (by decide +kernel)).trans (by norm_num)

/-- without a place 2.5 is written as 2, and so is 1.5, which is as far from it -/
theorem doubleText_reread_five_halves :
    Double.Finite ⟨0x4004000000000000⟩ ∧ Double.Finite ⟨0x3ff8000000000000⟩ ∧
    (0 : ℕ) ≤ exactPrecision ∧
    (Value.double ⟨0x4004000000000000⟩).doubleText 1 (0 : ℕ) = .ok "2" ∧ Denotes "2" 2 ∧
    |Double.value ⟨0x3ff8000000000000⟩ - 2| ≤ |Double.value ⟨0x4004000000000000⟩ - 2| ∧
    (Value.double ⟨0x3ff8000000000000⟩).doubleText 1 (0 : ℕ) = .ok "2" := by
  have htext : (Value.double ⟨0x4004000000000000⟩).doubleText 1 (0 : ℕ) = .ok "2" := by
    decide +kernel
  have hdenotes : Denotes "2" 2 :=
    Fixed.denotes_of_text (x := ⟨false, 2, 0⟩) (by decide +kernel) (by norm_num [signed])
  have hx : Double.value ⟨0x4004000000000000⟩ = 5 / 2 :=
    (Double.value_of_fields (e := 1024) (m := 5 * 2 ^ 50) (by decide +kernel) (by decide +kernel)
      (by decide +kernel)).trans (by norm_num)
  have hclose : |Double.value ⟨0x3ff8000000000000⟩ - 2| ≤
      |Double.value ⟨0x4004000000000000⟩ - 2| := by
    rw [hx, value_three_halves]
    norm_num
  exact ⟨by decide, by decide, by decide, htext, hdenotes, hclose,
    (doubleText_reread (x := ⟨0x4004000000000000⟩) (by decide) (by decide)).1 _ _ _ (by decide)
      htext hdenotes hclose⟩

/-- With 2147483647 places the digits of 1.5 cannot be counted, and it is written as 0.  One is nearer
to that, but it is a small whole number and is written as 1.  With still more places there is no text
that could be read back. -/
theorem doubleText_three_halves_miscounted :
    Double.Finite ⟨0x3ff8000000000000⟩ ∧ Double.Finite ⟨0x3ff0000000000000⟩ ∧
    (Value.double ⟨0x3ff8000000000000⟩).doubleText 1 (2 ^ 31 - 1) = .ok "0" ∧ Denotes "0" 0 ∧
    |Double.value ⟨0x3ff0000000000000⟩ - 0| ≤ |Double.value ⟨0x3ff8000000000000⟩ - 0| ∧
    (Value.double ⟨0x3ff0000000000000⟩).doubleText 1 (2 ^ 31 - 1) = .ok "1" ∧
    (Value.double ⟨0x3ff0000000000000⟩).doubleText 1 (2 ^ 31 - 1) ≠
      (Value.double ⟨0x3ff8000000000000⟩).doubleText 1 (2 ^ 31 - 1) ∧
    ¬ ∃ t q, (Value.double ⟨0x3fe0000000000000⟩).doubleText 1 (2 ^ 63) = .ok t ∧ Denotes t q := by
  have hx : (Value.double ⟨0x3ff8000000000000⟩).doubleText 1 (2 ^ 31 - 1) = .ok "0" := by
    decide +kernel
  have hy : (Value.double ⟨0x3ff0000000000000⟩).doubleText 1 (2 ^ 31 - 1) = .ok "1" := by
    decide +kernel
  have hdenotes : Denotes "0" 0 :=
    Fixed.denotes_of_text (x := ⟨false, 0, 0⟩) (by decide +kernel) (by norm_num [signed])
  have hone : Double.value ⟨0x3ff0000000000000⟩ = 1 :=
    (Double.value_of_fields (e := 1023) (m := 2 ^ 52) (by decide +kernel) (by decide +kernel)
      (by decide +kernel)).trans (by norm_num)
  have hrefused : (Value.double ⟨0x3fe0000000000000⟩).doubleText 1 (2 ^ 63) =
      .error .precisionOutOfRange := by decide +kernel
  refine ⟨by decide, by decide, hx, hdenotes, ?_, hy, ?_, ?_⟩
  · rw [hone, value_three_halves]
    norm_num
  · rw [hx, hy]
    decide
  · rintro ⟨t, q, htext, -⟩
    rw [hrefused] at htext
    cases htext

end Value
end Arbor
