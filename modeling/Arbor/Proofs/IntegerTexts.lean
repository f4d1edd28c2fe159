import Arbor.Proofs.NearestDoubles
import Mathlib.Data.Rat.Floor

/-!
# Whole numbers in both ways of writing

An integer can be written digit by digit or by way of the double nearest to it, and so can a double
without a fraction.

* `canonicalText_integerText`    the digits of an integer are its canonical numeral;
* `Double.truncate_eq`           the integer part of a double is its value, cut towards zero;
* `Value.doubleText_of_whole`    a double without a fraction is written in digits;
* `Value.doubleText_agrees`      both ways agree on what the nearest double keeps.
-/

namespace Arbor

/-- the digits of an integer are its canonical numeral -/
theorem canonicalText_integerText (n : ℤ) : CanonicalText (integerText n) 0 n := by
  have hvalue := Fixed.value_numeral ⟨decide (n < 0), n.natAbs, 0⟩
  rw [pow_zero, div_one, signed_natAbs] at hvalue
  refine ⟨Fixed.numeral ⟨decide (n < 0), n.natAbs, 0⟩, ?_, ?_, hvalue⟩
  · rw [← Fixed.text_eq, integerText]
    simp only [Fixed.text, if_true, Nat.pow_eq, pow_zero, Nat.div_one, decide_eq_true_eq]
    split
    · rfl
    · exact String.empty_append
  · refine Fixed.canonical_numeral (Nat.le_refl 0) (.inl rfl) fun hneg => ?_
    exact Int.natAbs_ne_zero.mpr (of_decide_eq_true hneg).ne

theorem integerText_injective : Function.Injective integerText := by
  intro n m h
  have hn := (canonicalText_integerText n).denotes
  rw [h] at hn
  exact_mod_cast hn.unique (canonicalText_integerText m).denotes

namespace Double

/-! ## integer parts -/

/-- the nearest whole number that is not further away from zero -/
def towardsZero (q : ℚ) : ℤ := if q < 0 then ⌈q⌉ else ⌊q⌋

theorem towardsZero_signed (negative : Bool) {q : ℚ} (hq : 0 ≤ q) :
    towardsZero (signed negative q) = if negative then -⌊q⌋ else ⌊q⌋ := by
  cases negative with
  | false => exact if_neg (not_lt.mpr hq)
  | true =>
    rw [signed, if_pos rfl, towardsZero, if_pos rfl]
    rcases hq.eq_or_lt with rfl | hpos
    · simp
    · rw [if_pos (neg_lt_zero.mpr hpos), Int.ceil_neg]

theorem truncate_eq (x : Double) : truncate x.negative x.magnitude = towardsZero x.value := by
  have hfloor : ⌊(x.magnitude : ℚ) / unitsInOne⌋ = (x.magnitude / unitsInOne : ℕ) :=
    Rat.floor_natCast_div_natCast _ _
  rw [value_eq, towardsZero_signed _ (div_nonneg (Nat.cast_nonneg _) (Nat.cast_nonneg _)), hfloor]
  rfl

theorem towardsZero_intCast (k : ℤ) : towardsZero k = k := by
  rw [towardsZero, Int.ceil_intCast, Int.floor_intCast, ite_self]

end Double

namespace Value

theorem integerText_integer (n : ℤ) : (Value.integer n).integerText = .ok (Arbor.integerText n) := rfl

theorem integerText_double {x : Double} (hx : x.Finite) :
    (Value.double x).integerText = .ok (Arbor.integerText (Double.towardsZero x.value)) := by
  rw [← x.truncate_eq, integerText, Double.datum_of_finite hx]

/-! ## doubles without a fraction -/

theorem doubleText_of_whole {x : Double} (hx : x.Finite) {k : ℤ} (hk : x.value = k) {precision : ℕ}
    (hp : precision ≤ exactPrecision) :
    (Value.double x).doubleText 1 precision = .ok (Arbor.integerText k) := by
  obtain ⟨q, t, hround, ht, htext⟩ := doubleText_one hx hp
  have hwhole : x.value * 10 ^ precision = ((k * 10 ^ precision : ℤ) : ℚ) := by
    rw [hk]
    push_cast
    rfl
  obtain rfl : q = k := (hround.unique (roundsTo_self hwhole)).trans hk
  rw [htext, ht.unique (canonicalText_integerText k)]

theorem doubleText_integer_of_some {n : ℤ} {x : Double} (hx : Double.ofInt? n = some x)
    (width precision : ℤ) :
    (Value.integer n).doubleText width precision = (Value.double x).doubleText width precision := by
  rw [doubleText, double?, hx]
  rfl

theorem doubleText_integer_of_none {n : ℤ} (hn : Double.ofInt? n = none) (width precision : ℤ) :
    (Value.integer n).doubleText width precision = .error .beyondDouble := by
  rw [doubleText, double?, hn]
  rfl

theorem doubleText_ne_beyondDouble {x : Double} (hx : x.Finite) (precision : ℕ) :
    (Value.double x).doubleText 1 precision ≠ .error .beyondDouble := by
  intro herror
  rcases lt_or_ge maxPrecision (precision : ℤ) with hlt | hp
  · rw [doubleText_double, fixedText_of_lt hx hlt] at herror
    cases herror
  · rw [doubleText_double, fixedText_of_le hx hp] at herror
    cases herror

/-! ## integers -/

theorem doubleText_integer_eq_beyondDouble_iff (n : ℤ) (precision : ℕ) :
    (Value.integer n).doubleText 1 precision = .error .beyondDouble ↔
      2 ^ 1024 - 2 ^ 970 ≤ |n| := by
  rw [← Double.ofInt?_eq_none_iff]
  cases hx : Double.ofInt? n with
  | none => exact iff_of_true (doubleText_integer_of_none hx _ _) rfl
  | some x =>
    rw [doubleText_integer_of_some hx]
    exact iff_of_false (doubleText_ne_beyondDouble (Double.finite_ofInt? hx) precision)
      (Option.some_ne_none x)

theorem doubleText_integer_of_lt {n : ℤ} (hn : |n| < 2 ^ 1024 - 2 ^ 970) :
    ∃ (x : Double) (m : ℤ), Double.ofInt? n = some x ∧ x.value = m ∧ x.IsRounding n ∧
      (∀ y : Double, y.IsRounding n → y.value = m) ∧
      ∀ precision : ℕ, precision ≤ exactPrecision →
        (Value.integer n).doubleText 1 precision = .ok (Arbor.integerText m) := by
  cases hx : Double.ofInt? n with
  | none => exact absurd (Double.ofInt?_eq_none_iff.mp hx) (not_le.mpr hn)
  | some x =>
    obtain ⟨m, hm⟩ := Double.exists_value_eq_intCast hx
    refine ⟨x, m, rfl, hm, Double.isRounding_ofInt? hx,
      fun y hy => (hy.value_eq hx).trans hm, fun precision hp => ?_⟩
    rw [doubleText_integer_of_some hx]
    exact doubleText_of_whole (Double.finite_ofInt? hx) hm hp

theorem doubleText_integer_eq_integerText_iff (n : ℤ) {precision : ℕ}
    (hp : precision ≤ exactPrecision) :
    (Value.integer n).doubleText 1 precision = (Value.integer n).integerText ↔
      n = 0 ∨ Double.Short n ∧ |n| < 2 ^ 1024 - 2 ^ 970 := by
  have hzero : |(0 : ℤ)| < 2 ^ 1024 - 2 ^ 970 := by decide +kernel
  rcases lt_or_ge |n| (2 ^ 1024 - 2 ^ 970) with hlt | hge
  · obtain ⟨x, m, hx, hm, -, -, htext⟩ := doubleText_integer_of_lt hlt
    have hvalue := Double.value_eq_intCast_iff hx
    rw [hm, Int.cast_inj] at hvalue
    rw [htext precision hp, and_iff_left hlt, ← hvalue]
    rw [integerText_integer, Except.ok.injEq, integerText_injective.eq_iff]
  · rw [(doubleText_integer_eq_beyondDouble_iff n precision).mpr hge]
    refine iff_of_false (fun h => by cases h) ?_
    rintro (rfl | ⟨-, hlt⟩)
    · exact not_le.mpr hzero hge
    · exact not_le.mpr hlt hge

/-- An integer is written as the double it is rounded to, digit by digit, and only an integer that
rounds to `2 ^ 1024` or more has no such double.  So it is written as itself exactly if it has at
most 53 binary digits before its zeros.  A double is written by its integer part, and if it has no
fraction, this is its text in fixed-point notation, as long as the digits can be counted. -/
theorem doubleText_agrees (precision : ℕ) :
    (∀ n : ℤ,
      ((Value.integer n).doubleText 1 precision = .error .beyondDouble ↔
        2 ^ 1024 - 2 ^ 970 ≤ |n|) ∧
      (|n| < 2 ^ 1024 - 2 ^ 970 → maxPrecision < precision →
        (Value.integer n).doubleText 1 precision = .error .precisionOutOfRange) ∧
      (|n| < 2 ^ 1024 - 2 ^ 970 → precision ≤ exactPrecision →
        ∃ m : ℤ, (∃ x : Double, x.IsRounding n) ∧
          (∀ x : Double, x.IsRounding n → x.value = m) ∧
          (Value.integer n).doubleText 1 precision = (Value.integer m).integerText ∧
          ∃ t, (Value.integer m).integerText = .ok t ∧ CanonicalText t 0 m) ∧
      (precision ≤ exactPrecision →
        ((Value.integer n).doubleText 1 precision = (Value.integer n).integerText ↔
          n = 0 ∨ (∃ k a : ℕ, Odd k ∧ k < 2 ^ 53 ∧ |n| = k * 2 ^ a) ∧
            |n| < 2 ^ 1024 - 2 ^ 970))) ∧
    ∀ x : Double, x.Finite →
      (∃ t, (Value.double x).integerText = .ok t ∧
        CanonicalText t 0 (Double.towardsZero x.value)) ∧
      ((∃ k : ℤ, x.value = k) → precision ≤ exactPrecision →
        (Value.double x).doubleText 1 precision = (Value.double x).integerText) := by
  refine ⟨fun n => ⟨doubleText_integer_eq_beyondDouble_iff n precision, fun hn hp => ?_,
    fun hn hp => ?_, doubleText_integer_eq_integerText_iff n⟩, fun x hx => ⟨?_, ?_⟩⟩
  · obtain ⟨x, m, hx, -⟩ := doubleText_integer_of_lt hn
    rw [doubleText_integer_of_some hx, doubleText_double,
      fixedText_of_lt (Double.finite_ofInt? hx) hp]
    rfl
  · obtain ⟨x, m, -, -, hround, hunique, htext⟩ := doubleText_integer_of_lt hn
    exact ⟨m, ⟨x, hround⟩, hunique, htext precision hp, _, rfl, canonicalText_integerText m⟩
  · exact ⟨_, integerText_double hx, canonicalText_integerText _⟩
  · rintro ⟨k, hk⟩ hp
    rw [doubleText_of_whole hx hk hp, integerText_double hx, hk, Double.towardsZero_intCast]

/-- the first integer without a double of its own stands half-way between two -/
theorem doubleText_agrees_tie :
    |(2 ^ 53 + 1 : ℤ)| < 2 ^ 1024 - 2 ^ 970 ∧ (8 : ℕ) ≤ exactPrecision ∧
    (Value.integer (2 ^ 53 + 1)).doubleText 1 (8 : ℕ) = .ok "9007199254740992" ∧
    (∀ x : Double, x.IsRounding ((2 ^ 53 + 1 : ℤ) : ℚ) → x.value = (2 ^ 53 : ℤ)) ∧
    ¬ (∃ k a : ℕ, Odd k ∧ k < 2 ^ 53 ∧ |(2 ^ 53 + 1 : ℤ)| = k * 2 ^ a) ∧
    Double.Finite ⟨0x8000000000000000⟩ ∧ Double.value ⟨0x8000000000000000⟩ = (0 : ℤ) ∧
    (Value.double ⟨0x8000000000000000⟩).doubleText 1 (8 : ℕ) =
      (Value.double ⟨0x8000000000000000⟩).integerText := by
  have hbound : |(2 ^ 53 + 1 : ℤ)| < 2 ^ 1024 - 2 ^ 970 := by decide +kernel
  have hprecision : (8 : ℕ) ≤ exactPrecision := by decide
  have htext : (Value.integer (2 ^ 53 + 1)).doubleText 1 (8 : ℕ) = .ok "9007199254740992" := by
    decide +kernel
  have hdigits : Arbor.integerText (2 ^ 53) = "9007199254740992" := by decide +kernel
  have hfinite : Double.Finite ⟨0x8000000000000000⟩ := by decide
  have hsignificand : Double.significand ⟨0x8000000000000000⟩ = 0 := by decide
  have hzero : Double.value ⟨0x8000000000000000⟩ = (0 : ℤ) := by
    simp [Double.value, hsignificand, signed]
  obtain ⟨hintegers, hdoubles⟩ := doubleText_agrees 8
  obtain ⟨-, -, hround, hsame⟩ := hintegers (2 ^ 53 + 1)
  obtain ⟨m, -, hunique, hm, -⟩ := hround hbound hprecision
  have hm' : Arbor.integerText m = Arbor.integerText (2 ^ 53) := by
    rw [hdigits]
    exact Except.ok.inj (hm.symm.trans htext)
  obtain rfl := integerText_injective hm'
  refine ⟨hbound, hprecision, htext, hunique, fun hshort => ?_, hfinite, hzero,
    (hdoubles _ hfinite).2 ⟨0, hzero⟩ hprecision⟩
  have hself := (hsame hprecision).mpr (.inr ⟨hshort, hbound⟩)
  rw [htext] at hself
  exact absurd hself (by decide +kernel)

/-- beyond 2147483647 places one is not written at all, although it is a double -/
theorem doubleText_one_refused :
    |(1 : ℤ)| < 2 ^ 1024 - 2 ^ 970 ∧ (∃ k a : ℕ, Odd k ∧ k < 2 ^ 53 ∧ |(1 : ℤ)| = k * 2 ^ a) ∧
    (Value.integer 1).doubleText 1 (2 ^ 63) = .error .precisionOutOfRange ∧
    ¬ ∃ m : ℤ, (Value.integer 1).doubleText 1 (2 ^ 63) = (Value.integer m).integerText := by
  have hrefused : (Value.integer 1).doubleText 1 (2 ^ 63) = .error .precisionOutOfRange := by
    decide +kernel
  refine ⟨by decide +kernel, ⟨1, 0, odd_one, by decide, by decide⟩, hrefused, ?_⟩
  rintro ⟨m, hm⟩
  rw [hrefused] at hm
  cases hm

end Value
end Arbor
