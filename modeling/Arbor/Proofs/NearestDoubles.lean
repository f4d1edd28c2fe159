import Arbor.Proofs.DoubleTexts
import Mathlib.Algebra.Order.Field.Power
import Mathlib.Data.Nat.Factorization.Basic

/-!
# The double nearest to an integer

A positive integer is measured in units of its last place, which is the last of its 53 leading binary
digits.  The significand of its double is this number of units, rounded.

* `Double.value_ofSigned`         the value of a word with a given exponent and significand;
* `Double.exists_wordOfNat`       the significand is the rounded number of last places;
* `Double.exists_units`           a double that is not much smaller is a whole number of last places;
* `Double.closer_or_tie`          so all other doubles are further away, or odd and as far;
* `Double.IsRounding`             the double that a number is rounded to, by the distance alone;
* `Double.ofInt?_eq_none_iff`     from where on an integer has no double;
* `Double.value_eq_intCast_iff`   the integers that are doubles.
-/

namespace Arbor
namespace Double

/-! ## words -/

/-- the double of a sign and a word of the other 63 bits -/
def ofSigned (negative : Bool) (word : ℕ) : Double :=
  ⟨UInt64.ofNat (if negative then 2 ^ 63 + word else word)⟩

theorem ofInt?_eq (n : ℤ) : ofInt? n =
    if wordOfNat n.natAbs < 2047 * 2 ^ 52 then
      some (ofSigned (decide (n < 0)) (wordOfNat n.natAbs)) else none := by
  simp only [ofInt?, ofSigned, decide_eq_true_eq, Nat.pow_eq]

theorem fields_ofSigned (negative : Bool) {word : ℕ} (hword : word < 2047 * 2 ^ 52) :
    (ofSigned negative word).negative = negative ∧
      (ofSigned negative word).exponentField = word / 2 ^ 52 ∧
      (ofSigned negative word).fraction = word % 2 ^ 52 := by
  have hbits : (ofSigned negative word).bits.toNat =
      if negative then 2 ^ 63 + word else word := by
    refine UInt64.toNat_ofNat_of_lt' ?_
    show _ < 18446744073709551616
    split <;> omega
  simp only [Double.negative, exponentField, fraction, hbits, Nat.pow_eq]
  cases negative with
  | false =>
    refine ⟨beq_eq_false_iff_ne.mpr ?_, ?_, rfl⟩
    · show word / 2 ^ 63 ≠ 1
      omega
    · show word / 2 ^ 52 % 2 ^ 11 = word / 2 ^ 52
      omega
  | true =>
    refine ⟨beq_iff_eq.mpr ?_, ?_, ?_⟩
    · show (2 ^ 63 + word) / 2 ^ 63 = 1
      omega
    · show (2 ^ 63 + word) / 2 ^ 52 % 2 ^ 11 = word / 2 ^ 52
      omega
    · show (2 ^ 63 + word) % 2 ^ 52 = word % 2 ^ 52
      omega

/-- The significand brings its leading one to the exponent field.  When it has one digit more than
fits, the word is that of half the significand with the next exponent. -/
theorem value_ofSigned (negative : Bool) {e m : ℕ} (hlow : 2 ^ 52 ≤ m) (hhigh : m ≤ 2 ^ 53)
    (hword : e * 2 ^ 52 + m < 2047 * 2 ^ 52) :
    (ofSigned negative (e * 2 ^ 52 + m)).Finite ∧
      (ofSigned negative (e * 2 ^ 52 + m)).value = signed negative (m * 2 ^ ((e : ℤ) - 1074)) ∧
      (Even m → Even (ofSigned negative (e * 2 ^ 52 + m)).significand) := by
  obtain ⟨hnegative, hexponent, hfraction⟩ := fields_ofSigned negative hword
  have hfinite : (ofSigned negative (e * 2 ^ 52 + m)).Finite := by
    rw [Finite, hexponent]
    omega
  have hsignificand : (ofSigned negative (e * 2 ^ 52 + m)).significand =
      2 ^ 52 + (e * 2 ^ 52 + m) % 2 ^ 52 := by
    rw [significand, if_neg (by rw [hexponent]; omega), hfraction, Nat.pow_eq]
  refine ⟨hfinite, ?_⟩
  rw [value, hnegative, hexponent, hsignificand, signed_inj]
  rcases Nat.lt_or_ge m (2 ^ 53) with hlt | hge
  · have hdiv : (e * 2 ^ 52 + m) / 2 ^ 52 = e + 1 := by omega
    have hsum : 2 ^ 52 + (e * 2 ^ 52 + m) % 2 ^ 52 = m := by omega
    have hexp : max ((e + 1 : ℕ) : ℤ) 1 - 1075 = e - 1074 := by omega
    rw [hdiv, hsum, hexp]
    exact ⟨rfl, id⟩
  · have hdiv : (e * 2 ^ 52 + m) / 2 ^ 52 = e + 2 := by omega
    have hsum : 2 ^ 52 + (e * 2 ^ 52 + m) % 2 ^ 52 = 2 ^ 52 := by omega
    have hexp : max ((e + 2 : ℕ) : ℤ) 1 - 1075 = e - 1074 + 1 := by omega
    have hm : m = 2 ^ 52 * 2 := by omega
    rw [hdiv, hsum, hexp, hm, zpow_add_one₀ two_ne_zero]
    refine ⟨?_, fun _ => ⟨2 ^ 51, rfl⟩⟩
    push_cast
    ring

/-! ## natural numbers -/

/-- one in the last of the 53 binary digits of a number -/
def lastPlace (n : ℕ) : ℚ := 2 ^ ((n.log2 : ℤ) - 52)

theorem lastPlace_pos (n : ℕ) : 0 < lastPlace n := zpow_pos two_pos _

/-- the number in units of its last place -/
theorem units_bounds {n : ℕ} (hn : n ≠ 0) :
    (2 : ℚ) ^ 52 ≤ n / lastPlace n ∧ n / lastPlace n < (2 : ℚ) ^ 53 := by
  have hlow : (2 : ℚ) ^ n.log2 ≤ n := by exact_mod_cast Nat.log2_self_le hn
  have hhigh : (n : ℚ) < 2 ^ (n.log2 + 1) := by exact_mod_cast Nat.lt_log2_self
  rw [le_div_iff₀ (lastPlace_pos n), div_lt_iff₀ (lastPlace_pos n), lastPlace, ← zpow_natCast,
    ← zpow_natCast (2 : ℚ) 53, ← zpow_add₀ two_ne_zero, ← zpow_add₀ two_ne_zero]
  have hlow' : (52 : ℕ) + ((n.log2 : ℤ) - 52) = (n.log2 : ℕ) := by push_cast; omega
  have hhigh' : (53 : ℕ) + ((n.log2 : ℤ) - 52) = (n.log2 + 1 : ℕ) := by push_cast; omega
  rw [hlow', hhigh', zpow_natCast, zpow_natCast]
  exact ⟨hlow, hhigh⟩

/-- the significand of the word is the number in units of its last place, rounded -/
theorem exists_wordOfNat {n : ℕ} (hn : n ≠ 0) : ∃ m : ℕ, 2 ^ 52 ≤ m ∧ m ≤ 2 ^ 53 ∧
    wordOfNat n = (n.log2 + 1022) * 2 ^ 52 + m ∧ NearestEven (n / lastPlace n) m := by
  obtain ⟨m, hword, hm⟩ : ∃ m : ℕ, wordOfNat n = (n.log2 + 1022) * 2 ^ 52 + m ∧
      NearestEven (n / lastPlace n) m := by
    rw [wordOfNat, if_neg hn]
    refine ⟨_, rfl, ?_⟩
    split
    next hle =>
      have hunit : lastPlace n = (2 ^ (52 - n.log2))⁻¹ := by
        rw [lastPlace, ← zpow_natCast, ← zpow_neg]
        congr 1
        omega
      have hwhole : (n : ℚ) / lastPlace n = ((n * Nat.pow 2 (52 - n.log2) : ℕ) : ℤ) := by
        rw [hunit, div_inv_eq_mul, Int.cast_natCast, Nat.cast_mul, cast_two_pow]
      rw [hwhole]
      exact .intCast _
    next hgt =>
      have hunit : lastPlace n = (Nat.pow 2 (n.log2 - 52) : ℕ) := by
        rw [lastPlace, cast_two_pow, ← zpow_natCast]
        congr 1
        omega
      rw [hunit]
      exact nearestEven_divNearestEven n (Nat.two_pow_pos _)
  obtain ⟨hlow, hhigh⟩ := units_bounds hn
  have hge : ((2 ^ 52 : ℕ) : ℤ) ≤ m := hm.le_of_le (by exact_mod_cast hlow)
  have hle : (m : ℤ) ≤ ((2 ^ 53 : ℕ) : ℤ) := hm.ge_of_ge (by exact_mod_cast hhigh.le)
  exact ⟨m, by exact_mod_cast hge, by exact_mod_cast hle, hword, hm⟩

/-! ## other doubles -/

theorem abs_value (y : Double) :
    |y.value| = y.significand * 2 ^ (max (y.exponentField : ℤ) 1 - 1075) := by
  rw [value, abs_signed, abs_of_nonneg (by positivity)]

/-- a double of at least as many binary digits is a whole number of last places -/
theorem exists_units {n : ℕ} {y : Double} (hy : (2 : ℚ) ^ 52 ≤ |y.value| / lastPlace n) :
    ∃ j : ℕ, |y.value| / lastPlace n = j ∧ (j < 2 ^ 53 → j = y.significand) := by
  have hratio : |y.value| / lastPlace n =
      y.significand * 2 ^ (max (y.exponentField : ℤ) 1 - 1023 - n.log2) := by
    rw [abs_value, lastPlace, mul_div_assoc, ← zpow_sub₀ two_ne_zero]
    congr 2
    omega
  rw [hratio] at hy ⊢
  have hlt := y.significand_lt
  rcases lt_or_ge (max (y.exponentField : ℤ) 1 - 1023 - n.log2) 0 with hneg | hpos
  · -- with fewer digits it would be less than `2 ^ 52` last places
    have hhalf : (2 : ℚ) ^ (max (y.exponentField : ℤ) 1 - 1023 - n.log2) ≤ 2 ^ (-1 : ℤ) :=
      zpow_le_zpow_right₀ one_le_two (by omega)
    have hsig : (y.significand : ℚ) < 2 ^ 53 := by exact_mod_cast hlt
    have hcontra : (2 : ℚ) ^ 52 < 2 ^ 53 * 2 ^ (-1 : ℤ) :=
      hy.trans_lt (mul_lt_mul hsig hhalf (zpow_pos two_pos _) (by positivity))
    norm_num at hcontra
  · obtain ⟨d, hd⟩ := Int.eq_ofNat_of_zero_le hpos
    rw [hd, zpow_natCast]
    refine ⟨y.significand * 2 ^ d, by push_cast; rfl, fun hj => ?_⟩
    cases d with
    | zero => rw [pow_zero, mul_one]
    | succ d =>
      have hnormal : 2 ^ 52 ≤ y.significand := by
        rw [significand, if_neg (by omega), Nat.pow_eq]
        omega
      have hdouble : y.significand * 2 ≤ y.significand * 2 ^ (d + 1) :=
        Nat.mul_le_mul_left _ (by rw [pow_succ]; have := Nat.two_pow_pos d; omega)
      omega

/-- any other double is further away than the rounded number, or as far and then it is odd -/
theorem closer_or_tie_units {n m : ℕ} (hn : n ≠ 0) (hm : NearestEven (n / lastPlace n) m)
    {y : Double} (hne : |y.value| / lastPlace n ≠ m) :
    |n / lastPlace n - m| < |n / lastPlace n - |y.value| / lastPlace n| ∨
      |n / lastPlace n - m| = |n / lastPlace n - |y.value| / lastPlace n| ∧ Even m ∧
        Odd y.significand := by
  obtain ⟨hlow, hhigh⟩ := units_bounds hn
  rcases lt_or_ge (|y.value| / lastPlace n) (2 ^ 52) with hlt | hge
  · refine .inl ?_
    have hbest := hm.abs_sub_le (2 ^ 52)
    rw [Int.cast_natCast, Int.cast_pow, Int.cast_ofNat] at hbest
    rw [abs_of_nonneg (sub_nonneg.mpr hlow)] at hbest
    rw [abs_of_pos (a := n / lastPlace n - |y.value| / lastPlace n) (by linarith)]
    linarith
  · obtain ⟨j, hj, hsignificand⟩ := exists_units hge
    rw [hj] at hne ⊢
    have hjm : (j : ℤ) ≠ m := fun h => hne (by exact_mod_cast h)
    rcases nearestEven_iff.mp hm j hjm with hlt | ⟨htie, heven⟩
    · exact .inl (by exact_mod_cast hlt)
    · have hodd : Odd (j : ℤ) := hm.odd_of_tie hjm htie
      rw [Int.odd_coe_nat] at hodd
      rw [Int.even_coe_nat] at heven
      have hdist := hm.1
      rw [htie] at hdist
      have hcast : (j : ℚ) < 2 ^ 53 + 1 := by
        have := (abs_le.mp hdist).1
        push_cast at this
        linarith
      have hle : j < 2 ^ 53 + 1 := by exact_mod_cast hcast
      have hsig : j = y.significand := hsignificand (by
        obtain ⟨i, rfl⟩ := hodd
        omega)
      exact .inr ⟨by exact_mod_cast htie, heven, hsig ▸ hodd⟩

/-! ## the double of an integer -/

theorem ofInt?_zero : ofInt? 0 = some ⟨0⟩ := rfl

theorem value_zero : value ⟨0⟩ = 0 := by
  rw [value_of_fields (e := 0) (m := 0) rfl rfl rfl, Nat.cast_zero, zero_mul]

theorem value_ofInt? {n : ℤ} (hn : n ≠ 0) {x : Double} (hx : ofInt? n = some x) :
    ∃ m : ℕ, 0 < m ∧ NearestEven (n.natAbs / lastPlace n.natAbs) m ∧ x.Finite ∧
      x.value = signed (decide (n < 0)) (m * lastPlace n.natAbs) ∧
      (Even m → Even x.significand) := by
  obtain ⟨m, hlow, hhigh, hword, hm⟩ := exists_wordOfNat (Int.natAbs_ne_zero.mpr hn)
  rw [ofInt?_eq, hword] at hx
  split at hx
  next hlt =>
    cases hx
    obtain ⟨hfinite, hvalue, heven⟩ := value_ofSigned (decide (n < 0)) hlow hhigh hlt
    refine ⟨m, by omega, hm, hfinite, ?_, heven⟩
    have hexp : ((n.natAbs.log2 + 1022 : ℕ) : ℤ) - 1074 = n.natAbs.log2 - 52 := by omega
    rw [hvalue, hexp, lastPlace]
  next => cases hx

theorem finite_ofInt? {n : ℤ} {x : Double} (hx : ofInt? n = some x) : x.Finite := by
  rcases eq_or_ne n 0 with rfl | hn
  · rw [← Option.some.inj hx]
    decide
  · obtain ⟨m, -, -, hfinite, -⟩ := value_ofInt? hn hx
    exact hfinite

/-- Any other double is further away from the integer, or as far and then its significand is odd and
this one's is even. -/
theorem closer_or_tie {n : ℤ} {x y : Double} (hx : ofInt? n = some x) (hne : y.value ≠ x.value) :
    |x.value - n| < |y.value - n| ∨
      |x.value - n| = |y.value - n| ∧ Even x.significand ∧ Odd y.significand := by
  rcases eq_or_ne n 0 with rfl | hn
  · obtain rfl : ⟨0⟩ = x := Option.some.inj (ofInt?_zero.symm.trans hx)
    rw [value_zero] at hne ⊢
    refine .inl ?_
    rw [Int.cast_zero, sub_zero, sub_zero, abs_zero]
    exact abs_pos.mpr hne
  · obtain ⟨m, hpos, hm, -, hvalue, heven⟩ := value_ofInt? hn hx
    have hplace := lastPlace_pos n.natAbs
    have hsize : (0 : ℚ) < n.natAbs := by exact_mod_cast Int.natAbs_pos.mpr hn
    have hinteger := signed_natAbs n
    have hvpos : 0 < m * lastPlace n.natAbs := mul_pos (by exact_mod_cast hpos) hplace
    have hreach : |x.value - n| = |m * lastPlace n.natAbs - n.natAbs| := by
      rw [hvalue, ← hinteger, abs_signed_sub]
    have hother : |(|y.value|) - (n.natAbs : ℚ)| ≤ |y.value - n| := by
      have habs : |(n : ℚ)| = n.natAbs := by rw [← hinteger, abs_signed, abs_of_pos hsize]
      rw [← habs]
      exact abs_abs_sub_abs_le_abs_sub y.value n
    -- distances in units of the last place
    have hunits : ∀ w : ℚ, |w - n.natAbs| =
        |n.natAbs / lastPlace n.natAbs - w / lastPlace n.natAbs| * lastPlace n.natAbs := by
      intro w
      rw [← sub_div, abs_div, abs_of_pos hplace, div_mul_cancel₀ _ hplace.ne', abs_sub_comm]
    have hcancel : m * lastPlace n.natAbs / lastPlace n.natAbs = m :=
      mul_div_cancel_right₀ _ hplace.ne'
    by_cases hsame : |y.value| / lastPlace n.natAbs = m
    · -- it is the same number with the other sign
      have hopposite : y.value = -x.value := by
        refine (abs_eq_abs.mp ?_).resolve_left hne
        rw [hvalue, abs_signed, abs_of_pos hvpos, ← hsame, div_mul_cancel₀ _ hplace.ne']
      have hfar : |y.value - n| = m * lastPlace n.natAbs + n.natAbs := by
        rw [hopposite, hvalue, neg_signed, ← hinteger, abs_signed_sub, ← neg_add', abs_neg,
          abs_of_pos (add_pos hvpos hsize)]
      rw [hreach, hfar]
      exact .inl (abs_lt.mpr ⟨by linarith, by linarith⟩)
    · rw [hreach, hunits, hcancel]
      rw [hunits] at hother
      rcases closer_or_tie_units (Int.natAbs_ne_zero.mpr hn) hm hsame with hlt | ⟨htie, hm2, hodd⟩
      · exact .inl ((mul_lt_mul_of_pos_right hlt hplace).trans_le hother)
      · rw [htie]
        exact hother.lt_or_eq.imp_right fun heq => ⟨heq, heven hm2, hodd⟩

/-- a double nearest to a number, and with an even significand if another one is as near -/
structure IsRounding (x : Double) (q : ℚ) : Prop where
  nearest : x.Nearest q
  even_of_tie : ∀ y : Double, y.Nearest q → y.value ≠ x.value → Even x.significand

theorem isRounding_ofInt? {n : ℤ} {x : Double} (hx : ofInt? n = some x) : x.IsRounding n where
  nearest := by
    refine ⟨finite_ofInt? hx, fun y _ => ?_⟩
    by_cases hy : y.value = x.value
    · rw [hy]
    · exact (closer_or_tie hx hy).elim le_of_lt fun h => h.1.le
  even_of_tie := by
    intro y hy hne
    rcases closer_or_tie hx hne with hlt | ⟨-, heven, -⟩
    · exact absurd (hy.2 x (finite_ofInt? hx)) (not_le.mpr hlt)
    · exact heven

theorem IsRounding.value_eq {n : ℤ} {x y : Double} (hx : ofInt? n = some x)
    (hy : y.IsRounding n) : y.value = x.value := by
  have hround := isRounding_ofInt? hx
  by_contra hne
  rcases closer_or_tie hx hne with hlt | ⟨-, -, hodd⟩
  · exact absurd (hy.nearest.2 x hround.nearest.1) (not_le.mpr hlt)
  · exact Nat.not_even_iff_odd.mpr hodd (hy.even_of_tie x hround.nearest (Ne.symm hne))

/-! ## overflow -/

theorem wordOfNat_zero : wordOfNat 0 = 0 := rfl

theorem overflow_eq : (2 : ℚ) ^ 1024 - 2 ^ 970 = (2 ^ 54 - 1) * 2 ^ 970 := by
  rw [sub_mul, one_mul, ← pow_add]

/-- the last word before that of infinity is for what rounds to less than `2 ^ 1024` -/
theorem wordOfNat_lt_iff (n : ℕ) : wordOfNat n < 2047 * 2 ^ 52 ↔ (n : ℚ) < 2 ^ 1024 - 2 ^ 970 := by
  have hunit : (0 : ℚ) < 2 ^ 970 := by positivity
  rcases eq_or_ne n 0 with rfl | hn
  · have hpos : (0 : ℚ) < (2 ^ 54 - 1) * 2 ^ 970 := mul_pos (by norm_num) hunit
    rw [wordOfNat_zero, Nat.cast_zero, overflow_eq]
    exact iff_of_true (by omega) hpos
  · obtain ⟨m, hlow, hhigh, hword, hm⟩ := exists_wordOfNat hn
    rw [hword]
    rcases Nat.lt_trichotomy n.log2 1023 with hlt | heq | hgt
    · have hn' : (n : ℚ) < 2 ^ (n.log2 + 1) := by exact_mod_cast Nat.lt_log2_self
      have hle : (2 : ℚ) ^ (n.log2 + 1) ≤ 2 ^ (53 + 970) :=
        pow_le_pow_right₀ one_le_two (by omega)
      have hroom : (2 : ℚ) ^ (53 + 970) ≤ (2 ^ 54 - 1) * 2 ^ 970 := by
        rw [pow_add]
        exact mul_le_mul_of_nonneg_right (by norm_num) hunit.le
      rw [overflow_eq]
      exact iff_of_true (by omega) (hn'.trans_le (hle.trans hroom))
    · -- half a unit below `2 ^ 53` last places
      have hplace : lastPlace n = 2 ^ 971 := by
        rw [lastPlace, heq]
        rfl
      have hdouble : (2 : ℚ) ^ 971 = 2 * 2 ^ 970 := pow_succ' 2 970
      have hscale : ∀ p : ℚ, (2 ^ 53 - 1 / 2) * (2 * p) = (2 ^ 54 - 1) * p := fun p => by ring
      have hcarry := hm.even_le_iff (b := 2 ^ 53) ⟨2 ^ 52, rfl⟩
      rw [hplace, le_div_iff₀ (by positivity), hdouble, Int.cast_pow, Int.cast_ofNat,
        hscale] at hcarry
      rw [heq, overflow_eq, ← not_le, ← not_le, ← hcarry]
      omega
    · have hn' : (2 : ℚ) ^ n.log2 ≤ n := by exact_mod_cast Nat.log2_self_le hn
      have hle : (2 : ℚ) ^ 1024 ≤ 2 ^ n.log2 := pow_le_pow_right₀ one_le_two (by omega)
      refine iff_of_false (by omega) (not_lt.mpr ?_)
      exact (sub_le_self _ hunit.le).trans (hle.trans hn')

theorem cast_lt_two_pow_sub (k : ℤ) (a b : ℕ) : (k : ℚ) < 2 ^ a - 2 ^ b ↔ k < 2 ^ a - 2 ^ b := by
  exact_mod_cast Iff.rfl

/-- from half a unit of the greatest double's last place beyond it on -/
theorem ofInt?_eq_none_iff {n : ℤ} : ofInt? n = none ↔ 2 ^ 1024 - 2 ^ 970 ≤ |n| := by
  rw [ofInt?_eq, ← not_lt, ← cast_lt_two_pow_sub, ← Int.natCast_natAbs, Int.cast_natCast,
    ← wordOfNat_lt_iff]
  split
  next hlt => exact iff_of_false (Option.some_ne_none _) (not_not.mpr hlt)
  next hge => exact iff_of_true rfl hge

/-! ## integers with a double -/

theorem natAbs_mul_unitsInOne {n : ℤ} {x : Double} (h : x.value = n) :
    n.natAbs * unitsInOne = x.significand * 2 ^ (x.exponentField - 1) := by
  have hunits : (unitsInOne : ℚ) ≠ 0 := by exact_mod_cast unitsInOne_pos.ne'
  have habs : |x.value| = n.natAbs := by
    rw [h, ← signed_natAbs, abs_signed, Nat.abs_cast]
  rw [value_eq, abs_signed, abs_of_nonneg (div_nonneg (Nat.cast_nonneg _) (Nat.cast_nonneg _)),
    div_eq_iff hunits] at habs
  have hmagnitude : x.magnitude = n.natAbs * unitsInOne := by exact_mod_cast habs
  rw [← hmagnitude, magnitude, Nat.pow_eq]

/-- a number of at most 53 binary digits and zeros behind them -/
def Short (n : ℤ) : Prop := ∃ k a : ℕ, Odd k ∧ k < 2 ^ 53 ∧ |n| = k * 2 ^ a

theorem short_of_value_eq {n : ℤ} (hn : n ≠ 0) {x : Double} (h : x.value = n) : Short n := by
  have hnat := Int.natAbs_ne_zero.mpr hn
  obtain ⟨a, k, hodd, hsplit⟩ := Nat.exists_eq_two_pow_mul_odd hnat
  have hproduct := natAbs_mul_unitsInOne h
  have hdvd : k ∣ x.significand * 2 ^ (x.exponentField - 1) := by
    rw [← hproduct, hsplit]
    exact Dvd.dvd.mul_right (Dvd.intro_left _ rfl) _
  have hsignificand : k ∣ x.significand :=
    ((Nat.coprime_two_right.mpr hodd).pow_right _).dvd_of_dvd_mul_right hdvd
  have hpos : 0 < x.significand := by
    refine Nat.pos_of_ne_zero fun hzero => ?_
    rw [hzero, zero_mul] at hproduct
    exact (Nat.mul_pos (Nat.pos_of_ne_zero hnat) unitsInOne_pos).ne' hproduct
  refine ⟨k, a, hodd, (Nat.le_of_dvd hpos hsignificand).trans_lt x.significand_lt, ?_⟩
  rw [← Int.natCast_natAbs, hsplit]
  push_cast
  ring

/-- an integer of 53 digits is a whole number of its last places -/
theorem value_eq_of_short {n : ℤ} {x : Double} (hx : ofInt? n = some x) (hshort : Short n) :
    x.value = n := by
  obtain ⟨k, a, hodd, hlt, habs⟩ := hshort
  have hnat : n.natAbs = k * 2 ^ a := by
    rw [← Int.natCast_natAbs] at habs
    exact_mod_cast habs
  have hn : n.natAbs ≠ 0 := by
    rw [hnat]
    exact (Nat.mul_pos hodd.pos (Nat.two_pow_pos a)).ne'
  obtain ⟨m, -, hm, -, hvalue, -⟩ := value_ofInt? (Int.natAbs_ne_zero.mp hn) hx
  have hlog : n.natAbs.log2 < 53 + a := by
    rw [Nat.log2_lt hn, hnat, pow_add]
    exact Nat.mul_lt_mul_of_pos_right hlt (Nat.two_pow_pos a)
  obtain ⟨d, hd⟩ := Int.eq_ofNat_of_zero_le (show 0 ≤ (a : ℤ) - (n.natAbs.log2 - 52) by omega)
  have hwhole : (n.natAbs : ℚ) = ((k * 2 ^ d : ℕ) : ℤ) * lastPlace n.natAbs := by
    have hexp : (a : ℤ) = d + (n.natAbs.log2 - 52) := by omega
    rw [lastPlace, Int.cast_natCast, Nat.cast_mul, Nat.cast_pow, Nat.cast_ofNat, mul_assoc,
      ← zpow_natCast, ← zpow_add₀ two_ne_zero, ← hexp, zpow_natCast]
    exact_mod_cast hnat
  have hplace := (lastPlace_pos n.natAbs).ne'
  rw [(div_eq_iff hplace).mpr hwhole] at hm
  have hexact : (m : ℚ) = n.natAbs / lastPlace n.natAbs := by
    rw [(div_eq_iff hplace).mpr hwhole, ← hm.unique (.intCast _), Int.cast_natCast]
  rw [hvalue, hexact, div_mul_cancel₀ _ hplace, signed_natAbs]

/-- a whole number of last places that are whole numbers themselves -/
theorem exists_value_eq_intCast {n : ℤ} {x : Double} (hx : ofInt? n = some x) :
    ∃ k : ℤ, x.value = k := by
  rcases eq_or_ne n 0 with rfl | hn
  · obtain rfl : ⟨0⟩ = x := Option.some.inj (ofInt?_zero.symm.trans hx)
    exact ⟨0, by rw [value_zero, Int.cast_zero]⟩
  rcases Nat.lt_or_ge n.natAbs (2 ^ 53) with hlt | hge
  · refine ⟨n, value_eq_of_short hx ?_⟩
    obtain ⟨a, k, hodd, hsplit⟩ := Nat.exists_eq_two_pow_mul_odd (Int.natAbs_ne_zero.mpr hn)
    have hle : k ≤ n.natAbs := by
      rw [hsplit]
      exact Nat.le_mul_of_pos_left k (Nat.two_pow_pos a)
    refine ⟨k, a, hodd, hle.trans_lt hlt, ?_⟩
    rw [← Int.natCast_natAbs, hsplit]
    push_cast
    ring
  · obtain ⟨m, -, -, -, hvalue, -⟩ := value_ofInt? hn hx
    have hlog : 53 ≤ n.natAbs.log2 := (Nat.le_log2 (Int.natAbs_ne_zero.mpr hn)).mpr hge
    obtain ⟨d, hd⟩ := Int.eq_ofNat_of_zero_le (show 0 ≤ (n.natAbs.log2 : ℤ) - 52 by omega)
    rw [hvalue, lastPlace, hd, zpow_natCast, signed]
    split
    · exact ⟨-(m * 2 ^ d : ℕ), by push_cast; rfl⟩
    · exact ⟨(m * 2 ^ d : ℕ), by push_cast; rfl⟩

/-- the double of an integer is the integer itself exactly if the integer has no more digits -/
theorem value_eq_intCast_iff {n : ℤ} {x : Double} (hx : ofInt? n = some x) :
    x.value = n ↔ n = 0 ∨ Short n := by
  constructor
  · intro hvalue
    exact (eq_or_ne n 0).imp_right fun hn => short_of_value_eq hn hvalue
  · rintro (rfl | hshort)
    · obtain rfl : ⟨0⟩ = x := Option.some.inj (ofInt?_zero.symm.trans hx)
      rw [value_zero, Int.cast_zero]
    · exact value_eq_of_short hx hshort

end Double
end Arbor
