import Arbor.Number.Rounding
import Arbor.Proofs.Numerals
import Mathlib.Algebra.Order.Field.Basic
import Mathlib.Algebra.Ring.Int.Parity
import Mathlib.Data.Rat.Cast.Order
import Mathlib.Tactic.Linarith

/-!
# Rounding to decimal places

The multiple of `10 ^ -places` that is nearest to a number, and the even one of two that are equally
near.

* `RoundsTo x places q`     `q` is `x` rounded;
* `NearestEven x k`         the same for whole numbers, by the distance alone;
* `RoundsTo.unique`         there is one only;
* `RoundsTo.of_closer`      a number that is as near to the result has the same result;
* `roundsTo_signed_div`     `divNearestEven` rounds.
-/

namespace Arbor

/-! ## whole numbers -/

/-- A whole number is nearest to a number if it is at most a half away; at a half, the one on the
other side is as near, and the even one counts. -/
def NearestEven (x : ℚ) (k : ℤ) : Prop := |x - k| ≤ 1 / 2 ∧ (|x - k| = 1 / 2 → Even k)

namespace NearestEven
variable {x y : ℚ} {k l : ℤ}

/-- two whole numbers are both nearest only half-way between them, and then one of them is odd -/
theorem not_lt (hk : NearestEven x k) (hl : NearestEven x l) : ¬ k < l := by
  intro hlt
  have hstep : (k : ℚ) + 1 ≤ l := by exact_mod_cast hlt
  have hbelow := (abs_le.mp hk.1).2
  have habove := (abs_le.mp hl.1).1
  have hnext : (l : ℚ) = k + 1 := by linarith
  have hkeven : Even k := hk.2 (by rw [show x - k = 1 / 2 by linarith, abs_of_pos (by norm_num)])
  have hleven : Even l := hl.2 (by
    rw [show x - l = -(1 / 2) by linarith, abs_neg, abs_of_pos (by norm_num)])
  have hodd : l = k + 1 := by exact_mod_cast hnext
  rw [hodd] at hleven
  exact Int.not_even_iff_odd.mpr hkeven.add_one hleven

theorem unique (hk : NearestEven x k) (hl : NearestEven x l) : k = l :=
  le_antisymm (Int.not_lt.mp (hl.not_lt hk)) (Int.not_lt.mp (hk.not_lt hl))

/-- what is not further away from the rounded number than `x` is rounded to it too -/
theorem of_closer (hk : NearestEven x k) (h : |y - k| ≤ |x - k|) : NearestEven y k :=
  ⟨h.trans hk.1, fun hhalf => hk.2 (le_antisymm hk.1 (hhalf ▸ h))⟩

theorem intCast (k : ℤ) : NearestEven k k := by
  rw [NearestEven, sub_self, abs_zero]
  exact ⟨by norm_num, fun h => absurd h (by norm_num)⟩

theorem neg (hk : NearestEven x k) : NearestEven (-x) (-k) := by
  have hdist : |(-x) - ((-k : ℤ) : ℚ)| = |x - k| := by
    rw [Int.cast_neg, ← neg_sub', abs_neg]
  exact ⟨hdist.trans_le hk.1, fun h => (hk.2 (hdist.symm.trans h)).neg⟩

/-- no whole number on the same side of `x` is nearer -/
theorem le_of_le (hk : NearestEven x k) {a : ℤ} (ha : (a : ℚ) ≤ x) : a ≤ k := by
  have hdist := (abs_le.mp hk.1).2
  have hlt : (a : ℚ) < k + 1 := by linarith
  have : a < k + 1 := by exact_mod_cast hlt
  omega

theorem ge_of_ge (hk : NearestEven x k) {b : ℤ} (hb : x ≤ b) : k ≤ b := by
  have hdist := (abs_le.mp hk.1).1
  have hlt : (k : ℚ) < b + 1 := by linarith
  have : k < b + 1 := by exact_mod_cast hlt
  omega

/-- an even number is reached from half a unit below on -/
theorem even_le_iff (hk : NearestEven x k) {b : ℤ} (hb : Even b) : b ≤ k ↔ (b : ℚ) - 1 / 2 ≤ x := by
  constructor
  · intro hle
    have hcast : (b : ℚ) ≤ k := by exact_mod_cast hle
    have hdist := (abs_le.mp hk.1).1
    linarith
  · intro hx
    have hdist := (abs_le.mp hk.1).2
    have hstep : (b : ℚ) - 1 ≤ k := by linarith
    have hle : b - 1 ≤ k := by exact_mod_cast hstep
    by_contra hlt
    -- a whole number below would be odd and a half away
    have heq : k = b - 1 := by omega
    have hcast : (k : ℚ) = b - 1 := by rw [heq]; push_cast; ring
    have hhalf : x - k = 1 / 2 := by linarith
    have heven := hk.2 (by rw [hhalf, abs_of_pos (by norm_num)])
    rw [heq] at heven
    exact Int.not_even_iff_odd.mpr (hb.sub_odd odd_one) heven

end NearestEven

/-- every other whole number is further away, or as far and then this one is even -/
theorem nearestEven_iff {x : ℚ} {k : ℤ} : NearestEven x k ↔
    ∀ j : ℤ, j ≠ k → |x - k| < |x - j| ∨ |x - k| = |x - j| ∧ Even k := by
  constructor
  · intro h j hj
    have hapart : (1 : ℚ) ≤ |(k : ℚ) - j| := by
      exact_mod_cast Int.one_le_abs (sub_ne_zero.mpr hj.symm)
    have htriangle := abs_sub_le (k : ℚ) x j
    rw [abs_sub_comm (k : ℚ) x] at htriangle
    rcases lt_or_eq_of_le h.1 with hlt | hhalf
    · exact .inl (by linarith)
    · rcases lt_or_eq_of_le (show |x - k| ≤ |x - j| by linarith) with hlt | heq
      · exact .inl hlt
      · exact .inr ⟨heq, h.2 hhalf⟩
  · intro h
    have hup := h (k + 1) (by omega)
    have hdown := h (k - 1) (by omega)
    push_cast at hup hdown
    rw [← sub_sub] at hup
    rw [← sub_add] at hdown
    rw [NearestEven]
    generalize x - k = d at hup hdown ⊢
    have hle : d ≤ 1 / 2 := by
      have hsq := sq_le_sq.mpr (hup.elim le_of_lt fun h => h.1.le)
      linarith
    have hge : -(1 / 2) ≤ d := by
      have hsq := sq_le_sq.mpr (hdown.elim le_of_lt fun h => h.1.le)
      linarith
    refine ⟨abs_le.mpr ⟨hge, hle⟩, fun hhalf => ?_⟩
    -- at a half the neighbour on that side is as far
    rcases eq_or_eq_neg_of_abs_eq hhalf with rfl | rfl
    · exact (hup.resolve_left (by norm_num)).2
    · exact (hdown.resolve_left (by norm_num)).2

namespace NearestEven
variable {x : ℚ} {k : ℤ}

theorem abs_sub_le (hk : NearestEven x k) (j : ℤ) : |x - k| ≤ |x - j| := by
  rcases eq_or_ne j k with rfl | hne
  · exact le_rfl
  · exact (nearestEven_iff.mp hk j hne).elim le_of_lt fun h => h.1.le

/-- of two that are equally near one is even and the other odd -/
theorem odd_of_tie (hk : NearestEven x k) {j : ℤ} (hne : j ≠ k) (htie : |x - k| = |x - j|) :
    Odd j := by
  have heven : Even k := by
    rcases nearestEven_iff.mp hk j hne with hlt | ⟨-, heven⟩
    · exact absurd htie hlt.ne
    · exact heven
  have hsum : x - k = -(x - j) := by
    rcases abs_eq_abs.mp htie with heq | heq
    · have hcast : (k : ℚ) = j := by linarith
      exact absurd (by exact_mod_cast hcast.symm) hne
    · exact heq
  have hfar : |(k : ℚ) - j| ≤ 1 := by
    have hdouble : (k : ℚ) - j = -2 * (x - k) := by linarith
    have htwo : |(-2 : ℚ)| = 2 := by norm_num
    rw [hdouble, abs_mul, htwo]
    linarith [hk.1]
  have hnear : |k - j| ≤ 1 := by exact_mod_cast hfar
  have hunit : j = k + 1 ∨ j = k - 1 := by
    have := abs_le.mp hnear
    omega
  rcases hunit with rfl | rfl
  · exact heven.add_one
  · exact heven.sub_odd odd_one

end NearestEven

/-- a fraction is the whole part and a rest that is less than one -/
theorem cast_div_eq (a : ℕ) {b : ℕ} (hb : 0 < b) :
    (a : ℚ) / b = (a / b : ℕ) + ((a % b : ℕ) : ℚ) / b := by
  have hb' : (b : ℚ) ≠ 0 := by positivity
  rw [div_eq_iff hb', add_mul, div_mul_cancel₀ _ hb']
  exact_mod_cast (Nat.div_add_mod' a b).symm

theorem nearestEven_divNearestEven (a : ℕ) {b : ℕ} (hb : 0 < b) :
    NearestEven (a / b) (divNearestEven a b : ℕ) := by
  have hb' : (0 : ℚ) < b := by exact_mod_cast hb
  have hrest : (0 : ℚ) ≤ ((a % b : ℕ) : ℚ) / b := by positivity
  have hrest_lt : ((a % b : ℕ) : ℚ) / b < 1 := by
    rw [div_lt_one hb']
    exact_mod_cast Nat.mod_lt a hb
  rw [NearestEven, Int.cast_natCast, cast_div_eq a hb, divNearestEven]
  generalize a / b = q
  split
  next hlt =>
    have hhalf : ((a % b : ℕ) : ℚ) / b < 1 / 2 := by
      rw [div_lt_div_iff₀ hb' two_pos]
      exact_mod_cast (by omega : a % b * 2 < 1 * b)
    rw [add_sub_cancel_left, abs_of_nonneg hrest]
    exact ⟨hhalf.le, fun h => absurd h hhalf.ne⟩
  next hge =>
    split
    next hgt =>
      have hhalf : 1 / 2 < ((a % b : ℕ) : ℚ) / b := by
        rw [div_lt_div_iff₀ two_pos hb']
        exact_mod_cast (by omega : 1 * b < a % b * 2)
      rw [Nat.cast_add_one, add_sub_add_left_eq_sub, abs_of_neg (by linarith)]
      exact ⟨by linarith, fun h => absurd h (by linarith)⟩
    next hle =>
      have hhalf : ((a % b : ℕ) : ℚ) / b = 1 / 2 := by
        rw [div_eq_div_iff hb'.ne' two_ne_zero]
        exact_mod_cast (by omega : a % b * 2 = 1 * b)
      have heven : Even (q + q % 2) := Nat.even_iff.mpr (by omega)
      rw [hhalf, Nat.cast_add, add_sub_add_left_eq_sub]
      refine ⟨?_, fun _ => by exact_mod_cast heven⟩
      rcases Nat.mod_two_eq_zero_or_one q with h | h <;> rw [h] <;> norm_num

/-! ## multiples of a power of ten -/

/-- `q` is the multiple of `10 ^ -places` nearest to `x`: any other is further away, or as far and
then `q` is the even multiple -/
def RoundsTo (x : ℚ) (places : ℕ) (q : ℚ) : Prop :=
  ∃ k : ℤ, q = k / 10 ^ places ∧ ∀ j : ℤ, j ≠ k →
    |x - q| < |x - j / 10 ^ places| ∨ |x - q| = |x - j / 10 ^ places| ∧ Even k

/-- distances in units of the last place -/
theorem abs_mul_pow_sub (x : ℚ) (k : ℤ) (places : ℕ) :
    |x * 10 ^ places - k| = |x - k / 10 ^ places| * 10 ^ places := by
  have hpos : (0 : ℚ) < 10 ^ places := by positivity
  rw [← abs_of_pos hpos, ← abs_mul, sub_mul, abs_of_pos hpos, div_mul_cancel₀ _ hpos.ne']

theorem roundsTo_iff {x q : ℚ} {places : ℕ} : RoundsTo x places q ↔
    ∃ k : ℤ, q = k / 10 ^ places ∧ NearestEven (x * 10 ^ places) k := by
  have hpos : (0 : ℚ) < 10 ^ places := by positivity
  refine exists_congr fun k => and_congr_right fun hq => ?_
  simp only [nearestEven_iff, hq, abs_mul_pow_sub, mul_lt_mul_iff_left₀ hpos,
    mul_left_inj' hpos.ne']

/-- a multiple is its own rounding -/
theorem roundsTo_self {x : ℚ} {places : ℕ} {k : ℤ} (h : x * 10 ^ places = k) :
    RoundsTo x places x := by
  refine roundsTo_iff.mpr ⟨k, eq_div_of_mul_eq (by positivity) h, ?_⟩
  rw [h]
  exact .intCast k

/-- the rounding of a fraction to whole units of the last place -/
theorem roundsTo_signed_div (negative : Bool) (a places : ℕ) {b : ℕ} (hb : 0 < b) :
    RoundsTo (signed negative (a / b)) places
      (signed negative (divNearestEven (a * 10 ^ places) b / 10 ^ places)) := by
  have hnear := nearestEven_divNearestEven (a * 10 ^ places) hb
  rw [Nat.cast_mul, mul_div_right_comm, Nat.cast_pow, Nat.cast_ofNat] at hnear
  generalize divNearestEven (a * 10 ^ places) b = c at hnear ⊢
  cases negative with
  | false => exact roundsTo_iff.mpr ⟨c, by rw [Int.cast_natCast]; rfl, hnear⟩
  | true =>
    have hneg := hnear.neg
    rw [← neg_mul] at hneg
    refine roundsTo_iff.mpr ⟨-c, ?_, hneg⟩
    rw [Int.cast_neg, Int.cast_natCast, neg_div]
    rfl

namespace RoundsTo
variable {x y q r : ℚ} {places : ℕ}

theorem unique (hq : RoundsTo x places q) (hr : RoundsTo x places r) : q = r := by
  obtain ⟨k, rfl, hk⟩ := roundsTo_iff.mp hq
  obtain ⟨l, rfl, hl⟩ := roundsTo_iff.mp hr
  rw [hk.unique hl]

/-- what is not further away from the rounded number than `x` is rounded to it too -/
theorem of_closer (hq : RoundsTo x places q) (h : |y - q| ≤ |x - q|) : RoundsTo y places q := by
  obtain ⟨k, rfl, hk⟩ := roundsTo_iff.mp hq
  refine roundsTo_iff.mpr ⟨k, rfl, hk.of_closer ?_⟩
  rw [abs_mul_pow_sub, abs_mul_pow_sub]
  exact mul_le_mul_of_nonneg_right h (by positivity)

end RoundsTo

end Arbor
