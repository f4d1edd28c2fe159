import Arbor.Number.Fixed
import Arbor.Proofs.TextRows
import Mathlib.Data.Rat.Cast.Order
import Mathlib.Tactic.FieldSimp
import Mathlib.Tactic.Positivity
import Mathlib.Tactic.Ring

/-!
# Decimal numerals

What a text of digits denotes, as an exact fraction, and the shortest of the texts that denote it.

* `toDigits_ofDigitChars`, `paddedDigits_ofDigitChars`  digits can be recovered from their number;
* `Numeral`                    a sign, digits, and digits after a point;
* `Denotes t q`                the text `t` is a numeral for `q`, which is the only one it denotes;
* `Numeral.Canonical`          no zero can be left out, and no sign that zero would bear;
* `CanonicalText t places q`   `t` is the canonical numeral for `q`, and the only one;
* `Fixed.canonicalText_round`  a rounded decimal is written in canonical form.
-/

namespace Arbor

/-! ## rows of digits -/

def Digits (cs : List Char) : Prop := ∀ c ∈ cs, c.isDigit = true

theorem Digits.append {cs ds : List Char} (hc : Digits cs) (hd : Digits ds) : Digits (cs ++ ds) :=
  fun c h => (List.mem_append.mp h).elim (hc c) (hd c)

theorem Digits.front {cs : List Char} {c : Char} (h : Digits (cs ++ [c])) : Digits cs :=
  fun d hd => h d (List.mem_append_left [c] hd)

theorem digits_toDigits (n : Nat) : Digits (Nat.toDigits 10 n) :=
  fun _ hc => Nat.isDigit_of_mem_toDigits (by decide) (by decide) hc

theorem digits_paddedDigits (width n : Nat) : Digits (paddedDigits 10 width n) := by
  induction width generalizing n with
  | zero => exact fun c hc => absurd hc List.not_mem_nil
  | succ width ih =>
    refine (ih (n / 10)).append fun c hc => ?_
    rw [List.mem_singleton.mp hc, Nat.isDigit_digitChar]
    exact decide_eq_true (Nat.mod_lt n (by decide))

/-- a digit is the character of a number below ten -/
theorem exists_digitChar {c : Char} (hc : c.isDigit = true) : ∃ d < 10, Nat.digitChar d = c := by
  have hbounds : 48 ≤ c.toNat ∧ c.toNat ≤ 57 := by
    simpa [Char.isDigit, UInt32.le_iff_toNat_le] using hc
  refine ⟨c.toNat - 48, by omega, Char.toNat_inj.mp ?_⟩
  rw [Nat.toNat_digitChar_of_lt_ten (by omega)]
  omega

theorem ofDigitChars_concat (cs : List Char) {d : Nat} (hd : d < 10) :
    Nat.ofDigitChars 10 (cs ++ [Nat.digitChar d]) 0 = 10 * Nat.ofDigitChars 10 cs 0 + d := by
  rw [Nat.ofDigitChars_append, Nat.ofDigitChars_cons_digitChar_of_lt_ten hd, Nat.ofDigitChars_nil]

theorem ofDigitChars_append_eq (cs ds : List Char) : Nat.ofDigitChars 10 (cs ++ ds) 0 =
    Nat.ofDigitChars 10 cs 0 * 10 ^ ds.length + Nat.ofDigitChars 10 ds 0 := by
  rw [Nat.ofDigitChars_append, Nat.ofDigitChars_eq_ofDigitChars_zero, mul_comm]

theorem ofDigitChars_lt {cs : List Char} (h : Digits cs) :
    Nat.ofDigitChars 10 cs 0 < 10 ^ cs.length := by
  induction cs using List.reverseRecOn with
  | nil => rw [Nat.ofDigitChars_nil]; decide
  | append_singleton cs c ih =>
    obtain ⟨d, hd, rfl⟩ := exists_digitChar (h c (List.mem_append_right cs List.mem_cons_self))
    have hlt := ih h.front
    rw [ofDigitChars_concat cs hd, List.length_append, List.length_singleton, pow_succ]
    omega

/-- the number of the last digits is a remainder -/
theorem ofDigitChars_paddedDigits (width n : Nat) :
    Nat.ofDigitChars 10 (paddedDigits 10 width n) 0 = n % 10 ^ width := by
  induction width generalizing n with
  | zero => rw [paddedDigits, Nat.ofDigitChars_nil, pow_zero, Nat.mod_one]
  | succ width ih =>
    rw [paddedDigits, ofDigitChars_concat _ (Nat.mod_lt n (by decide)), ih, pow_succ',
      Nat.mod_mul, add_comm]

theorem paddedDigits_ofDigitChars {cs : List Char} (h : Digits cs) :
    paddedDigits 10 cs.length (Nat.ofDigitChars 10 cs 0) = cs := by
  induction cs using List.reverseRecOn with
  | nil => rfl
  | append_singleton cs c ih =>
    obtain ⟨d, hd, rfl⟩ := exists_digitChar (h c (List.mem_append_right cs List.mem_cons_self))
    have hdiv : (10 * Nat.ofDigitChars 10 cs 0 + d) / 10 = Nat.ofDigitChars 10 cs 0 := by omega
    have hmod : (10 * Nat.ofDigitChars 10 cs 0 + d) % 10 = d := by omega
    rw [ofDigitChars_concat cs hd, List.length_append, List.length_singleton, paddedDigits, hdiv,
      hmod, ih h.front]

/-- a row of digits that does without zeros in front -/
def Unpadded (cs : List Char) : Prop := cs = ['0'] ∨ cs.head? ≠ some '0'

theorem unpadded_toDigits (n : Nat) : Unpadded (Nat.toDigits 10 n) := by
  induction n using Nat.strongRecOn with
  | ind n ih =>
    rcases Nat.lt_or_ge n 10 with hlt | hge
    · rw [Nat.toDigits_of_lt_base hlt]
      rcases Nat.eq_zero_or_pos n with rfl | hpos
      · exact .inl rfl
      · refine .inr fun hhead => hpos.ne' ?_
        exact Nat.digitChar_eq_zero.mp (Option.some.inj hhead)
    · rw [Nat.toDigits_of_base_le (by decide) hge]
      refine .inr ?_
      rw [List.head?_append_of_ne_nil _ Nat.toDigits_ne_nil]
      refine (ih (n / 10) (by omega)).resolve_left fun hzero => ?_
      have hvalue := Nat.ofDigitChars_ten_toDigits (n := n / 10)
      rw [hzero] at hvalue
      have : Nat.ofDigitChars 10 ['0'] 0 = 0 := rfl
      omega

theorem toDigits_ofDigitChars {cs : List Char} (h : Digits cs) (hne : cs ≠ []) (hu : Unpadded cs) :
    Nat.toDigits 10 (Nat.ofDigitChars 10 cs 0) = cs := by
  induction cs using List.reverseRecOn with
  | nil => exact absurd rfl hne
  | append_singleton cs c ih =>
    obtain ⟨d, hd, rfl⟩ := exists_digitChar (h c (List.mem_append_right cs List.mem_cons_self))
    rw [ofDigitChars_concat cs hd]
    rcases List.eq_nil_or_concat' cs with rfl | ⟨ds, e, hcs⟩
    · rw [Nat.ofDigitChars_nil, Nat.mul_zero, Nat.zero_add, Nat.toDigits_of_lt_base hd,
        List.nil_append]
    · have hfront : cs ≠ [] := by simp [hcs]
      -- a longer row is not a single zero
      have hhead : cs.head? ≠ some '0' := by
        rcases hu with hzero | hhead
        · have hlength := congrArg List.length hzero
          simp [hcs] at hlength
        · rwa [List.head?_append_of_ne_nil _ hfront] at hhead
      have hrow := ih h.front hfront (.inr hhead)
      have hpos : 0 < Nat.ofDigitChars 10 cs 0 := by
        refine Nat.pos_of_ne_zero fun hzero => hhead ?_
        rw [← hrow, hzero, Nat.toDigits_zero]
        rfl
      rw [← Nat.toDigits_append_toDigits (by decide) hpos hd, hrow, Nat.toDigits_of_lt_base hd]

/-! ## numerals -/

/-- a fraction with a sign in front -/
def signed (negative : Bool) (q : ℚ) : ℚ := if negative then -q else q

theorem signed_inj {negative : Bool} {q r : ℚ} : signed negative q = signed negative r ↔ q = r := by
  cases negative
  · rfl
  · exact neg_inj

theorem signed_lt_zero {negative : Bool} {q : ℚ} (hq : 0 ≤ q) :
    signed negative q < 0 ↔ negative = true ∧ q ≠ 0 := by
  cases negative
  · simp [signed, not_lt.mpr hq]
  · simp [signed, lt_iff_le_and_ne, hq]

theorem abs_signed (negative : Bool) (q : ℚ) : |signed negative q| = |q| := by
  cases negative
  · rfl
  · exact abs_neg q

/-- the two sides of a sign are as far apart as the absolute values -/
theorem abs_signed_sub (negative : Bool) (p q : ℚ) :
    |signed negative p - signed negative q| = |p - q| := by
  cases negative
  · rfl
  · show |-p - -q| = |p - q|
    rw [← neg_sub', abs_neg]

theorem neg_signed (negative : Bool) (q : ℚ) : -signed negative q = signed negative (-q) := by
  cases negative <;> rfl

theorem signed_natAbs (n : ℤ) : signed (decide (n < 0)) (n.natAbs : ℚ) = n := by
  rw [signed]
  split
  next hneg =>
    have hn := of_decide_eq_true hneg
    have habs : ((n.natAbs : ℤ) : ℚ) = ((-n : ℤ) : ℚ) := congrArg _ (by omega)
    rw [Int.cast_natCast, Int.cast_neg] at habs
    rw [habs, neg_neg]
  next hpos =>
    have hn : ¬ n < 0 := fun h => hpos (decide_eq_true h)
    have habs : ((n.natAbs : ℤ) : ℚ) = (n : ℚ) := congrArg _ (by omega)
    rwa [Int.cast_natCast] at habs

/-- a decimal numeral: the digits before the point and those after it, if there is one -/
structure Numeral where
  negative : Bool
  integral : List Char
  fractional : List Char
  integral_ne_nil : integral ≠ []
  digits_integral : Digits integral
  digits_fractional : Digits fractional

namespace Numeral

/-! ## writing -/

def signChars (negative : Bool) : List Char := if negative then ['-'] else []

def pointChars (fractional : List Char) : List Char :=
  if fractional = [] then [] else '.' :: fractional

def text (n : Numeral) : String :=
  String.ofList (signChars n.negative ++ (n.integral ++ pointChars n.fractional))

/-- the number that a numeral denotes -/
def value (n : Numeral) : ℚ :=
  signed n.negative (Nat.ofDigitChars 10 n.integral 0 +
    Nat.ofDigitChars 10 n.fractional 0 / 10 ^ n.fractional.length)

/-! ## reading -/

theorem signChars_injective : Function.Injective signChars := by
  intro s t h
  cases s <;> cases t <;> first | rfl | cases h

theorem pointChars_injective : Function.Injective pointChars := by
  intro f g h
  unfold pointChars at h
  split at h <;> split at h
  · simp [*]
  · cases h
  · cases h
  · exact (List.cons.inj h).2

theorem eq_minus_of_mem_signChars {negative : Bool} {c : Char} (h : c ∈ signChars negative) :
    c = '-' := by
  cases negative
  · cases h
  · exact List.mem_singleton.mp h

theorem startsWith_integral (n : Numeral) (cs : List Char) :
    StartsWith (fun c => ¬ c = '-') (n.integral ++ cs) := by
  obtain ⟨c, ds, hcons⟩ := List.exists_cons_of_ne_nil n.integral_ne_nil
  rw [hcons, List.cons_append]
  refine startsWith_cons (p := fun c => ¬ c = '-') ?_ _
  rintro rfl
  have hdigit := n.digits_integral '-' (hcons ▸ List.mem_cons_self)
  exact Bool.noConfusion hdigit

theorem startsWith_pointChars (fractional : List Char) :
    StartsWith (fun c : Char => ¬ c.isDigit = true) (pointChars fractional) := by
  unfold pointChars
  split
  · exact startsWith_nil _
  · exact startsWith_cons (p := fun c : Char => ¬ c.isDigit = true) (by decide) _

/-- a numeral can be read off its text -/
theorem text_injective : Function.Injective text := by
  intro n m h
  -- a sign ends before the first digit, and the digits end before a point
  obtain ⟨hsign, hbody⟩ := append_inj_of_stop (p := (· = '-'))
    (fun _ => eq_minus_of_mem_signChars) (fun _ => eq_minus_of_mem_signChars)
    (n.startsWith_integral _) (m.startsWith_integral _) (String.ofList_injective h)
  obtain ⟨hintegral, hpoint⟩ := append_inj_of_stop n.digits_integral m.digits_integral
    (startsWith_pointChars _) (startsWith_pointChars _) hbody
  have hnegative := signChars_injective hsign
  have hfractional := pointChars_injective hpoint
  cases n
  cases m
  simp_all

end Numeral

/-- a text is a numeral for a number -/
def Denotes (t : String) (q : ℚ) : Prop := ∃ n : Numeral, n.text = t ∧ n.value = q

theorem Denotes.unique {t : String} {q r : ℚ} (hq : Denotes t q) (hr : Denotes t r) : q = r := by
  obtain ⟨n, rfl, rfl⟩ := hq
  obtain ⟨m, hm, rfl⟩ := hr
  rw [Numeral.text_injective hm]

namespace Numeral

/-! ## canonical form -/

/-- No digit can be left out, there are at most so many after the point, and only a negative number
has a sign. -/
structure Canonical (n : Numeral) (places : ℕ) : Prop where
  integral : Unpadded n.integral
  length_le : n.fractional.length ≤ places
  last : n.fractional.getLast? ≠ some '0'
  sign : n.negative = true ↔ n.value < 0

/-- all the digits of a numeral, as one number -/
def coefficient (n : Numeral) : ℕ := Nat.ofDigitChars 10 (n.integral ++ n.fractional) 0

theorem value_eq (n : Numeral) :
    n.value = signed n.negative (n.coefficient / 10 ^ n.fractional.length) := by
  rw [value, coefficient, ofDigitChars_append_eq]
  push_cast
  rw [add_div, mul_div_cancel_right₀ _ (by positivity)]

theorem coefficient_div (n : Numeral) :
    n.coefficient / 10 ^ n.fractional.length = Nat.ofDigitChars 10 n.integral 0 := by
  rw [coefficient, ofDigitChars_append_eq, mul_comm, Nat.mul_add_div (by positivity),
    Nat.div_eq_of_lt (ofDigitChars_lt n.digits_fractional), Nat.add_zero]

theorem coefficient_mod (n : Numeral) :
    n.coefficient % 10 ^ n.fractional.length = Nat.ofDigitChars 10 n.fractional 0 := by
  rw [coefficient, ofDigitChars_append_eq, mul_comm, Nat.mul_add_mod,
    Nat.mod_eq_of_lt (ofDigitChars_lt n.digits_fractional)]

/-- in canonical form the last digit after the point counts -/
theorem Canonical.coefficient_mod_ten {n : Numeral} {places : ℕ} (h : n.Canonical places) :
    n.fractional.length = 0 ∨ n.coefficient % 10 ≠ 0 := by
  rcases List.eq_nil_or_concat' n.fractional with hnil | ⟨cs, c, hcs⟩
  · exact .inl (List.length_eq_zero_iff.mpr hnil)
  · refine .inr fun hzero => h.last ?_
    obtain ⟨d, hd, rfl⟩ := exists_digitChar (n.digits_fractional c (by simp [hcs]))
    rw [coefficient, hcs, ← List.append_assoc, ofDigitChars_concat _ hd] at hzero
    obtain rfl : d = 0 := by omega
    rw [hcs, List.getLast?_concat]
    rfl

end Numeral

/-! ## decimals in digits -/

namespace Fixed

/-- how a decimal is written -/
def numeral (x : Fixed) : Numeral where
  negative := x.negative
  integral := Nat.toDigits 10 (x.coefficient / 10 ^ x.places)
  fractional := paddedDigits 10 x.places (x.coefficient % 10 ^ x.places)
  integral_ne_nil := Nat.toDigits_ne_nil
  digits_integral := digits_toDigits _
  digits_fractional := digits_paddedDigits _ _

theorem length_fractional_numeral (x : Fixed) : x.numeral.fractional.length = x.places :=
  length_paddedDigits 10 x.places _

theorem text_eq (x : Fixed) : x.text = x.numeral.text := by
  have hsign : (if x.negative then "-" else "").toList = Numeral.signChars x.negative := by
    cases x.negative <;> rfl
  apply String.toList_injective
  rw [text, Numeral.text, String.toList_ofList]
  split
  next hzero =>
    have hnil : x.numeral.fractional = [] :=
      List.length_eq_zero_iff.mp (x.length_fractional_numeral.trans hzero)
    rw [String.toList_append, hsign, hnil, Numeral.pointChars, if_pos rfl, List.append_nil]
    exact congrArg _ String.toList_ofList
  next hpos =>
    have hcons : x.numeral.fractional ≠ [] := fun hnil =>
      hpos (x.length_fractional_numeral.symm.trans (congrArg List.length hnil))
    rw [Numeral.pointChars, if_neg hcons]
    simp only [String.toList_append, hsign, naturalText, String.toList_ofList, List.append_assoc]
    rfl

theorem coefficient_numeral (x : Fixed) : x.numeral.coefficient = x.coefficient := by
  rw [Numeral.coefficient, ofDigitChars_append_eq, length_fractional_numeral]
  have hintegral : Nat.ofDigitChars 10 x.numeral.integral 0 = x.coefficient / 10 ^ x.places :=
    Nat.ofDigitChars_ten_toDigits
  have hfractional : Nat.ofDigitChars 10 x.numeral.fractional 0 = x.coefficient % 10 ^ x.places :=
    (ofDigitChars_paddedDigits _ _).trans (Nat.mod_mod _ _)
  rw [hintegral, hfractional, Nat.div_add_mod']

theorem value_numeral (x : Fixed) :
    x.numeral.value = signed x.negative (x.coefficient / 10 ^ x.places) := by
  rw [Numeral.value_eq, coefficient_numeral, length_fractional_numeral]
  rfl

/-- a decimal is written in canonical form if its last place counts and zero has no sign -/
theorem canonical_numeral {x : Fixed} {places : ℕ} (hplaces : x.places ≤ places)
    (hlast : x.places = 0 ∨ x.coefficient % 10 ≠ 0)
    (hsign : x.negative = true → x.coefficient ≠ 0) : x.numeral.Canonical places where
  integral := unpadded_toDigits _
  length_le := x.length_fractional_numeral.trans_le hplaces
  last := by
    intro hzero
    obtain ⟨cs, hcs⟩ := List.getLast?_eq_some_iff.mp hzero
    have hpos : x.places ≠ 0 := by
      rw [← x.length_fractional_numeral, hcs]
      simp
    refine hlast.resolve_left hpos ?_
    have hsplit := ofDigitChars_concat (x.numeral.integral ++ cs) (d := 0) (by decide)
    rw [List.append_assoc] at hsplit
    rw [← coefficient_numeral, Numeral.coefficient, hcs]
    exact (congrArg (· % 10) hsplit).trans (Nat.mul_mod_right 10 _)
  sign := by
    rw [value_numeral, signed_lt_zero (by positivity)]
    refine ⟨fun hneg => ⟨hneg, ?_⟩, And.left⟩
    have := hsign hneg
    positivity

/-- a numeral in canonical form is the writing of a decimal -/
theorem numeral_of_canonical {n : Numeral} {places : ℕ} (h : n.Canonical places) :
    numeral ⟨n.negative, n.coefficient, n.fractional.length⟩ = n := by
  have hintegral : Nat.toDigits 10 (n.coefficient / 10 ^ n.fractional.length) = n.integral := by
    rw [n.coefficient_div]
    exact toDigits_ofDigitChars n.digits_integral n.integral_ne_nil h.integral
  have hfractional : paddedDigits 10 n.fractional.length
      (n.coefficient % 10 ^ n.fractional.length) = n.fractional := by
    rw [n.coefficient_mod]
    exact paddedDigits_ofDigitChars n.digits_fractional
  cases n
  simp only [numeral] at hintegral hfractional ⊢
  simp only [hintegral, hfractional]

end Fixed

namespace Numeral

theorem le_of_mul_pow_eq {c d a b : ℕ} (hd : b = 0 ∨ d % 10 ≠ 0) (h : c * 10 ^ b = d * 10 ^ a) :
    b ≤ a := by
  by_contra hlt
  obtain ⟨k, rfl⟩ := Nat.exists_eq_add_of_lt (not_le.mp hlt)
  have hd' : c * 10 ^ k * 10 = d := by
    refine Nat.eq_of_mul_eq_mul_right (by positivity : 0 < 10 ^ a) ?_
    rw [← h]
    ring
  exact hd.resolve_left (by omega) (hd' ▸ Nat.mul_mod_left _ 10)

/-- a number has one canonical numeral only -/
theorem Canonical.eq_of_value_eq {n m : Numeral} {a b : ℕ} (hn : n.Canonical a)
    (hm : m.Canonical b) (h : n.value = m.value) : n = m := by
  have hsign : n.negative = m.negative :=
    Bool.eq_iff_iff.mpr (by rw [hn.sign, hm.sign, h])
  have hcross : n.coefficient * 10 ^ m.fractional.length =
      m.coefficient * 10 ^ n.fractional.length := by
    rw [n.value_eq, m.value_eq, hsign, signed_inj, div_eq_div_iff (by positivity) (by positivity)]
      at h
    exact_mod_cast h
  have hlength : n.fractional.length = m.fractional.length :=
    le_antisymm (le_of_mul_pow_eq hn.coefficient_mod_ten hcross.symm)
      (le_of_mul_pow_eq hm.coefficient_mod_ten hcross)
  have hcoefficient : n.coefficient = m.coefficient := by
    rw [hlength] at hcross
    exact Nat.eq_of_mul_eq_mul_right (by positivity) hcross
  rw [← Fixed.numeral_of_canonical hn, ← Fixed.numeral_of_canonical hm, hsign, hcoefficient,
    hlength]

end Numeral

/-- a text is the numeral in canonical form for a number -/
def CanonicalText (t : String) (places : ℕ) (q : ℚ) : Prop :=
  ∃ n : Numeral, n.text = t ∧ n.Canonical places ∧ n.value = q

namespace CanonicalText
variable {t u : String} {places more : ℕ} {q : ℚ}

theorem denotes (h : CanonicalText t places q) : Denotes t q := by
  obtain ⟨n, ht, -, hq⟩ := h
  exact ⟨n, ht, hq⟩

theorem unique (ht : CanonicalText t places q) (hu : CanonicalText u more q) : t = u := by
  obtain ⟨n, rfl, hn, hnq⟩ := ht
  obtain ⟨m, rfl, hm, hmq⟩ := hu
  rw [hn.eq_of_value_eq hm (hnq.trans hmq.symm)]

theorem mono (h : CanonicalText t places q) (hle : places ≤ more) : CanonicalText t more q := by
  obtain ⟨n, ht, hn, hq⟩ := h
  exact ⟨n, ht, { hn with length_le := hn.length_le.trans hle }, hq⟩

theorem length_pos (h : CanonicalText t places q) : 0 < t.length := by
  obtain ⟨n, rfl, -, -⟩ := h
  have := List.length_pos_of_ne_nil n.integral_ne_nil
  rw [Numeral.text, String.length_ofList, List.length_append, List.length_append]
  omega

end CanonicalText

/-! ## the shortest form -/

namespace Fixed

theorem trim_mul (coefficient places : ℕ) :
    (trim coefficient places).1 * 10 ^ (places - (trim coefficient places).2) = coefficient := by
  induction places generalizing coefficient with
  | zero => simp [trim]
  | succ places ih =>
    rw [trim]
    split
    next hzero =>
      have hle := trim_places_le (coefficient / 10) places
      rw [Nat.succ_sub hle, pow_succ, ← mul_assoc, ih]
      omega
    next => simp

theorem trim_last (coefficient places : ℕ) :
    (trim coefficient places).2 = 0 ∨ (trim coefficient places).1 % 10 ≠ 0 := by
  induction places generalizing coefficient with
  | zero => exact .inl rfl
  | succ places ih =>
    rw [trim]
    split
    next => exact ih (coefficient / 10)
    next hlast => exact .inr hlast

theorem trim_div (coefficient places : ℕ) :
    ((trim coefficient places).1 : ℚ) / 10 ^ (trim coefficient places).2 =
      coefficient / 10 ^ places := by
  have hmul : ((trim coefficient places).1 : ℚ) * 10 ^ (places - (trim coefficient places).2) =
      coefficient := by
    exact_mod_cast trim_mul coefficient places
  have hplaces := Nat.add_sub_cancel' (trim_places_le coefficient places)
  calc ((trim coefficient places).1 : ℚ) / 10 ^ (trim coefficient places).2
      = (trim coefficient places).1 * 10 ^ (places - (trim coefficient places).2) /
          (10 ^ (trim coefficient places).2 * 10 ^ (places - (trim coefficient places).2)) :=
        (mul_div_mul_right _ _ (by positivity)).symm
    _ = coefficient / 10 ^ places := by rw [hmul, ← pow_add, hplaces]

/-- in its shortest form a decimal is written canonically -/
theorem canonicalText_trim (negative : Bool) (c places : ℕ) :
    CanonicalText
      (text ⟨negative && c != 0, (trim c places).1, (trim c places).2⟩) places
      (signed negative (c / 10 ^ places)) := by
  refine ⟨_, (text_eq _).symm, canonical_numeral (trim_places_le c places)
    (trim_last c places) ?_, ?_⟩
  · intro hneg hzero
    have hc : c = 0 := by rw [← trim_mul c places, show (trim c places).1 = 0 from hzero, zero_mul]
    simp [hc] at hneg
  · rw [value_numeral, trim_div]
    rcases eq_or_ne c 0 with rfl | hc
    · simp [signed]
    · rw [bne_iff_ne.mpr hc, Bool.and_true]

theorem canonicalText_round (negative : Bool) (a b precision : ℕ) :
    CanonicalText (round negative a b precision).text precision
      (signed negative (divNearestEven (a * 10 ^ precision) b / 10 ^ precision)) :=
  canonicalText_trim negative (divNearestEven (a * 10 ^ precision) b) precision

end Fixed
end Arbor
