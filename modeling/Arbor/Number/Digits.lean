/-!
# Digits of natural numbers

* `paddedDigits b w n`  the last `w` digits of `n` in base `b`, with leading zeros;
* `naturalText n`       `n` in decimal;
* `integerText n`       an integer in decimal, with a minus sign in front of the negative ones.
-/

namespace Arbor

/-! ## digits of a fixed width -/

/-- the last `width` digits of a number in the base, the most significant first -/
def paddedDigits (base : Nat) : Nat → Nat → List Char
  | 0, _ => []
  | width + 1, n => paddedDigits base width (n / base) ++ [Nat.digitChar (n % base)]

theorem length_paddedDigits (base width n : Nat) : (paddedDigits base width n).length = width := by
  induction width generalizing n with
  | zero => rfl
  | succ width ih => rw [paddedDigits, List.length_append, ih, List.length_singleton]

/-! ## decimal texts -/

def naturalText (n : Nat) : String := String.ofList (Nat.toDigits 10 n)

theorem isDigit_of_mem_naturalText {n : Nat} {c : Char} (h : c ∈ (naturalText n).toList) :
    c.isDigit = true := by
  rw [naturalText, String.toList_ofList] at h
  exact Nat.isDigit_of_mem_toDigits (by decide) (by decide) h

theorem naturalText_inj {m n : Nat} : naturalText m = naturalText n ↔ m = n := by
  constructor
  · intro h
    rw [← Nat.ofDigitChars_toDigits (b := 10) (n := m) (by decide) (by decide),
      String.ofList_injective h, Nat.ofDigitChars_toDigits (by decide) (by decide)]
  · exact congrArg naturalText

def integerText (n : Int) : String :=
  if n < 0 then "-" ++ naturalText n.natAbs else naturalText n.natAbs

end Arbor
