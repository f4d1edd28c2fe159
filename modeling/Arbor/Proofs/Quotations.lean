import Arbor.Proofs.TextRows
import Arbor.Text.Quoted
import Mathlib.Algebra.Group.Nat.Defs

/-!
# Reading quoted text

The character behind a backslash tells what an escape stands for and how long it is.  So a reader
takes one character after the other from a quoted text and sees its end at the first mark without a
backslash.  The reader does not need to know which characters are printable.

* `Quoted.read`               the first character between marks, and what follows it;
* `Quoted.read_escape`        it undoes the escape;
* `Quoted.encode_append_inj`  two texts that start with quoted texts and are the same quote the same
                              and go on alike.
-/

namespace Arbor

/-! ## hexadecimal digits -/

/-- the number of a digit that is written by `Nat.digitChar` -/
def digitValue (c : Char) : Nat := if c.toNat < 58 then c.toNat - 48 else c.toNat - 87

theorem digitValue_digitChar : ∀ d < 16, digitValue (Nat.digitChar d) = d := by decide

def hexValue (cs : List Char) : Nat := cs.foldl (fun value c => 16 * value + digitValue c) 0

theorem hexValue_concat (cs : List Char) (c : Char) :
    hexValue (cs ++ [c]) = 16 * hexValue cs + digitValue c := List.foldl_concat ..

/-- the number of the last digits is a remainder -/
theorem hexValue_paddedDigits (width n : Nat) :
    hexValue (paddedDigits 16 width n) = n % 16 ^ width := by
  induction width generalizing n with
  | zero => exact (Nat.mod_one n).symm
  | succ width ih =>
    rw [paddedDigits, hexValue_concat, ih, digitValue_digitChar _ (Nat.mod_lt n (by decide)),
      Nat.pow_succ', Nat.mod_mul, Nat.add_comm]

namespace Quoted

/-! ## one character -/

/-- the number of digits of a code, by the character behind the backslash -/
def codeWidth (k : Char) : Option Nat :=
  if k = 'x' then some 2 else if k = 'u' then some 4 else if k = 'U' then some 8 else none

/-- what the character behind a backslash stands for, if no code follows it -/
def meaning (k : Char) : Char :=
  if k = 'n' then '\n' else if k = 'r' then '\r' else if k = 't' then '\t' else k

/-- the first character between marks, and what follows it -/
def read : List Char → Option (Char × List Char)
  | [] => none
  | c :: rest =>
    if c = '\x5c' then
      match rest with
      | [] => none
      | k :: rest =>
        match codeWidth k with
        | some width => some (Char.ofNat (hexValue (rest.take width)), rest.drop width)
        | none => some (meaning k, rest)
    else some (c, rest)

theorem read_of_ne {c : Char} (hc : c ≠ '\x5c') (rest : List Char) :
    read (c :: rest) = some (c, rest) := if_neg hc

theorem read_meaning {k : Char} (hk : codeWidth k = none) (rest : List Char) :
    read ('\x5c' :: k :: rest) = some (meaning k, rest) := by
  rw [read, if_pos rfl]
  show (match codeWidth k with | some _ => _ | none => _ : Option (Char × List Char)) = _
  rw [hk]

theorem read_digits {k c : Char} {width : Nat} (hk : codeWidth k = some width)
    (hc : c.toNat < 16 ^ width) (rest : List Char) :
    read ('\x5c' :: k :: (paddedDigits 16 width c.toNat ++ rest)) = some (c, rest) := by
  have hlength := length_paddedDigits 16 width c.toNat
  rw [read, if_pos rfl]
  show (match codeWidth k with | some _ => _ | none => _ : Option (Char × List Char)) = _
  rw [hk]
  show some (Char.ofNat (hexValue (List.take width _)), List.drop width _) = _
  rw [List.take_left' hlength, List.drop_left' hlength, hexValue_paddedDigits,
    Nat.mod_eq_of_lt hc, Char.ofNat_toNat]

/-- every number of a character has a code of one of the three lengths -/
theorem exists_code_eq (c : Char) : ∃ k width, code c = '\x5c' :: k :: paddedDigits 16 width c.toNat ∧
    codeWidth k = some width ∧ c.toNat < 16 ^ width := by
  have hlast : c.toNat < 16 ^ 8 := c.val.toNat_lt
  rw [code]
  split
  · rename_i hc
    exact ⟨'x', 2, rfl, rfl, hc⟩
  · split
    · rename_i hc
      exact ⟨'u', 4, rfl, rfl, hc⟩
    · exact ⟨'U', 8, rfl, rfl, hlast⟩

/-! ## escapes -/

theorem mark_cases (text : List Char) : mark text = '\x22' ∨ mark text = '\x27' := by
  rw [mark]
  split
  · exact .inl rfl
  · exact .inr rfl

/-- a letter or a mark behind a backslash, the character itself, or its code -/
theorem escape_cases (printable : Char → Bool) (text : List Char) (c : Char) :
    (∃ k, escape printable (mark text) c = ['\x5c', k] ∧ codeWidth k = none ∧ meaning k = c) ∨
    (escape printable (mark text) c = [c] ∧ c ≠ mark text ∧ c ≠ '\x5c') ∨
    escape printable (mark text) c = code c := by
  rw [escape]
  split
  · rename_i hc
    have hone : c = '\x22' ∨ c = '\x27' ∨ c = '\x5c' := by
      rcases hc with rfl | rfl
      · exact (mark_cases text).imp_right .inl
      · exact .inr (.inr rfl)
    left
    rcases hone with rfl | rfl | rfl <;> exact ⟨_, rfl, rfl, rfl⟩
  · rename_i hc
    rw [not_or] at hc
    split
    · rename_i hline
      exact .inl ⟨'n', rfl, rfl, hline.symm⟩
    · split
      · rename_i hreturn
        exact .inl ⟨'r', rfl, rfl, hreturn.symm⟩
      · split
        · rename_i htab
          exact .inl ⟨'t', rfl, rfl, htab.symm⟩
        · split
          · exact .inr (.inl ⟨rfl, hc⟩)
          · exact .inr (.inr rfl)

/-- a reader undoes the escape of a character -/
theorem read_escape (printable : Char → Bool) (text : List Char) (c : Char) (rest : List Char) :
    read (escape printable (mark text) c ++ rest) = some (c, rest) := by
  rcases escape_cases printable text c with ⟨k, heq, hk, rfl⟩ | ⟨heq, -, hc⟩ | heq
  · rw [heq]
    exact read_meaning hk rest
  · rw [heq]
    exact read_of_ne hc rest
  · obtain ⟨k, width, hcode, hk, hc⟩ := exists_code_eq c
    rw [heq, hcode]
    exact read_digits hk hc rest

/-- no escape starts with the mark -/
theorem exists_escape_eq (printable : Char → Bool) (text : List Char) (c : Char) :
    ∃ x xs, escape printable (mark text) c = x :: xs ∧ x ≠ mark text := by
  have hback : '\x5c' ≠ mark text := by
    rcases mark_cases text with h | h <;> rw [h] <;> decide
  rcases escape_cases printable text c with ⟨k, heq, -⟩ | ⟨heq, hc, -⟩ | heq
  · exact ⟨_, _, heq, hback⟩
  · exact ⟨_, _, heq, hc⟩
  · obtain ⟨k, width, hcode, -⟩ := exists_code_eq c
    exact ⟨_, _, heq.trans hcode, hback⟩

/-! ## whole texts -/

/-- a quoted text can be read off what starts with it -/
theorem encode_append_inj (printable : Char → Bool) {x y r s : List Char}
    (h : encode printable x ++ r = encode printable y ++ s) : x = y ∧ r = s := by
  have hopen : ∀ (text rest : List Char), encode printable text ++ rest =
      mark text :: (text.flatMap (escape printable (mark text)) ++ (mark text :: rest)) := by
    intro text rest
    rw [encode, List.cons_append, List.append_assoc, List.singleton_append]
  rw [hopen, hopen] at h
  obtain ⟨hmark, hbody⟩ := List.cons.inj h
  rw [← hmark] at hbody
  -- escapes start with anything but the mark, and the mark ends the text
  have hread : ∀ c ∈ x, ∀ d ∈ y, ∀ r s : List Char,
      StartsWith (fun a => a ≠ mark x ∨ a = mark x) r →
      StartsWith (fun a => a ≠ mark x ∨ a = mark x) s →
      escape printable (mark x) c ++ r = escape printable (mark x) d ++ s → c = d ∧ r = s := by
    intro c _ d _ r s _ _ hcd
    have hsame := congrArg read hcd
    rw [read_escape, read_escape] at hsame
    exact Prod.mk.inj (Option.some.inj hsame)
  obtain ⟨hrow, hend⟩ := forall₂_of_flatMap_append (· ≠ mark x) (· = mark x) (fun _ => id)
    (fun c _ => exists_escape_eq printable x c) (fun c _ => exists_escape_eq printable x c) hread
    (startsWith_cons (p := (· = mark x)) rfl r) (startsWith_cons (p := (· = mark x)) rfl s) hbody
  rw [List.forall₂_eq_eq_eq] at hrow
  exact ⟨hrow, (List.cons.inj hend).2⟩

end Quoted
end Arbor
