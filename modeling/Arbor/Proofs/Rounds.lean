import Arbor.Loop

/-!
# Rounds of a loop

A loop repeats its step until there is no next state.  Nothing bounds it from outside, so it may
have no end; if it has one, the rounds that lead there are a finite list.  A bound on the number of
rounds then does no harm exactly if it lets the loop make them all.

* `Rounds`                 the rounds of a loop that ends, and the state in which it ends;
* `Rounds.drive_eq_iff`    with a bound it ends the same exactly if the bound is great enough;
* `exists_rounds_of_measure`  a measure that falls by one in each round counts the rounds.
-/

namespace Arbor

/-- The loop makes a round in each of the listed states, in their order, and ends in the last state,
which has no next one. -/
inductive Rounds {σ : Type} (step : σ → Option σ) : σ → List σ → σ → Prop where
  | ended {s : σ} : step s = none → Rounds step s [] s
  | round {s next last : σ} {later : List σ} :
    step s = some next → Rounds step next later last → Rounds step s (s :: later) last

section
variable {σ : Type} {step : σ → Option σ}

namespace Rounds

theorem step_last {s last : σ} {rounds : List σ} (h : Rounds step s rounds last) :
    step last = none := by
  induction h with
  | ended hended => exact hended
  | round _ _ ih => exact ih

/-! ## bounds -/

theorem drive_eq {s last : σ} {rounds : List σ} (h : Rounds step s rounds last) {k : Nat}
    (hk : rounds.length ≤ k) : drive step k s = last := by
  induction h generalizing k with
  | ended hended =>
    cases k with
    | zero => rfl
    | succ k => rw [drive, hended]
  | round hround _ ih =>
    cases k with
    | zero => cases hk
    | succ k =>
      rw [drive_succ_of_step_eq_some hround]
      exact ih (Nat.le_of_succ_le_succ hk)

/-- with a smaller bound the loop stands in a state that has a next one -/
theorem exists_step_drive {s last : σ} {rounds : List σ} (h : Rounds step s rounds last) {k : Nat}
    (hk : k < rounds.length) : ∃ next, step (drive step k s) = some next := by
  induction h generalizing k with
  | ended _ => cases hk
  | @round s next last later hround _ ih =>
    cases k with
    | zero => exact ⟨next, hround⟩
    | succ k =>
      rw [drive_succ_of_step_eq_some hround]
      exact ih (Nat.lt_of_succ_lt_succ hk)

theorem drive_eq_iff {s last : σ} {rounds : List σ} (h : Rounds step s rounds last) {k : Nat} :
    drive step k s = last ↔ rounds.length ≤ k := by
  refine ⟨fun heq => Nat.le_of_not_lt fun hk => ?_, h.drive_eq⟩
  obtain ⟨next, hnext⟩ := h.exists_step_drive hk
  rw [heq, h.step_last] at hnext
  cases hnext

end Rounds

/-! ## measures -/

/-- A loop whose measure falls by one in each round, and which does not end before it is 0, makes as
many rounds as the measure says. -/
theorem exists_rounds_of_measure (measure : σ → Nat)
    (hended : ∀ s, step s = none → measure s = 0)
    (hround : ∀ s next, step s = some next → measure s = measure next + 1) (s : σ) :
    ∃ rounds last, Rounds step s rounds last ∧ rounds.length = measure s := by
  induction hk : measure s generalizing s with
  | zero =>
    cases hs : step s with
    | none => exact ⟨[], s, .ended hs, rfl⟩
    | some next =>
      have := hround s next hs
      omega
  | succ k ih =>
    cases hs : step s with
    | none =>
      have := hended s hs
      omega
    | some next =>
      have hnext := hround s next hs
      obtain ⟨later, last, hlater, hlength⟩ := ih next (by omega)
      exact ⟨s :: later, last, .round hs hlater, congrArg Nat.succ hlength⟩

end
end Arbor
