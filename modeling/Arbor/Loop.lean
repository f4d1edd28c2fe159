/-!
# Loops with a bound

* `drive step k s`  repeats `step` from `s` until it has no next state, at most `k` times.
-/

namespace Arbor

/-- the state after at most the given number of steps, earlier if there is no next state -/
def drive {σ : Type} (step : σ → Option σ) : Nat → σ → σ
  | 0, s => s
  | k + 1, s =>
    match step s with
    | none => s
    | some next => drive step k next

theorem drive_succ_of_step_eq_some {σ : Type} {step : σ → Option σ} {s next : σ}
    (h : step s = some next) (k : Nat) : drive step (k + 1) s = drive step k next := by
  rw [drive, h]

end Arbor
