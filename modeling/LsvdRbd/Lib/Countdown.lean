import Mathlib.Tactic

/-!
# Countdown

A counter is set to the number of arrivals to come. Each arrival takes one off and goes
on if the value was at most one before. Of as many arrivals as were announced exactly the
last goes on, whatever their order; an arrival at a counter of zero or less goes on as
well.
-/

namespace LsvdRbd.Countdown

set_option autoImplicit false

structure Gate where
  counter : ℤ
  /-- The arrivals that went on. -/
  passed : ℕ
deriving DecidableEq

namespace Gate

def arrive (g : Gate) : Gate :=
  ⟨g.counter - 1, if 1 < g.counter then g.passed else g.passed + 1⟩

theorem arrive_iterate (n : ℤ) (k : ℕ) :
    arrive^[k] ⟨n, 0⟩ = ⟨n - k, k + 1 - (max n 1).toNat⟩ := by
  induction k with
  | zero =>
      rw [Function.iterate_zero, id]
      congr 1
      · simp
      · omega
  | succ k ih =>
      rw [Function.iterate_succ_apply', ih, arrive]
      congr 1
      · push_cast
        ring
      · dsimp only
        split
        · omega
        · omega

end Gate

end LsvdRbd.Countdown
