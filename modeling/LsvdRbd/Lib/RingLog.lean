import Mathlib.Tactic

/-!
# Spans of a log on a ring

A log that goes round a ring of `size` slots is read as one sequence of positions; the
slot of a position is its remainder. A span that ends within its turn covers slots in a
row, and two spans of one turn's length cover different slots.
-/

namespace LsvdRbd.RingLog

set_option autoImplicit false

structure Span where
  start : ℕ
  len : ℕ
deriving DecidableEq

namespace Span

def stop (a : Span) : ℕ := a.start + a.len

def slot (size : ℕ) (a : Span) : ℕ := a.start % size

/-- The span ends within the turn it starts in. -/
def Unbroken (size : ℕ) (a : Span) : Prop := a.slot size + a.len ≤ size

/-- The slots of two unbroken spans are different. -/
def Apart (size : ℕ) (a b : Span) : Prop :=
  a.slot size + a.len ≤ b.slot size ∨ b.slot size + b.len ≤ a.slot size

variable {size : ℕ} {a b : Span}

private theorem turn_cases (positive : 0 < size) (later : a.start ≤ b.start)
    (near : b.start ≤ a.start + size) :
    b.slot size = a.slot size + (b.start - a.start) ∨
      b.slot size + size = a.slot size + (b.start - a.start) ∨
      b.start = a.start + size ∧ b.slot size = a.slot size := by
  unfold slot
  rcases Nat.lt_or_ge b.start (a.start + size) with within | whole
  · have split : b.start % size = (a.start % size + (b.start - a.start)) % size := by
      rw [Nat.mod_add_mod]
      congr 1
      omega
    have below := Nat.mod_lt a.start positive
    rcases Nat.lt_or_ge (a.start % size + (b.start - a.start)) size with same | next
    · exact .inl (split.trans (Nat.mod_eq_of_lt same))
    · have around := Nat.mod_eq_sub_mod next
      rw [Nat.mod_eq_of_lt (by omega : a.start % size + (b.start - a.start) - size < size)] at around
      exact .inr (.inl (by omega))
  · obtain rfl | same : size = 0 ∨ b.start = a.start + size := by omega
    · omega
    · exact .inr (.inr ⟨same, by rw [same, Nat.add_mod_right]⟩)

/-- A span that ends within one length of the ring after an earlier one starts leaves
its slots alone. -/
theorem apart_of_within (positive : 0 < size) (filled : 0 < b.len) (later : a.stop ≤ b.start)
    (within : b.stop ≤ a.start + size) : a.Apart size b := by
  unfold stop at later within
  unfold Apart
  rcases turn_cases (a := a) (b := b) positive (by omega) (by omega) with same | next | whole
  · left
    omega
  · right
    omega
  · omega

/-- A span that goes on beyond that covers the first slot of the earlier one. -/
theorem meet_of_beyond (positive : 0 < size) (filled : 0 < a.len)
    (second : b.Unbroken size) (later : a.stop ≤ b.start) (near : b.start ≤ a.start + size)
    (beyond : a.start + size < b.stop) : ¬ a.Apart size b := by
  unfold Unbroken at second
  unfold stop at later beyond
  unfold Apart
  rcases turn_cases (a := a) (b := b) positive (by omega) near with same | next | whole
  · omega
  · omega
  · omega

theorem stop_mod (unbroken : a.Unbroken size) :
    a.stop % size = if a.slot size + a.len = size then 0 else a.slot size + a.len := by
  unfold Unbroken at unbroken
  have split : a.stop % size = (a.slot size + a.len) % size := by
    rw [stop, slot, Nat.mod_add_mod]
  rw [split]
  by_cases full : a.slot size + a.len = size
  · rw [if_pos full, full, Nat.mod_self]
  · rw [if_neg full, Nat.mod_eq_of_lt (by omega)]

end Span

end LsvdRbd.RingLog
