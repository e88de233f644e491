import Mathlib.Tactic

/-!
# Reference counts

An object with a counter of the references to it is freed by the release that takes the
counter to zero. As long as every access is made under a reference, and every reference is
counted, no access comes after the object is freed, and it is freed exactly once.
-/

namespace LsvdRbd.Refs

set_option autoImplicit false

structure Cell where
  count : ℤ
  /-- How often the object was freed. -/
  frees : ℕ
  /-- The accesses that came after it was freed. -/
  torn : ℕ
deriving DecidableEq

namespace Cell

def new (count : ℕ) : Cell := ⟨count, 0, 0⟩

def touch (c : Cell) : Cell := { c with torn := if c.frees = 0 then c.torn else c.torn + 1 }

def retain (c : Cell) : Cell := { c.touch with count := c.count + 1 }

def lower (c : Cell) : Cell := { c.touch with count := c.count - 1 }

/-- `dec_and_free`: the one that finds the last reference frees the object. -/
def release (c : Cell) : Cell :=
  { c.lower with frees := if c.count = 1 then c.frees + 1 else c.frees }

/-- The object is there as long as references are held, and was freed once after that. -/
structure Held (c : Cell) (refs : ℕ) : Prop where
  count : c.count = refs
  frees : c.frees = if refs = 0 then 1 else 0
  torn : c.torn = 0

variable {c : Cell} {refs : ℕ}

theorem held_new (positive : 0 < refs) : (new refs).Held refs where
  count := rfl
  frees := by rw [if_neg (by omega)]; rfl
  torn := rfl

theorem Held.alive (held : c.Held refs) (positive : 0 < refs) : c.frees = 0 := by
  rw [held.frees, if_neg (by omega)]

theorem Held.frees_le (held : c.Held refs) : c.frees ≤ 1 := by
  rw [held.frees]
  split <;> omega

theorem Held.touch_eq (held : c.Held refs) (positive : 0 < refs) : c.touch = c := by
  rw [touch, if_pos (held.alive positive)]

theorem Held.touch (held : c.Held refs) (positive : 0 < refs) : c.touch.Held refs := by
  rw [held.touch_eq positive]
  exact held

theorem Held.retain (held : c.Held refs) (positive : 0 < refs) : c.retain.Held (refs + 1) := by
  rw [Cell.retain, held.touch_eq positive]
  refine ⟨?_, ?_, held.torn⟩
  · simp [held.count]
  · simp [held.alive positive]

theorem Held.lower (held : c.Held (refs + 1)) (others : 0 < refs) : c.lower.Held refs := by
  rw [Cell.lower, held.touch_eq (by omega)]
  refine ⟨?_, ?_, held.torn⟩
  · simp [held.count]
  · rw [if_neg (by omega)]
    exact held.alive (by omega)

theorem Held.release (held : c.Held (refs + 1)) : c.release.Held refs := by
  have alive := held.alive (by omega)
  have count := held.count
  rw [Cell.release, Cell.lower, held.touch_eq (by omega)]
  refine ⟨by simp [count], ?_, held.torn⟩
  simp only [alive]
  split <;> split <;> omega

end Cell

end LsvdRbd.Refs
