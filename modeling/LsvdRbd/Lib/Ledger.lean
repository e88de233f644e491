import Mathlib.Tactic

/-!
# Numbered requests and the references they hold

Requests are kept in the order they were made and named by their position. A
counter that follows the number of requests with some property changes by what one
request gains or loses, and requests that do not have the property before or after a
change do not matter to it.
-/

namespace LsvdRbd.Ledger

set_option autoImplicit false

variable {R : Type*} {p : R → Bool} {reqs : List R} {id : ℕ} {old new : R}

theorem set_lookup (found : reqs[id]? = some old) (new : R) (j : ℕ) :
    (reqs.set id new)[j]? = if j = id then some new else reqs[j]? := by
  obtain ⟨inside, -⟩ := List.getElem?_eq_some_iff.mp found
  rw [List.getElem?_set]
  by_cases same : j = id
  · simp [same, inside]
  · simp [same, Ne.symm same]

theorem add_lookup (reqs : List R) (new : R) (j : ℕ) :
    (reqs ++ [new])[j]? = if j = reqs.length then some new else reqs[j]? := by
  by_cases same : j = reqs.length
  · simp [same]
  · rcases Nat.lt_or_gt_of_ne same with before | after
    · rw [List.getElem?_append_left before, if_neg same]
    · simp only [same, if_false]
      rw [List.getElem?_eq_none (by simp; omega), List.getElem?_eq_none (by omega)]

theorem set_count (found : reqs[id]? = some old) :
    ((reqs.set id new).countP p : ℤ) =
      reqs.countP p - (if p old then 1 else 0) + (if p new then 1 else 0) := by
  obtain ⟨inside, rfl⟩ := List.getElem?_eq_some_iff.mp found
  rw [List.countP_set inside]
  by_cases held : p reqs[id] = true
  · have positive : 0 < reqs.countP p :=
      List.countP_pos_iff.mpr ⟨_, List.getElem_mem inside, held⟩
    simp only [held, if_true]
    push_cast [positive]
    ring
  · simp [held]

theorem set_sum (found : reqs[id]? = some old) (f : R → ℕ) :
    ((reqs.set id new).map f).sum + f old = (reqs.map f).sum + f new := by
  induction reqs generalizing id with
  | nil => cases found
  | cons first rest ih =>
      cases id with
      | zero =>
          cases found
          simp only [List.set_cons_zero, List.map_cons, List.sum_cons]
          omega
      | succ id =>
          have later := ih found
          simp only [List.set_cons_succ, List.map_cons, List.sum_cons]
          omega

theorem add_count :
    ((reqs ++ [new]).countP p : ℤ) = reqs.countP p + (if p new then 1 else 0) := by
  simp [List.countP_append, List.countP_cons]

/-- The same requests have the property, under the same numbers. -/
structure Agree (p : R → Bool) (before after : List R) : Prop where
  lookup : ∀ (id : ℕ) (r : R), p r = true → (after[id]? = some r ↔ before[id]? = some r)
  count : (after.countP p : ℤ) = before.countP p

theorem Agree.set (found : reqs[id]? = some old) (outside : p old = false)
    (still : p new = false) : Agree p reqs (reqs.set id new) where
  lookup := by
    intro j r held
    rw [set_lookup found]
    by_cases same : j = id
    · subst same
      rw [if_pos rfl, found]
      constructor
      · rintro ⟨⟩
        rw [still] at held
        cases held
      · rintro ⟨⟩
        rw [outside] at held
        cases held
    · rw [if_neg same]
  count := by simp [set_count found, outside, still]

theorem Agree.add (outside : p new = false) : Agree p reqs (reqs ++ [new]) where
  lookup := by
    intro j r held
    rw [add_lookup]
    by_cases same : j = reqs.length
    · subst same
      rw [if_pos rfl, List.getElem?_eq_none (Nat.le_refl _)]
      constructor
      · rintro ⟨⟩
        rw [outside] at held
        cases held
      · intro absent
        cases absent
    · rw [if_neg same]
  count := by simp [outside]

end LsvdRbd.Ledger
