import LsvdRbd.Lib.RunList
import Mathlib.Data.Set.Card
import Mathlib.Order.Interval.Finset.Basic
import Mathlib.Data.Int.Interval

/-!
# Counting the integers a list of runs maps

The number of integers that an ordered list maps to locations of one kind is
the sum of the lengths of the runs of that kind. Cutting and overwriting change
that sum by what they displace and by what they add.
-/

namespace RunList

set_option autoImplicit false

variable {P : Type*} (f : P → Prop) [DecidablePred f]

/-- The total length of the runs whose location is of the given kind. -/
def mass (runs : List (Run P)) : ℤ :=
  (runs.map fun run => if f run.ptr then run.len else 0).sum

@[simp] theorem mass_nil : mass f ([] : List (Run P)) = 0 := rfl

@[simp] theorem mass_cons (run : Run P) (rest : List (Run P)) :
    mass f (run :: rest) = (if f run.ptr then run.len else 0) + mass f rest := by
  simp [mass]

@[simp] theorem mass_append (left right : List (Run P)) :
    mass f (left ++ right) = mass f left + mass f right := by
  simp [mass]

variable {runs : List (Run P)}

theorem mass_nonneg (lengths : ∀ run ∈ runs, 0 ≤ run.len) :
    0 ≤ mass f runs := by
  induction runs with
  | nil => simp
  | cons run rest ih =>
      have := lengths run (by simp)
      have := ih fun other member => lengths other (by simp [member])
      rw [mass_cons]
      split <;> omega

section Operations

variable {f} [AddAction ℤ P] (invariant : ∀ (n : ℤ) (p : P), f (n +ᵥ p) ↔ f p)

include invariant

theorem mass_outside_inside {b l : ℤ} (order : b ≤ l) (run : Run P) (positive : 0 < run.len) :
    mass f (run.outside b l) + mass f (run.inside b l) = if f run.ptr then run.len else 0 := by
  have limit : run.limit = run.base + run.len := rfl
  by_cases kind : f run.ptr
  · have sliceKind : ∀ x, f ((x - run.base) +ᵥ run.ptr) := fun x => (invariant _ _).mpr kind
    have left : mass f (if run.base < b then [run.slice run.base (min run.limit b)] else []) =
        if run.base < b then min run.limit b - run.base else 0 := by
      split <;> simp [kind]
    have right : mass f (if l < run.limit then [run.slice (max run.base l) run.limit] else []) =
        if l < run.limit then run.limit - max run.base l else 0 := by
      split <;> simp [sliceKind]
    have inner : mass f (run.inside b l) =
        if run.base < l ∧ b < run.limit then min run.limit l - max run.base b else 0 := by
      unfold Run.inside
      split <;> simp [sliceKind]
    rw [Run.outside, mass_append, left, right, inner, if_pos kind]
    split_ifs <;> omega
  · have sliceKind : ∀ x, ¬f ((x - run.base) +ᵥ run.ptr) := fun x => by rwa [invariant]
    have none : ∀ runs : List (Run P), (∀ part ∈ runs, ¬f part.ptr) → mass f runs = 0 := by
      intro runs all
      induction runs with
      | nil => rfl
      | cons part rest ih =>
          rw [mass_cons, if_neg (all part (by simp)),
            ih fun other member => all other (by simp [member]), add_zero]
    rw [if_neg kind, none, none, add_zero]
    · intro part member
      unfold Run.inside at member
      split at member
      · rw [List.mem_singleton.mp member]
        exact sliceKind _
      · cases member
    · intro part member
      have := (mem_outside positive member).1
      rw [this]
      exact sliceKind _

theorem mass_cut {b l : ℤ} (order : b ≤ l) (positive : ∀ run ∈ runs, 0 < run.len) :
    mass f (cutOut b l runs) + mass f (cutIn b l runs) = mass f runs := by
  induction runs with
  | nil => rfl
  | cons run rest ih =>
      have here := mass_outside_inside invariant order run (positive run (by simp))
      have others := ih fun other member => positive other (by simp [member])
      rw [cutOut, cutIn] at others
      rw [cutOut, cutIn, List.flatMap_cons, List.flatMap_cons, mass_append, mass_append, mass_cons]
      omega

theorem Merge.mass_eq {runs merged : List (Run P)} (merge : Merge runs merged) :
    mass f merged = mass f runs := by
  obtain ⟨front, back, left, right, joins⟩ := merge
  have kind : f right.ptr ↔ f left.ptr := by rw [← joins.2, invariant]
  simp only [mass_append, mass_cons, kind, Run.join]
  split_ifs <;> omega

theorem Merges.mass_eq {runs merged : List (Run P)} (merges : Merges runs merged) :
    mass f merged = mass f runs := by
  induction merges with
  | refl => rfl
  | tail _ step ih => rw [step.mass_eq invariant, ih]

theorem mass_overwrite [DecidableEq P] {b l : ℤ} (ordered : Ordered runs) (order : b < l)
    (ptr : P) :
    mass f (overwrite b l ptr runs) + mass f (cutIn b l runs) =
      mass f runs + if f ptr then l - b else 0 := by
  obtain ⟨before, after, whole, left, right⟩ := cut_out_split order.le ordered
  obtain ⟨same, -⟩ := overwrite_eq_glue ordered order ptr whole left right
  have cut := mass_cut invariant order.le ordered.positive
  rw [whole, mass_append] at cut
  rw [same, Merges.mass_eq invariant (glue_merges _ _ _), mass_append, mass_cons]
  simp only
  omega

end Operations

section Denotation

variable {f} [AddAction ℤ P] (invariant : ∀ (n : ℤ) (p : P), f (n +ᵥ p) ↔ f p)

include invariant

/-- The sum of lengths counts the integers mapped to a location of the kind. -/
theorem mass_eq_ncard (ordered : Ordered runs) :
    mass f runs = ({x : ℤ | ∃ p, get runs x = some p ∧ f p}.ncard : ℤ) ∧
      {x : ℤ | ∃ p, get runs x = some p ∧ f p}.Finite := by
  induction runs with
  | nil => simp
  | cons run rest ih =>
      obtain ⟨positive, restOrdered, before⟩ := (ordered_cons _ _).mp ordered
      obtain ⟨count, finite⟩ := ih restOrdered
      have limit : run.limit = run.base + run.len := rfl
      have restAbove : ∀ x p, get rest x = some p → run.limit ≤ x := by
        intro x p found
        obtain ⟨other, member, inside, -⟩ := (get_eq_some_iff restOrdered x p).mp found
        have := before other member
        have := inside.1
        omega
      have split : {x : ℤ | ∃ p, get (run :: rest) x = some p ∧ f p} =
          {x | run.Contains x ∧ f run.ptr} ∪ {x | ∃ p, get rest x = some p ∧ f p} := by
        ext x
        simp only [Set.mem_ofPred_eq, Set.mem_union, get_cons]
        by_cases inside : run.Contains x
        · rw [locate_of_contains inside]
          have notRest : ¬∃ p, get rest x = some p ∧ f p := by
            rintro ⟨p, found, -⟩
            have := restAbove x p found
            have := inside.2
            omega
          simp [inside, notRest, invariant]
        · rw [locate_of_not_contains inside]
          simp [inside]
      have interval : {x : ℤ | run.Contains x ∧ f run.ptr} =
          if f run.ptr then (Finset.Ico run.base run.limit : Set ℤ) else ∅ := by
        ext x
        split <;> simp [*, Run.Contains]
      have intervalFinite : {x : ℤ | run.Contains x ∧ f run.ptr}.Finite := by
        rw [interval]
        split
        · exact Finset.finite_toSet _
        · exact Set.finite_empty
      have intervalCount : ({x : ℤ | run.Contains x ∧ f run.ptr}.ncard : ℤ) =
          if f run.ptr then run.len else 0 := by
        rw [interval]
        split
        · rw [Set.ncard_coe_finset, Int.card_Ico]
          omega
        · simp
      have disjoint : Disjoint {x : ℤ | run.Contains x ∧ f run.ptr}
          {x | ∃ p, get rest x = some p ∧ f p} := by
        rw [Set.disjoint_left]
        rintro x ⟨inside, -⟩ ⟨p, found, -⟩
        have := restAbove x p found
        have := inside.2
        omega
      rw [split]
      refine ⟨?_, intervalFinite.union finite⟩
      rw [Set.ncard_union_eq disjoint intervalFinite finite, mass_cons, count]
      push_cast
      rw [intervalCount]

end Denotation

end RunList
