import Mathlib.Algebra.BigOperators.Group.List.Basic
import Mathlib.Tactic

/-!
# Sums over the values of a table

A sum over all entries of a finite table, and how it changes when an entry is
added, replaced or taken out.
-/

namespace LsvdRbd.TableSum

set_option autoImplicit false

variable {α β : Type*} {cmp : α → α → Ordering} [Std.TransCmp cmp] [Std.LawfulEqCmp cmp]
  [DecidableEq α] (f : β → ℤ)

def total (table : Std.ExtTreeMap α β cmp) : ℤ := (table.toList.map fun entry => f entry.2).sum

omit [Std.LawfulEqCmp cmp] [DecidableEq α] in
theorem toList_nodup (table : Std.ExtTreeMap α β cmp) : table.toList.Nodup := by
  refine Std.ExtTreeMap.distinct_keys_toList.imp ?_
  rintro a b differ rfl
  exact differ Std.ReflCmp.compare_self

omit [DecidableEq α] in
theorem perm_toList {left : Std.ExtTreeMap α β cmp} {right : List (α × β)} (distinct : right.Nodup)
    (same : ∀ k v, left[k]? = some v ↔ (k, v) ∈ right) : left.toList.Perm right := by
  refine (List.perm_ext_iff_of_nodup (toList_nodup left) distinct).mpr ?_
  rintro ⟨k, v⟩
  rw [Std.ExtTreeMap.mem_toList_iff_getElem?_eq_some, same]

variable {table : Std.ExtTreeMap α β cmp}

theorem total_erase {k : α} {v : β} (found : table[k]? = some v) :
    total f (table.erase k) = total f table - f v := by
  have apart : (k, v) ∉ (table.erase k).toList := by
    rw [Std.ExtTreeMap.mem_toList_iff_getElem?_eq_some]
    simp
  have split : table.toList.Perm ((k, v) :: (table.erase k).toList) := by
    refine perm_toList (List.nodup_cons.mpr ⟨apart, toList_nodup _⟩) ?_
    intro j w
    rw [List.mem_cons, Std.ExtTreeMap.mem_toList_iff_getElem?_eq_some,
      Std.ExtTreeMap.getElem?_erase]
    by_cases same : k = j
    · subst same
      simp [found, eq_comm]
    · simp [same, Ne.symm same]
  have sums := (split.map fun entry => f entry.2).sum_eq
  simp only [List.map_cons, List.sum_cons] at sums
  simp only [total]
  omega

theorem total_insert_new {k : α} (fresh : table[k]? = none) (v : β) :
    total f (table.insert k v) = total f table + f v := by
  have found : (table.insert k v)[k]? = some v := by simp
  have back : (table.insert k v).erase k = table := by
    refine Std.ExtTreeMap.ext_getElem? ?_
    intro j
    rw [Std.ExtTreeMap.getElem?_erase, Std.ExtTreeMap.getElem?_insert]
    by_cases same : k = j
    · subst same
      simp [fresh]
    · simp [same]
  have erased := total_erase f found
  rw [back] at erased
  omega

theorem total_insert {k : α} {v : β} (found : table[k]? = some v) (w : β) :
    total f (table.insert k w) = total f table - f v + f w := by
  have erased := total_erase f found
  have fresh : (table.erase k)[k]? = none := by simp
  have again := total_insert_new f fresh w
  have same : (table.erase k).insert k w = table.insert k w := by
    refine Std.ExtTreeMap.ext_getElem? ?_
    intro j
    rw [Std.ExtTreeMap.getElem?_insert, Std.ExtTreeMap.getElem?_insert,
      Std.ExtTreeMap.getElem?_erase]
    split
    · rfl
    · rfl
  rw [same] at again
  omega

theorem total_erase_all {keys : List α} (distinct : keys.Nodup) (table : Std.ExtTreeMap α β cmp)
    (value : α → β) (found : ∀ k ∈ keys, table[k]? = some (value k)) :
    total f (keys.foldl (fun table k => table.erase k) table) =
      total f table - (keys.map fun k => f (value k)).sum := by
  induction keys generalizing table with
  | nil => simp
  | cons k rest ih =>
      obtain ⟨apart, restDistinct⟩ := List.nodup_cons.mp distinct
      have later : ∀ j ∈ rest, (table.erase k)[j]? = some (value j) := by
        intro j member
        rw [Std.ExtTreeMap.getElem?_erase]
        have differ : k ≠ j := by
          rintro rfl
          exact apart member
        simp [differ, found j (by simp [member])]
      rw [List.foldl_cons, ih restDistinct _ later, total_erase f (found k (by simp)), List.map_cons,
        List.sum_cons]
      ring

end LsvdRbd.TableSum
