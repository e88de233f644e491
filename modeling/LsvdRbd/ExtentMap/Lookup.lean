import LsvdRbd.ExtentMap.Cursor

/-!
# Searching the two-level map

`lower_bound` searches `maxes` and then one list. On an ordered map it finds
the position that separates the extents ending at or before the key from those
that reach beyond it, and a scan from there visits the second group.
-/

namespace LsvdRbd.ExtentMap

open RunList

set_option autoImplicit false

variable {P : Type*}

section Partition

variable {α : Type*}

private theorem find_idx_middle (p : α → Bool) (left right : List α) (x : α)
    (before : ∀ a ∈ left, p a = false) (here : p x = true) :
    (left ++ x :: right).findIdx p = left.length := by
  induction left with
  | nil => simp [List.findIdx_cons, here]
  | cons head tail ih =>
      have first : p head = false := before head (by simp)
      simp only [List.cons_append, List.findIdx_cons, first, List.length_cons]
      rw [ih (fun a member => before a (by simp [member]))]
      rfl

/-- The partition point of an increasing list, with the correction for an
equal entry, is the number of entries that are at most `base`. -/
theorem partition_point (low high : List ℤ) (base : ℤ)
    (increasing : (low ++ high).Pairwise (· < ·))
    (below : ∀ max ∈ low, max ≤ base) (above : ∀ max ∈ high, base < max) :
    let k := (low ++ high).findIdx fun max => decide (base ≤ max)
    (if (low ++ high)[k]? = some base then k + 1 else k) = low.length := by
  intro k
  rcases List.eq_nil_or_concat' low with rfl | ⟨front, last, rfl⟩
  · cases high with
    | nil => simp [k]
    | cons next rest =>
        have := above next (by simp)
        have first : k = 0 := find_idx_middle _ [] rest next (by simp) (by simp [this.le])
        rw [first, if_neg (by simp; omega)]
        rfl
  · have strict : ∀ max ∈ front, max < last := by
      intro max member
      have parts := (List.pairwise_append.mp (List.pairwise_append.mp increasing).1).2.2
      exact parts max member last (by simp)
    by_cases equal : last = base
    · have found : k = front.length := by
        have := find_idx_middle (fun max => decide (base ≤ max)) front high last
          (by
            intro max member
            have := strict max member
            simp
            omega)
          (by simp [equal])
        simpa [k] using this
      rw [if_pos (by simp [found, equal]), found]
      simp
    · have reach : last ≤ base := below last (by simp)
      have noneReach : ∀ max ∈ front ++ [last], ¬base ≤ max := by
        intro max member
        rcases List.mem_append.mp member with inFront | same
        · have := strict max inFront
          omega
        · have := List.mem_singleton.mp same
          omega
      have found : k = (front ++ [last]).length := by
        cases high with
        | nil =>
            simp only [k, List.append_nil]
            apply List.findIdx_eq_length_of_false
            intro max member
            simpa using noneReach max member
        | cons next rest =>
            apply find_idx_middle
            · intro max member
              simpa using noneReach max member
            · have := above next (by simp)
              simp
              omega
      have notHere : (front ++ [last] ++ high)[k]? ≠ some base := by
        rw [found, List.getElem?_append_right (Nat.le_refl _)]
        intro here
        have := above base (List.mem_of_getElem? here)
        omega
      rw [if_neg notHere, found]

end Partition

namespace Extmap

variable {load : ℕ} {m : Extmap P}

theorem limit_le_back_limit {list : List (Extent P)} (ordered : Ordered list) :
    ∀ e ∈ list, e.limit ≤ backLimit list := by
  intro e member
  have occupied : list ≠ [] := List.ne_nil_of_mem member
  obtain ⟨front, last, rfl⟩ := (List.eq_nil_or_concat' list).resolve_left occupied
  have back : backLimit (front ++ [last]) = last.limit := by simp [backLimit]
  rw [back]
  rcases List.mem_append.mp member with inFront | same
  · have split := (ordered_append _ _).mp ordered
    have before := split.2.2 e inFront last (by simp)
    have positive := ordered.positive last (by simp)
    unfold Run.limit at before ⊢
    omega
  · rw [List.mem_singleton.mp same]

theorem back_limit_mem {list : List (Extent P)} (occupied : list ≠ []) :
    ∃ front last, list = front ++ [last] ∧ last.limit = backLimit list := by
  obtain ⟨front, last, rfl⟩ := (List.eq_nil_or_concat' list).resolve_left occupied
  exact ⟨front, last, rfl, by simp [backLimit]⟩

theorem ordered_lists {lists : List (List (Extent P))} (ordered : Ordered lists.flatten) :
    (∀ list ∈ lists, Ordered list) ∧
      lists.Pairwise fun left right => ∀ a ∈ left, ∀ b ∈ right, a.limit ≤ b.base := by
  have parts := List.pairwise_flatten.mp ordered.separated
  refine ⟨fun list member => ⟨?_, parts.1 list member⟩, parts.2⟩
  intro run inside
  exact ordered.positive run (List.mem_flatten.mpr ⟨list, member, inside⟩)

theorem maxes_increasing {lists : List (List (Extent P))} (ordered : Ordered lists.flatten)
    (occupied : ∀ list ∈ lists, list ≠ []) :
    (lists.map backLimit).Pairwise (· < ·) := by
  have parts := ordered_lists ordered
  refine List.pairwise_map.mpr (List.Pairwise.imp_of_mem ?_ parts.2)
  intro left right leftMember rightMember separated
  obtain ⟨front, a, rfl, aLimit⟩ := back_limit_mem (occupied left leftMember)
  obtain ⟨back, b, rfl, bLimit⟩ := back_limit_mem (occupied right rightMember)
  have := separated a (by simp) b (by simp)
  have := ordered.positive b (List.mem_flatten.mpr ⟨_, rightMember, by simp⟩)
  rw [← aLimit, ← bLimit]
  unfold Run.limit at *
  omega

/-- The iterator separates the extents that end at or before `base` from
those that reach beyond it. -/
def Splits (m : Extmap P) (it : Iter) (base : ℤ) (before after : List (Extent P)) : Prop :=
  At m it before after ∧ (∀ e ∈ before, e.limit ≤ base) ∧ ∀ e ∈ after, base < e.limit

variable {L : Layout P}

theorem lower_bound_inside (lists rest : List (List (Extent P))) (list : List (Extent P))
    (split : m.lists = lists ++ list :: rest) (maxes : m.maxes = m.lists.map backLimit)
    (ordered : Ordered m.extents) (occupied : ∀ list ∈ m.lists, list ≠ []) (base : ℤ)
    (stored : L.base base = base) (before : ∀ list ∈ lists, backLimit list ≤ base)
    (beyond : base < backLimit list) :
    ∃ front back, list = front ++ back ∧ back ≠ [] ∧
      m.lowerBound L base = ⟨lists.length, front.length⟩ ∧
      (∀ e ∈ front, e.limit ≤ base) ∧ ∀ e ∈ back, base < e.limit := by
  have increasing := maxes_increasing ordered occupied
  have index : (let k := m.maxes.findIdx fun max => decide (base ≤ max)
      if m.maxes[k]? = some base then k + 1 else k) = lists.length := by
    have later : ∀ max ∈ (list :: rest).map backLimit, base < max := by
      rw [split, List.map_append] at increasing
      have sorted := (List.pairwise_append.mp increasing).2.1
      intro max member
      rcases List.mem_cons.mp member with rfl | member
      · exact beyond
      · exact lt_trans beyond ((List.pairwise_cons.mp sorted).1 max member)
    have := partition_point (lists.map backLimit) ((list :: rest).map backLimit) base
      (by rwa [← List.map_append, ← split])
      (by
        intro max member
        obtain ⟨list, inLists, rfl⟩ := List.mem_map.mp member
        exact before list inLists)
      later
    rw [← List.map_append, ← split, ← maxes, List.length_map] at this
    exact this
  have total : m.lists.length = lists.length + rest.length + 1 := by
    simp [split]
    omega
  have here : m.listAt lists.length = list := list_at_middle lists rest list split
  have listOrdered : Ordered list := (ordered_lists ordered).1 list (by simp [split])
  obtain ⟨front, back, parts, lower, upper⟩ := exists_split (fun e : Extent P => e.base < base) list
  subst parts
  have inner : (front ++ back).findIdx (fun e => decide (L.base base ≤ e.base)) = front.length := by
    rw [stored]
    cases back with
    | nil =>
        simp only [List.append_nil]
        apply List.findIdx_eq_length_of_false
        intro e member
        have := lower e member
        simp
        omega
    | cons head tail =>
        apply find_idx_middle
        · intro e member
          have := lower e member
          simp
          omega
        · have := upper head tail rfl
          simp
          omega
  have reach : ∀ e ∈ back, base < e.limit := by
    cases back with
    | nil => simp
    | cons head tail =>
        have first := upper head tail rfl
        have parts := (ordered_cons _ _).mp ((ordered_append _ _).mp listOrdered).2.1
        intro e member
        rcases List.mem_cons.mp member with rfl | member
        · unfold Run.limit
          omega
        · have := parts.2.2 e member
          have := parts.2.1.positive e member
          unfold Run.limit at *
          omega
  have unfolded : m.lowerBound L base =
      if 0 < front.length ∧ ((front ++ back)[front.length - 1]?).any
          (fun prev => decide (prev.base ≤ base ∧ base < prev.limit)) then
        ⟨lists.length, front.length - 1⟩
      else if lists.length < m.lists.length - 1 ∧ front.length = (front ++ back).length then
        ⟨lists.length + 1, 0⟩
      else ⟨lists.length, front.length⟩ := by
    unfold lowerBound
    simp only at index
    simp only [index, here, inner]
    rw [if_neg (by omega), if_neg (by rw [maxes, List.length_map]; omega)]
  rw [unfolded]
  rcases List.eq_nil_or_concat' front with rfl | ⟨earlier, prev, rfl⟩
  · -- nothing in this list starts below `base`
    have occupied : back ≠ [] := by
      have := occupied ([] ++ back) (by simp [split])
      simpa using this
    refine ⟨[], back, by simp, occupied, ?_, by simp, reach⟩
    have : back.length ≠ 0 := by simpa using occupied
    rw [if_neg (by simp), if_neg (by simp; omega)]
  · have previous : (earlier ++ [prev] ++ back)[(earlier ++ [prev]).length - 1]? = some prev := by
      simp
    have starts : prev.base < base := lower prev (by simp)
    have split := (ordered_append _ _).mp ((ordered_append _ _).mp listOrdered).1
    have earlierLimits : ∀ e ∈ earlier, e.limit ≤ base := by
      intro e member
      have := split.2.2 e member prev (by simp)
      omega
    rw [previous]
    by_cases covers : base < prev.limit
    · refine ⟨earlier, prev :: back, by simp, by simp, ?_, earlierLimits, ?_⟩
      · rw [if_pos (by simp [covers, starts.le])]
        simp
      · intro e member
        rcases List.mem_cons.mp member with rfl | member
        · exact covers
        · exact reach e member
    · have notLast : back ≠ [] := by
        rintro rfl
        have : backLimit (earlier ++ [prev] ++ []) = prev.limit := by simp [backLimit]
        omega
      refine ⟨earlier ++ [prev], back, rfl, notLast, ?_, ?_, reach⟩
      · have : back.length ≠ 0 := by simpa using notLast
        rw [if_neg (by simp [covers]), if_neg (by simp only [List.length_append]; omega)]
      · intro e member
        rcases List.mem_append.mp member with inEarlier | same
        · exact earlierLimits e inEarlier
        · rw [List.mem_singleton.mp same]
          omega

theorem lower_bound_beyond (shape : m.Shape load) (ordered : Ordered m.extents) {base : ℤ}
    (below : ∀ list ∈ m.lists, backLimit list ≤ base) : m.lowerBound L base = m.endIter := by
  unfold lowerBound
  by_cases none : m.lists.length = 0
  · rw [if_pos none]
  · have index := partition_point (m.lists.map backLimit) [] base
      (by simpa using maxes_increasing ordered shape.nonempty)
      (by
        intro max member
        obtain ⟨list, inLists, rfl⟩ := List.mem_map.mp member
        exact below list inLists)
      (by simp)
    rw [List.append_nil, ← shape.maxes] at index
    simp only at index
    simp only [index]
    rw [if_neg none, if_pos trivial]

theorem lower_bound_splits (shape : m.Shape load) (ordered : Ordered m.extents) (base : ℤ)
    (stored : L.base base = base) :
    ∃ before after, Splits m (m.lowerBound L base) base before after := by
  obtain ⟨lists, beyond, split, below, first⟩ :=
    exists_split (fun list : List (Extent P) => backLimit list ≤ base) m.lists
  have limits : ∀ e ∈ lists.flatten, e.limit ≤ base := by
    intro e member
    obtain ⟨list, inLists, inList⟩ := List.mem_flatten.mp member
    have := (ordered_lists ordered).1 list (by simp [split, inLists])
    exact le_trans (limit_le_back_limit this e inList) (below list inLists)
  cases beyond with
  | nil =>
      refine ⟨m.extents, [], ?_, ?_, by simp⟩
      · rw [lower_bound_beyond shape ordered (by simpa [split] using below)]
        exact at_end m
      · intro e member
        exact limits e (by simpa [extents, split] using member)
  | cons list rest =>
      obtain ⟨front, back, rfl, occupied, found, lower, upper⟩ :=
        lower_bound_inside lists rest list split shape.maxes ordered shape.nonempty base stored
          below (by
            have := first list rest rfl
            omega)
      refine ⟨lists.flatten ++ front, back ++ rest.flatten, ?_, ?_, ?_⟩
      · exact Or.inr ⟨lists, front, back, rest, split, found, rfl, rfl,
          fun none => absurd none occupied⟩
      · intro e member
        rcases List.mem_append.mp member with inLists | inFront
        · exact limits e inLists
        · exact lower e inFront
      · intro e member
        rcases List.mem_append.mp member with inBack | inRest
        · exact upper e inBack
        · obtain ⟨reaching, inBack⟩ := List.exists_mem_of_ne_nil _ occupied
          have all : Ordered (lists.flatten ++ ((front ++ back) ++ rest.flatten)) := by
            simpa [extents, split] using ordered
          have tail := ((ordered_append _ _).mp ((ordered_append _ _).mp all).2.1)
          have := tail.2.2 reaching (by simp [inBack]) e inRest
          have := tail.2.1.positive e inRest
          have := upper reaching inBack
          unfold Run.limit at *
          omega

/-- An iterator that is advanced until `end()` meets every extent after it. -/
theorem walk_eq (shape : m.Shape load) (fuel : ℕ) {it : Iter} {before after : List (Extent P)}
    (position : At m it before after) (enough : after.length ≤ fuel) :
    m.walk fuel it = after := by
  induction fuel generalizing it before after with
  | zero =>
      have none : after = [] := List.eq_nil_of_length_eq_zero (by omega)
      simp [walk, none]
  | succ fuel ih =>
      cases after with
      | nil => simp [walk, position.eq_end]
      | cons e rest =>
          have next := ih (position.incr shape) (by simpa using enough)
          simp [walk, position.ne_end, position.deref_eq, next]

theorem scan_splits (shape : m.Shape load) (ordered : Ordered m.extents) (base : ℤ)
    (stored : L.base base = base) :
    ∃ before, m.extents = before ++ m.scan L base ∧
      (∀ e ∈ before, e.limit ≤ base) ∧ ∀ e ∈ m.scan L base, base < e.limit := by
  obtain ⟨before, after, position, lower, upper⟩ :=
    lower_bound_splits (L := L) shape ordered base stored
  have whole := position.extents_eq
  have scanned : m.scan L base = after := by
    apply walk_eq shape _ position
    rw [shape.count, whole]
    simp
  rw [scanned]
  exact ⟨before, whole, lower, upper⟩

theorem scan_beyond (shape : m.Shape load) (ordered : Ordered m.extents) {base : ℤ}
    (below : ∀ e ∈ m.extents, e.limit ≤ base) : m.scan L base = [] := by
  have limits : ∀ list ∈ m.lists, backLimit list ≤ base := by
    intro list member
    have last := List.getLast_mem (shape.nonempty list member)
    have := below _ (List.mem_flatten.mpr ⟨list, member, last⟩)
    rwa [backLimit, List.getLast?_eq_some_getLast (shape.nonempty list member)]
  have position := lower_bound_beyond (L := L) shape ordered limits ▸ at_end m
  exact walk_eq shape _ position (Nat.zero_le _)

end Extmap

end LsvdRbd.ExtentMap
