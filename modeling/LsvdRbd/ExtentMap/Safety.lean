import LsvdRbd.ExtentMap.Checked
import LsvdRbd.ExtentMap.Lookup
import Mathlib.Data.List.GetD

/-!
# No access of the extent map is out of range

On a well-shaped map the checked functions of the rebalancing return what the plain ones
do. `_update` is then followed phase by phase: unless a bit-field overflows, no check
fails, and the map stays well shaped and ordered.
-/

namespace LsvdRbd.ExtentMap

open RunList Guarded

set_option autoImplicit false

variable {P : Type}

namespace Extmap

variable {load : ℕ} {m : Extmap P} {it : Iter} {before after : List (Extent P)} {e : Extent P}

/-! ## Positions and indices -/

theorem Shape.maxes_length (shape : m.Shape load) : m.maxes.length = m.lists.length := by
  rw [shape.maxes, List.length_map]

theorem At.hasEntry (position : At m it before (e :: after)) : m.HasEntry it := by
  have found := position.deref_eq
  unfold deref at found
  obtain ⟨inside, -⟩ := List.getElem?_eq_some_iff.mp found
  refine ⟨?_, inside⟩
  by_contra outside
  rw [listAt, List.getD_eq_default _ _ (Nat.le_of_not_lt outside)] at inside
  exact absurd inside (Nat.not_lt_zero _)

theorem At.hasList (position : At m it before after) (some : m.lists ≠ []) :
    m.HasList it.i ∧ it.j ≤ (m.listAt it.i).length := by
  rcases position with ⟨none, -, -, -⟩ | ⟨lists, front, back, rest, split, rfl, -, -, -⟩
  · exact absurd none some
  · have here : m.listAt lists.length = front ++ back := list_at_middle lists rest _ split
    constructor
    · rw [HasList, split]
      simp
    · rw [here]
      simp

theorem list_at_mem {i : ℕ} (inside : m.HasList i) : m.listAt i ∈ m.lists := by
  rw [listAt, List.getD_eq_getElem _ _ inside]
  exact List.getElem_mem inside

theorem Shape.list_at_pos (shape : m.Shape load) {i : ℕ} (inside : m.HasList i) :
    0 < (m.listAt i).length :=
  List.length_pos_iff.mpr (shape.nonempty _ (list_at_mem inside))

/-! ## Iterators -/

theorem deref_checked (position : At m it before (e :: after)) : m.derefChecked it = .ok e := by
  rw [derefChecked, position.deref_eq]

theorem incr_checked (position : At m it before (e :: after)) :
    m.incrChecked it = .ok (m.incr it) := by
  rw [incrChecked, require_bind position.hasEntry]
  rfl

theorem plus_one_checked (position : At m it before (e :: after)) :
    m.plusOneChecked it = .ok (m.plusOne it) := by
  rw [plusOneChecked, require_bind position.hasEntry]
  rfl

theorem store_checked (position : At m it before (e :: after)) (new : Extent P) :
    m.storeChecked it new = .ok (m.store it new) := by
  rw [storeChecked, require_bind position.hasEntry]
  rfl

theorem previous_occupied (shape : m.Shape load) (inside : m.HasList it.i) :
    it.j = 0 ∧ 0 < it.i → 0 < (m.listAt (it.i - 1)).length := by
  rintro ⟨-, later⟩
  have earlier : m.HasList (it.i - 1) := by
    unfold HasList at inside ⊢
    omega
  exact shape.list_at_pos earlier

theorem minus_one_checked (shape : m.Shape load) (inside : m.HasList it.i) :
    m.minusOneChecked it = .ok (m.minusOne it) := by
  rw [minusOneChecked, require_bind inside, require_bind (previous_occupied shape inside)]
  rfl

theorem decr_checked (shape : m.Shape load) (inside : m.HasList it.i) :
    m.decrChecked it = .ok (m.decr it) := by
  rw [decrChecked, require_bind inside, require_bind (previous_occupied shape inside)]
  rfl

theorem store_fix_checked (shape : m.Shape load) (position : At m it before (e :: after))
    (new : Extent P) :
    (m.store it new).fixMaxChecked it.i = .ok ((m.store it new).fixMax it.i) := by
  have stored := (position.store_fix shape new).1.hasEntry
  have length : (m.store it new).maxes.length = m.lists.length := shape.maxes_length
  have entry := position.hasEntry
  rw [fixMaxChecked, require_bind]
  · rfl
  · refine ⟨stored.1, ?_, Nat.lt_of_le_of_lt (Nat.zero_le _) stored.2⟩
    rw [length]
    exact entry.1

/-! ## Rebalancing -/

theorem list_at_set {i : ℕ} (inside : m.HasList i) (list : List (Extent P)) (maxes : List ℤ)
    (count : ℕ) : (⟨m.lists.set i list, maxes, count⟩ : Extmap P).listAt i = list := by
  unfold HasList at inside
  simp [listAt, inside]

theorem expand_inside (inside : m.HasList it.i) (entry : it.j ≤ (m.listAt it.i).length)
    (long : load * 2 ≤ (m.listAt it.i).length) :
    (m.expand load it).1.HasList (m.expand load it).2.i ∧
      (m.expand load it).2.j ≤ ((m.expand load it).1.listAt (m.expand load it).2.i).length := by
  unfold HasList at inside
  have lists : (m.expand load it).1.lists = (m.lists.set it.i ((m.listAt it.i).take load)).insertIdx
      (it.i + 1) ((m.listAt it.i).drop load) := by
    rw [expand, if_pos long]
  have iter : (m.expand load it).2 =
      if load ≤ it.j then ⟨it.i + 1, it.j - load⟩ else it := by
    rw [expand, if_pos long]
  rw [HasList, listAt, lists, iter, List.length_insertIdx_of_le_length (by simpa using inside),
    List.length_set]
  split
  next beyond =>
    refine ⟨Nat.succ_lt_succ inside, ?_⟩
    rw [List.getD_eq_getElem?_getD, List.getElem?_insertIdx_self, if_pos (by simpa using inside)]
    simp only [Option.getD_some, List.length_drop]
    omega
  next front =>
    refine ⟨Nat.lt_succ_of_lt inside, ?_⟩
    rw [List.getD_eq_getElem?_getD, List.getElem?_insertIdx_of_lt (Nat.lt_succ_self _),
      List.getElem?_set_self inside]
    simp only [Option.getD_some, List.length_take]
    omega

theorem expand_checked (positive : 0 < load) (inside : m.HasList it.i)
    (entry : it.j ≤ (m.listAt it.i).length) (maxes : m.maxes.length = m.lists.length) :
    m.expandChecked load it = .ok (m.expand load it) := by
  rw [expandChecked, require_bind inside]
  dsimp only
  by_cases long : load * 2 ≤ (m.listAt it.i).length
  · have halves : 0 < ((m.listAt it.i).take load).length ∧
        0 < ((m.listAt it.i).drop load).length := by
      rw [List.length_take, List.length_drop]
      omega
    have known : it.i < m.maxes.length := maxes ▸ inside
    rw [if_pos long, require_bind halves, require_bind known,
      require_bind (expand_inside inside entry long)]
    rfl
  · rw [if_neg long, expand, if_neg long]
    rfl

theorem insert_checked (positive : 0 < load) (shape : m.Shape load)
    (position : At m it before after) (new : Extent P) :
    m.insertChecked load it new = .ok (m.insert load it new) := by
  rw [insertChecked, insert]
  split
  next empty => rfl
  next occupied =>
    have some : m.lists ≠ [] := by
      rintro none
      rw [shape.count, extents, none] at occupied
      exact occupied rfl
    obtain ⟨inside, entry⟩ := position.hasList some
    have known : it.i < m.maxes.length := shape.maxes_length ▸ inside
    rw [require_bind ⟨inside, entry⟩, require_bind known]
    refine expand_checked positive ?_ ?_ ?_
    · show it.i < (m.lists.set it.i _).length
      rw [List.length_set]
      exact inside
    · rw [list_at_set inside, List.length_insertIdx_of_le_length entry]
      omega
    · show (m.maxes.set it.i _).length = (m.lists.set it.i _).length
      rw [List.length_set, List.length_set]
      exact shape.maxes_length

theorem normalize_checked (inside : m.HasList it.i) :
    m.normalizeChecked it = .ok (m.normalize it) := by
  have stays : m.HasList (m.normalize it).i := by
    unfold HasList at inside ⊢
    rw [normalize]
    split
    next last =>
      dsimp only
      omega
    next other => exact inside
  rw [normalizeChecked, require_bind inside]
  exact require_bind stays _

theorem expand_has_list (inside : m.HasList it.i) (entry : it.j ≤ (m.listAt it.i).length) :
    (m.expand load it).1.HasList (m.expand load it).2.i := by
  by_cases long : load * 2 ≤ (m.listAt it.i).length
  · exact (expand_inside inside entry long).1
  · rw [expand, if_neg long]
    exact inside

theorem drop_entry_inside (large : 2 ≤ load) (shape : m.Shape load)
    (position : At m it before (e :: after)) (some : (m.dropEntry it).lists.length ≠ 0) :
    (m.dropEntry it).HasList it.i ∧
      (m.dropEntry it).maxes.length = (m.dropEntry it).lists.length ∧
      it.j ≤ ((m.dropEntry it).listAt it.i).length ∧
      0 < ((m.dropEntry it).listAt it.i).length := by
  obtain ⟨lists, front, tail, rest, split, rfl, -, -, -⟩ := position.occupied
  rcases drop_entry_lists large shape lists rest front tail split with
    ⟨none, -⟩ | ⟨occupied, dropped, maxes, -⟩
  · exact absurd (congrArg List.length none) some
  · have here := list_at_middle lists rest _ dropped
    dsimp only at here some ⊢
    rw [here, maxes, HasList, dropped]
    refine ⟨by simp, by simp, by simp, List.length_pos_iff.mpr occupied⟩

theorem join_inside {prev pos : ℕ} {j : ℕ} (before : prev < pos) (inside : m.HasList pos)
    (maxes : m.maxes.length = m.lists.length)
    (entry : j ≤ (m.listAt prev ++ m.listAt pos).length) :
    (m.joinLists prev pos).HasList prev ∧ j ≤ ((m.joinLists prev pos).listAt prev).length ∧
      (m.joinLists prev pos).maxes.length = (m.joinLists prev pos).lists.length := by
  unfold HasList at inside
  have here : (m.joinLists prev pos).listAt prev = m.listAt prev ++ m.listAt pos := by
    rw [joinLists, listAt, List.getD_eq_getElem?_getD, List.getElem?_eraseIdx_of_lt before,
      List.getElem?_set_self (by omega), Option.getD_some]
  rw [here]
  refine ⟨?_, entry, ?_⟩
  · rw [HasList, joinLists]
    dsimp only
    rw [List.length_eraseIdx_of_lt (by simpa using inside), List.length_set]
    omega
  · rw [joinLists]
    dsimp only
    rw [List.length_eraseIdx_of_lt (by rwa [List.length_set, maxes]),
      List.length_eraseIdx_of_lt (by rwa [List.length_set]), List.length_set, List.length_set,
      maxes]

theorem erase_checked (large : 2 ≤ load) (shape : m.Shape load)
    (position : At m it before (e :: after)) :
    m.eraseChecked load it = .ok (m.erase load it) := by
  have entry := position.hasEntry
  have known : it.i < m.maxes.length := shape.maxes_length ▸ entry.1
  rw [eraseChecked, require_bind entry, require_bind known, erase]
  dsimp only
  split
  next none => rfl
  next some =>
    obtain ⟨inside, maxes, inList, occupied⟩ := drop_entry_inside large shape position some
    rw [require_bind inside]
    split
    next enough =>
      rw [normalize_checked inside]
      rfl
    next few =>
      split
      next several =>
        set d := m.dropEntry it with dEq
        -- `pos` and the list before it are the list of the iterator and a neighbour
        obtain ⟨pos, posEq⟩ : ∃ pos, pos = if 0 < it.i then it.i else it.i + 1 := ⟨_, rfl⟩
        obtain ⟨j, jEq⟩ : ∃ j, j = if pos = it.i then it.j + (d.listAt (pos - 1)).length else it.j :=
          ⟨_, rfl⟩
        rw [← posEq, ← jEq]
        have earlier : pos - 1 < pos := by
          split at posEq <;> omega
        have hasPos : d.HasList pos := by
          unfold HasList at inside ⊢
          split at posEq <;> omega
        have hasPrev : d.HasList (pos - 1) := by
          unfold HasList at hasPos ⊢
          omega
        have within : j ≤ (d.listAt (pos - 1) ++ d.listAt pos).length := by
          rw [List.length_append]
          split at posEq
          next later =>
            rw [if_pos posEq] at jEq
            rw [posEq] at jEq ⊢
            omega
          next first =>
            rw [if_neg (by omega)] at jEq
            rw [posEq, Nat.add_sub_cancel]
            omega
        have nonempty : 0 < (d.listAt (pos - 1) ++ d.listAt pos).length := by
          rw [List.length_append]
          split at posEq
          next later =>
            rw [posEq]
            omega
          next first =>
            rw [posEq, Nat.add_sub_cancel]
            omega
        obtain ⟨joined, joinedEntry, joinedMaxes⟩ := join_inside earlier hasPos maxes within
        rw [require_bind ⟨hasPos, hasPrev⟩, require_bind ⟨maxes ▸ hasPos, nonempty⟩,
          expand_checked (by omega) joined joinedEntry joinedMaxes, ok_bind,
          normalize_checked (expand_has_list joined joinedEntry)]
        rfl
      next single =>
        rw [fixMaxChecked, require_bind ⟨inside, maxes ▸ inside, occupied⟩]
        show (((m.dropEntry it).fixMax it.i).normalizeChecked it >>= _) = _
        rw [normalize_checked (show ((m.dropEntry it).fixMax it.i).HasList it.i from inside)]
        rfl

end Extmap

/-! ## Bit-fields -/

/-- No access is out of range, and `post` holds unless a bit-field overflows. -/
abbrev Safe {α : Type} (x : Checked α) (post : α → Prop) : Prop :=
  Yields (fun fault => fault = MapFault.field) x post

theorem store_field_safe (field : ℤ → ℤ) (value : ℤ) :
    Safe (storeField field value) fun stored => stored = field value ∧ stored = value :=
  Yields.require_allowed rfl fun fits => Yields.pure ⟨rfl, fits⟩

namespace Layout

variable {L : Layout P} {e : Extent P}

theorem extent_safe (base len : ℤ) (ptr : P) :
    Safe (L.extentChecked base len ptr) fun new =>
      new = L.extent base len ptr ∧ new.base = base ∧ new.len = len := by
  refine (store_field_safe L.base base).bind fun newBase baseEq => ?_
  refine (store_field_safe L.len len).bind fun newLen lenEq => ?_
  refine Yields.pure ⟨?_, baseEq.2, lenEq.2⟩
  rw [extent, baseEq.1, lenEq.1]

theorem relimit_safe (limit : ℤ) :
    Safe (L.relimitChecked e limit) fun new =>
      new = L.relimit e limit ∧ new.base = e.base ∧ new.limit = limit := by
  refine (store_field_safe L.len (limit - e.base)).bind fun newLen lenEq => ?_
  refine Yields.pure ⟨?_, rfl, ?_⟩
  · rw [relimit, lenEq.1]
  · rw [Run.limit, lenEq.2]
    ring

theorem rebase_safe (base : ℤ) :
    Safe (L.rebaseChecked e base) fun new =>
      new = L.rebase e base ∧ new.base = base ∧ new.limit = e.limit := by
  refine (store_field_safe L.base base).bind fun newBase baseEq => ?_
  refine (store_field_safe L.len (e.len - (base - e.base))).bind fun newLen lenEq => ?_
  refine Yields.pure ⟨?_, baseEq.2, ?_⟩
  · rw [rebase, baseEq.1, lenEq.1]
  · rw [Run.limit, Run.limit, baseEq.2, lenEq.2]
    ring

end Layout

namespace Extmap

variable {load : ℕ} {L : Layout P} {m : Extmap P} {it : Iter} {b l : ℤ}
  {before after : List (Extent P)} {e : Extent P}

/-! ## Unmapping a range -/

theorem lower_bound_safe (shape : m.Shape load) (ordered : Ordered m.extents) (base : ℤ) :
    Safe (m.lowerBoundChecked L base) fun it =>
      it = m.lowerBound L base ∧ ∃ before after, Splits m it base before after := by
  -- the search among the lists does not depend on the fields
  have atEnd : m.lowerBound (⟨id, id, id, fun p _ => p⟩ : Layout P) base = m.endIter →
      ∃ before after, Splits m m.endIter base before after := by
    intro same
    have plain := lower_bound_splits (L := ⟨id, id, id, fun p _ => p⟩) shape ordered base rfl
    rwa [same] at plain
  rw [lowerBoundChecked]
  split
  next none =>
    refine Yields.pure ⟨?_, atEnd ?_⟩
    · rw [lowerBound, if_pos none]
    · rw [lowerBound, if_pos none]
  next occupied =>
    dsimp only
    have bound : m.maxes.findIdx (fun max => decide (base ≤ max)) ≤ m.maxes.length :=
      List.findIdx_le_length
    by_cases last : (if m.maxes[m.maxes.findIdx fun max => decide (base ≤ max)]? = some base then
        m.maxes.findIdx (fun max => decide (base ≤ max)) + 1
      else m.maxes.findIdx fun max => decide (base ≤ max)) = m.maxes.length
    · rw [if_pos last]
      refine Yields.pure ⟨?_, atEnd ?_⟩
      · rw [lowerBound, if_neg occupied]
        exact (if_pos last).symm
      · rw [lowerBound, if_neg occupied]
        exact if_pos last
    · rw [if_neg last]
      refine Yields.require ?_ ?_
      · rw [HasList, ← shape.maxes_length]
        by_cases equal : m.maxes[m.maxes.findIdx fun max => decide (base ≤ max)]? = some base
        · have inside := (List.getElem?_eq_some_iff.mp equal).1
          rw [if_pos equal] at last ⊢
          omega
        · rw [if_neg equal] at last ⊢
          omega
      · refine Yields.require_allowed rfl fun fits => ?_
        exact Yields.pure ⟨rfl, lower_bound_splits shape ordered base fits⟩

/-- What holds between the phases: the extents before the iterator end at or before `b`. -/
structure Stands (load : ℕ) (b : ℤ) (c : Extmap P × Iter) (before after : List (Extent P)) :
    Prop where
  position : At c.1 c.2 before after
  shape : c.1.Shape load
  ordered : Ordered (before ++ after)
  done : ∀ e ∈ before, e.limit ≤ b

theorem cut_left_safe (positive : 0 < load) (order : b ≤ l)
    (start : Stands load b (m, it) before (e :: after)) (reach : b < e.limit) :
    Safe (m.cutLeftChecked load L it b l) fun c =>
      c = ((m.cutLeft load L it b l).map, (m.cutLeft load L it b l).it) ∧
        ∃ before after, Stands load b c before after ∧ ∀ e ∈ after, b ≤ e.base := by
  obtain ⟨position, shape, ordered, done⟩ := start
  have here : m.deref it = some e := position.deref_eq
  obtain ⟨-, tailOrdered, -⟩ := (ordered_append _ _).mp ordered
  obtain ⟨-, -, eBefore⟩ := (ordered_cons _ _).mp tailOrdered
  have doneShort : ∀ short : Extent P, short.limit = b →
      ∀ other ∈ before ++ [short], other.limit ≤ b := by
    intro short ends other member
    rcases List.mem_append.mp member with inBefore | same
    · exact done other inBefore
    · exact (List.mem_singleton.mp same ▸ ends).le
  have later : ∀ other ∈ after, b ≤ other.base := by
    intro other member
    exact reach.le.trans (eBefore other member)
  rw [cutLeftChecked, deref_checked position, ok_bind, cutLeft, here]
  dsimp only
  by_cases left : e.base < b
  · have shortOrdered : ∀ short : Extent P, short.base = e.base → short.limit = b →
        Ordered (before ++ short :: after) := by
      intro short starts ends
      have length : short.limit = short.base + short.len := rfl
      exact ordered_replace ordered (by omega) starts.ge (by omega)
    by_cases bisect : l < e.limit
    · -- `e` reaches beyond both ends: a new extent holds its right part
      simp only [left, bisect, and_self, if_true]
      refine (Layout.extent_safe _ _ _).bind fun new newEq => ?_
      refine (Layout.relimit_safe _).bind fun short shortEq => ?_
      obtain ⟨stored, storedShape⟩ := position.store_fix shape short
      obtain ⟨inserted, insertedShape⟩ :=
        (stored.plus_one storedShape).insert positive storedShape new
      rw [store_checked position, ok_bind, store_fix_checked shape position, ok_bind,
        plus_one_checked stored, ok_bind,
        insert_checked positive storedShape (stored.plus_one storedShape)]
      refine ⟨?_, before ++ [short], new :: after, ⟨inserted, insertedShape, ?_, ?_⟩, ?_⟩
      · rw [← newEq.1, ← shortEq.1]
      · refine ordered_insert (List.append_assoc _ _ _ ▸ shortOrdered short shortEq.2.1 shortEq.2.2)
          (by omega) ?_ ?_
        · intro other member
          rw [newEq.2.1]
          exact (doneShort short shortEq.2.2 other member).trans order
        · intro other member
          have := eBefore other member
          rw [Run.limit, newEq.2.1, newEq.2.2]
          omega
      · exact doneShort short shortEq.2.2
      · intro other member
        rcases List.mem_cons.mp member with rfl | inAfter
        · rw [newEq.2.1]
          exact order
        · exact later other inAfter
    · simp only [left, bisect, and_false, if_false, reach, and_self, if_true]
      refine (Layout.relimit_safe _).bind fun short shortEq => ?_
      obtain ⟨stored, storedShape⟩ := position.store_fix shape short
      rw [store_checked position, ok_bind, store_fix_checked shape position, ok_bind,
        incr_checked stored, ok_bind]
      refine Yields.pure
        ⟨?_, before ++ [short], after, ⟨stored.incr storedShape, storedShape, ?_, ?_⟩, later⟩
      · rw [← shortEq.1]
      · rw [List.append_assoc]
        exact shortOrdered short shortEq.2.1 shortEq.2.2
      · exact doneShort short shortEq.2.2
  · simp only [left, false_and, if_false]
    refine Yields.pure ⟨rfl, before, e :: after, ⟨position, shape, ordered, done⟩, ?_⟩
    intro other member
    rcases List.mem_cons.mp member with rfl | inAfter
    · exact Int.not_lt.mp left
    · exact later other inAfter

theorem erase_covered_safe (large : 2 ≤ load) (fuel : ℕ) {c : Extmap P × Iter}
    (start : Stands load b c before after) (enough : after.length ≤ fuel)
    (starts : ∀ e ∈ after, b ≤ e.base) (del : List (Extent P)) :
    Safe (eraseCoveredChecked load b l fuel c) fun r =>
      r = ((eraseCovered load b l fuel ⟨c.1, c.2, del⟩).map,
        (eraseCovered load b l fuel ⟨c.1, c.2, del⟩).it) ∧
        ∃ after, Stands load b r before after ∧ (∀ e ∈ after, b ≤ e.base) ∧
          ∀ e rest, after = e :: rest → l < e.limit := by
  induction fuel generalizing c after del with
  | zero =>
      have none : after = [] := List.eq_nil_of_length_eq_zero (by omega)
      exact Yields.pure ⟨rfl, after, start, starts, by simp [none]⟩
  | succ fuel ih =>
      rw [eraseCoveredChecked, eraseCovered]
      cases after with
      | nil =>
          have atEnd := start.position.eq_end
          simp only [atEnd, if_true]
          exact Yields.pure ⟨Prod.ext rfl atEnd, [], start, starts, by simp⟩
      | cons e rest =>
          simp only [start.position.ne_end, if_false]
          rw [deref_checked start.position, ok_bind, start.position.deref_eq]
          by_cases ends : e.limit ≤ l
          · obtain ⟨position, shape, ordered, done⟩ := start
            obtain ⟨erased, erasedShape⟩ := position.erase large shape
            simp only [starts e (List.mem_cons_self ..), ends, and_self, if_true]
            rw [erase_checked large shape position, ok_bind]
            refine ih ⟨erased, erasedShape, ?_, done⟩ (by simpa using enough)
              (fun other member => starts other (List.mem_cons_of_mem _ member)) _
            exact ordered.sublist (List.Sublist.append_left (List.sublist_cons_self ..) _)
          · simp only [ends, and_false, if_false]
            refine Yields.pure ⟨rfl, e :: rest, start, starts, ?_⟩
            intro other others same
            rw [← (List.cons.inj same).1]
            omega

theorem cut_right_safe {c : Extmap P × Iter} (start : Stands load b c before after)
    (starts : ∀ e ∈ after, b ≤ e.base) (beyond : ∀ e rest, after = e :: rest → l < e.limit)
    (del : List (Extent P)) :
    Safe (cutRightChecked L l c) fun r =>
      r = ((cutRight L l ⟨c.1, c.2, del⟩).map, (cutRight L l ⟨c.1, c.2, del⟩).it) ∧
        ∃ after, Stands load b r before after ∧ ∀ e ∈ after, l ≤ e.base := by
  rw [cutRightChecked, cutRight]
  cases after with
  | nil =>
      have atEnd := start.position.eq_end
      simp only [atEnd, if_true]
      exact Yields.pure ⟨Prod.ext rfl atEnd, [], start, by simp⟩
  | cons e rest =>
      obtain ⟨position, shape, ordered, done⟩ := start
      obtain ⟨-, tailOrdered, -⟩ := (ordered_append _ _).mp ordered
      obtain ⟨ePositive, -, eBefore⟩ := (ordered_cons _ _).mp tailOrdered
      have reaches := beyond e rest rfl
      have later : ∀ other ∈ rest, l ≤ other.base :=
        fun other member => reaches.le.trans (eBefore other member)
      simp only [position.ne_end, if_false]
      rw [deref_checked position, ok_bind, position.deref_eq]
      by_cases overlap : e.base < l
      · simp only [overlap, if_true]
        refine (Layout.rebase_safe _).bind fun short shortEq => ?_
        obtain ⟨stored, storedShape⟩ := position.store_same_limit shape short shortEq.2.2
        have length : short.limit = short.base + short.len := rfl
        rw [store_checked position, ok_bind]
        refine Yields.pure ⟨?_, short :: rest, ⟨stored, storedShape, ?_, done⟩, ?_⟩
        · rw [← shortEq.1]
        · exact ordered_replace ordered (by omega) (by omega) shortEq.2.2.le
        · intro other member
          rcases List.mem_cons.mp member with rfl | inRest
          · exact shortEq.2.1.ge
          · exact later other inRest
      · simp only [overlap, if_false]
        refine Yields.pure ⟨rfl, e :: rest, ⟨position, shape, ordered, done⟩, ?_⟩
        intro other member
        rcases List.mem_cons.mp member with rfl | inRest
        · exact Int.not_lt.mp overlap
        · exact later other inRest

theorem cut_safe (large : 2 ≤ load) (shape : m.Shape load) (ordered : Ordered m.extents)
    (order : b ≤ l) :
    Safe (m.cutChecked load L b l) fun c =>
      c = ((m.cut load L b l).map, (m.cut load L b l).it) ∧
        ∃ before after, Stands load b c before after ∧ ∀ e ∈ after, l ≤ e.base := by
  rw [cutChecked]
  refine (lower_bound_safe shape ordered b).bind fun it ⟨found, before, after, splits⟩ => ?_
  obtain ⟨position, lower, upper⟩ := splits
  have start : Stands load b (m, it) before after :=
    ⟨position, shape, position.extents_eq ▸ ordered, lower⟩
  rw [cut, ← found]
  dsimp only
  cases after with
  | nil =>
      have atEnd := position.eq_end
      rw [if_pos atEnd, if_pos atEnd]
      exact Yields.pure ⟨rfl, before, [], start, by simp⟩
  | cons e rest =>
      rw [if_neg position.ne_end, if_neg position.ne_end]
      refine (cut_left_safe (by omega) order start (upper e (List.mem_cons_self ..))).bind ?_
      rintro c ⟨rfl, before, after, first, starts⟩
      have enough : after.length ≤ (m.cutLeft load L it b l).map.count := by
        rw [first.shape.count, first.position.extents_eq]
        simp
      refine (erase_covered_safe large _ first enough starts
        (m.cutLeft load L it b l).del).bind ?_
      rintro d ⟨rfl, after, second, starts, beyond⟩
      refine (cut_right_safe second starts beyond (eraseCovered load b l
        (m.cutLeft load L it b l).map.count (m.cutLeft load L it b l)).del).mono ?_
      rintro r ⟨rEq, after, third, right⟩
      exact ⟨rEq, before, after, third, right⟩

/-! ## Putting the new extent in place -/

theorem next_checked (position : At m it before after) :
    m.nextChecked it = .ok after.head? ∧
      (if it = m.endIter then none else m.deref it) = after.head? := by
  rw [nextChecked]
  cases after with
  | nil =>
      rw [if_pos position.eq_end, if_pos position.eq_end]
      exact ⟨rfl, rfl⟩
  | cons e rest =>
      rw [if_neg position.ne_end, if_neg position.ne_end, deref_checked position,
        position.deref_eq]
      exact ⟨rfl, rfl⟩

theorem previous_checked (shape : m.Shape load) (position : At m it before after) :
    m.previousChecked it (m.minusOne it) = .ok before.getLast? ∧
      (if it = beginIter then none else m.deref (m.minusOne it)) = before.getLast? := by
  rw [previousChecked]
  rcases List.eq_nil_or_concat' before with rfl | ⟨front, left, rfl⟩
  · have first := (position.begin_iff shape).mpr rfl
    rw [if_pos first, if_pos first]
    exact ⟨rfl, rfl⟩
  · have notFirst : it ≠ beginIter := by
      intro first
      simpa using (position.begin_iff shape).mp first
    have previous := position.minus_one shape
    rw [if_neg notFirst, if_neg notFirst, deref_checked previous, previous.deref_eq,
      List.getLast?_concat]
    exact ⟨rfl, rfl⟩

structure Fitting (b l : ℤ) (e : Extent P) (before after : List (Extent P)) : Prop where
  base : e.base = b
  limit : e.limit = l
  ordered : Ordered (before ++ e :: after)

theorem insert_safe (large : 2 ≤ load) (start : Stands load b (m, it) before after)
    (fitting : Fitting b l e before after) :
    Safe (m.insertChecked load it e >>= fun r => Pure.pure r.1) fun r =>
      r = (m.insert load it e).1 ∧ r.Shape load ∧ Ordered r.extents := by
  obtain ⟨inserted, insertedShape⟩ := start.position.insert (by omega) start.shape e
  rw [insert_checked (by omega) start.shape start.position, ok_bind]
  refine Yields.pure ⟨rfl, insertedShape, ?_⟩
  rw [inserted.extents_eq]
  exact fitting.ordered

variable [DecidableEq P]

theorem place_right_safe (large : 2 ≤ load) (start : Stands load b (m, it) before after)
    (fitting : Fitting b l e before after) :
    Safe (m.placeRightChecked load L it e b) fun r =>
      r = place.placeRight load L it e b m after.head? ∧ r.Shape load ∧ Ordered r.extents := by
  have inserted := insert_safe large start fitting
  obtain ⟨position, shape, ordered, done⟩ := start
  rw [placeRightChecked, (next_checked position).1, ok_bind]
  cases after with
  | nil => exact inserted
  | cons right rest =>
      rw [List.head?_cons, place.placeRight]
      dsimp only
      by_cases adjacent : L.adjacent e right = true
      · rw [if_pos adjacent, if_pos adjacent]
        refine (Layout.rebase_safe _).bind fun whole wholeEq => ?_
        obtain ⟨stored, storedShape⟩ := position.store_same_limit shape whole wholeEq.2.2
        rw [store_checked position]
        refine ⟨by rw [← wholeEq.1], storedShape, ?_⟩
        rw [stored.extents_eq]
        exact ordered_span fitting.ordered (wholeEq.2.1.trans fitting.base.symm) wholeEq.2.2
      · rw [if_neg adjacent, if_neg adjacent]
        exact inserted

theorem place_safe (large : 2 ≤ load) (start : Stands load b (m, it) before after)
    (fitting : Fitting b l e before after) :
    Safe (m.placeChecked load L it e b l) fun r =>
      r = m.place load L it e b l ∧ r.Shape load ∧ Ordered r.extents := by
  have inserted := insert_safe large start fitting
  have placed := place_right_safe (L := L) large start fitting
  obtain ⟨position, shape, ordered, done⟩ := start
  rw [placeChecked, place, (next_checked position).2]
  by_cases empty : m.count = 0
  · rw [if_pos empty, if_pos empty]
    exact inserted
  · have some : m.lists ≠ [] := by
      intro none
      rw [shape.count, extents, none] at empty
      exact empty rfl
    rw [if_neg empty, if_neg empty, minus_one_checked shape (position.hasList some).1, ok_bind]
    dsimp only
    rw [(previous_checked shape position).1, ok_bind, (previous_checked shape position).2]
    rcases List.eq_nil_or_concat' before with rfl | ⟨front, left, rfl⟩
    · exact placed
    · rw [List.getLast?_concat]
      dsimp only
      by_cases adjacent : L.adjacent left e = true
      · -- merge with the extent before, and perhaps with the one after
        rw [if_pos adjacent, if_pos adjacent]
        refine (Layout.relimit_safe _).bind fun whole wholeEq => ?_
        have previous := position.minus_one shape
        obtain ⟨stored, storedShape⟩ := position.store_prev shape whole
        rw [store_checked previous, ok_bind, store_fix_checked shape previous, ok_bind,
          (next_checked position).1, ok_bind, ← wholeEq.1]
        have middle : Ordered (front ++ whole :: after) := by
          have parts : Ordered (front ++ left :: e :: after) := by simpa using fitting.ordered
          exact ordered_span parts wholeEq.2.1 (wholeEq.2.2.trans fitting.limit.symm)
        have kept : Ordered
            ((m.store (m.minusOne it) whole).fixMax (m.minusOne it).i).extents := by
          rw [stored.extents_eq, List.append_assoc]
          exact middle
        cases after with
        | nil => exact Yields.pure ⟨rfl, storedShape, kept⟩
        | cons right rest =>
            rw [List.head?_cons]
            dsimp only
            by_cases closes : L.adjacent whole right = true
            · rw [if_pos closes, if_pos closes]
              refine (Layout.relimit_safe _).bind fun all allEq => ?_
              have prevStored := (previous.store_fix shape whole).1
              have again := stored.store_prev storedShape all
              rw [minus_one_store m it whole] at again
              obtain ⟨erased, erasedShape⟩ := again.1.erase large again.2
              rw [store_checked prevStored, ok_bind, store_fix_checked storedShape prevStored,
                ok_bind, erase_checked large again.2 again.1, ok_bind, ← allEq.1]
              refine Yields.pure ⟨rfl, erasedShape, ?_⟩
              rw [erased.extents_eq, List.append_assoc]
              exact ordered_span middle allEq.2.1 allEq.2.2
            · rw [if_neg closes, if_neg closes]
              exact Yields.pure ⟨rfl, storedShape, kept⟩
      · rw [if_neg adjacent, if_neg adjacent]
        exact placed

/-! ## The whole operations -/

omit [DecidableEq P] in
theorem first_shape (positive : 0 < load) (shape : m.Shape load) (none : m.maxes.length = 0)
    (e : Extent P) : (m.first e).Shape load ∧ (m.first e).extents = [e] := by
  have noLists : m.lists = [] :=
    List.eq_nil_of_length_eq_zero (shape.maxes_length ▸ none)
  have position : At m ⟨0, 0⟩ [] [] := Or.inl ⟨noLists, rfl, rfl, rfl⟩
  have empty : m.count = 0 := by
    rw [shape.count, position.extents_eq]
    rfl
  obtain ⟨inserted, insertedShape⟩ := position.insert positive shape e
  have same : m.insert load ⟨0, 0⟩ e = (m.first e, beginIter) := by rw [insert, if_pos empty]
  rw [same] at inserted insertedShape
  exact ⟨insertedShape, inserted.extents_eq⟩

theorem update_safe (large : 2 ≤ load) (shape : m.Shape load) (ordered : Ordered m.extents)
    (order : b < l) (ptr : P) :
    Safe (m.updateChecked load L b l ptr) fun r =>
      r = (m.update load L b l ptr).1 ∧ r.Shape load ∧ Ordered r.extents := by
  rw [updateChecked, update]
  refine (Layout.extent_safe _ _ _).bind fun e eEq => ?_
  obtain ⟨same, base, len⟩ := eEq
  have limit : e.limit = l := by
    rw [Run.limit, base, len]
    ring
  rw [← same]
  by_cases none : m.maxes.length = 0
  · rw [if_pos none, if_pos none]
    obtain ⟨firstShape, firstExtents⟩ := first_shape (by omega) shape none e
    refine Yields.pure ⟨rfl, firstShape, ?_⟩
    rw [firstExtents, ordered_singleton]
    omega
  · rw [if_neg none, if_neg none]
    refine (cut_safe large shape ordered order.le).bind ?_
    rintro c ⟨rfl, before, after, stands, right⟩
    refine place_safe large stands ⟨base, limit, ?_⟩
    refine ordered_insert stands.ordered (by omega) ?_ ?_
    · intro other member
      rw [base]
      exact stands.done other member
    · intro other member
      rw [limit]
      exact right other member

omit [DecidableEq P] in
theorem trim_safe (large : 2 ≤ load) (shape : m.Shape load) (ordered : Ordered m.extents)
    (order : b ≤ l) :
    Safe (m.trimChecked load L b l) fun r =>
      r = (m.trim load L b l).1 ∧ r.Shape load ∧ Ordered r.extents := by
  rw [trimChecked, trim]
  by_cases some : 0 < m.count
  · rw [if_pos some, if_pos some]
    refine (cut_safe large shape ordered order).bind ?_
    rintro c ⟨rfl, before, after, stands, -⟩
    refine Yields.pure ⟨rfl, stands.shape, ?_⟩
    rw [stands.position.extents_eq]
    exact stands.ordered
  · rw [if_neg some, if_neg some]
    exact Yields.pure ⟨rfl, shape, ordered⟩

end Extmap

/-! ## Sequences of calls -/

inductive Call (P : Type)
  | update (base limit : ℤ) (ptr : P)
  | trim (base limit : ℤ)
  | reset

namespace Call

def WellFormed : Call P → Prop
  | update b l _ => b < l
  | trim b l => b ≤ l
  | reset => True

instance (call : Call P) : Decidable call.WellFormed :=
  match call with
  | update _ _ _ => inferInstanceAs (Decidable (_ < _))
  | trim _ _ => inferInstanceAs (Decidable (_ ≤ _))
  | reset => .isTrue trivial

variable [DecidableEq P] (L : Layout P)

def apply (m : Extmap P) : Call P → Extmap P
  | update b l ptr => (m.update 256 L b l ptr).1
  | trim b l => (m.trim 256 L b l).1
  | reset => .empty

def applyChecked (m : Extmap P) : Call P → Checked (Extmap P)
  | update b l ptr => m.updateChecked 256 L b l ptr
  | trim b l => m.trimChecked 256 L b l
  | reset => .ok .empty

variable {L}

theorem apply_safe {m : Extmap P} (shape : m.Shape 256) (ordered : Ordered m.extents)
    {call : Call P} (wellFormed : call.WellFormed) :
    Safe (call.applyChecked L m) fun r =>
      r = call.apply L m ∧ r.Shape 256 ∧ Ordered r.extents := by
  cases call with
  | update b l ptr => exact Extmap.update_safe (by decide) shape ordered wellFormed ptr
  | trim b l => exact Extmap.trim_safe (by decide) shape ordered wellFormed
  | reset => exact ⟨rfl, Extmap.empty_shape 256, Ordered.nil⟩

theorem run_safe {m : Extmap P} (shape : m.Shape 256) (ordered : Ordered m.extents)
    (calls : List (Call P)) (wellFormed : ∀ call ∈ calls, call.WellFormed) :
    Safe (calls.foldlM (applyChecked L) m) fun r =>
      r = calls.foldl (apply L) m ∧ r.Shape 256 ∧ Ordered r.extents := by
  induction calls generalizing m with
  | nil => exact Yields.pure ⟨rfl, shape, ordered⟩
  | cons call calls ih =>
      refine (apply_safe shape ordered (wellFormed call (List.mem_cons_self ..))).bind ?_
      rintro next ⟨rfl, nextShape, nextOrdered⟩
      exact ih nextShape nextOrdered fun other member =>
        wellFormed other (List.mem_cons_of_mem _ member)

end Call

/-- The map keeps its shape through every sequence of calls and makes no access out of
range; `_erase` returns an iterator to the extent after the erased one, and iterators of a
well-shaped map can be moved both ways. -/
theorem extmap_keeps_shape [DecidableEq P] (L : Layout P) :
    (∀ calls : List (Call P), (∀ call ∈ calls, call.WellFormed) →
      calls.foldlM (Call.applyChecked L) Extmap.empty ≠ .error .range ∧
      ∀ m, calls.foldlM (Call.applyChecked L) Extmap.empty = .ok m →
        m = calls.foldl (Call.apply L) Extmap.empty ∧ m.Shape 256 ∧ Ordered m.extents) ∧
    (∀ (m : Extmap P) (it : Iter) (before after : List (Extent P)) (e : Extent P),
      m.Shape 256 → m.At it before (e :: after) →
      ∃ m' it', m.eraseChecked 256 it = .ok (m', it') ∧ m'.Shape 256 ∧
        m'.extents = before ++ after ∧ m'.deref it' = after.head? ∧
        (after = [] → it' = m'.endIter)) ∧
    ∀ (m : Extmap P) (it : Iter) (before after : List (Extent P)),
      m.Shape 256 → m.At it before after →
      (after ≠ [] → m.incrChecked it = .ok (m.incr it) ∧
        m.plusOneChecked it = .ok (m.plusOne it)) ∧
      (m.lists ≠ [] → m.decrChecked it = .ok (m.decr it) ∧
        m.minusOneChecked it = .ok (m.minusOne it)) := by
  refine ⟨?_, ?_, ?_⟩
  · intro calls wellFormed
    have safe := Call.run_safe (L := L) (Extmap.empty_shape 256) Ordered.nil calls wellFormed
    cases result : calls.foldlM (Call.applyChecked L) Extmap.empty with
    | ok m =>
        rw [result] at safe
        exact ⟨nofun, fun r same => Except.ok.inj same ▸ safe⟩
    | error fault =>
        rw [result] at safe
        obtain rfl : fault = .field := safe
        exact ⟨nofun, nofun⟩
  · intro m it before after e shape position
    obtain ⟨erased, erasedShape⟩ := position.erase (by decide) shape
    refine ⟨(m.erase 256 it).1, (m.erase 256 it).2,
      Extmap.erase_checked (by decide) shape position, erasedShape, erased.extents_eq, ?_, ?_⟩
    · cases after with
      | nil =>
          rw [erased.eq_end]
          exact Extmap.deref_end _
      | cons next rest => exact erased.deref_eq
    · rintro rfl
      exact erased.eq_end
  · intro m it before after shape position
    constructor
    · intro some
      obtain ⟨e, rest, rfl⟩ := List.exists_cons_of_ne_nil some
      exact ⟨Extmap.incr_checked position, Extmap.plus_one_checked position⟩
    · intro some
      have inside := (position.hasList some).1
      exact ⟨Extmap.decr_checked shape inside, Extmap.minus_one_checked shape inside⟩

def overlapping : List (Call ObjOffset) :=
  [.update 0 8 ⟨1, 8⟩, .reset, .update 0 8 ⟨1, 8⟩, .update 2 4 ⟨2, 8⟩, .trim 1 5, .trim 6 6]

theorem extmap_keeps_shape_overlapping :
    ∃ m, overlapping.foldlM (Call.applyChecked Layout.lba2obj) Extmap.empty = .ok m ∧
      m.Shape 256 ∧ Ordered m.extents := by
  have returns : (overlapping.foldlM (Call.applyChecked Layout.lba2obj)
      Extmap.empty).isOk = true := by
    decide +kernel
  have safe := (extmap_keeps_shape Layout.lba2obj).1 overlapping (by decide)
  cases result : overlapping.foldlM (Call.applyChecked Layout.lba2obj) Extmap.empty with
  | ok m =>
      obtain ⟨-, shape, ordered⟩ := safe.2 m result
      exact ⟨m, rfl, shape, ordered⟩
  | error fault =>
      rw [result] at returns
      cases returns

end LsvdRbd.ExtentMap
