import LsvdRbd.ExtentMap.Map

/-!
# Iterators as positions in the flattened map

`At m it before after` says that the iterator `it` stands between the extents
`before` and `after` of the flattened map. Every primitive of `extent.h` moves
or edits at such a position, whatever the division into lists; `Shape` is what
the rebalancing keeps true of that division.
-/

namespace LsvdRbd.ExtentMap

open RunList

set_option autoImplicit false

variable {P : Type*}

section Positions

variable {α : Type*}

private theorem insert_idx_middle (left right : List α) (x : α) :
    (left ++ right).insertIdx left.length x = left ++ x :: right := by
  induction left with
  | nil => simp
  | cons head tail ih => simp [List.insertIdx_succ_cons, ih]

private theorem insert_idx_after (left right : List α) (x y : α) :
    (left ++ x :: right).insertIdx (left.length + 1) y = left ++ x :: y :: right := by
  have := insert_idx_middle (left ++ [x]) right y
  simpa using this

private theorem erase_idx_middle (left right : List α) (x : α) :
    (left ++ x :: right).eraseIdx left.length = left ++ right := by
  rw [List.eraseIdx_append_of_length_le (Nat.le_refl _)]
  simp

private theorem erase_idx_after (left right : List α) (x y : α) :
    (left ++ x :: y :: right).eraseIdx (left.length + 1) = left ++ x :: right := by
  have := erase_idx_middle (left ++ [x]) right y
  simpa using this

end Positions

namespace Extmap

/-- The division into lists that `_insert` and `_erase` maintain. -/
structure Shape (load : ℕ) (m : Extmap P) : Prop where
  nonempty : ∀ list ∈ m.lists, list ≠ []
  maxes : m.maxes = m.lists.map backLimit
  count : m.count = m.extents.length
  upper : ∀ list ∈ m.lists, list.length < load * 2
  lower : 1 < m.lists.length → ∀ list ∈ m.lists, load / 2 < list.length

theorem empty_shape (load : ℕ) : (empty : Extmap P).Shape load where
  nonempty := by simp [empty]
  maxes := by simp [empty]
  count := by simp [empty, extents]
  upper := by simp [empty]
  lower := by simp [empty]

/-- The iterator stands just before `after`. At the end of a list it stands in
the last list, as `end()` does. -/
def At (m : Extmap P) (it : Iter) (before after : List (Extent P)) : Prop :=
  (m.lists = [] ∧ it = ⟨0, 0⟩ ∧ before = [] ∧ after = []) ∨
  ∃ lists front back rest, m.lists = lists ++ (front ++ back) :: rest ∧
    it = ⟨lists.length, front.length⟩ ∧ before = lists.flatten ++ front ∧
    after = back ++ rest.flatten ∧ (back = [] → rest = [])

variable {load : ℕ} {m : Extmap P} {it : Iter} {before after : List (Extent P)}
  {e : Extent P}

theorem list_at_middle (lists rest : List (List (Extent P))) (list : List (Extent P))
    (split : m.lists = lists ++ list :: rest) : m.listAt lists.length = list := by
  simp [listAt, split]

theorem At.occupied (position : At m it before (e :: after)) :
    ∃ lists front tail rest, m.lists = lists ++ (front ++ e :: tail) :: rest ∧
      it = ⟨lists.length, front.length⟩ ∧ before = lists.flatten ++ front ∧
      after = tail ++ rest.flatten ∧ m.listAt lists.length = front ++ e :: tail := by
  rcases position with ⟨-, -, -, absurd⟩ | ⟨lists, front, back, rest, split, place, left, found, tight⟩
  · cases absurd
  · cases back with
    | nil => simp [tight rfl] at found
    | cons head tail =>
        obtain ⟨rfl, rest_eq⟩ := List.cons.inj found
        exact ⟨lists, front, tail, rest, split, place, left, rest_eq,
          list_at_middle lists rest _ split⟩

theorem At.extents_eq (position : At m it before after) :
    m.extents = before ++ after := by
  rcases position with ⟨none, -, rfl, rfl⟩ | ⟨lists, front, back, rest, split, -, rfl, rfl, -⟩
  · simp [extents, none]
  · simp [extents, split]

theorem at_end (m : Extmap P) : At m m.endIter m.extents [] := by
  rcases List.eq_nil_or_concat m.lists with none | ⟨lists, list, split⟩
  · exact Or.inl ⟨none, by simp [endIter, none], by simp [extents, none], rfl⟩
  · refine Or.inr ⟨lists, list, [], [], by simpa using split, ?_, ?_, by simp, by simp⟩
    · have last : m.listAt lists.length = list :=
        list_at_middle lists [] list (by simpa using split)
      have total : m.lists.length = lists.length + 1 := by simp [split]
      simp [endIter, total, last]
    · simp [extents, split]

theorem At.eq_end (position : At m it before []) : it = m.endIter := by
  rcases position with ⟨none, rfl, -, -⟩ | ⟨lists, front, back, rest, split, rfl, -, ended, tight⟩
  · simp [endIter, none]
  · obtain ⟨rfl, -⟩ := List.append_eq_nil_iff.mp ended.symm
    obtain rfl := tight rfl
    have total : m.lists.length = lists.length + 1 := by simp [split]
    have last : m.listAt lists.length = front :=
      list_at_middle lists [] front (by simpa using split)
    simp [endIter, total, last]

theorem At.ne_end (position : At m it before (e :: after)) : it ≠ m.endIter := by
  obtain ⟨lists, front, tail, rest, split, rfl, -, -, here⟩ := position.occupied
  intro atEnd
  have total : m.lists.length = lists.length + rest.length + 1 := by
    simp [split]
    omega
  have indices := congrArg Iter.i atEnd
  have positions := congrArg Iter.j atEnd
  have noMore : rest = [] := by
    rw [endIter, if_neg (by omega)] at indices
    apply List.eq_nil_of_length_eq_zero
    simp at indices
    omega
  subst noMore
  rw [endIter, if_neg (by omega), total] at positions
  simp [here] at positions

theorem At.deref_eq (position : At m it before (e :: after)) : m.deref it = some e := by
  obtain ⟨lists, front, tail, rest, split, rfl, -, -, here⟩ := position.occupied
  simp [deref, here]

theorem deref_end (m : Extmap P) : m.deref m.endIter = none := by
  unfold deref endIter
  split
  · next none => simp [listAt, List.eq_nil_of_length_eq_zero none]
  · simp

theorem At.begin_iff (shape : m.Shape load) (position : At m it before after) :
    it = beginIter ↔ before = [] := by
  rcases position with ⟨-, rfl, rfl, -⟩ | ⟨lists, front, back, rest, split, rfl, rfl, -, -⟩
  · simp [beginIter]
  · constructor
    · intro atBegin
      have noLists : lists = [] := List.eq_nil_of_length_eq_zero (congrArg Iter.i atBegin)
      have noFront : front = [] := List.eq_nil_of_length_eq_zero (congrArg Iter.j atBegin)
      simp [noLists, noFront]
    · intro nothing
      obtain ⟨noLists, rfl⟩ := List.append_eq_nil_iff.mp nothing
      cases lists with
      | nil => rfl
      | cons head tail =>
          have occupied := shape.nonempty head (by simp [split])
          simp at noLists
          exact absurd noLists.1 occupied

/-! ## Moving -/

theorem At.incr (shape : m.Shape load) (position : At m it before (e :: after)) :
    At m (m.incr it) (before ++ [e]) after := by
  obtain ⟨lists, front, tail, rest, split, rfl, rfl, rfl, here⟩ := position.occupied
  cases tail with
  | nil =>
      cases rest with
      | nil =>
          refine Or.inr ⟨lists, front ++ [e], [], [], by simpa using split, ?_, ?_, ?_, ?_⟩
          · simp [Extmap.incr, here, split]
          all_goals simp
      | cons next rest =>
          have occupied : next ≠ [] := shape.nonempty next (by simp [split])
          refine Or.inr ⟨lists ++ [front ++ [e]], [], next, rest, ?_, ?_, ?_, ?_, ?_⟩
          · simp [split]
          · simp [Extmap.incr, here, split]
          · simp
          · simp
          · exact fun none => absurd none occupied
  | cons second tail =>
      refine Or.inr ⟨lists, front ++ [e], second :: tail, rest, ?_, ?_, ?_, ?_, ?_⟩
      · simp [split]
      · simp [Extmap.incr, here]
      all_goals simp

theorem At.plus_one (shape : m.Shape load) (position : At m it before (e :: after)) :
    At m (m.plusOne it) (before ++ [e]) after := by
  have moved := position.incr shape
  obtain ⟨lists, front, tail, rest, split, rfl, -, -, -⟩ := position.occupied
  have total : m.lists.length = lists.length + rest.length + 1 := by
    simp [split]
    omega
  by_cases last : front.length + 1 = (m.listAt lists.length).length
  · by_cases final : lists.length + 1 = m.lists.length
    · -- `it + 1` answers `end()` here and `it++` stays in the list: the same position
      have same : m.plusOne ⟨lists.length, front.length⟩ =
          m.incr ⟨lists.length, front.length⟩ := by
        simp only [plusOne, Extmap.incr, last, final, if_true]
        rw [if_neg (by omega), endIter, if_neg (by omega), ← final]
        simp
      rw [same]
      exact moved
    · have same : m.plusOne ⟨lists.length, front.length⟩ =
          m.incr ⟨lists.length, front.length⟩ := by
        simp only [plusOne, Extmap.incr, last, final, if_true, if_false]
        rw [if_pos (by omega)]
      rw [same]
      exact moved
  · have same : m.plusOne ⟨lists.length, front.length⟩ =
        m.incr ⟨lists.length, front.length⟩ := by
      simp only [plusOne, Extmap.incr, last, if_false]
    rw [same]
    exact moved

/-- The extent before the iterator is the one before it in its list, or the last of the list
before. -/
theorem At.preceded (shape : m.Shape load) (position : At m it (before ++ [e]) after) :
    ∃ lists list back rest, m.lists = lists ++ (list ++ e :: back) :: rest ∧
      before = lists.flatten ++ list ∧ after = back ++ rest.flatten ∧
      m.minusOne it = ⟨lists.length, list.length⟩ ∧
      (it = ⟨lists.length, list.length + 1⟩ ∧ (back = [] → rest = []) ∨
        it = ⟨lists.length + 1, 0⟩ ∧ back = [] ∧
          ∃ next others, rest = next :: others ∧ (next = [] → others = [])) := by
  rcases position with ⟨-, -, absurd, -⟩ | ⟨lists, front, back, rest, split, rfl, found, rfl, tight⟩
  · simp at absurd
  rcases List.eq_nil_or_concat' front with rfl | ⟨front, last, rfl⟩
  · rcases List.eq_nil_or_concat' lists with rfl | ⟨lists, list, rfl⟩
    · simp at found
    obtain ⟨list, last, rfl⟩ := (List.eq_nil_or_concat' list).resolve_left
      (shape.nonempty list (by simp [split]))
    have ends : before ++ [e] = (lists.flatten ++ list) ++ [last] := by simpa using found
    obtain ⟨rfl, rfl⟩ := List.append_singleton_inj.mp ends
    have here : m.listAt lists.length = list ++ [e] :=
      list_at_middle lists (back :: rest) _ (by simpa using split)
    refine ⟨lists, list, [], back :: rest, by simpa using split, rfl, rfl, ?_, .inr ⟨?_, rfl, ?_⟩⟩
    · simp [minusOne, here]
    · simp
    · exact ⟨back, rest, rfl, tight⟩
  · have ends : before ++ [e] = (lists.flatten ++ front) ++ [last] := by simpa using found
    obtain ⟨rfl, rfl⟩ := List.append_singleton_inj.mp ends
    refine ⟨lists, front, back, rest, by simpa using split, rfl, rfl, ?_, .inl ⟨?_, tight⟩⟩
    · simp [minusOne]
    · simp

theorem At.minus_one (shape : m.Shape load) (position : At m it (before ++ [e]) after) :
    At m (m.minusOne it) before (e :: after) := by
  obtain ⟨lists, list, back, rest, split, rfl, rfl, previous, -⟩ := position.preceded shape
  exact Or.inr ⟨lists, list, e :: back, rest, split, previous, rfl, rfl, by simp⟩

/-! ## Editing in place -/

theorem back_limit_append (list : List (Extent P)) {back : List (Extent P)}
    (occupied : back ≠ []) : backLimit (list ++ back) = backLimit back := by
  simp [backLimit, List.getLast?_append, List.getLast?_eq_some_getLast occupied]

theorem At.store_fix (shape : m.Shape load) (position : At m it before (e :: after))
    (new : Extent P) :
    At ((m.store it new).fixMax it.i) it before (new :: after) ∧
      ((m.store it new).fixMax it.i).Shape load := by
  obtain ⟨lists, front, tail, rest, split, rfl, rfl, rfl, here⟩ := position.occupied
  have stored : (m.store ⟨lists.length, front.length⟩ new).lists =
      lists ++ (front ++ new :: tail) :: rest := by
    simp [store, here, split]
  have fixed : ((m.store ⟨lists.length, front.length⟩ new).fixMax lists.length).lists =
      lists ++ (front ++ new :: tail) :: rest := by
    simpa [fixMax] using stored
  refine ⟨Or.inr ⟨lists, front, new :: tail, rest, fixed, rfl, rfl, rfl, by simp⟩, ?_⟩
  have sizes : ∀ size : ℕ → Prop, (∀ list ∈ m.lists, size list.length) →
      ∀ list ∈ lists ++ (front ++ new :: tail) :: rest, size list.length := by
    intro size all list member
    simp only [List.mem_append, List.mem_cons] at member
    rcases member with inLists | rfl | inRest
    · exact all list (by simp [split, inLists])
    · have := all (front ++ e :: tail) (by simp [split])
      simpa using this
    · exact all list (by simp [split, inRest])
  constructor
  · intro list member
    rw [fixed] at member
    have := sizes (fun n => n ≠ 0) (fun l inside => by
      simpa using shape.nonempty l inside) list member
    simpa using this
  · rw [fixed]
    have at_new : (m.store ⟨lists.length, front.length⟩ new).listAt lists.length =
        front ++ new :: tail := list_at_middle lists rest _ stored
    have written : ((m.store ⟨lists.length, front.length⟩ new).fixMax lists.length).maxes =
        m.maxes.set lists.length (backLimit
          ((m.store ⟨lists.length, front.length⟩ new).listAt lists.length)) := rfl
    rw [written, at_new, shape.maxes, split]
    simp
  · have := shape.count
    simp [fixMax, store, this, extents, here, split]
  · rw [fixed]
    exact sizes (fun n => n < load * 2) shape.upper
  · intro several
    rw [fixed] at several ⊢
    apply sizes (fun n => load / 2 < n)
    apply shape.lower
    simpa [split] using several

theorem minus_one_store (m : Extmap P) (it : Iter) (new : Extent P) :
    ((m.store (m.minusOne it) new).fixMax (m.minusOne it).i).minusOne it = m.minusOne it := by
  have lengths : ∀ (k : Iter) (i : ℕ), ((m.store k new).listAt i).length = (m.listAt i).length := by
    intro k i
    simp only [store, listAt, List.getD_eq_getElem?_getD, List.getElem?_set]
    split
    · next same =>
        subst same
        split
        · next inside => simp
        · next outside => simp [List.getElem?_eq_none (Nat.le_of_not_lt outside)]
    · rfl
  have same : ∀ k i, ((m.store k new).fixMax k.i).listAt i = (m.store k new).listAt i :=
    fun _ _ => rfl
  unfold minusOne
  simp only [same, lengths]

theorem At.store_prev (shape : m.Shape load) (position : At m it (before ++ [e]) after)
    (new : Extent P) :
    At ((m.store (m.minusOne it) new).fixMax (m.minusOne it).i) it (before ++ [new]) after ∧
      ((m.store (m.minusOne it) new).fixMax (m.minusOne it).i).Shape load := by
  refine ⟨?_, ((position.minus_one shape).store_fix shape new).2⟩
  obtain ⟨lists, list, back, rest, split, rfl, rfl, previous, place⟩ := position.preceded shape
  have here := list_at_middle lists rest _ split
  have stored : ((m.store ⟨lists.length, list.length⟩ new).fixMax lists.length).lists =
      lists ++ (list ++ new :: back) :: rest := by
    simp [fixMax, store, here, split]
  rw [previous]
  rcases place with ⟨rfl, tight⟩ | ⟨rfl, rfl, next, others, rfl, tight⟩
  · exact Or.inr ⟨lists, list ++ [new], back, rest, by simp [stored], by simp, by simp, rfl, tight⟩
  · exact Or.inr ⟨lists ++ [list ++ [new]], [], next, others, by simp [stored], by simp, by simp,
      by simp, tight⟩

theorem At.store_same_limit (shape : m.Shape load) (position : At m it before (e :: after))
    (new : Extent P) (limit : new.limit = e.limit) :
    At (m.store it new) it before (new :: after) ∧ (m.store it new).Shape load := by
  have fixed := position.store_fix shape new
  suffices same : (m.store it new).fixMax it.i = m.store it new by
    rwa [same] at fixed
  obtain ⟨lists, front, tail, rest, split, rfl, rfl, rfl, here⟩ := position.occupied
  have stored : (m.store ⟨lists.length, front.length⟩ new).lists =
      lists ++ (front ++ new :: tail) :: rest := by
    simp [store, here, split]
  have at_new : (m.store ⟨lists.length, front.length⟩ new).listAt lists.length =
      front ++ new :: tail := list_at_middle lists rest _ stored
  have limits : backLimit (front ++ new :: tail) = backLimit (front ++ e :: tail) := by
    rw [back_limit_append _ (by simp), back_limit_append _ (by simp)]
    cases tail with
    | nil => simp [backLimit, limit]
    | cons next tail => simp [backLimit]
  have unchanged : m.maxes.set lists.length (backLimit (front ++ new :: tail)) = m.maxes := by
    rw [limits, shape.maxes, split]
    simp
  simp only [fixMax, at_new]
  exact congrArg (fun maxes => Extmap.mk _ maxes _) unchanged

/-! ## Inserting and erasing -/

/-- `At` without the rule that an iterator past the end of a list has moved on
to the next one; `_erase` stands at such a place before it normalizes. -/
def Near (m : Extmap P) (it : Iter) (before after : List (Extent P)) : Prop :=
  ∃ lists front back rest, m.lists = lists ++ (front ++ back) :: rest ∧
    it = ⟨lists.length, front.length⟩ ∧ before = lists.flatten ++ front ∧
    after = back ++ rest.flatten

theorem Near.normalize (shape : m.Shape load) (position : Near m it before after) :
    At m (m.normalize it) before after := by
  obtain ⟨lists, front, back, rest, split, rfl, rfl, rfl⟩ := position
  have here : m.listAt lists.length = front ++ back := list_at_middle lists rest _ split
  have total : m.lists.length = lists.length + rest.length + 1 := by
    simp [split]
    omega
  cases back with
  | nil =>
      cases rest with
      | nil =>
          refine Or.inr ⟨lists, front, [], [], by simpa using split, ?_, rfl, rfl, by simp⟩
          simp [Extmap.normalize, total]
      | cons next rest =>
          have occupied : next ≠ [] := shape.nonempty next (by simp [split])
          refine Or.inr ⟨lists ++ [front], [], next, rest, ?_, ?_, ?_, ?_, ?_⟩
          · simpa using split
          · simp [Extmap.normalize, here, total]
          · simp
          · simp
          · exact fun none => absurd none occupied
  | cons head tail =>
      refine Or.inr ⟨lists, front, head :: tail, rest, split, ?_, rfl, rfl, by simp⟩
      simp [Extmap.normalize, here]

/-- `_expand` restores the upper bound on one list that has grown, and keeps
the position. -/
theorem expand_near (lists rest : List (List (Extent P))) (front back : List (Extent P))
    (positive : 0 < load)
    (split : m.lists = lists ++ (front ++ back) :: rest)
    (occupied : ∀ list ∈ m.lists, list ≠ [])
    (maxes : m.maxes = m.lists.map backLimit)
    (count : m.count = m.extents.length)
    (others : ∀ list ∈ lists ++ rest, list.length < load * 2)
    (grown : (front ++ back).length < load * 3)
    (lower : 1 < m.lists.length → ∀ list ∈ m.lists, load / 2 < list.length) :
    let r := m.expand load ⟨lists.length, front.length⟩
    Near r.1 r.2 (lists.flatten ++ front) (back ++ rest.flatten) ∧
      (back ≠ [] → At r.1 r.2 (lists.flatten ++ front) (back ++ rest.flatten)) ∧
      r.1.Shape load := by
  have here : m.listAt lists.length = front ++ back := list_at_middle lists rest _ split
  by_cases large : load * 2 ≤ (front ++ back).length
  · set whole := front ++ back with wholeEq
    have splitLists : (m.lists.set lists.length (whole.take load)).insertIdx (lists.length + 1)
        (whole.drop load) = lists ++ whole.take load :: whole.drop load :: rest := by
      rw [split]
      simp [insert_idx_after]
    have splitMaxes : (m.maxes.set lists.length (backLimit (whole.take load))).insertIdx
        (lists.length + 1) (backLimit (whole.drop load)) =
          (lists ++ whole.take load :: whole.drop load :: rest).map backLimit := by
      have := insert_idx_after (lists.map backLimit) (rest.map backLimit)
        (backLimit (whole.take load)) (backLimit (whole.drop load))
      rw [maxes, split]
      simpa using this
    have result : m.expand load ⟨lists.length, front.length⟩ =
        (⟨lists ++ whole.take load :: whole.drop load :: rest,
          (lists ++ whole.take load :: whole.drop load :: rest).map backLimit, m.count⟩,
          if load ≤ front.length then ⟨lists.length + 1, front.length - load⟩
          else ⟨lists.length, front.length⟩) := by
      simp only [expand, here, if_pos large, splitLists, splitMaxes]
    have takenLength : (whole.take load).length = load := by
      simp
      omega
    have droppedLength : (whole.drop load).length = whole.length - load := by simp
    have half : load / 2 < load := Nat.div_lt_self positive (by decide)
    rw [result]
    have position : ∃ lists' front' back' rest',
        lists ++ whole.take load :: whole.drop load :: rest = lists' ++ (front' ++ back') :: rest' ∧
        (if load ≤ front.length then (⟨lists.length + 1, front.length - load⟩ : Iter)
          else ⟨lists.length, front.length⟩) = ⟨lists'.length, front'.length⟩ ∧
        lists.flatten ++ front = lists'.flatten ++ front' ∧
        back ++ rest.flatten = back' ++ rest'.flatten ∧ (back ≠ [] → back' ≠ []) := by
      by_cases beyond : load ≤ front.length
      · refine ⟨lists ++ [whole.take load], front.drop load, back, rest, ?_, ?_, ?_, rfl, id⟩
        · simp [wholeEq, List.drop_append_of_le_length beyond]
        · simp [beyond]
        · simp [wholeEq, List.take_append_of_le_length beyond]
      · refine ⟨lists, front, back.take (load - front.length),
          back.drop (load - front.length) :: rest, ?_, ?_, rfl, ?_, ?_⟩
        · have short : front.length ≤ load := by omega
          simp [wholeEq, List.take_append, List.drop_append, List.take_of_length_le short,
            List.drop_eq_nil_of_le short]
        · simp [beyond]
        · simp only [List.flatten_cons]
          rw [← List.append_assoc, List.take_append_drop]
        · intro some
          simp [some]
          omega
    obtain ⟨lists', front', back', rest', parts, iter, beforeEq, afterEq, kept⟩ := position
    refine ⟨⟨lists', front', back', rest', parts, iter, beforeEq, afterEq⟩, ?_, ?_, rfl, ?_, ?_, ?_⟩
    · intro some
      exact Or.inr ⟨lists', front', back', rest', parts, iter, beforeEq, afterEq,
        fun none => absurd none (kept some)⟩
    · intro list member
      simp only [List.mem_append, List.mem_cons] at member
      rcases member with inLists | rfl | rfl | inRest
      · exact occupied list (by simp [split, inLists])
      · exact List.ne_nil_of_length_pos (by omega)
      · exact List.ne_nil_of_length_pos (by omega)
      · exact occupied list (by simp [split, inRest])
    · rw [count]
      simp [extents, split]
      omega
    · intro list member
      simp only [List.mem_append, List.mem_cons] at member
      rcases member with inLists | rfl | rfl | inRest
      · exact others list (by simp [inLists])
      · omega
      · omega
      · exact others list (by simp [inRest])
    · intro _ list member
      simp only [List.mem_append, List.mem_cons] at member
      -- a neighbour exists only if there were several lists before the split
      rcases member with inLists | rfl | rfl | inRest
      · have several : 1 < m.lists.length := by
          have := List.length_pos_of_mem inLists
          simp [split]
          omega
        exact lower several list (by simp [split, inLists])
      · omega
      · omega
      · have several : 1 < m.lists.length := by
          have := List.length_pos_of_mem inRest
          simp [split]
          omega
        exact lower several list (by simp [split, inRest])
  · have same : m.expand load ⟨lists.length, front.length⟩ =
        (m, ⟨lists.length, front.length⟩) := by
      simp only [expand, here]
      rw [if_neg large]
    rw [same]
    refine ⟨⟨lists, front, back, rest, split, rfl, rfl, rfl⟩, ?_, occupied, maxes, count, ?_, lower⟩
    · intro some
      exact Or.inr ⟨lists, front, back, rest, split, rfl, rfl, rfl,
        fun none => absurd none some⟩
    intro list member
    simp only [split, List.mem_append, List.mem_cons] at member
    rcases member with inLists | rfl | inRest
    · exact others list (by simp [inLists])
    · omega
    · exact others list (by simp [inRest])

theorem At.insert (positive : 0 < load) (shape : m.Shape load) (position : At m it before after)
    (new : Extent P) :
    At (m.insert load it new).1 (m.insert load it new).2 before (new :: after) ∧
      (m.insert load it new).1.Shape load := by
  rcases position with ⟨none, rfl, rfl, rfl⟩ | ⟨lists, front, back, rest, split, rfl, rfl, rfl, tight⟩
  · have empty : m.count = 0 := by simp [shape.count, extents, none]
    have noMaxes : m.maxes = [] := by simp [shape.maxes, none]
    have result : m.insert load ⟨0, 0⟩ new = (⟨[[new]], [new.limit], 1⟩, ⟨0, 0⟩) := by
      simp [Extmap.insert, empty, first, none, noMaxes, beginIter]
    rw [result]
    refine ⟨Or.inr ⟨[], [], [new], [], rfl, rfl, rfl, rfl, by simp⟩, ?_⟩
    constructor <;> simp [backLimit, extents]
    omega
  · have here : m.listAt lists.length = front ++ back := list_at_middle lists rest _ split
    have occupied : front ++ back ≠ [] := shape.nonempty _ (by simp [split])
    have some : m.count ≠ 0 := by
      rw [shape.count]
      simp only [extents, split, List.flatten_append, List.flatten_cons]
      intro zero
      apply occupied
      simp at zero ⊢
      exact ⟨zero.2.1, zero.2.2.1⟩
    have inserted : (front ++ back).insertIdx front.length new = front ++ new :: back :=
      insert_idx_middle front back new
    set grown : Extmap P := ⟨lists ++ (front ++ new :: back) :: rest,
      (lists ++ (front ++ new :: back) :: rest).map backLimit, m.count + 1⟩ with grownEq
    have result : m.insert load ⟨lists.length, front.length⟩ new =
        grown.expand load ⟨lists.length, front.length⟩ := by
      simp only [Extmap.insert, if_neg some, here, inserted]
      congr 2
      · simp [split]
      · simp [shape.maxes, split]
    rw [result]
    have listed : ∀ list ∈ grown.lists,
        list ∈ lists ∨ list = front ++ new :: back ∨ list ∈ rest := by
      intro list member
      simpa [grownEq] using member
    have expanded := expand_near (m := grown) lists rest front (new :: back)
      positive rfl
    obtain ⟨-, there, shaped⟩ := expanded (by
        intro list member
        rcases listed list member with inLists | rfl | inRest
        · exact shape.nonempty list (by simp [split, inLists])
        · simp
        · exact shape.nonempty list (by simp [split, inRest]))
      rfl
      (by
        have := shape.count
        simp [grownEq, extents, split] at this ⊢
        omega)
      (by
        intro list member
        rcases List.mem_append.mp member with inLists | inRest
        · exact shape.upper list (by simp [split, inLists])
        · exact shape.upper list (by simp [split, inRest]))
      (by
        have := shape.upper (front ++ back) (by simp [split])
        simp at this ⊢
        omega)
      (by
        intro several list member
        have several : 1 < m.lists.length := by simpa [grownEq, split] using several
        rcases listed list member with inLists | rfl | inRest
        · exact shape.lower several list (by simp [split, inLists])
        · have := shape.lower several (front ++ back) (by simp [split])
          simp at this ⊢
          omega
        · exact shape.lower several list (by simp [split, inRest]))
    exact ⟨there (by simp), shaped⟩

/-- Dropping an entry leaves a map whose only possibly short list is the one
it was in. A list that becomes empty was the only one, by the lower bound. -/
theorem drop_entry_lists (large : 2 ≤ load) (shape : m.Shape load)
    (lists rest : List (List (Extent P))) (front tail : List (Extent P))
    (split : m.lists = lists ++ (front ++ e :: tail) :: rest) :
    let d := m.dropEntry ⟨lists.length, front.length⟩
    (d.lists = [] ∧ lists = [] ∧ front = [] ∧ tail = [] ∧ rest = [] ∧ d.maxes = [] ∧ d.count = 0) ∨
    (front ++ tail ≠ [] ∧ d.lists = lists ++ (front ++ tail) :: rest ∧
      d.maxes = d.lists.map backLimit ∧ d.count = d.extents.length) := by
  have here : m.listAt lists.length = front ++ e :: tail := list_at_middle lists rest _ split
  have erased : (front ++ e :: tail).eraseIdx front.length = front ++ tail :=
    erase_idx_middle front tail e
  have total := shape.count
  by_cases none : front ++ tail = []
  · obtain ⟨rfl, rfl⟩ := List.append_eq_nil_iff.mp none
    have single : ¬1 < m.lists.length := by
      intro several
      have := shape.lower several ([] ++ [e]) (by simp [split])
      simp at this
      omega
    have alone : lists = [] ∧ rest = [] := by
      simp [split] at single
      constructor
      · apply List.eq_nil_of_length_eq_zero
        omega
      · apply List.eq_nil_of_length_eq_zero
        omega
    obtain ⟨rfl, rfl⟩ := alone
    left
    simp [dropEntry, listAt, split, shape.maxes, total, extents]
  · right
    have positive : 0 < (front ++ tail).length := List.length_pos_iff.mpr none
    have result : m.dropEntry ⟨lists.length, front.length⟩ =
        ⟨lists ++ (front ++ tail) :: rest, (lists ++ (front ++ tail) :: rest).map backLimit,
          m.count - 1⟩ := by
      simp only [dropEntry, here, erased, if_pos positive]
      congr 1
      · simp [split]
      · simp [shape.maxes, split]
    rw [result]
    refine ⟨none, rfl, rfl, ?_⟩
    simp [extents, split] at total ⊢
    omega

/-- The merge of a short list with its neighbour in `_erase`, followed by the
split of the result if it has become too long. -/
theorem join_at (positive : 0 < load) (lists rest : List (List (Extent P)))
    (left right front back : List (Extent P))
    (split : m.lists = lists ++ left :: right :: rest)
    (position : left ++ right = front ++ back)
    (maxes : m.maxes = m.lists.map backLimit)
    (count : m.count = m.extents.length)
    (bounds : ∀ list ∈ lists ++ rest, load / 2 < list.length ∧ list.length < load * 2)
    (joined : load / 2 < (left ++ right).length) (grown : (left ++ right).length < load * 3) :
    let r := (m.joinLists lists.length (lists.length + 1)).expand load
      ⟨lists.length, front.length⟩
    At r.1 (r.1.normalize r.2) (lists.flatten ++ front) (back ++ rest.flatten) ∧
      r.1.Shape load := by
  have atLeft : m.listAt lists.length = left := list_at_middle lists (right :: rest) _ split
  have atRight : m.listAt (lists.length + 1) = right := by
    have := list_at_middle (m := m) (lists ++ [left]) rest right (by simpa using split)
    simpa using this
  have result : m.joinLists lists.length (lists.length + 1) =
      ⟨lists ++ (front ++ back) :: rest, (lists ++ (front ++ back) :: rest).map backLimit,
        m.count⟩ := by
    simp only [joinLists, atLeft, atRight, position]
    congr 1
    · rw [split]
      simp [erase_idx_after]
    · rw [maxes, split]
      have := erase_idx_after (lists.map backLimit) (rest.map backLimit)
        (backLimit (front ++ back)) (backLimit right)
      simpa using this
  rw [result]
  have member : ∀ list ∈ lists ++ (front ++ back) :: rest,
      list ∈ lists ++ rest ∨ list = front ++ back := by
    intro list inside
    simp only [List.mem_append, List.mem_cons] at inside ⊢
    tauto
  obtain ⟨near, -, shaped⟩ := expand_near
    (m := ⟨lists ++ (front ++ back) :: rest, (lists ++ (front ++ back) :: rest).map backLimit,
      m.count⟩) lists rest front back positive rfl
    (by
      intro list inside
      rcases member list inside with outside | rfl
      · apply List.ne_nil_of_length_pos
        have := (bounds list outside).1
        omega
      · apply List.ne_nil_of_length_pos
        rw [← position]
        omega)
    rfl
    (by
      have parts := congrArg List.length position
      simp [extents, split] at count parts ⊢
      omega)
    (fun list outside => (bounds list outside).2)
    (by rw [← position]; exact grown)
    (by
      intro _ list inside
      rcases member list inside with outside | rfl
      · exact (bounds list outside).1
      · rw [← position]
        exact joined)
  exact ⟨near.normalize shaped, shaped⟩

theorem At.erase (large : 2 ≤ load) (shape : m.Shape load)
    (position : At m it before (e :: after)) :
    At (m.erase load it).1 (m.erase load it).2 before after ∧
      (m.erase load it).1.Shape load := by
  obtain ⟨lists, front, tail, rest, split, rfl, rfl, rfl, -⟩ := position.occupied
  rcases drop_entry_lists large shape lists rest front tail split with
    ⟨none, rfl, rfl, rfl, rfl, noMaxes, noCount⟩ | ⟨some, dropped, maxes, count⟩
  · have result : m.erase load ⟨0, 0⟩ = (m.dropEntry ⟨0, 0⟩, (m.dropEntry ⟨0, 0⟩).endIter) := by
      have zero : (m.dropEntry ⟨0, 0⟩).lists.length = 0 := by
        simpa using congrArg List.length none
      simp only [Extmap.erase, zero, if_true]
    have none : (m.dropEntry ⟨0, 0⟩).lists = [] := none
    have noMaxes : (m.dropEntry ⟨0, 0⟩).maxes = [] := noMaxes
    have noCount : (m.dropEntry ⟨0, 0⟩).count = 0 := noCount
    simp only [List.length_nil] at *
    rw [result]
    refine ⟨Or.inl ⟨none, by simp [endIter, none], rfl, rfl⟩, ?_⟩
    constructor <;> simp [none, noMaxes, noCount, extents]
  · set d := m.dropEntry ⟨lists.length, front.length⟩ with dEq
    have listsLength : d.lists.length = m.lists.length := by simp [dropped, split]
    have someLists : d.lists.length ≠ 0 := by simp [dropped]
    have here : d.listAt lists.length = front ++ tail := list_at_middle lists rest _ dropped
    have old : ∀ list ∈ lists ++ rest, list ∈ m.lists := by
      intro list member
      rcases List.mem_append.mp member with inLists | inRest
      · simp [split, inLists]
      · simp [split, inRest]
    have short : (front ++ tail).length + 1 < load * 2 := by
      have := shape.upper (front ++ e :: tail) (by simp [split])
      simp at this ⊢
      omega
    have wide : 1 < m.lists.length → load / 2 ≤ (front ++ tail).length := by
      intro several
      have := shape.lower several (front ++ e :: tail) (by simp [split])
      simp at this ⊢
      omega
    have near : Near d ⟨lists.length, front.length⟩ (lists.flatten ++ front)
        (tail ++ rest.flatten) := ⟨lists, front, tail, rest, dropped, rfl, rfl, rfl⟩
    have occupied : ∀ list ∈ d.lists, list ≠ [] := by
      intro list member
      simp only [dropped, List.mem_append, List.mem_cons] at member
      rcases member with inLists | rfl | inRest
      · exact shape.nonempty list (old list (by simp [inLists]))
      · exact some
      · exact shape.nonempty list (old list (by simp [inRest]))
    have upper : ∀ list ∈ d.lists, list.length < load * 2 := by
      intro list member
      simp only [dropped, List.mem_append, List.mem_cons] at member
      rcases member with inLists | rfl | inRest
      · exact shape.upper list (old list (by simp [inLists]))
      · omega
      · exact shape.upper list (old list (by simp [inRest]))
    by_cases enough : load / 2 < (front ++ tail).length
    · have shaped : d.Shape load := by
        refine ⟨occupied, maxes, count, upper, ?_⟩
        intro several list member
        rw [listsLength] at several
        simp only [dropped, List.mem_append, List.mem_cons] at member
        rcases member with inLists | rfl | inRest
        · exact shape.lower several list (old list (by simp [inLists]))
        · exact enough
        · exact shape.lower several list (old list (by simp [inRest]))
      have result : m.erase load ⟨lists.length, front.length⟩ =
          (d, d.normalize ⟨lists.length, front.length⟩) := by
        simp only [Extmap.erase, ← dEq, if_neg someLists, here, if_pos enough]
      rw [result]
      exact ⟨near.normalize shaped, shaped⟩
    · by_cases several : 1 < d.lists.length
      · rw [listsLength] at several
        have neighbours : ∀ list ∈ lists ++ rest,
            load / 2 < list.length ∧ list.length < load * 2 := fun list member =>
          ⟨shape.lower several list (old list member), shape.upper list (old list member)⟩
        have least := wide several
        have several' : 1 < d.lists.length := by rw [listsLength]; exact several
        rcases List.eq_nil_or_concat lists with rfl | ⟨lists, previous, rfl⟩
        · -- the first list: it takes in the second one
          cases rest with
          | nil => simp [dropped] at several'
          | cons next rest =>
              have bounds := neighbours next (by simp)
              have result : m.erase load ⟨([] : List (List (Extent P))).length, front.length⟩ =
                  let r := (d.joinLists 0 (0 + 1)).expand load ⟨0, front.length⟩
                  (r.1, r.1.normalize r.2) := by
                simp only [Extmap.erase, ← dEq, if_neg someLists, here, if_neg enough,
                  if_pos several']
                simp
              rw [result]
              have joined := join_at (m := d) (show 0 < load by omega) [] rest (front ++ tail)
                next front (tail ++ next) (by simpa using dropped) (by simp) maxes
                count (fun list member => neighbours list (by
                  simp only [List.nil_append] at member ⊢
                  exact List.mem_cons_of_mem _ member))
                (by simp at least ⊢; omega) (by simp at enough ⊢; omega)
              simpa using joined
        · have bounds := neighbours previous (by simp)
          have atPrevious : d.listAt lists.length = previous :=
            list_at_middle lists ((front ++ tail) :: rest) _ (by simpa using dropped)
          have result : m.erase load ⟨(lists.concat previous).length, front.length⟩ =
              let r := (d.joinLists lists.length (lists.length + 1)).expand load
                ⟨lists.length, (previous ++ front).length⟩
              (r.1, r.1.normalize r.2) := by
            simp only [Extmap.erase, ← dEq, if_neg someLists, here, if_neg enough,
              if_pos several']
            simp [atPrevious, Nat.add_comm]
          rw [result]
          have joined := join_at (m := d) (show 0 < load by omega) lists rest previous
            (front ++ tail) (previous ++ front) tail (by simpa using dropped) (by simp)
            maxes count (fun list member => neighbours list (by
              simp only [List.concat_eq_append, List.mem_append] at member ⊢
              tauto))
            (by simp at least ⊢; omega) (by simp at enough ⊢; omega)
          simpa using joined
      · have alone : lists = [] ∧ rest = [] := by
          simp [dropped] at several
          constructor
          · apply List.eq_nil_of_length_eq_zero
            omega
          · apply List.eq_nil_of_length_eq_zero
            omega
        have shaped : d.Shape load :=
          ⟨occupied, maxes, count, upper, fun more => absurd more several⟩
        obtain ⟨rfl, rfl⟩ := alone
        have nonzero : 0 < (front ++ tail).length := List.length_pos_iff.mpr some
        have same : d.fixMax ([] : List (List (Extent P))).length = d := by
          have unchanged : d.maxes.set 0 (backLimit (front ++ tail)) = d.maxes := by
            rw [maxes, dropped]
            simp
          simp only [fixMax, here]
          exact congrArg (fun maxes => Extmap.mk d.lists maxes d.count) unchanged
        have result : m.erase load ⟨([] : List (List (Extent P))).length, front.length⟩ =
            (d, d.normalize ⟨([] : List (List (Extent P))).length, front.length⟩) := by
          simp only [Extmap.erase, ← dEq, if_neg someLists, here, if_neg enough,
            if_neg several, if_pos nonzero, same]
        rw [result]
        exact ⟨near.normalize shaped, shaped⟩

end Extmap

end LsvdRbd.ExtentMap
