import LsvdRbd.ExtentMap.Objmap

/-!
# Where the extents of a map come from

No operation invents an extent: every extent of the result, and every extent that is
displaced, is an old extent or the one given, or was made of one of them by the
record's constructor, `relimit` or `rebase`. This holds of any map, also of one whose
fields have overflowed. In particular no operation invents a pointer.
-/

namespace LsvdRbd.ExtentMap

open RunList

set_option autoImplicit false

variable {P : Type*}

/-- A property that an extent hands on to everything the map code makes of it. -/
structure Layout.Makes (L : Layout P) (Q : Extent P → Prop) : Prop where
  head : ∀ e base len, Q e → Q (L.extent base len e.ptr)
  tail : ∀ e base len n, Q e → Q (L.extent base len (L.add e.ptr n))
  relimit : ∀ e limit, Q e → Q (L.relimit e limit)
  rebase : ∀ e base, Q e → Q (L.rebase e base)

namespace Extmap

def Every (Q : Extent P → Prop) (m : Extmap P) : Prop := ∀ list ∈ m.lists, ∀ e ∈ list, Q e

namespace Every

variable {Q : Extent P → Prop} {m : Extmap P}

theorem extents (every : m.Every Q) : ∀ e ∈ m.extents, Q e := by
  intro e member
  obtain ⟨list, inMap, inList⟩ := List.mem_flatten.mp member
  exact every list inMap e inList

theorem listAt (every : m.Every Q) (i : ℕ) : ∀ e ∈ m.listAt i, Q e := by
  intro e member
  unfold Extmap.listAt at member
  rw [List.getD_eq_getElem?_getD] at member
  cases found : m.lists[i]? with
  | none => simp [found] at member
  | some list =>
      rw [found] at member
      exact every list (List.mem_of_getElem? found) e member

variable {e : Extent P}

theorem deref (every : m.Every Q) {it : Iter} (found : m.deref it = some e) :
    Q e :=
  every.listAt it.i e (List.mem_of_getElem? found)

/-! ## Lists that are replaced -/

theorem setList (every : m.Every Q) {i : ℕ} {list : List (Extent P)}
    (new : ∀ e ∈ list, Q e) (maxes : List ℤ) (count : ℕ) :
    Every Q ⟨m.lists.set i list, maxes, count⟩ := by
  intro other member
  rcases List.mem_or_eq_of_mem_set member with old | rfl
  · exact every other old
  · exact new

theorem eraseIdx (every : m.Every Q) (i : ℕ) (maxes : List ℤ) (count : ℕ) :
    Every Q ⟨m.lists.eraseIdx i, maxes, count⟩ :=
  fun list member => every list (List.mem_of_mem_eraseIdx member)

theorem insertIdx (every : m.Every Q) {i : ℕ} {list : List (Extent P)}
    (new : ∀ e ∈ list, Q e) (maxes : List ℤ) (count : ℕ) :
    Every Q ⟨m.lists.insertIdx i list, maxes, count⟩ := by
  intro other member
  rcases List.eq_or_mem_of_mem_insertIdx member with rfl | old
  · exact new
  · exact every other old

theorem store (every : m.Every Q) (it : Iter) (new : Q e) :
    (m.store it e).Every Q := by
  apply every.setList
  intro other member
  rcases List.mem_or_eq_of_mem_set member with old | rfl
  · exact every.listAt it.i other old
  · exact new

theorem fixMax (every : m.Every Q) (i : ℕ) : (m.fixMax i).Every Q := every

theorem first (every : m.Every Q) (new : Q e) :
    (m.first e).Every Q := by
  intro list member
  rcases List.mem_append.mp member with old | added
  · exact every list old
  · rw [List.mem_singleton.mp added]
    simpa using new

/-! ## Rebalancing -/

section Rebalancing

variable (load : ℕ)

theorem expand (every : m.Every Q) (it : Iter) : (m.expand load it).1.Every Q := by
  unfold Extmap.expand
  dsimp only
  split
  · have front : Every Q ⟨m.lists.set it.i ((m.listAt it.i).take load), m.maxes, m.count⟩ :=
      every.setList (fun e member => every.listAt it.i e (List.mem_of_mem_take member)) _ _
    exact front.insertIdx
      (fun e member => every.listAt it.i e (List.mem_of_mem_drop member)) _ _
  · exact every

theorem insert (every : m.Every Q) (it : Iter) (new : Q e) :
    (m.insert load it e).1.Every Q := by
  unfold Extmap.insert
  dsimp only
  split
  · exact every.first new
  · apply expand
    apply every.setList
    intro other member
    rcases List.eq_or_mem_of_mem_insertIdx member with rfl | old
    · exact new
    · exact every.listAt it.i other old

theorem dropEntry (every : m.Every Q) (it : Iter) : (m.dropEntry it).Every Q := by
  unfold Extmap.dropEntry
  dsimp only
  split
  · apply every.setList
    intro e member
    exact every.listAt it.i e (List.mem_of_mem_eraseIdx member)
  · exact every.eraseIdx _ _ _

theorem joinLists (every : m.Every Q) (prev pos : ℕ) :
    (m.joinLists prev pos).Every Q := by
  have joined : Every Q ⟨m.lists.set prev (m.listAt prev ++ m.listAt pos), m.maxes, m.count⟩ := by
    apply every.setList
    intro e member
    rcases List.mem_append.mp member with left | right
    · exact every.listAt prev e left
    · exact every.listAt pos e right
  exact joined.eraseIdx _ _ _

theorem erase (every : m.Every Q) (it : Iter) : (m.erase load it).1.Every Q := by
  have dropped := every.dropEntry it
  unfold Extmap.erase
  dsimp only
  split
  · exact dropped
  · split
    · exact dropped
    · split
      · exact (dropped.joinLists _ _).expand load _
      · split
        · exact dropped.fixMax _
        · exact dropped

end Rebalancing

/-! ## Updates -/

section Operations

variable {load : ℕ} {L : Layout P}

def Cutting (Q : Extent P → Prop) (c : Cut P) : Prop := c.map.Every Q ∧ ∀ d ∈ c.del, Q d

theorem cutLeft (every : m.Every Q) (makes : L.Makes Q) (it : Iter) (base limit : ℤ) :
    Cutting Q (m.cutLeft load L it base limit) := by
  unfold Extmap.cutLeft
  split
  · exact ⟨every, by simp⟩
  · next e found =>
      have old : Q e := every.deref found
      have shortened := (every.store it (makes.relimit e base old)).fixMax it.i
      split
      · exact ⟨shortened.insert load _ (makes.tail e _ _ _ old),
          by simpa using makes.tail e _ _ _ old⟩
      · split
        · exact ⟨shortened, by simpa using makes.tail e _ _ _ old⟩
        · exact ⟨every, by simp⟩

theorem eraseCovered {base limit : ℤ} (fuel : ℕ) {c : Cut P} (cutting : Cutting Q c) :
    Cutting Q (Extmap.eraseCovered load base limit fuel c) := by
  induction fuel generalizing c with
  | zero => exact cutting
  | succ fuel ih =>
      obtain ⟨every, displaced⟩ := cutting
      unfold Extmap.eraseCovered
      split
      · exact ⟨every, displaced⟩
      · split
        · exact ⟨every, displaced⟩
        · next e found =>
            split
            · apply ih
              refine ⟨every.erase load _, ?_⟩
              intro d member
              rcases List.mem_append.mp member with old | new
              · exact displaced d old
              · rw [List.mem_singleton.mp new]
                exact every.deref found
            · exact ⟨every, displaced⟩

theorem cutRight (makes : L.Makes Q) (limit : ℤ) {c : Cut P} (cutting : Cutting Q c) :
    Cutting Q (Extmap.cutRight L limit c) := by
  obtain ⟨every, displaced⟩ := cutting
  unfold Extmap.cutRight
  split
  · exact ⟨every, displaced⟩
  · split
    · exact ⟨every, displaced⟩
    · next e found =>
        have old : Q e := every.deref found
        split
        · refine ⟨every.store _ (makes.rebase e _ old), ?_⟩
          intro d member
          rcases List.mem_append.mp member with before | new
          · exact displaced d before
          · rw [List.mem_singleton.mp new]
            exact makes.head e _ _ old
        · exact ⟨every, displaced⟩

theorem cut (every : m.Every Q) (makes : L.Makes Q) (base limit : ℤ) :
    Cutting Q (m.cut load L base limit) := by
  unfold Extmap.cut
  dsimp only
  split
  · exact ⟨every, by simp⟩
  · exact cutRight makes limit (eraseCovered _ (every.cutLeft makes _ base limit))

theorem trim (every : m.Every Q) (makes : L.Makes Q) (base limit : ℤ) :
    (m.trim load L base limit).1.Every Q ∧ ∀ d ∈ (m.trim load L base limit).2, Q d := by
  unfold Extmap.trim
  split
  · exact every.cut makes base limit
  · exact ⟨every, by simp⟩

variable [DecidableEq P]

theorem placeRight (every : m.Every Q) (makes : L.Makes Q) (it : Iter) (new : Q e) (base : ℤ)
    {next : Option (Extent P)} (old : ∀ right, next = some right → Q right) :
    (Extmap.place.placeRight load L it e base m next).Every Q := by
  unfold Extmap.place.placeRight
  split
  · next right =>
      split
      · exact every.store it (makes.rebase right _ (old right rfl))
      · exact every.insert load it new
  · exact every.insert load it new

theorem place (every : m.Every Q) (makes : L.Makes Q) (it : Iter) (new : Q e) (base limit : ℤ) :
    (m.place load L it e base limit).Every Q := by
  have following : ∀ right, (if it = m.endIter then none else m.deref it) = some right →
      Q right := by
    intro right found
    split at found
    · cases found
    · exact every.deref found
  unfold Extmap.place
  dsimp only
  split
  · exact every.insert load it new
  · split
    · next left found =>
        have leftOld : Q left := by
          split at found
          · cases found
          · exact every.deref found
        split
        · have longer := makes.relimit left limit leftOld
          have joined := (every.store (m.minusOne it) longer).fixMax (m.minusOne it).i
          split
          · next right _ =>
              split
              · have both := joined.store (m.minusOne it) (makes.relimit _ right.limit longer)
                exact (both.fixMax _).erase load it
              · exact joined
          · exact joined
        · exact every.placeRight makes it new base following
    · exact every.placeRight makes it new base following

theorem update (every : m.Every Q) (makes : L.Makes Q) (base limit : ℤ) {ptr : P}
    (new : Q (L.extent base (limit - base) ptr)) :
    (m.update load L base limit ptr).1.Every Q ∧
      ∀ d ∈ (m.update load L base limit ptr).2, Q d := by
  unfold Extmap.update
  dsimp only
  split
  · exact ⟨every.first new, by simp⟩
  · have cutting := @cut P Q m load L every makes base limit
    exact ⟨cutting.1.place makes _ new base limit, cutting.2⟩

end Operations

end Every

end Extmap

/-! ## Pointers -/

section Pointers

variable {Q : P → Prop}

/-- A property of pointers that the stores and the additions of a layout keep. -/
structure Layout.Keeps (L : Layout P) (Q : P → Prop) : Prop where
  ptr : ∀ p, Q p → Q (L.ptr p)
  add : ∀ p n, Q p → Q (L.add p n)

theorem Layout.Keeps.makes {L : Layout P} (keeps : L.Keeps Q) : L.Makes fun e => Q e.ptr where
  head e _ _ old := keeps.ptr e.ptr old
  tail e _ _ n old := keeps.ptr _ (keeps.add e.ptr n old)
  relimit _ _ old := old
  rebase e _ old := keeps.add e.ptr _ old

namespace Extmap

def Pointing (Q : P → Prop) (m : Extmap P) : Prop := ∀ list ∈ m.lists, ∀ e ∈ list, Q e.ptr

namespace Pointing

variable {m : Extmap P}

theorem every (pointing : m.Pointing Q) : m.Every fun e => Q e.ptr := pointing

theorem extents (pointing : m.Pointing Q) : ∀ e ∈ m.extents, Q e.ptr := pointing.every.extents

variable [Stored P]

theorem set [DecidableEq P] (pointing : m.Pointing Q) (keeps : (Stored.layout : Layout P).Keeps Q)
    (base limit : ℤ) {ptr : P} (new : Q ptr) :
    (m.set base limit ptr).1.Pointing Q ∧ ∀ d ∈ (m.set base limit ptr).2, Q d.ptr :=
  pointing.every.update keeps.makes base limit (keeps.ptr ptr new)

theorem unset (pointing : m.Pointing Q) (keeps : (Stored.layout : Layout P).Keeps Q)
    (base limit : ℤ) :
    (m.unset base limit).1.Pointing Q ∧ ∀ d ∈ (m.unset base limit).2, Q d.ptr :=
  pointing.every.trim keeps.makes base limit

end Pointing

end Extmap

end Pointers

end LsvdRbd.ExtentMap
