import LsvdRbd.ExtentMap.Map
import LsvdRbd.Lib.Guarded

/-!
# The extent map with its accesses checked

The functions of the extent map once more, with a check before every access: that the
index of a list, of `maxes` or of an entry is in range, that `back()` is taken of a list
that is not empty, and that a base or a length fits the bit-field it is stored in.
-/

namespace LsvdRbd.ExtentMap

open RunList Guarded

set_option autoImplicit false

variable {P : Type}

/-- What can go wrong: an access out of range, which C++ leaves undefined, or a bit-field
that does not hold the value stored in it. -/
inductive MapFault
  | range
  | field
deriving DecidableEq

abbrev Checked := Except MapFault

def storeField (field : ℤ → ℤ) (value : ℤ) : Checked ℤ := do
  require .field (field value = value)
  return field value

namespace Layout

variable (L : Layout P)

def extentChecked (base len : ℤ) (ptr : P) : Checked (Extent P) := do
  let base ← storeField L.base base
  let len ← storeField L.len len
  return ⟨base, len, L.ptr ptr⟩

def relimitChecked (e : Extent P) (limit : ℤ) : Checked (Extent P) := do
  let len ← storeField L.len (limit - e.base)
  return { e with len := len }

def rebaseChecked (e : Extent P) (base : ℤ) : Checked (Extent P) := do
  let newBase ← storeField L.base base
  let len ← storeField L.len (e.len - (base - e.base))
  return ⟨newBase, len, L.add e.ptr (base - e.base)⟩

end Layout

namespace Extmap

/-! ## Iterators -/

def HasList (m : Extmap P) (i : ℕ) : Prop := i < m.lists.length

def HasEntry (m : Extmap P) (it : Iter) : Prop :=
  m.HasList it.i ∧ it.j < (m.listAt it.i).length

instance (m : Extmap P) (i : ℕ) : Decidable (m.HasList i) := inferInstanceAs (Decidable (_ < _))

instance (m : Extmap P) (it : Iter) : Decidable (m.HasEntry it) :=
  inferInstanceAs (Decidable (_ ∧ _))

def derefChecked (m : Extmap P) (it : Iter) : Checked (Extent P) :=
  match m.deref it with
  | some e => .ok e
  | none => .error .range

def incrChecked (m : Extmap P) (it : Iter) : Checked Iter := do
  require .range (m.HasEntry it)
  return m.incr it

def plusOneChecked (m : Extmap P) (it : Iter) : Checked Iter := do
  require .range (m.HasEntry it)
  return m.plusOne it

/-- `it - 1`; the last entry of the list before is taken at the start of a list. -/
def minusOneChecked (m : Extmap P) (it : Iter) : Checked Iter := do
  require .range (m.HasList it.i)
  require .range (it.j = 0 ∧ 0 < it.i → 0 < (m.listAt (it.i - 1)).length)
  return m.minusOne it

def decr (m : Extmap P) (it : Iter) : Iter :=
  if it.j = 0 then
    if 0 < it.i then ⟨it.i - 1, (m.listAt (it.i - 1)).length - 1⟩ else it
  else ⟨it.i, it.j - 1⟩

def decrChecked (m : Extmap P) (it : Iter) : Checked Iter := do
  require .range (m.HasList it.i)
  require .range (it.j = 0 ∧ 0 < it.i → 0 < (m.listAt (it.i - 1)).length)
  return m.decr it

def storeChecked (m : Extmap P) (it : Iter) (e : Extent P) : Checked (Extmap P) := do
  require .range (m.HasEntry it)
  return m.store it e

def fixMaxChecked (m : Extmap P) (i : ℕ) : Checked (Extmap P) := do
  require .range (m.HasList i ∧ i < m.maxes.length ∧ 0 < (m.listAt i).length)
  return m.fixMax i

/-! ## Rebalancing -/

section Rebalancing

variable (load : ℕ)

def expandChecked (m : Extmap P) (it : Iter) : Checked (Extmap P × Iter) := do
  require .range (m.HasList it.i)
  let list := m.listAt it.i
  if load * 2 ≤ list.length then
    -- `_slice` leaves `load` entries, and both halves are asked for their last one
    require .range (0 < (list.take load).length ∧ 0 < (list.drop load).length)
    require .range (it.i < m.maxes.length)
    let r := m.expand load it
    -- the iterator is set again in the list it is in now
    require .range (r.1.HasList r.2.i ∧ r.2.j ≤ (r.1.listAt r.2.i).length)
    return r
  else
    return (m, it)

def insertChecked (m : Extmap P) (it : Iter) (e : Extent P) : Checked (Extmap P × Iter) := do
  if m.count = 0 then
    return (m.first e, beginIter)
  else
    require .range (m.HasList it.i ∧ it.j ≤ (m.listAt it.i).length)
    require .range (it.i < m.maxes.length)
    let list := (m.listAt it.i).insertIdx it.j e
    expandChecked load
      ⟨m.lists.set it.i list, m.maxes.set it.i (backLimit list), m.count + 1⟩ it

/-- The last part of `_erase`. -/
def normalizeChecked (m : Extmap P) (it : Iter) : Checked Iter := do
  require .range (m.HasList it.i)
  let r := m.normalize it
  require .range (m.HasList r.i)
  return r

def eraseChecked (m : Extmap P) (it : Iter) : Checked (Extmap P × Iter) := do
  require .range (m.HasEntry it)
  require .range (it.i < m.maxes.length)
  let m := m.dropEntry it
  if m.lists.length = 0 then
    return (m, m.endIter)
  else
    -- `lists[it.i]` is read again, also after the list was removed
    require .range (m.HasList it.i)
    if load / 2 < (m.listAt it.i).length then
      return (m, ← m.normalizeChecked it)
    else if 1 < m.lists.length then
      let pos := if 0 < it.i then it.i else it.i + 1
      let prev := pos - 1
      require .range (m.HasList pos ∧ m.HasList prev)
      require .range (pos < m.maxes.length ∧ 0 < (m.listAt prev ++ m.listAt pos).length)
      let j := if pos = it.i then it.j + (m.listAt prev).length else it.j
      let r ← expandChecked load (m.joinLists prev pos) ⟨prev, j⟩
      return (r.1, ← r.1.normalizeChecked r.2)
    else if 0 < (m.listAt it.i).length then
      let m ← m.fixMaxChecked it.i
      return (m, ← m.normalizeChecked it)
    else
      return (m, ← m.normalizeChecked it)

end Rebalancing

/-! ## Operations -/

section Operations

variable (load : ℕ) (L : Layout P)

def lowerBoundChecked (m : Extmap P) (base : ℤ) : Checked Iter := do
  if m.lists.length = 0 then
    return m.endIter
  else
    let k := m.maxes.findIdx fun max => decide (base ≤ max)
    let i := if m.maxes[k]? = some base then k + 1 else k
    if i = m.maxes.length then
      return m.endIter
    else
      require .range (m.HasList i)
      -- the key is an extent of its own
      require .field (L.base base = base)
      return m.lowerBound L base

def cutLeftChecked (m : Extmap P) (it : Iter) (base limit : ℤ) : Checked (Extmap P × Iter) := do
  let e ← m.derefChecked it
  if e.base < base ∧ limit < e.limit then
    let new ← L.extentChecked limit (e.limit - limit) (L.add e.ptr (limit - e.base))
    let short ← L.relimitChecked e base
    let m ← m.storeChecked it short
    let m ← m.fixMaxChecked it.i
    let next ← m.plusOneChecked it
    m.insertChecked load next new
  else if e.base < base ∧ base < e.limit then
    let short ← L.relimitChecked e base
    let m ← m.storeChecked it short
    let m ← m.fixMaxChecked it.i
    return (m, ← m.incrChecked it)
  else
    return (m, it)

def eraseCoveredChecked (base limit : ℤ) : ℕ → Extmap P × Iter → Checked (Extmap P × Iter)
  | 0, c => return c
  | fuel + 1, c => do
      if c.2 = c.1.endIter then
        return c
      else
        let e ← c.1.derefChecked c.2
        if base ≤ e.base ∧ e.limit ≤ limit then
          let r ← c.1.eraseChecked load c.2
          eraseCoveredChecked base limit fuel r
        else
          return c

def cutRightChecked (limit : ℤ) (c : Extmap P × Iter) : Checked (Extmap P × Iter) := do
  if c.2 = c.1.endIter then
    return c
  else
    let e ← c.1.derefChecked c.2
    if e.base < limit then
      let short ← L.rebaseChecked e limit
      return (← c.1.storeChecked c.2 short, c.2)
    else
      return c

def cutChecked (m : Extmap P) (base limit : ℤ) : Checked (Extmap P × Iter) := do
  let it ← m.lowerBoundChecked L base
  if it = m.endIter then
    return (m, it)
  else
    let c ← m.cutLeftChecked load L it base limit
    let c ← eraseCoveredChecked load base limit c.1.count c
    cutRightChecked L limit c

variable [DecidableEq P]

def nextChecked (m : Extmap P) (it : Iter) : Checked (Option (Extent P)) := do
  if it = m.endIter then
    return none
  else
    return some (← m.derefChecked it)

def previousChecked (m : Extmap P) (it prev : Iter) : Checked (Option (Extent P)) := do
  if it = beginIter then
    return none
  else
    return some (← m.derefChecked prev)

def placeRightChecked (m : Extmap P) (it : Iter) (e : Extent P) (base : ℤ) :
    Checked (Extmap P) := do
  match ← m.nextChecked it with
  | some right =>
      if L.adjacent e right then
        let whole ← L.rebaseChecked right base
        m.storeChecked it whole
      else
        return (← m.insertChecked load it e).1
  | none => return (← m.insertChecked load it e).1

def placeChecked (m : Extmap P) (it : Iter) (e : Extent P) (base limit : ℤ) :
    Checked (Extmap P) := do
  if m.count = 0 then
    return (← m.insertChecked load it e).1
  else
    let prev ← m.minusOneChecked it
    match ← m.previousChecked it prev with
    | some left =>
        if L.adjacent left e then
          let left ← L.relimitChecked left limit
          let m' ← m.storeChecked prev left
          let m' ← m'.fixMaxChecked prev.i
          match ← m.nextChecked it with
          | some right =>
              if L.adjacent left right then
                let whole ← L.relimitChecked left right.limit
                let m' ← m'.storeChecked prev whole
                let m' ← m'.fixMaxChecked prev.i
                return (← m'.eraseChecked load it).1
              else
                return m'
          | none => return m'
        else
          m.placeRightChecked load L it e base
    | none => m.placeRightChecked load L it e base

def updateChecked (m : Extmap P) (base limit : ℤ) (ptr : P) : Checked (Extmap P) := do
  let e ← L.extentChecked base (limit - base) ptr
  if m.maxes.length = 0 then
    return m.first e
  else
    let c ← m.cutChecked load L base limit
    c.1.placeChecked load L c.2 e base limit

omit [DecidableEq P] in
/-- The extent that `_update` builds at its start is not used here. -/
def trimChecked (m : Extmap P) (base limit : ℤ) : Checked (Extmap P) := do
  if 0 < m.count then
    return (← m.cutChecked load L base limit).1
  else
    return m

end Operations

end Extmap

end LsvdRbd.ExtentMap
