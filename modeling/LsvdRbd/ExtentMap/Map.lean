import LsvdRbd.ExtentMap.Layout

/-!
# The two-level extent map of `extent.h`

`extmap` keeps its extents in a list of short lists, with the limit of the last
extent of each short list in `maxes`. The functions below follow the C++ one by
one. An iterator is the pair of a list index and a position in that list;
reading outside a list gives nothing, which the C++ would leave undefined, and
the cursor lemmas show that no operation ever does it on a well-shaped map.
-/

namespace LsvdRbd.ExtentMap

open RunList

set_option autoImplicit false

variable {P : Type*}

structure Extmap (P : Type*) where
  lists : List (List (Extent P))
  maxes : List ℤ
  count : ℕ
  deriving DecidableEq, Repr

/-- `extmap::iterator` without its pointer back to the map. -/
@[ext] structure Iter where
  i : ℕ
  j : ℕ
  deriving DecidableEq, Repr

namespace Extmap

def empty : Extmap P := ⟨[], [], 0⟩

def listAt (m : Extmap P) (i : ℕ) : List (Extent P) := m.lists.getD i []

def backLimit (list : List (Extent P)) : ℤ := (list.getLast?.map Run.limit).getD 0

def extents (m : Extmap P) : List (Extent P) := m.lists.flatten

def deref (m : Extmap P) (it : Iter) : Option (Extent P) := (m.listAt it.i)[it.j]?

def beginIter : Iter := ⟨0, 0⟩

def endIter (m : Extmap P) : Iter :=
  if m.lists.length = 0 then ⟨0, 0⟩
  else ⟨m.lists.length - 1, (m.listAt (m.lists.length - 1)).length⟩

def incr (m : Extmap P) (it : Iter) : Iter :=
  if it.j + 1 = (m.listAt it.i).length then
    if it.i + 1 < m.lists.length then ⟨it.i + 1, 0⟩ else ⟨it.i, it.j + 1⟩
  else ⟨it.i, it.j + 1⟩

def minusOne (m : Extmap P) (it : Iter) : Iter :=
  if it.j = 0 ∧ it.i = 0 then beginIter
  else if it.j = 0 then ⟨it.i - 1, (m.listAt (it.i - 1)).length - 1⟩
  else ⟨it.i, it.j - 1⟩

def plusOne (m : Extmap P) (it : Iter) : Iter :=
  if it.j + 1 = (m.listAt it.i).length then
    if it.i + 1 = m.lists.length then m.endIter else ⟨it.i + 1, 0⟩
  else ⟨it.i, it.j + 1⟩

def store (m : Extmap P) (it : Iter) (e : Extent P) : Extmap P :=
  { m with lists := m.lists.set it.i ((m.listAt it.i).set it.j e) }

def fixMax (m : Extmap P) (i : ℕ) : Extmap P :=
  { m with maxes := m.maxes.set i (backLimit (m.listAt i)) }

def first (m : Extmap P) (e : Extent P) : Extmap P :=
  ⟨m.lists ++ [[e]], m.maxes ++ [e.limit], 1⟩

section Rebalancing

variable (load : ℕ)

def expand (m : Extmap P) (it : Iter) : Extmap P × Iter :=
  let list := m.listAt it.i
  if load * 2 ≤ list.length then
    let front := list.take load
    let half := list.drop load
    (⟨(m.lists.set it.i front).insertIdx (it.i + 1) half,
      (m.maxes.set it.i (backLimit front)).insertIdx (it.i + 1) (backLimit half),
      m.count⟩,
      if load ≤ it.j then ⟨it.i + 1, it.j - load⟩ else it)
  else (m, it)

/-- `_insert`: just before the iterator; returns an iterator to the new entry. -/
def insert (m : Extmap P) (it : Iter) (e : Extent P) : Extmap P × Iter :=
  if m.count = 0 then (m.first e, beginIter)
  else
    let list := (m.listAt it.i).insertIdx it.j e
    expand load
      ⟨m.lists.set it.i list, m.maxes.set it.i (backLimit list), m.count + 1⟩ it

/-- The first part of `_erase`: drop the entry, and its list if that is empty. -/
def dropEntry (m : Extmap P) (it : Iter) : Extmap P :=
  let list := (m.listAt it.i).eraseIdx it.j
  if 0 < list.length then
    ⟨m.lists.set it.i list, m.maxes.set it.i (backLimit list), m.count - 1⟩
  else ⟨m.lists.eraseIdx it.i, m.maxes.eraseIdx it.i, m.count - 1⟩

/-- The second part of `_erase`: append `lists[pos]` to `lists[prev]`. -/
def joinLists (m : Extmap P) (prev pos : ℕ) : Extmap P :=
  let list := m.listAt prev ++ m.listAt pos
  ⟨(m.lists.set prev list).eraseIdx pos,
    (m.maxes.set prev (backLimit list)).eraseIdx pos, m.count⟩

/-- The last part of `_erase`: step over the end of a list. -/
def normalize (m : Extmap P) (it : Iter) : Iter :=
  if it.j = (m.listAt it.i).length ∧ it.i ≠ m.lists.length - 1 then ⟨it.i + 1, 0⟩ else it

def erase (m : Extmap P) (it : Iter) : Extmap P × Iter :=
  let m := m.dropEntry it
  if m.lists.length = 0 then (m, m.endIter)
  else if load / 2 < (m.listAt it.i).length then (m, m.normalize it)
  else if 1 < m.lists.length then
    let pos := if 0 < it.i then it.i else it.i + 1
    let prev := pos - 1
    let j := if pos = it.i then it.j + (m.listAt prev).length else it.j
    let r := expand load (m.joinLists prev pos) ⟨prev, j⟩
    (r.1, r.1.normalize r.2)
  else
    let m := if 0 < (m.listAt it.i).length then m.fixMax it.i else m
    (m, m.normalize it)

end Rebalancing

section Operations

variable (load : ℕ) (L : Layout P)

/-- `lower_bound`, also called `lookup`: the extent that contains `base`, or
the first one after it. The two `std::lower_bound` calls are partition points. -/
def lowerBound (m : Extmap P) (base : ℤ) : Iter :=
  if m.lists.length = 0 then m.endIter
  else
    let k := m.maxes.findIdx fun max => decide (base ≤ max)
    let i := if m.maxes[k]? = some base then k + 1 else k
    if i = m.maxes.length then m.endIter
    else
      let list := m.listAt i
      let j := list.findIdx fun e => decide (L.base base ≤ e.base)
      if 0 < j ∧ (list[j - 1]?).any (fun prev => decide (prev.base ≤ base ∧ base < prev.limit))
      then ⟨i, j - 1⟩
      else if i < m.lists.length - 1 ∧ j = list.length then ⟨i + 1, 0⟩
      else ⟨i, j⟩

structure Cut (P : Type*) where
  map : Extmap P
  it : Iter
  del : List (Extent P)

/-- The bisect and left-overlap cases of `_update`. -/
def cutLeft (m : Extmap P) (it : Iter) (base limit : ℤ) : Cut P :=
  match m.deref it with
  | none => ⟨m, it, []⟩
  | some e =>
      if e.base < base ∧ limit < e.limit then
        let old := L.extent base (limit - base) (L.add e.ptr (base - e.base))
        let new := L.extent limit (e.limit - limit) (L.add e.ptr (limit - e.base))
        let m := (m.store it (L.relimit e base)).fixMax it.i
        let r := m.insert load (m.plusOne it) new
        ⟨r.1, r.2, [old]⟩
      else if e.base < base ∧ base < e.limit then
        let old := L.extent base (e.limit - base) (L.add e.ptr (base - e.base))
        let m := (m.store it (L.relimit e base)).fixMax it.i
        ⟨m, m.incr it, [old]⟩
      else ⟨m, it, []⟩

/-- The loop of `_update` that erases every extent inside `[base, limit)`. -/
def eraseCovered (base limit : ℤ) : ℕ → Cut P → Cut P
  | 0, c => c
  | fuel + 1, c =>
      if c.it = c.map.endIter then c
      else match c.map.deref c.it with
        | none => c
        | some e =>
            if base ≤ e.base ∧ e.limit ≤ limit then
              let r := c.map.erase load c.it
              eraseCovered base limit fuel ⟨r.1, r.2, c.del ++ [e]⟩
            else c

/-- The right-overlap case of `_update`. -/
def cutRight (limit : ℤ) (c : Cut P) : Cut P :=
  if c.it = c.map.endIter then c
  else match c.map.deref c.it with
    | none => c
    | some e =>
        if e.base < limit then
          ⟨c.map.store c.it (L.rebase e limit), c.it,
            c.del ++ [L.extent e.base (limit - e.base) e.ptr]⟩
        else c

/-- What `_update` does before it inserts: unmap `[base, limit)`. -/
def cut (m : Extmap P) (base limit : ℤ) : Cut P :=
  let it := m.lowerBound L base
  if it = m.endIter then ⟨m, it, []⟩
  else
    let c := m.cutLeft load L it base limit
    cutRight L limit (eraseCovered load base limit c.map.count c)

variable [DecidableEq P]

/-- What `_update` does after it has cut: merge with a neighbour or insert. -/
def place (m : Extmap P) (it : Iter) (e : Extent P) (base limit : ℤ) : Extmap P :=
  if m.count = 0 then (m.insert load it e).1
  else
    let prev := m.minusOne it
    let next := if it = m.endIter then none else m.deref it
    match if it = beginIter then none else m.deref prev with
    | some left =>
        if L.adjacent left e then
          let left := L.relimit left limit
          let m := (m.store prev left).fixMax prev.i
          match next with
          | some right =>
              if L.adjacent left right then
                let m := (m.store prev (L.relimit left right.limit)).fixMax prev.i
                (m.erase load it).1
              else m
          | none => m
        else placeRight m next
    | none => placeRight m next
where
  /-- Merge with the next extent, or insert. -/
  placeRight (m : Extmap P) (next : Option (Extent P)) : Extmap P :=
    match next with
    | some right =>
        if L.adjacent e right then m.store it (L.rebase right base)
        else (m.insert load it e).1
    | none => (m.insert load it e).1

/-- `_update` with `trim = false`: map `[base, limit)` to `ptr` and return the
extents it displaced. -/
def update (m : Extmap P) (base limit : ℤ) (ptr : P) : Extmap P × List (Extent P) :=
  let e := L.extent base (limit - base) ptr
  if m.maxes.length = 0 then (m.first e, [])
  else
    let c := m.cut load L base limit
    (c.map.place load L c.it e base limit, c.del)

omit [DecidableEq P] in
def trim (m : Extmap P) (base limit : ℤ) : Extmap P × List (Extent P) :=
  if 0 < m.count then
    let c := m.cut load L base limit
    (c.map, c.del)
  else (m, [])

/-- The extents met by `for (it = lookup(base); it != end(); it++)`. -/
def walk (m : Extmap P) : ℕ → Iter → List (Extent P)
  | 0, _ => []
  | fuel + 1, it =>
      if it = m.endIter then []
      else match m.deref it with
        | none => []
        | some e => e :: walk m fuel (m.incr it)

def scan (m : Extmap P) (base : ℤ) : List (Extent P) :=
  m.walk m.count (m.lowerBound L base)

/-- The loop `for (it = lookup(base); it != end() && it->base() < limit; it++)
it->vals(base, limit)`. -/
def ranges (m : Extmap P) (base limit : ℤ) : List (ℤ × ℤ × P) :=
  ((m.scan L base).takeWhile fun e => decide (e.base < limit)).map fun e =>
    L.vals e base limit

end Operations

end Extmap

end LsvdRbd.ExtentMap
