import LsvdRbd.ExtentMap.Refinement

/-!
# Extent maps within their bounds

A bound on extents that slices and joins keep, and under which no field of the
record overflows, is kept by `update` and `trim`; on maps within such a bound
both act on the denoted function as they should.
-/

namespace LsvdRbd.ExtentMap

open RunList

set_option autoImplicit false

variable {P : Type*} [AddAction ℤ P]

/-- The record layout that goes with a pointer type. -/
class Stored (P : Type*) where
  layout : Layout P

instance : Stored ObjOffset := ⟨Layout.lba2obj⟩

instance : Stored SectorPtr := ⟨Layout.lba2buf⟩

section Operations

variable [DecidableEq P] [Stored P]

/-- `update` with the list of displaced extents. -/
def Extmap.set (m : Extmap P) (b l : ℤ) (ptr : P) : Extmap P × List (Extent P) :=
  m.update 256 Stored.layout b l ptr

/-- `trim`. -/
def Extmap.unset (m : Extmap P) (b l : ℤ) : Extmap P × List (Extent P) :=
  m.trim 256 Stored.layout b l

/-- The loop over `lookup(b)` up to `l`, with the `vals` of each extent. -/
def Extmap.pieces (m : Extmap P) (b l : ℤ) : List (ℤ × ℤ × P) := m.ranges Stored.layout b l

end Operations

def locate (m : Extmap P) (x : ℤ) : Option P := get m.extents x

@[simp] theorem locate_empty (x : ℤ) : locate (Extmap.empty : Extmap P) x = none := rfl

variable [Stored P]

structure Bounds (P : Type*) [AddAction ℤ P] [Stored P] where
  holds : Extent P → Prop
  slice : ∀ {e : Extent P} {b l : ℤ}, holds e → e.base ≤ b → b ≤ l → l ≤ e.limit →
    holds (e.slice b l)
  join : ∀ {left right : Extent P}, holds left → holds right → Joins left right →
    holds (left.join right)
  fits : ∀ {e : Extent P}, holds e → (Stored.layout : Layout P).Fits e

/-- A well-formed map whose extents are all within the bound. -/
structure Bounded (B : Bounds P) (m : Extmap P) : Prop where
  shape : m.Shape 256
  ordered : Ordered m.extents
  within : ∀ e ∈ m.extents, B.holds e

def KeyOf (P : Type*) [Stored P] (x : ℤ) : Prop := (Stored.layout : Layout P).base x = x

namespace Bounded

variable {B : Bounds P} {m : Extmap P}

theorem empty : Bounded B (Extmap.empty : Extmap P) :=
  ⟨Extmap.empty_shape _, Ordered.nil, by simp [Extmap.empty, Extmap.extents]⟩

theorem imp {C : Bounds P} (bounded : Bounded B m)
    (weaker : ∀ e ∈ m.extents, B.holds e → C.holds e) : Bounded C m :=
  ⟨bounded.shape, bounded.ordered, fun e member => weaker e member (bounded.within e member)⟩

theorem locate_eq_some_iff (bounded : Bounded B m) (x : ℤ) (p : P) :
    locate m x = some p ↔ ∃ e ∈ m.extents, e.Contains x ∧ p = (x - e.base) +ᵥ e.ptr :=
  get_eq_some_iff bounded.ordered x p

theorem pieces_enumerates (bounded : Bounded B m) (b l : ℤ) (key : KeyOf P b) :
    Extmap.Enumerates (locate m) b l (m.pieces b l) :=
  Extmap.ranges_enumerates bounded.shape bounded.ordered
    (fun e member => B.fits (bounded.within e member)) b l key

variable {b l : ℤ}

theorem unset (bounded : Bounded B m) (order : b ≤ l) (key : KeyOf P b) :
    Bounded B (m.unset b l).1 ∧ (m.unset b l).1.extents = cutOut b l m.extents ∧
      (m.unset b l).2 = cutIn b l m.extents := by
  obtain ⟨extents, shape, lost⟩ := Extmap.trim_spec (by omega) bounded.shape bounded.ordered order
    (fun e member => B.fits (bounded.within e member)) key
  refine ⟨⟨shape, extents ▸ ordered_cut_out order bounded.ordered, ?_⟩, extents, lost⟩
  rw [Extmap.unset, extents]
  apply cut_out_all _ bounded.ordered.positive bounded.within
  intro run b l within start order stop
  exact B.slice within start order.le stop

theorem locate_unset (bounded : Bounded B m) (order : b ≤ l) (key : KeyOf P b) (x : ℤ) :
    locate (m.unset b l).1 x = if b ≤ x ∧ x < l then none else locate m x := by
  rw [locate, (bounded.unset order key).2.1]
  exact get_cut_out order m.extents x

theorem unset_displaced (bounded : Bounded B m) (order : b ≤ l) (key : KeyOf P b) :
    ∀ d ∈ (m.unset b l).2, B.holds d ∧ 0 ≤ d.len := by
  rw [(bounded.unset order key).2.2]
  intro d member
  obtain ⟨e, inMap, inside⟩ := List.mem_flatMap.mp member
  have := bounded.ordered.nonempty e inMap
  unfold Run.inside at inside
  split at inside
  · rw [List.mem_singleton.mp inside]
    refine ⟨B.slice (bounded.within e inMap) (le_max_left _ _) (by omega) (min_le_left _ _), ?_⟩
    rw [slice_len]
    omega
  · cases inside

section Update

variable [DecidableEq P] {ptr : P}

theorem set (bounded : Bounded B m) (order : b < l) (new : B.holds ⟨b, l - b, ptr⟩) :
    Bounded B (m.set b l ptr).1 ∧ (m.set b l ptr).1.extents = overwrite b l ptr m.extents ∧
      (m.set b l ptr).2 = cutIn b l m.extents := by
  have newWithin : ∀ e ∈ overwrite b l ptr m.extents, B.holds e := by
    apply overwrite_all _ _ bounded.ordered order ptr bounded.within new
    · intro run b l within start order stop
      exact B.slice within start order.le stop
    · intro left right leftWithin rightWithin joins
      exact B.join leftWithin rightWithin joins
  have key := (B.fits new).base 0 (le_refl _) (by simp only; omega)
  rw [add_zero] at key
  obtain ⟨extents, shape, lost⟩ := Extmap.update_spec (by omega) bounded.shape bounded.ordered order
    ptr (fun e member => B.fits (bounded.within e member)) key
    (fun e member => B.fits (newWithin e member))
  exact ⟨⟨shape, extents ▸ ordered_overwrite bounded.ordered order ptr,
    extents ▸ newWithin⟩, extents, lost⟩

theorem locate_set (bounded : Bounded B m) (order : b < l) (new : B.holds ⟨b, l - b, ptr⟩)
    (x : ℤ) :
    locate (m.set b l ptr).1 x =
      if b ≤ x ∧ x < l then some ((x - b) +ᵥ ptr) else locate m x := by
  rw [locate, (bounded.set order new).2.1]
  exact get_overwrite bounded.ordered order ptr x

/-- An extent that an update displaces is a nonempty part of the range, and the
map had its addresses where the extent says. -/
theorem displaced (bounded : Bounded B m) (order : b < l) (new : B.holds ⟨b, l - b, ptr⟩) :
    ∀ d ∈ (m.set b l ptr).2, (B.holds d ∧ ∀ x, d.Contains x →
      locate m x = some ((x - d.base) +ᵥ d.ptr)) ∧ 0 < d.len ∧ b ≤ d.base ∧ d.limit ≤ l := by
  rw [(bounded.set order new).2.2]
  refine cut_in_all ?_ order bounded.ordered.positive ?_
  · rintro run b l ⟨within, located⟩ start order stop
    refine ⟨B.slice within start order.le stop, ?_⟩
    intro x inside
    simp only [Run.Contains, slice_base, slice_limit] at inside
    rw [located x ⟨by omega, by omega⟩, slice_base, slice_ptr, vadd_vadd]
    congr 2
    omega
  · intro e member
    exact ⟨bounded.within e member, fun x inside =>
      (get_eq_some_iff bounded.ordered x _).mpr ⟨e, member, inside, rfl⟩⟩

theorem displaced_eq_nil_iff (bounded : Bounded B m) (order : b < l)
    (new : B.holds ⟨b, l - b, ptr⟩) :
    (m.set b l ptr).2 = [] ↔ ∀ x, b ≤ x → x < l → locate m x = none := by
  constructor
  · intro nothing x low high
    have found := get_cut_in b l m.extents x
    rw [← (bounded.set order new).2.2, nothing, if_pos ⟨low, high⟩] at found
    exact found.symm
  · intro unmapped
    by_contra nonempty
    obtain ⟨d, member⟩ := List.exists_mem_of_ne_nil _ nonempty
    obtain ⟨⟨-, located⟩, positive, start, stop⟩ := bounded.displaced order new d member
    have limit : d.limit = d.base + d.len := rfl
    have found := located d.base ⟨le_refl _, by omega⟩
    rw [unmapped d.base start (by omega)] at found
    cases found

end Update

end Bounded

end LsvdRbd.ExtentMap
