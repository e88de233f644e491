import LsvdRbd.ExtentMap.Bounded
import LsvdRbd.Lib.RunCount

/-!
# The object map within its bounds

The object map of a volume below `2^35` sectors, with object numbers below
`2^31` and objects below 2 GiB, never overflows a field of `_lba2obj`. On such
maps `update` and `trim` act on the denoted function as they should, and the
loop that maps the extents of one object is an overlay of that object.
-/

namespace LsvdRbd.ExtentMap

open RunList

set_option autoImplicit false

abbrev Objmap := Extmap ObjOffset

/-- The bounds of a volume: addresses below `2^35`, object numbers below
`2^31`, and sectors of an object below `2^22`. -/
structure Within (e : Extent ObjOffset) : Prop where
  base : 0 ≤ e.base
  limit : e.limit ≤ 2 ^ 35
  objLower : 0 ≤ e.ptr.obj
  objUpper : e.ptr.obj < 2 ^ 31
  offset : 0 ≤ e.ptr.offset
  reach : e.ptr.offset + e.len ≤ 2 ^ 22

variable {b l : ℤ}

theorem Within.slice {e : Extent ObjOffset} (within : Within e) (start : e.base ≤ b)
    (stop : l ≤ e.limit) : Within (e.slice b l) := by
  obtain ⟨base, limit, objLower, objUpper, offset, reach⟩ := within
  have eLimit : e.limit = e.base + e.len := rfl
  constructor
  · rw [slice_base]
    omega
  · rw [slice_limit]
    omega
  · exact objLower
  · exact objUpper
  · simp only [slice_ptr, vadd_offset]
    omega
  · simp only [slice_ptr, vadd_offset, slice_len]
    omega

theorem Within.join {left right : Extent ObjOffset} (leftWithin : Within left)
    (rightWithin : Within right) (joins : Joins left right) : Within (left.join right) := by
  have ptr : left.ptr.offset + left.len = right.ptr.offset := congrArg ObjOffset.offset joins.2
  constructor
  · exact leftWithin.base
  · rw [join_limit joins]
    exact rightWithin.limit
  · exact leftWithin.objLower
  · exact leftWithin.objUpper
  · exact leftWithin.offset
  · have := rightWithin.reach
    simp only [Run.join]
    omega

theorem Within.fits {e : Extent ObjOffset} (within : Within e) : Layout.lba2obj.Fits e := by
  obtain ⟨base, limit, objLower, objUpper, offset, reach⟩ := within
  have eLimit : e.limit = e.base + e.len := rfl
  exact Layout.lba2obj_fits (by omega) (by omega) (by omega) (by omega) (by omega) (by omega)
    (by omega)

def objBounds : Bounds ObjOffset where
  holds := Within
  slice within start _ stop := within.slice start stop
  join left right joins := left.join right joins
  fits within := within.fits

abbrev Sound (m : Objmap) : Prop := Bounded objBounds m

theorem sound_empty : Sound (Extmap.empty : Objmap) := Bounded.empty

theorem objmap_key {x : ℤ} (lower : 0 ≤ x) (upper : x < 2 ^ 37) : KeyOf ObjOffset x :=
  signed_field_of_range 37 x (by omega) upper

variable {m : Objmap}

theorem Bounded.bounds (sound : Sound m) {x : ℤ} {p : ObjOffset} (found : locate m x = some p) :
    0 ≤ x ∧ x < 2 ^ 35 ∧ 0 ≤ p.obj ∧ p.obj < 2 ^ 31 ∧ 0 ≤ p.offset ∧ p.offset < 2 ^ 22 := by
  obtain ⟨e, member, inside, rfl⟩ := (get_eq_some_iff sound.ordered x p).mp found
  have within : Within e := sound.within e member
  have := inside.1
  have := inside.2
  have := within.base
  have := within.limit
  have := within.offset
  have := within.reach
  have : e.limit = e.base + e.len := rfl
  refine ⟨by omega, by omega, within.objLower, within.objUpper, ?_, ?_⟩
  · simp only [vadd_offset]
    omega
  · simp only [vadd_offset]
    omega

/-! ## The sectors an object holds -/

def owned (o : ℤ) (runs : List (Extent ObjOffset)) : ℤ :=
  mass (fun p : ObjOffset => p.obj = o) runs

@[simp] theorem owned_nil (o : ℤ) : owned o [] = 0 := rfl

@[simp] theorem owned_cons (o : ℤ) (run : Extent ObjOffset) (rest : List (Extent ObjOffset)) :
    owned o (run :: rest) = (if run.ptr.obj = o then run.len else 0) + owned o rest :=
  mass_cons _ run rest

@[simp] theorem owned_append (o : ℤ) (left right : List (Extent ObjOffset)) :
    owned o (left ++ right) = owned o left + owned o right :=
  mass_append _ left right

variable {runs : List (Extent ObjOffset)}

theorem owned_nonneg (o : ℤ) (lengths : ∀ run ∈ runs, 0 ≤ run.len) : 0 ≤ owned o runs :=
  mass_nonneg _ lengths

theorem owned_eq_zero_iff_forall {o : ℤ} (lengths : ∀ run ∈ runs, 0 ≤ run.len) :
    owned o runs = 0 ↔ ∀ run ∈ runs, 0 < run.len → run.ptr.obj ≠ o := by
  induction runs with
  | nil => simp
  | cons run rest ih =>
      have here := lengths run (by simp)
      have restLengths : ∀ other ∈ rest, 0 ≤ other.len :=
        fun other member => lengths other (by simp [member])
      have later := owned_nonneg o restLengths
      rw [owned_cons, List.forall_mem_cons, ← ih restLengths]
      by_cases same : run.ptr.obj = o
      · rw [if_pos same]
        constructor
        · intro none
          exact ⟨fun positive => by omega, by omega⟩
        · rintro ⟨empty, none⟩
          have : ¬0 < run.len := fun positive => empty positive same
          omega
      · rw [if_neg same, zero_add]
        exact ⟨fun none => ⟨fun _ => same, none⟩, And.right⟩

theorem owned_overwrite (ordered : Ordered runs) (order : b < l) (ptr : ObjOffset) (o : ℤ) :
    owned o (overwrite b l ptr runs) + owned o (cutIn b l runs) =
      owned o runs + if ptr.obj = o then l - b else 0 :=
  mass_overwrite (fun _ _ => Iff.rfl) ordered order ptr

theorem owned_cut (order : b ≤ l) (ordered : Ordered runs) (o : ℤ) :
    owned o (cutOut b l runs) + owned o (cutIn b l runs) = owned o runs :=
  mass_cut (fun _ _ => Iff.rfl) order ordered.positive

theorem owned_cut_in_eq_zero_iff (order : b ≤ l) (sound : Sound m) (o : ℤ) :
    owned o (cutIn b l m.extents) = 0 ↔
      ∀ x p, b ≤ x → x < l → locate m x = some p → p.obj ≠ o := by
  have part : ∀ d ∈ cutIn b l m.extents, ∃ e ∈ m.extents,
      (e.base < l ∧ b < e.limit) ∧ d = e.slice (max e.base b) (min e.limit l) := by
    intro d member
    obtain ⟨e, inMap, inside⟩ := List.mem_flatMap.mp member
    unfold Run.inside at inside
    split at inside
    · next meets => exact ⟨e, inMap, meets, List.mem_singleton.mp inside⟩
    · cases inside
  rw [owned_eq_zero_iff_forall]
  · constructor
    · intro others x p low high found
      have inCut : get (cutIn b l m.extents) x = some p := by
        rw [get_cut_in, if_pos ⟨low, high⟩]
        exact found
      obtain ⟨d, member, located⟩ := List.exists_of_findSome?_eq_some inCut
      unfold Run.locate at located
      split at located
      · next inside =>
          have limit : d.limit = d.base + d.len := rfl
          have := inside.1
          have := inside.2
          rw [← Option.some.inj located]
          exact others d member (by omega)
      · cases located
    · intro others d member positive
      obtain ⟨e, inMap, meets, rfl⟩ := part d member
      rw [slice_len] at positive
      exact others (max e.base b) ((max e.base b - e.base) +ᵥ e.ptr) (by omega) (by omega)
        ((sound.locate_eq_some_iff _ _).mpr ⟨e, inMap, ⟨by omega, by omega⟩, rfl⟩)
  · intro d member
    obtain ⟨e, inMap, meets, rfl⟩ := part d member
    have := sound.ordered.nonempty e inMap
    rw [slice_len]
    omega

/-- It is the number of addresses that the map gives to the object. -/
theorem owned_eq_ncard (sound : Sound m) (o : ℤ) :
    owned o m.extents = ({x : ℤ | ∃ p, locate m x = some p ∧ p.obj = o}.ncard : ℤ) ∧
      {x : ℤ | ∃ p, locate m x = some p ∧ p.obj = o}.Finite :=
  mass_eq_ncard (fun _ _ => Iff.rfl) sound.ordered

theorem owned_le_of_locate {m m' : Objmap} (sound : Sound m) (sound' : Sound m') {o : ℤ}
    (kept : ∀ x p, locate m' x = some p → p.obj = o → ∃ q, locate m x = some q ∧ q.obj = o) :
    owned o m'.extents ≤ owned o m.extents := by
  obtain ⟨count, finite⟩ := owned_eq_ncard sound o
  rw [count, (owned_eq_ncard sound' o).1]
  have included := Set.ncard_le_ncard
    (fun x (mapped : ∃ p, locate m' x = some p ∧ p.obj = o) => by
      obtain ⟨p, found, same⟩ := mapped
      exact kept x p found same :
      {x : ℤ | ∃ p, locate m' x = some p ∧ p.obj = o} ⊆
        {x : ℤ | ∃ p, locate m x = some p ∧ p.obj = o}) finite
  exact_mod_cast included

theorem owned_eq_zero_iff (sound : Sound m) (o : ℤ) :
    owned o m.extents = 0 ↔ ∀ x p, locate m x = some p → p.obj ≠ o := by
  obtain ⟨count, finite⟩ := owned_eq_ncard sound o
  rw [count, Int.natCast_eq_zero, Set.ncard_eq_zero finite, Set.eq_empty_iff_forall_notMem]
  constructor
  · intro none x p found same
    exact none x ⟨p, found, same⟩
  · rintro none x ⟨p, found, same⟩
    exact none x p found same

end LsvdRbd.ExtentMap
