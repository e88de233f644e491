import LsvdRbd.Lib.RunList

/-!
# Stored extents

`extent.h` keeps an extent as a bit-field record: a base, a length and a
pointer, each narrower than the `int64_t` the map logic computes with. A
`Layout` says what a field holds after a store, so that the map code can be
written once and read with the bit-fields of `_lba2obj` or `_lba2buf`, or with
exact integers. The access and dirty bits are not modelled: no map operation
reads them.
-/

namespace LsvdRbd.ExtentMap

open RunList

set_option autoImplicit false

abbrev Extent (P : Type*) := Run P

/-- What a signed bit-field of the given width holds after a store. -/
def signedField (bits : ℕ) (value : ℤ) : ℤ := value.bmod (2 ^ bits)

def unsignedField (bits : ℕ) (value : ℤ) : ℤ := value % 2 ^ bits

theorem signed_field_of_range (bits : ℕ) (value : ℤ)
    (lower : -2 ^ bits ≤ value) (upper : value < 2 ^ bits) :
    signedField (bits + 1) value = value := by
  unfold signedField
  have power : (((2 : ℕ) ^ (bits + 1) : ℕ) : ℤ) = 2 * 2 ^ bits := by
    push_cast
    ring
  apply Int.bmod_eq_of_le
  · rw [power]
    omega
  · rw [power]
    omega

theorem unsigned_field_of_range (bits : ℕ) (value : ℤ)
    (lower : 0 ≤ value) (upper : value < 2 ^ bits) :
    unsignedField bits value = value :=
  Int.emod_eq_of_lt lower upper

/-- `obj_offset`: an object number and a sector offset inside that object. -/
@[ext] structure ObjOffset where
  obj : ℤ
  offset : ℤ
  deriving DecidableEq, Repr

instance : AddAction ℤ ObjOffset where
  vadd n p := ⟨p.obj, p.offset + n⟩
  zero_vadd p := by
    change (⟨p.obj, p.offset + 0⟩ : ObjOffset) = p
    rw [add_zero]
  add_vadd m n p := by
    change (⟨p.obj, p.offset + (m + n)⟩ : ObjOffset) = ⟨p.obj, p.offset + n + m⟩
    congr 1
    ring

@[simp] theorem vadd_obj (n : ℤ) (p : ObjOffset) : (n +ᵥ p).obj = p.obj := rfl

@[simp] theorem vadd_offset (n : ℤ) (p : ObjOffset) :
    (n +ᵥ p).offset = p.offset + n := rfl

/-- `sector_ptr`: an address in memory; one sector is 512 bytes. -/
@[ext] structure SectorPtr where
  buf : ℤ
  deriving DecidableEq, Repr

instance : AddAction ℤ SectorPtr where
  vadd n p := ⟨p.buf + n * 512⟩
  zero_vadd p := by
    change (⟨p.buf + 0 * 512⟩ : SectorPtr) = p
    rw [zero_mul, add_zero]
  add_vadd m n p := by
    change (⟨p.buf + (m + n) * 512⟩ : SectorPtr) = ⟨p.buf + n * 512 + m * 512⟩
    congr 1
    ring

@[simp] theorem vadd_buf (n : ℤ) (p : SectorPtr) : (n +ᵥ p).buf = p.buf + n * 512 := rfl

/-- The value each field of an extent record holds after a store, and the
pointer type's `operator+`. -/
structure Layout (P : Type*) where
  base : ℤ → ℤ
  len : ℤ → ℤ
  ptr : P → P
  add : P → ℤ → P

namespace Layout

variable {P : Type*}

/-- Unbounded integers: what the map code means to compute. -/
def exact [AddAction ℤ P] : Layout P where
  base := id
  len := id
  ptr := id
  add p n := n +ᵥ p

/-- `_lba2obj`: base 38 and length 24 bits, both signed; the pointer is an
`obj_offset` of 36 and 28 signed bits, and `operator+` takes an `int`. -/
def lba2obj : Layout ObjOffset where
  base := signedField 38
  len := signedField 24
  ptr p := ⟨signedField 36 p.obj, signedField 28 p.offset⟩
  add p n := ⟨p.obj, signedField 28 (p.offset + signedField 32 n)⟩

/-- `_lba2buf`: base 38 and length 24 bits, both unsigned; the pointer is a
full address and `operator+` multiplies in `int`. -/
def lba2buf : Layout SectorPtr where
  base := unsignedField 38
  len := unsignedField 24
  ptr p := p
  add p n := ⟨p.buf + signedField 32 (signedField 32 n * 512)⟩

variable (L : Layout P)

def extent (base len : ℤ) (ptr : P) : Extent P :=
  ⟨L.base base, L.len len, L.ptr ptr⟩

def relimit (e : Extent P) (limit : ℤ) : Extent P :=
  { e with len := L.len (limit - e.base) }

def rebase (e : Extent P) (base : ℤ) : Extent P :=
  ⟨L.base base, L.len (e.len - (base - e.base)), L.add e.ptr (base - e.base)⟩

/-- `vals(base, limit)`: the part of an extent inside `[base, limit)`. -/
def vals (e : Extent P) (base limit : ℤ) : ℤ × ℤ × P :=
  if e.base < base then (base, min e.limit limit, L.add e.ptr (base - e.base))
  else (e.base, min e.limit limit, e.ptr)

def adjacent [DecidableEq P] (left right : Extent P) : Bool :=
  left.limit = right.base ∧ L.add left.ptr (left.limit - left.base) = right.ptr

/-! ## Extents whose every part is stored exactly -/

/-- Every sub-extent of `e`, and every pointer between its two ends, survives
a store: no field overflows while the map code works inside `e`. -/
structure Fits [AddAction ℤ P] (e : Extent P) : Prop where
  base : ∀ k, 0 ≤ k → k < e.len → L.base (e.base + k) = e.base + k
  len : ∀ k, 0 ≤ k → k ≤ e.len → L.len k = k
  ptr : ∀ k, 0 ≤ k → k < e.len → L.ptr (k +ᵥ e.ptr) = k +ᵥ e.ptr
  add : ∀ k j, 0 ≤ k → k < e.len → 0 ≤ k + j → k + j ≤ e.len →
    L.add (k +ᵥ e.ptr) j = (k + j) +ᵥ e.ptr

theorem exact_fits [AddAction ℤ P] (e : Extent P) : (exact : Layout P).Fits e where
  base _ _ _ := rfl
  len _ _ _ := rfl
  ptr _ _ _ := rfl
  add k j _ _ _ _ := by
    change j +ᵥ (k +ᵥ e.ptr) = (k + j) +ᵥ e.ptr
    rw [vadd_vadd, add_comm]

variable {L} {e : Extent P}

theorem Fits.slice [AddAction ℤ P] (fits : L.Fits e) {b l : ℤ} (start : e.base ≤ b)
    (inside : l ≤ e.limit) : L.Fits (e.slice b l) := by
  unfold Run.limit at inside
  refine ⟨?_, ?_, ?_, ?_⟩
  · intro k lower upper
    have upper : k < l - b := upper
    have := fits.base (b - e.base + k) (by omega) (by omega)
    rwa [show e.base + (b - e.base + k) = b + k by ring] at this
  · intro k lower upper
    have upper : k ≤ l - b := upper
    exact fits.len k lower (by omega)
  · intro k lower upper
    have upper : k < l - b := upper
    have := fits.ptr (k + (b - e.base)) (by omega) (by omega)
    rwa [← vadd_vadd] at this
  · intro k j lower upper sumLower sumUpper
    have upper : k < l - b := upper
    have sumUpper : k + j ≤ l - b := sumUpper
    have := fits.add (k + (b - e.base)) j (by omega) (by omega) (by omega) (by omega)
    rw [← vadd_vadd] at this
    change L.add (k +ᵥ ((b - e.base) +ᵥ e.ptr)) j = (k + j) +ᵥ ((b - e.base) +ᵥ e.ptr)
    rw [this, vadd_vadd]
    congr 1
    ring

theorem Fits.extent_slice [AddAction ℤ P] (fits : L.Fits e) {b l : ℤ} (start : e.base ≤ b)
    (inner : b < e.limit) (order : b ≤ l) (stop : l ≤ e.limit) :
    L.extent b (l - b) (L.add e.ptr (b - e.base)) = e.slice b l := by
  unfold Run.limit at inner stop
  have base := fits.base (b - e.base) (by omega) (by omega)
  have ptr := fits.ptr (b - e.base) (by omega) (by omega)
  have add := fits.add 0 (b - e.base) (by omega) (by omega) (by omega) (by omega)
  rw [zero_vadd, zero_add] at add
  rw [add_sub_cancel] at base
  refine Run.ext base (fits.len _ (by omega) (by omega)) ?_
  change L.ptr (L.add e.ptr (b - e.base)) = _
  rw [add, ptr]
  rfl

theorem Fits.extent_eq [AddAction ℤ P] (fits : L.Fits e) (positive : 0 < e.len) :
    L.extent e.base e.len e.ptr = e := by
  have base := fits.base 0 (by omega) (by omega)
  have ptr := fits.ptr 0 (by omega) (by omega)
  rw [add_zero] at base
  rw [zero_vadd] at ptr
  exact Run.ext base (fits.len _ (by omega) (by omega)) ptr

theorem Fits.relimit_eq [AddAction ℤ P] (fits : L.Fits e) {l : ℤ} (start : e.base ≤ l)
    (stop : l ≤ e.limit) : L.relimit e l = e.slice e.base l := by
  unfold Run.limit at stop
  refine Run.ext rfl (fits.len _ (by omega) (by omega)) ?_
  simp [relimit]

theorem Fits.rebase_eq [AddAction ℤ P] (fits : L.Fits e) {b : ℤ} (start : e.base ≤ b)
    (inner : b < e.limit) : L.rebase e b = e.slice b e.limit := by
  have built := fits.extent_slice start inner inner.le (le_refl _)
  unfold Run.limit at inner
  have ptr := fits.ptr (b - e.base) (by omega) (by omega)
  have add := fits.add 0 (b - e.base) (by omega) (by omega) (by omega) (by omega)
  rw [zero_vadd, zero_add] at add
  rw [← built]
  refine Run.ext rfl ?_ ?_
  · change L.len (e.len - (b - e.base)) = L.len (e.base + e.len - b)
    congr 1
    ring
  · change L.add e.ptr (b - e.base) = L.ptr (L.add e.ptr (b - e.base))
    rw [add, ptr]

theorem Fits.adjacent_iff [AddAction ℤ P] [DecidableEq P] {left right : Extent P}
    (fits : L.Fits left) (positive : 0 < left.len) :
    L.adjacent left right = true ↔ Joins left right := by
  have add := fits.add 0 left.len (by omega) (by omega) (by omega) (by omega)
  rw [zero_vadd, zero_add] at add
  unfold adjacent Joins
  rw [decide_eq_true_iff, show left.limit - left.base = left.len by simp [Run.limit], add]

theorem lba2obj_fits {e : Extent ObjOffset} (baseLower : -2 ^ 37 ≤ e.base)
    (baseUpper : e.limit ≤ 2 ^ 37) (lenUpper : e.len < 2 ^ 23)
    (objLower : -2 ^ 35 ≤ e.ptr.obj) (objUpper : e.ptr.obj < 2 ^ 35)
    (offsetLower : -2 ^ 27 ≤ e.ptr.offset) (offsetUpper : e.ptr.offset + e.len < 2 ^ 27) :
    lba2obj.Fits e where
  base k lower upper := by
    unfold Run.limit at baseUpper
    exact signed_field_of_range 37 _ (by omega) (by omega)
  len k lower upper := signed_field_of_range 23 _ (by omega) (by omega)
  ptr k lower upper := by
    refine ObjOffset.ext ?_ ?_
    · exact signed_field_of_range 35 _ (by simpa using objLower) (by simpa using objUpper)
    · exact signed_field_of_range 27 _ (by simp; omega) (by simp; omega)
  add k j lower upper sumLower sumUpper := by
    refine ObjOffset.ext rfl ?_
    change signedField 28 (e.ptr.offset + k + signedField 32 j) = e.ptr.offset + (k + j)
    have narrow : signedField 32 j = j :=
      signed_field_of_range 31 _ (by omega) (by omega)
    rw [narrow, add_assoc]
    exact signed_field_of_range 27 _ (by omega) (by omega)

/-- The same for `_lba2buf`. The length field has 24 bits, but `operator+`
multiplies by 512 in an `int`, which halves the usable length twice. -/
theorem lba2buf_fits {e : Extent SectorPtr} (baseLower : 0 ≤ e.base)
    (baseUpper : e.limit ≤ 2 ^ 38) (lenUpper : e.len < 2 ^ 22) :
    lba2buf.Fits e where
  base k lower upper := by
    unfold Run.limit at baseUpper
    exact unsigned_field_of_range 38 _ (by omega) (by omega)
  len k lower upper := unsigned_field_of_range 24 _ lower (by omega)
  ptr _ _ _ := rfl
  add k j lower upper sumLower sumUpper := by
    refine SectorPtr.ext ?_
    change e.ptr.buf + k * 512 + signedField 32 (signedField 32 j * 512) =
      e.ptr.buf + (k + j) * 512
    have narrow : signedField 32 j = j :=
      signed_field_of_range 31 _ (by omega) (by omega)
    have product : signedField 32 (j * 512) = j * 512 :=
      signed_field_of_range 31 _ (by omega) (by omega)
    rw [narrow, product]
    ring

end Layout

end LsvdRbd.ExtentMap
