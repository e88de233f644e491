import LsvdRbd.ExtentMap.Update
import Mathlib.Data.List.TakeWhile

/-!
# The extent map refines a partial function

A run of `update` and `trim` calls on an empty map is compared with the plain
reading of the same calls: an address is mapped by the last call that covers
it. The comparison holds as long as the exact values fit the fields that the
map stores them in.
-/

namespace LsvdRbd.ExtentMap

open RunList

set_option autoImplicit false

variable {P : Type*} [AddAction ℤ P]

namespace Extmap

/-! ## Reading the map -/

variable {load : ℕ} {L : Layout P} {m : Extmap P}

def lookup (L : Layout P) (m : Extmap P) (x : ℤ) : Option P :=
  let it := m.lowerBound L x
  if it = m.endIter then none
  else (m.deref it).bind fun e => if e.Contains x then some (L.vals e x (x + 1)).2.2 else none

theorem vals_eq {e : Extent P} (fits : L.Fits e) (positive : 0 < e.len) (b l : ℤ)
    (reach : b < e.limit) :
    L.vals e b l = (max e.base b, min e.limit l, (max e.base b - e.base) +ᵥ e.ptr) := by
  have limit : e.limit = e.base + e.len := rfl
  unfold Layout.vals
  split
  · next below =>
      have add := fits.add 0 (b - e.base) (by omega) positive (by omega) (by omega)
      rw [zero_vadd, zero_add] at add
      rw [max_eq_right below.le, add]
  · next above => rw [max_eq_left (by omega), sub_self, zero_vadd]

theorem lookup_eq (shape : m.Shape load) (ordered : Ordered m.extents)
    (fits : ∀ e ∈ m.extents, L.Fits e) (x : ℤ) (stored : L.base x = x) :
    lookup L m x = get m.extents x := by
  obtain ⟨before, after, position, lower, upper⟩ :=
    lower_bound_splits (L := L) shape ordered x stored
  have whole := position.extents_eq
  have left : get before x = none := get_none_of_limit_le lower
  rw [whole, get_append, left, Option.none_or]
  cases after with
  | nil => simp [lookup, position.eq_end]
  | cons e rest =>
      have eMember : e ∈ m.extents := by simp [whole]
      have ePositive := ordered.positive e eMember
      have found : lookup L m x =
          if e.Contains x then some (L.vals e x (x + 1)).2.2 else none := by
        simp [lookup, position.ne_end, position.deref_eq]
      rw [found, get_cons]
      by_cases inside : e.Contains x
      · rw [if_pos inside, locate_of_contains inside,
          vals_eq (fits e eMember) ePositive x (x + 1) inside.2, max_eq_right inside.1]
        rfl
      · rw [if_neg inside, locate_of_not_contains inside, Option.none_or]
        rw [whole] at ordered
        have sorted := (ordered_cons _ _).mp ((ordered_append _ _).mp ordered).2.1
        have reach := upper e (by simp)
        refine (get_none_of_lt_base ?_).symm
        intro other member
        have := sorted.2.2 other member
        omega

/-- A list of pieces that enumerates the mapped part of `[b, l)`: pointwise
exact, and disjoint in increasing order. -/
structure Enumerates (mapped : ℤ → Option P) (b l : ℤ) (pieces : List (ℤ × ℤ × P)) : Prop where
  exact : ∀ x p, b ≤ x ∧ x < l ∧ mapped x = some p ↔
    ∃ piece ∈ pieces, piece.1 ≤ x ∧ x < piece.2.1 ∧ p = (x - piece.1) +ᵥ piece.2.2
  increasing : pieces.Pairwise fun left right => left.2.1 ≤ right.1
  proper : b < l → ∀ piece ∈ pieces, b ≤ piece.1 ∧ piece.1 < piece.2.1 ∧ piece.2.1 ≤ l

omit [AddAction ℤ P] in
private theorem take_while_split {runs : List (Extent P)} (ordered : Ordered runs) (l : ℤ) :
    ∃ rest, runs = (runs.takeWhile fun e => decide (e.base < l)) ++ rest ∧
      ∀ e ∈ rest, l ≤ e.base := by
  induction runs with
  | nil => exact ⟨[], rfl, by simp⟩
  | cons head tail ih =>
      obtain ⟨positive, tailOrdered, before⟩ := (ordered_cons _ _).mp ordered
      by_cases below : head.base < l
      · obtain ⟨rest, split, right⟩ := ih tailOrdered
        refine ⟨rest, ?_, right⟩
        rw [List.takeWhile_cons_of_pos (by simpa using below), List.cons_append, ← split]
      · refine ⟨head :: tail, by simp [below], ?_⟩
        intro e member
        rcases List.mem_cons.mp member with rfl | inTail
        · omega
        · have := before e inTail
          have : head.limit = head.base + head.len := rfl
          omega

theorem mem_ranges (shape : m.Shape load) (ordered : Ordered m.extents)
    (fits : ∀ e ∈ m.extents, L.Fits e) {b l : ℤ} (stored : L.base b = b) {piece : ℤ × ℤ × P}
    (member : piece ∈ m.ranges L b l) :
    ∃ e ∈ m.extents, b < e.limit ∧ e.base < l ∧
      piece = (max e.base b, min e.limit l, (max e.base b - e.base) +ᵥ e.ptr) := by
  obtain ⟨before, whole, -, reach⟩ := scan_splits (L := L) shape ordered b stored
  obtain ⟨e, visit, rfl⟩ := List.mem_map.mp member
  have scanned : e ∈ m.scan L b := List.takeWhile_subset _ visit
  have inMap : e ∈ m.extents := by
    rw [whole]
    exact List.mem_append_right _ scanned
  have below : e.base < l := by
    simpa using List.mem_takeWhile_imp visit
  exact ⟨e, inMap, reach e scanned, below,
    vals_eq (fits e inMap) (ordered.positive e inMap) b l (reach e scanned)⟩

theorem ranges_enumerates (shape : m.Shape load) (ordered : Ordered m.extents)
    (fits : ∀ e ∈ m.extents, L.Fits e) (b l : ℤ) (stored : L.base b = b) :
    Enumerates (get m.extents) b l (m.ranges L b l) := by
  obtain ⟨before, whole, left, reach⟩ := scan_splits (L := L) shape ordered b stored
  have scanOrdered : Ordered (m.scan L b) := by
    rw [whole] at ordered
    exact ((ordered_append _ _).mp ordered).2.1
  obtain ⟨rest, split, right⟩ := take_while_split scanOrdered l
  set visited := (m.scan L b).takeWhile fun e => decide (e.base < l) with visitedDef
  have visitedScan : ∀ e ∈ visited, e ∈ m.scan L b := by
    intro e member
    rw [split]
    exact List.mem_append_left _ member
  have visitedMap : ∀ e ∈ visited, e ∈ m.extents := by
    intro e member
    rw [whole]
    exact List.mem_append_right _ (visitedScan e member)
  have value : ∀ e ∈ visited, L.vals e b l =
      (max e.base b, min e.limit l, (max e.base b - e.base) +ᵥ e.ptr) := by
    intro e member
    exact vals_eq (fits e (visitedMap e member)) (ordered.positive e (visitedMap e member)) b l
      (reach e (visitedScan e member))
  have unfolded : m.ranges L b l = visited.map fun e => L.vals e b l := rfl
  rw [unfolded]
  constructor
  · intro x p
    rw [get_eq_some_iff ordered]
    constructor
    · rintro ⟨start, stop, e, member, inside, rfl⟩
      have visit : e ∈ visited := by
        rw [whole, split] at member
        have cases : e ∈ before ∨ e ∈ visited ∨ e ∈ rest := by simpa using member
        rcases cases with inBefore | inVisited | inRest
        · have := left e inBefore
          have := inside.2
          omega
        · exact inVisited
        · have := right e inRest
          have := inside.1
          omega
      refine ⟨L.vals e b l, List.mem_map.mpr ⟨e, visit, rfl⟩, ?_⟩
      rw [value e visit]
      have := inside.1
      have := inside.2
      refine ⟨by simp only; omega, by simp only; omega, ?_⟩
      rw [vadd_vadd]
      congr 1
      ring
    · rintro ⟨piece, member, start, stop, rfl⟩
      obtain ⟨e, visit, rfl⟩ := List.mem_map.mp member
      rw [value e visit] at start stop ⊢
      simp only at start stop
      refine ⟨by omega, by omega, e, visitedMap e visit, ⟨by omega, by omega⟩, ?_⟩
      rw [vadd_vadd]
      congr 1
      ring
  · rw [List.pairwise_map]
    have sorted : visited.Pairwise fun a b => a.limit ≤ b.base := by
      have := scanOrdered.separated
      rw [split] at this
      exact (List.pairwise_append.mp this).1
    refine List.Pairwise.imp_of_mem ?_ sorted
    intro a c inA inC separated
    rw [value a inA, value c inC]
    simp only
    omega
  · intro order piece member
    rw [← unfolded] at member
    obtain ⟨e, inMap, reach, below, rfl⟩ := mem_ranges shape ordered fits stored member
    have := ordered.nonempty e inMap
    simp only
    omega

end Extmap

/-! ## Runs of operations -/

inductive Op (P : Type*)
  | update (base limit : ℤ) (ptr : P)
  | trim (base limit : ℤ)
  deriving Repr

namespace Op

def base : Op P → ℤ
  | update b _ _ => b
  | trim b _ => b

def WellFormed : Op P → Prop
  | update b l _ => b < l
  | trim b l => b ≤ l

instance (op : Op P) : Decidable op.WellFormed :=
  match op with
  | update b l _ => inferInstanceAs (Decidable (b < l))
  | trim b l => inferInstanceAs (Decidable (b ≤ l))

def Covers (x : ℤ) : Op P → Prop
  | update b l _ => b ≤ x ∧ x < l
  | trim b l => b ≤ x ∧ x < l

instance (x : ℤ) (op : Op P) : Decidable (op.Covers x) :=
  match op with
  | update _ _ _ => inferInstanceAs (Decidable (_ ∧ _))
  | trim _ _ => inferInstanceAs (Decidable (_ ∧ _))

def location (x : ℤ) : Op P → Option P
  | update b _ ptr => some ((x - b) +ᵥ ptr)
  | trim _ _ => none

variable [DecidableEq P]

def apply (L : Layout P) (m : Extmap P) : Op P → Extmap P
  | update b l ptr => (m.update 256 L b l ptr).1
  | trim b l => (m.trim 256 L b l).1

def runs (extents : List (Extent P)) : Op P → List (Extent P)
  | update b l ptr => overwrite b l ptr extents
  | trim b l => cutOut b l extents

theorem ordered_runs {extents : List (Extent P)} (ordered : Ordered extents) (op : Op P)
    (wellFormed : op.WellFormed) : Ordered (op.runs extents) := by
  cases op with
  | update b l ptr => exact ordered_overwrite ordered wellFormed ptr
  | trim b l => exact ordered_cut_out wellFormed ordered

theorem get_runs {extents : List (Extent P)} (ordered : Ordered extents) (op : Op P)
    (wellFormed : op.WellFormed) (x : ℤ) :
    get (op.runs extents) x = if op.Covers x then op.location x else get extents x := by
  cases op with
  | update b l ptr => exact get_overwrite ordered wellFormed ptr x
  | trim b l => exact get_cut_out wellFormed extents x

theorem apply_spec {L : Layout P} {m : Extmap P} (shape : m.Shape 256)
    (ordered : Ordered m.extents) (op : Op P) (wellFormed : op.WellFormed)
    (fits : ∀ e ∈ m.extents, L.Fits e) (stored : L.base op.base = op.base)
    (fitsAfter : ∀ e ∈ op.runs m.extents, L.Fits e) :
    (op.apply L m).extents = op.runs m.extents ∧ (op.apply L m).Shape 256 := by
  cases op with
  | update b l ptr =>
      have spec := Extmap.update_spec (by omega) shape ordered wellFormed ptr fits stored fitsAfter
      exact ⟨spec.1, spec.2.1⟩
  | trim b l =>
      have spec := Extmap.trim_spec (by omega) shape ordered wellFormed fits stored
      exact ⟨spec.1, spec.2.1⟩

end Op

section Runs

variable [DecidableEq P]

def runOps (L : Layout P) (ops : List (Op P)) : Extmap P :=
  ops.foldl (fun m op => op.apply L m) Extmap.empty

omit [AddAction ℤ P] [DecidableEq P] in
def lastCovering (ops : List (Op P)) (x : ℤ) : Option (Op P) :=
  ops.reverse.find? fun op => decide (op.Covers x)

omit [DecidableEq P] in
/-- The plain function: `x` is where the last call that covers it put it. -/
def mappedBy (ops : List (Op P)) (x : ℤ) : Option P :=
  (lastCovering ops x).bind (Op.location x)

omit [DecidableEq P] in
theorem mapped_by_append (ops : List (Op P)) (op : Op P) (x : ℤ) :
    mappedBy (ops ++ [op]) x = if op.Covers x then op.location x else mappedBy ops x := by
  unfold mappedBy lastCovering
  rw [List.reverse_append]
  by_cases covers : op.Covers x
  · simp [covers]
  · simp [covers]

/-- Every extent of every state of the exact run is stored exactly. -/
def NeverOverflows (stored : Extent P → Prop) (ops : List (Op P)) : Prop :=
  ∀ seen, seen <+: ops → ∀ e ∈ (runOps Layout.exact seen).extents, stored e

theorem never_overflows_iff (stored : Extent P → Prop) (ops : List (Op P)) :
    NeverOverflows stored ops ↔
      ∀ seen ∈ ops.inits, ∀ e ∈ (runOps Layout.exact seen).extents, stored e := by
  simp only [NeverOverflows, List.mem_inits]

/-- What a run keeps, whatever the layout: the map is well shaped and ordered,
its extents are the exact ones, and they denote the plain function. -/
theorem run_spec {L : Layout P} (ops : List (Op P)) (wellFormed : ∀ op ∈ ops, op.WellFormed)
    (keys : ∀ op ∈ ops, L.base op.base = op.base) (fits : NeverOverflows L.Fits ops) :
    (runOps L ops).Shape 256 ∧ (runOps Layout.exact ops).Shape 256 ∧
      Ordered (runOps L ops).extents ∧
      (runOps L ops).extents = (runOps Layout.exact ops).extents ∧
      ∀ x, get (runOps L ops).extents x = mappedBy ops x := by
  induction ops using List.reverseRecOn with
  | nil =>
      exact ⟨Extmap.empty_shape _, Extmap.empty_shape _, Ordered.nil, rfl, fun _ => rfl⟩
  | append_singleton ops op ih =>
      have opWellFormed := wellFormed op (by simp)
      obtain ⟨shape, exactShape, ordered, same, denotes⟩ := ih
        (fun other member => wellFormed other (by simp [member]))
        (fun other member => keys other (by simp [member]))
        (fun seen earlier => fits seen (earlier.trans (List.prefix_append _ _)))
      have snoc : ∀ layout : Layout P,
          runOps layout (ops ++ [op]) = op.apply layout (runOps layout ops) := by
        intro layout
        simp [runOps, List.foldl_append]
      have exactStep := Op.apply_spec exactShape (same ▸ ordered) op opWellFormed
        (fun e _ => Layout.exact_fits e) rfl (fun e _ => Layout.exact_fits e)
      have fitsAfter : ∀ e ∈ op.runs (runOps L ops).extents, L.Fits e := by
        intro e member
        apply fits (ops ++ [op]) (List.prefix_refl _)
        rw [snoc, exactStep.1, ← same]
        exact member
      have fitsBefore : ∀ e ∈ (runOps L ops).extents, L.Fits e := by
        intro e member
        rw [same] at member
        exact fits ops (List.prefix_append _ _) e member
      have step := Op.apply_spec shape ordered op opWellFormed fitsBefore
        (keys op (by simp)) fitsAfter
      rw [snoc, snoc, step.1, exactStep.1]
      refine ⟨step.2, exactStep.2, Op.ordered_runs ordered op opWellFormed, by rw [same], ?_⟩
      intro x
      rw [Op.get_runs ordered op opWellFormed, mapped_by_append, denotes]

/-- The map answers lookups and scans, for the keys its base field can hold,
as the plain function does. -/
def Refines (L : Layout P) (key : ℤ → Prop) (ops : List (Op P)) : Prop :=
  (∀ x, key x → Extmap.lookup L (runOps L ops) x = mappedBy ops x) ∧
    ∀ b l, key b → Extmap.Enumerates (mappedBy ops) b l ((runOps L ops).ranges L b l)

theorem run_refines {L : Layout P} {key : ℤ → Prop} (keyStored : ∀ x, key x → L.base x = x)
    (ops : List (Op P)) (wellFormed : ∀ op ∈ ops, op.WellFormed)
    (keys : ∀ op ∈ ops, key op.base) (fits : NeverOverflows L.Fits ops) : Refines L key ops := by
  obtain ⟨shape, -, ordered, same, denotes⟩ :=
    run_spec ops wellFormed (fun op member => keyStored _ (keys op member)) fits
  have fitsNow : ∀ e ∈ (runOps L ops).extents, L.Fits e := by
    intro e member
    rw [same] at member
    exact fits ops (List.prefix_refl _) e member
  constructor
  · intro x isKey
    rw [Extmap.lookup_eq shape ordered fitsNow x (keyStored x isKey), denotes]
  · intro b l isKey
    have ranges := Extmap.ranges_enumerates shape ordered fitsNow b l (keyStored b isKey)
    rwa [show get (runOps L ops).extents = mappedBy ops from funext denotes] at ranges

end Runs

/-! ## The object map and the buffer map -/

/-- The fields of `_lba2obj` hold the extent, each of its addresses as a base,
and the pointers between its ends. -/
structure ObjmapStored (e : Extent ObjOffset) : Prop where
  base : -2 ^ 37 ≤ e.base
  limit : e.limit ≤ 2 ^ 37
  len : e.len < 2 ^ 23
  objLower : -2 ^ 35 ≤ e.ptr.obj
  objUpper : e.ptr.obj < 2 ^ 35
  offsetLower : -2 ^ 27 ≤ e.ptr.offset
  offsetUpper : e.ptr.offset + e.len < 2 ^ 27

instance (e : Extent ObjOffset) : Decidable (ObjmapStored e) :=
  decidable_of_iff
    (-2 ^ 37 ≤ e.base ∧ e.limit ≤ 2 ^ 37 ∧ e.len < 2 ^ 23 ∧ -2 ^ 35 ≤ e.ptr.obj ∧
      e.ptr.obj < 2 ^ 35 ∧ -2 ^ 27 ≤ e.ptr.offset ∧ e.ptr.offset + e.len < 2 ^ 27)
    ⟨fun ⟨a, b, c, d, e, f, g⟩ => ⟨a, b, c, d, e, f, g⟩,
      fun ⟨a, b, c, d, e, f, g⟩ => ⟨a, b, c, d, e, f, g⟩⟩

def ObjmapKey (x : ℤ) : Prop := -2 ^ 37 ≤ x ∧ x < 2 ^ 37

instance (x : ℤ) : Decidable (ObjmapKey x) := inferInstanceAs (Decidable (_ ∧ _))

/-- The fields of `_lba2buf` hold the extent and each of its addresses as a
base; the pointer has no narrow field. -/
structure BufmapStored (e : Extent SectorPtr) : Prop where
  base : 0 ≤ e.base
  limit : e.limit ≤ 2 ^ 38
  len : e.len < 2 ^ 24

instance (e : Extent SectorPtr) : Decidable (BufmapStored e) :=
  decidable_of_iff (0 ≤ e.base ∧ e.limit ≤ 2 ^ 38 ∧ e.len < 2 ^ 24)
    ⟨fun ⟨a, b, c⟩ => ⟨a, b, c⟩, fun ⟨a, b, c⟩ => ⟨a, b, c⟩⟩

def BufmapKey (x : ℤ) : Prop := 0 ≤ x ∧ x < 2 ^ 38

instance (x : ℤ) : Decidable (BufmapKey x) := inferInstanceAs (Decidable (_ ∧ _))

def IntSteps (e : Extent SectorPtr) : Prop := e.len * 512 < 2 ^ 31

/-- Both maps answer as the last call that covers an address says, as long as
no stored field overflows and, for the buffer map, pointer steps stay within
`int`. -/
theorem maps_follow_last_covering_call :
    (∀ ops : List (Op ObjOffset), (∀ op ∈ ops, op.WellFormed) →
      (∀ op ∈ ops, ObjmapKey op.base) → NeverOverflows ObjmapStored ops →
      Refines Layout.lba2obj ObjmapKey ops) ∧
    (∀ ops : List (Op SectorPtr), (∀ op ∈ ops, op.WellFormed) →
      (∀ op ∈ ops, BufmapKey op.base) → NeverOverflows BufmapStored ops →
      NeverOverflows IntSteps ops → Refines Layout.lba2buf BufmapKey ops) := by
  constructor
  · intro ops wellFormed keys stored
    apply run_refines _ ops wellFormed keys
    · intro seen earlier e member
      have fields := stored seen earlier e member
      exact Layout.lba2obj_fits fields.base fields.limit fields.len fields.objLower
        fields.objUpper fields.offsetLower fields.offsetUpper
    · intro x isKey
      exact signed_field_of_range 37 x isKey.1 isKey.2
  · intro ops wellFormed keys stored steps
    apply run_refines _ ops wellFormed keys
    · intro seen earlier e member
      have fields := stored seen earlier e member
      have small : e.len * 512 < 2 ^ 31 := steps seen earlier e member
      exact Layout.lba2buf_fits fields.base fields.limit (by omega)
    · intro x isKey
      exact unsigned_field_of_range 38 x isKey.1 isKey.2

/-- Calls whose every extent the fields of both kinds can hold. -/
theorem maps_follow_last_covering_call_overlap :
    Refines Layout.lba2obj ObjmapKey
        [.update 0 8 ⟨1, 8⟩, .update 2 4 ⟨2, 8⟩, .trim 3 6] ∧
      Refines Layout.lba2buf BufmapKey [.update 0 8 ⟨4096⟩, .trim 3 6] := by
  constructor
  · refine maps_follow_last_covering_call.1 _ (by decide) (by decide) ?_
    rw [never_overflows_iff]
    decide +kernel
  · refine maps_follow_last_covering_call.2 _ (by decide) (by decide) ?_ ?_
    · rw [never_overflows_iff]
      decide +kernel
    · rw [never_overflows_iff]
      unfold IntSteps
      decide +kernel

def largeBuffer : List (Op SectorPtr) :=
  [.update 0 (2 ^ 23) ⟨2 ^ 40⟩, .update (2 ^ 22) (2 ^ 22 + 1) ⟨2 ^ 41⟩]

/-- No field of the buffer map overflows, but the pointer to the right half of
the buffer is computed from an `int` that does. -/
theorem buffer_pointer_step_overflows :
    (∀ op ∈ largeBuffer, op.WellFormed) ∧ (∀ op ∈ largeBuffer, BufmapKey op.base) ∧
      NeverOverflows BufmapStored largeBuffer ∧
      mappedBy largeBuffer (2 ^ 22 + 1) = some ⟨2 ^ 40 + 2 ^ 31 + 512⟩ ∧
      Extmap.lookup Layout.lba2buf (runOps Layout.lba2buf largeBuffer) (2 ^ 22 + 1) =
        some ⟨2 ^ 40 - 2 ^ 31 + 512⟩ ∧
      ¬Refines Layout.lba2buf BufmapKey largeBuffer := by
  have expected : mappedBy largeBuffer (2 ^ 22 + 1) = some ⟨2 ^ 40 + 2 ^ 31 + 512⟩ := by
    decide +kernel
  have found : Extmap.lookup Layout.lba2buf (runOps Layout.lba2buf largeBuffer) (2 ^ 22 + 1) =
      some ⟨2 ^ 40 - 2 ^ 31 + 512⟩ := by
    decide +kernel
  refine ⟨by decide, by decide, ?_, expected, found, ?_⟩
  · rw [never_overflows_iff]
    decide +kernel
  · intro refines
    have := refines.1 (2 ^ 22 + 1) (by decide)
    rw [expected, found] at this
    revert this
    decide

end LsvdRbd.ExtentMap
