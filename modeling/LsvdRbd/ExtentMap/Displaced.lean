import LsvdRbd.ExtentMap.Canonical
import LsvdRbd.Lib.RunCount

/-!
# Displaced extents

With a `del` list, `_update` appends a record of every part of an extent that
it removes, built before the stored extent is changed. The records are the old
mapping on the range of the call, no more and no less.
-/

namespace LsvdRbd.ExtentMap

open RunList

set_option autoImplicit false

variable {P : Type*} [AddAction ℤ P]

/-- A map whose lists have the right sizes, whose extents are in order, and
whose fields hold every extent exactly. -/
structure Extmap.WellFormed (stored : Extent P → Prop) (m : Extmap P) : Prop where
  shape : m.Shape 256
  ordered : Ordered m.extents
  stored : ∀ e ∈ m.extents, stored e

/-- The records denote the old mapping on `[b, l)`, each address once. -/
structure Reports (m : Extmap P) (b l : ℤ) (del : List (Extent P)) : Prop where
  nonempty : ∀ e ∈ del, 0 < e.len
  disjoint : del.Pairwise fun left right => ∀ x, ¬(left.Contains x ∧ right.Contains x)
  inside : ∀ e ∈ del, b ≤ e.base ∧ e.limit ≤ l
  exact : ∀ x p, (∃ e ∈ del, e.Contains x ∧ p = (x - e.base) +ᵥ e.ptr) ↔
    b ≤ x ∧ x < l ∧ get m.extents x = some p
  total : (del.map Run.len).sum = {x | b ≤ x ∧ x < l ∧ (get m.extents x).isSome}.ncard

theorem ordered_cut_in {b l : ℤ} {runs : List (Extent P)} (ordered : Ordered runs)
    (order : b < l) : Ordered (cutIn b l runs) := by
  apply ordered_flat_map ordered
  · intro run member
    have := ordered.nonempty run member
    unfold Run.inside
    split
    · rw [ordered_singleton, slice_len]
      omega
    · exact Ordered.nil
  · intro run member part inside
    unfold Run.inside at inside
    split at inside
    · rw [List.mem_singleton.mp inside, slice_base, slice_limit]
      exact ⟨le_max_left _ _, min_le_left _ _⟩
    · cases inside

/-- The runs that a cut removes are a full report of what it removes. -/
theorem reports_cut_in {m : Extmap P} (ordered : Ordered m.extents) {b l : ℤ} (order : b < l) :
    Reports m b l (cutIn b l m.extents) := by
  have cutOrdered := ordered_cut_in ordered order
  have parts := cut_in_all (Q := fun _ => True) (fun _ _ _ _ _ _ _ => trivial) order
    ordered.positive (fun _ _ => trivial)
  refine ⟨cutOrdered.positive, ?_, fun e member => (parts e member).2.2, ?_, ?_⟩
  · refine cutOrdered.separated.imp ?_
    rintro left right apart x ⟨inLeft, inRight⟩
    have := inLeft.2
    have := inRight.1
    omega
  · intro x p
    rw [← get_eq_some_iff cutOrdered, get_cut_in]
    split
    · next within => simp [within]
    · next outside =>
        constructor
        · intro impossible
          cases impossible
        · rintro ⟨lower, upper, -⟩
          exact absurd ⟨lower, upper⟩ outside
  · have counted := (mass_eq_ncard (f := fun _ : P => True) (fun _ _ => Iff.rfl) cutOrdered).1
    have sum : mass (fun _ : P => True) (cutIn b l m.extents) =
        ((cutIn b l m.extents).map Run.len).sum := by
      simp [mass]
    rw [← sum, counted]
    congr 2
    ext x
    simp only [get_cut_in, and_true, Set.mem_ofPred_eq]
    split
    · next within => simp [within, Option.isSome_iff_exists]
    · next outside =>
        simp only [reduceCtorEq, exists_false, false_iff]
        rintro ⟨lower, upper, -⟩
        exact outside ⟨lower, upper⟩

variable [DecidableEq P]

/-- The records that a call with a `del` list appends to it. -/
def Op.displaced (L : Layout P) (m : Extmap P) : Op P → List (Extent P)
  | update b l ptr => (m.update 256 L b l ptr).2
  | trim b l => (m.trim 256 L b l).2

theorem Op.displaced_eq {L : Layout P} {m : Extmap P} (shape : m.Shape 256)
    (ordered : Ordered m.extents) (op : Op P) (order : op.base < op.limit)
    (fits : ∀ e ∈ m.extents, L.Fits e) (stored : L.base op.base = op.base)
    (fitsAfter : ∀ e ∈ (op.apply Layout.exact m).extents, L.Fits e) :
    op.displaced L m = cutIn op.base op.limit m.extents := by
  have exactStep := Op.apply_spec shape ordered op (Op.well_formed_of_lt order)
    (fun e _ => Layout.exact_fits e) rfl (fun e _ => Layout.exact_fits e)
  rw [exactStep.1] at fitsAfter
  cases op with
  | update b l ptr =>
      exact (Extmap.update_spec (by omega) shape ordered order ptr fits stored fitsAfter).2.2
  | trim b l => exact (Extmap.trim_spec (by omega) shape ordered (le_of_lt order) fits stored).2.2

theorem Op.displaced_reports {L : Layout P} {stored : Extent P → Prop}
    (storedFits : ∀ e, stored e → L.Fits e) {m : Extmap P} (wellFormed : Extmap.WellFormed stored m)
    (op : Op P) (order : op.base < op.limit) (key : L.base op.base = op.base)
    (storedAfter : ∀ e ∈ (op.apply Layout.exact m).extents, stored e) :
    Reports m op.base op.limit (op.displaced L m) := by
  rw [Op.displaced_eq wellFormed.shape wellFormed.ordered op order
    (fun e member => storedFits e (wellFormed.stored e member)) key
    (fun e member => storedFits e (storedAfter e member))]
  exact reports_cut_in wellFormed.ordered order

/-- Both maps report what a call displaces exactly, as long as no stored field
overflows and, for the buffer map, pointer steps stay within `int`. -/
theorem displaced_extents_reported :
    (∀ (m : Extmap ObjOffset) (op : Op ObjOffset), m.WellFormed ObjmapStored →
      op.base < op.limit → ObjmapKey op.base →
      (∀ e ∈ (op.apply Layout.exact m).extents, ObjmapStored e) →
      Reports m op.base op.limit (op.displaced Layout.lba2obj m)) ∧
    (∀ (m : Extmap SectorPtr) (op : Op SectorPtr),
      m.WellFormed (fun e => BufmapStored e ∧ IntSteps e) →
      op.base < op.limit → BufmapKey op.base →
      (∀ e ∈ (op.apply Layout.exact m).extents, BufmapStored e ∧ IntSteps e) →
      Reports m op.base op.limit (op.displaced Layout.lba2buf m)) := by
  constructor
  · intro m op wellFormed order key storedAfter
    exact Op.displaced_reports (fun e stored => stored.fits) wellFormed op order
      (signed_field_of_range 37 _ key.1 key.2) storedAfter
  · intro m op wellFormed order key storedAfter
    refine Op.displaced_reports ?_ wellFormed op order
      (unsigned_field_of_range 38 _ key.1 key.2) storedAfter
    rintro e ⟨stored, steps⟩
    unfold IntSteps at steps
    exact Layout.lba2buf_fits stored.base stored.limit (by omega)

/-- An update that cuts one extent, covers a second one and cuts a third one
reports three records; a trim inside a buffer reports one. -/
theorem displaced_extents_reported_overlap :
    Reports ⟨[[⟨0, 4, ⟨1, 8⟩⟩, ⟨6, 2, ⟨2, 8⟩⟩, ⟨12, 4, ⟨3, 8⟩⟩]], [16], 3⟩ 2 14
        ([⟨2, 2, ⟨1, 10⟩⟩, ⟨6, 2, ⟨2, 8⟩⟩, ⟨12, 2, ⟨3, 8⟩⟩] : List (Extent ObjOffset)) ∧
      Reports ⟨[[⟨0, 8, ⟨4096⟩⟩]], [8], 1⟩ 3 6 ([⟨3, 3, ⟨5632⟩⟩] : List (Extent SectorPtr)) := by
  constructor
  · have reports := displaced_extents_reported.1
      ⟨[[⟨0, 4, ⟨1, 8⟩⟩, ⟨6, 2, ⟨2, 8⟩⟩, ⟨12, 4, ⟨3, 8⟩⟩]], [16], 3⟩ (.update 2 14 ⟨9, 0⟩)
      ⟨⟨by simp, by decide, rfl, by simp, by simp⟩, ⟨by decide, by decide⟩, by decide⟩
      (by decide) (by decide) (by decide +kernel)
    exact reports
  · have reports := displaced_extents_reported.2 ⟨[[⟨0, 8, ⟨4096⟩⟩]], [8], 1⟩ (.trim 3 6)
      ⟨⟨by simp, by decide, rfl, by simp, by simp⟩, ⟨by decide, by decide⟩,
        by unfold IntSteps; decide⟩
      (by decide) (by decide) (by unfold IntSteps; decide +kernel)
    exact reports

def fourGigabytes : Extmap SectorPtr := ⟨[[⟨0, 2 ^ 23, ⟨2 ^ 40⟩⟩]], [2 ^ 23], 1⟩

/-- Every field holds the extent, but the record of a sector in its middle is
given a pointer that is computed from an `int` that overflows. -/
theorem displaced_pointer_overflows :
    fourGigabytes.WellFormed BufmapStored ∧
      (∀ e ∈ ((Op.trim (2 ^ 22) (2 ^ 22 + 1)).apply Layout.exact fourGigabytes).extents,
        BufmapStored e) ∧
      (Op.trim (2 ^ 22) (2 ^ 22 + 1)).displaced Layout.lba2buf fourGigabytes =
        [⟨2 ^ 22, 1, ⟨2 ^ 40 - 2 ^ 31⟩⟩] ∧
      get fourGigabytes.extents (2 ^ 22) = some ⟨2 ^ 40 + 2 ^ 31⟩ ∧
      ¬Reports fourGigabytes (2 ^ 22) (2 ^ 22 + 1)
        ((Op.trim (2 ^ 22) (2 ^ 22 + 1)).displaced Layout.lba2buf fourGigabytes) := by
  have reported : (Op.trim (2 ^ 22) (2 ^ 22 + 1)).displaced Layout.lba2buf fourGigabytes =
      [⟨2 ^ 22, 1, ⟨2 ^ 40 - 2 ^ 31⟩⟩] := by
    decide +kernel
  have held : get fourGigabytes.extents (2 ^ 22) = some ⟨2 ^ 40 + 2 ^ 31⟩ := by
    decide +kernel
  refine ⟨⟨?_, ?_, by decide⟩, by decide +kernel, reported, held, ?_⟩
  · exact ⟨by simp [fourGigabytes], by decide, rfl, by simp [fourGigabytes], by simp [fourGigabytes]⟩
  · exact ⟨by decide, by decide⟩
  · intro reports
    have found := (reports.exact (2 ^ 22) ⟨2 ^ 40 + 2 ^ 31⟩).mpr ⟨le_refl _, by omega, held⟩
    rw [reported] at found
    revert found
    decide +kernel

end LsvdRbd.ExtentMap
