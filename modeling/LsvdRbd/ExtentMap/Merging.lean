import LsvdRbd.ExtentMap.Canonical
import LsvdRbd.ExtentMap.Pointers

/-!
# How long merged extents get

`adjacent` joins two extents without a look at the width of the length field, and
`relimit` and `rebase` store the sum. The map is right exactly as long as no run of
the plain function reaches the `2^23` sectors that the signed field of `_lba2obj`
cannot hold.
-/

namespace LsvdRbd.ExtentMap

open RunList

set_option autoImplicit false

theorem stored_len_lt (ops : List (Op ObjOffset)) :
    ∀ e ∈ (runOps Layout.lba2obj ops).extents, e.len < 2 ^ 23 := by
  have field : ∀ value : ℤ, signedField 24 value < 2 ^ 23 := by
    intro value
    unfold signedField
    have := Int.bmod_lt (x := value) (m := 2 ^ 24) (by decide)
    omega
  have makes : Layout.lba2obj.Makes fun e => e.len < 2 ^ 23 :=
    ⟨fun _ _ _ _ => field _, fun _ _ _ _ _ => field _, fun _ _ _ => field _, fun _ _ _ => field _⟩
  have every : (runOps Layout.lba2obj ops).Every fun e => e.len < 2 ^ 23 := by
    induction ops using List.reverseRecOn with
    | nil => exact fun list member => absurd member (by simp [runOps, Extmap.empty])
    | append_singleton ops op ih =>
        rw [runOps, List.foldl_append]
        cases op with
        | update b l ptr => exact (ih.update makes b l (field _)).1
        | trim b l => exact (ih.trim makes b l).1
  exact every.extents

/-! ## Runs of the plain function -/

section Length

variable {P : Type*} [AddAction ℤ P]

/-- No run of consecutive addresses with consecutive locations is as long as that. -/
def RunsBelow (bound : ℤ) (f : ℤ → Option P) : Prop :=
  ∀ b ptr, ∃ k, 0 ≤ k ∧ k < bound ∧ f (b + k) ≠ some (k +ᵥ ptr)

/-- A run of the function that starts in a maximal one ends in it. -/
theorem maximal_contains {f : ℤ → Option P} {run : Run P} (maximal : Maximal f run) {b n : ℤ}
    {ptr : P} (starts : run.Contains b) (same : ptr = (b - run.base) +ᵥ run.ptr)
    (goesOn : ∀ k, 0 ≤ k → k < n → f (b + k) = some (k +ᵥ ptr)) : b + n ≤ run.limit := by
  by_contra beyond
  have limit : run.limit = run.base + run.len := rfl
  have last := starts.2
  have atLimit := goesOn (run.limit - b) (by omega) (by omega)
  apply maximal.right
  rw [add_sub_cancel, same, vadd_vadd] at atLimit
  rw [atLimit, show run.limit - b + (b - run.base) = run.len by omega]

variable [DecidableEq P]

/-- The extents of the exact map are the maximal runs of the plain function. -/
theorem exact_run_maximal (ops : List (Op P)) (order : ∀ op ∈ ops, op.base < op.limit) :
    Ordered (runOps Layout.exact ops).extents ∧
      (∀ x, get (runOps Layout.exact ops).extents x = mappedBy ops x) ∧
      ∀ e, e ∈ (runOps Layout.exact ops).extents ↔ Maximal (mappedBy ops) e := by
  obtain ⟨-, -, ordered, -, denotes⟩ := run_spec (L := Layout.exact) ops
    (fun op member => Op.well_formed_of_lt (order op member)) (fun _ _ => rfl)
    (fun _ _ e _ => Layout.exact_fits e)
  refine ⟨ordered, denotes, fun e => ?_⟩
  rw [mem_iff_maximal ordered (run_merged ops order), funext denotes]

theorem exact_len_lt_iff (ops : List (Op P)) (order : ∀ op ∈ ops, op.base < op.limit) {bound : ℤ}
    (positive : 0 < bound) :
    (∀ e ∈ (runOps Layout.exact ops).extents, e.len < bound) ↔ RunsBelow bound (mappedBy ops) := by
  obtain ⟨ordered, denotes, maximal⟩ := exact_run_maximal ops order
  constructor
  · intro short b ptr
    by_contra everywhere
    push Not at everywhere
    have here := everywhere 0 le_rfl positive
    rw [add_zero, zero_vadd, ← denotes, get_eq_some_iff ordered] at here
    obtain ⟨e, member, contains, same⟩ := here
    have reaches := maximal_contains ((maximal e).mp member) contains same everywhere
    have := short e member
    have : e.limit = e.base + e.len := rfl
    have := contains.1
    omega
  · intro below e member
    by_contra long
    obtain ⟨k, lower, upper, differs⟩ := below e.base e.ptr
    apply differs
    have limit : e.limit = e.base + e.len := rfl
    rw [((maximal e).mp member).inside (e.base + k) ⟨by omega, by omega⟩, add_sub_cancel_left]

end Length

/-! ## The object map -/

/-- A call each of whose own fields fits: an update as long as the length field
allows, with its addresses and its offsets in range. -/
def Op.Small : Op ObjOffset → Prop
  | update b l ptr => b < l ∧ ObjmapStored ⟨b, l - b, ptr⟩
  | trim b l => b < l ∧ ObjmapKey b

instance (op : Op ObjOffset) : Decidable op.Small :=
  match op with
  | .update _ _ _ => inferInstanceAs (Decidable (_ ∧ _))
  | .trim _ _ => inferInstanceAs (Decidable (_ ∧ _))

theorem Op.Small.order {op : Op ObjOffset} (small : op.Small) : op.base < op.limit := by
  cases op with
  | update b l ptr => exact small.1
  | trim b l => exact small.1

theorem Op.Small.key {op : Op ObjOffset} (small : op.Small) : ObjmapKey op.base := by
  cases op with
  | update b l ptr =>
      have limit := small.2.limit
      have order := small.1
      simp only [Run.limit] at limit
      exact ⟨small.2.base, by simp only [Op.base]; omega⟩
  | trim b l => exact small.2

structure FieldRange (e : Extent ObjOffset) : Prop where
  base : -2 ^ 37 ≤ e.base
  limit : e.limit ≤ 2 ^ 37
  objLower : -2 ^ 35 ≤ e.ptr.obj
  objUpper : e.ptr.obj < 2 ^ 35
  offsetLower : -2 ^ 27 ≤ e.ptr.offset
  offsetUpper : e.ptr.offset + e.len < 2 ^ 27

theorem FieldRange.slice {e : Extent ObjOffset} {b l : ℤ} (inRange : FieldRange e) (start : e.base ≤ b)
    (stop : l ≤ e.limit) : FieldRange (e.slice b l) := by
  obtain ⟨base, limit, objLower, objUpper, offsetLower, offsetUpper⟩ := inRange
  have whole : e.limit = e.base + e.len := rfl
  exact ⟨by rw [slice_base]; omega, by rw [slice_limit]; omega, objLower, objUpper,
    by rw [slice_ptr, vadd_offset]; omega, by rw [slice_ptr, vadd_offset, slice_len]; omega⟩

theorem FieldRange.join {left right : Extent ObjOffset} (leftRange : FieldRange left)
    (rightRange : FieldRange right) (joins : Joins left right) : FieldRange (left.join right) := by
  have offset := congrArg ObjOffset.offset joins.2
  rw [vadd_offset] at offset
  have upper := rightRange.offsetUpper
  exact ⟨leftRange.base, by rw [join_limit joins]; exact rightRange.limit, leftRange.objLower,
    leftRange.objUpper, leftRange.offsetLower, by simp only [Run.join]; omega⟩

theorem exact_run_in_range (ops : List (Op ObjOffset)) (small : ∀ op ∈ ops, op.Small) :
    ∀ e ∈ (runOps Layout.exact ops).extents, FieldRange e := by
  induction ops using List.reverseRecOn with
  | nil => simp [runOps, Extmap.empty, Extmap.extents]
  | append_singleton ops op ih =>
      have opSmall := small op (by simp)
      have earlier := ih fun other member => small other (by simp [member])
      obtain ⟨ordered, step⟩ := exact_run_snoc ops op fun other member => (small other member).order
      rw [step]
      have slices : ∀ (run : Extent ObjOffset) (b l : ℤ), FieldRange run → run.base ≤ b → b < l →
          l ≤ run.limit → FieldRange (run.slice b l) :=
        fun run b l inRange start _ stop => inRange.slice start stop
      cases op with
      | update b l ptr =>
          obtain ⟨order, stored⟩ := opSmall
          exact overwrite_all slices (fun left right => FieldRange.join) ordered order ptr earlier
            ⟨stored.base, stored.limit, stored.objLower, stored.objUpper, stored.offsetLower,
              stored.offsetUpper⟩
      | trim b l => exact cut_out_all slices ordered.positive earlier

/-- What the calls should leave: the stored extents are the merged runs of the plain
function, each with its true length, and lookups and scans answer as that function. -/
structure MergesExactly (ops : List (Op ObjOffset)) : Prop where
  lengths : ∀ e, e ∈ (runOps Layout.lba2obj ops).extents ↔ Maximal (mappedBy ops) e
  answers : Refines Layout.lba2obj ObjmapKey ops

/-- Merging is exact all along a sequence of calls exactly if no run of the plain
function ever reaches `2^23` sectors. -/
theorem merging_exact_iff (ops : List (Op ObjOffset)) (small : ∀ op ∈ ops, op.Small) :
    (∀ seen, seen <+: ops → MergesExactly seen) ↔
      ∀ seen, seen <+: ops → RunsBelow (2 ^ 23) (mappedBy seen) := by
  have order : ∀ seen, seen <+: ops → ∀ op ∈ seen, op.base < op.limit :=
    fun seen earlier op member => (small op (earlier.subset member)).order
  constructor
  · intro exact seen earlier
    rw [← exact_len_lt_iff seen (order seen earlier) (by norm_num)]
    intro e member
    apply stored_len_lt seen
    exact ((exact seen earlier).lengths e).mpr
      (((exact_run_maximal seen (order seen earlier)).2.2 e).mp member)
  · intro below
    have stored : NeverOverflows ObjmapStored ops := by
      intro seen earlier e member
      have inRange := exact_run_in_range seen (fun op inSeen => small op (earlier.subset inSeen)) e
        member
      have short := (exact_len_lt_iff seen (order seen earlier) (by norm_num)).mpr
        (below seen earlier) e member
      exact ⟨inRange.base, inRange.limit, short, inRange.objLower, inRange.objUpper,
        inRange.offsetLower, inRange.offsetUpper⟩
    intro seen earlier
    have run : ObjmapRun seen := ⟨order seen earlier,
      fun op member => (small op (earlier.subset member)).key,
      fun before inSeen => stored before (inSeen.trans earlier)⟩
    have keyStored : ∀ x, ObjmapKey x → Layout.lba2obj.base x = x :=
      fun x key => signed_field_of_range 37 x key.1 key.2
    have fits : NeverOverflows Layout.lba2obj.Fits seen :=
      fun before inSeen e member => (run.stored before inSeen e member).fits
    have wellFormed : ∀ op ∈ seen, op.WellFormed :=
      fun op member => Op.well_formed_of_lt (run.order op member)
    constructor
    · obtain ⟨-, -, -, same, -⟩ := run_spec seen wellFormed
        (fun op member => keyStored _ (run.keys op member)) fits
      rw [same]
      exact (exact_run_maximal seen run.order).2.2
    · exact run_refines keyStored seen wellFormed run.keys fits

def pluggedUpdates : List (Op ObjOffset) :=
  [.update 4 8 ⟨1, 12⟩, .update 8 16 ⟨1, 16⟩, .update 0 4 ⟨1, 8⟩]

theorem merging_exact_plugged :
    MergesExactly pluggedUpdates ∧
      (runOps Layout.lba2obj pluggedUpdates).extents = [⟨0, 16, ⟨1, 8⟩⟩] := by
  have order : ∀ op ∈ pluggedUpdates, op.base < op.limit := by decide
  have short : ∀ seen ∈ pluggedUpdates.inits, ∀ e ∈ (runOps Layout.exact seen).extents,
      e.len < 2 ^ 23 := by
    decide +kernel
  refine ⟨(merging_exact_iff pluggedUpdates (by decide)).mpr ?_ _ (List.prefix_refl _),
    by decide +kernel⟩
  intro seen earlier
  rw [← exact_len_lt_iff seen (fun op member => order op (earlier.subset member)) (by norm_num)]
  exact short seen ((List.mem_inits _ _).mpr earlier)

def adjacentHalves : List (Op ObjOffset) :=
  [.update 0 (2 ^ 22) ⟨1, 0⟩, .update (2 ^ 22) (2 ^ 23) ⟨1, 2 ^ 22⟩]

/-- Every field of either update fits, but the length of the merged extent is
stored as a negative number; the map no longer finds any of its addresses. -/
theorem merged_length_overflows :
    (∀ op ∈ adjacentHalves, op.Small) ∧
      (runOps Layout.lba2obj adjacentHalves).extents = [⟨0, -2 ^ 23, ⟨1, 0⟩⟩] ∧
      mappedBy adjacentHalves 0 = some ⟨1, 0⟩ ∧
      Extmap.lookup Layout.lba2obj (runOps Layout.lba2obj adjacentHalves) 0 = none ∧
      ¬MergesExactly adjacentHalves := by
  have expected : mappedBy adjacentHalves 0 = some ⟨1, 0⟩ := by decide +kernel
  have found : Extmap.lookup Layout.lba2obj (runOps Layout.lba2obj adjacentHalves) 0 = none := by
    decide +kernel
  refine ⟨by decide, by decide +kernel, expected, found, ?_⟩
  intro exact
  have same := exact.answers.1 0 (by decide)
  rw [expected, found] at same
  exact absurd same (by decide)

end LsvdRbd.ExtentMap
