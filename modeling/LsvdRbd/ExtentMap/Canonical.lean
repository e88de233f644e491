import LsvdRbd.ExtentMap.Refinement
import LsvdRbd.Lib.MaximalRuns

/-!
# The map is always maximally merged

`_update` looks for a neighbour to merge with only where it inserts. That is
enough: from an empty map on, no two neighbours are ever adjacent, so that the
extents met from `begin()` to `end()` are the maximal runs of the function that
the map stands for, however the calls arrived at it.
-/

namespace LsvdRbd.ExtentMap

open RunList

set_option autoImplicit false

namespace Extmap

variable {P : Type*}

/-- The extents met by `for (it = begin(); it != end(); it++)`. -/
def iterate (m : Extmap P) : List (Extent P) := m.walk m.count beginIter

theorem At.begin {load : ℕ} {m : Extmap P} (shape : m.Shape load) :
    At m beginIter [] m.extents := by
  unfold At
  rcases listsEq : m.lists with _ | ⟨list, rest⟩
  · exact Or.inl ⟨rfl, rfl, rfl, by simp [extents, listsEq]⟩
  · refine Or.inr ⟨[], [], list, rest, rfl, rfl, rfl, by simp [extents, listsEq], ?_⟩
    intro none
    exact absurd none (shape.nonempty list (by simp [listsEq]))

theorem iterate_eq {load : ℕ} {m : Extmap P} (shape : m.Shape load) : m.iterate = m.extents :=
  walk_eq shape _ (At.begin shape) (by rw [shape.count])

end Extmap

namespace Op

variable {P : Type*}

def limit : Op P → ℤ
  | update _ l _ => l
  | trim _ l => l

theorem well_formed_of_lt {op : Op P} (order : op.base < op.limit) : op.WellFormed := by
  cases op with
  | update b l ptr => exact order
  | trim b l => exact le_of_lt order

theorem merged_runs [AddAction ℤ P] [DecidableEq P] {extents : List (Extent P)}
    (ordered : Ordered extents) (merged : Merged extents) (op : Op P)
    (order : op.base < op.limit) : Merged (op.runs extents) := by
  cases op with
  | update b l ptr => exact merged_overwrite ordered order ptr merged
  | trim b l => exact merged_cut_out order ordered merged

end Op

section Runs

variable {P : Type*} [AddAction ℤ P] [DecidableEq P]

theorem exact_run_snoc (ops : List (Op P)) (op : Op P)
    (order : ∀ other ∈ ops ++ [op], other.base < other.limit) :
    Ordered (runOps Layout.exact ops).extents ∧
      (runOps Layout.exact (ops ++ [op])).extents = op.runs (runOps Layout.exact ops).extents := by
  obtain ⟨-, shape, ordered, -, -⟩ := run_spec (L := Layout.exact) ops
    (fun other member => Op.well_formed_of_lt (order other (by simp [member]))) (fun _ _ => rfl)
    (fun _ _ e _ => Layout.exact_fits e)
  have step := Op.apply_spec shape ordered op (Op.well_formed_of_lt (order op (by simp)))
    (fun e _ => Layout.exact_fits e) rfl (fun e _ => Layout.exact_fits e)
  have snoc : runOps Layout.exact (ops ++ [op]) =
      op.apply Layout.exact (runOps Layout.exact ops) := by
    simp [runOps, List.foldl_append]
  rw [snoc]
  exact ⟨ordered, step.1⟩

theorem run_merged (ops : List (Op P)) (order : ∀ op ∈ ops, op.base < op.limit) :
    Merged (runOps Layout.exact ops).extents := by
  induction ops using List.reverseRecOn with
  | nil => exact List.IsChain.nil
  | append_singleton ops op ih =>
      obtain ⟨ordered, step⟩ := exact_run_snoc ops op order
      rw [step]
      exact Op.merged_runs ordered (ih fun other member => order other (by simp [member])) op
        (order op (by simp))

end Runs

/-- Calls on an empty object map that never overflow a bit-field. -/
structure ObjmapRun (ops : List (Op ObjOffset)) : Prop where
  order : ∀ op ∈ ops, op.base < op.limit
  keys : ∀ op ∈ ops, ObjmapKey op.base
  stored : NeverOverflows ObjmapStored ops

theorem ObjmapStored.fits {e : Extent ObjOffset} (stored : ObjmapStored e) :
    Layout.lba2obj.Fits e :=
  Layout.lba2obj_fits stored.base stored.limit stored.len stored.objLower stored.objUpper
    stored.offsetLower stored.offsetUpper

/-- What the calls leave: the extents in iteration order are ordered, merged,
within the bounds, and denote the plain function. -/
theorem ObjmapRun.iterated {ops : List (Op ObjOffset)} (run : ObjmapRun ops) :
    (runOps Layout.lba2obj ops).iterate = (runOps Layout.lba2obj ops).extents ∧
      Ordered (runOps Layout.lba2obj ops).extents ∧ Merged (runOps Layout.lba2obj ops).extents ∧
      (∀ e ∈ (runOps Layout.lba2obj ops).extents, ObjmapStored e) ∧
      ∀ x, get (runOps Layout.lba2obj ops).extents x = mappedBy ops x := by
  obtain ⟨shape, -, ordered, same, denotes⟩ := run_spec ops
    (fun op member => Op.well_formed_of_lt (run.order op member))
    (fun op member => signed_field_of_range 37 _ (run.keys op member).1 (run.keys op member).2)
    (fun seen earlier e member => (run.stored seen earlier e member).fits)
  have merged := run_merged ops run.order
  rw [← same] at merged
  refine ⟨Extmap.iterate_eq shape, ordered, merged, ?_, denotes⟩
  intro e member
  rw [same] at member
  exact run.stored ops (List.prefix_refl _) e member

theorem ObjmapRun.separate {ops : List (Op ObjOffset)} (run : ObjmapRun ops) :
    Ordered (runOps Layout.lba2obj ops).extents ∧
      (runOps Layout.lba2obj ops).extents.IsChain
        (fun left right => Layout.lba2obj.adjacent left right = false ∧
          ¬(left.limit = right.base ∧ left.len +ᵥ left.ptr = right.ptr)) ∧
      ∀ e ∈ (runOps Layout.lba2obj ops).extents, ObjmapStored e := by
  obtain ⟨-, ordered, merged, stored, -⟩ := run.iterated
  refine ⟨ordered, List.IsChain.imp_of_mem_imp ?_ merged, stored⟩
  intro left right inLeft _ apart
  refine ⟨?_, apart⟩
  rw [Bool.eq_false_iff, ne_eq,
    (stored left inLeft).fits.adjacent_iff (ordered.positive left inLeft)]
  exact apart

/-- After any calls no two neighbours are adjacent; the extents from `begin()`
to `end()` are the maximal runs of the plain function in increasing order, and
two sequences of calls with the same net effect leave the same extents. -/
theorem extents_are_maximal_runs (ops : List (Op ObjOffset)) (run : ObjmapRun ops) :
    (runOps Layout.lba2obj ops).iterate.IsChain
        (fun left right => Layout.lba2obj.adjacent left right = false ∧
          ¬(left.limit = right.base ∧ left.len +ᵥ left.ptr = right.ptr)) ∧
      Ordered (runOps Layout.lba2obj ops).iterate ∧
      (∀ e, e ∈ (runOps Layout.lba2obj ops).iterate ↔ Maximal (mappedBy ops) e) ∧
      ∀ others, ObjmapRun others → (∀ x, mappedBy others x = mappedBy ops x) →
        (runOps Layout.lba2obj others).iterate = (runOps Layout.lba2obj ops).iterate := by
  obtain ⟨same, ordered, merged, -, denotes⟩ := run.iterated
  rw [same]
  refine ⟨run.separate.2.1, ordered, ?_, ?_⟩
  · intro e
    rw [mem_iff_maximal ordered merged, funext denotes]
  · intro others otherRun sameEffect
    obtain ⟨otherSame, otherOrdered, otherMerged, -, otherDenotes⟩ := otherRun.iterated
    rw [otherSame]
    apply eq_of_get_eq otherOrdered ordered otherMerged merged
    intro x
    rw [otherDenotes, denotes, sameEffect]

/-- A hole that is plugged, and the same range written at once. -/
theorem extents_are_maximal_runs_plugged :
    ObjmapRun [.update 0 2 ⟨1, 8⟩, .update 4 8 ⟨1, 12⟩, .update 2 4 ⟨1, 10⟩] ∧
      (runOps Layout.lba2obj [.update 0 2 ⟨1, 8⟩, .update 4 8 ⟨1, 12⟩, .update 2 4 ⟨1, 10⟩]).iterate =
        (runOps Layout.lba2obj [.update 0 8 ⟨1, 8⟩]).iterate := by
  have plugged : ObjmapRun [.update 0 2 ⟨1, 8⟩, .update 4 8 ⟨1, 12⟩, .update 2 4 ⟨1, 10⟩] :=
    ⟨by decide, by decide, (never_overflows_iff _ _).mpr (by decide +kernel)⟩
  have atOnce : ObjmapRun [.update 0 8 ⟨1, 8⟩] :=
    ⟨by decide, by decide, (never_overflows_iff _ _).mpr (by decide +kernel)⟩
  refine ⟨plugged, (extents_are_maximal_runs _ atOnce).2.2.2 _ plugged ?_⟩
  intro x
  have cases : x < 0 ∨ 8 ≤ x ∨ (0 ≤ x ∧ x < 8) := by omega
  simp only [mappedBy, lastCovering, List.reverse_cons, List.reverse_nil, List.nil_append,
    List.cons_append, List.find?_cons, List.find?_nil, Op.Covers]
  rcases cases with below | above | inside
  · simp [show ¬2 ≤ x by omega, show ¬4 ≤ x by omega, show ¬0 ≤ x by omega]
  · simp [show ¬x < 2 by omega, show ¬x < 4 by omega, show ¬x < 8 by omega]
  · by_cases first : x < 2
    · simp [first, show ¬2 ≤ x by omega, show ¬4 ≤ x by omega, inside, Op.location]
    · by_cases second : x < 4
      · simp [second, show 2 ≤ x by omega, inside, Op.location, ObjOffset.ext_iff]
        omega
      · simp [second, show 4 ≤ x by omega, inside, Op.location, ObjOffset.ext_iff]
        omega

end LsvdRbd.ExtentMap
