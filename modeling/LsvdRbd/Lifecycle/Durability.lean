import LsvdRbd.Lifecycle.Deletion
import LsvdRbd.Lifecycle.Remains

/-!
# Flushed writes survive

An image is opened, written, flushed, checkpointed, closed and lost in crashes, any
number of times. Once it has a checkpoint, opening it after a crash gives the volume
at the last flush that returned, or a later one, or it fails. Before its first
checkpoint all of it is lost.
-/

namespace LsvdRbd.Lifecycle

open Records RunList ExtentMap Format Translate Recovery Session Machine

set_option autoImplicit false

variable {σ : Type*}

structure Diary (σ : Type*) where
  world : World σ
  pledge : Pledge σ

namespace Diary

def create (zero : σ) : Diary σ := ⟨World.create, ⟨[], fun _ => zero, []⟩⟩

/-- A session owes from its start on what it was opened with. -/
def record (zero : σ) (p : Pledge σ) (w : World σ) (e : Event σ) (w' : World σ) : Pledge σ :=
  match e, w, w' with
  | .launch _ _, _, .opened _ tx => ⟨[], imageContent zero tx.store tx.maps.objmap, []⟩
  | .act a, .opened _ tx, .opened _ tx' => p.act tx tx' a
  | _, _, _ => p

def step (crc32 : Bytes → ℕ) (uuid : ℕ) (zero : σ) (h : Diary σ) (e : Event σ) : Option (Diary σ) :=
  (Lifecycle.step crc32 uuid h.world e).map fun w => ⟨w, record zero h.pledge h.world e w⟩

/-- There are no trims and no garbage collection, addresses, numbers and objects are within
the limits of the formats, and a checkpoint is taken while no PUT is outstanding. -/
def Careful (window : ℕ) (h : Diary σ) (e : Event σ) : Prop :=
  h.world.Within window (fun tx a => PlainInRange tx a ∧ Settled tx a) e ∧
    match e with
    | .launch cfg _ => cfg.objBytes < 2 ^ 31
    | _ => True

instance (window : ℕ) (h : Diary σ) (e : Event σ) : Decidable (Careful window h e) := by
  unfold Careful
  induction e using Event.casesOn <;> infer_instance

def Kept (crc32 : Bytes → ℕ) (uuid window : ℕ) (zero : σ) (h : Diary σ) : Prop :=
  match h.world with
  | .closed backend => Sealed uuid backend ∧ Short window backend ∧
      ∃ stop view, Remains uuid zero h.pledge.since stop view backend
  | .opened cfg tx => (cfg.env crc32 uuid).Ok ∧ tx.Durable (cfg.env crc32 uuid) zero h.pledge

theorem create_kept (crc32 : Bytes → ℕ) (uuid window : ℕ) (zero : σ) :
    (create zero).Kept crc32 uuid window zero := by
  refine ⟨create_sealed uuid, ⟨by simp, by simp⟩, 1, fun _ _ => none, ?_⟩
  refine ⟨by simp [Backend.base], by norm_num, by simp; rfl, ?_, by simp, ?_, by simp, by simp⟩
  · intro n after before
    have positive : 0 < n := after
    omega
  · exact ⟨fun _ => zero, by simp [create, Pledge.since], fun _ => rfl⟩

theorem Kept.step {crc32 : Bytes → ℕ} {uuid window : ℕ} {zero : σ} {h h' : Diary σ} {e : Event σ}
    (kept : h.Kept crc32 uuid window zero) (uuidBound : uuid < 2 ^ 128) (positive : 0 < window)
    (careful : Careful window h e) (stepped : h.step crc32 uuid zero e = some h') :
    h'.Kept crc32 uuid window zero := by
  obtain ⟨world, p⟩ := h
  obtain ⟨w, moved, rfl⟩ := Option.map_eq_some_iff.mp stepped
  cases step_cases moved with
  | launch recovered =>
      obtain ⟨isSealed, short, stop, view, remains⟩ := kept
      obtain ⟨⟨atLeast, limit⟩, small⟩ := careful
      exact ⟨⟨uuidBound, small⟩,
        remains.launched isSealed short uuidBound small atLeast limit recovered _⟩
  | abandonIdle => exact kept
  | abandonDeleting recovered listed few =>
      obtain ⟨isSealed, short, stop, view, remains⟩ := kept
      obtain ⟨⟨atLeast, limit⟩, -⟩ := careful
      have found := recover_cases recovered
      have restored := isSealed.restored uuidBound found
      have bound := restored.bound
      have reopens := remains.reopens short uuidBound recovered
      exact ⟨isSealed.delete_first restored.before (by omega),
        Lineage.Short.delete_first short isSealed found listed (by omega), stop, view,
        remains.delete_first reopens.last restored.before (by omega)⟩
  | act taken =>
      rename_i cfg tx tx' a
      obtain ⟨envOk, durable⟩ := kept
      obtain ⟨⟨inRange, settled⟩, -⟩ := careful
      obtain ⟨next, took, same⟩ := Option.map_eq_some_iff.mp moved
      obtain ⟨-, rfl⟩ := World.opened.inj same
      exact ⟨envOk, durable.step envOk inRange settled took⟩
  | crash =>
      rename_i cfg tx
      obtain ⟨envOk, durable⟩ := kept
      obtain ⟨⟨blank, few⟩, -⟩ := careful
      exact ⟨sealed_of_guarded durable.guarded,
        Lineage.Short.of_crash positive durable.dense durable.early blank few,
        Remains.of_crash durable uuidBound⟩

end Diary

end LsvdRbd.Lifecycle
