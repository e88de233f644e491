import LsvdRbd.Lifecycle.Deletion
import LsvdRbd.Lifecycle.Remains

/-!
# Opening an image again

`roll_forward_from_last_checkpoint` deletes objects while it opens an image, and an open
can be cut short after any of these deletes. They never touch what the open has read, so
that the next open finds the same maps, the same table and the same last number. This goes
on for as long as no session has changed the backend, whatever it did in memory.
-/

namespace LsvdRbd.Lifecycle

open Records RunList ExtentMap Format Translate Recovery Session Machine

set_option autoImplicit false

variable {σ : Type*}

/-! ## A replay of fewer objects -/

section Replay

variable {store store' : Store σ} {fuel seq stop : ℕ} {s image : Image}

theorem replay_ends
    (ran : replay (fun n => applyLog store[n]? n) fuel seq s = some (.ok (image, stop))) :
    readDataHdr store[stop]? = .ok none := by
  refine replay_induction (motive := fun _ _ _ => readDataHdr store[stop]? = .ok none) ?_ ?_ ran
  · intro fuel applied
    rcases apply_log_cases applied with ⟨read, -⟩ | ⟨parsed, info, -, -, absurd⟩
    · exact read
    · cases absurd
  · intro fuel seq s next _ _ later
    exact later

/-- A replay reads the numbers up to the one at which it ends, and no others. -/
theorem replay_agree (stored : ∀ (n : ℕ) (obj : Obj σ), store[n]? = some obj → n < 2 ^ 31)
    (ran : replay (fun n => applyLog store[n]? n) fuel seq s = some (.ok (image, stop)))
    (bound : seq ≤ 2 ^ 31) (same : ∀ n, seq ≤ n → n < stop → store'[n]? = store[n]?)
    (ends : readDataHdr store'[stop]? = .ok none) {fuel' : ℕ} (enough : stop < seq + fuel') :
    replay (fun n => applyLog store'[n]? n) fuel' seq s = some (.ok (image, stop)) := by
  revert bound same fuel'
  refine replay_induction (motive := fun _ seq s => seq ≤ 2 ^ 31 →
    (∀ n, seq ≤ n → n < stop → store'[n]? = store[n]?) → ∀ {fuel'}, stop < seq + fuel' →
      replay (fun n => applyLog store'[n]? n) fuel' seq s = some (.ok (image, stop))) ?_ ?_ ran
  · intro fuel _ _ _ fuel' enough
    obtain ⟨fuel', rfl⟩ : ∃ rest, fuel' = rest + 1 := ⟨fuel' - 1, by omega⟩
    have applied : applyLog store'[stop]? stop image = .ok none := by
      rw [applyLog, ends]
      rfl
    rw [replay, applied]
  · intro fuel seq s next applied ran later _ same fuel' enough
    obtain ⟨obj, present⟩ := apply_log_present applied
    have small := stored seq obj present
    rw [next_seq_eq small] at ran later
    have further := (replay_range stored (by omega) ran).1
    obtain ⟨fuel', rfl⟩ : ∃ rest, fuel' = rest + 1 := ⟨fuel' - 1, by omega⟩
    rw [replay, same seq (le_refl _) (by omega), applied]
    simp only [next_seq_eq small]
    exact later (by omega) (fun n lower => same n (by omega)) (by omega)

end Replay

/-! ## What an open finds -/

/-- Opening gives these maps and this last number, whatever window it uses. -/
def Backend.Finds (backend : Backend σ) (image : Image) (last : ℕ) : Prop :=
  ∀ window, ∃ store, recover window backend.super backend.store = some (.ok (image, last, store))

variable {image : Image}

theorem Backend.finds_of_recover {backend : Backend σ} {window last : ℕ} {store : Store σ}
    (recovered : recover window backend.super backend.store = some (.ok (image, last, store))) :
    backend.Finds image last := by
  intro window'
  cases recover_cases recovered with
  | blank none =>
      refine ⟨backend.store, ?_⟩
      rw [none]
      rfl
  | replayed isLast read ran =>
      rename_i ckpt stop loaded
      refine ⟨deleteDangling window' (prevSeq stop) backend.store, ?_⟩
      rw [recover_newest isLast read, ran]
      rfl

theorem Backend.Finds.delete_first {backend : Backend σ} {last count : ℕ}
    (finds : backend.Finds image last)
    (stored : ∀ (n : ℕ) (obj : Obj σ), backend.store[n]? = some obj → n < 2 ^ 31)
    (listed : backend.super ≠ []) (bound : count < 2 ^ 31) :
    ({ backend with store := deleteFirst count last backend.store } : Backend σ).Finds image last ∧
      ∀ n ≤ last, (deleteFirst count last backend.store)[n]? = backend.store[n]? := by
  obtain ⟨store, found⟩ := finds 0
  cases recover_cases found with
  | blank none => exact absurd none listed
  | replayed isLast read ran =>
      rename_i ckpt stop loaded
      have present : ∃ obj, backend.store[ckpt]? = some obj := by
        cases here : backend.store[ckpt]? with
        | none =>
            rw [here] at read
            cases read
        | some obj => exact ⟨obj, rfl⟩
      obtain ⟨obj, here⟩ := present
      have small := stored ckpt obj here
      have next : nextSeq ckpt = ckpt + 1 := next_seq_eq small
      rw [next] at ran
      obtain ⟨further, high⟩ := replay_range stored (by omega) ran
      have isPrev : prevSeq stop = stop - 1 := prev_seq_pred (by omega) high
      have before : ∀ n ≤ prevSeq stop,
          (deleteFirst count (prevSeq stop) backend.store)[n]? = backend.store[n]? :=
        fun n early => delete_first_before _ early (by omega)
      refine ⟨?_, before⟩
      -- the first number that was not replayed is still not data, whether or not it is deleted
      have ends : readDataHdr (deleteFirst count (prevSeq stop) backend.store)[stop]? = .ok none := by
        rw [delete_first_lookup]
        split
        · rfl
        · exact replay_ends ran
      have applied : ∀ j < stop - (ckpt + 1), ∃ obj,
          (deleteFirst count (prevSeq stop) backend.store)[ckpt + 1 + j]? = some obj := by
        intro j inside
        rw [before _ (by omega)]
        exact reads_as_data_present ((replay_reads stored ran).2 _ (by omega) (by omega))
      have enough := count_le_size _ _ _ applied
      have again := replay_agree stored ran (by omega) (fun n lower upper => before n (by omega)) ends
        (show stop < ckpt + 1 +
          ((deleteFirst count (prevSeq stop) backend.store).size + 1) by omega)
      rw [← before ckpt (by omega)] at read
      have foundAgain : recover 0 backend.super (deleteFirst count (prevSeq stop) backend.store) =
          some (.ok (image, prevSeq stop, deleteDangling 0 (prevSeq stop)
            (deleteFirst count (prevSeq stop) backend.store))) := by
        rw [recover_newest isLast read, next, again]
        rfl
      exact Backend.finds_of_recover foundAgain

/-! ## Sessions that leave the backend alone -/

def Event.inMemory : Event σ → Bool
  | .act .ckptStep | .act (.complete _) | .act (.gcReap _) | .act .gcDelete => false
  | _ => true

theorem act_in_memory {env : Env} {tx tx' : Tx σ} {a : Action σ} (quiet : (Event.act a).inMemory = true)
    (taken : Tx.Stepped env tx a tx') : tx'.store = tx.store ∧ tx'.super = tx.super := by
  cases taken with
  | write rolled => cases rolled <;> exact ⟨rfl, rfl⟩
  | flush rolled => cases rolled <;> exact ⟨rfl, rfl⟩
  | checkpoint rolled => cases rolled <;> exact ⟨rfl, rfl⟩
  | flushThread rolled => cases rolled <;> exact ⟨rfl, rfl⟩
  | trim done => exact ⟨rfl, rfl⟩
  | work free worked => cases worked <;> exact ⟨rfl, rfl⟩
  | ckpt busy done => cases quiet
  | complete member => cases quiet
  | collect collected =>
      cases collected with
      | checkpoint phase rolled => cases rolled <;> exact ⟨rfl, rfl⟩
      | reap | delete | finish => cases quiet
      | _ => exact ⟨rfl, rfl⟩

/-- The same open finds the same, in this state or after a crash. -/
structure Unchanged (first : Backend σ) (image : Image) (last : ℕ) (backend : Backend σ) : Prop where
  super : backend.super = first.super
  finds : backend.Finds image last
  stored : ∀ (n : ℕ) (obj : Obj σ), backend.store[n]? = some obj → n < 2 ^ 31
  same : ∀ n ≤ last, backend.store[n]? = first.store[n]?

theorem Unchanged.delete_first {first backend : Backend σ} {last count : ℕ}
    (unchanged : Unchanged first image last backend) (listed : backend.super ≠ [])
    (bound : count < 2 ^ 31) :
    Unchanged first image last { backend with store := deleteFirst count last backend.store } := by
  obtain ⟨finds, kept⟩ := unchanged.finds.delete_first unchanged.stored listed bound
  exact ⟨unchanged.super, finds,
    fun n obj present => unchanged.stored n obj (delete_first_present present),
    fun n early => (kept n early).trans (unchanged.same n early)⟩

def Event.narrow : Event σ → Prop
  | .launch cfg _ | .abandon cfg _ => cfg.window * 4 ≤ 2 ^ 31
  | _ => True

theorem Unchanged.step {crc32 : Bytes → ℕ} {uuid : ℕ} {first : Backend σ} {last : ℕ}
    {w w' : World σ} {e : Event σ} (unchanged : Unchanged first image last w.backend)
    (quiet : e.inMemory = true) (narrow : e.narrow) (stepped : step crc32 uuid w e = some w') :
    Unchanged first image last w'.backend := by
  cases step_cases stepped with
  | launch recovered =>
      rename_i backend cfg addr image' last' store
      change cfg.window * 4 ≤ 2 ^ 31 at narrow
      obtain ⟨store', again⟩ := unchanged.finds cfg.window
      obtain ⟨rfl, rfl, rfl⟩ : image' = image ∧ last' = last ∧ store = store' := by
        simpa using recovered.symm.trans again
      cases recover_cases recovered with
      | blank none => exact unchanged
      | replayed isLast read ran =>
          refine unchanged.delete_first ?_ (by omega)
          rintro none
          rw [show backend.super = [] from none] at isLast
          cases isLast
  | abandonIdle => exact unchanged
  | abandonDeleting recovered listed few =>
      rename_i backend cfg deletes count image' last' store
      change cfg.window * 4 ≤ 2 ^ 31 at narrow
      obtain ⟨store', again⟩ := unchanged.finds cfg.window
      obtain ⟨rfl, rfl, -⟩ : image' = image ∧ last' = last ∧ store = store' := by
        simpa using recovered.symm.trans again
      exact unchanged.delete_first listed (by omega)
  | act taken =>
      rename_i cfg tx tx' a
      obtain ⟨store, super⟩ := act_in_memory quiet taken
      have same : (World.opened cfg tx').backend = (World.opened cfg tx).backend := by
        rw [World.backend, World.backend, store, super]
      rw [same]
      exact unchanged
  | crash => exact unchanged

/-- Take any image that can be opened, and any number of opens, of opens that are cut
short after any of their deletes, and of crashes, with any steps of the sessions between
them that put nothing into the backend and delete nothing. Every open of what is left
with a window that recovery can count to then gives the maps, the table, the list of
checkpoints and the next number that the first one gave, and no object up to the last
number has changed. -/
theorem opens_find_the_same {crc32 : Bytes → ℕ} {uuid window last : ℕ} {backend : Backend σ}
    {image : Image} {store : Store σ}
    (recovered : recover window backend.super backend.store = some (.ok (image, last, store)))
    (stored : ∀ (n : ℕ) (obj : Obj σ), backend.store[n]? = some obj → n < 2 ^ 31)
    {events : List (Event σ)} (quiet : ∀ e ∈ events, e.inMemory = true ∧ e.narrow) {w : World σ}
    (ran : run (step crc32 uuid) (.closed backend) events = some w) :
    w.backend.super = backend.super ∧ (∀ n ≤ last, w.backend.store[n]? = backend.store[n]?) ∧
      ∀ cfg addr, cfg.window * 4 ≤ 2 ^ 31 → ∃ store',
        step crc32 uuid (.closed w.backend) (.launch cfg addr) =
          some (.opened cfg (reopen image last ⟨store', backend.super⟩ addr)) ∧
        ∀ n ≤ last, store'[n]? = backend.store[n]? := by
  have start : Unchanged backend image last (World.closed backend).backend :=
    ⟨rfl, Backend.finds_of_recover recovered, stored, fun n _ => rfl⟩
  have keeps : ∀ (w : World σ) (e : Event σ) (next : World σ), Unchanged backend image last w.backend →
      e.inMemory = true ∧ e.narrow → step crc32 uuid w e = some next →
        Unchanged backend image last next.backend :=
    fun w e next unchanged allowed stepped => unchanged.step allowed.1 allowed.2 stepped
  have final := invariant_along keeps start (along_of_forall quiet _) ran
  refine ⟨final.super, final.same, ?_⟩
  intro cfg addr limit
  obtain ⟨store', found⟩ := final.finds cfg.window
  have launches : step crc32 uuid (.closed w.backend) (.launch cfg addr) =
      some (.opened cfg (reopen image last ⟨store', backend.super⟩ addr)) := by
    simp only [step, found]
    rw [final.super]
  refine ⟨store', launches, ?_⟩
  have launched := final.step (e := .launch cfg addr) (w := .closed w.backend) rfl limit launches
  exact launched.same

def lostOpens : List (Event ℕ) :=
  [.abandon smallConfig 3, .launch smallConfig 1000000, .act (.writev 8 [7] 0), .act .gcStart, .crash]

theorem opens_find_the_same_lost : ∃ (h : Lineage ℕ) (w : World ℕ) (image : Image),
    run (Lineage.step (fun _ => 0) 7) .create checkpointFirst = some h ∧
      run (step (fun _ => 0) 7) (.closed h.world.backend) lostOpens = some w ∧
      (locate image.objmap 8).isSome = true ∧ ∃ store',
        step (fun _ => 0) 7 (.closed w.backend) (.launch smallConfig 0) =
          some (.opened smallConfig (reopen image 2 ⟨store', h.world.backend.super⟩ 0)) := by
  obtain ⟨h, ran, held⟩ := (Option.any_eq_true _ _).mp
    (by decide +kernel : (run (Lineage.step (fun _ => 0) 7) .create checkpointFirst).any (fun h =>
      h.world.backend.store.keys.all (fun n => decide (n < 2 ^ 31)) &&
        ((recover 2 h.world.backend.super h.world.backend.store).any (fun r => match r with
            | .ok (image, last, _) => decide (last = 2) && (locate image.objmap 8).isSome
            | .error _ => false) &&
          (run (step (fun _ => 0) 7) (.closed h.world.backend) lostOpens).isSome)) = true)
  obtain ⟨small, rest⟩ := (Bool.and_eq_true _ _).mp held
  obtain ⟨opens, lost⟩ := (Bool.and_eq_true _ _).mp rest
  obtain ⟨w, after⟩ := Option.isSome_iff_exists.mp lost
  obtain ⟨result, recovered, good⟩ := (Option.any_eq_true _ _).mp opens
  cases result with
  | error fault => cases good
  | ok found =>
      obtain ⟨image, last, store⟩ := found
      obtain ⟨isLast, located⟩ := (Bool.and_eq_true _ _).mp good
      obtain rfl : last = 2 := of_decide_eq_true isLast
      have stored : ∀ (n : ℕ) (obj : Obj ℕ), h.world.backend.store[n]? = some obj → n < 2 ^ 31 := by
        intro n obj present
        refine of_decide_eq_true (List.all_eq_true.mp small n ?_)
        rw [Std.ExtTreeMap.mem_keys, Std.ExtTreeMap.mem_iff_isSome_getElem?, present]
        rfl
      have quiet : ∀ e ∈ lostOpens, e.inMemory = true ∧ e.narrow := by
        simp [lostOpens, Event.inMemory, Event.narrow, smallConfig]
      obtain ⟨store', launched, -⟩ :=
        (opens_find_the_same recovered stored quiet after).2.2 smallConfig 0 (by decide)
      exact ⟨h, w, image, ran, after, located, store', launched⟩

end LsvdRbd.Lifecycle
