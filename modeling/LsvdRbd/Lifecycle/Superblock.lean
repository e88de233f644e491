import LsvdRbd.Lifecycle.World
import LsvdRbd.Session.Numbers

/-!
# What the superblock lists

Old checkpoints, cleaned and dead objects and dangling numbers are deleted from one
name space. Through any history of sessions, crashes and recoveries the superblock
lists whole checkpoints that are in the backend, at most three and in increasing
order, the last one being the newest whose superblock update was completed. This
ends when the counter of 32 bits comes round.
-/

namespace LsvdRbd.Lifecycle

open Records RunList ExtentMap Format Translate Recovery Session Machine

set_option autoImplicit false

variable {σ : Type*}

/-! ## The backend between two sessions -/

/-- What a session leaves: every listed checkpoint is there, and refers to data
before it. -/
structure Sealed (uuid : ℕ) (backend : Backend σ) : Prop where
  increasing : backend.super.Pairwise (· < ·)
  few : backend.super.length ≤ 3
  listed : ∀ c ∈ backend.super, ∃ obj, backend.store[c]? = some obj ∧
    ∃ maps : Maps, checkpointObject uuid c maps = some obj ∧
      Names (fun n => n < c ∧ n ∉ backend.super) maps.objmap maps.info
  stored : ∀ (n : ℕ) (obj : Obj σ), backend.store[n]? = some obj → n < 2 ^ 31

theorem create_sealed (uuid : ℕ) : Sealed uuid (⟨∅, []⟩ : Backend σ) where
  increasing := List.Pairwise.nil
  few := by simp
  listed c member := by cases member
  stored := by simp

variable {uuid : ℕ}

theorem sealed_of_guarded {tx : Tx σ} (guarded : tx.Guarded uuid) :
    Sealed uuid (⟨tx.store, tx.super⟩ : Backend σ) := by
  obtain ⟨separate, ⟨super, increasing, listed, -⟩, few, stored⟩ := guarded
  rw [super]
  refine ⟨increasing, few, ?_, stored⟩
  intro c member
  obtain ⟨obj, present, -, maps, object, names⟩ := listed c member
  refine ⟨obj, present, maps, object, names.imp ?_⟩
  rintro n ⟨before, notCkpt⟩
  exact ⟨before, fun inList => notCkpt (List.mem_append_left _ inList)⟩

theorem le_last {super : List ℕ} {last : ℕ} (increasing : super.Pairwise (· < ·))
    (isLast : super.getLast? = some last) : ∀ c ∈ super, c ≤ last := by
  obtain ⟨front, rfl⟩ := List.getLast?_eq_some_iff.mp isLast
  intro c member
  rcases List.mem_append.mp member with early | late
  · exact ((List.pairwise_append.mp increasing).2.2 c early last (by simp)).le
  · rw [List.mem_singleton.mp late]

variable {backend : Backend σ}

theorem Sealed.delete_first (isSealed : Sealed uuid backend) {count last : ℕ}
    (before : ∀ c ∈ backend.super, c ≤ last) (bound : last + count < 2 ^ 32) :
    Sealed uuid { backend with store := deleteFirst count last backend.store } where
  increasing := isSealed.increasing
  few := isSealed.few
  listed := by
    intro c member
    obtain ⟨obj, present, maps, object, names⟩ := isSealed.listed c member
    refine ⟨obj, ?_, maps, object, names⟩
    rw [delete_first_before _ (before c member) bound]
    exact present
  stored n obj present := isSealed.stored n obj (delete_first_present present)

/-! ## Recovery -/

section Replay

variable {store : Store σ} {fuel seq stop : ℕ} {s image : Image}

theorem apply_log_present {obj : Option (Obj σ)} {s' : Image}
    (applied : applyLog obj seq s = .ok (some s')) : ∃ found, obj = some found := by
  cases obj with
  | none => cases applied
  | some found => exact ⟨found, rfl⟩

theorem replay_range (stored : ∀ (n : ℕ) (obj : Obj σ), store[n]? = some obj → n < 2 ^ 31)
    (bound : seq ≤ 2 ^ 31)
    (ran : replay (fun n => applyLog store[n]? n) fuel seq s = some (.ok (image, stop))) :
    seq ≤ stop ∧ stop ≤ 2 ^ 31 := by
  revert bound
  refine replay_induction (motive := fun _ seq _ =>
    seq ≤ 2 ^ 31 → seq ≤ stop ∧ stop ≤ 2 ^ 31) ?_ ?_ ran
  · intro fuel _ bound
    exact ⟨le_refl _, bound⟩
  · intro fuel seq s next applied _ later _
    obtain ⟨obj, present⟩ := apply_log_present applied
    have small := stored seq obj present
    rw [next_seq_eq small] at later
    have := later (by omega)
    omega

theorem replay_names {Q : ℕ → Prop}
    (stored : ∀ (n : ℕ) (obj : Obj σ), store[n]? = some obj → n < 2 ^ 31)
    (ran : replay (fun n => applyLog store[n]? n) fuel seq s = some (.ok (image, stop)))
    (names : Names Q s.objmap s.info) (holds : ∀ n, seq ≤ n → n < stop → Q n) :
    Names Q image.objmap image.info ∧ image.ckpts = s.ckpts := by
  revert names holds
  refine replay_induction (motive := fun _ seq s => Names Q s.objmap s.info →
    (∀ n, seq ≤ n → n < stop → Q n) →
      Names Q image.objmap image.info ∧ image.ckpts = s.ckpts) ?_ ?_ ran
  · intro fuel _ names _
    exact ⟨names, rfl⟩
  · intro fuel seq s next applied ran later names holds
    obtain ⟨obj, present⟩ := apply_log_present applied
    have small := stored seq obj present
    rw [next_seq_eq small] at ran later
    have range := replay_range stored (by omega) ran
    obtain ⟨nextNames, ckpts⟩ := names.apply_log small (holds seq (le_refl _) (by omega)) applied
    obtain ⟨final, same⟩ := later nextNames fun n lower upper => holds n (by omega) upper
    exact ⟨final, same.trans ckpts⟩

end Replay

theorem Sealed.replay_bounds {uuid fuel ckpt stop : ℕ} {loaded image : Image}
    (isSealed : Sealed uuid backend) (isLast : backend.super.getLast? = some ckpt)
    (ran : replay (fun n => applyLog backend.store[n]? n) fuel (nextSeq ckpt) loaded =
      some (.ok (image, stop))) :
    ckpt < stop ∧ stop ≤ 2 ^ 31 ∧ nextSeq ckpt = ckpt + 1 := by
  obtain ⟨obj, present, -⟩ := isSealed.listed ckpt (List.mem_of_getLast? isLast)
  have small := isSealed.stored ckpt obj present
  have next : nextSeq ckpt = ckpt + 1 := next_seq_eq small
  rw [next] at ran
  have range := replay_range isSealed.stored (by omega) ran
  exact ⟨by omega, range.2, next⟩

/-- What opening gives: the listed checkpoints come before the last object replayed,
and the maps refer to data up to it. -/
structure Restored (backend : Backend σ) (image : Image) (last : ℕ) : Prop where
  ckpts : image.ckpts = backend.super
  before : ∀ c ∈ backend.super, c ≤ last
  bound : last < 2 ^ 31
  names : Names (fun n => n ≤ last ∧ n ∉ backend.super) image.objmap image.info

variable {store : Store σ}

theorem Sealed.restored {uuid window last : ℕ} {image : Image} (isSealed : Sealed uuid backend)
    (uuidBound : uuid < 2 ^ 128)
    (recovered : Recovered window backend.super backend.store image last store) :
    Restored backend image last := by
  cases recovered with
  | blank none => exact ⟨none.symm, by simp [none], by norm_num, names_empty _⟩
  | replayed isLast read ran =>
      rename_i ckpt stop loaded
      have listed : ckpt ∈ backend.super := List.mem_of_getLast? isLast
      obtain ⟨obj, present, maps, object, names⟩ := isSealed.listed ckpt listed
      have small : ckpt < 2 ^ 31 := isSealed.stored ckpt obj present
      rw [present] at read
      obtain ⟨loadedNames, ckpts⟩ :=
        names.load (fun n data => by omega) uuidBound (by omega) object read
      obtain ⟨after, upper, next⟩ := isSealed.replay_bounds isLast ran
      have greatest := le_last isSealed.increasing isLast
      rw [prev_seq_pred (by omega) upper]
      rw [next] at ran
      obtain ⟨final, same⟩ := replay_names isSealed.stored ran
        (loadedNames.imp fun n data => (⟨by omega, data.2⟩ : n ≤ stop - 1 ∧ n ∉ backend.super))
        (by
          intro n lower upper
          refine ⟨by omega, fun isListed => ?_⟩
          have := greatest n isListed
          omega)
      refine ⟨same.trans ckpts, ?_, by omega, final⟩
      intro c member
      have := greatest c member
      omega

/-- What the deletes at an open leave. -/
theorem Recovered.deletes {uuid window last : ℕ} {image : Image}
    (found : Recovered window backend.super backend.store image last store)
    (isSealed : Sealed uuid backend) (restored : Restored backend image last)
    (limit : window * 4 ≤ 2 ^ 31) :
    (∀ (n : ℕ) (obj : Obj σ), store[n]? = some obj → backend.store[n]? = some obj) ∧
      Sealed uuid { backend with store := store } := by
  have bound := restored.bound
  cases found with
  | blank none => exact ⟨fun _ _ => id, isSealed⟩
  | replayed isLast read ran =>
      exact ⟨fun _ _ => delete_first_present, isSealed.delete_first restored.before (by omega)⟩

theorem Restored.guarded {uuid last : ℕ} {image : Image} (restored : Restored backend image last)
    (isSealed : Sealed uuid backend) (addr : ℤ)
    (after : Sealed uuid { backend with store := store }) :
    (reopen image last { backend with store := store } addr).Guarded uuid := by
  obtain ⟨ckpts, before, bound, names⟩ := restored
  have next : nextSeq last = last + 1 := next_seq_eq bound
  have numbers : (reopen image last { backend with store := store } addr).ckptNumbers =
      backend.super := by
    simp [Tx.ckptNumbers, reopen, ckpts]
  have curSeq : (reopen image last { backend with store := store } addr).curSeq = last + 1 := next
  refine ⟨⟨?_, ?_, ?_, ?_, ?_⟩, ⟨?_, ?_, ?_, ?_⟩, ?_, after.stored⟩
  · refine names.imp ?_
    rintro n ⟨upper, notCkpt⟩
    exact ⟨by rw [curSeq]; omega, by rw [numbers]; exact notCkpt⟩
  · intro put member
    cases member
  · intro o member
    cases member
  · intro n member
    rw [numbers] at member
    have := before n member
    omega
  · omega
  · exact ckpts.symm
  · change image.ckpts.Pairwise _
    rw [ckpts]
    exact isSealed.increasing
  · intro c member
    have listed : c ∈ backend.super := ckpts ▸ member
    obtain ⟨obj, present, maps, object, data⟩ := after.listed c listed
    have := before c listed
    refine ⟨obj, present, by omega, maps, object, ?_⟩
    rw [numbers]
    exact data
  · intro c busy
    cases busy
  · change image.ckpts.length ≤ 3
    rw [ckpts]
    exact isSealed.few

/-! ## Histories -/

/-- The worker has numbers left below `2^31`, and the deletes at an open do not come
round to the numbers before it. -/
def Limited (w : World σ) : Event σ → Prop
  | .launch cfg _ | .abandon cfg _ => cfg.window * 4 ≤ 2 ^ 31
  | .act a => match w with
      | .opened _ tx => NumbersLeft tx a
      | .closed _ => True
  | .crash => True

instance (w : World σ) (e : Event σ) : Decidable (Limited w e) := by
  unfold Limited
  split
  · infer_instance
  · infer_instance
  · split <;> infer_instance
  · infer_instance

def Kept (uuid : ℕ) : World σ → Prop
  | .closed backend => Sealed uuid backend
  | .opened _ tx => tx.Guarded uuid

theorem Kept.isSealed {w : World σ} (kept : Kept uuid w) : Sealed uuid w.backend := by
  cases w with
  | closed backend => exact kept
  | opened cfg tx => exact sealed_of_guarded kept

theorem Kept.step {crc32 : Bytes → ℕ} {w w' : World σ} {e : Event σ} (kept : Kept uuid w)
    (uuidBound : uuid < 2 ^ 128) (limited : Limited w e)
    (stepped : Lifecycle.step crc32 uuid w e = some w') : Kept uuid w' := by
  cases step_cases stepped with
  | launch recovered =>
      have found := recover_cases recovered
      have restored := Sealed.restored kept uuidBound found
      exact restored.guarded kept _ (found.deletes kept restored limited).2
  | abandonIdle => exact kept
  | abandonDeleting recovered listed few =>
      have restored := Sealed.restored kept uuidBound (recover_cases recovered)
      have bound := restored.bound
      have window : _ * 4 ≤ 2 ^ 31 := limited
      exact Sealed.delete_first kept restored.before (by omega)
  | act taken =>
      rename_i cfg tx tx' a
      have guarded : tx.Guarded (cfg.env crc32 uuid).uuid := kept
      exact guarded.step taken limited
  | crash => exact sealed_of_guarded kept

theorem create_kept (uuid : ℕ) : Kept uuid (World.create : World σ) := create_sealed uuid

def published : World σ → Event σ → Option ℕ
  | .opened _ tx, .act .ckptStep =>
      match tx.ckpting with
      | none => none
      | some c => match c.stage with
          | .superblock => some c.seq
          | _ => none
  | _, _ => none

structure History (σ : Type*) where
  world : World σ
  newest : Option ℕ

namespace History

def create : History σ := ⟨World.create, none⟩

def step (crc32 : Bytes → ℕ) (uuid : ℕ) (h : History σ) (e : Event σ) : Option (History σ) :=
  (Lifecycle.step crc32 uuid h.world e).map fun w => ⟨w, (published h.world e).or h.newest⟩

theorem super_last {env : Env} {tx tx' : Tx σ} {a : Action σ} (cfg : Config)
    (stepped : Tx.Stepped env tx a tx') :
    tx'.super.getLast? = (published (.opened cfg tx) (.act a)).or tx.super.getLast? := by
  cases stepped with
  | write rolled nonempty room => cases rolled <;> rfl
  | flush rolled => cases rolled <;> rfl
  | checkpoint rolled => cases rolled <;> rfl
  | flushThread rolled => cases rolled <;> rfl
  | trim done => rfl
  | complete member => rfl
  | work free worked => cases worked <;> rfl
  | collect collected =>
      obtain ⟨-, -, -, -, -, super, -⟩ := collected.frame
      rw [super]
      cases collected <;> rfl
  | ckpt busy done =>
      cases done with
      | object stage => simp [published, busy, stage]
      | superblock stage =>
          simp only [published, busy, stage, Option.some_or]
          exact Tx.keep_three_last _ _
      | delete stage => simp [published, busy, stage]
      | done stage phase moved => simp [published, busy, stage]

theorem step_newest {crc32 : Bytes → ℕ} {h h' : History σ} {e : Event σ}
    (newest : h.world.backend.super.getLast? = h.newest) (stepped : h.step crc32 uuid e = some h') :
    h'.world.backend.super.getLast? = h'.newest := by
  obtain ⟨world, last⟩ := h
  obtain ⟨w, moved, rfl⟩ := Option.map_eq_some_iff.mp stepped
  cases step_cases moved with
  | act taken =>
      rename_i cfg tx tx' a
      have same : tx.super.getLast? = last := newest
      change tx'.super.getLast? = _
      rw [super_last cfg taken, same]
  | _ => exact newest

end History

/-- In every history of an image, through sessions with garbage collection, crashes
and recoveries that may themselves be cut short, in which fewer than `2^31` numbers
are given out: the superblock lists at most three checkpoints, in increasing order,
each is in the backend as `write_checkpoint` made it and can be read, and the last
one is the newest whose superblock update was completed. -/
theorem superblock_lists_whole_checkpoints {crc32 : Bytes → ℕ} {uuid : ℕ}
    (uuidBound : uuid < 2 ^ 128) {events : List (Event σ)} {h : History σ}
    (along : Along (History.step crc32 uuid) (fun h => Limited h.world) History.create events)
    (ran : run (History.step crc32 uuid) History.create events = some h) :
    (∀ c ∈ h.world.backend.super, ∃ obj, h.world.backend.store[c]? = some obj ∧
      (∃ maps : Maps, checkpointObject uuid c maps = some obj) ∧
      ∃ image, readFromCheckpoint (some obj) ⟨Extmap.empty, ∅, []⟩ = .ok image) ∧
    h.world.backend.super.length ≤ 3 ∧ h.world.backend.super.Pairwise (· < ·) ∧
    h.world.backend.super.getLast? = h.newest := by
  have keeps : ∀ (h : History σ) (e : Event σ) (next : History σ),
      Kept uuid h.world ∧ h.world.backend.super.getLast? = h.newest → Limited h.world e →
      h.step crc32 uuid e = some next →
      Kept uuid next.world ∧ next.world.backend.super.getLast? = next.newest := by
    rintro h e next ⟨kept, newest⟩ limited stepped
    refine ⟨?_, History.step_newest newest stepped⟩
    obtain ⟨w, moved, rfl⟩ := Option.map_eq_some_iff.mp stepped
    exact kept.step uuidBound limited moved
  obtain ⟨kept, newest⟩ := invariant_along keeps ⟨create_kept uuid, rfl⟩ along ran
  have backend := kept.isSealed
  refine ⟨?_, backend.few, backend.increasing, newest⟩
  intro c member
  obtain ⟨obj, present, maps, object, -⟩ := backend.listed c member
  have small := backend.stored c obj present
  exact ⟨obj, present, ⟨maps, object⟩, _,
    read_from_checkpoint_object uuidBound (by omega) object []⟩

def smallConfig : Config := ⟨786432, 60, 2⟩

def twoSessions : List (Event ℕ) :=
  [.launch smallConfig 1000000, .act (.writev 8 [2, 3] 0), .act (.flushThread 5000000), .act .work,
    .act (.complete 1), .act (.checkpoint 0), .act .work, .act .ckptStep, .act .ckptStep,
    .act .ckptStep, .act (.writev 9 [4] 0), .act (.flushThread 9000000), .act .work, .crash,
    .launch smallConfig 1000000, .act (.checkpoint 0), .act .work, .act .ckptStep, .act .ckptStep,
    .crash, .abandon smallConfig 3]

theorem superblock_lists_whole_checkpoints_reopened : ∃ h : History ℕ,
    run (History.step (fun _ => 0) 7) History.create twoSessions = some h ∧
      h.world.backend.super = [2, 3] ∧ h.newest = some 3 ∧
      ∀ c ∈ h.world.backend.super, ∃ obj, h.world.backend.store[c]? = some obj ∧
        (∃ maps : Maps, checkpointObject 7 c maps = some obj) ∧
        ∃ image, readFromCheckpoint (some obj) ⟨Extmap.empty, ∅, []⟩ = .ok image := by
  obtain ⟨h, ran, super⟩ := (Option.any_eq_true _ _).mp
    (by decide +kernel : (run (History.step (fun _ => 0) 7) History.create twoSessions).any
      (fun h => decide (h.world.backend.super = [2, 3])) = true)
  have listed := of_decide_eq_true super
  obtain ⟨whole, -, -, last⟩ :=
    superblock_lists_whole_checkpoints (by norm_num) (by decide +kernel) ran
  refine ⟨h, ran, listed, ?_, whole⟩
  rw [← last, listed]
  rfl

/-! ## The counter comes round -/

section Rounds

variable {env : Env} {s : Tx σ}

structure Resting (s : Tx σ) : Prop where
  objmap : s.maps.objmap = Extmap.empty
  info : s.maps.info = ∅
  current : s.current.data = []
  queue : s.queue = []
  ckpting : s.ckpting = none
  super : s.super = s.ckpts

theorem deletes_finish {seq : ℕ} {obj : Obj σ} {old : List ℕ}
    (busy : s.ckpting = some ⟨seq, obj, false, .deletes old⟩) :
    run (Session.step env) s (List.replicate (old.length + 1) .ckptStep) =
      some { s with
        store := old.foldl (fun store o => store.erase o) s.store
        ckpting := none } := by
  induction old generalizing s with
  | nil =>
      rw [List.length_nil, zero_add, List.replicate_one, run_cons]
      simp only [Session.step, Tx.ckptStep, busy]
      rfl
  | cons first rest ih =>
      rw [List.length_cons, List.replicate_succ, run_cons]
      simp only [Session.step, Tx.ckptStep, busy, Option.bind_some]
      rw [ih rfl]
      rfl

theorem empty_checkpoint (uuid seq : ℕ) {maps : Maps} (objmap : maps.objmap = Extmap.empty)
    (info : maps.info = ∅) : ∃ obj : Obj σ, checkpointObject uuid seq maps = some obj := by
  refine ⟨_, if_pos ?_⟩
  rw [objmap, info]
  decide +kernel

theorem checkpoint_round (env : Env) (resting : Resting s) :
    ∃ acts s', run (Session.step env) s acts = some s' ∧ Resting s' ∧
      s'.curSeq = nextSeq s.curSeq ∧ s'.ckpts = (Tx.keepThree (s.ckpts ++ [s.curSeq])).1 := by
  obtain ⟨objmap, info, current, queue, ckpting, super⟩ := resting
  obtain ⟨obj, object⟩ := empty_checkpoint (σ := σ) env.uuid s.curSeq objmap info
  set kept := Tx.keepThree (s.ckpts ++ [s.curSeq]) with keptDef
  -- up to the superblock update
  have front : run (Session.step env) s [.checkpoint 0, .work, .ckptStep, .ckptStep] = some { s with
      ckpting := some ⟨s.curSeq, obj, false, .deletes kept.2⟩
      curSeq := nextSeq s.curSeq
      store := s.store.insert s.curSeq obj
      ckpts := kept.1
      super := kept.1 } := by
    simp [run_cons, Session.step, Tx.checkpoint, Tx.submit, current, queue, Tx.work, ckpting, object,
      Tx.ckptStep, ← keptDef]
  refine ⟨_, _, (run_append_eq_some _).mpr ⟨_, front, deletes_finish rfl⟩, ?_, rfl, rfl⟩
  exact ⟨objmap, info, current, queue, rfl, rfl⟩

variable {crc32 : Bytes → ℕ} {uuid : ℕ} {cfg : Config}

theorem run_acts {s s' : Tx σ} {acts : List (Action σ)}
    (ran : run (Session.step (cfg.env crc32 uuid)) s acts = some s') :
    run (step crc32 uuid) (.opened cfg s) (acts.map .act) = some (.opened cfg s') := by
  induction acts generalizing s with
  | nil =>
      cases ran
      rfl
  | cons a acts ih =>
      obtain ⟨next, taken, rest⟩ := (run_cons_eq_some _).mp ran
      rw [List.map_cons, run_cons_eq_some]
      refine ⟨.opened cfg next, ?_, ih rest⟩
      simp only [step, taken, Option.map_some]

theorem run_history {w w' : World σ} {events : List (Event σ)}
    (ran : run (step crc32 uuid) w events = some w') (newest : Option ℕ) :
    ∃ last, run (History.step crc32 uuid) ⟨w, newest⟩ events = some ⟨w', last⟩ := by
  induction events generalizing w newest with
  | nil =>
      cases ran
      exact ⟨newest, rfl⟩
  | cons e events ih =>
      obtain ⟨next, taken, rest⟩ := (run_cons_eq_some _).mp ran
      obtain ⟨last, later⟩ := ih rest ((published w e).or newest)
      refine ⟨last, (run_cons_eq_some _).mpr ⟨_, ?_, later⟩⟩
      simp only [History.step, taken, Option.map_some]

/-- One checkpoint after the other: the session numbers them from 1 and begins again
after `2^32 - 1`. -/
theorem checkpoint_rounds (rounds : ℕ) : ∃ (events : List (Event σ)) (s : Tx σ),
    run (step crc32 uuid) World.create events = some (.opened cfg s) ∧ Resting s ∧
      s.curSeq = (rounds + 1) % 2 ^ 32 ∧
      (0 < rounds → s.ckpts.getLast? = some (rounds % 2 ^ 32)) := by
  induction rounds with
  | zero =>
      refine ⟨[.launch cfg 0], _, rfl, ⟨rfl, rfl, rfl, rfl, rfl, rfl⟩, rfl, ?_⟩
      intro positive
      exact absurd positive (lt_irrefl 0)
  | succ rounds ih =>
      obtain ⟨events, s, ran, resting, curSeq, -⟩ := ih
      obtain ⟨acts, s', round, rests, next, kept⟩ :=
        checkpoint_round (cfg.env crc32 uuid) resting
      refine ⟨events ++ acts.map .act, s', (run_append_eq_some _).mpr ⟨_, ran, run_acts round⟩,
        rests, ?_, ?_⟩
      · rw [next, curSeq, nextSeq, Nat.mod_add_mod]
      · intro positive
        rw [kept, Tx.keep_three_last, curSeq]

end Rounds

theorem keep_three_pair (front : List ℕ) (first second : ℕ) :
    ∃ rest, (Tx.keepThree (front ++ [first] ++ [second])).1 = rest ++ [first, second] := by
  refine ⟨front.drop (front.length - 1), ?_⟩
  rw [List.append_assoc, Tx.keepThree, List.length_append]
  exact List.drop_append_of_le_length (by simp)

/-- After `2^32` checkpoints the last one listed is number 0, behind `2^32 - 1`. -/
theorem superblock_out_of_order : ∃ (events : List (Event ℕ)) (h : History ℕ),
    run (History.step (fun _ => 0) 7) History.create events = some h ∧
      ¬h.world.backend.super.Pairwise (· < ·) := by
  obtain ⟨events, s, ran, resting, curSeq, last⟩ :=
    @checkpoint_rounds ℕ (fun _ => 0) 7 smallConfig (2 ^ 32 - 1)
  obtain ⟨acts, s', round, rests, -, kept⟩ :=
    checkpoint_round (smallConfig.env (fun _ => 0) 7) resting
  obtain ⟨newest, recorded⟩ :=
    run_history ((run_append_eq_some _).mpr ⟨_, ran, run_acts round⟩) none
  refine ⟨_, _, recorded, ?_⟩
  obtain ⟨front, listed⟩ := List.getLast?_eq_some_iff.mp (last (by norm_num))
  obtain ⟨rest, pair⟩ := keep_three_pair front ((2 ^ 32 - 1) % 2 ^ 32) ((2 ^ 32 - 1 + 1) % 2 ^ 32)
  change ¬s'.super.Pairwise (· < ·)
  rw [rests.super, kept, listed, curSeq, pair]
  intro increasing
  have ordered := (List.pairwise_append.mp increasing).2.1
  simp at ordered

end LsvdRbd.Lifecycle
