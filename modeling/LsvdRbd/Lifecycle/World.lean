import LsvdRbd.Recovery.Numbers
import LsvdRbd.Session.Steps

/-!
# The life of an image

An image is created, and from then on it is opened, used by a session and closed or
lost in a crash, any number of times. A crash takes the session and leaves the
backend; opening rebuilds a session from the backend by `recover`. An open may
itself be cut short, by an exception or by a crash among its deletes.
-/

namespace LsvdRbd.Lifecycle

open Records RunList ExtentMap Format Translate Recovery Session Machine

set_option autoImplicit false

variable {σ : Type*}

/-- The settings `backend_obj_bytes`, `gc_threshold_pc` and `backend_write_window`,
which a session reads from its configuration. -/
structure Config where
  objBytes : ℕ
  threshold : ℕ
  window : ℕ

def Config.env (cfg : Config) (crc32 : Bytes → ℕ) (uuid : ℕ) : Env :=
  ⟨crc32, uuid, cfg.objBytes, cfg.threshold⟩

/-- The numbered objects, and the checkpoints that the superblock lists. -/
structure Backend (σ : Type*) where
  store : Store σ
  super : List ℕ

inductive World (σ : Type*)
  | closed (backend : Backend σ)
  | opened (cfg : Config) (tx : Tx σ)

def World.backend : World σ → Backend σ
  | .closed backend => backend
  | .opened _ tx => ⟨tx.store, tx.super⟩

/-- `create_new`: a superblock without checkpoints. -/
def World.create : World σ := .closed ⟨∅, []⟩

/-- The session that `lsvd_image` starts from what it has rebuilt: the totals are
summed up from the table, and the next number follows the last object replayed. -/
def reopen (image : Image) (last : ℕ) (backend : Backend σ) (addr : ℤ) : Tx σ where
  maps :=
    { objmap := image.objmap
      info := image.info
      totalSectors := (image.info.toList.map fun entry => entry.2.data).sum
      totalLive := (image.info.toList.map fun entry => entry.2.live).sum }
  bufmap := Extmap.empty
  current := ⟨addr, [], []⟩
  queue := []
  inflight := []
  curSeq := nextSeq last
  returned := []
  ckpts := image.ckpts
  ckpting := none
  gc := .idle
  store := backend.store
  super := backend.super

/-- The first `count` deletes of dangling objects. -/
def deleteFirst (count seq : ℕ) (store : Store σ) : Store σ :=
  (List.range' 1 count).foldl (fun store i => store.erase ((seq + i) % 2 ^ 32)) store

theorem delete_dangling_eq (window seq : ℕ) (store : Store σ) :
    deleteDangling window seq store = deleteFirst (window * 4 - 1) seq store := rfl

/-- What happens to an image: it is opened, with the address of the session's first
block; an open is cut short after some of its deletes; a thread of the session takes
a step; the session is gone. -/
inductive Event (σ : Type*)
  | launch (cfg : Config) (addr : ℤ)
  | abandon (cfg : Config) (deletes : ℕ)
  | act (a : Action σ)
  | crash

section Steps

variable (crc32 : Bytes → ℕ) (uuid : ℕ)

/-- An open whose recovery throws leaves the backend alone, and so does one without
checkpoints. -/
def abandon (cfg : Config) (deletes : ℕ) (backend : Backend σ) : Backend σ :=
  match recover cfg.window backend.super backend.store with
  | some (.ok (_, last, _)) =>
      if backend.super = [] then backend
      else { backend with store := deleteFirst (min deletes (cfg.window * 4 - 1)) last backend.store }
  | _ => backend

def step : World σ → Event σ → Option (World σ)
  | .closed backend, .launch cfg addr =>
      match recover cfg.window backend.super backend.store with
      | some (.ok (image, last, store)) =>
          some (.opened cfg (reopen image last { backend with store := store } addr))
      | _ => none
  | .closed backend, .abandon cfg deletes => some (.closed (abandon cfg deletes backend))
  | .opened cfg tx, .act a => (Session.step (cfg.env crc32 uuid) tx a).map (.opened cfg)
  | .opened _ tx, .crash => some (.closed ⟨tx.store, tx.super⟩)
  | _, _ => none

end Steps

/-! ## What one step can do -/

inductive Stepped (crc32 : Bytes → ℕ) (uuid : ℕ) : World σ → Event σ → World σ → Prop
  | launch {backend : Backend σ} {cfg : Config} {addr : ℤ} {image : Image} {last : ℕ}
      {store : Store σ}
      (recovered : recover cfg.window backend.super backend.store = some (.ok (image, last, store))) :
      Stepped crc32 uuid (.closed backend) (.launch cfg addr)
        (.opened cfg (reopen image last { backend with store := store } addr))
  | abandonIdle {backend : Backend σ} {cfg : Config} {deletes : ℕ} :
      Stepped crc32 uuid (.closed backend) (.abandon cfg deletes) (.closed backend)
  | abandonDeleting {backend : Backend σ} {cfg : Config} {deletes count : ℕ} {image : Image}
      {last : ℕ} {store : Store σ}
      (recovered : recover cfg.window backend.super backend.store = some (.ok (image, last, store)))
      (listed : backend.super ≠ []) (few : count ≤ cfg.window * 4 - 1) :
      Stepped crc32 uuid (.closed backend) (.abandon cfg deletes)
        (.closed { backend with store := deleteFirst count last backend.store })
  | act {cfg : Config} {tx tx' : Tx σ} {a : Action σ}
      (stepped : Tx.Stepped (cfg.env crc32 uuid) tx a tx') :
      Stepped crc32 uuid (.opened cfg tx) (.act a) (.opened cfg tx')
  | crash {cfg : Config} {tx : Tx σ} :
      Stepped crc32 uuid (.opened cfg tx) .crash (.closed ⟨tx.store, tx.super⟩)

theorem step_cases {crc32 : Bytes → ℕ} {uuid : ℕ} {w w' : World σ} {e : Event σ}
    (stepped : step crc32 uuid w e = some w') : Stepped crc32 uuid w e w' := by
  unfold step at stepped
  split at stepped
  · split at stepped
    · next recovered =>
        cases stepped
        exact .launch recovered
    · cases stepped
  · cases stepped
    unfold abandon
    split
    · next recovered =>
        split
        · exact .abandonIdle
        · next listed => exact .abandonDeleting recovered listed (min_le_right _ _)
    · exact .abandonIdle
  · obtain ⟨tx', taken, rfl⟩ := Option.map_eq_some_iff.mp stepped
    exact .act (Tx.step_cases taken)
  · cases stepped
    exact .crash
  · cases stepped

/-! ## What recovery finds -/

theorem delete_first_lookup (count seq : ℕ) (store : Store σ) (n : ℕ) :
    (deleteFirst count seq store)[n]? =
      if n ∈ (List.range' 1 count).map (fun i => (seq + i) % 2 ^ 32) then none else store[n]? := by
  rw [← table_erase_all, List.foldl_map]
  rfl

theorem delete_first_present {count seq n : ℕ} {store : Store σ} {obj : Obj σ}
    (present : (deleteFirst count seq store)[n]? = some obj) : store[n]? = some obj := by
  rw [delete_first_lookup] at present
  split at present
  · cases present
  · exact present

theorem delete_first_before {count seq n : ℕ} (store : Store σ) (early : n ≤ seq)
    (bound : seq + count < 2 ^ 32) : (deleteFirst count seq store)[n]? = store[n]? := by
  rw [delete_first_lookup, if_neg]
  rintro member
  obtain ⟨i, inside, rfl⟩ := List.mem_map.mp member
  rw [List.mem_range'_1] at inside
  omega

theorem prev_seq_pred {seq : ℕ} (positive : 0 < seq) (bound : seq ≤ 2 ^ 31) :
    prevSeq seq = seq - 1 := by
  unfold prevSeq
  omega

/-- What opening finds: nothing without a checkpoint, and otherwise what the last
checkpoint and the objects after it give. -/
inductive Recovered (window : ℕ) (super : List ℕ) (store : Store σ) :
    Image → ℕ → Store σ → Prop
  | blank (none : super = []) : Recovered window super store ⟨Extmap.empty, ∅, []⟩ 0 store
  | replayed {ckpt stop : ℕ} {loaded image : Image} (last : super.getLast? = some ckpt)
      (read : readFromCheckpoint store[ckpt]? ⟨Extmap.empty, ∅, super⟩ = .ok loaded)
      (ran : replay (fun n => applyLog store[n]? n) (store.size + 1) (nextSeq ckpt) loaded =
        some (.ok (image, stop))) :
      Recovered window super store image (prevSeq stop)
        (deleteFirst (window * 4 - 1) (prevSeq stop) store)

theorem read_from_checkpoint_ckpts {obj : Option (Obj σ)} {s s' : Image}
    (read : readFromCheckpoint obj s = .ok s') : s'.ckpts = s.ckpts := by
  cases parsed : readCheckpoint obj with
  | error fault =>
      rw [readFromCheckpoint, parsed] at read
      cases read
  | ok found =>
      cases found with
      | none =>
          rw [readFromCheckpoint, parsed] at read
          cases read
      | some found =>
          rw [read_from_checkpoint_eq s parsed] at read
          cases read
          rfl

theorem recover_cases {window last : ℕ} {super : List ℕ} {store store' : Store σ} {image : Image}
    (recovered : recover window super store = some (.ok (image, last, store'))) :
    Recovered window super store image last store' := by
  unfold recover at recovered
  dsimp only at recovered
  split at recovered
  · next empty =>
      obtain rfl := List.getLast?_eq_none_iff.mp empty
      obtain ⟨rfl, rfl, rfl⟩ : (⟨Extmap.empty, ∅, []⟩ : Image) = image ∧ 0 = last ∧ store = store' := by
        simpa [rollForward] using recovered
      exact .blank rfl
  · next ckpt lastCkpt =>
      split at recovered
      · cases recovered
      · next loaded read =>
          rw [rollForward, read_from_checkpoint_ckpts read] at recovered
          simp only [lastCkpt] at recovered
          obtain ⟨result, ran, finished⟩ := Option.map_eq_some_iff.mp recovered
          cases result with
          | error fault => cases finished
          | ok result =>
              obtain ⟨rfl, rfl, rfl⟩ := Prod.mk.inj (Except.ok.inj finished) |>.imp id Prod.mk.inj
              exact .replayed lastCkpt read ran

end LsvdRbd.Lifecycle
