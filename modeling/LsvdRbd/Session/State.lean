import LsvdRbd.Recovery.Replay

/-!
# An open image

The state that the threads of `translate_impl` share and the backend, and every
step a thread can take: host writes, flushes, checkpoints and trims, the single
worker, completions of PUTs, and garbage collection. A section that runs under
the mutex `m` or the map lock is one step; PUTs complete in any order.
-/

namespace LsvdRbd.Session

open Records RunList ExtentMap Format Translate Recovery

set_option autoImplicit false

variable {σ : Type*}

/-- zlib's checksum, the volume's uuid, and the settings `backend_obj_bytes` and
`gc_threshold_pc`. -/
structure Env where
  crc32 : Bytes → ℕ
  uuid : ℕ
  objBytes : ℕ
  threshold : ℕ

abbrev Bufmap := Extmap SectorPtr

def dataSector (obj : Obj σ) (offset : ℤ) : Option σ :=
  if (obj.hdr.length / 512 : ℕ) ≤ offset then
    obj.data[(offset - (obj.hdr.length / 512 : ℕ)).toNat]?
  else none

/-! ## Requests -/

/-- A `REQ_PUT`: the address of its data area, and what was appended. -/
structure Request (σ : Type*) where
  base : ℤ
  entries : List MapEntry
  data : List σ

namespace Request

def room (env : Env) (r : Request σ) (n : ℕ) : Bool :=
  decide (512 * (r.data.length + n) ≤ env.objBytes)

/-- `append`; the data goes to the address `tail` had. -/
def append (r : Request σ) (lba : ℤ) (data : List σ) : Request σ :=
  { r with
    entries := r.entries ++ [.store lba data.length 0 0]
    data := r.data ++ data }

def tail (r : Request σ) : ℤ := r.base + 512 * r.data.length

def holds (env : Env) (r : Request σ) (ptr : SectorPtr) : Bool :=
  decide (r.base ≤ ptr.buf ∧ ptr.buf < r.base + env.objBytes)

theorem holds_iff {env : Env} {r : Request σ} {ptr : SectorPtr} :
    r.holds env ptr = true ↔ r.base ≤ ptr.buf ∧ ptr.buf < r.base + env.objBytes :=
  decide_eq_true_iff

def sector (env : Env) (r : Request σ) (ptr : SectorPtr) : Option σ :=
  if r.holds env ptr then r.data[((ptr.buf - r.base) / 512).toNat]? else none

/-- The bytes kept free before the data area for the header. -/
def headroom (env : Env) : ℤ := 1024 + (env.objBytes / 2048 : ℕ) * 8

/-- What the allocator promises: the new block does not meet the old one. -/
def Clear (env : Env) (addr : ℤ) (r : Request σ) : Prop :=
  addr + env.objBytes ≤ r.base - headroom env ∨ r.base + env.objBytes ≤ addr - headroom env

instance (env : Env) (addr : ℤ) (r : Request σ) : Decidable (r.Clear env addr) :=
  inferInstanceAs (Decidable (_ ∨ _))

/-- What `notify` takes out of the buffer map: the parts of its entries that
still point into the request's own buffer. -/
def stale (env : Env) (r : Request σ) (m : Bufmap) : List (ℤ × ℤ × SectorPtr) :=
  r.entries.flatMap fun e =>
    (m.pieces e.lba (e.lba + e.len)).filter fun piece => r.holds env piece.2.2

def forget (env : Env) (r : Request σ) (m : Bufmap) : Bufmap :=
  (r.stale env m).foldl (fun m piece => (m.unset piece.1 piece.2.1).1) m

end Request

inductive Work (σ : Type*)
  | put (r : Request σ)
  | gc (entries : List MapEntry) (data : List σ)
  | ckpt (byGc : Bool)
  | flush (tag : ℕ)

def Work.request : Work σ → Option (Request σ)
  | put r => some r
  | _ => none

def Work.isGc : Work σ → Bool
  | gc _ _ => true
  | _ => false

/-- A PUT on its way; a garbage collection request keeps no buffer that reads
use. -/
structure Put (σ : Type*) where
  seq : ℕ
  obj : Obj σ
  request : Option (Request σ)

/-- How far `write_checkpoint` has got. -/
inductive Stage
  | object
  | superblock
  | deletes (old : List ℕ)

structure Ckpt (σ : Type*) where
  seq : ℕ
  obj : Obj σ
  byGc : Bool
  stage : Stage

/-- How far `do_gc` has got. Selected objects come with their lengths. -/
inductive Gc (σ : Type*)
  | idle
  | started (maxObj : ℤ)
  | reaping (maxObj : ℤ) (dead left : List ℕ)
  | reaped (maxObj : ℤ)
  | bounded (maxObj : ℤ) (lastCkpt : ℕ)
  | selected (maxObj : ℤ) (objs : List (ℕ × ℕ))
  | snapshot (objs : List (ℕ × ℕ)) (live : List (Extent ObjOffset))
  | sending (objs : List (ℕ × ℕ)) (left : List (Extent ObjOffset × List σ))
  | cleaned (objs : List (ℕ × ℕ))
  | waiting (objs : List (ℕ × ℕ))
  | deleting (left : List ℕ)
  | stopped

/-! ## The state -/

structure Tx (σ : Type*) where
  maps : Maps
  bufmap : Bufmap
  current : Request σ
  queue : List (Work σ)
  inflight : List (Put σ)
  curSeq : ℕ
  /-- The flushes that have returned. -/
  returned : List ℕ
  ckpts : List ℕ
  ckpting : Option (Ckpt σ)
  gc : Gc σ
  /-- The numbered objects in the backend. -/
  store : Store σ
  /-- The checkpoints that the superblock in the backend lists. -/
  super : List ℕ

variable (env : Env)

namespace Tx

def pending (s : Tx σ) : List (Request σ) := s.queue.filterMap Work.request ++ [s.current]

def buffers (s : Tx σ) : List (Request σ) := s.inflight.filterMap Put.request ++ s.pending

def peek (s : Tx σ) (ptr : SectorPtr) : Option σ :=
  s.buffers.findSome? fun r => r.sector env ptr

def sent (s : Tx σ) (o : ℕ) : Option (Put σ) :=
  s.inflight.find? fun put => decide (put.seq = o)

/-- The object that a number stands for, on its way or in the backend. -/
def object (s : Tx σ) (o : ℕ) : Option (Obj σ) :=
  match s.sent o with
  | some put => some put.obj
  | none => s.store[o]?

/-! ## Host threads -/

/-- Queue the current batch and start another in a new block. -/
def roll (addr : ℤ) (s : Tx σ) : Option (Tx σ) :=
  if ∀ r ∈ s.buffers, r.Clear env addr then
    some { s with queue := s.queue ++ [.put s.current], current := ⟨addr, [], []⟩ }
  else none

def submit (addr : ℤ) (s : Tx σ) : Option (Tx σ) :=
  if s.current.data.length = 0 then some s else s.roll env addr

def append (lba : ℕ) (data : List σ) (s : Tx σ) : Option (Tx σ) :=
  if 0 < data.length ∧ s.current.room env data.length then
    some { s with
      current := s.current.append lba data
      bufmap := (s.bufmap.set lba (lba + data.length) ⟨s.current.tail⟩).1 }
  else none

/-- `writev`; a write that an empty batch has no room for fails the assertion. -/
def writev (lba : ℕ) (data : List σ) (addr : ℤ) (s : Tx σ) : Option (Tx σ) :=
  (if s.current.room env data.length then some s else s.roll env addr).bind
    (append env lba data)

def flush (tag : ℕ) (addr : ℤ) (s : Tx σ) : Option (Tx σ) :=
  (s.submit env addr).map fun s => { s with queue := s.queue ++ [.flush tag] }

def checkpoint (byGc : Bool) (addr : ℤ) (s : Tx σ) : Option (Tx σ) :=
  (s.submit env addr).map fun s => { s with queue := s.queue ++ [.ckpt byGc] }

/-- The flush thread queues a batch that has waited long enough. -/
def flushThread (addr : ℤ) (s : Tx σ) : Option (Tx σ) :=
  if s.current.data.length = 0 then none else s.roll env addr

def trim (base limit : ℕ) (s : Tx σ) : Option (Tx σ) :=
  (s.maps.trim base limit).map fun maps => { s with maps := maps }

/-! ## The worker -/

def send (rest : List (Work σ)) (request : Option (Request σ)) (maps : Maps) (obj : Obj σ)
    (s : Tx σ) : Tx σ :=
  { s with
    maps := maps
    queue := rest
    inflight := s.inflight ++ [⟨s.curSeq, obj, request⟩]
    curSeq := nextSeq s.curSeq }

/-- One round of `worker_thread`. A flush is answered once no PUT is
outstanding; the worker does nothing else while it writes a checkpoint. -/
def work (s : Tx σ) : Option (Tx σ) :=
  match s.ckpting, s.queue with
  | some _, _ => none
  | none, [] => none
  | none, .put r :: rest =>
      (processBatch env.crc32 env.uuid s.curSeq r.entries r.data s.maps).map fun result =>
        s.send rest (some r) result.1 result.2
  | none, .gc entries data :: rest =>
      (writeGc env.crc32 env.uuid s.curSeq entries data s.maps).map fun result =>
        s.send rest none result.1 result.2
  | none, .ckpt byGc :: rest =>
      (checkpointObject env.uuid s.curSeq s.maps).map fun obj =>
        { s with
          queue := rest
          ckpting := some ⟨s.curSeq, obj, byGc, .object⟩
          curSeq := nextSeq s.curSeq }
  | none, .flush tag :: rest =>
      if s.inflight.length = 0 then some { s with queue := rest, returned := tag :: s.returned }
      else none

def keepThree (ckpts : List ℕ) : List ℕ × List ℕ :=
  (ckpts.drop (ckpts.length - 3), ckpts.take (ckpts.length - 3))

/-- One backend operation of `write_checkpoint`; after the last one the thread
that asked for the checkpoint goes on. -/
def ckptStep (s : Tx σ) : Option (Tx σ) :=
  match s.ckpting with
  | none => none
  | some c =>
      match c.stage with
      | .object => some { s with
          store := s.store.insert c.seq c.obj
          ckpting := some { c with stage := .superblock } }
      | .superblock =>
          let kept := keepThree (s.ckpts ++ [c.seq])
          some { s with
            ckpts := kept.1
            super := kept.1
            ckpting := some { c with stage := .deletes kept.2 } }
      | .deletes (o :: rest) => some { s with
          store := s.store.erase o
          ckpting := some { c with stage := .deletes rest } }
      | .deletes [] => some { s with
          ckpting := none
          gc := match c.byGc, s.gc with
            | true, .waiting objs => .deleting (objs.map Prod.fst)
            | _, phase => phase }

/-- What a completed PUT leaves once `notify` has run. -/
def land (put : Put σ) (s : Tx σ) : Tx σ :=
  { s with
    inflight := s.inflight.filter fun other => decide (other.seq ≠ put.seq)
    store := s.store.insert put.seq put.obj
    bufmap := match put.request with
      | some r => r.forget env s.bufmap
      | none => s.bufmap }

def complete (seq : ℕ) (s : Tx σ) : Option (Tx σ) := (s.sent seq).map fun put => s.land env put

end Tx

end LsvdRbd.Session
