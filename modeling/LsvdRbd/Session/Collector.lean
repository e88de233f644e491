import LsvdRbd.Session.State

/-!
# Garbage collection

`do_gc` reads the shared state in several sections and acts on what it read
later, while the other threads go on. Each section is one step here. Ratios are
compared exactly; the code compares them as doubles.
-/

namespace LsvdRbd.Session

open Records RunList ExtentMap Format Translate Recovery

set_option autoImplicit false

variable {σ : Type*}

def forget (objs : List ℕ) (maps : Maps) : Maps :=
  { maps with info := objs.foldl (fun info o => info.erase o) maps.info }

def uncount (objs : List ℕ) (maps : Maps) : Maps :=
  { maps with
    totalSectors := maps.totalSectors - (objs.map fun o => (maps.info.getD o default).data).sum }

def deadObjects (info : ObjTable) : List ℕ :=
  (info.toList.filter fun entry => decide (entry.2.live = 0)).map Prod.fst

theorem mem_dead_objects {info : ObjTable} {o : ℕ} (dead : o ∈ deadObjects info) :
    ∃ oi : ObjInfo, info[o]? = some oi ∧ oi.live = 0 := by
  obtain ⟨entry, member, rfl⟩ := List.mem_map.mp dead
  obtain ⟨inTable, empty⟩ := List.mem_filter.mp member
  exact ⟨entry.2, Std.ExtTreeMap.mem_toList_iff_getElem?_eq_some.mp inTable, by simpa using empty⟩

def selectable (env : Env) (info : ObjTable) (lastCkpt o : ℕ) : Bool :=
  match info[o]? with
  | none => false
  | some oi => decide (o ≤ lastCkpt ∧ oi.live * 100 ≤ env.threshold * oi.data)

theorem selectable_listed {env : Env} {info : ObjTable} {lastCkpt o : ℕ}
    (allowed : selectable env info lastCkpt o = true) : ∃ oi, info[o]? = some oi := by
  unfold selectable at allowed
  split at allowed
  · cases allowed
  · next oi present => exact ⟨oi, present⟩

def withLengths (info : ObjTable) (objs : List ℕ) : List (ℕ × ℕ) :=
  objs.map fun o => (o, ((info.getD o default).hdr + (info.getD o default).data).toNat)

def liveExtents (m : Objmap) (maxObj : ℤ) (objs : List (ℕ × ℕ)) : Objmap :=
  (m.extents.filter fun e =>
    decide (e.ptr.obj ≤ maxObj ∧ ∃ entry ∈ objs, (entry.1 : ℤ) = e.ptr.obj)).foldl
    (fun live e => (live.set e.base e.limit e.ptr).1) Extmap.empty

/-- A sector of an object as it is copied. The result of the read is not looked at: where
the object has no data, and where it is not there, the buffer has what it had before. -/
def copied (store : Store σ) (buf : ℕ → ℕ → σ) (o k : ℕ) : σ :=
  ((store[o]?).bind fun obj => dataSector obj k).getD (buf o k)

/-- The temporary file: the objects one after the other. -/
def tempFile (store : Store σ) (buf : ℕ → ℕ → σ) (objs : List (ℕ × ℕ)) : List σ :=
  objs.flatMap fun entry => (List.range entry.2).map (copied store buf entry.1)

def fileMap : List (ℕ × ℕ) → ℤ → Option ℕ
  | [], _ => none
  | (o, n) :: rest, obj => if (o : ℤ) = obj then some 0 else (fileMap rest obj).map (n + ·)

/-- The `pread` of one extent, with its offset as an exact number; the `int` product of the
source agrees with it for files below 2 GiB. -/
def readExtent (file : List σ) (objs : List (ℕ × ℕ)) (e : Extent ObjOffset) :
    Option (Extent ObjOffset × List σ) :=
  let sector := (fileMap objs e.ptr.obj).getD 0 + e.ptr.offset.toNat
  ((List.range e.len.toNat).mapM fun i => file[sector + i]?).map fun data => (e, data)

def nextRequest (max : ℤ) : ℤ → List (Extent ObjOffset × List σ) →
    List (Extent ObjOffset × List σ) × List (Extent ObjOffset × List σ)
  | _, [] => ([], [])
  | sectors, e :: rest =>
      if sectors < max then
        let r := nextRequest max (sectors + e.1.len) rest
        (e :: r.1, r.2)
      else ([], e :: rest)

def gcEntries (taken : List (Extent ObjOffset × List σ)) : List MapEntry :=
  taken.map fun e => .store e.1.base e.1.len e.1.ptr.obj e.1.ptr.offset

variable (env : Env)

namespace Tx

def gcStart (s : Tx σ) : Option (Tx σ) :=
  match s.gc with
  | .idle => some { s with gc := .started (signedField 32 s.curSeq) }
  | _ => none

def gcDead (s : Tx σ) : Option (Tx σ) :=
  match s.gc with
  | .started maxObj =>
      let dead := deadObjects s.maps.info
      some { s with maps := uncount dead s.maps, gc := .reaping maxObj dead dead }
  | _ => none

/-- The deletes of dead objects run side by side. -/
def gcReap (o : ℕ) (s : Tx σ) : Option (Tx σ) :=
  match s.gc with
  | .reaping maxObj dead left =>
      if o ∈ left then
        some { s with store := s.store.erase o, gc := .reaping maxObj dead (left.erase o) }
      else none
  | _ => none

def gcErase (s : Tx σ) : Option (Tx σ) :=
  match s.gc with
  | .reaping maxObj dead [] => some { s with maps := forget dead s.maps, gc := .reaped maxObj }
  | _ => none

def gcBound (s : Tx σ) : Option (Tx σ) :=
  match s.gc with
  | .reaped maxObj => some { s with gc := .bounded maxObj (s.ckpts.getLast?.getD s.curSeq) }
  | _ => none

/-- The code takes up to 33 objects, least utilised first; any selection within
its limits is allowed here. -/
def gcSelect (objs : List ℕ) (s : Tx σ) : Option (Tx σ) :=
  match s.gc with
  | .bounded maxObj lastCkpt =>
      if objs.Nodup ∧ objs.length ≤ 33 ∧ ∀ o ∈ objs, selectable env s.maps.info lastCkpt o then
        some { s with
          gc := if objs.length = 0 then .idle else .selected maxObj (withLengths s.maps.info objs) }
      else none
  | _ => none

def gcSnapshot (s : Tx σ) : Option (Tx σ) :=
  match s.gc with
  | .selected maxObj objs =>
      some { s with gc := .snapshot objs (liveExtents s.maps.objmap maxObj objs).extents }
  | _ => none

/-- Copy the objects to the file, and find every extent in it. -/
def gcLoad (buf : ℕ → ℕ → σ) (s : Tx σ) : Option (Tx σ) :=
  match s.gc with
  | .snapshot objs live =>
      (live.mapM (readExtent (tempFile s.store buf objs) objs)).map fun left =>
        { s with gc := .sending objs left }
  | _ => none

def gcSubmit (s : Tx σ) : Option (Tx σ) :=
  match s.gc with
  | .sending objs (first :: rest) =>
      let r := nextRequest (env.objBytes / 512 : ℕ) 0 (first :: rest)
      some { s with
        queue := s.queue ++ [.gc (gcEntries r.1) (r.1.flatMap Prod.snd)]
        gc := .sending objs r.2 }
  | _ => none

def gcQuiet (s : Tx σ) : Bool :=
  (s.queue.all fun item => !item.isGc) && s.inflight.all fun put => put.request.isSome

def gcDone (s : Tx σ) : Option (Tx σ) :=
  match s.gc with
  | .sending objs [] =>
      if s.gcQuiet then
        some { s with
          maps := forget (objs.map Prod.fst) (uncount (objs.map Prod.fst) s.maps)
          gc := .cleaned objs }
      else none
  | _ => none

def gcCheckpoint (addr : ℤ) (s : Tx σ) : Option (Tx σ) :=
  match s.gc with
  | .cleaned objs => (s.checkpoint env true addr).map fun s => { s with gc := .waiting objs }
  | _ => none

def gcDelete (s : Tx σ) : Option (Tx σ) :=
  match s.gc with
  | .deleting (o :: rest) => some { s with store := s.store.erase o, gc := .deleting rest }
  | .deleting [] => some { s with gc := .idle }
  | _ => none

/-- A requested stop is noticed in the middle of a cycle; after the last request
the table entries may be erased first. -/
def gcStop (erase : Bool) (s : Tx σ) : Option (Tx σ) :=
  match s.gc with
  | .sending objs [] => some { s with
      maps := if erase then forget (objs.map Prod.fst) (uncount (objs.map Prod.fst) s.maps)
        else s.maps
      gc := .stopped }
  | .idle | .selected _ _ | .snapshot _ _ | .sending _ _ | .cleaned _ =>
      some { s with gc := .stopped }
  | _ => none

end Tx

/-! ## The machine -/

/-- One step of a thread, with what the environment decides: the address a new
block gets, the PUT that completes, the objects selected, what a buffer holds. -/
inductive Action (σ : Type*)
  | writev (lba : ℕ) (data : List σ) (addr : ℤ)
  | flush (tag : ℕ) (addr : ℤ)
  | checkpoint (addr : ℤ)
  | flushThread (addr : ℤ)
  | trim (base limit : ℕ)
  | work
  | ckptStep
  | complete (seq : ℕ)
  | gcStart
  | gcDead
  | gcReap (o : ℕ)
  | gcErase
  | gcBound
  | gcSelect (objs : List ℕ)
  | gcSnapshot
  | gcLoad (buf : ℕ → ℕ → σ)
  | gcSubmit
  | gcDone
  | gcCheckpoint (addr : ℤ)
  | gcDelete
  | gcStop (erase : Bool)

def step (s : Tx σ) : Action σ → Option (Tx σ)
  | .writev lba data addr => s.writev env lba data addr
  | .flush tag addr => s.flush env tag addr
  | .checkpoint addr => s.checkpoint env false addr
  | .flushThread addr => s.flushThread env addr
  | .trim base limit => s.trim base limit
  | .work => s.work env
  | .ckptStep => s.ckptStep
  | .complete seq => s.complete env seq
  | .gcStart => s.gcStart
  | .gcDead => s.gcDead
  | .gcReap o => s.gcReap o
  | .gcErase => s.gcErase
  | .gcBound => s.gcBound
  | .gcSelect objs => s.gcSelect env objs
  | .gcSnapshot => s.gcSnapshot
  | .gcLoad buf => s.gcLoad buf
  | .gcSubmit => s.gcSubmit env
  | .gcDone => s.gcDone
  | .gcCheckpoint addr => s.gcCheckpoint env addr
  | .gcDelete => s.gcDelete
  | .gcStop erase => s.gcStop erase

end LsvdRbd.Session
