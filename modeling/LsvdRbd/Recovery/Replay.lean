import LsvdRbd.Lib.Machine
import LsvdRbd.Translate.Worker

/-!
# Opening an image

`lsvd_image` rebuilds the object map and the object table from the last
checkpoint that the superblock lists, replays the data objects after it until one
is missing or is not a data object, and deletes a window of objects beyond. The
number of the last object replayed is where the worker goes on.
-/

namespace LsvdRbd.Recovery

open Records RunList ExtentMap Format Translate

set_option autoImplicit false

variable {σ : Type*}

abbrev Store (σ : Type*) := Std.ExtTreeMap ℕ (Obj σ)

/-- `seq + 1` and `seq - 1` of a `seqnum_t`. -/
def nextSeq (seq : ℕ) : ℕ := (seq + 1) % 2 ^ 32

def prevSeq (seq : ℕ) : ℕ := (seq + (2 ^ 32 - 1)) % 2 ^ 32

theorem next_seq_eq {seq : ℕ} (bound : seq < 2 ^ 31) : nextSeq seq = seq + 1 := by
  unfold nextSeq
  omega

theorem prev_seq_eq {seq : ℕ} (bound : seq + 1 < 2 ^ 32) : prevSeq (seq + 1) = seq := by
  unfold prevSeq
  omega

/-- What the constructor of `lsvd_image` rebuilds. -/
structure Image where
  objmap : Objmap
  info : ObjTable
  ckpts : List ℕ

/-- One displaced extent in `apply_log`: the table entry is made if it is
missing, and the check throws when the new count is *not* negative. -/
def chargeReplayed (info : ObjTable) (d : Extent ObjOffset) : Except Fault ObjTable :=
  let oi := info.getD (infoKey d.ptr) default
  let live := oi.live - d.len
  if 0 ≤ live then .error .negativeLive
  else .ok (info.insert (infoKey d.ptr) { oi with live := live })

/-- `apply_log`; nothing stands for the result `false`. -/
def applyLog (obj : Option (Obj σ)) (seq : ℕ) (s : Image) : Except Fault (Option Image) := do
  match ← readDataHdr obj with
  | none => return none
  | some parsed =>
      if parsed.hdr.type = ObjType.checkpoint.code then
        return some { s with ckpts := s.ckpts ++ [seq] }
      let info := s.info.insert seq
        ⟨parsed.hdr.hdrSectors, parsed.hdr.dataSectors, parsed.hdr.dataSectors⟩
      let r := mapExtents seq parsed.hdr.hdrSectors (dataRanges parsed.dataMap) s.objmap
      let info ← r.2.foldlM chargeReplayed info
      return some { s with objmap := r.1, info := info }

/-- The map-update loop of `apply_log` alone. -/
def applyLogMap (obj : Option (Obj σ)) (seq : ℕ) (m : Objmap) : Except Fault (Option Objmap) := do
  match ← readDataHdr obj with
  | none => return none
  | some parsed =>
      return some (mapExtents seq parsed.hdr.hdrSectors (dataRanges parsed.dataMap) m).1

/-- Apply one number after the other until one does not apply; the result comes
with that number. The loop has no bound of its own: `none` if it is still going
after `fuel` numbers. -/
def replay {α : Type*} (apply : ℕ → α → Except Fault (Option α)) :
    ℕ → ℕ → α → Option (Except Fault (α × ℕ))
  | 0, _, _ => none
  | fuel + 1, seq, s =>
      match apply seq s with
      | .error fault => some (.error fault)
      | .ok none => some (.ok (s, seq))
      | .ok (some s') => replay apply fuel (nextSeq seq) s'

def loadEntry (m : Objmap) (e : MapEntry) : Objmap :=
  (m.set e.lba (e.lba + e.len) ⟨e.obj, e.offset⟩).1

def loadObject (info : ObjTable) (o : CkptObj) : ObjTable :=
  info.insert o.seq ⟨o.hdrSectors, o.dataSectors, o.liveSectors⟩

def readFromCheckpoint (obj : Option (Obj σ)) (s : Image) : Except Fault Image := do
  match ← readCheckpoint obj with
  | none => throw .noCheckpoint
  | some parsed =>
      return { s with
        objmap := parsed.dmap.foldl loadEntry s.objmap
        info := parsed.objects.foldl loadObject s.info }

/-- The deletion of dangling objects after the last one replayed. -/
def deleteDangling (window seq : ℕ) (store : Store σ) : Store σ :=
  (List.range' 1 (window * 4 - 1)).foldl (fun store i => store.erase ((seq + i) % 2 ^ 32)) store

def rollForward (window : ℕ) (store : Store σ) (s : Image) :
    Option (Except Fault (Image × ℕ × Store σ)) :=
  match s.ckpts.getLast? with
  | none => some (.ok (s, 0, store))
  | some last =>
      (replay (fun n => applyLog store[n]? n) (store.size + 1) (nextSeq last) s).map fun r =>
        r.map fun (s', stop) => (s', prevSeq stop, deleteDangling window (prevSeq stop) store)

/-- What the constructor does with the checkpoints that the superblock lists. -/
def recover (window : ℕ) (ckpts : List ℕ) (store : Store σ) :
    Option (Except Fault (Image × ℕ × Store σ)) :=
  let start : Image := ⟨Extmap.empty, ∅, ckpts⟩
  match ckpts.getLast? with
  | none => rollForward window store start
  | some last =>
      match readFromCheckpoint store[last]? start with
      | .error fault => some (.error fault)
      | .ok s => rollForward window store s

/-- The object map that the checkpoint and the map-update loop alone give, with
the number of the last object replayed. -/
def recoverMap (ckpt : ℕ) (store : Store σ) : Option (Except Fault (Objmap × ℕ)) :=
  match readFromCheckpoint store[ckpt]? ⟨Extmap.empty, ∅, [ckpt]⟩ with
  | .error fault => some (.error fault)
  | .ok s =>
      (replay (fun n => applyLogMap store[n]? n) (store.size + 1) (nextSeq ckpt) s.objmap).map
        fun r => r.map fun (m, stop) => (m, prevSeq stop)

/-! ## Applying one object -/

theorem read_data_hdr_type {obj : Option (Obj σ)} {parsed : ParsedDataHdr}
    (read : readDataHdr obj = .ok (some parsed)) : parsed.hdr.type = ObjType.logData.code := by
  unfold readDataHdr at read
  cases fetched : fetchObjectHeader obj with
  | error fault =>
      rw [fetched] at read
      cases read
  | ok buf =>
      rw [fetched] at read
      cases buf with
      | none => cases read
      | some buf =>
          change (if _ then _ else _) = _ at read
          split at read
          · cases read
          · rename_i type
            cases Except.ok.inj read
            exact not_not.mp type

theorem apply_log_map_data {uuid seq hdrSectors : ℕ} {obj : Obj σ} {ranges : Ranges}
    (data : IsDataObject uuid obj seq hdrSectors ranges) (m : Objmap) :
    applyLogMap (some obj) seq m = .ok (some (mapExtents seq hdrSectors ranges m).1) := by
  obtain ⟨parsed, read, -, -, -, hdr, -, map⟩ := data
  rw [applyLogMap, read, ← hdr, ← map]
  rfl

theorem apply_log_map_absent {obj : Option (Obj σ)} (seq : ℕ) (m : Objmap)
    (read : readDataHdr obj = .ok none) : applyLogMap obj seq m = .ok none := by
  rw [applyLogMap, read]
  rfl

theorem read_data_hdr_missing : readDataHdr (none : Option (Obj σ)) = .ok none := rfl

theorem apply_log_eq {obj : Option (Obj σ)} {parsed : ParsedDataHdr} (seq : ℕ) (s : Image)
    (read : readDataHdr obj = .ok (some parsed)) :
    applyLog obj seq s =
      ((mapExtents seq parsed.hdr.hdrSectors (dataRanges parsed.dataMap) s.objmap).2.foldlM
        chargeReplayed (s.info.insert seq
          ⟨parsed.hdr.hdrSectors, parsed.hdr.dataSectors, parsed.hdr.dataSectors⟩)).map
        fun info => some { s with
          objmap := (mapExtents seq parsed.hdr.hdrSectors (dataRanges parsed.dataMap) s.objmap).1
          info := info } := by
  rw [applyLog, read]
  change (if _ then _ else _) = _
  rw [if_neg (by rw [read_data_hdr_type read]; decide)]
  change Except.bind _ _ = _
  generalize List.foldlM chargeReplayed _ _ = charged
  cases charged <;> rfl

theorem apply_log_cases {obj : Option (Obj σ)} {seq : ℕ} {s : Image} {result : Option Image}
    (applied : applyLog obj seq s = .ok result) :
    (readDataHdr obj = .ok none ∧ result = none) ∨
      ∃ parsed info, readDataHdr obj = .ok (some parsed) ∧
        (mapExtents seq parsed.hdr.hdrSectors (dataRanges parsed.dataMap) s.objmap).2.foldlM
          chargeReplayed (s.info.insert seq
            ⟨parsed.hdr.hdrSectors, parsed.hdr.dataSectors, parsed.hdr.dataSectors⟩) = .ok info ∧
        result = some { s with
          objmap := (mapExtents seq parsed.hdr.hdrSectors (dataRanges parsed.dataMap) s.objmap).1
          info := info } := by
  cases read : readDataHdr obj with
  | error fault =>
      rw [applyLog, read] at applied
      cases applied
  | ok parsed =>
      cases parsed with
      | none =>
          rw [applyLog, read] at applied
          exact .inl ⟨rfl, (Except.ok.inj applied).symm⟩
      | some parsed =>
          rw [apply_log_eq seq s read] at applied
          cases charged : (mapExtents seq parsed.hdr.hdrSectors (dataRanges parsed.dataMap)
              s.objmap).2.foldlM chargeReplayed (s.info.insert seq
                ⟨parsed.hdr.hdrSectors, parsed.hdr.dataSectors, parsed.hdr.dataSectors⟩) with
          | error fault =>
              rw [charged] at applied
              cases applied
          | ok info =>
              rw [charged] at applied
              exact .inr ⟨parsed, info, rfl, charged, (Except.ok.inj applied).symm⟩

theorem apply_log_objmap {obj : Option (Obj σ)} {seq : ℕ} {s : Image} {result : Option Image}
    (applied : applyLog obj seq s = .ok result) :
    applyLogMap obj seq s.objmap = .ok (result.map Image.objmap) := by
  rcases apply_log_cases applied with ⟨read, rfl⟩ | ⟨parsed, info, read, -, rfl⟩
  · exact apply_log_map_absent seq _ read
  · rw [applyLogMap, read]
    rfl

/-- Induction over a replay that ends: it ends at a number that does not apply, and
before that one number after the other is applied. -/
theorem replay_induction {α : Type*} {apply : ℕ → α → Except Fault (Option α)} {last : α} {stop : ℕ}
    {motive : ℕ → ℕ → α → Prop}
    (ends : ∀ fuel, apply stop last = .ok none → motive (fuel + 1) stop last)
    (applies : ∀ fuel seq s next, apply seq s = .ok (some next) →
      replay apply fuel (nextSeq seq) next = some (.ok (last, stop)) →
      motive fuel (nextSeq seq) next → motive (fuel + 1) seq s)
    {fuel seq : ℕ} {s : α} (ran : replay apply fuel seq s = some (.ok (last, stop))) :
    motive fuel seq s := by
  induction fuel generalizing seq s with
  | zero => cases ran
  | succ fuel ih =>
      rw [replay] at ran
      cases applied : apply seq s with
      | error fault =>
          rw [applied] at ran
          cases ran
      | ok result =>
          rw [applied] at ran
          cases result with
          | none =>
              cases ran
              exact ends fuel applied
          | some next => exact applies fuel seq s next applied ran (ih ran)

/-- A replay that does not throw gives the map that the map-update loop alone
gives, and stops at the same number. -/
theorem replay_objmap {store : Store σ} {fuel seq stop : ℕ} {s s' : Image}
    (replayed : replay (fun n => applyLog store[n]? n) fuel seq s = some (.ok (s', stop))) :
    replay (fun n => applyLogMap store[n]? n) fuel seq s.objmap =
      some (.ok (s'.objmap, stop)) := by
  refine replay_induction (motive := fun fuel seq s =>
    replay (fun n => applyLogMap store[n]? n) fuel seq s.objmap = some (.ok (s'.objmap, stop)))
    ?_ ?_ replayed
  · intro fuel applied
    rw [replay, apply_log_objmap applied]
    rfl
  · intro fuel seq s next applied _ later
    rw [replay, apply_log_objmap applied]
    exact later

theorem read_from_checkpoint_eq {obj : Option (Obj σ)} {parsed : ParsedCheckpoint} (s : Image)
    (read : readCheckpoint obj = .ok (some parsed)) :
    readFromCheckpoint obj s = .ok ⟨parsed.dmap.foldl loadEntry s.objmap,
      parsed.objects.foldl loadObject s.info, s.ckpts⟩ := by
  rw [readFromCheckpoint, read]
  rfl

theorem recover_objmap {window ckpt last : ℕ} {older : List ℕ} {store store' : Store σ}
    {image : Image}
    (opened : recover window (older ++ [ckpt]) store = some (.ok (image, last, store'))) :
    recoverMap ckpt store = some (.ok (image.objmap, last)) := by
  unfold recover at opened
  unfold recoverMap
  simp only [List.getLast?_concat] at opened
  cases read : readCheckpoint store[ckpt]? with
  | error fault =>
      rw [readFromCheckpoint, read] at opened
      cases opened
  | ok parsed =>
      cases parsed with
      | none =>
          rw [readFromCheckpoint, read] at opened
          cases opened
      | some parsed =>
          rw [read_from_checkpoint_eq _ read] at opened ⊢
          simp only [rollForward, List.getLast?_concat] at opened
          obtain ⟨result, replayed, finished⟩ := Option.map_eq_some_iff.mp opened
          cases result with
          | error fault => cases finished
          | ok result =>
              obtain ⟨s', stop⟩ := result
              simp only [Except.map, Except.ok.injEq, Prod.mk.injEq] at finished
              obtain ⟨rfl, rfl, -⟩ := finished
              simp only [replay_objmap replayed, Option.map_some, Except.map]

/-! ## Loading a checkpoint -/

theorem load_entries {B : Bounds ObjOffset} {runs : List (Extent ObjOffset)}
    (ordered : Ordered runs) (within : ∀ e ∈ runs, B.holds e) {m : Objmap} (sound : Bounded B m) :
    Bounded B ((runs.map fun e => (⟨e.base, e.len, e.ptr.obj, e.ptr.offset⟩ : MapEntry)).foldl
        loadEntry m) ∧
      ∀ x, locate ((runs.map fun e =>
          (⟨e.base, e.len, e.ptr.obj, e.ptr.offset⟩ : MapEntry)).foldl loadEntry m) x =
        (get runs x).or (locate m x) := by
  induction runs generalizing m with
  | nil => exact ⟨sound, fun x => rfl⟩
  | cons e rest ih =>
      obtain ⟨positive, restOrdered, before⟩ := (ordered_cons _ _).mp ordered
      have limit : e.limit = e.base + e.len := rfl
      have eWithin : B.holds ⟨e.base, e.base + e.len - e.base, e.ptr⟩ := by
        rw [add_sub_cancel_left]
        exact within e (by simp)
      obtain ⟨restSound, restLocate⟩ := ih restOrdered
        (fun other member => within other (by simp [member]))
        (sound.set (by omega : e.base < e.base + e.len) eWithin).1
      refine ⟨restSound, ?_⟩
      intro x
      refine (restLocate x).trans ?_
      rw [sound.locate_set (by omega) eWithin, get_cons]
      by_cases inside : e.base ≤ x ∧ x < e.base + e.len
      · have later : get rest x = none := by
          rw [get_eq_none_iff]
          intro other member otherInside
          have := before other member
          have := inside.2
          have := otherInside.1
          omega
        rw [later, locate_of_contains (show Run.Contains e x from inside), if_pos inside]
        rfl
      · rw [locate_of_not_contains (show ¬Run.Contains e x from inside), if_neg inside]
        simp

theorem within_entry_fits {e : Extent ObjOffset} (within : Within e) (positive : 0 < e.len) :
    MapEntry.Fits ⟨e.base, e.len, e.ptr.obj, e.ptr.offset⟩ := by
  obtain ⟨base, limit, objLower, objUpper, offset, reach⟩ := within
  have eLimit : e.limit = e.base + e.len := rfl
  exact ⟨base, by simp only; omega, by simp only; omega, by simp only; omega, objLower, objUpper,
    offset, by simp only; omega⟩

theorem ckpt_entries_eq {m : Objmap} (sound : Sound m) :
    ckptEntries m = m.extents.map fun e => ⟨e.base, e.len, e.ptr.obj, e.ptr.offset⟩ := by
  apply List.map_congr_left
  intro e member
  have fits := within_entry_fits (sound.within e member) (sound.ordered.positive e member)
  exact fits.store_eq

theorem read_from_checkpoint_object {uuid seq : ℕ} {s : Maps} {obj : Obj σ}
    (uuidBound : uuid < 2 ^ 128) (seqBound : seq < 2 ^ 32)
    (written : checkpointObject uuid seq s = some obj) (ckpts : List ℕ) :
    readFromCheckpoint (some obj) ⟨Extmap.empty, ∅, ckpts⟩ =
      .ok ⟨(ckptEntries s.objmap).foldl loadEntry Extmap.empty,
        (ckptObjects s.info).foldl loadObject ∅, ckpts⟩ := by
  unfold checkpointObject at written
  split at written
  case isFalse => cases written
  case isTrue size =>
      cases written
      obtain ⟨parsed, read, -, objects, dmap⟩ := read_checkpoint_round_trip (σ := σ) uuidBound
        seqBound (by omega) (ckpt_objects_fit s.info) (ckpt_entries_stored s.objmap)
      rw [read_from_checkpoint_eq _ read, objects, dmap]

theorem read_from_written_checkpoint {uuid seq : ℕ} {s : Maps} {obj : Obj σ}
    (sound : Sound s.objmap) (uuidBound : uuid < 2 ^ 128) (seqBound : seq < 2 ^ 32)
    (written : checkpointObject uuid seq s = some obj) (ckpts : List ℕ) :
    ∃ m, readFromCheckpoint (some obj) ⟨Extmap.empty, ∅, ckpts⟩ =
        .ok ⟨m, (ckptObjects s.info).foldl loadObject ∅, ckpts⟩ ∧
      Sound m ∧ ∀ x, locate m x = locate s.objmap x := by
  obtain ⟨loadedSound, located⟩ := load_entries sound.ordered sound.within sound_empty
  refine ⟨_, read_from_checkpoint_object uuidBound seqBound written ckpts, ?_⟩
  rw [ckpt_entries_eq sound]
  refine ⟨loadedSound, ?_⟩
  intro x
  rw [located, locate_empty, Option.or_none]
  rfl

theorem checkpoint_object_not_data {uuid seq : ℕ} {s : Maps} {obj : Obj σ}
    (uuidBound : uuid < 2 ^ 128) (seqBound : seq < 2 ^ 32)
    (written : checkpointObject uuid seq s = some obj) : readDataHdr (some obj) = .ok none := by
  unfold checkpointObject at written
  split at written
  case isFalse => cases written
  case isTrue size =>
      cases written
      exact read_data_hdr_checkpoint uuidBound seqBound (by omega)

/-! ## Replaying a stretch of the log -/

/-- The object is a data object that takes the map `f` to the map `g`. -/
def LaysOver (uuid : ℕ) (obj : Option (Obj σ)) (seq : ℕ) (f g : ℤ → Option ObjOffset) : Prop :=
  ∃ o hdrSectors ranges, obj = some o ∧ IsDataObject uuid o seq hdrSectors ranges ∧
    Proper ranges ∧ hdrSectors + sectors ranges ≤ 2 ^ 22 ∧
    ∀ x, g x = overlay seq hdrSectors ranges f x

theorem Emits.lays_over {uuid seq hdrSectors : ℕ} {s s' : Maps} {obj : Obj σ} {ranges : Ranges}
    (emits : Emits uuid seq s s' obj hdrSectors ranges) :
    LaysOver uuid (some obj) seq (locate s.objmap) (locate s'.objmap) :=
  ⟨obj, hdrSectors, ranges, rfl, emits.object, emits.proper, emits.reach, emits.locate_eq⟩

/-- A stretch of consecutive data objects is replayed one after the other, up to
the first number that holds no data object. -/
theorem replay_stretch (uuid : ℕ) (store : Store σ) (f : ℕ → ℤ → Option ObjOffset)
    (first count fuel : ℕ) (bound : first + count ≤ 2 ^ 31)
    (steps : ∀ j < count, LaysOver uuid store[first + j]? (first + j) (f j) (f (j + 1)))
    (stop : readDataHdr store[first + count]? = .ok none) {m : Objmap} (sound : Sound m)
    (start : ∀ x, locate m x = f 0 x) (enough : count < fuel) :
    ∃ m', replay (fun n => applyLogMap store[n]? n) fuel first m =
        some (.ok (m', first + count)) ∧ Sound m' ∧ ∀ x, locate m' x = f count x := by
  induction count generalizing first f m fuel with
  | zero =>
      obtain ⟨fuel, rfl⟩ := Nat.exists_eq_add_of_lt enough
      refine ⟨m, ?_, sound, start⟩
      rw [add_zero] at stop
      rw [zero_add, replay, apply_log_map_absent first m stop]
      rfl
  | succ count ih =>
      obtain ⟨fuel, rfl⟩ : ∃ rest, fuel = rest + 1 := ⟨fuel - 1, by omega⟩
      obtain ⟨obj, hdrSectors, ranges, here, data, proper, reach, laid⟩ := steps 0 (by omega)
      obtain ⟨nextSound, nextLocate, -, -⟩ := map_extents_spec first
        hdrSectors sound proper (by omega) (by omega) (by omega) reach
      have next : nextSeq first = first + 1 := next_seq_eq (by omega)
      obtain ⟨m', replayed, finalSound, final⟩ := ih
        (fun j => f (j + 1)) (first + 1) fuel (by omega)
        (fun j inside => by
          have := steps (j + 1) (by omega)
          rwa [show first + (j + 1) = first + 1 + j by omega] at this)
        (by rwa [show first + 1 + count = first + (count + 1) by omega]) nextSound
        (by
          intro x
          rw [nextLocate, laid x, add_zero]
          simp only [overlay, start])
        (by omega)
      refine ⟨m', ?_, finalSound, final⟩
      rw [add_zero] at here data
      rw [replay, here, apply_log_map_data data]
      simp only [next]
      rw [replayed, show first + 1 + count = first + (count + 1) by omega]

theorem count_le_size (store : Store σ) (first count : ℕ)
    (present : ∀ j < count, ∃ obj, store[first + j]? = some obj) : count ≤ store.size := by
  have inside : List.range' first count ⊆ store.keys := by
    intro n member
    obtain ⟨j, bound, rfl⟩ := List.mem_range'.mp member
    obtain ⟨obj, found⟩ := present j bound
    rw [one_mul, Std.ExtTreeMap.mem_keys, Std.ExtTreeMap.mem_iff_isSome_getElem?, found]
    rfl
  have := (List.subperm_of_subset List.nodup_range' inside).length_le
  rwa [List.length_range', Std.ExtTreeMap.length_keys] at this

/-! ## What replay reads -/

/-- Two replays of stores that agree from the first number on are the same, if
neither runs out of fuel over objects that are there. -/
theorem replay_congr {α : Type*} {apply : Option (Obj σ) → ℕ → α → Except Fault (Option α)}
    (absent : ∀ n s, apply none n s = .ok none) {store store' : Store σ}
    (low : ∀ n, 2 ^ 31 ≤ n → store[n]? = none) {fuel fuel' first : ℕ}
    (same : ∀ n, first ≤ n → store'[n]? = store[n]?)
    (enough : ∀ k, (∀ j < k, ∃ obj, store[first + j]? = some obj) → k < fuel)
    (enough' : ∀ k, (∀ j < k, ∃ obj, store[first + j]? = some obj) → k < fuel') (s : α) :
    replay (fun n => apply store'[n]? n) fuel' first s =
      replay (fun n => apply store[n]? n) fuel first s := by
  induction fuel generalizing fuel' first s with
  | zero =>
      have := enough 0 (by simp)
      omega
  | succ fuel ih =>
      obtain ⟨fuel', rfl⟩ : ∃ rest, fuel' = rest + 1 :=
        ⟨fuel' - 1, by have := enough' 0 (by simp); omega⟩
      rw [replay, replay, same first (le_refl _)]
      cases applied : apply store[first]? first s with
      | error fault => rfl
      | ok result =>
          cases result with
          | none => rfl
          | some next =>
              obtain ⟨obj, here⟩ : ∃ obj, store[first]? = some obj := by
                cases found : store[first]? with
                | none =>
                    rw [found, absent] at applied
                    cases applied
                | some obj => exact ⟨obj, rfl⟩
              have bound : first < 2 ^ 31 := by
                by_contra high
                rw [low first (by omega)] at here
                cases here
              have more : ∀ k, (∀ j < k, ∃ obj, store[first + 1 + j]? = some obj) →
                  ∀ j < k + 1, ∃ obj, store[first + j]? = some obj := by
                intro k later j inside
                cases j with
                | zero => exact ⟨obj, here⟩
                | succ j =>
                    rw [show first + (j + 1) = first + 1 + j by omega]
                    exact later j (by omega)
              simp only [next_seq_eq bound]
              apply ih
              · exact fun n later => same n (by omega)
              · intro k later
                have := enough (k + 1) (more k later)
                omega
              · intro k later
                have := enough' (k + 1) (more k later)
                omega

section Congr

variable {store store' : Store σ} (low : ∀ n, 2 ^ 31 ≤ n → store[n]? = none) {ckpt : ℕ}
  (bound : ckpt < 2 ^ 31) (same : ∀ n, ckpt ≤ n → store'[n]? = store[n]?)
include low bound same

private theorem replay_store_congr {α : Type*}
    {apply : Option (Obj σ) → ℕ → α → Except Fault (Option α)}
    (absent : ∀ n s, apply none n s = .ok none) (s : α) :
    replay (fun n => apply store'[n]? n) (store'.size + 1) (nextSeq ckpt) s =
      replay (fun n => apply store[n]? n) (store.size + 1) (nextSeq ckpt) s := by
  rw [next_seq_eq bound]
  refine replay_congr absent low (fun n later => same n (by omega)) ?_ ?_ s
  · intro k present
    have := count_le_size store _ k present
    omega
  · intro k present
    have := count_le_size store' (ckpt + 1) k fun j inside => by
      rw [same _ (by omega)]
      exact present j inside
    omega

/-- The recovered map depends on the checkpoint and later objects only. -/
theorem recover_map_congr : recoverMap ckpt store' = recoverMap ckpt store := by
  unfold recoverMap
  rw [same ckpt (le_refl _)]
  cases readFromCheckpoint store[ckpt]? ⟨Extmap.empty, ∅, [ckpt]⟩ with
  | error fault => rfl
  | ok image =>
      simp only
      rw [replay_store_congr low bound same fun n s => apply_log_map_absent n s rfl]

theorem recover_congr (window : ℕ) {ckpts : List ℕ} (last : ckpts.getLast? = some ckpt) :
    (recover window ckpts store').map (fun r => r.map fun r => (r.1, r.2.1)) =
      (recover window ckpts store).map (fun r => r.map fun r => (r.1, r.2.1)) := by
  unfold recover
  simp only [last, same ckpt (le_refl _)]
  cases read : readFromCheckpoint store[ckpt]? ⟨Extmap.empty, ∅, ckpts⟩ with
  | error fault => rfl
  | ok image =>
      have kept : image.ckpts = ckpts := by
        rw [readFromCheckpoint] at read
        cases parsed : readCheckpoint store[ckpt]? with
        | error fault =>
            rw [parsed] at read
            cases read
        | ok parsed' =>
            rw [parsed] at read
            cases parsed' with
            | none => cases read
            | some _ => exact congrArg Image.ckpts (Except.ok.inj read).symm
      simp only [rollForward, kept, last]
      rw [replay_store_congr low bound same fun n s => by rw [applyLog]; rfl]
      simp only [Option.map_map]
      congr 1
      funext r
      cases r <;> rfl

end Congr

/-- An object that the worker has made: a data object, or one that ends a replay. -/
def IsLogged (uuid n : ℕ) (obj : Obj σ) : Prop :=
  readDataHdr (some obj) = .ok none ∨ ∃ hdrSectors ranges,
    IsDataObject uuid obj n hdrSectors ranges ∧ Proper ranges ∧
      hdrSectors + sectors ranges ≤ 2 ^ 22

theorem replay_mapped {uuid : ℕ} {store : Store σ} (low : ∀ n, 2 ^ 31 ≤ n → store[n]? = none)
    (logged : ∀ n obj, store[n]? = some obj → IsLogged uuid n obj) {fuel first stop : ℕ}
    {m m' : Objmap} (sound : Sound m)
    (replayed : replay (fun n => applyLogMap store[n]? n) fuel first m = some (.ok (m', stop))) :
    ∀ x p, locate m' x = some p → locate m x = some p ∨ (first : ℤ) ≤ p.obj := by
  induction fuel generalizing first m with
  | zero => cases replayed
  | succ fuel ih =>
      rw [replay] at replayed
      cases found : store[first]? with
      | none =>
          rw [found, apply_log_map_absent first m rfl] at replayed
          cases replayed
          exact fun x p located => .inl located
      | some obj =>
          have bound : first < 2 ^ 31 := by
            by_contra high
            rw [low first (by omega)] at found
            cases found
          rw [found] at replayed
          rcases logged first obj found with stops | ⟨hdrSectors, ranges, data, proper, reach⟩
          · rw [apply_log_map_absent first m stops] at replayed
            cases replayed
            exact fun x p located => .inl located
          · rw [apply_log_map_data data] at replayed
            simp only [next_seq_eq bound] at replayed
            obtain ⟨nextSound, nextLocate, -, -⟩ := map_extents_spec first hdrSectors sound proper
              (by omega) (by omega) (by omega) reach
            intro x p located
            rcases ih nextSound replayed x p located with old | new
            · rw [nextLocate, overlay] at old
              split at old
              · cases old
                exact .inr (le_refl _)
              · exact .inl old
            · exact .inr (by omega)

end LsvdRbd.Recovery
