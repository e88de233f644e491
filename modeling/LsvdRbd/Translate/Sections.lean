import LsvdRbd.Lib.Machine
import LsvdRbd.Translate.Worker

/-!
# Sections under the map lock

`trim`, `process_batch` and `write_gc` change the object map under `omap_mtx`, but only
the first two settle the object table in the same section. `write_gc` looks up its
entries, charges what it displaced and enters the new object without the lock, and a
trim can run between any two of these steps. Here each section is a step, and so are
the lookups for one entry, the charge of one extent and the table entry.
-/

namespace LsvdRbd.Translate

open Records RunList ExtentMap Format Machine

set_option autoImplicit false

variable {σ : Type*}

/-! ## The parts of the worker's functions -/

def batchLost (seq : ℕ) (entries : List MapEntry) (m : Objmap) : List (Extent ObjOffset) :=
  (mapExtents seq (hdrSectorsFor entries.length) (entryRanges entries) m).2

def batchTable (seq : ℕ) (entries : List MapEntry) (data : List σ) (info : ObjTable) : ObjTable :=
  info.insert seq ⟨hdrSectorsFor entries.length, data.length, data.length⟩

namespace Maps

def batchSection (seq : ℕ) (entries : List MapEntry) (data : List σ) (s : Maps) : Option Maps :=
  if (hdrSectorsFor entries.length + data.length) * 512 < 2 ^ 31 then
    (chargeAll (batchTable seq entries data s.info, s.totalLive)
        (batchLost seq entries s.objmap)).map fun acc =>
      { s with
        objmap := (mapExtents seq (hdrSectorsFor entries.length) (entryRanges entries) s.objmap).1
        info := acc.1
        totalLive := acc.2 }
  else none

/-- What `process_batch` does to the totals after its section. -/
def countBatch (seq dataSectors : ℕ) (s : Maps) : Maps :=
  { s with
    totalSectors := s.totalSectors + dataSectors
    totalLive := s.totalLive + (s.info.getD seq default).live }

/-- The section of `write_gc`, with the extents that it displaces. -/
def gcSection (seq : ℕ) (pieces : List (ℤ × List σ)) (s : Maps) :
    Option (Maps × List (Extent ObjOffset)) :=
  let extents := gcExtents pieces
  let hdrSectors := hdrSectorsFor extents.length
  if (hdrSectors + (pieces.flatMap Prod.snd).length) * 512 < 2 ^ 31 then
    let r := mapExtents seq hdrSectors (dataRanges extents) s.objmap
    some ({ s with objmap := r.1 }, r.2)
  else none

def chargeOne (s : Maps) (d : Extent ObjOffset) : Option Maps :=
  (charge (s.info, s.totalLive) d).map fun acc => { s with info := acc.1, totalLive := acc.2 }

def enter (seq : ℕ) (oi : ObjInfo) (s : Maps) : Maps := { s with info := s.info.insert seq oi }

end Maps

def gcEntry (pieces : List (ℤ × List σ)) : ObjInfo :=
  ⟨hdrSectorsFor (gcExtents pieces).length, (pieces.flatMap Prod.snd).length,
    (pieces.flatMap Prod.snd).length⟩

theorem process_batch_eq (crc32 : Bytes → ℕ) (uuid seq : ℕ) (entries : List MapEntry)
    (data : List σ) (s : Maps) :
    processBatch crc32 uuid seq entries data s =
      (s.batchSection seq entries data).map fun s' => (s'.countBatch seq data.length,
        ⟨makeObjHdr crc32 uuid seq (hdrSectorsFor entries.length) data.length
          (entries.map fun e => .store e.lba e.len) false, data⟩) := by
  unfold processBatch Maps.batchSection batchLost batchTable
  dsimp only
  split
  · rw [Option.map_map]
    rfl
  · rfl

theorem charge_each_eq (s : Maps) (deleted : List (Extent ObjOffset)) :
    deleted.foldlM Maps.chargeOne s = (chargeAll (s.info, s.totalLive) deleted).map fun acc =>
      { s with info := acc.1, totalLive := acc.2 } := by
  induction deleted generalizing s with
  | nil => rfl
  | cons d rest ih =>
      rw [List.foldlM_cons, chargeAll, List.foldlM_cons, Maps.chargeOne]
      cases charge (s.info, s.totalLive) d with
      | none => rfl
      | some acc => exact ih { s with info := acc.1, totalLive := acc.2 }

/-- The second half of `write_gc` is its section, then the charges, then the entry. -/
theorem update_gc_eq (crc32 : Bytes → ℕ) (uuid seq : ℕ) (pieces : List (ℤ × List σ)) (s : Maps) :
    updateGc crc32 uuid seq pieces s = (s.gcSection seq pieces).bind fun r =>
      (r.2.foldlM Maps.chargeOne r.1).map fun s' => (s'.enter seq (gcEntry pieces),
        ⟨makeObjHdr crc32 uuid seq (hdrSectorsFor (gcExtents pieces).length)
          (pieces.flatMap Prod.snd).length (gcExtents pieces) true, pieces.flatMap Prod.snd⟩) := by
  unfold updateGc Maps.gcSection
  dsimp only
  split
  · rw [Option.bind_some, charge_each_eq, Option.map_map]
    rfl
  · rfl

/-! ## What each part leaves -/

section Specs

variable {s s' : Maps} {seq : ℕ}

theorem Maps.trim_spec (sound : Sound s.objmap) {base limit : ℤ} (lower : 0 ≤ base)
    (order : base ≤ limit) (upper : base < 2 ^ 35) (done : s.trim base limit = some s') :
    Sound s'.objmap ∧
      (∀ x, locate s'.objmap x = if base ≤ x ∧ x < limit then none else locate s.objmap x) ∧
      (∀ o, owned o s'.objmap.extents + owned o (s.objmap.unset base limit).2 =
        owned o s.objmap.extents) ∧
      ∀ o : ℕ, s'.info[o]? = (s.info[o]?).map fun oi =>
        { oi with live := oi.live - owned o (s.objmap.unset base limit).2 } := by
  have key := objmap_key lower (by omega)
  obtain ⟨acc, charged, rfl⟩ := Option.map_eq_some_iff.mp done
  obtain ⟨kept, extents, lost⟩ := sound.unset order key
  refine ⟨kept, sound.locate_unset order key, ?_, ?_⟩
  · intro o
    dsimp only
    rw [extents, lost]
    exact owned_cut order sound.ordered o
  · exact charge_all_table _ _ (fun d member => (sound.unset_displaced order key d member).1) charged

theorem Maps.batch_section_spec {entries : List MapEntry} {data : List σ} (sound : Sound s.objmap)
    (request : ProperRequest entries data) (seqBound : seq < 2 ^ 31)
    (done : s.batchSection seq entries data = some s') :
    (Sound s'.objmap ∧ ∀ x p, locate s'.objmap x = some p →
        p.obj = seq ∨ locate s.objmap x = some p) ∧
      (∀ d ∈ batchLost seq entries s.objmap, (Within d ∧ 0 < d.len) ∧
        (d.ptr.obj = seq ∨ ∃ x p, locate s.objmap x = some p ∧ p.obj = d.ptr.obj)) ∧
      (∀ o : ℤ, owned o s'.objmap.extents + owned o (batchLost seq entries s.objmap) =
        owned o s.objmap.extents + if (seq : ℤ) = o then (data.length : ℤ) else 0) ∧
      ∀ o : ℕ, s'.info[o]? = ((batchTable seq entries data s.info)[o]?).map fun oi =>
        { oi with live := oi.live - owned o (batchLost seq entries s.objmap) } := by
  have length := request.length
  unfold Maps.batchSection at done
  split at done
  case isFalse => cases done
  case isTrue size =>
      obtain ⟨acc, charged, rfl⟩ := Option.map_eq_some_iff.mp done
      obtain ⟨mapSound, laid, lost, counts⟩ := map_extents_spec seq (hdrSectorsFor entries.length)
        sound request.ranges (by omega) (by omega) (by omega) (by omega)
      refine ⟨⟨mapSound, ?_⟩, ?_, ?_, ?_⟩
      · intro x p found
        rw [laid, overlay] at found
        split at found
        · exact Or.inl (by rw [← Option.some.inj found])
        · exact Or.inr found
      · intro d member
        refine ⟨lost d member, ?_⟩
        by_cases own : d.ptr.obj = seq
        · exact Or.inl own
        · exact Or.inr (map_extents_lost sound request.ranges (by omega) (by omega) (by omega)
            (by omega) member own)
      · rw [← length]
        exact counts
      · exact charge_all_table _ _ (fun d member => (lost d member).1) charged

theorem Maps.gc_section_spec {pieces : List (ℤ × List σ)} {lost : List (Extent ObjOffset)}
    (sound : Sound s.objmap) (below : s.Below seq) (proper : Proper (pieceRanges pieces))
    (apart : Apart (pieceRanges pieces)) (seqBound : seq < 2 ^ 31)
    (done : s.gcSection seq pieces = some (s', lost)) :
    (Sound s'.objmap ∧ s'.info = s.info ∧ ∀ x p, locate s'.objmap x = some p →
        p.obj = seq ∨ locate s.objmap x = some p) ∧
      (∀ d ∈ lost, (Within d ∧ 0 < d.len) ∧ d.ptr.obj ≠ seq ∧
        ∃ x p, locate s.objmap x = some p ∧ p.obj = d.ptr.obj) ∧
      ∀ o : ℤ, owned o s'.objmap.extents + owned o lost =
        owned o s.objmap.extents + if (seq : ℤ) = o then (gcEntry pieces).live else 0 := by
  have length := sectors_piece_ranges pieces
  have extentsLength : (gcExtents pieces).length = pieces.length := by simp [gcExtents]
  unfold Maps.gcSection at done
  dsimp only at done
  rw [extentsLength] at done
  split at done
  case isFalse => cases done
  case isTrue size =>
      rw [(gc_extents_eq proper (by omega)).2] at done
      cases done
      obtain ⟨mapSound, laid, lost, counts⟩ := map_extents_spec seq (hdrSectorsFor pieces.length)
        sound proper (by omega) (by omega) (by omega) (by omega)
      have none : owned seq (mapExtents seq (hdrSectorsFor pieces.length) (pieceRanges pieces)
          s.objmap).2 = 0 := by
        rw [map_extents_own_iff sound proper (by omega) (by omega) (by omega) (by omega)]
        refine ⟨?_, apart⟩
        intro range _ x p _ _ found
        have := below.mapped x p found
        omega
      have others := (owned_eq_zero_iff_forall fun d member => (lost d member).2.le).mp none
      refine ⟨⟨mapSound, rfl, ?_⟩, ?_, ?_⟩
      · intro x p found
        rw [laid, overlay] at found
        split at found
        · exact Or.inl (by rw [← Option.some.inj found])
        · exact Or.inr found
      · intro d member
        have other := others d member (lost d member).2
        exact ⟨lost d member, other, map_extents_lost sound proper (by omega) (by omega) (by omega)
          (by omega) member other⟩
      · intro o
        rw [counts o, length]
        rfl

theorem Maps.charge_one_spec {d : Extent ObjOffset} (within : Within d)
    (done : s.chargeOne d = some s') :
    s'.objmap = s.objmap ∧ ∀ o : ℕ, s'.info[o]? = (s.info[o]?).map fun oi =>
      { oi with live := oi.live - owned o [d] } := by
  obtain ⟨acc, charged, rfl⟩ := Option.map_eq_some_iff.mp done
  refine ⟨rfl, ?_⟩
  refine @charge_all_table [d] s.info s.totalLive (by simpa using within) acc ?_
  rw [chargeAll, List.foldlM_cons, charged]
  rfl

end Specs

/-! ## Interleaving the worker with trims -/

inductive Doing (σ : Type*)
  | idle
  | counting (seq dataSectors : ℕ)
  | reading (seq : ℕ) (left : List MapEntry) (input : List σ) (pieces : List (ℤ × List σ))
  | charging (seq : ℕ) (left : List (Extent ObjOffset)) (oi : ObjInfo)

namespace Doing

def isIdle : Doing σ → Bool
  | idle => true
  | _ => false

theorem is_idle_iff {doing : Doing σ} : doing.isIdle = true ↔ doing = .idle := by
  cases doing with
  | idle => simp [isIdle]
  | counting seq dataSectors => simp [isIdle]
  | reading seq left input pieces => simp [isIdle]
  | charging seq left oi => simp [isIdle]

def unentered : Doing σ → Option ℕ
  | charging seq _ _ => some seq
  | _ => none

def pending : Doing σ → ℕ → Option ObjInfo
  | charging seq _ oi, o => if seq = o then some oi else none
  | _, _ => none

def displaced : Doing σ → List (Extent ObjOffset)
  | charging _ left _ => left
  | _ => []

end Doing

structure Shared (σ : Type*) where
  maps : Maps
  nextSeq : ℕ
  doing : Doing σ

inductive Turn (σ : Type*)
  | trim (base limit : ℤ)
  | batch (entries : List MapEntry) (data : List σ)
  | count
  | gc (entries : List MapEntry) (input : List σ)
  | lookup
  | map
  | charge
  | enter
  | ckpt

/-- One step of the worker, or a trim. `write_checkpoint` takes a number and only reads. -/
def Shared.step (s : Shared σ) (turn : Turn σ) : Option (Shared σ) :=
  match turn, s.doing with
  | .trim base limit, _ => (s.maps.trim base limit).map fun maps => { s with maps := maps }
  | .batch entries data, .idle =>
      (s.maps.batchSection s.nextSeq entries data).map fun maps =>
        ⟨maps, s.nextSeq + 1, .counting s.nextSeq data.length⟩
  | .count, .counting seq dataSectors =>
      some { s with maps := s.maps.countBatch seq dataSectors, doing := .idle }
  | .gc entries input, .idle =>
      some { s with nextSeq := s.nextSeq + 1, doing := .reading s.nextSeq entries input [] }
  | .lookup, .reading seq (e :: rest) input pieces =>
      some { s with
        doing := .reading seq rest (input.drop e.len.toNat)
          (pieces ++ revalidateEntry s.maps.objmap e input) }
  | .map, .reading seq [] _ pieces =>
      (s.maps.gcSection seq pieces).map fun r =>
        { s with maps := r.1, doing := .charging seq r.2 (gcEntry pieces) }
  | .charge, .charging seq (d :: rest) oi =>
      (s.maps.chargeOne d).map fun maps => { s with maps := maps, doing := .charging seq rest oi }
  | .enter, .charging seq [] oi => some { s with maps := s.maps.enter seq oi, doing := .idle }
  | .ckpt, .idle => some { s with nextSeq := s.nextSeq + 1 }
  | _, _ => none

def Turn.Proper : Turn σ → Prop
  | .trim base limit => 0 ≤ base ∧ base ≤ limit ∧ base < 2 ^ 35
  | .batch entries data => ProperRequest entries data
  | .gc entries input => ProperRequest entries input ∧ Apart (entryRanges entries)
  | _ => True

inductive Stepped : Shared σ → Turn σ → Shared σ → Prop
  | trim {maps maps' : Maps} {n : ℕ} {doing : Doing σ} {base limit : ℤ}
      (done : maps.trim base limit = some maps') :
      Stepped ⟨maps, n, doing⟩ (.trim base limit) ⟨maps', n, doing⟩
  | batch {maps maps' : Maps} {n : ℕ} {entries : List MapEntry} {data : List σ}
      (done : maps.batchSection n entries data = some maps') :
      Stepped ⟨maps, n, .idle⟩ (.batch entries data) ⟨maps', n + 1, .counting n data.length⟩
  | count {maps : Maps} {n seq dataSectors : ℕ} :
      Stepped ⟨maps, n, .counting seq dataSectors⟩ .count
        ⟨maps.countBatch seq dataSectors, n, .idle⟩
  | gc {maps : Maps} {n : ℕ} {entries : List MapEntry} {input : List σ} :
      Stepped ⟨maps, n, .idle⟩ (.gc entries input) ⟨maps, n + 1, .reading n entries input []⟩
  | lookup {maps : Maps} {n seq : ℕ} {e : MapEntry} {rest : List MapEntry} {input : List σ}
      {pieces : List (ℤ × List σ)} :
      Stepped ⟨maps, n, .reading seq (e :: rest) input pieces⟩ .lookup
        ⟨maps, n, .reading seq rest (input.drop e.len.toNat)
          (pieces ++ revalidateEntry maps.objmap e input)⟩
  | map {maps maps' : Maps} {n seq : ℕ} {input : List σ} {pieces : List (ℤ × List σ)}
      {lost : List (Extent ObjOffset)} (done : maps.gcSection seq pieces = some (maps', lost)) :
      Stepped ⟨maps, n, .reading seq [] input pieces⟩ .map
        ⟨maps', n, .charging seq lost (gcEntry pieces)⟩
  | charge {maps maps' : Maps} {n seq : ℕ} {d : Extent ObjOffset} {rest : List (Extent ObjOffset)}
      {oi : ObjInfo} (done : maps.chargeOne d = some maps') :
      Stepped ⟨maps, n, .charging seq (d :: rest) oi⟩ .charge ⟨maps', n, .charging seq rest oi⟩
  | enter {maps : Maps} {n seq : ℕ} {oi : ObjInfo} :
      Stepped ⟨maps, n, .charging seq [] oi⟩ .enter ⟨maps.enter seq oi, n, .idle⟩
  | ckpt {maps : Maps} {n : ℕ} : Stepped ⟨maps, n, .idle⟩ .ckpt ⟨maps, n + 1, .idle⟩

theorem Shared.stepped {s t : Shared σ} {turn : Turn σ} (took : s.step turn = some t) :
    Stepped s turn t := by
  obtain ⟨maps, n, doing⟩ := s
  unfold Shared.step at took
  split at took
  · obtain ⟨maps', done, rfl⟩ := Option.map_eq_some_iff.mp took
    exact .trim done
  · next idle =>
      obtain rfl : doing = .idle := idle
      obtain ⟨maps', done, rfl⟩ := Option.map_eq_some_iff.mp took
      exact .batch done
  · next counting =>
      obtain rfl := counting
      cases took
      exact .count
  · next idle =>
      obtain rfl : doing = .idle := idle
      cases took
      exact .gc
  · next reading =>
      obtain rfl := reading
      cases took
      exact .lookup
  · next reading =>
      obtain rfl := reading
      obtain ⟨⟨maps', lost⟩, done, rfl⟩ := Option.map_eq_some_iff.mp took
      exact .map done
  · next charging =>
      obtain rfl := charging
      obtain ⟨maps', done, rfl⟩ := Option.map_eq_some_iff.mp took
      exact .charge done
  · next charging =>
      obtain rfl := charging
      cases took
      exact .enter
  · next idle =>
      obtain rfl : doing = .idle := idle
      cases took
      exact .ckpt
  · cases took

/-! ## Undisturbed -/

section Undisturbed

variable {maps maps' : Maps} {n seq : ℕ}

theorem lookups_run (entries : List MapEntry) (input : List σ) (pieces : List (ℤ × List σ)) :
    ∃ rest, run Shared.step ⟨maps, n, .reading seq entries input pieces⟩
        (List.replicate entries.length .lookup) =
      some ⟨maps, n, .reading seq [] rest (pieces ++ revalidate maps.objmap entries input)⟩ := by
  induction entries generalizing input pieces with
  | nil => exact ⟨input, by rw [revalidate, List.append_nil]; rfl⟩
  | cons e rest ih =>
      obtain ⟨left, ran⟩ := ih (input.drop e.len.toNat)
        (pieces ++ revalidateEntry maps.objmap e input)
      rw [List.append_assoc] at ran
      exact ⟨left, ran⟩

theorem charges_run {left : List (Extent ObjOffset)} (oi : ObjInfo)
    (charged : left.foldlM Maps.chargeOne maps = some maps') :
    run Shared.step (⟨maps, n, .charging seq left oi⟩ : Shared σ)
      (List.replicate left.length .charge) = some ⟨maps', n, .charging seq [] oi⟩ := by
  induction left generalizing maps with
  | nil =>
      cases charged
      rfl
  | cons d rest ih =>
      obtain ⟨next, first, later⟩ := Option.bind_eq_some_iff.mp charged
      rw [List.length_cons, List.replicate_succ, run_cons_eq_some]
      exact ⟨⟨next, n, .charging seq rest oi⟩, by simp only [Shared.step, first, Option.map_some],
        ih later⟩

theorem process_batch_run {crc32 : Bytes → ℕ} {uuid : ℕ} {entries : List MapEntry}
    {data : List σ} {obj : Obj σ}
    (done : processBatch crc32 uuid seq entries data maps = some (maps', obj)) :
    run Shared.step ⟨maps, seq, .idle⟩ [.batch entries data, .count] =
      some ⟨maps', seq + 1, .idle⟩ := by
  rw [process_batch_eq] at done
  obtain ⟨mid, first, same⟩ := Option.map_eq_some_iff.mp done
  cases same
  rw [run_cons_eq_some]
  exact ⟨⟨mid, seq + 1, .counting seq data.length⟩,
    by simp only [Shared.step, first, Option.map_some], rfl⟩

theorem write_gc_run {crc32 : Bytes → ℕ} {uuid : ℕ} {entries : List MapEntry} {input : List σ}
    {obj : Obj σ} (done : writeGc crc32 uuid seq entries input maps = some (maps', obj)) :
    ∃ charges, run Shared.step ⟨maps, seq, .idle⟩ (.gc entries input ::
      (List.replicate entries.length .lookup ++
        (.map :: (List.replicate charges .charge ++ [.enter])))) =
          some ⟨maps', seq + 1, .idle⟩ := by
  rw [writeGc, update_gc_eq] at done
  obtain ⟨⟨mid, lost⟩, mapped, done⟩ := Option.bind_eq_some_iff.mp done
  obtain ⟨settled, charged, same⟩ := Option.map_eq_some_iff.mp done
  cases same
  obtain ⟨rest, looked⟩ := @lookups_run σ maps (seq + 1) seq entries input []
  refine ⟨lost.length, ?_⟩
  rw [run_cons_eq_some]
  refine ⟨_, rfl, ?_⟩
  rw [run_append_eq_some]
  refine ⟨_, looked, ?_⟩
  rw [run_cons_eq_some, List.nil_append]
  refine ⟨⟨mid, seq + 1, .charging seq lost (gcEntry (revalidate maps.objmap entries input))⟩,
    by simp only [Shared.step, mapped, Option.map_some], ?_⟩
  rw [run_append_eq_some]
  exact ⟨_, charges_run _ charged, rfl⟩

end Undisturbed

/-! ## The map and the table -/

def Maps.Lists (s : Maps) (p : ObjOffset) : Prop := (s.info[infoKey p]?).isSome

/-- Every location in an object of the volume's own, which are numbered above the clone
bases, is in an object of the table. -/
def Shared.Listed (lastBase : ℕ) (s : Shared σ) : Prop :=
  ∀ x p, locate s.maps.objmap x = some p → lastBase < p.obj → s.maps.Lists p

/-- `write_gc` has mapped sectors to an object that it has not entered. -/
def Shared.Exposed (s : Shared σ) : Prop :=
  ∃ o x p, s.doing.unentered = some o ∧ locate s.maps.objmap x = some p ∧ p.obj = (o : ℤ)

theorem info_key_congr {p q : ObjOffset} (same : p.obj = q.obj) : infoKey p = infoKey q := by
  rw [infoKey, infoKey, same]

structure Maps.Shrinks (s s' : Maps) : Prop where
  sound : Sound s'.objmap
  kept : ∀ x p, locate s'.objmap x = some p → locate s.objmap x = some p
  keys : ∀ o : ℕ, (s'.info[o]?).isSome = (s.info[o]?).isSome

namespace Maps.Shrinks

variable {s s' : Maps}

theorem lists (shrinks : s.Shrinks s') (p : ObjOffset) : s'.Lists p ↔ s.Lists p := by
  rw [Lists, Lists, shrinks.keys]

theorem below (shrinks : s.Shrinks s') {n : ℕ} (below : s.Below n) : s'.Below n := by
  constructor
  · intro x p found
    exact below.mapped x p (shrinks.kept x p found)
  · intro o oi present
    have listed : (s.info[o]?).isSome := by rw [← shrinks.keys, present, Option.isSome_some]
    obtain ⟨old, found⟩ := Option.isSome_iff_exists.mp listed
    exact below.listed o old found

theorem of_trim (sound : Sound s.objmap) {base limit : ℤ} (lower : 0 ≤ base) (order : base ≤ limit)
    (upper : base < 2 ^ 35) (done : s.trim base limit = some s') : s.Shrinks s' := by
  obtain ⟨kept, located, -, table⟩ := Maps.trim_spec sound lower order upper done
  refine ⟨kept, ?_, fun o => by rw [table, Option.isSome_map]⟩
  intro x p found
  rw [located] at found
  split at found
  · cases found
  · exact found

theorem of_charge (sound : Sound s.objmap) {d : Extent ObjOffset} (within : Within d)
    (done : s.chargeOne d = some s') : s.Shrinks s' := by
  obtain ⟨objmap, table⟩ := Maps.charge_one_spec within done
  exact ⟨objmap ▸ sound, fun x p found => objmap ▸ found, fun o => by rw [table, Option.isSome_map]⟩

end Maps.Shrinks

structure Collects (lastBase n : ℕ) (maps : Maps) (seq : ℕ) (left : List MapEntry)
    (input : List σ) (pieces : List (ℤ × List σ)) : Prop where
  number : n = seq + 1
  own : lastBase < seq
  small : seq < 2 ^ 31
  below : maps.Below seq
  request : ProperRequest left input
  ranges : Proper (pieceRanges pieces)
  apart : Apart (pieceRanges pieces ++ entryRanges left)

structure Settles (lastBase n : ℕ) (maps : Maps) (seq : ℕ) (left : List (Extent ObjOffset)) :
    Prop where
  number : n = seq + 1
  own : lastBase < seq
  fresh : maps.info[seq]? = none
  within : ∀ d ∈ left, Within d ∧ 0 < d.len
  others : ∀ d ∈ left, d.ptr.obj ≠ seq
  listed : ∀ d ∈ left, lastBase < d.ptr.obj → maps.Lists d.ptr

def Doing.Ready (lastBase n : ℕ) (maps : Maps) : Doing σ → Prop
  | .idle => True
  | .counting _ _ => True
  | .reading seq left input pieces => Collects lastBase n maps seq left input pieces
  | .charging seq left _ => Settles lastBase n maps seq left

/-- What holds between any two steps: a location in an own object is in one of the table,
or in the one that is being entered. -/
structure Linked (lastBase : ℕ) (maps : Maps) (n : ℕ) (doing : Doing σ) : Prop where
  sound : Sound maps.objmap
  below : maps.Below n
  own : lastBase < n
  listed : ∀ x p, locate maps.objmap x = some p → lastBase < p.obj →
    maps.Lists p ∨ doing.unentered = some (infoKey p)
  ready : doing.Ready lastBase n maps

def Shared.Linked (lastBase : ℕ) (s : Shared σ) : Prop :=
  Translate.Linked lastBase s.maps s.nextSeq s.doing

section Steps

variable {lastBase n : ℕ} {maps maps' : Maps} {doing : Doing σ} {s t : Shared σ} {turn : Turn σ}

theorem Doing.Ready.shrinks (ready : doing.Ready lastBase n maps) (shrinks : maps.Shrinks maps') :
    doing.Ready lastBase n maps' := by
  cases doing with
  | idle => trivial
  | counting seq dataSectors => trivial
  | reading seq left input pieces =>
      obtain ⟨number, own, small, below, request, ranges, apart⟩ := ready
      exact ⟨number, own, small, shrinks.below below, request, ranges, apart⟩
  | charging seq left oi =>
      obtain ⟨number, own, fresh, within, others, listed⟩ := ready
      refine ⟨number, own, ?_, within, others, ?_⟩
      · rw [← Option.isNone_iff_eq_none, ← Option.not_isSome, shrinks.keys, fresh]
        rfl
      · intro d member isOwn
        rw [shrinks.lists]
        exact listed d member isOwn

theorem Linked.shrinks (linked : Linked lastBase maps n doing) (shrinks : maps.Shrinks maps') :
    Linked lastBase maps' n doing := by
  refine ⟨shrinks.sound, shrinks.below linked.below, linked.own, ?_, linked.ready.shrinks shrinks⟩
  intro x p found isOwn
  rw [shrinks.lists]
  exact linked.listed x p (shrinks.kept x p found) isOwn

theorem Linked.key (linked : Linked lastBase maps n doing) {x : ℤ} {p : ObjOffset}
    (found : locate maps.objmap x = some p) : (infoKey p : ℤ) = p.obj := by
  obtain ⟨-, -, lower, upper, -⟩ := linked.sound.bounds found
  exact info_key_of_bounds lower upper

theorem Collects.lookup {seq : ℕ} {e : MapEntry} {rest : List MapEntry} {input : List σ}
    {pieces : List (ℤ × List σ)} (sound : Sound maps.objmap)
    (collects : Collects lastBase n maps seq (e :: rest) input pieces) :
    Collects lastBase n maps seq rest (input.drop e.len.toNat)
      (pieces ++ revalidateEntry maps.objmap e input) := by
  obtain ⟨number, own, small, below, request, ranges, apart⟩ := collects
  obtain ⟨lower, positive, upper, enough⟩ := request.head
  have within := (revalidate_entry_spec sound lower positive upper enough).1
  have found : ∀ range ∈ pieceRanges (revalidateEntry maps.objmap e input),
      e.lba ≤ range.1 ∧ 0 < range.2 ∧ range.1 + range.2 ≤ e.lba + e.len := by
    intro range member
    obtain ⟨piece, inEntry, rfl⟩ := List.mem_map.mp member
    obtain ⟨start, filled, stop, -⟩ := within piece inEntry
    exact ⟨start, by simpa using filled, stop⟩
  have split : pieceRanges (pieces ++ revalidateEntry maps.objmap e input) =
      pieceRanges pieces ++ pieceRanges (revalidateEntry maps.objmap e input) := List.map_append
  rw [entry_ranges_cons, Apart, List.pairwise_append, List.pairwise_cons] at apart
  obtain ⟨before, ⟨away, after⟩, between⟩ := apart
  refine ⟨number, own, small, below, request.tail, ?_, ?_⟩
  · intro range member
    rw [split, List.mem_append] at member
    rcases member with inPieces | inEntry
    · exact ranges range inPieces
    · have := found range inEntry
      omega
  · rw [split, List.append_assoc, Apart, List.pairwise_append, List.pairwise_append]
    refine ⟨before, ⟨revalidate_entry_apart sound lower upper positive input, after, ?_⟩, ?_⟩
    · intro left inEntry right inRest
      have := found left inEntry
      have := away right inRest
      simp only at this
      omega
    · intro left inPieces right member
      rcases List.mem_append.mp member with inEntry | inRest
      · have := between left inPieces (e.lba, e.len) (by simp)
        have := found right inEntry
        simp only at *
        omega
      · exact between left inPieces right (by simp [inRest])

theorem Shared.Linked.step (linked : s.Linked lastBase) (proper : turn.Proper)
    (bound : s.nextSeq < 2 ^ 31) (stepped : Stepped s turn t) : t.Linked lastBase := by
  unfold Shared.Linked at *
  cases stepped with
  | trim done =>
      obtain ⟨lower, order, upper⟩ := proper
      exact linked.shrinks (.of_trim linked.sound lower order upper done)
  | @batch maps maps' n entries data done =>
      dsimp only at linked bound
      obtain ⟨⟨sound, located⟩, -, -, table⟩ :=
        Maps.batch_section_spec linked.sound proper bound done
      have keys : ∀ o : ℕ, (maps'.info[o]?).isSome = (n = o ∨ (maps.info[o]?).isSome) := by
        intro o
        rw [table, Option.isSome_map, batchTable, table_insert]
        split
        · next same => simp [same]
        · next other => simp [other]
      refine ⟨sound, ⟨?_, ?_⟩, Nat.lt_succ_of_lt linked.own, ?_, trivial⟩
      · intro x p found
        push_cast
        rcases located x p found with here | before
        · omega
        · have := linked.below.mapped x p before
          omega
      · intro o oi present
        have listed : (maps'.info[o]?).isSome := by rw [present, Option.isSome_some]
        rw [keys] at listed
        rcases listed with rfl | before
        · exact Nat.lt_succ_self _
        · obtain ⟨old, found⟩ := Option.isSome_iff_exists.mp before
          exact Nat.lt_succ_of_lt (linked.below.listed o old found)
      · intro x p found isOwn
        left
        rw [Maps.Lists, keys]
        rcases located x p found with here | before
        · obtain ⟨-, -, lower, upper, -⟩ := sound.bounds found
          have := info_key_of_bounds lower upper
          exact Or.inl (by omega)
        · rcases linked.listed x p before isOwn with there | none
          · exact Or.inr there
          · cases none
  | count =>
      obtain ⟨sound, below, own, listed, -⟩ := linked
      exact ⟨sound, ⟨below.mapped, below.listed⟩, own, listed, trivial⟩
  | @gc maps n entries input =>
      obtain ⟨request, apart⟩ := proper
      refine ⟨linked.sound, linked.below.mono (Nat.le_succ n), Nat.lt_succ_of_lt linked.own,
        linked.listed, ?_⟩
      exact ⟨rfl, linked.own, bound, linked.below, request, by simp [pieceRanges, Proper], apart⟩
  | lookup =>
      exact ⟨linked.sound, linked.below, linked.own, linked.listed, linked.ready.lookup linked.sound⟩
  | @map maps maps' n seq input pieces lost done =>
      dsimp only at linked ⊢
      obtain ⟨number, own, small, below, -, ranges, apart⟩ := linked.ready
      rw [entryRanges, List.map_nil, List.append_nil] at apart
      obtain ⟨⟨sound, info, located⟩, displaced, -⟩ :=
        Maps.gc_section_spec linked.sound below ranges apart small done
      have lists : ∀ p, maps'.Lists p ↔ maps.Lists p := by
        intro p
        rw [Maps.Lists, Maps.Lists, info]
      have fresh : maps'.info[seq]? = none := by
        rw [info, Option.eq_none_iff_forall_ne_some]
        intro oi present
        have := below.listed seq oi present
        omega
      refine ⟨sound, ⟨?_, ?_⟩, linked.own, ?_, number, own, fresh, fun d member =>
        (displaced d member).1, fun d member => (displaced d member).2.1, ?_⟩
      · intro x p found
        rcases located x p found with here | before
        · omega
        · exact linked.below.mapped x p before
      · simp only [info]
        exact linked.below.listed
      · intro x p found isOwn
        rcases located x p found with here | before
        · obtain ⟨-, -, lower, upper, -⟩ := sound.bounds found
          have := info_key_of_bounds lower upper
          exact Or.inr (congrArg some (by omega))
        · rcases linked.listed x p before isOwn with there | none
          · exact Or.inl ((lists p).mpr there)
          · cases none
      · intro d member isOwn
        obtain ⟨-, -, x, p, found, same⟩ := displaced d member
        rw [lists, Maps.Lists, info_key_congr same.symm]
        rcases linked.listed x p found (by omega) with there | none
        · exact there
        · cases none
  | @charge maps maps' n seq d rest oi done =>
      dsimp only at linked ⊢
      have within := linked.ready.within d (by simp)
      obtain ⟨sound, below, own, listed, ready⟩ :=
        linked.shrinks (.of_charge linked.sound within.1 done)
      refine ⟨sound, below, own, listed, ready.number, ready.own, ready.fresh, ?_, ?_, ?_⟩
      · exact fun other member => ready.within other (by simp [member])
      · exact fun other member => ready.others other (by simp [member])
      · exact fun other member => ready.listed other (by simp [member])
  | @enter maps n seq oi =>
      dsimp only at linked ⊢
      obtain ⟨number, own, fresh, -, -, -⟩ := linked.ready
      refine ⟨linked.sound, ⟨linked.below.mapped, ?_⟩, linked.own, ?_, trivial⟩
      · intro o other present
        simp only [Maps.enter, table_insert] at present
        split at present
        · omega
        · exact linked.below.listed o other present
      · intro x p found isOwn
        left
        simp only [Maps.Lists, Maps.enter, table_insert]
        split
        · rfl
        · next differ =>
            rcases linked.listed x p found isOwn with there | pending
            · exact there
            · exact absurd (Option.some.inj pending) differ
  | @ckpt maps n =>
      exact ⟨linked.sound, linked.below.mono (Nat.le_succ n), Nat.lt_succ_of_lt linked.own,
        linked.listed, trivial⟩

/-- The numbers in the map are listed exactly when no object waits for its entry with
sectors mapped to it. -/
theorem Shared.Linked.listed_iff (linked : s.Linked lastBase) : s.Listed lastBase ↔ ¬s.Exposed := by
  obtain ⟨maps, n, doing⟩ := s
  unfold Shared.Linked at linked
  constructor
  · rintro listed ⟨o, x, p, waits, found, same⟩
    have key := linked.key found
    cases doing with
    | idle => cases waits
    | counting seq dataSectors => cases waits
    | reading seq left input pieces => cases waits
    | charging seq left oi =>
        obtain rfl : seq = o := Option.some.inj waits
        obtain ⟨-, own, fresh, -, -, -⟩ := linked.ready
        have present := listed x p found (by omega)
        rw [Maps.Lists, (by omega : infoKey p = seq), fresh] at present
        cases present
  · intro hidden x p found isOwn
    rcases linked.listed x p found isOwn with there | waits
    · exact there
    · exact absurd ⟨infoKey p, x, p, waits, found, (linked.key found).symm⟩ hidden

end Steps

end LsvdRbd.Translate
