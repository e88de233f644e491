import LsvdRbd.Format.Superblock
import LsvdRbd.Session.State

/-!
# The addresses of a volume

The address of a write is stored in four bit-fields on its way: in the entry of the
batch, in the extent of the object map, in the data map of the object, and in the
entry of a checkpoint. They differ in width and in sign, and `create_new` takes a
volume of any size.
-/

namespace LsvdRbd.Session

open Records RunList ExtentMap Format Translate Recovery

set_option autoImplicit false

variable {σ : Type*}

def createNew (uuid size : ℕ) : Option Bytes :=
  serialiseSuperblock (List.replicate 4096 0) [] [] uuid size

structure Inside (size : ℕ) (lba len : ℤ) : Prop where
  lower : 0 ≤ lba
  positive : 0 < len
  upper : lba + len ≤ (size / 512 : ℕ)

/-! ## One write -/

/-- The entry that `append` makes for a write. -/
def appended (lba len : ℤ) : MapEntry := .store lba len 0 0

/-- The extent that `process_batch` puts into the map for it. -/
def mapped (lba len : ℤ) (p : ObjOffset) : Extent ObjOffset :=
  Layout.lba2obj.extent (appended lba len).lba (appended lba len).len p

/-- An address at which a write begins, or what an overwrite has left of one: it is read
back from the object map, from the data map of the object and from the entry that a
checkpoint makes of the extent. -/
structure AddressReadsBack (lba len : ℤ) (p : ObjOffset) : Prop where
  runtime : (mapped lba len p).base = lba
  replayed : (DataMap.decode (DataMap.store (appended lba len).lba (appended lba len).len).encode).lba
    = lba
  loaded : (MapEntry.decode (MapEntry.store (mapped lba len p).base (mapped lba len p).len
    (mapped lba len p).ptr.obj (mapped lba len p).ptr.offset).encode).lba = lba

theorem appended_lba_iff {lba : ℤ} (lower : 0 ≤ lba) (len : ℤ) :
    (appended lba len).lba = lba ↔ lba < 2 ^ 35 := by
  constructor
  · intro same
    have upper : signedField 36 lba < ((2 ^ 36 : ℕ) + 1) / 2 := Int.bmod_lt (by norm_num)
    change signedField 36 lba = lba at same
    rw [same] at upper
    norm_num at upper ⊢
    omega
  · intro upper
    exact signed_field_of_range 35 lba (by omega) upper

theorem reads_back_iff {lba len : ℤ} (lower : 0 ≤ lba) (p : ObjOffset) :
    AddressReadsBack lba len p ↔ lba < 2 ^ 35 := by
  constructor
  · intro back
    have kept : (mapped lba len p).base = (appended lba len).lba := by
      have bounds : -2 ^ 35 ≤ signedField 36 lba ∧ signedField 36 lba < 2 ^ 35 := by
        have least : -(((2 ^ 36 : ℕ) / 2 : ℕ) : ℤ) ≤ signedField 36 lba := Int.le_bmod (by norm_num)
        have upper : signedField 36 lba < ((2 ^ 36 : ℕ) + 1) / 2 := Int.bmod_lt (by norm_num)
        norm_num at least upper ⊢
        omega
      exact signed_field_of_range 37 _ (by change _ ≤ signedField 36 lba; omega)
        (by change signedField 36 lba < _; omega)
    exact (appended_lba_iff lower len).mp (kept.symm.trans back.runtime)
  · intro upper
    have entry : (appended lba len).lba = lba := (appended_lba_iff lower len).mpr upper
    have base : (mapped lba len p).base = lba := by
      change signedField 38 (appended lba len).lba = lba
      rw [entry]
      exact signed_field_of_range 37 lba (by omega) (by omega)
    refine ⟨base, ?_, ?_⟩
    · have fits : (DataMap.store (appended lba len).lba (appended lba len).len).Fits := by
        have lbaBounds := Int.emod_nonneg (appended lba len).lba (by norm_num : (2 ^ 36 : ℤ) ≠ 0)
        have lbaUpper := Int.emod_lt_of_pos (appended lba len).lba (by norm_num : (0 : ℤ) < 2 ^ 36)
        have lenBounds := Int.emod_nonneg (appended lba len).len (by norm_num : (2 ^ 28 : ℤ) ≠ 0)
        have lenUpper := Int.emod_lt_of_pos (appended lba len).len (by norm_num : (0 : ℤ) < 2 ^ 28)
        exact ⟨lbaBounds, lbaUpper, lenBounds, lenUpper⟩
      rw [DataMap.decode_encode fits]
      change unsignedField 36 (appended lba len).lba = lba
      rw [entry]
      exact unsigned_field_of_range 36 lba lower (by omega)
    · rw [MapEntry.decode_encode (MapEntry.store_stored _ _ _ _)]
      change signedField 36 (mapped lba len p).base = lba
      rw [base]
      exact signed_field_of_range 35 lba (by omega) upper

/-! ## Batches of writes -/

def batchOf (writes : List (ℤ × List σ)) : Request σ :=
  writes.foldl (fun r w => r.append w.1 w.2) ⟨0, [], []⟩

theorem batch_of_eq (writes : List (ℤ × List σ)) :
    (batchOf writes).entries = writes.map (fun w => appended w.1 w.2.length) ∧
      (batchOf writes).data = writes.flatMap Prod.snd := by
  have general : ∀ r : Request σ, (writes.foldl (fun r w => r.append w.1 w.2) r).entries =
      r.entries ++ writes.map (fun w => appended w.1 w.2.length) ∧
      (writes.foldl (fun r w => r.append w.1 w.2) r).data = r.data ++ writes.flatMap Prod.snd := by
    induction writes with
    | nil => simp
    | cons w rest ih =>
        intro r
        obtain ⟨entries, data⟩ := ih (r.append w.1 w.2)
        rw [List.foldl_cons, entries, data]
        simp [Request.append, appended]
  exact general ⟨0, [], []⟩

theorem appended_of_inside {size : ℕ} {lba len : ℤ} (small : size / 512 ≤ 2 ^ 35)
    (inside : Inside size lba len) (short : len < 2 ^ 27) : appended lba len = ⟨lba, len, 0, 0⟩ := by
  obtain ⟨lower, positive, upper⟩ := inside
  exact MapEntry.Fits.store_eq ⟨lower, by simp only; omega, positive.le, short, by simp, by simp,
    by simp, by simp⟩

theorem batch_of_proper {size : ℕ} {writes : List (ℤ × List σ)} (small : size / 512 ≤ 2 ^ 35)
    (inside : ∀ w ∈ writes, Inside size w.1 w.2.length)
    (short : (writes.flatMap Prod.snd).length < 2 ^ 27) :
    ProperRequest (batchOf writes).entries (batchOf writes).data := by
  obtain ⟨entries, data⟩ := batch_of_eq writes
  have exact : (batchOf writes).entries = writes.map fun w => ⟨w.1, w.2.length, 0, 0⟩ := by
    rw [entries]
    refine List.map_congr_left ?_
    intro w member
    have part : w.2.length ≤ (writes.flatMap Prod.snd).length := by
      rw [List.length_flatMap]
      exact List.le_sum_of_mem (List.mem_map.mpr ⟨w, member, rfl⟩)
    exact appended_of_inside small (inside w member) (by omega)
  constructor
  · intro range member
    rw [exact] at member
    obtain ⟨e, listed, rfl⟩ := List.mem_map.mp member
    obtain ⟨w, isWrite, rfl⟩ := List.mem_map.mp listed
    obtain ⟨lower, positive, upper⟩ := inside w isWrite
    exact ⟨lower, positive, by simp only; omega⟩
  · rw [exact, data]
    simp [entryRanges, sectors, Function.comp_def, List.length_flatMap]

/-- After a batch of writes inside the volume, replaying its object gives the map of
the running image, and so does loading a checkpoint. -/
def MapsAgree (crc32 : Bytes → ℕ) (uuid size : ℕ) (σ : Type*) : Prop :=
  ∀ (writes : List (ℤ × List σ)) (seq : ℕ) (s s' : Maps) (obj : Obj σ),
    (∀ w ∈ writes, Inside size w.1 w.2.length) → seq < 2 ^ 31 → Sound s.objmap →
    processBatch crc32 uuid seq (batchOf writes).entries (batchOf writes).data s = some (s', obj) →
      applyLogMap (some obj) seq s.objmap = .ok (some s'.objmap) ∧
      ∀ (c : ℕ) (ckpt : Obj σ), c < 2 ^ 32 → checkpointObject uuid c s' = some ckpt →
        ∃ image, readFromCheckpoint (some ckpt) ⟨Extmap.empty, ∅, [c]⟩ = .ok image ∧
          ∀ x, locate image.objmap x = locate s'.objmap x

theorem maps_agree {size uuid : ℕ} (crc32 : Bytes → ℕ) (uuidBound : uuid < 2 ^ 128)
    (small : size / 512 ≤ 2 ^ 35) : MapsAgree crc32 uuid size σ := by
  intro writes seq s s' obj inside seqBound sound ran
  obtain ⟨fits, -, objmap, -⟩ := process_batch_cases ran
  have request := batch_of_proper small inside (by rw [← (batch_of_eq writes).2]; omega)
  have emits := (process_batch_emits sound request uuidBound seqBound ran).1
  constructor
  · rw [apply_log_map_data emits.object, objmap]
  · intro c ckpt numbered written
    obtain ⟨m, loaded, -, same⟩ :=
      read_from_written_checkpoint emits.sound uuidBound numbered written [c]
    exact ⟨_, loaded, same⟩

/-- Every address of a write may come to begin an extent, so the formats give all of them
back exactly if the write ends by `2^35`. -/
theorem write_reads_back_iff {size : ℕ} {lba len : ℤ} (inside : Inside size lba len)
    (p : ObjOffset) :
    (∀ x, lba ≤ x → x < lba + len → AddressReadsBack x (lba + len - x) p) ↔
      lba + len ≤ 2 ^ 35 := by
  obtain ⟨lower, positive, -⟩ := inside
  constructor
  · intro all
    have last := (reads_back_iff (by omega) p).mp (all (lba + len - 1) (by omega) (by omega))
    omega
  · intro ends x start stop
    exact (reads_back_iff (by omega) p).mpr (by omega)

/-- `create_new` takes every size. The formats give back all addresses of a write inside the
volume exactly if it ends by `2^35`, and after batches of such writes the maps of a running,
a replayed and a reloaded image agree. So all formats hold all addresses of the volume, and
the maps agree after any batch, exactly if the volume has at most `2^35` sectors. -/
theorem volume_addresses_read_back_iff (crc32 : Bytes → ℕ) {uuid size : ℕ}
    (uuidBound : uuid < 2 ^ 128) (sizeBound : size < 2 ^ 64) :
    (∃ buf sb, createNew uuid size = some buf ∧ readSuperblock (some buf) = .ok sb ∧
      sb.size = size / 512 * 512) ∧
    (∀ lba len p, Inside size lba len →
      ((∀ x, lba ≤ x → x < lba + len → AddressReadsBack x (lba + len - x) p) ↔
        lba + len ≤ 2 ^ 35)) ∧
    MapsAgree crc32 uuid (2 ^ 35 * 512) σ ∧
    (((∀ lba len p, Inside size lba len → AddressReadsBack lba len p) ∧ MapsAgree crc32 uuid size σ) ↔
      size / 512 ≤ 2 ^ 35) := by
  refine ⟨?_, fun lba len p inside => write_reads_back_iff inside p,
    maps_agree crc32 uuidBound (by norm_num), ?_, ?_⟩
  · obtain ⟨buf, written, read⟩ := @plain_superblock_reads_back _ (.fresh 4096) [] (by simp) _ _
      uuidBound sizeBound (by simp)
    exact ⟨buf, _, written, read, rfl⟩
  · rintro ⟨all, -⟩
    by_contra large
    have inside : Inside size (2 ^ 35) 1 := ⟨by norm_num, by norm_num, by omega⟩
    have below := (reads_back_iff inside.lower ⟨1, 8⟩).mp (all _ _ _ inside)
    norm_num at below
  · intro small
    refine ⟨?_, maps_agree crc32 uuidBound small⟩
    intro lba len p inside
    obtain ⟨lower, positive, upper⟩ := inside
    exact (reads_back_iff lower p).mpr (by omega)

/-- A volume of 16 TiB, and its last sector. -/
theorem volume_addresses_read_back_last :
    (∃ buf sb, createNew 7 (2 ^ 44) = some buf ∧ readSuperblock (some buf) = .ok sb ∧
      sb.size = 2 ^ 44) ∧
    Inside (2 ^ 44) (2 ^ 35 - 1) 1 ∧ AddressReadsBack (2 ^ 35 - 1) 1 ⟨1, 8⟩ := by
  obtain ⟨⟨buf, sb, created, read, size⟩, -, -, iff⟩ :=
    @volume_addresses_read_back_iff ℕ (fun _ => 0) 7 (2 ^ 44) (by norm_num) (by norm_num)
  have inside : Inside (2 ^ 44) (2 ^ 35 - 1) 1 := ⟨by norm_num, by norm_num, by norm_num⟩
  refine ⟨⟨buf, sb, created, read, ?_⟩, inside, (iff.mpr (by norm_num)).1 _ _ _ inside⟩
  exact size.trans (by norm_num)

/-- One sector written at `2^35` in a volume of 32 TiB: the running image maps the
address `-2^35`, and so does a checkpoint; the data map of the object has `2^35`. A
read of the sector finds nothing until the object is replayed. -/
theorem address_out_of_field :
    Inside (2 ^ 45) (2 ^ 35) 1 ∧ (mapped (2 ^ 35) 1 ⟨1, 8⟩).base = -2 ^ 35 ∧
    (DataMap.decode (DataMap.store (appended (2 ^ 35) 1).lba 1).encode).lba = 2 ^ 35 ∧
    (MapEntry.decode (MapEntry.store (-2 ^ 35) 1 1 8).encode).lba = -2 ^ 35 ∧
    ∃ s' obj m, processBatch (fun _ => 0) 7 1 (batchOf [(2 ^ 35, [0])]).entries
        (batchOf [(2 ^ 35, [0])]).data Maps.empty = some (s', obj) ∧
      applyLogMap (some obj) 1 Extmap.empty = .ok (some m) ∧
      s'.objmap.extents = [⟨-2 ^ 35, 1, ⟨1, 8⟩⟩] ∧ m.extents = [⟨2 ^ 35, 1, ⟨1, 8⟩⟩] := by
  refine ⟨⟨by norm_num, by norm_num, by norm_num⟩, by decide +kernel, by decide +kernel,
    by decide +kernel, ?_⟩
  obtain ⟨⟨s', obj⟩, ran, held⟩ := (Option.any_eq_true _ _).mp (by decide +kernel :
    (processBatch (fun _ => 0) 7 1 (batchOf [(2 ^ 35, [0])]).entries
      (batchOf [(2 ^ 35, [0])]).data Maps.empty).any (fun r =>
        decide (r.1.objmap.extents = [⟨-2 ^ 35, 1, ⟨1, 8⟩⟩]) &&
          (applyLogMap (some r.2) 1 Extmap.empty).toOption.any (fun map => map.any fun m =>
            decide (m.extents = [⟨2 ^ 35, 1, ⟨1, 8⟩⟩]))) = true)
  obtain ⟨runtime, replayed⟩ := (Bool.and_eq_true _ _).mp held
  cases applied : applyLogMap (some obj) 1 Extmap.empty with
  | error fault =>
      rw [applied] at replayed
      cases replayed
  | ok map =>
      rw [applied, Except.toOption, Option.any_some] at replayed
      obtain ⟨m, rfl, extents⟩ := (Option.any_eq_true _ _).mp replayed
      exact ⟨s', obj, m, ran, applied, of_decide_eq_true runtime, of_decide_eq_true extents⟩

end LsvdRbd.Session
