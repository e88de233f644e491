import LsvdRbd.Recovery.Replay

/-!
# The object table after a replay

The runtime charges what an object displaces to the objects in the table and
skips the others. `apply_log` makes a table entry for every displaced extent and
throws when the new count is not negative, so that it agrees with the runtime
exactly on the objects that displace nothing.
-/

namespace LsvdRbd.Recovery

open Records RunList ExtentMap Format Translate

set_option autoImplicit false

variable {σ : Type*}

theorem charge_replayed_keeps {info info' : ObjTable} {deleted : List (Extent ObjOffset)}
    (charged : deleted.foldlM chargeReplayed info = .ok info') {o : ℕ} {oi : ObjInfo}
    (present : info[o]? = some oi) : ∃ after : ObjInfo, info'[o]? = some after := by
  induction deleted generalizing info oi with
  | nil =>
      cases charged
      exact ⟨oi, present⟩
  | cons d rest ih =>
      rw [List.foldlM_cons] at charged
      unfold chargeReplayed at charged
      simp only at charged
      split at charged
      · cases charged
      · by_cases same : infoKey d.ptr = o
        · exact ih charged (by rw [table_insert, if_pos same])
        · exact ih charged (by rw [table_insert, if_neg same, present])

/-- If no object in the table loses more than it has, a nonempty list of
displaced extents makes `apply_log` throw or adds an object to the table. -/
theorem charge_replayed_cons {info info' : ObjTable} {d : Extent ObjOffset}
    {rest : List (Extent ObjOffset)} (within : ∀ e ∈ d :: rest, Within e ∧ 0 < e.len)
    (enough : ∀ (o : ℕ) (oi : ObjInfo), info[o]? = some oi → owned o (d :: rest) ≤ oi.live)
    (charged : (d :: rest).foldlM chargeReplayed info = .ok info') :
    info[infoKey d.ptr]? = none ∧ ∃ after : ObjInfo, info'[infoKey d.ptr]? = some after := by
  obtain ⟨dWithin, dPositive⟩ := within d (by simp)
  have key := info_key_of_bounds dWithin.objLower dWithin.objUpper
  have restNonneg : 0 ≤ owned (infoKey d.ptr) rest :=
    owned_nonneg _ fun e member => (within e (by simp [member])).2.le
  rw [List.foldlM_cons] at charged
  unfold chargeReplayed at charged
  simp only at charged
  split at charged
  · cases charged
  · rename_i negative
    refine ⟨?_, charge_replayed_keeps charged (by rw [table_insert, if_pos rfl])⟩
    cases found : info[infoKey d.ptr]? with
    | none => rfl
    | some oi =>
        have room := enough _ oi found
        rw [owned_cons, if_pos key.symm] at room
        rw [Std.ExtTreeMap.getD_eq_getD_getElem?, found, Option.getD_some] at negative
        omega

/-- Replaying an object gives a table `runtime` with the keys of the runtime's
exactly if the object displaces nothing. -/
theorem apply_log_table_iff {uuid seq hdrSectors : ℕ} {obj : Obj σ} {ranges : Ranges} {s : Maps}
    {runtime : ObjTable} {ckpts : List ℕ} (consistent : s.Consistent) (below : s.Below seq)
    (seqBound : seq < 2 ^ 31) (proper : Proper ranges) (length : sectors ranges = obj.data.length)
    (reach : hdrSectors + sectors ranges ≤ 2 ^ 22)
    (object : IsDataObject uuid obj seq hdrSectors ranges)
    (keys : ∀ (o : ℕ) (oi : ObjInfo), runtime[o]? = some oi → o = seq ∨
      ∃ old : ObjInfo, s.info[o]? = some old)
    (undisturbed : (mapExtents seq hdrSectors ranges s.objmap).2 = [] →
      runtime = s.info.insert seq ⟨hdrSectors, obj.data.length, obj.data.length⟩) :
    (∃ image, applyLog (some obj) seq ⟨s.objmap, s.info, ckpts⟩ = .ok (some image) ∧
        image.info = runtime) ↔ (mapExtents seq hdrSectors ranges s.objmap).2 = [] := by
  obtain ⟨parsed, read, -, -, -, hdr, dataSectors, map⟩ := object
  obtain ⟨mapSound, -, lost, mass⟩ := map_extents_spec seq hdrSectors
    consistent.sound proper (by omega) (by omega) (by omega) (by omega)
  rw [apply_log_eq seq _ read, hdr, dataSectors, map]
  simp only
  set r := mapExtents seq hdrSectors ranges s.objmap with rDef
  constructor
  · rintro ⟨image, applied, table⟩
    cases deleted : r.2 with
    | nil => rfl
    | cons d rest =>
        -- the first displaced extent throws or leaves a new key
        exfalso
        rw [deleted] at applied lost mass
        cases charged : (d :: rest).foldlM chargeReplayed
            (s.info.insert seq ⟨hdrSectors, obj.data.length, obj.data.length⟩) with
        | error fault =>
            rw [charged] at applied
            cases applied
        | ok info =>
            rw [charged] at applied
            cases Except.ok.inj applied
            have nonneg : ∀ o : ℤ, 0 ≤ owned o r.1.extents := fun o =>
              owned_nonneg o fun e member => (mapSound.ordered.positive e member).le
            obtain ⟨missing, after, present⟩ := charge_replayed_cons lost (by
              intro o oi found
              have balance := mass o
              have := nonneg o
              rw [table_insert] at found
              split at found
              · rename_i same
                subst same
                rw [if_pos rfl, below.owned consistent.sound] at balance
                rw [← Option.some.inj found]
                simp only
                omega
              · have count := consistent.exact o oi found
                rw [if_neg (by omega)] at balance
                omega) charged
            rw [table_insert] at missing
            split at missing
            · cases missing
            · rename_i other
              simp only at table
              rw [table] at present
              rcases keys _ after present with same | ⟨old, oldPresent⟩
              · exact other same.symm
              · rw [missing] at oldPresent
                cases oldPresent
  · intro empty
    rw [empty]
    exact ⟨_, rfl, (undisturbed empty).symm⟩

/-- `apply_log` on the emitted object returns `true`, and its table is the one
the runtime step left. -/
def ReplayAgrees (s s' : Maps) (seq : ℕ) (obj : Obj σ) : Prop :=
  ∃ image, applyLog (some obj) seq ⟨s.objmap, s.info, []⟩ = .ok (some image) ∧
    image.info = s'.info

theorem batch_replay_agrees_iff {crc32 : Bytes → ℕ} {uuid seq : ℕ} {s s' : Maps} {obj : Obj σ}
    {entries : List MapEntry} {data : List σ} (consistent : s.Consistent) (below : s.Below seq)
    (uuidBound : uuid < 2 ^ 128) (seqBound : seq < 2 ^ 31) (request : ProperRequest entries data)
    (run : processBatch crc32 uuid seq entries data s = some (s', obj)) :
    ReplayAgrees s s' seq obj ↔
      (∀ e ∈ entries, ∀ x, e.lba ≤ x → x < e.lba + e.len → locate s.objmap x = none) ∧
        Apart (entryRanges entries) := by
  obtain ⟨emits, rfl⟩ :=
    process_batch_emits consistent.sound request uuidBound seqBound run
  obtain ⟨-, ⟨acc, charged, table⟩, -, -⟩ := process_batch_cases run
  have nothing := map_extents_displaced_eq_nil_iff seq
    (hdrSectorsFor entries.length) consistent.sound request.ranges (by omega) (by omega)
    (by omega) emits.reach
  rw [ReplayAgrees, apply_log_table_iff consistent below seqBound emits.proper emits.length
    emits.reach emits.object, nothing]
  · simp [entryRanges]
  · intro o oi present
    rw [table] at present
    obtain ⟨old, found⟩ := charge_all_keys _ _ charged present
    rw [table_insert] at found
    split at found
    · rename_i same
      exact .inl same.symm
    · exact .inr ⟨old, found⟩
  · intro empty
    rw [empty] at charged
    rw [table, ← Option.some.inj charged]

theorem gc_replay_agrees_iff {crc32 : Bytes → ℕ} {uuid seq : ℕ} {s s' : Maps} {obj : Obj σ}
    {entries : List MapEntry} {input : List σ} (consistent : s.Consistent) (below : s.Below seq)
    (uuidBound : uuid < 2 ^ 128) (seqBound : seq < 2 ^ 31) (request : ProperRequest entries input)
    (run : writeGc crc32 uuid seq entries input s = some (s', obj)) :
    ReplayAgrees s s' seq obj ↔
      ∀ e ∈ entries, ∀ x p, e.lba ≤ x → x < e.lba + e.len → locate s.objmap x = some p →
        p.obj ≠ e.obj := by
  obtain ⟨emits, data⟩ := write_gc_emits consistent.sound request uuidBound seqBound run
  obtain ⟨-, ⟨acc, charged, table⟩, -, -⟩ := update_gc_cases emits.proper run
  have nothing := map_extents_displaced_eq_nil_iff seq
    (hdrSectorsFor (revalidate s.objmap entries input).length) consistent.sound
    emits.proper (by omega) (by omega) (by omega) emits.reach
  have covers := revalidate_covers consistent.sound request
  rw [ReplayAgrees, apply_log_table_iff consistent below seqBound emits.proper emits.length
    emits.reach emits.object, nothing]
  · constructor
    · rintro ⟨unmapped, -⟩ e member x p low high found
      refine (covers x).mp ?_ e member low high p found
      rw [last_index_eq_none_iff]
      rintro range inRanges ⟨start, stop⟩
      rw [unmapped range inRanges x start stop] at found
      cases found
    · intro moved
      have uncovered : pieceRanges (revalidate s.objmap entries input) = [] := by
        by_contra nonempty
        obtain ⟨range, member⟩ := List.exists_mem_of_ne_nil _ nonempty
        have none := (last_index_eq_none_iff range.1).mp ((covers range.1).mpr
          fun e inEntries low high p => moved e inEntries range.1 p low high) range member
        have := (emits.proper range member).2.1
        omega
      rw [uncovered]
      exact ⟨by simp, List.Pairwise.nil⟩
  · intro o oi present
    rw [table, table_insert] at present
    split at present
    · rename_i same
      exact .inl same.symm
    · exact .inr (charge_all_keys _ _ charged present)
  · intro empty
    rw [empty] at charged
    rw [table, ← Option.some.inj charged, data]

/-- Replay agrees with the runtime exactly on the objects that displace nothing:
batches whose addresses were all unmapped and differ from each other, and
garbage collection requests of which nothing is left. -/
theorem replay_agrees_iff_displaces_nothing {crc32 : Bytes → ℕ} {uuid seq : ℕ} {s : Maps}
    (consistent : s.Consistent) (below : s.Below seq) (uuidBound : uuid < 2 ^ 128)
    (seqBound : seq < 2 ^ 31) :
    (∀ (entries : List MapEntry) (data : List σ) s' obj, ProperRequest entries data →
      processBatch crc32 uuid seq entries data s = some (s', obj) →
        (ReplayAgrees s s' seq obj ↔
          (∀ e ∈ entries, ∀ x, e.lba ≤ x → x < e.lba + e.len → locate s.objmap x = none) ∧
            Apart (entryRanges entries))) ∧
      ∀ (entries : List MapEntry) (input : List σ) s' obj, ProperRequest entries input →
        writeGc crc32 uuid seq entries input s = some (s', obj) →
          (ReplayAgrees s s' seq obj ↔
            ∀ e ∈ entries, ∀ x p, e.lba ≤ x → x < e.lba + e.len → locate s.objmap x = some p →
              p.obj ≠ e.obj) :=
  ⟨fun _ _ _ _ request run =>
      batch_replay_agrees_iff consistent below uuidBound seqBound request run,
    fun _ _ _ _ request run =>
      gc_replay_agrees_iff consistent below uuidBound seqBound request run⟩

def oneSector : List MapEntry := [⟨0, 1, 0, 0⟩]

theorem one_sector_proper : ProperRequest oneSector [()] :=
  ⟨by simp [Proper, entryRanges, oneSector], by simp [entryRanges, oneSector]⟩

theorem empty_below_one : Maps.empty.Below 1 :=
  ⟨fun x p found => by simp [Maps.empty] at found, fun o oi present => by
    simp [Maps.empty] at present⟩

/-- The first object of an image is replayed to the table of the runtime. -/
theorem replay_agrees_on_first_write : ∃ s' obj,
    processBatch (fun _ => 0) 0 1 oneSector [()] Maps.empty = some (s', obj) ∧
      ReplayAgrees Maps.empty s' 1 obj := by
  obtain ⟨s', obj, run, -⟩ := process_batch_defined (fun _ => 0) 0 Maps.empty_consistent
    empty_below_one one_sector_proper (by norm_num) (by decide)
  refine ⟨s', obj, run, ?_⟩
  refine ((replay_agrees_iff_displaces_nothing Maps.empty_consistent empty_below_one (by norm_num)
    (by norm_num)).1 oneSector [()] s' obj one_sector_proper run).mpr ⟨?_, ?_⟩
  · intro e _ x _ _
    rfl
  · exact List.pairwise_singleton _ _

/-- Objects 1 and 2 write the same sector: replaying object 2 throws. -/
theorem replay_rejects_overwrite : ∃ s first s' obj,
    processBatch (fun _ => 0) 0 1 oneSector [()] Maps.empty = some (s, first) ∧
      s.Consistent ∧ s.Below 2 ∧
      processBatch (fun _ => 0) 0 2 oneSector [()] s = some (s', obj) ∧
      applyLog (some obj) 2 ⟨s.objmap, s.info, []⟩ = .error .negativeLive ∧
      ¬ReplayAgrees s s' 2 obj := by
  obtain ⟨s, first, firstRun, next⟩ := process_batch_defined (fun _ => 0) 0 Maps.empty_consistent
    empty_below_one one_sector_proper (by norm_num) (by decide)
  obtain ⟨s', obj, run, -⟩ := process_batch_defined (fun _ => 0) 0 next.consistent next.below
    one_sector_proper (by norm_num) (by decide)
  have thrown : ((processBatch (fun _ => 0) 0 1 oneSector [()] Maps.empty).bind fun before =>
      (processBatch (fun _ => 0) 0 2 oneSector [()] before.1).map fun after =>
        (applyLog (some after.2) 2 ⟨before.1.objmap, before.1.info, []⟩).map fun _ => ()) =
      some (.error .negativeLive) := by decide +kernel
  rw [firstRun, Option.bind_some, run, Option.map_some] at thrown
  have error : applyLog (some obj) 2 ⟨s.objmap, s.info, []⟩ = .error .negativeLive := by
    cases applied : applyLog (some obj) 2 ⟨s.objmap, s.info, []⟩ with
    | ok image =>
        rw [applied] at thrown
        cases thrown
    | error fault =>
        rw [applied] at thrown
        rw [Except.error.inj (Option.some.inj thrown)]
  refine ⟨s, first, s', obj, firstRun, next.consistent, next.below, run, error, ?_⟩
  rintro ⟨image, applied, -⟩
  rw [error] at applied
  cases applied

end LsvdRbd.Recovery
