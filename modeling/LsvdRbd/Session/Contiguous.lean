import LsvdRbd.Session.Numbers

/-!
# A log without gaps

The numbers after the newest checkpoint are given out one after the other. Each of
them is a data object in the backend, a PUT on its way, or the checkpoint that is
being written, as long as garbage collection deletes nothing after that checkpoint.
-/

namespace LsvdRbd.Session

open Records RunList ExtentMap Format Translate Recovery Machine

set_option autoImplicit false

variable {σ : Type*} {env : Env}

/-! ## Data objects -/

def ReadsAsData (obj : Option (Obj σ)) : Prop := ∃ parsed, readDataHdr obj = .ok (some parsed)

theorem data_map_store_fits (lba len : ℤ) : (DataMap.store lba len).Fits := by
  constructor
  · exact Int.emod_nonneg _ (by norm_num)
  · exact Int.emod_lt_of_pos _ (by norm_num)
  · exact Int.emod_nonneg _ (by norm_num)
  · exact Int.emod_lt_of_pos _ (by norm_num)

theorem made_reads_as_data (crc32 : Bytes → ℕ) {uuid seq : ℕ} (extents : List DataMap)
    (data : List σ) (isGc : Bool) (uuidBound : uuid < 2 ^ 128) (seqBound : seq < 2 ^ 32)
    (size : (hdrSectorsFor extents.length + data.length) * 512 < 2 ^ 31)
    (fits : ∀ d ∈ extents, d.Fits) :
    ReadsAsData (some (⟨makeObjHdr crc32 uuid seq (hdrSectorsFor extents.length) data.length extents
      isGc, data⟩ : Obj σ)) := by
  obtain ⟨parsed, read, -⟩ := @read_data_hdr_round_trip σ crc32 uuid seq
    (hdrSectorsFor extents.length) data.length extents isGc data uuidBound seqBound (by omega)
    (by omega) (hdr_sectors_room _) fits
  exact ⟨parsed, read⟩

theorem process_batch_reads {seq : ℕ} {entries : List MapEntry} {data : List σ} {maps maps' : Maps}
    {obj : Obj σ} (uuidBound : env.uuid < 2 ^ 128) (seqBound : seq < 2 ^ 32)
    (done : processBatch env.crc32 env.uuid seq entries data maps = some (maps', obj)) :
    ReadsAsData (some obj) := by
  unfold processBatch at done
  dsimp only at done
  split at done
  · next size =>
      obtain ⟨acc, -, result⟩ := Option.map_eq_some_iff.mp done
      cases result
      have made := made_reads_as_data env.crc32 (entries.map fun e => .store e.lba e.len) data false
        uuidBound seqBound (by rwa [List.length_map]) (by
          intro d member
          obtain ⟨e, -, rfl⟩ := List.mem_map.mp member
          exact data_map_store_fits _ _)
      rwa [List.length_map] at made
  · cases done

theorem write_gc_reads {seq : ℕ} {entries : List MapEntry} {input : List σ} {maps maps' : Maps}
    {obj : Obj σ} (uuidBound : env.uuid < 2 ^ 128) (seqBound : seq < 2 ^ 32)
    (done : writeGc env.crc32 env.uuid seq entries input maps = some (maps', obj)) :
    ReadsAsData (some obj) := by
  unfold writeGc updateGc at done
  dsimp only at done
  split at done
  · next size =>
      obtain ⟨acc, -, result⟩ := Option.map_eq_some_iff.mp done
      cases result
      refine made_reads_as_data env.crc32 _ _ true uuidBound seqBound size ?_
      intro d member
      obtain ⟨piece, -, rfl⟩ := List.mem_map.mp member
      exact data_map_store_fits _ _
  · cases done

namespace Tx

variable {s s' mid : Tx σ}

/-! ## What a step does to the backend -/

def lands (s : Tx σ) : Action σ → Option ℕ
  | .complete seq => some seq
  | .ckptStep => match s.ckpting with
      | none => none
      | some c => match c.stage with
          | .object => some c.seq
          | _ => none
  | _ => none

variable {a : Action σ}

theorem Stepped.landed (stepped : Stepped env s a s') :
    (s.lands a = none ∧ ∀ (n : ℕ) (obj : Obj σ), s'.store[n]? = some obj → s.store[n]? = some obj) ∨
      ∃ n obj, s.lands a = some n ∧ s'.store = s.store.insert n obj ∧
        ((∃ put ∈ s.inflight, put.seq = n) ∨ ∃ c, s.ckpting = some c ∧ c.seq = n) := by
  cases stepped with
  | write rolled nonempty room => cases rolled <;> exact .inl ⟨rfl, fun _ _ => id⟩
  | flush rolled => cases rolled <;> exact .inl ⟨rfl, fun _ _ => id⟩
  | checkpoint rolled => cases rolled <;> exact .inl ⟨rfl, fun _ _ => id⟩
  | flushThread rolled => cases rolled <;> exact .inl ⟨rfl, fun _ _ => id⟩
  | trim done => exact .inl ⟨rfl, fun _ _ => id⟩
  | work free worked => cases worked <;> exact .inl ⟨rfl, fun _ _ => id⟩
  | complete member => exact .inr ⟨_, _, rfl, rfl, .inl ⟨_, member, rfl⟩⟩
  | ckpt busy done =>
      cases done with
      | object stage => exact .inr ⟨_, _, by simp [lands, busy, stage], rfl, .inr ⟨_, busy, rfl⟩⟩
      | superblock stage => exact .inl ⟨by simp [lands, busy, stage], fun _ _ => id⟩
      | delete stage => exact .inl ⟨by simp [lands, busy, stage], fun _ _ => table_of_erase⟩
      | done stage phase moved => exact .inl ⟨by simp [lands, busy, stage], fun _ _ => id⟩
  | collect collected =>
      cases collected with
      | reap phase member => exact .inl ⟨rfl, fun _ _ => table_of_erase⟩
      | delete phase => exact .inl ⟨rfl, fun _ _ => table_of_erase⟩
      | checkpoint phase rolled => cases rolled <;> exact .inl ⟨rfl, fun _ _ => id⟩
      | _ => exact .inl ⟨rfl, fun _ _ => id⟩

theorem Stepped.early (stepped : Stepped env s a s') (left : NumbersLeft s a)
    (separate : s.Separate)
    (early : ∀ (n : ℕ) (obj : Obj σ), s.store[n]? = some obj → n < s.curSeq) :
    ∀ (n : ℕ) (obj : Obj σ), s'.store[n]? = some obj → n < s'.curSeq := by
  intro n obj present
  refine lt_of_lt_of_le ?_ (stepped.counts left).1
  rcases stepped.landed with ⟨-, fewer⟩ | ⟨m, new, -, store, sent⟩
  · exact early n obj (fewer n obj present)
  · rw [store, table_insert] at present
    split at present
    · next same =>
        subst same
        rcases sent with ⟨put, member, rfl⟩ | ⟨c, busy, rfl⟩
        · exact (separate.flying put member).1
        · exact separate.taken c.seq (by simp [Tx.ckptNumbers, busy])
    · exact early n obj present

theorem Stepped.sends (stepped : Stepped env s a s') :
    ∀ put ∈ s'.inflight, put ∈ s.inflight ∨ put.seq = s.curSeq := by
  have sends : ∀ {rest request maps obj}, ∀ put ∈ (s.send rest request maps obj).inflight,
      put ∈ s.inflight ∨ put.seq = s.curSeq := by
    intro rest request maps obj put member
    rcases List.mem_append.mp member with old | new
    · exact .inl old
    · exact .inr (by rw [List.mem_singleton.mp new])
  cases stepped with
  | write rolled nonempty room => cases rolled <;> exact fun _ => .inl
  | flush rolled => cases rolled <;> exact fun _ => .inl
  | checkpoint rolled => cases rolled <;> exact fun _ => .inl
  | flushThread rolled => cases rolled <;> exact fun _ => .inl
  | trim done => exact fun _ => .inl
  | complete member => exact fun put inside => .inl (List.mem_filter.mp inside).1
  | ckpt busy done => cases done <;> exact fun _ => .inl
  | collect collected =>
      obtain ⟨-, inflight, -⟩ := collected.frame
      rw [inflight]
      exact fun _ => .inl
  | work free worked =>
      cases worked with
      | put head done => exact sends
      | gc head done => exact sends
      | ckpt head done => exact fun _ => .inl
      | flush head quiet => exact fun _ => .inl

theorem Stepped.begins (stepped : Stepped env s a s') :
    ∀ c, s'.ckpting = some c → (∃ old, s.ckpting = some old ∧ old.seq = c.seq) ∨ c.seq = s.curSeq := by
  have same : ∀ c, s.ckpting = some c →
      (∃ old, s.ckpting = some old ∧ old.seq = c.seq) ∨ c.seq = s.curSeq :=
    fun c busy => .inl ⟨c, busy, rfl⟩
  cases stepped with
  | write rolled nonempty room => cases rolled <;> exact same
  | flush rolled => cases rolled <;> exact same
  | checkpoint rolled => cases rolled <;> exact same
  | flushThread rolled => cases rolled <;> exact same
  | trim done => exact same
  | complete member => exact same
  | collect collected =>
      obtain ⟨-, -, -, -, -, -, ckpting, -⟩ := collected.frame
      rw [ckpting]
      exact same
  | ckpt busy done =>
      intro c now
      cases done with
      | done stage phase moved => cases now
      | _ =>
          cases now
          exact .inl ⟨_, busy, rfl⟩
  | work free worked =>
      cases worked with
      | ckpt head done =>
          intro c now
          cases now
          exact .inr rfl
      | _ => exact same

/-! ## No gaps after the newest checkpoint -/

def Accounted (s : Tx σ) (n : ℕ) : Prop :=
  ReadsAsData s.store[n]? ∨ (∃ put ∈ s.inflight, put.seq = n) ∨ ∃ k, s.ckpting = some k ∧ k.seq = n

structure Dense (s : Tx σ) : Prop where
  log : ∀ c, s.super.getLast? = some c → ∀ n, c < n → n < s.curSeq → s.Accounted n
  next : ∀ k, s.ckpting = some k → s.curSeq = k.seq + 1
  readable : ∀ put ∈ s.inflight, ReadsAsData (some put.obj)

/-- Garbage collection deletes only before the newest checkpoint. -/
def DeletesOld (s : Tx σ) (a : Action σ) : Prop :=
  ∀ o ∈ s.deletes a, ∀ c ∈ s.super.getLast?, o < c

instance (s : Tx σ) (a : Action σ) : Decidable (s.DeletesOld a) :=
  inferInstanceAs (Decidable (∀ o ∈ s.deletes a, ∀ c ∈ s.super.getLast?, o < c))

theorem Dense.of_same (dense : s.Dense) (store : s'.store = s.store)
    (inflight : s'.inflight = s.inflight) (ckpting : s'.ckpting = s.ckpting)
    (super : s'.super = s.super) (curSeq : s'.curSeq = s.curSeq) : s'.Dense := by
  refine ⟨?_, ?_, ?_⟩
  · unfold Accounted
    rw [store, inflight, ckpting, super, curSeq]
    exact dense.log
  · rw [ckpting, curSeq]
    exact dense.next
  · rw [inflight]
    exact dense.readable

theorem Dense.erase (dense : s.Dense) {o : ℕ} (old : ∀ c ∈ s.super.getLast?, o < c)
    (store : s'.store = s.store.erase o) (inflight : s'.inflight = s.inflight)
    (ckpting : s'.ckpting = s.ckpting) (super : s'.super = s.super)
    (curSeq : s'.curSeq = s.curSeq) : s'.Dense := by
  refine ⟨?_, by rw [ckpting, curSeq]; exact dense.next, by rw [inflight]; exact dense.readable⟩
  intro c newest n after before
  rw [super] at newest
  have early := old c newest
  unfold Accounted
  rw [store, inflight, ckpting, table_erase, if_neg (by omega)]
  exact dense.log c newest n after (by omega)

theorem Dense.land (dense : s.Dense) {put : Put σ} (member : put ∈ s.inflight) :
    (s.land env put).Dense := by
  refine ⟨?_, dense.next, fun other inside => dense.readable other (List.mem_filter.mp inside).1⟩
  intro c newest n after before
  by_cases same : put.seq = n
  · refine .inl ?_
    simp only [Tx.land, table_insert, if_pos same]
    exact dense.readable put member
  · rcases dense.log c newest n after before with there | ⟨other, flying, seq⟩ | writing
    · refine .inl ?_
      simp only [Tx.land, table_insert, if_neg same]
      exact there
    · refine .inr (.inl ⟨other, List.mem_filter.mpr ⟨flying, ?_⟩, seq⟩)
      simp only [decide_eq_true_eq]
      omega
    · exact .inr (.inr writing)

theorem Dense.send (dense : s.Dense) (free : s.ckpting = none) (left : s.curSeq < 2 ^ 31)
    {rest : List (Work σ)} {request : Option (Request σ)} {maps : Maps} {obj : Obj σ}
    (reads : ReadsAsData (some obj)) : (s.send rest request maps obj).Dense := by
  have next : nextSeq s.curSeq = s.curSeq + 1 := next_seq_eq left
  refine ⟨?_, ?_, ?_⟩
  · intro c newest n after before
    simp only [Tx.send, next] at before
    by_cases new : n = s.curSeq
    · exact .inr (.inl ⟨_, List.mem_append_right _ (List.mem_singleton_self _), new.symm⟩)
    · rcases dense.log c newest n after (by omega) with there | ⟨put, flying, seq⟩ | writing
      · exact .inl there
      · exact .inr (.inl ⟨put, List.mem_append_left _ flying, seq⟩)
      · exact .inr (.inr writing)
  · intro k busy
    simp only [Tx.send, free] at busy
    cases busy
  · intro put member
    rcases List.mem_append.mp member with old | new
    · exact dense.readable put old
    · rw [List.mem_singleton.mp new]
      exact reads

theorem Checkpointed.dense {W : Tx σ → ℕ → Obj σ → Prop} {c : Ckpt σ} (done : Checkpointed s c s')
    (busy : s.ckpting = some c) (backed : s.Backed W) (dense : s.Dense) : s'.Dense := by
  have progress := backed.writing c busy
  have next := dense.next c busy
  unfold Underway at progress
  -- once the superblock lists the checkpoint, there is no number behind it
  have covered : s.ckpts.getLast? = some c.seq → ∀ {n m : ℕ}, s.super.getLast? = some n → n < m →
      m < s.curSeq → False := by
    intro newest n m isNewest after before
    rw [backed.super] at isNewest
    cases newest.symm.trans isNewest
    omega
  cases done with
  | object stage =>
      refine ⟨?_, ?_, dense.readable⟩
      · intro newest isNewest n after before
        by_cases same : c.seq = n
        · exact .inr (.inr ⟨_, rfl, same⟩)
        · rcases dense.log newest isNewest n after before with there | flying | ⟨k, writing, seq⟩
          · refine .inl ?_
            simp only [table_insert, if_neg same]
            exact there
          · exact .inr (.inl flying)
          · cases busy.symm.trans writing
            exact absurd seq same
      · intro k same
        cases same
        exact next
  | superblock stage =>
      refine ⟨?_, ?_, dense.readable⟩
      · intro newest isNewest n after before
        rw [keep_three_last] at isNewest
        cases isNewest
        simp only at before
        omega
      · intro k same
        cases same
        exact next
  | delete stage =>
      rename_i o rest
      rw [stage] at progress
      refine ⟨?_, ?_, dense.readable⟩
      · intro n isNewest m after before
        exact (covered progress.2.1 isNewest after before).elim
      · intro k same
        cases same
        exact next
  | done stage phase moved =>
      rw [stage] at progress
      refine ⟨?_, ?_, dense.readable⟩
      · intro n isNewest m after before
        exact (covered progress.2.1 isNewest after before).elim
      · intro k free
        cases free

theorem Dense.step {W : Tx σ → ℕ → Obj σ → Prop} (dense : s.Dense) (stepped : Stepped env s a s')
    (uuidBound : env.uuid < 2 ^ 128) (left : NumbersLeft s a) (old : s.DeletesOld a)
    (backed : s.Backed W) : s'.Dense := by
  cases stepped with
  | write rolled nonempty room => cases rolled <;> exact dense.of_same rfl rfl rfl rfl rfl
  | flush rolled => cases rolled <;> exact dense.of_same rfl rfl rfl rfl rfl
  | checkpoint rolled => cases rolled <;> exact dense.of_same rfl rfl rfl rfl rfl
  | flushThread rolled => cases rolled <;> exact dense.of_same rfl rfl rfl rfl rfl
  | trim done => exact dense.of_same rfl rfl rfl rfl rfl
  | complete member => exact dense.land member
  | ckpt busy done => exact done.dense busy backed dense
  | work free worked =>
      have room : s.curSeq < 2 ^ 31 := left
      cases worked with
      | put head done =>
          exact dense.send free left (process_batch_reads uuidBound (by omega) done)
      | gc head done => exact dense.send free left (write_gc_reads uuidBound (by omega) done)
      | flush head quiet => exact dense.of_same rfl rfl rfl rfl rfl
      | ckpt head done =>
          have next : nextSeq s.curSeq = s.curSeq + 1 := next_seq_eq left
          refine ⟨?_, ?_, dense.readable⟩
          · intro c newest n after before
            simp only [next] at before
            by_cases new : s.curSeq = n
            · exact .inr (.inr ⟨_, rfl, new⟩)
            · rcases dense.log c newest n after (by omega) with there | flying | ⟨k, writing, -⟩
              · exact .inl there
              · exact .inr (.inl flying)
              · rw [free] at writing
                cases writing
          · intro k same
            cases same
            exact next
  | collect collected =>
      cases collected with
      | reap phase member => exact dense.erase (old _ (by simp [deletes])) rfl rfl rfl rfl rfl
      | delete phase => exact dense.erase (old _ (by simp [deletes, phase])) rfl rfl rfl rfl rfl
      | checkpoint phase rolled => cases rolled <;> exact dense.of_same rfl rfl rfl rfl rfl
      | _ => exact dense.of_same rfl rfl rfl rfl rfl

end Tx

end LsvdRbd.Session
