import LsvdRbd.Recovery.Table

/-!
# Recovery yields a prefix of the log

The worker numbers what it writes consecutively. After a crash any subset of the
objects beyond the last checkpoint may be present; recovery replays those that
follow the checkpoint without a gap, and gets the map that the worker had after
the last of them.
-/

namespace LsvdRbd.Recovery

open Records RunList ExtentMap Format Translate Machine

set_option autoImplicit false

variable {σ : Type*}

/-- The work of one worker, and the trims that come between. -/
inductive Event (σ : Type*)
  | batch (entries : List MapEntry) (data : List σ)
  | gc (entries : List MapEntry) (input : List σ)
  | ckpt
  | trim (base limit : ℤ)

def Event.IsTrim : Event σ → Prop
  | trim _ _ => True
  | _ => False

def Event.Proper : Event σ → Prop
  | batch entries data => ProperRequest entries data
  | gc entries input => ProperRequest entries input
  | ckpt => True
  | trim base limit => 0 ≤ base ∧ base ≤ limit ∧ base < 2 ^ 35

structure Emitted (σ : Type*) where
  number : ℕ
  kind : ObjType
  obj : Obj σ

structure Worker (σ : Type*) where
  maps : Maps
  curSeq : ℕ
  log : List (Emitted σ)

def Worker.emit (w : Worker σ) (kind : ObjType) (maps : Maps) (obj : Obj σ) : Worker σ :=
  ⟨maps, nextSeq w.curSeq, w.log ++ [⟨w.curSeq, kind, obj⟩]⟩

section Work

variable (crc32 : Bytes → ℕ) (uuid : ℕ)

/-- One round of `worker_thread`. -/
def work (w : Worker σ) : Event σ → Option (Worker σ)
  | .batch entries data =>
      (processBatch crc32 uuid w.curSeq entries data w.maps).map fun r => w.emit .logData r.1 r.2
  | .gc entries input =>
      (writeGc crc32 uuid w.curSeq entries input w.maps).map fun r => w.emit .logData r.1 r.2
  | .ckpt =>
      (checkpointObject uuid w.curSeq w.maps).map fun obj => w.emit .checkpoint w.maps obj
  | .trim base limit => (w.maps.trim base limit).map fun maps => { w with maps := maps }

end Work

structure Worker.Ok (w : Worker σ) : Prop where
  sound : Sound w.maps.objmap
  mapped : ∀ x p, locate w.maps.objmap x = some p → p.obj < w.curSeq
  logged : ∀ e ∈ w.log, e.number < w.curSeq

def InBounds (w : Worker σ) (ev : Event σ) : Prop := w.curSeq < 2 ^ 31 ∧ ev.Proper

theorem lays_over_mapped {uuid seq : ℕ} {obj : Option (Obj σ)} {f g : ℤ → Option ObjOffset}
    (laid : LaysOver uuid obj seq f g) (before : ∀ x p, f x = some p → p.obj < seq) :
    ∀ x p, g x = some p → p.obj < (seq + 1 : ℕ) := by
  obtain ⟨_, hdrSectors, ranges, -, -, -, -, same⟩ := laid
  intro x p found
  rw [same, overlay] at found
  split at found
  · rw [← Option.some.inj found]
    simp
  · have := before x p found
    omega

/-- Work other than a trim emits one object under the next number: a data object
that takes the old map to the new one, or a checkpoint of the map. -/
def Emission (uuid : ℕ) (w w' : Worker σ) (e : Emitted σ) : Prop :=
  e.number = w.curSeq ∧ w'.curSeq = w.curSeq + 1 ∧ w'.log = w.log ++ [e] ∧
    ((e.kind = .logData ∧
        LaysOver uuid (some e.obj) w.curSeq (locate w.maps.objmap) (locate w'.maps.objmap)) ∨
      (e.kind = .checkpoint ∧ checkpointObject uuid w.curSeq w.maps = some e.obj ∧
        w'.maps = w.maps))

section Runs

variable {crc32 : Bytes → ℕ} {uuid : ℕ} {w w' : Worker σ}

theorem work_emission {ev : Event σ} (ok : w.Ok) (uuidBound : uuid < 2 ^ 128)
    (bounds : InBounds w ev) (noTrim : ¬ev.IsTrim) (stepped : work crc32 uuid w ev = some w') :
    w'.Ok ∧ ∃ e, Emission uuid w w' e := by
  obtain ⟨seqBound, proper⟩ := bounds
  have next := next_seq_eq seqBound
  -- what holds of every emission
  have finish : ∀ {kind : ObjType} {maps : Maps} {obj : Obj σ}, Sound maps.objmap →
      (∀ x p, locate maps.objmap x = some p → p.obj < (w.curSeq + 1 : ℕ)) →
      (w.emit kind maps obj).Ok := by
    intro kind maps obj sound mapped
    refine ⟨sound, ?_, ?_⟩
    · simp only [Worker.emit, next]
      exact mapped
    · simp only [Worker.emit, next, List.mem_append, List.mem_singleton]
      rintro e (old | rfl)
      · have := ok.logged e old
        omega
      · simp
  cases ev with
  | batch entries data =>
      obtain ⟨⟨maps, obj⟩, ran, rfl⟩ := Option.map_eq_some_iff.mp stepped
      obtain ⟨emits, -⟩ := process_batch_emits ok.sound proper uuidBound seqBound ran
      have laid := Emits.lays_over emits
      exact ⟨finish emits.sound (lays_over_mapped laid ok.mapped), ⟨w.curSeq, .logData, obj⟩, rfl,
        next, rfl, .inl ⟨rfl, laid⟩⟩
  | gc entries input =>
      obtain ⟨⟨maps, obj⟩, ran, rfl⟩ := Option.map_eq_some_iff.mp stepped
      obtain ⟨emits, -⟩ := write_gc_emits ok.sound proper uuidBound seqBound ran
      have laid := Emits.lays_over emits
      exact ⟨finish emits.sound (lays_over_mapped laid ok.mapped), ⟨w.curSeq, .logData, obj⟩, rfl,
        next, rfl, .inl ⟨rfl, laid⟩⟩
  | ckpt =>
      rw [work, Option.map_eq_some_iff] at stepped
      obtain ⟨obj, written, rfl⟩ := stepped
      have mapped : ∀ x p, locate w.maps.objmap x = some p → p.obj < (w.curSeq + 1 : ℕ) := by
        intro x p found
        have := ok.mapped x p found
        omega
      exact ⟨finish ok.sound mapped, ⟨w.curSeq, .checkpoint, obj⟩, rfl, next, rfl,
        .inr ⟨rfl, written, rfl⟩⟩
  | trim base limit => exact absurd trivial noTrim

theorem work_ok {ev : Event σ} (ok : w.Ok) (uuidBound : uuid < 2 ^ 128) (bounds : InBounds w ev)
    (stepped : work crc32 uuid w ev = some w') : w'.Ok := by
  cases ev with
  | trim base limit =>
      obtain ⟨lower, order, upper⟩ := bounds.2
      obtain ⟨maps, trimmed, rfl⟩ := Option.map_eq_some_iff.mp stepped
      obtain ⟨acc, -, rfl⟩ := Option.map_eq_some_iff.mp trimmed
      refine ⟨(ok.sound.unset order (objmap_key lower (by omega))).1, ?_, ok.logged⟩
      intro x p found
      simp only [ok.sound.locate_unset order (objmap_key lower (by omega))] at found
      split at found
      · cases found
      · exact ok.mapped x p found
  | batch entries data => exact (work_emission ok uuidBound bounds (by simp [Event.IsTrim]) stepped).1
  | gc entries input => exact (work_emission ok uuidBound bounds (by simp [Event.IsTrim]) stepped).1
  | ckpt => exact (work_emission ok uuidBound bounds (by simp [Event.IsTrim]) stepped).1

variable {acts : List (Event σ)}

theorem run_log_grows (ok : w.Ok) (uuidBound : uuid < 2 ^ 128)
    (along : Along (work crc32 uuid) InBounds w acts)
    (ran : run (work crc32 uuid) w acts = some w') :
    w'.Ok ∧ w.curSeq ≤ w'.curSeq ∧ (w.curSeq ≤ 2 ^ 31 → w'.curSeq ≤ 2 ^ 31) ∧
      ∃ more, w'.log = w.log ++ more ∧ ∀ e ∈ more, w.curSeq ≤ e.number := by
  induction acts generalizing w with
  | nil =>
      cases ran
      exact ⟨ok, le_refl _, id, [], by simp⟩
  | cons ev rest ih =>
      obtain ⟨next, stepped, later⟩ := (run_cons_eq_some _).mp ran
      have nextOk := work_ok ok uuidBound along.1 stepped
      obtain ⟨finalOk, order, finalBound, more, log, above⟩ := ih nextOk (along.2 next stepped) later
      have seqBound := along.1.1
      by_cases isTrim : ev.IsTrim
      · cases ev with
        | trim base limit =>
            obtain ⟨maps, -, rfl⟩ := Option.map_eq_some_iff.mp stepped
            exact ⟨finalOk, order, finalBound, more, log, above⟩
        | _ => cases isTrim
      · obtain ⟨-, e, number, seq, nextLog, -⟩ := work_emission ok uuidBound along.1 isTrim stepped
        refine ⟨finalOk, by omega, fun _ => finalBound (by omega), e :: more, ?_, ?_⟩
        · rw [log, nextLog, List.append_assoc, List.singleton_append]
        · intro other member
          rcases List.mem_cons.mp member with rfl | inMore
          · exact number.ge
          · have := above other inMore
            omega

/-- A run without trims takes one number for each event, and its log grows by
objects with these numbers. -/
theorem run_numbers (ok : w.Ok) (uuidBound : uuid < 2 ^ 128)
    (along : Along (work crc32 uuid) InBounds w acts) (noTrim : ∀ ev ∈ acts, ¬ev.IsTrim)
    (ran : run (work crc32 uuid) w acts = some w') :
    w'.Ok ∧ w'.curSeq = w.curSeq + acts.length ∧ (w.curSeq ≤ 2 ^ 31 → w'.curSeq ≤ 2 ^ 31) ∧
      ∃ more, w'.log = w.log ++ more ∧ ∀ e ∈ more, w.curSeq ≤ e.number := by
  obtain ⟨finalOk, -, grown⟩ := run_log_grows ok uuidBound along ran
  refine ⟨finalOk, ?_, grown⟩
  clear grown
  induction acts generalizing w with
  | nil =>
      cases ran
      rfl
  | cons ev rest ih =>
      obtain ⟨next, stepped, later⟩ := (run_cons_eq_some _).mp ran
      obtain ⟨nextOk, -, -, seq, -⟩ :=
        work_emission ok uuidBound along.1 (noTrim ev (by simp)) stepped
      have counted := ih nextOk (along.2 next stepped)
        (fun other member => noTrim other (by simp [member])) later
      rw [counted, seq, List.length_cons]
      omega

theorem logged_at (ok : w.Ok) (uuidBound : uuid < 2 ^ 128)
    (along : Along (work crc32 uuid) InBounds w acts) (noTrim : ∀ ev ∈ acts, ¬ev.IsTrim)
    (ran : run (work crc32 uuid) w acts = some w') {e : Emitted σ} (member : e ∈ w'.log) {j : ℕ}
    (number : e.number = w.curSeq + j) :
    j < acts.length ∧ ∃ mid next, run (work crc32 uuid) w (acts.take j) = some mid ∧
      mid.curSeq = w.curSeq + j ∧ run (work crc32 uuid) w (acts.take (j + 1)) = some next ∧
      Emission uuid mid next e := by
  induction acts generalizing w j with
  | nil =>
      cases ran
      have := ok.logged e member
      omega
  | cons ev rest ih =>
      obtain ⟨next, stepped, later⟩ := (run_cons_eq_some _).mp ran
      obtain ⟨nextOk, first, emission⟩ :=
        work_emission ok uuidBound along.1 (noTrim ev (by simp)) stepped
      have restNoTrim : ∀ other ∈ rest, ¬other.IsTrim :=
        fun other inside => noTrim other (by simp [inside])
      have ⟨_, nextSeq, nextLog, _⟩ := emission
      cases j with
      | zero =>
          -- later objects have larger numbers, earlier ones smaller
          obtain ⟨-, -, -, more, log, above⟩ :=
            run_numbers nextOk uuidBound (along.2 next stepped) restNoTrim later
          have same : e = first := by
            rw [log, nextLog] at member
            simp only [List.mem_append, List.mem_singleton] at member
            rcases member with (old | same) | new
            · have := ok.logged e old
              omega
            · exact same
            · have := above e new
              omega
          refine ⟨by simp, w, next, rfl, rfl, ?_, same ▸ emission⟩
          rw [zero_add, List.take_succ_cons, List.take_zero, run_cons_eq_some]
          exact ⟨next, stepped, rfl⟩
      | succ j =>
          obtain ⟨inside, mid, after, ranMid, midSeq, ranAfter, here⟩ :=
            ih nextOk (along.2 next stepped) restNoTrim later (j := j) (by omega)
          refine ⟨by simpa using inside, mid, after, ?_, by omega, ?_, here⟩
          · rw [List.take_succ_cons, run_cons_eq_some]
            exact ⟨next, stepped, ranMid⟩
          · rw [List.take_succ_cons, run_cons_eq_some]
            exact ⟨next, stepped, ranAfter⟩

def mapAfter (crc32 : Bytes → ℕ) (uuid : ℕ) (w : Worker σ) (acts : List (Event σ)) (j : ℕ) :
    ℤ → Option ObjOffset :=
  match run (work crc32 uuid) w (acts.take j) with
  | some mid => locate mid.maps.objmap
  | none => fun _ => none

def DataPresent (w : Worker σ) (store : Store σ) (n : ℕ) : Prop :=
  ∃ obj, store[n]? = some obj ∧ ⟨n, .logData, obj⟩ ∈ w.log

theorem replay_log (store : Store σ) {m : Objmap} (count : ℕ) (ok : w.Ok)
    (uuidBound : uuid < 2 ^ 128) (along : Along (work crc32 uuid) InBounds w acts)
    (noTrim : ∀ ev ∈ acts, ¬ev.IsTrim) (ran : run (work crc32 uuid) w acts = some w')
    (seqBound : w.curSeq ≤ 2 ^ 31)
    (written : ∀ n obj, w.curSeq ≤ n → store[n]? = some obj → ∃ kind, ⟨n, kind, obj⟩ ∈ w'.log)
    (reach : ∀ j < count, DataPresent w' store (w.curSeq + j))
    (stop : ¬DataPresent w' store (w.curSeq + count)) (sound : Sound m)
    (start : ∀ x, locate m x = locate w.maps.objmap x) :
    count ≤ acts.length ∧ ∃ m' mid, run (work crc32 uuid) w (acts.take count) = some mid ∧
      replay (fun n => applyLogMap store[n]? n) (store.size + 1) w.curSeq m =
        some (.ok (m', w.curSeq + count)) ∧ ∀ x, locate m' x = locate mid.maps.objmap x := by
  obtain ⟨-, finalSeq, finalBound, -⟩ := run_numbers ok uuidBound along noTrim ran
  have bound := finalBound seqBound
  have inside : count ≤ acts.length := by
    cases count with
    | zero => omega
    | succ count =>
        obtain ⟨obj, -, member⟩ := reach count (by omega)
        exact (logged_at ok uuidBound along noTrim ran member rfl).1
  obtain ⟨mid, ranMid, -⟩ := (run_append_eq_some _).mp (by rwa [List.take_append_drop count acts])
  obtain ⟨m', replayed, -, located⟩ := replay_stretch uuid store
    (mapAfter crc32 uuid w acts) w.curSeq count (store.size + 1) (by omega)
    (by
      intro j bound
      obtain ⟨obj, found, member⟩ := reach j bound
      obtain ⟨-, before, after, ranBefore, seq, ranAfter, -, -, -, kind⟩ :=
        logged_at ok uuidBound along noTrim ran member rfl
      rcases kind with ⟨-, laid⟩ | ⟨wrong, -⟩
      · rw [seq] at laid
        rw [found, mapAfter, mapAfter, ranBefore, ranAfter]
        exact laid
      · cases wrong)
    (by
      cases found : store[w.curSeq + count]? with
      | none => rfl
      | some obj =>
          -- what is there and is no data object is a checkpoint
          obtain ⟨kind, member⟩ := written _ obj (by omega) found
          obtain ⟨-, before, _, -, seq, -, -, -, -, which⟩ :=
            logged_at ok uuidBound along noTrim ran member rfl
          rcases which with ⟨isData, -⟩ | ⟨-, checkpoint, -⟩
          · simp only at isData
            exact absurd ⟨obj, found, isData ▸ member⟩ stop
          · exact checkpoint_object_not_data uuidBound (by omega) checkpoint)
    sound (by
      intro x
      rw [start, mapAfter, List.take_zero]
      rfl)
    (by
      have := count_le_size store w.curSeq count
        fun j bound => (reach j bound).imp fun _ both => both.1
      omega)
  refine ⟨inside, m', mid, ranMid, replayed, ?_⟩
  intro x
  rw [located, mapAfter, ranMid]

/-! ## Host writes -/

/-- `write_request::run` splits a write into chunks of at most `max` sectors, and
`append` makes one entry of each. -/
def hostEntries (max lba size : ℕ) : List MapEntry :=
  (List.range (divRoundUp size max)).map fun i =>
    .store (lba + i * max : ℕ) (min (size - i * max) max : ℕ) 0 0

theorem host_entries_single {max lba size : ℕ} (positive : 0 < size) (small : size ≤ max) :
    hostEntries max lba size = [.store lba size 0 0] := by
  have one : divRoundUp size max = 1 := by
    rw [divRoundUp, Nat.div_eq_iff (by omega)]
    omega
  simp [hostEntries, one, small]

/-- The address holds what object `seq` has from `offset` on, or what a later
object wrote. -/
def HoldsFrom (seq : ℕ) (offset : ℤ) (f : ℤ → Option ObjOffset) (x : ℤ) : Prop :=
  ∃ p, f x = some p ∧ (seq < p.obj ∨ p.obj = seq ∧ offset ≤ p.offset)

theorem HoldsFrom.laid_over {seq later : ℕ} {offset x : ℤ} {obj : Option (Obj σ)}
    {f g : ℤ → Option ObjOffset} (holds : HoldsFrom seq offset f x)
    (laid : LaysOver uuid obj later f g) (after : seq < later) : HoldsFrom seq offset g x := by
  obtain ⟨p, found, which⟩ := holds
  obtain ⟨_, hdrSectors, ranges, -, -, -, -, same⟩ := laid
  unfold HoldsFrom
  rw [same, overlay]
  cases lastIndex ranges x with
  | some i => exact ⟨_, rfl, .inl (by simpa using after)⟩
  | none => exact ⟨p, found, which⟩

theorem run_holds_from (ok : w.Ok) (uuidBound : uuid < 2 ^ 128)
    (along : Along (work crc32 uuid) InBounds w acts) (noTrim : ∀ ev ∈ acts, ¬ev.IsTrim)
    (ran : run (work crc32 uuid) w acts = some w') {seq : ℕ} {offset x : ℤ}
    (earlier : seq < w.curSeq) (holds : HoldsFrom seq offset (locate w.maps.objmap) x) :
    HoldsFrom seq offset (locate w'.maps.objmap) x := by
  induction acts generalizing w with
  | nil =>
      cases ran
      exact holds
  | cons ev rest ih =>
      obtain ⟨next, stepped, later⟩ := (run_cons_eq_some _).mp ran
      obtain ⟨nextOk, e, -, seqNext, -, kind⟩ :=
        work_emission ok uuidBound along.1 (noTrim ev (by simp)) stepped
      refine ih nextOk (along.2 next stepped) (fun other member => noTrim other (by simp [member]))
        later (by omega) ?_
      rcases kind with ⟨-, laid⟩ | ⟨-, -, same⟩
      · exact holds.laid_over laid earlier
      · rwa [same]

theorem batch_holds_from {before after : List MapEntry} {e : MapEntry} {data : List σ} (ok : w.Ok)
    (uuidBound : uuid < 2 ^ 128) (bounds : InBounds w (.batch (before ++ e :: after) data))
    (stepped : work crc32 uuid w (.batch (before ++ e :: after) data) = some w') {x : ℤ}
    (low : e.lba ≤ x) (high : x < e.lba + e.len) :
    HoldsFrom w.curSeq (hdrSectorsFor (before ++ e :: after).length +
      (sectors (entryRanges before) + (x - e.lba))) (locate w'.maps.objmap) x := by
  obtain ⟨⟨maps, obj⟩, ran, rfl⟩ := Option.map_eq_some_iff.mp stepped
  obtain ⟨emits, -⟩ := process_batch_emits ok.sound bounds.2 uuidBound bounds.1 ran
  have proper := emits.proper
  rw [entry_ranges_append, entry_ranges_cons] at proper
  obtain ⟨i, found, least⟩ :=
    last_index_ge (entryRanges before) proper.append.2.tail low high
  refine ⟨⟨w.curSeq, hdrSectorsFor (before ++ e :: after).length + i⟩, ?_, .inr ⟨rfl, ?_⟩⟩
  · change locate maps.objmap x = _
    rw [emits.locate_eq, overlay, entry_ranges_append, entry_ranges_cons, found]
  · exact add_le_add_right least _

/-- The entry, written by the batch with number `seq`, is recovered wholly if the
last number replayed is `seq` or later, and not at all otherwise. -/
def WhollyOrNot (seq last hdrSectors : ℕ) (before : List MapEntry) (e : MapEntry) (m : Objmap) :
    Prop :=
  (seq ≤ last ∧ ∀ x, e.lba ≤ x → x < e.lba + e.len →
      HoldsFrom seq (hdrSectors + (sectors (entryRanges before) + (x - e.lba))) (locate m) x) ∨
    (last < seq ∧ ∀ x p, locate m x = some p → p.obj ≠ seq)

/-- A map that agrees with the worker's after `count` events has each entry of a
batch wholly or not at all. -/
theorem entry_wholly_or_not {w mid : Worker σ} {left right : List (Event σ)}
    {front back : List MapEntry} {e : MapEntry} {data : List σ} {m : Objmap} {count : ℕ}
    (last : ℕ) (ok : w.Ok) (uuidBound : uuid < 2 ^ 128)
    (along : Along (work crc32 uuid) InBounds w
      (left ++ .batch (front ++ e :: back) data :: right))
    (noTrim : ∀ ev ∈ left ++ .batch (front ++ e :: back) data :: right, ¬ev.IsTrim)
    (ran : run (work crc32 uuid) w
      ((left ++ .batch (front ++ e :: back) data :: right).take count) = some mid)
    (number : mid.curSeq = w.curSeq + count) (lastEq : last + 1 = w.curSeq + count)
    (located : ∀ x, locate m x = locate mid.maps.objmap x) :
    WhollyOrNot (w.curSeq + left.length) last (hdrSectorsFor (front ++ e :: back).length) front e
      m := by
  set acts := left ++ .batch (front ++ e :: back) data :: right with actsDef
  have takeAlong : Along (work crc32 uuid) InBounds w (acts.take count) := by
    rw [← List.take_append_drop count acts] at along
    exact ((along_append _).mp along).1
  have takeNoTrim : ∀ ev ∈ acts.take count, ¬ev.IsTrim :=
    fun ev member => noTrim ev (List.mem_of_mem_take member)
  by_cases replayed : left.length < count
  · left
    refine ⟨by omega, ?_⟩
    intro x low high
    have split : acts.take count =
        left ++ .batch (front ++ e :: back) data :: right.take (count - left.length - 1) := by
      obtain ⟨extra, rfl⟩ := Nat.exists_eq_add_of_lt replayed
      rw [actsDef, List.take_append, List.take_of_length_le (by omega),
        show left.length + extra + 1 - left.length = extra + 1 by omega, List.take_succ_cons]
      simp
    rw [split] at ran takeAlong takeNoTrim
    obtain ⟨leftAlong, restAlong⟩ := (along_append _).mp takeAlong
    obtain ⟨wl, ranLeft, ranRest⟩ := (run_append_eq_some _).mp ran
    obtain ⟨wb, batchStep, ranRight⟩ := (run_cons_eq_some _).mp ranRest
    obtain ⟨wlOk, wlSeq, -⟩ := run_numbers ok uuidBound leftAlong
      (fun ev member => takeNoTrim ev (by simp [member])) ranLeft
    have batchAlong := restAlong wl ranLeft
    have written := batch_holds_from wlOk uuidBound batchAlong.1 batchStep low high
    obtain ⟨wbOk, _, -, wbSeq, -⟩ :=
      work_emission wlOk uuidBound batchAlong.1 (by simp [Event.IsTrim]) batchStep
    have kept := run_holds_from wbOk uuidBound (batchAlong.2 wb batchStep)
      (fun ev member => takeNoTrim ev (by simp [member])) ranRight (by omega) written
    rw [wlSeq] at kept
    obtain ⟨p, found, which⟩ := kept
    exact ⟨p, (located x).trans found, which⟩
  · right
    obtain ⟨midOk, -⟩ := run_numbers ok uuidBound takeAlong takeNoTrim ran
    refine ⟨by omega, ?_⟩
    intro x p found
    rw [located] at found
    have := midOk.mapped x p found
    omega

end Runs

/-- Recovery from checkpoint `ckpt`, with any subset of the later objects
present, gives the map that the worker had after the last number `k` before the
first gap; the worker goes on with `k + 1`, and a host write of one chunk is
recovered wholly or not at all. -/
theorem crash_recovers_start_of_log {crc32 : Bytes → ℕ} {uuid : ℕ} {w0 wc w : Worker σ}
    {before after : List (Event σ)} {store : Store σ} {k : ℕ} (uuidBound : uuid < 2 ^ 128)
    (start : w0.Ok)
    (bounds : Along (work crc32 uuid) InBounds w0 (before ++ .ckpt :: after))
    (noTrim : ∀ ev ∈ after, ¬ev.IsTrim)
    (ranBefore : run (work crc32 uuid) w0 before = some wc)
    (ran : run (work crc32 uuid) w0 (before ++ .ckpt :: after) = some w)
    (listed : ∃ obj, store[wc.curSeq]? = some obj)
    (written : ∀ n obj, wc.curSeq ≤ n → store[n]? = some obj → ∃ kind, ⟨n, kind, obj⟩ ∈ w.log)
    (from_ckpt : wc.curSeq ≤ k)
    (reach : ∀ n, wc.curSeq < n → n ≤ k → DataPresent w store n)
    (stop : ¬DataPresent w store (k + 1)) :
    ∃ m wk, run (work crc32 uuid) w0 (before ++ .ckpt :: after.take (k - wc.curSeq)) = some wk ∧
      wk.curSeq = k + 1 ∧
      recoverMap wc.curSeq store = some (.ok (m, k)) ∧ nextSeq k = wk.curSeq ∧
      (∀ x, locate m x = locate wk.maps.objmap x) ∧
      (∀ window older image last store',
        recover window (older ++ [wc.curSeq]) store = some (.ok (image, last, store')) →
          image.objmap = m ∧ last = k) ∧
      ∀ max lba size, 0 < size → size ≤ max → ∃ e, hostEntries max lba size = [e] ∧
        ∀ left right front back data, after = left ++ .batch (front ++ e :: back) data :: right →
          WhollyOrNot (wc.curSeq + 1 + left.length) k (hdrSectorsFor (front ++ e :: back).length)
            front e m := by
  obtain ⟨beforeAlong, restAlong⟩ := (along_append _).mp bounds
  have wcOk : wc.Ok := invariant_along (fun _ _ _ ok allowed => work_ok ok uuidBound allowed) start
    beforeAlong ranBefore
  have ckptAlong := restAlong wc ranBefore
  obtain ⟨_, same, ranRest⟩ := (run_append_eq_some _).mp ran
  cases ranBefore.symm.trans same
  have restNoTrim : ∀ ev ∈ .ckpt :: after, ¬ev.IsTrim := by
    intro ev member
    rcases List.mem_cons.mp member with rfl | inAfter
    · simp [Event.IsTrim]
    · exact noTrim ev inAfter
  obtain ⟨w1, ckptStep, ranAfter⟩ := (run_cons_eq_some _).mp ranRest
  have seqBound : wc.curSeq < 2 ^ 31 := ckptAlong.1.1
  have w1Ok : w1.Ok := work_ok wcOk uuidBound ckptAlong.1 ckptStep
  have afterAlong := ckptAlong.2 w1 ckptStep
  have ckptMade := ckptStep
  rw [work, Option.map_eq_some_iff] at ckptMade
  obtain ⟨ckptObj, made, rfl⟩ := ckptMade
  have w1Seq : nextSeq wc.curSeq = wc.curSeq + 1 := next_seq_eq seqBound
  -- the object under the checkpoint's number is the checkpoint
  have stored : store[wc.curSeq]? = some ckptObj := by
    obtain ⟨obj, found⟩ := listed
    obtain ⟨kind, member⟩ := written _ obj (le_refl _) found
    obtain ⟨-, mid, next, ranMid, -, ranNext, -, -, log, -⟩ :=
      logged_at wcOk uuidBound ckptAlong restNoTrim ranRest member (j := 0) rfl
    cases ranMid
    obtain ⟨_, again, done⟩ := (run_cons_eq_some _).mp ranNext
    cases ckptStep.symm.trans again
    cases done
    have := List.append_cancel_left log
    simp only [List.cons.injEq, Emitted.mk.injEq] at this
    rw [found, this.1.2.2]
  obtain ⟨m0, loaded, m0Sound, m0Locate⟩ :=
    read_from_written_checkpoint wcOk.sound uuidBound (by omega) made [wc.curSeq]
  obtain ⟨inside, m, mid, ranMid, replayed, located⟩ := replay_log store
    (k - wc.curSeq) w1Ok uuidBound afterAlong noTrim ranAfter
    (by simp only [Worker.emit, w1Seq]; omega)
    (fun n obj later found => written n obj (by simp only [Worker.emit, w1Seq] at later; omega) found)
    (fun j bound => reach _ (by simp only [Worker.emit, w1Seq]; omega)
      (by simp only [Worker.emit, w1Seq]; omega))
    (by
      have : (wc.emit .checkpoint wc.maps ckptObj).curSeq + (k - wc.curSeq) = k + 1 := by
        simp only [Worker.emit, w1Seq]
        omega
      rwa [this])
    m0Sound m0Locate
  obtain ⟨-, midSeq, midBound, -⟩ := run_numbers w1Ok uuidBound
    (((along_append _).mp (by rwa [List.take_append_drop])).1)
    (fun ev member => noTrim ev (List.mem_of_mem_take member)) ranMid
  have midNumber : mid.curSeq = k + 1 := by
    rw [midSeq, List.length_take]
    simp only [Worker.emit, w1Seq]
    omega
  have kBound : k + 1 ≤ 2 ^ 31 := by
    rw [← midNumber]
    exact midBound (by simp only [Worker.emit, w1Seq]; omega)
  have recovered : recoverMap wc.curSeq store = some (.ok (m, k)) := by
    rw [recoverMap, stored, loaded]
    simp only [Worker.emit] at replayed
    simp only [replayed, Option.map_some, Except.map]
    rw [w1Seq, show wc.curSeq + 1 + (k - wc.curSeq) = k + 1 by omega, prev_seq_eq (by omega)]
  refine ⟨m, mid, ?_, midNumber, recovered, ?_, located, ?_, ?_⟩
  · rw [run_append_eq_some]
    refine ⟨wc, ranBefore, ?_⟩
    rw [run_cons_eq_some]
    exact ⟨_, ckptStep, ranMid⟩
  · rw [midNumber, nextSeq]
    omega
  · intro window older image last store' opened
    have same := (recover_objmap opened).symm.trans recovered
    simpa using same
  · intro max lba size positive small
    refine ⟨_, host_entries_single positive small, ?_⟩
    rintro left right front back data rfl
    have := entry_wholly_or_not k w1Ok uuidBound afterAlong noTrim ranMid
      (by rw [midNumber]; simp only [Worker.emit, w1Seq]; omega)
      (by simp only [Worker.emit, w1Seq]; omega) located
    simpa only [Worker.emit, w1Seq] using this

theorem along_in_bounds (crc32 : Bytes → ℕ) (uuid : ℕ) {w : Worker σ} {acts : List (Event σ)}
    (proper : ∀ ev ∈ acts, ev.Proper) (room : w.curSeq + acts.length ≤ 2 ^ 31) :
    Along (work crc32 uuid) InBounds w acts := by
  induction acts generalizing w with
  | nil => trivial
  | cons ev rest ih =>
      rw [List.length_cons] at room
      refine ⟨⟨by omega, proper ev (by simp)⟩, ?_⟩
      intro next stepped
      refine ih (fun other member => proper other (by simp [member])) ?_
      have small : next.curSeq ≤ w.curSeq + 1 := by
        cases ev with
        | trim base limit =>
            obtain ⟨maps, -, rfl⟩ := Option.map_eq_some_iff.mp stepped
            exact Nat.le_succ _
        | batch entries data =>
            obtain ⟨r, -, rfl⟩ := Option.map_eq_some_iff.mp stepped
            exact Nat.mod_le _ _
        | gc entries input =>
            obtain ⟨r, -, rfl⟩ := Option.map_eq_some_iff.mp stepped
            exact Nat.mod_le _ _
        | ckpt =>
            rw [work, Option.map_eq_some_iff] at stepped
            obtain ⟨obj, -, rfl⟩ := stepped
            exact Nat.mod_le _ _
      omega

def landed (log : List (Emitted σ)) (arrived : ℕ → Bool) : Store σ :=
  (log.filter fun e => arrived e.number).foldl (fun store e => store.insert e.number e.obj) ∅

theorem landed_from_log {log : List (Emitted σ)} {arrived : ℕ → Bool} {n : ℕ} {obj : Obj σ}
    (found : (landed log arrived)[n]? = some obj) : ∃ kind, ⟨n, kind, obj⟩ ∈ log := by
  have origin : ∀ (entries : List (Emitted σ)) (store : Store σ),
      (entries.foldl (fun store e => store.insert e.number e.obj) store)[n]? = some obj →
        store[n]? = some obj ∨ ∃ kind, ⟨n, kind, obj⟩ ∈ entries := by
    intro entries
    induction entries with
    | nil => exact fun store here => .inl here
    | cons e rest ih =>
        intro store here
        rcases ih _ here with inserted | ⟨kind, member⟩
        · rw [table_insert] at inserted
          split at inserted
          · rename_i same
            cases inserted
            exact .inr ⟨e.kind, by simp [← same]⟩
          · exact .inl inserted
        · exact .inr ⟨kind, by simp [member]⟩
  rcases origin _ _ found with impossible | ⟨kind, member⟩
  · simp at impossible
  · exact ⟨kind, List.mem_of_mem_filter member⟩

def gapRun : List (Event Unit) :=
  [.batch oneSector [()]] ++ .ckpt ::
    [.batch oneSector [()], .batch oneSector [()], .batch oneSector [()]]

/-- Object 4 of the run never reached the backend: recovery stops at 3. -/
theorem crash_recovers_start_of_log_gap : ∃ w m,
    run (work (fun _ => 0) 0) ⟨Maps.empty, 1, []⟩ gapRun = some w ∧
      recoverMap 2 (landed w.log (· ≠ 4)) = some (.ok (m, 3)) := by
  have empty : (⟨Maps.empty, 1, []⟩ : Worker Unit).Ok :=
    ⟨sound_empty, fun x p found => by simp [Maps.empty] at found, by simp⟩
  obtain ⟨wc, ranBefore⟩ : ∃ wc, run (work (fun _ => 0) 0) (⟨Maps.empty, 1, []⟩ : Worker Unit)
      [.batch oneSector [()]] = some wc := Option.isSome_iff_exists.mp (by decide +kernel)
  obtain ⟨w, ran⟩ : ∃ w, run (work (fun _ => 0) 0) (⟨Maps.empty, 1, []⟩ : Worker Unit) gapRun =
      some w := Option.isSome_iff_exists.mp (by decide +kernel)
  have ckptNumber : (run (work (fun _ => 0) 0) (⟨Maps.empty, 1, []⟩ : Worker Unit)
      [.batch oneSector [()]]).map Worker.curSeq = some 2 := by decide +kernel
  rw [ranBefore, Option.map_some, Option.some.injEq] at ckptNumber
  have arrivals : (run (work (fun _ => 0) 0) (⟨Maps.empty, 1, []⟩ : Worker Unit) gapRun).all
      (fun w => (landed w.log (· ≠ 4))[2]?.isSome && (landed w.log (· ≠ 4))[3]?.isSome &&
        (landed w.log (· ≠ 4))[4]?.isNone &&
        w.log.all fun e => e.number ≠ 3 ∨ e.kind = .logData) = true := by decide +kernel
  rw [ran] at arrivals
  simp only [Option.all_some, Bool.and_eq_true, Option.isNone_iff_eq_none, List.all_eq_true,
    decide_eq_true_eq] at arrivals
  obtain ⟨⟨⟨ckptThere, thirdThere⟩, gap⟩, kinds⟩ := arrivals
  obtain ⟨obj, found⟩ := Option.isSome_iff_exists.mp thirdThere
  obtain ⟨kind, logged⟩ := landed_from_log found
  have data : kind = .logData := (kinds _ logged).resolve_left (by simp)
  obtain ⟨m, -, -, -, recovered, -⟩ := @crash_recovers_start_of_log Unit (fun _ => 0) 0
    _ wc w _ _ (landed w.log (· ≠ 4)) 3 (by norm_num) empty
    (along_in_bounds _ _ (by
      intro ev member
      simp only [List.cons_append, List.nil_append, List.mem_cons, List.not_mem_nil,
        or_false] at member
      rcases member with rfl | rfl | rfl | rfl | rfl
      · exact one_sector_proper
      · trivial
      all_goals exact one_sector_proper) (by decide)) (by simp [Event.IsTrim]) ranBefore ran
    (by rw [ckptNumber]; exact Option.isSome_iff_exists.mp ckptThere)
    (fun n obj _ here => landed_from_log here) (by omega)
    (fun n low high => by
      obtain rfl : n = 3 := by omega
      exact ⟨obj, found, data ▸ logged⟩)
    (by
      rintro ⟨obj, here, -⟩
      rw [gap] at here
      cases here)
  exact ⟨w, m, ran, by rwa [ckptNumber] at recovered⟩

end LsvdRbd.Recovery
