import LsvdRbd.Session.Buffers

/-!
# What one step can do

One lemma for every action says what a step that is taken has found and what it
leaves. The invariants are proved from these.
-/

namespace LsvdRbd.Session

open Records RunList ExtentMap Format Translate Recovery

set_option autoImplicit false

variable {σ : Type*} {env : Env}

def Gc.mayStop : Gc σ → Bool
  | .idle | .selected _ _ | .snapshot _ _ | .sending _ _ | .cleaned _ => true
  | _ => false

namespace Tx

variable {s s' : Tx σ}

inductive Rolled (env : Env) (s : Tx σ) : Tx σ → Prop
  | same : Rolled env s s
  | queued (addr : ℤ) (clear : ∀ r ∈ s.buffers, r.Clear env addr) :
      Rolled env s { s with queue := s.queue ++ [.put s.current], current := ⟨addr, [], []⟩ }

variable {addr : ℤ}

theorem roll_cases (rolled : s.roll env addr = some s') : Rolled env s s' := by
  unfold roll at rolled
  split at rolled
  · rename_i clear
    cases rolled
    exact .queued addr clear
  · cases rolled

theorem submit_cases (submitted : s.submit env addr = some s') :
    Rolled env s s' := by
  unfold submit at submitted
  split at submitted
  · cases submitted
    exact .same
  · exact roll_cases submitted

theorem append_cases {lba : ℕ} {data : List σ} (appended : s.append env lba data = some s') :
    0 < data.length ∧ s.current.room env data.length = true ∧
      s' = { s with
        current := s.current.append lba data
        bufmap := (s.bufmap.set lba (lba + data.length) ⟨s.current.tail⟩).1 } := by
  unfold append at appended
  split at appended
  · rename_i admitted
    exact ⟨admitted.1, admitted.2, (Option.some.inj appended).symm⟩
  · cases appended

theorem writev_cases {lba : ℕ} {data : List σ} (written : s.writev env lba data addr = some s') :
    ∃ mid, Rolled env s mid ∧ mid.append env lba data = some s' := by
  unfold writev at written
  obtain ⟨mid, first, appended⟩ := Option.bind_eq_some_iff.mp written
  split at first
  · cases first
    exact ⟨s, .same, appended⟩
  · exact ⟨mid, roll_cases first, appended⟩

theorem flush_cases {tag : ℕ} (flushed : s.flush env tag addr = some s') :
    ∃ mid, Rolled env s mid ∧ s' = { mid with queue := mid.queue ++ [.flush tag] } := by
  obtain ⟨mid, submitted, rfl⟩ := Option.map_eq_some_iff.mp flushed
  exact ⟨mid, submit_cases submitted, rfl⟩

theorem checkpoint_cases {byGc : Bool} (asked : s.checkpoint env byGc addr = some s') :
    ∃ mid, Rolled env s mid ∧ s' = { mid with queue := mid.queue ++ [.ckpt byGc] } := by
  obtain ⟨mid, submitted, rfl⟩ := Option.map_eq_some_iff.mp asked
  exact ⟨mid, submit_cases submitted, rfl⟩

theorem flush_thread_cases (queued : s.flushThread env addr = some s') :
    Rolled env s s' := by
  unfold flushThread at queued
  split at queued
  · cases queued
  · exact roll_cases queued

theorem trim_cases {base limit : ℕ} (trimmed : s.trim base limit = some s') :
    ∃ maps, s.maps.trim base limit = some maps ∧ s' = { s with maps := maps } := by
  obtain ⟨maps, done, rfl⟩ := Option.map_eq_some_iff.mp trimmed
  exact ⟨maps, done, rfl⟩

theorem mem_buffers_of_queued {r : Request σ} {rest : List (Work σ)} (head : s.queue = .put r :: rest) :
    r ∈ s.buffers := by
  simp [buffers, pending, head, Work.request]

inductive Worked (env : Env) (s : Tx σ) : Tx σ → Prop
  | put {r : Request σ} {rest : List (Work σ)} {maps : Maps} {obj : Obj σ}
      (head : s.queue = .put r :: rest)
      (done : processBatch env.crc32 env.uuid s.curSeq r.entries r.data s.maps = some (maps, obj)) :
      Worked env s (s.send rest (some r) maps obj)
  | gc {entries : List MapEntry} {data : List σ} {rest : List (Work σ)} {maps : Maps} {obj : Obj σ}
      (head : s.queue = .gc entries data :: rest)
      (done : writeGc env.crc32 env.uuid s.curSeq entries data s.maps = some (maps, obj)) :
      Worked env s (s.send rest none maps obj)
  | ckpt {byGc : Bool} {rest : List (Work σ)} {obj : Obj σ} (head : s.queue = .ckpt byGc :: rest)
      (done : checkpointObject env.uuid s.curSeq s.maps = some obj) :
      Worked env s { s with
        queue := rest
        ckpting := some ⟨s.curSeq, obj, byGc, .object⟩
        curSeq := nextSeq s.curSeq }
  | flush {tag : ℕ} {rest : List (Work σ)} (head : s.queue = .flush tag :: rest)
      (quiet : s.inflight = []) :
      Worked env s { s with queue := rest, returned := tag :: s.returned }

theorem work_cases (worked : s.work env = some s') : s.ckpting = none ∧ Worked env s s' := by
  unfold work at worked
  split at worked
  · cases worked
  · cases worked
  · rename_i free head
    obtain ⟨result, done, rfl⟩ := Option.map_eq_some_iff.mp worked
    exact ⟨free, .put head done⟩
  · rename_i free head
    obtain ⟨result, done, rfl⟩ := Option.map_eq_some_iff.mp worked
    exact ⟨free, .gc head done⟩
  · rename_i free head
    rw [Option.map_eq_some_iff] at worked
    obtain ⟨obj, done, rfl⟩ := worked
    exact ⟨free, .ckpt head done⟩
  · rename_i free head
    split at worked
    · rename_i quiet
      cases worked
      exact ⟨free, .flush head (List.length_eq_zero_iff.mp quiet)⟩
    · cases worked

inductive Checkpointed (s : Tx σ) (c : Ckpt σ) : Tx σ → Prop
  | object (stage : c.stage = .object) : Checkpointed s c { s with
      store := s.store.insert c.seq c.obj
      ckpting := some { c with stage := .superblock } }
  | superblock (stage : c.stage = .superblock) : Checkpointed s c { s with
      ckpts := (keepThree (s.ckpts ++ [c.seq])).1
      super := (keepThree (s.ckpts ++ [c.seq])).1
      ckpting := some { c with stage := .deletes (keepThree (s.ckpts ++ [c.seq])).2 } }
  | delete {o : ℕ} {rest : List ℕ} (stage : c.stage = .deletes (o :: rest)) : Checkpointed s c
      { s with store := s.store.erase o, ckpting := some { c with stage := .deletes rest } }
  | done (stage : c.stage = .deletes []) (phase : Gc σ)
      (moved : (phase = s.gc ∧ (c.byGc = true → ∀ objs, s.gc ≠ .waiting objs)) ∨
        ∃ objs, c.byGc = true ∧ s.gc = .waiting objs ∧ phase = .deleting (objs.map Prod.fst)) :
      Checkpointed s c { s with ckpting := none, gc := phase }

theorem ckpt_step_cases (stepped : s.ckptStep = some s') :
    ∃ c, s.ckpting = some c ∧ Checkpointed s c s' := by
  unfold ckptStep at stepped
  split at stepped
  · cases stepped
  · rename_i c busy
    refine ⟨c, busy, ?_⟩
    split at stepped
    · rename_i stage
      cases stepped
      exact .object stage
    · rename_i stage
      cases stepped
      exact .superblock stage
    · rename_i stage
      cases stepped
      exact .delete stage
    · rename_i stage
      cases stepped
      refine .done stage _ ?_
      split
      · rename_i objs byGc waits
        exact .inr ⟨objs, byGc, waits, rfl⟩
      · rename_i otherwise
        exact .inl ⟨rfl, fun byGc objs waits => otherwise objs byGc waits⟩

theorem complete_cases {seq : ℕ} (completed : s.complete env seq = some s') :
    ∃ put ∈ s.inflight, put.seq = seq ∧ s' = s.land env put := by
  obtain ⟨put, found, rfl⟩ := Option.map_eq_some_iff.mp completed
  exact ⟨put, List.mem_of_find?_eq_some found, by simpa using List.find?_some found, rfl⟩

inductive Collected (env : Env) (s : Tx σ) : Action σ → Tx σ → Prop
  | start (phase : s.gc = .idle) :
      Collected env s .gcStart { s with gc := .started (signedField 32 s.curSeq) }
  | dead {maxObj : ℤ} (phase : s.gc = .started maxObj) :
      Collected env s .gcDead { s with
        maps := uncount (deadObjects s.maps.info) s.maps
        gc := .reaping maxObj (deadObjects s.maps.info) (deadObjects s.maps.info) }
  | reap {maxObj : ℤ} {dead left : List ℕ} {o : ℕ} (phase : s.gc = .reaping maxObj dead left)
      (member : o ∈ left) :
      Collected env s (.gcReap o)
        { s with store := s.store.erase o, gc := .reaping maxObj dead (left.erase o) }
  | erase {maxObj : ℤ} {dead : List ℕ} (phase : s.gc = .reaping maxObj dead []) :
      Collected env s .gcErase { s with maps := forget dead s.maps, gc := .reaped maxObj }
  | bound {maxObj : ℤ} (phase : s.gc = .reaped maxObj) :
      Collected env s .gcBound { s with gc := .bounded maxObj (s.ckpts.getLast?.getD s.curSeq) }
  | select {maxObj : ℤ} {lastCkpt : ℕ} {objs : List ℕ} (phase : s.gc = .bounded maxObj lastCkpt)
      (distinct : objs.Nodup) (few : objs.length ≤ 33)
      (allowed : ∀ o ∈ objs, selectable env s.maps.info lastCkpt o) :
      Collected env s (.gcSelect objs) { s with
        gc := if objs.length = 0 then .idle else .selected maxObj (withLengths s.maps.info objs) }
  | snapshot {maxObj : ℤ} {objs : List (ℕ × ℕ)} (phase : s.gc = .selected maxObj objs) :
      Collected env s .gcSnapshot
        { s with gc := .snapshot objs (liveExtents s.maps.objmap maxObj objs).extents }
  | load {buf : ℕ → ℕ → σ} {objs : List (ℕ × ℕ)} {live : List (Extent ObjOffset)}
      {left : List (Extent ObjOffset × List σ)} (phase : s.gc = .snapshot objs live)
      (loaded : live.mapM (readExtent (tempFile s.store buf objs) objs) = some left) :
      Collected env s (.gcLoad buf) { s with gc := .sending objs left }
  | submit {objs : List (ℕ × ℕ)} {left : List (Extent ObjOffset × List σ)}
      (phase : s.gc = .sending objs left) (more : left ≠ []) :
      Collected env s .gcSubmit { s with
        queue := s.queue ++ [.gc (gcEntries (nextRequest (env.objBytes / 512 : ℕ) 0 left).1)
          ((nextRequest (env.objBytes / 512 : ℕ) 0 left).1.flatMap Prod.snd)]
        gc := .sending objs (nextRequest (env.objBytes / 512 : ℕ) 0 left).2 }
  | done {objs : List (ℕ × ℕ)} (phase : s.gc = .sending objs []) (quiet : s.gcQuiet = true) :
      Collected env s .gcDone { s with
        maps := forget (objs.map Prod.fst) (uncount (objs.map Prod.fst) s.maps)
        gc := .cleaned objs }
  | checkpoint {objs : List (ℕ × ℕ)} {addr : ℤ} {mid : Tx σ} (phase : s.gc = .cleaned objs)
      (rolled : Rolled env s mid) :
      Collected env s (.gcCheckpoint addr)
        { mid with queue := mid.queue ++ [.ckpt true], gc := .waiting objs }
  | delete {o : ℕ} {rest : List ℕ} (phase : s.gc = .deleting (o :: rest)) :
      Collected env s .gcDelete { s with store := s.store.erase o, gc := .deleting rest }
  | finish (phase : s.gc = .deleting []) : Collected env s .gcDelete { s with gc := .idle }
  | stop {erase : Bool} (may : s.gc.mayStop = true) :
      Collected env s (.gcStop erase) { s with gc := .stopped }
  | stopErased {objs : List (ℕ × ℕ)} (phase : s.gc = .sending objs []) :
      Collected env s (.gcStop true) { s with
        maps := forget (objs.map Prod.fst) (uncount (objs.map Prod.fst) s.maps)
        gc := .stopped }

inductive Stepped (env : Env) (s : Tx σ) : Action σ → Tx σ → Prop
  | write {lba : ℕ} {data : List σ} {addr : ℤ} {mid : Tx σ} (rolled : Rolled env s mid)
      (nonempty : 0 < data.length) (room : mid.current.room env data.length = true) :
      Stepped env s (.writev lba data addr) { mid with
        current := mid.current.append lba data
        bufmap := (mid.bufmap.set lba (lba + data.length) ⟨mid.current.tail⟩).1 }
  | flush {tag : ℕ} {addr : ℤ} {mid : Tx σ} (rolled : Rolled env s mid) :
      Stepped env s (.flush tag addr) { mid with queue := mid.queue ++ [.flush tag] }
  | checkpoint {addr : ℤ} {mid : Tx σ} (rolled : Rolled env s mid) :
      Stepped env s (.checkpoint addr) { mid with queue := mid.queue ++ [.ckpt false] }
  | flushThread {addr : ℤ} {mid : Tx σ} (rolled : Rolled env s mid) :
      Stepped env s (.flushThread addr) mid
  | trim {base limit : ℕ} {maps : Maps} (done : s.maps.trim base limit = some maps) :
      Stepped env s (.trim base limit) { s with maps := maps }
  | work {s' : Tx σ} (free : s.ckpting = none) (worked : Worked env s s') :
      Stepped env s .work s'
  | ckpt {c : Ckpt σ} {s' : Tx σ} (busy : s.ckpting = some c) (done : Checkpointed s c s') :
      Stepped env s .ckptStep s'
  | complete {put : Put σ} (member : put ∈ s.inflight) :
      Stepped env s (.complete put.seq) (s.land env put)
  | collect {a : Action σ} {s' : Tx σ} (collected : Collected env s a s') : Stepped env s a s'

theorem gc_reap_cases {o : ℕ} (stepped : s.gcReap o = some s') :
    Collected env s (.gcReap o) s' := by
  unfold gcReap at stepped
  split at stepped
  · rename_i phase
    split at stepped
    · rename_i member
      cases stepped
      exact .reap phase member
    · cases stepped
  · cases stepped

theorem gc_select_cases {objs : List ℕ} (stepped : s.gcSelect env objs = some s') :
    Collected env s (.gcSelect objs) s' := by
  unfold gcSelect at stepped
  split at stepped
  · rename_i phase
    split at stepped
    · rename_i admitted
      cases stepped
      exact .select phase admitted.1 admitted.2.1 admitted.2.2
    · cases stepped
  · cases stepped

theorem gc_load_cases {buf : ℕ → ℕ → σ} (stepped : s.gcLoad buf = some s') :
    Collected env s (.gcLoad buf) s' := by
  unfold gcLoad at stepped
  split at stepped
  · rename_i phase
    obtain ⟨left, loaded, rfl⟩ := Option.map_eq_some_iff.mp stepped
    exact .load phase loaded
  · cases stepped

theorem gc_submit_cases (stepped : s.gcSubmit env = some s') : Collected env s .gcSubmit s' := by
  unfold gcSubmit at stepped
  split at stepped
  · rename_i phase
    cases stepped
    exact .submit phase (List.cons_ne_nil _ _)
  · cases stepped

theorem gc_done_cases (stepped : s.gcDone = some s') : Collected env s .gcDone s' := by
  unfold gcDone at stepped
  split at stepped
  · rename_i phase
    split at stepped
    · rename_i quiet
      cases stepped
      exact .done phase quiet
    · cases stepped
  · cases stepped

theorem gc_checkpoint_cases (stepped : s.gcCheckpoint env addr = some s') :
    Collected env s (.gcCheckpoint addr) s' := by
  unfold gcCheckpoint at stepped
  split at stepped
  · rename_i phase
    obtain ⟨next, asked, rfl⟩ := Option.map_eq_some_iff.mp stepped
    obtain ⟨mid, rolled, rfl⟩ := checkpoint_cases asked
    exact .checkpoint phase rolled
  · cases stepped

theorem gc_delete_cases (stepped : s.gcDelete = some s') : Collected env s .gcDelete s' := by
  unfold gcDelete at stepped
  split at stepped
  · rename_i phase
    cases stepped
    exact .delete phase
  · rename_i phase
    cases stepped
    exact .finish phase
  · cases stepped

theorem gc_stop_cases {erase : Bool} (stepped : s.gcStop erase = some s') :
    Collected env s (.gcStop erase) s' := by
  unfold gcStop at stepped
  split at stepped
  · rename_i phase
    cases stepped
    cases erase with
    | false => exact .stop (by rw [phase]; rfl)
    | true => exact .stopErased phase
  · rename_i phase
    cases stepped
    exact .stop (by rw [phase]; rfl)
  · rename_i phase
    cases stepped
    exact .stop (by rw [phase]; rfl)
  · rename_i phase
    cases stepped
    exact .stop (by rw [phase]; rfl)
  · rename_i phase
    cases stepped
    exact .stop (by rw [phase]; rfl)
  · rename_i phase
    cases stepped
    exact .stop (by rw [phase]; rfl)
  · cases stepped

theorem step_cases {a : Action σ} (stepped : step env s a = some s') : Stepped env s a s' := by
  cases a with
  | writev lba data addr =>
      obtain ⟨mid, rolled, appended⟩ := writev_cases stepped
      obtain ⟨nonempty, room, rfl⟩ := append_cases appended
      exact .write rolled nonempty room
  | flush tag addr =>
      obtain ⟨mid, rolled, rfl⟩ := flush_cases stepped
      exact .flush rolled
  | checkpoint addr =>
      obtain ⟨mid, rolled, rfl⟩ := checkpoint_cases stepped
      exact .checkpoint rolled
  | flushThread addr => exact .flushThread (flush_thread_cases stepped)
  | trim base limit =>
      obtain ⟨maps, done, rfl⟩ := trim_cases stepped
      exact .trim done
  | work =>
      obtain ⟨free, worked⟩ := work_cases stepped
      exact .work free worked
  | ckptStep =>
      obtain ⟨c, busy, done⟩ := ckpt_step_cases stepped
      exact .ckpt busy done
  | complete seq =>
      obtain ⟨put, member, rfl, rfl⟩ := complete_cases stepped
      exact .complete member
  | gcStart =>
      simp only [step, gcStart] at stepped
      split at stepped
      · rename_i phase
        cases stepped
        exact .collect (.start phase)
      · cases stepped
  | gcDead =>
      simp only [step, gcDead] at stepped
      split at stepped
      · rename_i phase
        cases stepped
        exact .collect (.dead phase)
      · cases stepped
  | gcReap o => exact .collect (gc_reap_cases stepped)
  | gcErase =>
      simp only [step, gcErase] at stepped
      split at stepped
      · rename_i phase
        cases stepped
        exact .collect (.erase phase)
      · cases stepped
  | gcBound =>
      simp only [step, gcBound] at stepped
      split at stepped
      · rename_i phase
        cases stepped
        exact .collect (.bound phase)
      · cases stepped
  | gcSelect objs => exact .collect (gc_select_cases stepped)
  | gcSnapshot =>
      simp only [step, gcSnapshot] at stepped
      split at stepped
      · rename_i phase
        cases stepped
        exact .collect (.snapshot phase)
      · cases stepped
  | gcLoad buf => exact .collect (gc_load_cases stepped)
  | gcSubmit => exact .collect (gc_submit_cases stepped)
  | gcDone => exact .collect (gc_done_cases stepped)
  | gcCheckpoint addr => exact .collect (gc_checkpoint_cases stepped)
  | gcDelete => exact .collect (gc_delete_cases stepped)
  | gcStop erase => exact .collect (gc_stop_cases stepped)

end Tx

end LsvdRbd.Session
