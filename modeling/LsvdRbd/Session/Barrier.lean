import LsvdRbd.Lib.Machine

/-!
# What a flush waits for

The queue of `translate_impl` in finer steps. The worker takes a request under `m`, makes
the object without it, counts it in `outstanding_writes` and runs its PUT; a PUT completes
in the backend before its `notify` takes `m` and counts it out. `flush` queues the current
batch and a request of its own, which the worker answers once nothing is outstanding.

A write is known by its place in the order of the appends, and an object by its writes.
-/

namespace LsvdRbd.Session

open Machine

set_option autoImplicit false

structure Batch where
  writes : List ℕ
  sectors : ℕ

/-- A call of `flush`: its thread, and the number of writes that had been appended when it
took the lock. -/
structure FlushCall where
  thread : ℕ
  before : ℕ
deriving DecidableEq

inductive Job
  | put (batch : Batch)
  | gc
  | ckpt
  | flush (call : FlushCall)

def Job.writes : Job → List ℕ
  | put batch => batch.writes
  | gc | ckpt | flush _ => []

/-- The worker is at the head of its loop, has taken a request, or has counted the object
that it made for it. -/
inductive WorkerPhase
  | idle
  | took (job : Job)
  | counted (job : Job)

namespace WorkerPhase

def job : WorkerPhase → List Job
  | idle => []
  | took job | counted job => [job]

def count : WorkerPhase → ℕ
  | counted _ => 1
  | _ => 0

end WorkerPhase

structure Pipeline where
  /-- The number of writes appended so far. -/
  appended : ℕ
  current : Batch
  queue : List Job
  worker : WorkerPhase
  outstanding : ℕ
  /-- The PUTs that were run and have not completed. -/
  inflight : List (List ℕ)
  /-- The completed PUTs whose `notify` has not counted them out. -/
  landed : ℕ
  /-- The objects whose PUTs have completed. -/
  stored : List (List ℕ)
  /-- The flushes with `done` set, and those that have returned. -/
  answered : List FlushCall
  returned : List FlushCall

inductive PipelineEvent
  | write (sectors : ℕ)
  | flush (thread : ℕ)
  | checkpoint
  | flushThread
  | gc
  | take
  | count
  | run
  | ckptDone
  | drained
  | land (i : ℕ)
  | notify
  | ret (call : FlushCall)

namespace Pipeline

def start : Pipeline := ⟨0, ⟨[], 0⟩, [], .idle, 0, [], 0, [], [], []⟩

/-- `put_locked` of the current batch, and a new one. -/
def roll (s : Pipeline) : Pipeline :=
  { s with queue := s.queue ++ [.put s.current], current := ⟨[], 0⟩ }

def submit (s : Pipeline) : Pipeline := if 0 < s.current.sectors then s.roll else s

def push (job : Job) (s : Pipeline) : Pipeline := { s with queue := s.queue ++ [job] }

/-- `append`, for a write that the batch has room for; `write_request` passes on at least
one sector at a time. -/
def append (objBytes sectors : ℕ) (s : Pipeline) : Option Pipeline :=
  if 0 < sectors ∧ 512 * (s.current.sectors + sectors) ≤ objBytes then
    some { s with
      appended := s.appended + 1
      current := ⟨s.current.writes ++ [s.appended], s.current.sectors + sectors⟩ }
  else none

def writev (objBytes sectors : ℕ) (s : Pipeline) : Option Pipeline :=
  append objBytes sectors
    (if 512 * (s.current.sectors + sectors) ≤ objBytes then s else s.roll)

def take (s : Pipeline) : Option Pipeline :=
  match s.worker, s.queue with
  | .idle, job :: rest => some { s with worker := .took job, queue := rest }
  | _, _ => none

/-- `process_batch` and `write_gc` up to `outstanding_writes++`. -/
def count (s : Pipeline) : Option Pipeline :=
  match s.worker with
  | .took (.put batch) =>
      some { s with worker := .counted (.put batch), outstanding := s.outstanding + 1 }
  | .took .gc => some { s with worker := .counted .gc, outstanding := s.outstanding + 1 }
  | _ => none

def issue (s : Pipeline) : Option Pipeline :=
  match s.worker with
  | .counted job => some { s with worker := .idle, inflight := s.inflight ++ [job.writes] }
  | _ => none

def ckptDone (s : Pipeline) : Option Pipeline :=
  match s.worker with
  | .took .ckpt => some { s with worker := .idle }
  | _ => none

/-- The worker finds nothing outstanding and sets `done`. -/
def drained (s : Pipeline) : Option Pipeline :=
  match s.worker with
  | .took (.flush call) =>
      if 0 < s.outstanding then none
      else some { s with worker := .idle, answered := call :: s.answered }
  | _ => none

def land (i : ℕ) (s : Pipeline) : Option Pipeline :=
  s.inflight[i]?.map fun object => { s with
    inflight := s.inflight.eraseIdx i
    landed := s.landed + 1
    stored := object :: s.stored }

/-- The locked section of `translate_req::notify`. -/
def notify (s : Pipeline) : Option Pipeline :=
  if 0 < s.landed then
    some { s with landed := s.landed - 1, outstanding := s.outstanding - 1 }
  else none

def ret (call : FlushCall) (s : Pipeline) : Option Pipeline :=
  if call ∈ s.answered then some { s with returned := call :: s.returned } else none

def step (objBytes : ℕ) (s : Pipeline) : PipelineEvent → Option Pipeline
  | .write sectors => s.writev objBytes sectors
  | .flush thread => some (s.submit.push (.flush ⟨thread, s.appended⟩))
  | .checkpoint => some (s.submit.push .ckpt)
  | .flushThread => some s.submit
  | .gc => some (s.push .gc)
  | .take => s.take
  | .count => s.count
  | .run => s.issue
  | .ckptDone => s.ckptDone
  | .drained => s.drained
  | .land i => s.land i
  | .notify => s.notify
  | .ret call => s.ret call

/-! ## Where a write is -/

def jobs (s : Pipeline) : List Job := s.worker.job ++ s.queue

/-- The writes in completed objects, in objects on their way, in requests that the worker
has not finished with, and in the current batch. -/
def located (s : Pipeline) : List ℕ :=
  s.stored.flatten ++ s.inflight.flatten ++ s.jobs.flatMap Job.writes ++ s.current.writes

/-- What was queued after a flush, or comes after the queue, was appended after it. -/
def Orderly (appended : ℕ) (rest : List ℕ) : List Job → Prop
  | [] => True
  | job :: back =>
      (∀ call, job = .flush call →
        call.before ≤ appended ∧ ∀ w ∈ back.flatMap Job.writes ++ rest, call.before ≤ w) ∧
      Orderly appended rest back

theorem orderly_push {appended : ℕ} {rest : List ℕ} {jobs : List Job} {job : Job}
    (orderly : Orderly appended (job.writes ++ rest) jobs)
    (last : ∀ call, job = .flush call → call.before ≤ appended ∧ ∀ w ∈ rest, call.before ≤ w) :
    Orderly appended rest (jobs ++ [job]) := by
  induction jobs with
  | nil =>
      refine ⟨?_, trivial⟩
      intro call isFlush
      simpa using last call isFlush
  | cons first back ih =>
      obtain ⟨here, later⟩ := orderly
      refine ⟨?_, ih later⟩
      intro call isFlush
      simpa using here call isFlush

theorem Orderly.append {appended : ℕ} {rest : List ℕ} {jobs : List Job}
    (orderly : Orderly appended rest jobs) :
    Orderly (appended + 1) (rest ++ [appended]) jobs := by
  induction jobs with
  | nil => trivial
  | cons first back ih =>
      obtain ⟨here, later⟩ := orderly
      refine ⟨?_, ih later⟩
      intro call isFlush
      obtain ⟨known, behind⟩ := here call isFlush
      refine ⟨by omega, ?_⟩
      intro w member
      rw [← List.append_assoc] at member
      rcases List.mem_append.mp member with before | last
      · exact behind w before
      · rw [List.mem_singleton.mp last]
        exact known

/-! ## The invariant -/

structure Ok (s : Pipeline) : Prop where
  counted : s.outstanding = s.inflight.length + s.landed + s.worker.count
  located : s.located.Perm (List.range s.appended)
  orderly : Orderly s.appended s.current.writes s.jobs
  empty : s.current.sectors = 0 → s.current.writes = []
  answered : ∀ call ∈ s.answered, ∀ w < call.before, w ∈ s.stored.flatten
  returned : ∀ call ∈ s.returned, call ∈ s.answered

variable {objBytes : ℕ} {s t : Pipeline}

theorem start_ok : start.Ok :=
  ⟨rfl, .refl _, trivial, fun _ => rfl, by simp [start], by simp [start]⟩

theorem Ok.roll (ok : s.Ok) : s.roll.Ok := by
  have jobs : s.roll.jobs = s.jobs ++ [.put s.current] := by simp [jobs, Pipeline.roll]
  refine ⟨ok.counted, ?_, ?_, fun _ => rfl, ok.answered, ok.returned⟩
  · have same : s.roll.located = s.located := by
      rw [Pipeline.located, jobs]
      simp [Pipeline.located, Job.writes, Pipeline.roll]
    rw [same]
    exact ok.located
  · rw [jobs]
    refine orderly_push ?_ (by simp)
    simpa [Pipeline.roll, Job.writes] using ok.orderly

/-- A batch of no length has no writes, so nothing stays behind. -/
theorem Ok.submit (ok : s.Ok) : s.submit.Ok ∧ s.submit.current.writes = [] ∧
    s.submit.appended = s.appended := by
  rw [Pipeline.submit]
  split
  · exact ⟨ok.roll, rfl, rfl⟩
  · next none => exact ⟨ok, ok.empty (by omega), rfl⟩

theorem Ok.push {job : Job} (ok : s.Ok) (none : job.writes = [])
    (last : ∀ call, job = .flush call →
      call.before ≤ s.appended ∧ ∀ w ∈ s.current.writes, call.before ≤ w) :
    (s.push job).Ok := by
  have jobs : (s.push job).jobs = s.jobs ++ [job] := by simp [jobs, Pipeline.push]
  refine ⟨ok.counted, ?_, ?_, ok.empty, ok.answered, ok.returned⟩
  · have same : (s.push job).located = s.located := by
      rw [Pipeline.located, jobs]
      simp [Pipeline.located, none, Pipeline.push]
    rw [same]
    exact ok.located
  · rw [jobs]
    refine orderly_push ?_ last
    rw [none]
    exact ok.orderly

theorem Ok.append {sectors : ℕ} (ok : s.Ok) (appended : s.append objBytes sectors = some t) :
    t.Ok := by
  simp only [Pipeline.append, Option.ite_none_right_eq_some, Option.some.injEq] at appended
  obtain ⟨⟨positive, -⟩, rfl⟩ := appended
  refine ⟨ok.counted, ?_, ok.orderly.append, ?_, ok.answered, ok.returned⟩
  · show (s.stored.flatten ++ s.inflight.flatten ++ s.jobs.flatMap Job.writes ++
      (s.current.writes ++ [s.appended])).Perm (List.range (s.appended + 1))
    rw [← List.append_assoc, List.range_succ]
    exact ok.located.append_right _
  · intro none
    simp only at none
    omega

theorem Ok.worked (ok : s.Ok) (jobs : t.jobs = s.jobs)
    (same : t = { s with worker := t.worker, queue := t.queue, outstanding := t.outstanding })
    (counted : t.outstanding = s.inflight.length + s.landed + t.worker.count) : t.Ok := by
  have located : t.located = s.located := by
    rw [Pipeline.located, jobs, same]
    rfl
  rw [same] at counted
  refine ⟨?_, ?_, ?_, ?_, ?_, ?_⟩
  · rw [same]
    exact counted
  · rw [located, same]
    exact ok.located
  · rw [jobs, same]
    exact ok.orderly
  · rw [same]
    exact ok.empty
  · rw [same]
    exact ok.answered
  · rw [same]
    exact ok.returned

theorem Ok.take (ok : s.Ok) (took : s.take = some t) : t.Ok := by
  simp only [Pipeline.take] at took
  split at took
  · next job rest idle queued =>
      cases took
      refine ok.worked (by simp [Pipeline.jobs, WorkerPhase.job, idle, queued]) rfl ?_
      have counted := ok.counted
      rw [idle] at counted
      exact counted
  · cases took

theorem Ok.count (ok : s.Ok) (made : s.count = some t) : t.Ok := by
  have counts : ∀ job, s.worker = .took job →
      ({ s with worker := .counted job, outstanding := s.outstanding + 1 } : Pipeline).Ok := by
    intro job taken
    refine ok.worked (by simp [Pipeline.jobs, WorkerPhase.job, taken]) rfl ?_
    have counted := ok.counted
    rw [taken] at counted
    simp only [WorkerPhase.count] at counted ⊢
    omega
  simp only [Pipeline.count] at made
  split at made
  · next batch taken =>
      cases made
      exact counts _ taken
  · next taken =>
      cases made
      exact counts _ taken
  · cases made

theorem Ok.issue (ok : s.Ok) (issued : s.issue = some t) : t.Ok := by
  simp only [Pipeline.issue] at issued
  split at issued
  · next job counted =>
      cases issued
      have jobs : s.jobs = job :: s.queue := by simp [Pipeline.jobs, WorkerPhase.job, counted]
      have number := ok.counted
      have orderly := ok.orderly
      have located := ok.located
      rw [Pipeline.located, jobs] at located
      rw [jobs] at orderly
      rw [counted] at number
      refine ⟨?_, ?_, orderly.2, ok.empty, ok.answered, ok.returned⟩
      · simp only [WorkerPhase.count, List.length_append, List.length_singleton] at number ⊢
        omega
      · simpa [Pipeline.located, Pipeline.jobs, WorkerPhase.job] using located
  · cases issued

theorem Ok.finished {job : Job} (ok : s.Ok) (taken : s.worker = .took job)
    (none : job.writes = []) : ({ s with worker := .idle } : Pipeline).Ok := by
  have jobs : s.jobs = job :: s.queue := by simp [Pipeline.jobs, WorkerPhase.job, taken]
  have number := ok.counted
  have orderly := ok.orderly
  have located := ok.located
  rw [Pipeline.located, jobs] at located
  rw [jobs] at orderly
  rw [taken] at number
  refine ⟨number, ?_, orderly.2, ok.empty, ok.answered, ok.returned⟩
  simpa [Pipeline.located, Pipeline.jobs, WorkerPhase.job, none] using located

theorem Ok.ckptDone (ok : s.Ok) (written : s.ckptDone = some t) : t.Ok := by
  simp only [Pipeline.ckptDone] at written
  split at written
  · next taken =>
      cases written
      exact ok.finished taken rfl
  · cases written

/-- With nothing outstanding, all that was appended before the flush has completed. -/
theorem Ok.all_stored {call : FlushCall} (ok : s.Ok) (taken : s.worker = .took (.flush call))
    (none : s.outstanding = 0) : ∀ w < call.before, w ∈ s.stored.flatten := by
  intro w earlier
  have jobs : s.jobs = .flush call :: s.queue := by
    simp [Pipeline.jobs, WorkerPhase.job, taken]
  have orderly := ok.orderly
  have located := ok.located
  rw [Pipeline.located, jobs] at located
  rw [jobs] at orderly
  obtain ⟨known, behind⟩ := orderly.1 call rfl
  have inflight : s.inflight = [] := by
    have counted := ok.counted
    exact List.length_eq_zero_iff.mp (by omega)
  have somewhere := located.mem_iff.mpr (List.mem_range.mpr (lt_of_lt_of_le earlier known))
  rw [List.append_assoc] at somewhere
  rcases List.mem_append.mp somewhere with first | last
  · simpa [inflight] using first
  · have after := behind w (by simpa [Job.writes] using last)
    omega

theorem Ok.drained (ok : s.Ok) (drained : s.drained = some t) : t.Ok := by
  simp only [Pipeline.drained] at drained
  split at drained
  · next call taken =>
      split at drained
      · cases drained
      · next none =>
          cases drained
          obtain ⟨counted, located, orderly, empty, answered, returned⟩ := ok.finished taken rfl
          refine ⟨counted, located, orderly, empty, ?_, ?_⟩
          · intro other member
            rcases List.mem_cons.mp member with rfl | before
            · exact ok.all_stored taken (by omega)
            · exact answered other before
          · exact fun other member => List.mem_cons_of_mem _ (returned other member)
  · cases drained

theorem Ok.land {i : ℕ} (ok : s.Ok) (landed : s.land i = some t) : t.Ok := by
  obtain ⟨object, found, rfl⟩ := Option.map_eq_some_iff.mp landed
  obtain ⟨inside, rfl⟩ := List.getElem?_eq_some_iff.mp found
  have counted := ok.counted
  refine ⟨?_, ?_, ok.orderly, ok.empty, ?_, ok.returned⟩
  · simp only [List.length_eraseIdx_of_lt inside]
    omega
  · refine List.Perm.trans ?_ ok.located
    refine (List.Perm.append_right _ ?_).append_right _
    show ((s.inflight[i] :: s.stored).flatten ++ (s.inflight.eraseIdx i).flatten).Perm _
    have moved : (s.inflight[i] :: s.inflight.eraseIdx i).flatten.Perm s.inflight.flatten :=
      (List.getElem_cons_eraseIdx_perm inside).flatten
    simp only [List.flatten_cons] at moved ⊢
    have front : (s.inflight[i] ++ s.stored.flatten).Perm (s.stored.flatten ++ s.inflight[i]) :=
      List.perm_append_comm
    refine (front.append_right _).trans ?_
    rw [List.append_assoc]
    exact moved.append_left _
  · intro call member w earlier
    exact List.mem_append_right _ (ok.answered call member w earlier)

theorem Ok.step {event : PipelineEvent} (ok : s.Ok) (stepped : s.step objBytes event = some t) :
    t.Ok := by
  cases event with
  | write sectors =>
      refine Ok.append ?_ stepped
      split
      · exact ok
      · exact ok.roll
  | flush thread =>
      cases stepped
      obtain ⟨submitted, none, same⟩ := ok.submit
      refine submitted.push rfl ?_
      rintro call ⟨⟩
      exact ⟨same.ge, by simp [none]⟩
  | checkpoint =>
      cases stepped
      exact ok.submit.1.push rfl (by simp)
  | flushThread =>
      cases stepped
      exact ok.submit.1
  | gc =>
      cases stepped
      exact ok.push rfl (by simp)
  | take => exact ok.take stepped
  | count => exact ok.count stepped
  | run => exact ok.issue stepped
  | ckptDone => exact ok.ckptDone stepped
  | drained => exact ok.drained stepped
  | land i => exact ok.land stepped
  | notify =>
      simp only [Pipeline.step, Pipeline.notify, Option.ite_none_right_eq_some,
        Option.some.injEq] at stepped
      obtain ⟨positive, rfl⟩ := stepped
      have counted := ok.counted
      exact ⟨by simp only; omega, ok.located, ok.orderly, ok.empty, ok.answered, ok.returned⟩
  | ret call =>
      simp only [Pipeline.step, Pipeline.ret, Option.ite_none_right_eq_some,
        Option.some.injEq] at stepped
      obtain ⟨done, rfl⟩ := stepped
      refine ⟨ok.counted, ok.located, ok.orderly, ok.empty, ok.answered, ?_⟩
      intro other member
      rcases List.mem_cons.mp member with rfl | before
      · exact done
      · exact ok.returned other before

end Pipeline

/-- When a flush has returned, every write that was appended before it took the lock is in
an object whose PUT has completed, and in no batch that is being filled, queued, processed
or on its way. -/
theorem flush_is_barrier (objBytes : ℕ) {events : List PipelineEvent} {t : Pipeline}
    (ran : run (Pipeline.step objBytes) Pipeline.start events = some t) :
    ∀ call ∈ t.returned, ∀ w < call.before, (∃ object ∈ t.stored, w ∈ object) ∧
      w ∉ t.current.writes ∧ (∀ job ∈ t.jobs, w ∉ job.writes) ∧
      ∀ object ∈ t.inflight, w ∉ object := by
  have ok : t.Ok := invariant_run (fun _ _ _ ok stepped => ok.step stepped)
    Pipeline.start_ok ran
  intro call member w earlier
  have stored := ok.answered call (ok.returned call member) w earlier
  have once := (ok.located.nodup_iff.mpr List.nodup_range)
  rw [Pipeline.located, List.append_assoc, List.append_assoc] at once
  have elsewhere := (List.disjoint_of_nodup_append once) stored
  refine ⟨List.mem_flatten.mp stored, ?_, ?_, ?_⟩
  · exact fun current => elsewhere (by simp [current])
  · intro job inside held
    exact elsewhere (List.mem_append_right _ (List.mem_append_left _
      (List.mem_flatMap.mpr ⟨job, inside, held⟩)))
  · intro object inside held
    exact elsewhere (List.mem_append_left _ (List.mem_flatten.mpr ⟨object, inside, held⟩))

def twoFlushes : List PipelineEvent :=
  [.write 8, .flushThread, .write 8, .flush 1, .take, .count, .run, .take, .count, .run, .take,
    .land 1, .notify, .write 8, .flush 2, .land 0, .notify, .drained, .ret ⟨1, 2⟩, .write 8, .gc,
    .take, .count, .run, .take, .land 0, .notify, .drained, .ret ⟨2, 3⟩]

theorem flush_is_barrier_twice : ∃ t : Pipeline,
    run (Pipeline.step 16384) Pipeline.start twoFlushes = some t ∧
      t.returned = [⟨2, 3⟩, ⟨1, 2⟩] ∧ t.current.writes = [3] ∧
      ∀ w < 3, ∃ object ∈ t.stored, w ∈ object := by
  obtain ⟨t, ran, held⟩ := (Option.any_eq_true _ _).mp
    (by decide +kernel : (run (Pipeline.step 16384) Pipeline.start twoFlushes).any
      (fun t => decide (t.returned = [⟨2, 3⟩, ⟨1, 2⟩] ∧ t.current.writes = [3])) = true)
  obtain ⟨returned, current⟩ := of_decide_eq_true held
  refine ⟨t, ran, returned, current, ?_⟩
  intro w earlier
  exact (flush_is_barrier 16384 ran ⟨2, 3⟩ (by simp [returned]) w earlier).1

end LsvdRbd.Session
