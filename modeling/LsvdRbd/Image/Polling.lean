import LsvdRbd.Lib.Ledger
import LsvdRbd.Lib.Machine
import LsvdRbd.Lib.Refs

/-!
# Completions of the host

A host makes an `spdk_completion` for each asynchronous call, may wait for it, polls for
the ones that are complete, and releases it. The completion and the request that it owns
are counted objects with two references each: the completion's are the host's and that of
`complete`, the request's are the completion's and that of `complete_request`. The threads
of the host and the completing threads interleave at every access.
-/

namespace LsvdRbd.Image.Polling

open Ledger Machine Refs

set_option autoImplicit false

/-! ## One call -/

/-- The next statement of `complete_request` and of `complete`, which it calls through the
callback of the request. -/
inductive Stage
  | running
  | value
  | callback
  | enqueue
  | flag
  | wake
  | drop
  | requestFlag
  | requestWake
  | requestDrop
  | finished
deriving DecidableEq

namespace Stage

def ofCompletion : Stage → ℕ
  | running | value | callback | enqueue | flag | wake | drop => 1
  | _ => 0

def ofRequest : Stage → ℕ
  | finished => 0
  | _ => 1

def reported : Stage → Bool
  | running | value | callback | enqueue => false
  | _ => true

def isDone : Stage → Bool
  | running | value | callback | enqueue | flag => false
  | _ => true

end Stage

/-- A completion with its request, and the host threads that are in `wait`. -/
structure Call where
  completion : Cell
  request : Cell
  stage : Stage
  waiters : ℕ
  released : Bool
deriving DecidableEq

namespace Call

def new : Call := ⟨.new 2, .new 2, .running, 0, false⟩

/-- `dec_and_free` of the completion, whose destructor releases the request. -/
def drop (c : Call) : Call :=
  { c with
    completion := c.completion.release
    request := if c.completion.release.frees = c.completion.frees then c.request
      else c.request.release }

def advance (c : Call) : Option Call :=
  match c.stage with
  | .running => some { c with request := c.request.touch, stage := .value }
  | .value => some { c with completion := c.completion.touch, stage := .callback }
  | .callback => some { c with completion := c.completion.touch, stage := .enqueue }
  | .enqueue => some { c with completion := c.completion.touch, stage := .flag }
  | .flag => some { c with completion := c.completion.touch, stage := .wake }
  | .wake => some { c with completion := c.completion.touch, stage := .drop }
  | .drop => some { c.drop with stage := .requestFlag }
  | .requestFlag => some { c with request := c.request.touch, stage := .requestWake }
  | .requestWake => some { c with request := c.request.touch, stage := .requestDrop }
  | .requestDrop => some { c with request := c.request.release, stage := .finished }
  | .finished => none

/-- `rbd_aio_wait_for_complete`, up to the wait. -/
def waitStart (c : Call) : Option Call :=
  if c.released then none
  else some { c with completion := c.completion.retain, waiters := c.waiters + 1 }

/-- The rest of it; the decrement does not free. -/
def waitEnd (c : Call) : Option Call :=
  if 0 < c.waiters ∧ c.stage.isDone then
    some { c with completion := c.completion.lower, waiters := c.waiters - 1 }
  else none

def release (c : Call) : Option Call :=
  if c.released then none else some { c.drop with released := true }

def refs (c : Call) : ℕ := (if c.released then 0 else 1) + c.stage.ofCompletion + c.waiters

structure Ok (c : Call) : Prop where
  completion : c.completion.Held c.refs
  request : c.request.Held ((if c.completion.frees = 0 then 1 else 0) + c.stage.ofRequest)
  waiting : 0 < c.waiters → c.released = false

theorem new_ok : new.Ok where
  completion := Cell.held_new two_pos
  request := Cell.held_new two_pos
  waiting := by simp [new]

variable {c c' : Call}

theorem Ok.drop (ok : c.Ok) {stage : Stage} {released : Bool}
    (refs : c.refs = (if released then 0 else 1) + stage.ofCompletion + c.waiters + 1)
    (kept : stage.ofRequest = c.stage.ofRequest) (waiting : 0 < c.waiters → released = false) :
    Ok { c.drop with stage := stage, released := released } := by
  have before := ok.completion
  rw [refs] at before
  have after := before.release
  have alive := before.alive (by omega)
  have request := ok.request
  rw [if_pos alive] at request
  refine ⟨after, ?_, waiting⟩
  change (if c.completion.release.frees = c.completion.frees then c.request
    else c.request.release).Held ((if c.completion.release.frees = 0 then 1 else 0) + stage.ofRequest)
  rw [kept, alive]
  by_cases freed : c.completion.release.frees = 0
  · rw [if_pos freed, if_pos freed]
    exact request
  · rw [if_neg freed, if_neg freed, zero_add]
    rw [add_comm] at request
    exact request.release

theorem Ok.advance (ok : c.Ok) (advanced : c.advance = some c') : c'.Ok := by
  obtain ⟨completion, request, stage, waiters, released⟩ := c
  obtain ⟨held, owned, waiting⟩ := ok
  cases stage with
  | running =>
      cases advanced
      exact ⟨held, owned.touch (by simp [Stage.ofRequest]), waiting⟩
  | value | callback | enqueue | flag | wake =>
      cases advanced
      have positive : 0 < (if released = true then 0 else 1) + 1 + waiters := by omega
      have same : completion.touch = completion := Cell.Held.touch_eq held positive
      rw [same]
      exact ⟨held, owned, waiting⟩
  | drop =>
      cases advanced
      have ok : Ok ⟨completion, request, .drop, waiters, released⟩ := ⟨held, owned, waiting⟩
      have refs : refs ⟨completion, request, .drop, waiters, released⟩ =
          (if released then 0 else 1) + Stage.requestFlag.ofCompletion + waiters + 1 := by
        simp only [refs, Stage.ofCompletion]
        omega
      exact ok.drop refs rfl waiting
  | requestFlag | requestWake =>
      cases advanced
      exact ⟨held, owned.touch (by simp [Stage.ofRequest]), waiting⟩
  | requestDrop =>
      cases advanced
      exact ⟨held, owned.release, waiting⟩
  | finished => cases advanced

theorem Ok.waiters (ok : c.Ok) {completion : Cell} {waiters : ℕ} (host : c.released = false)
    (held : completion.Held (1 + c.stage.ofCompletion + waiters)) :
    Ok { c with completion := completion, waiters := waiters } := by
  have wasAlive : c.completion.frees = 0 := by
    refine ok.completion.alive ?_
    rw [refs, host]
    simp
  refine ⟨?_, ?_, fun _ => host⟩
  · simpa [refs, host] using held
  · have request := ok.request
    rw [if_pos wasAlive] at request
    change c.request.Held ((if completion.frees = 0 then 1 else 0) + c.stage.ofRequest)
    rw [if_pos (held.alive (by omega))]
    exact request

theorem Ok.host_refs (ok : c.Ok) (host : c.released = false) :
    c.completion.Held (1 + c.stage.ofCompletion + c.waiters) := by
  simpa [refs, host] using ok.completion

theorem Ok.wait_start (ok : c.Ok) (started : c.waitStart = some c') :
    c'.Ok ∧ c'.stage = c.stage ∧ c'.released = c.released := by
  unfold waitStart at started
  split at started
  · cases started
  · next kept =>
      cases started
      have host : c.released = false := by simpa using kept
      exact ⟨ok.waiters host ((ok.host_refs host).retain (by omega)), rfl, rfl⟩

theorem Ok.wait_end (ok : c.Ok) (ended : c.waitEnd = some c') :
    c'.Ok ∧ c'.stage = c.stage ∧ c'.released = c.released := by
  unfold waitEnd at ended
  split at ended
  · next inside =>
      cases ended
      have host := ok.waiting inside.1
      have held := ok.host_refs host
      rw [show 1 + c.stage.ofCompletion + c.waiters =
        1 + c.stage.ofCompletion + (c.waiters - 1) + 1 by omega] at held
      exact ⟨ok.waiters host (held.lower (by omega)), rfl, rfl⟩
  · cases ended

theorem Ok.release (ok : c.Ok) (alone : c.waiters = 0) (released : c.release = some c') : c'.Ok := by
  unfold Call.release at released
  split at released
  · cases released
  · next kept =>
      cases released
      have refs : c.refs = (if true then 0 else 1) + c.stage.ofCompletion + c.waiters + 1 := by
        simp only [refs, kept, if_true, if_false, Bool.false_eq_true]
        omega
      exact ok.drop refs rfl (by omega)

theorem Ok.freed (ok : c.Ok) (finished : c.stage = .finished) (released : c.released = true) :
    c.completion.frees = 1 ∧ c.request.frees = 1 := by
  have alone : c.waiters = 0 := by
    by_contra inside
    rw [ok.waiting (by omega)] at released
    cases released
  have none : c.refs = 0 := by simp [refs, finished, released, alone, Stage.ofCompletion]
  have completion := ok.completion.frees
  rw [none, if_pos rfl] at completion
  have request := ok.request.frees
  rw [completion, finished] at request
  exact ⟨completion, by simpa [Stage.ofRequest] using request⟩

end Call

/-! ## All calls of an image -/

/-- The calls of a host, the queue of `lsvd_rbd`, and what happened so far: the completions
that were handed to the host, the order in which they were reported, and the number of
signals on the event socket. -/
structure Front where
  calls : List Call
  queue : List ℕ
  polled : List ℕ
  reported : List ℕ
  signals : ℕ
deriving DecidableEq

inductive Move
  | submit
  | advance (i : ℕ)
  | waitStart (i : ℕ)
  | waitEnd (i : ℕ)
  | release (i : ℕ)
  | poll (numcomp : ℕ)
deriving DecidableEq

namespace Front

def start : Front := ⟨[], [], [], [], 0⟩

def setCall (i : ℕ) (c : Call) (s : Front) : Front := { s with calls := s.calls.set i c }

def report (polling : Bool) (i : ℕ) (s : Front) : Front :=
  { s with
    queue := if polling then s.queue ++ [i] else s.queue
    reported := s.reported ++ [i]
    signals := if polling then s.signals + 1 else s.signals }

/-- `poll_io_events` takes completions from the queue and looks at their `magic`. -/
def poll (numcomp : ℕ) (s : Front) : Front :=
  { s with
    calls := (s.queue.take numcomp).foldl (fun calls i =>
      calls.modify i fun c => { c with completion := c.completion.touch }) s.calls
    queue := s.queue.drop numcomp
    polled := s.polled ++ s.queue.take numcomp }

def step (polling : Bool) (s : Front) : Move → Option Front
  | .submit => some { s with calls := s.calls ++ [.new] }
  | .advance i => s.calls[i]?.bind fun c => c.advance.map fun c' =>
      if c.stage = .enqueue then (s.setCall i c').report polling i else s.setCall i c'
  | .waitStart i => s.calls[i]?.bind fun c => c.waitStart.map fun c' => s.setCall i c'
  | .waitEnd i => s.calls[i]?.bind fun c => c.waitEnd.map fun c' => s.setCall i c'
  | .release i => s.calls[i]?.bind fun c => c.release.map fun c' => s.setCall i c'
  | .poll numcomp => if polling then some (s.poll numcomp) else none

/-- The host releases a completion when none of its threads waits for it any more and,
with an event socket, after it was handed out. -/
def Orderly (polling : Bool) (s : Front) : Move → Prop
  | .release i => (∀ c, s.calls[i]? = some c → c.waiters = 0) ∧ (polling = true → i ∈ s.polled)
  | _ => True

instance (polling : Bool) (s : Front) (m : Move) : Decidable (Orderly polling s m) :=
  decidable_of_iff ((match m with
    | .release i => (s.calls[i]?.all fun c => decide (c.waiters = 0)) &&
        (!polling || decide (i ∈ s.polled))
    | _ => true) = true) (by
      cases m with
      | release i => cases found : s.calls[i]? <;> cases polling <;> simp [Orderly, found]
      | _ => simp [Orderly])

structure Ok (polling : Bool) (s : Front) : Prop where
  calls : ∀ (i : ℕ) (c : Call), s.calls[i]? = some c →
    c.Ok ∧ (polling = true → c.released = true → i ∈ s.polled)
  reports : ∀ i, i ∈ s.reported ↔ ∃ c, s.calls[i]? = some c ∧ c.stage.reported = true
  once : s.reported.Nodup
  order : s.polled ++ s.queue = if polling then s.reported else []
  signals : s.signals = if polling then s.reported.length else 0

theorem start_ok (polling : Bool) : start.Ok polling where
  calls := by simp [start]
  reports := by simp [start]
  once := by simp [start]
  order := by simp [start]
  signals := by simp [start]

variable {polling : Bool} {s s' : Front} {i : ℕ} {c c' : Call}

theorem Ok.calls_set (ok : s.Ok polling) (found : s.calls[i]? = some c) (callOk : c'.Ok)
    (held : polling = true → c'.released = true → i ∈ s.polled) (j : ℕ) (d : Call)
    (here : (s.calls.set i c')[j]? = some d) :
    d.Ok ∧ (polling = true → d.released = true → j ∈ s.polled) := by
  rw [set_lookup found] at here
  split at here
  · next same =>
      cases here
      exact ⟨callOk, same ▸ held⟩
  · exact ok.calls j d here

theorem Ok.set_call (ok : s.Ok polling) (found : s.calls[i]? = some c) (callOk : c'.Ok)
    (reported : c'.stage.reported = c.stage.reported)
    (held : polling = true → c'.released = true → i ∈ s.polled) : (s.setCall i c').Ok polling := by
  refine ⟨ok.calls_set found callOk held, ?_, ok.once, ok.order, ok.signals⟩
  intro j
  change j ∈ s.reported ↔ ∃ d, (s.calls.set i c')[j]? = some d ∧ _
  rw [ok.reports j, set_lookup found]
  split
  · next same => simp only [same, found, Option.some.injEq, exists_eq_left', reported]
  · rfl

theorem advance_reported (advanced : c.advance = some c') :
    c'.released = c.released ∧
      ((c.stage = .enqueue ∧ c'.stage.reported = true) ∨
        (c.stage ≠ .enqueue ∧ c'.stage.reported = c.stage.reported)) := by
  unfold Call.advance at advanced
  cases stage : c.stage <;> rw [stage] at advanced <;> cases advanced <;>
    exact ⟨rfl, by simp [Stage.reported]⟩

theorem Ok.report (ok : s.Ok polling) (found : s.calls[i]? = some c) (callOk : c'.Ok)
    (stage : c.stage = .enqueue) (reported : c'.stage.reported = true)
    (released : c'.released = c.released) : ((s.setCall i c').report polling i).Ok polling := by
  have new : i ∉ s.reported := by
    intro old
    obtain ⟨d, here, already⟩ := (ok.reports i).mp old
    cases found.symm.trans here
    rw [stage] at already
    cases already
  refine ⟨ok.calls_set found callOk ?_, ?_, ?_, ?_, ?_⟩
  · rw [released]
    exact (ok.calls i c found).2
  · intro j
    simp only [Front.report, setCall, set_lookup found, List.mem_append, List.mem_singleton,
      ok.reports j]
    split
    · next same => simp [same, reported]
    · next other => simp [other]
  · refine List.nodup_append.mpr ⟨ok.once, List.nodup_singleton i, ?_⟩
    intro a old b same
    rw [List.mem_singleton.mp same]
    exact fun equal => new (equal ▸ old)
  · simp only [Front.report, setCall]
    have order := ok.order
    cases polling with
    | false => simpa using order
    | true => simpa [← List.append_assoc] using order
  · simp only [Front.report, setCall]
    have signals := ok.signals
    cases polling with
    | false => simpa using signals
    | true => simpa using signals

/-- A completion in the queue is still the host's, so that looking at it is safe. -/
theorem Ok.queued (ok : s.Ok polling) (polls : polling = true) (waits : i ∈ s.queue)
    (found : s.calls[i]? = some c) : c.completion.touch = c.completion := by
  have order := ok.order
  rw [if_pos polls] at order
  have apart : i ∉ s.polled := by
    intro out
    have once := ok.once
    rw [← order] at once
    exact (List.nodup_append.mp once).2.2 i out i waits rfl
  have host : c.released = false := by
    by_contra released
    exact apart ((ok.calls i c found).2 polls (by simpa using released))
  exact ((ok.calls i c found).1.host_refs host).touch_eq (by omega)

theorem Ok.poll (ok : s.Ok polling) (polls : polling = true) (numcomp : ℕ) :
    (s.poll numcomp).Ok polling := by
  have same : ∀ taken : List ℕ, taken ⊆ s.queue → taken.foldl (fun calls i =>
      calls.modify i fun c => { c with completion := c.completion.touch }) s.calls = s.calls := by
    intro taken
    induction taken with
    | nil => exact fun _ => rfl
    | cons i rest ih =>
        intro inside
        rw [List.foldl_cons]
        have unchanged : (s.calls.modify i fun c =>
            { c with completion := c.completion.touch }) = s.calls := by
          refine List.ext_getElem? ?_
          intro j
          rw [List.getElem?_modify]
          split
          · next same =>
              subst same
              cases found : s.calls[i]? with
              | none => rfl
              | some c => simp [ok.queued polls (inside (by simp)) found]
          · simp
        rw [unchanged]
        exact ih fun j member => inside (by simp [member])
  have calls : (s.poll numcomp).calls = s.calls := same _ (List.take_subset _ _)
  refine ⟨?_, by rw [calls]; exact ok.reports, ok.once, ?_, ok.signals⟩
  · rw [calls]
    intro j d here
    obtain ⟨callOk, held⟩ := ok.calls j d here
    exact ⟨callOk, fun polls released => List.mem_append_left _ (held polls released)⟩
  · simp only [Front.poll, List.append_assoc, List.take_append_drop]
    exact ok.order

theorem Ok.step {m : Move} (ok : s.Ok polling) (orderly : Orderly polling s m)
    (stepped : s.step polling m = some s') : s'.Ok polling := by
  cases m with
  | submit =>
      cases stepped
      refine ⟨?_, ?_, ok.once, ok.order, ok.signals⟩
      · intro j d here
        simp only [add_lookup] at here
        split at here
        · cases here
          exact ⟨Call.new_ok, fun _ released => by cases released⟩
        · exact ok.calls j d here
      · intro j
        simp only [add_lookup, ok.reports j]
        split
        · next last =>
            rw [List.getElem?_eq_none last.ge]
            simp [Call.new, Stage.reported]
        · rfl
  | advance i =>
      obtain ⟨c, found, later⟩ := Option.bind_eq_some_iff.mp stepped
      obtain ⟨c', advanced, rfl⟩ := Option.map_eq_some_iff.mp later
      have callOk := (ok.calls i c found).1.advance advanced
      obtain ⟨released, reported⟩ := advance_reported advanced
      rcases reported with ⟨stage, now⟩ | ⟨other, same⟩
      · rw [if_pos stage]
        exact ok.report found callOk stage now released
      · rw [if_neg other]
        apply ok.set_call found callOk same
        rw [released]
        exact (ok.calls i c found).2
  | waitStart i =>
      obtain ⟨c, found, later⟩ := Option.bind_eq_some_iff.mp stepped
      obtain ⟨c', started, rfl⟩ := Option.map_eq_some_iff.mp later
      obtain ⟨callOk, stage, released⟩ := (ok.calls i c found).1.wait_start started
      exact ok.set_call found callOk (by rw [stage]) (by rw [released]; exact (ok.calls i c found).2)
  | waitEnd i =>
      obtain ⟨c, found, later⟩ := Option.bind_eq_some_iff.mp stepped
      obtain ⟨c', ended, rfl⟩ := Option.map_eq_some_iff.mp later
      obtain ⟨callOk, stage, released⟩ := (ok.calls i c found).1.wait_end ended
      exact ok.set_call found callOk (by rw [stage]) (by rw [released]; exact (ok.calls i c found).2)
  | release i =>
      obtain ⟨c, found, later⟩ := Option.bind_eq_some_iff.mp stepped
      obtain ⟨c', released, rfl⟩ := Option.map_eq_some_iff.mp later
      have callOk := (ok.calls i c found).1.release (orderly.1 c found) released
      unfold Call.release at released
      split at released
      · cases released
      · cases released
        exact ok.set_call found callOk rfl fun polls _ => orderly.2 polls
  | poll numcomp =>
      simp only [Front.step] at stepped
      split at stepped
      · next polls =>
          cases stepped
          exact ok.poll polls numcomp
      · cases stepped

end Front

/-- Take any number of asynchronous calls, any interleaving of their completions with the
threads of the host that wait, poll and release, in which the host releases a completion
after its own waits and, with an event socket, after polling it. No completion and no
request is touched after it was freed, each is freed at most once, and once a call is
finished and released both are. With an event socket every completion is signalled once
and handed out at most once, in the order in which they came, and those not yet handed
out are in the queue. -/
theorem completions_delivered_once {polling : Bool} {moves : List Move} {s : Front}
    (orderly : Along (Front.step polling) (Front.Orderly polling) .start moves)
    (ran : run (Front.step polling) .start moves = some s) :
    (∀ c ∈ s.calls, c.completion.torn = 0 ∧ c.request.torn = 0 ∧ c.completion.frees ≤ 1 ∧
      c.request.frees ≤ 1 ∧ (c.stage = .finished → c.released = true →
        c.completion.frees = 1 ∧ c.request.frees = 1)) ∧
    s.reported.Nodup ∧
    (∀ i, i ∈ s.reported ↔ ∃ c, s.calls[i]? = some c ∧ c.stage.reported = true) ∧
    (polling = true → s.polled ++ s.queue = s.reported ∧ s.signals = s.reported.length) := by
  have ok : s.Ok polling := invariant_along (fun _ _ _ ok allowed => ok.step allowed)
    (Front.start_ok polling) orderly ran
  refine ⟨?_, ok.once, ok.reports, ?_⟩
  · intro c member
    obtain ⟨i, found⟩ := List.mem_iff_getElem?.mp member
    have callOk := (ok.calls i c found).1
    exact ⟨callOk.completion.torn, callOk.request.torn, callOk.completion.frees_le,
      callOk.request.frees_le, callOk.freed⟩
  · rintro rfl
    exact ⟨ok.order, ok.signals⟩

def polledCalls : List Move := List.flatten
  [[.submit, .submit, .waitStart 0], .replicate 4 (.advance 1), .replicate 7 (.advance 0),
    [.waitEnd 0, .poll 8, .release 0], .replicate 3 (.advance 0)]

theorem completions_delivered_once_polled : ∃ s : Front,
    run (Front.step true) .start polledCalls = some s ∧ s.polled = [1, 0] ∧ s.signals = 2 ∧
      ∃ c, s.calls[0]? = some c ∧ c.completion.frees = 1 ∧ c.request.frees = 1 := by
  let ended : Call := ⟨⟨0, 1, 0⟩, ⟨0, 1, 0⟩, .finished, 0, true⟩
  let polled : Call := ⟨.new 2, .new 2, .flag, 0, false⟩
  have ran : run (Front.step true) .start polledCalls =
      some ⟨[ended, polled], [], [1, 0], [1, 0], 2⟩ := by decide +kernel
  have orderly : Along (Front.step true) (Front.Orderly true) .start polledCalls := by
    decide +kernel
  obtain ⟨safe, -, -, delivered⟩ := completions_delivered_once orderly ran
  obtain ⟨-, -, -, -, freed⟩ := safe ended List.mem_cons_self
  exact ⟨_, ran, rfl, (delivered rfl).2, ended, rfl, freed rfl rfl⟩

/-- A completion that the host releases before it is polled is looked at after it was
freed. -/
example : (run (Front.step true) .start (List.flatten
    [[.submit, .release 0], .replicate 7 (.advance 0), [.poll 1]])).map
      (fun s => s.calls.map fun c => c.completion.torn) = some [1] := by
  decide +kernel

/-- A thread that leaves `wait` last does not free the completion, and nobody frees the
request. -/
example : (run (Front.step false) .start (List.flatten
    [[.submit, .waitStart 0, .release 0], .replicate 10 (.advance 0), [.waitEnd 0]])).map
      (fun s => s.calls.map fun c =>
        (c.completion.count, c.completion.frees, c.request.frees)) = some [(0, 0, 0)] := by
  decide +kernel

end LsvdRbd.Image.Polling
