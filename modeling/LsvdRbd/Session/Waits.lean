import LsvdRbd.Session.Barrier

/-!
# Waiting for an answer

The caller of `flush` or `checkpoint`, and the collector, wait on the condition variable of
their request and then delete it. A PUT of the collector is answered under the mutex of the
request. The worker answers the others without it: it may set `done` and signal while the
caller is between its test of `done` and its wait, or signal after the caller has seen `done`
and deleted the request.

Every run of the queue with its waiting callers is one of the queue whose flushes just return.
-/

namespace LsvdRbd.Session.Waits

open Machine

set_option autoImplicit false

/-- The caller in `translate_req::wait`: before its test, after a test that failed (it has the
mutex), in the wait, and returned, with the request deleted. -/
inductive Caller
  | before
  | tested
  | asleep
  | returned
deriving DecidableEq

instance : Fintype Caller :=
  ⟨{.before, .tested, .asleep, .returned}, by intro caller; cases caller <;> simp⟩

/-- The thread that answers: busy, between `done` and the signal, and through; it is
remembered where the caller was at the signal. -/
inductive Answer
  | busy
  | stored
  | signalled (met : Caller)
deriving DecidableEq

instance : Fintype Answer :=
  ⟨{.busy, .stored} ∪ Finset.univ.image Answer.signalled, by intro answer; cases answer <;> simp⟩

structure Wait where
  caller : Caller
  answer : Answer
deriving DecidableEq

inductive Event
  | caller
  | answer
  /-- The wait ends without a signal. -/
  | spurious
deriving DecidableEq

instance : Fintype Event :=
  ⟨{.caller, .answer, .spurious}, by intro event; cases event <;> simp⟩

namespace Wait

def start : Wait := ⟨.before, .busy⟩

def signal (s : Wait) : Wait :=
  ⟨if s.caller = .asleep then .before else s.caller, .signalled s.caller⟩

def step (locked : Bool) (s : Wait) : Event → Option Wait
  | .caller =>
      match s.caller with
      | .before => some { s with caller := if s.answer = .busy then .tested else .returned }
      | .tested => some { s with caller := .asleep }
      | .asleep | .returned => none
  | .answer =>
      match s.answer with
      | .busy =>
          if locked then if s.caller = .tested then none else some s.signal
          else some { s with answer := .stored }
      | .stored => some s.signal
      | .signalled _ => none
  | .spurious => if s.caller = .asleep then some { s with caller := .before } else none

/-- The caller returns after `done`; it sleeps after the signal only if that came between its
test and its wait. -/
def Ok (locked : Bool) (s : Wait) : Bool :=
  match s.answer with
  | .busy => s.caller ≠ .returned
  | .stored => !locked
  | .signalled met => match s.caller with
      | .before => met ≠ .returned && (!locked || met ≠ .tested)
      | .tested | .asleep => !locked && met = .tested
      | .returned => !locked || (met ≠ .tested && met ≠ .returned)

def left (s : Wait) : ℕ :=
  match s.answer, s.caller with
  | .busy, .before => 6
  | .busy, .tested => 5
  | .busy, _ => 4
  | .stored, .tested => 4
  | .stored, .asleep => 3
  | .stored, .before => 2
  | .stored, .returned => 1
  | .signalled _, .tested => 2
  | .signalled _, .before => 1
  | .signalled _, _ => 0

theorem ok_step : ∀ locked caller answer event, Ok locked ⟨caller, answer⟩ = true →
    ∀ s' ∈ step locked ⟨caller, answer⟩ event, s'.Ok locked = true ∧
      (event ≠ .spurious → s'.left < left ⟨caller, answer⟩) := by
  decide +kernel

theorem left_le : ∀ caller answer, left ⟨caller, answer⟩ ≤ 6 := by
  decide +kernel

theorem stuck_at : ∀ locked caller answer, Ok locked ⟨caller, answer⟩ = true →
    step locked ⟨caller, answer⟩ .caller = none → step locked ⟨caller, answer⟩ .answer = none →
      caller = .returned ∨ caller = .asleep ∧ answer = .signalled .tested ∧ locked = false := by
  decide +kernel

theorem answered_at : ∀ locked caller answer event, ∀ s' ∈ step locked ⟨caller, answer⟩ event,
    (answer ≠ .busy → s'.answer ≠ .busy) ∧ (event ≠ .answer → s'.answer = answer) ∧
      (event = .answer → s'.answer ≠ .busy) := by
  decide +kernel

variable {locked : Bool}

theorem stays_answered {s s' : Wait} {event : Event} (stepped : s.step locked event = some s')
    (past : s.answer ≠ .busy) : s'.answer ≠ .busy :=
  (answered_at locked s.caller s.answer event s' stepped).1 past

theorem keeps_answer {s s' : Wait} {event : Event} (stepped : s.step locked event = some s')
    (other : event ≠ .answer) : s'.answer = s.answer :=
  (answered_at locked s.caller s.answer event s' stepped).2.1 other

theorem answer_answers {s s' : Wait} (stepped : s.step locked .answer = some s') :
    s'.answer ≠ .busy :=
  (answered_at locked s.caller s.answer .answer s' stepped).2.2 rfl

theorem answered_of_returned {s : Wait} (ok : s.Ok false = true) (returned : s.caller = .returned) :
    s.answer ≠ .busy := by
  intro busy
  simp [Ok, busy, returned] at ok

theorem locked_at : ∀ caller answer, Ok true ⟨caller, answer⟩ = true →
    answer ≠ .signalled .tested ∧ answer ≠ .signalled .returned := by
  decide +kernel

theorem run_ok {events : List Event} {s : Wait} (ran : run (step locked) .start events = some s) :
    s.Ok locked = true :=
  invariant_run (fun s e next ok stepped => (ok_step locked s.caller s.answer e ok next stepped).1)
    (by cases locked <;> rfl) ran

end Wait

/-- However the two threads take turns, and however often the wait ends without a signal: an
answer under the mutex finds the caller neither between its test and its wait nor returned.
Every other step lowers a number that is at most six, and where neither thread can go on, the
caller has returned, or it sleeps and its signal came between its test and its wait. -/
theorem waits_end_unless_missed {locked : Bool} {events : List Event} {s : Wait}
    (ran : run (Wait.step locked) .start events = some s) :
    (locked = true → s.answer ≠ .signalled .tested ∧ s.answer ≠ .signalled .returned) ∧
      (s.left ≤ 6 ∧ ∀ e s', e ≠ .spurious → s.step locked e = some s' → s'.left < s.left) ∧
      (s.step locked .caller = none → s.step locked .answer = none →
        s.caller = .returned ∨
          s.caller = .asleep ∧ s.answer = .signalled .tested ∧ locked = false) := by
  have ok := Wait.run_ok ran
  refine ⟨?_, ?_, ?_⟩
  · rintro rfl
    exact Wait.locked_at s.caller s.answer ok
  · refine ⟨Wait.left_le s.caller s.answer, ?_⟩
    intro e s' signalled stepped
    exact (Wait.ok_step locked s.caller s.answer e ok s' stepped).2 signalled
  · exact Wait.stuck_at locked s.caller s.answer ok

/-- A flush whose signal comes between its test and its wait. -/
theorem waits_end_unless_missed_flush : ∃ s : Wait,
    run (Wait.step false) .start [.caller, .answer, .answer, .caller] = some s ∧
      s.step false .caller = none ∧ s.step false .answer = none ∧ s.caller ≠ .returned ∧
      s.answer = .signalled .tested := by
  have ran : run (Wait.step false) .start [.caller, .answer, .answer, .caller] =
      some ⟨.asleep, .signalled .tested⟩ := rfl
  refine ⟨_, ran, rfl, rfl, by decide, ?_⟩
  have ends := (waits_end_unless_missed ran).2.2 rfl rfl
  exact (ends.resolve_left (by decide)).2.1

-- A flush that tests after `done` is set deletes its request before the signal.
example : run (Wait.step false) .start [.answer, .caller, .answer] =
    some ⟨.returned, .signalled .returned⟩ := rfl

/-! ## The callers of `flush` and the queue -/

/-- The queue with the calls of `flush`, which are numbered, and how far the wait of each has
got. -/
structure Flushing where
  pipeline : Pipeline
  calls : ℕ
  waits : FlushCall → Option Wait
  /-- The call whose `done` the worker has set and that it has not signalled. -/
  unsignalled : Option FlushCall

inductive FlushEvent
  | queue (event : PipelineEvent)
  | flush
  | caller (call : FlushCall)
  | spurious (call : FlushCall)
  | done
  | signal

namespace Flushing

def start : Flushing := ⟨.start, 0, fun _ => none, none⟩

/-- What can happen beside the flushes; the worker takes nothing before it has signalled. -/
def free (unsignalled : Option FlushCall) : PipelineEvent → Bool
  | .flush _ | .drained | .ret _ => false
  | .take => unsignalled.isNone
  | _ => true

def queue (objBytes : ℕ) (event : PipelineEvent) (s : Flushing) : Option Flushing :=
  if free s.unsignalled event then
    (s.pipeline.step objBytes event).map fun pipeline => { s with pipeline := pipeline }
  else none

/-- `flush` up to its wait. -/
def flush (objBytes : ℕ) (s : Flushing) : Option Flushing :=
  (s.pipeline.step objBytes (.flush s.calls)).map fun pipeline => { s with
    pipeline := pipeline
    calls := s.calls + 1
    waits := Function.update s.waits ⟨s.calls, s.pipeline.appended⟩ (some .start) }

def move (call : FlushCall) (event : Event) (s : Flushing) : Option (Wait × Flushing) :=
  (s.waits call).bind fun w => (w.step false event).map fun w =>
    (w, { s with waits := Function.update s.waits call (some w) })

/-- When `wait` has returned, so does `flush`. -/
def caller (call : FlushCall) (s : Flushing) : Option Flushing :=
  (s.move call .caller).map fun (w, s) =>
    if w.caller = .returned then
      { s with pipeline := { s.pipeline with returned := call :: s.pipeline.returned } }
    else s

def done (s : Flushing) : Option Flushing :=
  match s.pipeline.worker with
  | .took (.flush call) => s.pipeline.drained.bind fun pipeline =>
      (s.move call .answer).map fun (_, s) =>
        { s with pipeline := pipeline, unsignalled := some call }
  | _ => none

def signal (s : Flushing) : Option Flushing :=
  s.unsignalled.bind fun call => (s.move call .answer).map fun (_, s) =>
    { s with unsignalled := none }

def step (objBytes : ℕ) (s : Flushing) : FlushEvent → Option Flushing
  | .queue event => s.queue objBytes event
  | .flush => s.flush objBytes
  | .caller call => s.caller call
  | .spurious call => (s.move call .spurious).map Prod.snd
  | .done => s.done
  | .signal => s.signal

/-- Each wait is a run of its own, and where it is past `busy` the worker has answered the
call. -/
structure Ok (s : Flushing) : Prop where
  waiting : ∀ call w, s.waits call = some w →
    ∃ events, run (Wait.step false) .start events = some w
  answered : ∀ call w, s.waits call = some w → w.answer ≠ .busy → call ∈ s.pipeline.answered
  stored : ∀ call ∈ s.unsignalled, ∃ w, s.waits call = some w ∧ w.answer ≠ .busy
  numbered : ∀ call w, s.waits call = some w → call.thread < s.calls

variable {objBytes : ℕ} {s t : Flushing}

theorem step_answered {p q : Pipeline} {event : PipelineEvent}
    (stepped : p.step objBytes event = some q) : p.answered ⊆ q.answered := by
  have submitted (p : Pipeline) : p.submit.answered = p.answered := by
    rw [Pipeline.submit]
    split <;> rfl
  cases event <;>
    grind [Pipeline.step, Pipeline.writev, Pipeline.append, Pipeline.roll, Pipeline.push,
      Pipeline.take, Pipeline.count, Pipeline.issue, Pipeline.ckptDone, Pipeline.drained,
      Pipeline.land, Pipeline.notify, Pipeline.ret]

variable {call : FlushCall}

theorem move_cases {event : Event} {w : Wait} (moved : s.move call event = some (w, t)) :
    ∃ before, s.waits call = some before ∧ before.step false event = some w ∧
      t = { s with waits := Function.update s.waits call (some w) } := by
  obtain ⟨before, found, rest⟩ := Option.bind_eq_some_iff.mp moved
  obtain ⟨after, stepped, same⟩ := Option.map_eq_some_iff.mp rest
  cases same
  exact ⟨before, found, stepped, rfl⟩

/-- One wait begins or goes on, and with it the queue. -/
theorem Ok.updated {w : Wait} {calls : ℕ} {pipeline : Pipeline}
    {unsignalled : Option FlushCall} (ok : s.Ok)
    (ran : ∃ events, run (Wait.step false) .start events = some w)
    (number : call.thread < calls) (later : s.calls ≤ calls)
    (grows : s.pipeline.answered ⊆ pipeline.answered)
    (answered : w.answer ≠ .busy → call ∈ pipeline.answered)
    (stored : ∀ other ∈ unsignalled, other = call ∧ w.answer ≠ .busy ∨
      other ≠ call ∧ other ∈ s.unsignalled) :
    Ok ⟨pipeline, calls, Function.update s.waits call (some w), unsignalled⟩ := by
  have at_call (other : FlushCall) (v : Wait)
      (found : Function.update s.waits call (some w) other = some v) :
      other = call ∧ v = w ∨ other ≠ call ∧ s.waits other = some v := by
    by_cases same : other = call
    · rw [same, Function.update_self] at found
      exact .inl ⟨same, (Option.some.inj found).symm⟩
    · rw [Function.update_of_ne same] at found
      exact .inr ⟨same, found⟩
  refine ⟨?_, ?_, ?_, ?_⟩
  · intro other v found
    rcases at_call other v found with ⟨-, rfl⟩ | ⟨-, old⟩
    · exact ran
    · exact ok.waiting other v old
  · intro other v found past
    rcases at_call other v found with ⟨rfl, rfl⟩ | ⟨-, old⟩
    · exact answered past
    · exact grows (ok.answered other v old past)
  · intro other member
    rcases stored other member with ⟨rfl, past⟩ | ⟨different, before⟩
    · exact ⟨w, Function.update_self _ _ _, past⟩
    · obtain ⟨v, found, past⟩ := ok.stored other before
      exact ⟨v, (Function.update_of_ne different _ _).trans found, past⟩
  · intro other v found
    rcases at_call other v found with ⟨rfl, -⟩ | ⟨-, old⟩
    · exact number
    · exact (ok.numbered other v old).trans_le later

theorem Ok.goes_on {event : Event} {before w : Wait} (ok : s.Ok)
    (found : s.waits call = some before) (stepped : before.step false event = some w) :
    ∃ events, run (Wait.step false) .start events = some w := by
  obtain ⟨events, ran⟩ := ok.waiting call before found
  exact ⟨events ++ [event], (run_append_eq_some _).mpr
    ⟨before, ran, (run_cons_eq_some _).mpr ⟨w, stepped, rfl⟩⟩⟩

/-- One wait goes on, and the queue stays as it is. -/
theorem Ok.moved {event : Event} {before w : Wait} {unsignalled : Option FlushCall} (ok : s.Ok)
    (found : s.waits call = some before) (stepped : before.step false event = some w)
    (kept : event = .answer → before.answer ≠ .busy)
    (signals : ∀ other ∈ unsignalled, other ∈ s.unsignalled) :
    Ok { s with waits := Function.update s.waits call (some w), unsignalled := unsignalled } := by
  have past : w.answer ≠ .busy → before.answer ≠ .busy := by
    intro answered
    by_cases other : event = .answer
    · exact kept other
    · rwa [← Wait.keeps_answer stepped other]
  refine ok.updated (ok.goes_on found stepped) (ok.numbered call before found) (le_refl _)
    (fun _ member => member) (fun answered => ok.answered call before found (past answered)) ?_
  intro other member
  by_cases same : other = call
  · obtain ⟨v, at_call, busy⟩ := ok.stored other (signals other member)
    obtain rfl : v = before := Option.some.inj (at_call.symm.trans (same ▸ found))
    exact .inl ⟨same, Wait.stays_answered stepped busy⟩
  · exact .inr ⟨same, signals other member⟩

theorem Ok.done (ok : s.Ok) (done : s.done = some t) :
    t.Ok ∧ s.pipeline.drained = some t.pipeline := by
  unfold Flushing.done at done
  split at done
  · next call taken =>
      obtain ⟨pipeline, drained, rest⟩ := Option.bind_eq_some_iff.mp done
      obtain ⟨⟨w, mid⟩, moved, rfl⟩ := Option.map_eq_some_iff.mp rest
      obtain ⟨before, found, stepped, rfl⟩ := move_cases moved
      have answered : pipeline.answered = call :: s.pipeline.answered := by
        simp only [Pipeline.drained, taken] at drained
        split at drained
        · cases drained
        · cases drained
          rfl
      refine ⟨ok.updated (ok.goes_on found stepped) (ok.numbered call before found) (le_refl _)
        ?_ ?_ ?_, drained⟩
      · rw [answered]
        exact List.subset_cons_self _ _
      · rw [answered]
        exact fun _ => List.mem_cons_self
      · rintro other ⟨⟩
        exact .inl ⟨rfl, Wait.answer_answers stepped⟩
  · cases done

theorem Ok.signal (ok : s.Ok) (signalled : s.signal = some t) :
    t.Ok ∧ t.pipeline = s.pipeline := by
  obtain ⟨call, unsignalled, rest⟩ := Option.bind_eq_some_iff.mp signalled
  obtain ⟨⟨w, mid⟩, moved, rfl⟩ := Option.map_eq_some_iff.mp rest
  obtain ⟨before, found, stepped, rfl⟩ := move_cases moved
  obtain ⟨v, at_call, past⟩ := ok.stored call unsignalled
  cases at_call.symm.trans found
  exact ⟨ok.moved found stepped (fun _ => past) (by simp), rfl⟩

/-- The guard of `ret` is what the wait sees to. -/
theorem Ok.caller (ok : s.Ok) (called : s.caller call = some t) :
    t.Ok ∧ (t.pipeline = s.pipeline ∨ s.pipeline.ret call = some t.pipeline) := by
  obtain ⟨⟨w, mid⟩, moved, rfl⟩ := Option.map_eq_some_iff.mp called
  obtain ⟨before, found, stepped, rfl⟩ := move_cases moved
  have after := ok.moved found stepped (by simp) fun _ member => member
  dsimp only
  split
  · next returned =>
      obtain ⟨events, ran⟩ := ok.goes_on found stepped
      have answered := after.answered call w (Function.update_self _ _ _)
        (Wait.answered_of_returned (Wait.run_ok ran) returned)
      exact ⟨⟨after.waiting, after.answered, after.stored, after.numbered⟩, .inr (if_pos answered)⟩
  · exact ⟨after, .inl rfl⟩

/-- The queue follows every step with one of its own, or stays as it is. -/
theorem Ok.step {event : FlushEvent} (ok : s.Ok) (stepped : s.step objBytes event = some t) :
    t.Ok ∧ (t.pipeline = s.pipeline ∨
      ∃ move, s.pipeline.step objBytes move = some t.pipeline) := by
  cases event with
  | queue event =>
      simp only [Flushing.step, Flushing.queue, Option.ite_none_right_eq_some] at stepped
      obtain ⟨pipeline, moved, rfl⟩ := Option.map_eq_some_iff.mp stepped.2
      exact ⟨⟨ok.waiting, fun call w found past =>
        step_answered moved (ok.answered call w found past), ok.stored, ok.numbered⟩,
        .inr ⟨event, moved⟩⟩
  | flush =>
      simp only [Flushing.step, Flushing.flush] at stepped
      obtain ⟨pipeline, moved, rfl⟩ := Option.map_eq_some_iff.mp stepped
      refine ⟨ok.updated ⟨[], rfl⟩ (Nat.lt_succ_self _) (Nat.le_succ _) (step_answered moved)
        (fun past => absurd rfl past) ?_, .inr ⟨_, moved⟩⟩
      intro other member
      obtain ⟨w, found, -⟩ := ok.stored other member
      refine .inr ⟨?_, member⟩
      rintro rfl
      exact absurd (ok.numbered _ w found) (lt_irrefl _)
  | caller call =>
      obtain ⟨after, same | returned⟩ := ok.caller stepped
      · exact ⟨after, .inl same⟩
      · exact ⟨after, .inr ⟨.ret call, returned⟩⟩
  | spurious call =>
      simp only [Flushing.step] at stepped
      obtain ⟨⟨w, mid⟩, moved, rfl⟩ := Option.map_eq_some_iff.mp stepped
      obtain ⟨before, found, woken, rfl⟩ := move_cases moved
      exact ⟨ok.moved found woken (by simp) fun _ member => member, .inl rfl⟩
  | done =>
      obtain ⟨after, drained⟩ := ok.done stepped
      exact ⟨after, .inr ⟨.drained, drained⟩⟩
  | signal =>
      obtain ⟨after, same⟩ := ok.signal stepped
      exact ⟨after, .inl same⟩

theorem Ok.follow {event : FlushEvent} {p : Pipeline} (follows : p = s.pipeline ∧ s.Ok)
    (stepped : s.step objBytes event = some t) :
    ∃ moves q, run (Pipeline.step objBytes) p moves = some q ∧ q = t.pipeline ∧ t.Ok := by
  obtain ⟨rfl, ok⟩ := follows
  obtain ⟨after, same | ⟨move, moved⟩⟩ := ok.step stepped
  · exact ⟨[], s.pipeline, rfl, same.symm, after⟩
  · exact ⟨[move], t.pipeline, (run_cons_eq_some _).mpr ⟨_, moved, rfl⟩, rfl, after⟩

theorem start_ok : start.Ok := by
  constructor <;> simp [start]

end Flushing

/-- The queue with its waiting callers runs as the queue does whose flushes just return, and
each caller as the one that waits alone. When a caller has returned, what was appended before
its call is in an object whose PUT has completed. -/
theorem flushes_follow_queue {objBytes : ℕ} {events : List FlushEvent} {t : Flushing}
    (ran : run (Flushing.step objBytes) .start events = some t) :
    (∃ moves, run (Pipeline.step objBytes) .start moves = some t.pipeline) ∧
    ∀ call w, t.waits call = some w →
      (∃ moves, run (Wait.step false) .start moves = some w) ∧
      (w.caller = .returned → ∀ x < call.before, ∃ object ∈ t.pipeline.stored, x ∈ object) := by
  obtain ⟨moves, p, moved, rfl, ok⟩ := follow_along
    (fun _ _ _ _ follows _ stepped => Flushing.Ok.follow follows stepped)
    ⟨rfl, Flushing.start_ok⟩ (along_of_forall (fun _ _ => trivial) _) ran
  have queue : t.pipeline.Ok := invariant_run (fun _ _ _ ok stepped => ok.step stepped)
    Pipeline.start_ok moved
  refine ⟨⟨moves, moved⟩, ?_⟩
  intro call w found
  obtain ⟨events, waited⟩ := ok.waiting call w found
  refine ⟨⟨events, waited⟩, ?_⟩
  intro returned x earlier
  have answered := ok.answered call w found
    (Wait.answered_of_returned (Wait.run_ok waited) returned)
  exact List.mem_flatten.mp (queue.answered call answered x earlier)

end LsvdRbd.Session.Waits
