import LsvdRbd.Lib.Ledger
import LsvdRbd.Lib.Machine

/-!
# The locks of the write cache

`flush` takes the locks `m2` and `m` and waits on a condition variable that gives up
only `m`. The completion of a request takes `m2` in `release_room`, after its last chunk,
and `m` for each chunk. A section that takes one lock and does not wait is one step; only
`flush` holds a lock from one step to the next.
-/

namespace LsvdRbd.Journal

open Ledger Machine

set_option autoImplicit false

/-- Where `flush` is: before it, waiting for `m` with `m2` held, at the test of its loop
with both, in the wait with `m2`, or past it. -/
inductive FlushPhase
  | outside
  | locking
  | testing
  | waiting
  | returned
deriving DecidableEq

def FlushPhase.holdsM2 : FlushPhase → Bool
  | locking | testing | waiting => true
  | outside | returned => false

def FlushPhase.holdsM : FlushPhase → Bool
  | testing => true
  | _ => false

/-- How far a chunk has got: on its way to the device, written, in `release_room`, or
before the decrement of `outstanding_writes`. -/
inductive ChunkPhase
  | device
  | written
  | releasing
  | counting
  | gone
deriving DecidableEq

def ChunkPhase.pending : ChunkPhase → Bool
  | device | written => true
  | _ => false

structure Chunk where
  owner : ℕ
  phase : ChunkPhase

/-- A `write_request` after `reserve_room`. -/
structure Reserved where
  pages : ℤ
  /-- The chunks that have not been passed to `writev`. -/
  left : ℕ
  nReq : ℤ
  /-- `release_room` has returned. -/
  released : Bool

structure Closing where
  maxWritePages : ℤ
  totalWritePages : ℤ
  outstandingWrites : ℤ
  requests : List Reserved
  chunks : List Chunk
  flush : FlushPhase

inductive LockEvent
  | reserve (pages : ℕ) (chunks : ℕ)
  | writev (id : ℕ)
  | device (c : ℕ)
  | notify (c : ℕ)
  | release (c : ℕ)
  | count (c : ℕ)
  | flushStart
  | flushLock
  | flushTest
  | flushWake

namespace Closing

def start (max : ℤ) : Closing := ⟨max, 0, 0, [], [], .outside⟩

def setChunk (c : ℕ) (chunk : Chunk) (phase : ChunkPhase) (s : Closing) : Closing :=
  { s with chunks := s.chunks.set c { chunk with phase := phase } }

def reserve (pages chunks : ℕ) (s : Closing) : Option Closing :=
  if s.flush.holdsM2 = false ∧ s.totalWritePages + pages ≤ s.maxWritePages then
    some { s with
      totalWritePages := s.totalWritePages + pages
      requests := s.requests ++ [⟨pages, chunks, chunks, false⟩] }
  else none

def writev (id : ℕ) (s : Closing) : Option Closing :=
  match s.requests[id]? with
  | some q =>
      if s.flush.holdsM = false ∧ 0 < q.left then
        some { s with
          outstandingWrites := s.outstandingWrites + 1
          requests := s.requests.set id { q with left := q.left - 1 }
          chunks := s.chunks ++ [⟨id, .device⟩] }
      else none
  | none => none

/-- The device has written a chunk; `run` starts the writes after the last `writev`. -/
def device (c : ℕ) (s : Closing) : Option Closing :=
  match s.chunks[c]? with
  | some chunk =>
      match s.requests[chunk.owner]? with
      | some q =>
          if chunk.phase = .device ∧ q.left = 0 then some (s.setChunk c chunk .written) else none
      | none => none
  | none => none

/-- `write_request::notify`, up to `release_room`. -/
def notify (c : ℕ) (s : Closing) : Option Closing :=
  match s.chunks[c]? with
  | some chunk =>
      match s.requests[chunk.owner]? with
      | some q =>
          if chunk.phase = .written then
            some (setChunk c chunk (if 1 < q.nReq then .counting else .releasing)
              { s with requests := s.requests.set chunk.owner { q with nReq := q.nReq - 1 } })
          else none
      | none => none
  | none => none

def release (c : ℕ) (s : Closing) : Option Closing :=
  match s.chunks[c]? with
  | some chunk =>
      match s.requests[chunk.owner]? with
      | some q =>
          if chunk.phase = .releasing ∧ s.flush.holdsM2 = false then
            some (setChunk c chunk .counting { s with
              totalWritePages := s.totalWritePages - q.pages
              requests := s.requests.set chunk.owner { q with released := true } })
          else none
      | none => none
  | none => none

/-- The end of `wcache_write_req::notify`. -/
def count (c : ℕ) (s : Closing) : Option Closing :=
  match s.chunks[c]? with
  | some chunk =>
      if chunk.phase = .counting ∧ s.flush.holdsM = false then
        some (setChunk c chunk .gone { s with outstandingWrites := s.outstandingWrites - 1 })
      else none
  | none => none

def step (s : Closing) : LockEvent → Option Closing
  | .reserve pages chunks => s.reserve pages chunks
  | .writev id => s.writev id
  | .device c => s.device c
  | .notify c => s.notify c
  | .release c => s.release c
  | .count c => s.count c
  | .flushStart => if s.flush = .outside then some { s with flush := .locking } else none
  | .flushLock => if s.flush = .locking then some { s with flush := .testing } else none
  | .flushTest =>
      if s.flush = .testing then
        some { s with flush :=
          if 0 < s.totalWritePages ∨ 0 < s.outstandingWrites then .waiting else .returned }
      else none
  | .flushWake => if s.flush = .waiting then some { s with flush := .testing } else none

def completions (s : Closing) : List LockEvent :=
  (List.range s.chunks.length).flatMap fun c => [.device c, .notify c, .release c, .count c]

def CanComplete (s : Closing) : Prop := ∃ e ∈ s.completions, (s.step e).isSome = true

def InFlight (s : Closing) : Prop :=
  (∃ q ∈ s.requests, q.released = false) ∨ ∃ chunk ∈ s.chunks, chunk.phase ≠ .gone

instance (s : Closing) : Decidable s.CanComplete := inferInstanceAs (Decidable (∃ e ∈ _, _))

instance (s : Closing) : Decidable s.InFlight := inferInstanceAs (Decidable (_ ∨ _))

/-- `flush` is entered when every request has been released. -/
def Released (s : Closing) : LockEvent → Prop
  | .flushStart => ∀ q ∈ s.requests, q.released = true
  | _ => True

instance (s : Closing) (e : LockEvent) : Decidable (s.Released e) := by
  cases e <;> unfold Released <;> infer_instance

/-! ## What `n_req` counts -/

def Chunk.pendingOf (id : ℕ) (chunk : Chunk) : Bool := decide (chunk.owner = id) && chunk.phase.pending

def Chunk.releasingOf (id : ℕ) (chunk : Chunk) : Bool :=
  decide (chunk.owner = id) && decide (chunk.phase = .releasing)

/-- The last chunk to be counted off is the one that releases the request. -/
structure Fits (q : Reserved) (pending releasing : ℤ) : Prop where
  counted : q.nReq = q.left + pending
  last : 0 < releasing → q.nReq = 0 ∧ releasing = 1 ∧ q.released = false
  done : q.released = true → q.nReq = 0 ∧ releasing = 0

structure Counted (s : Closing) : Prop where
  owned : ∀ chunk ∈ s.chunks, chunk.owner < s.requests.length
  fits : ∀ (id : ℕ) (q : Reserved), s.requests[id]? = some q →
    Fits q (s.chunks.countP (Chunk.pendingOf id)) (s.chunks.countP (Chunk.releasingOf id))

variable {s s' : Closing} {chunk : Chunk}

theorem Counted.owner_mem {c : ℕ} (counted : s.Counted) (found : s.chunks[c]? = some chunk) :
    ∃ q, s.requests[chunk.owner]? = some q :=
  ⟨_, List.getElem?_eq_getElem (counted.owned chunk (List.mem_of_getElem? found))⟩

/-- A chunk moves on, and with it its request. -/
theorem Counted.move {c : ℕ} {phase : ChunkPhase} {q q' : Reserved}
    (counted : s.Counted) (found : s.chunks[c]? = some chunk)
    (owned : s.requests[chunk.owner]? = some q)
    (chunks : s'.chunks = s.chunks.set c { chunk with phase := phase })
    (requests : s'.requests = s.requests.set chunk.owner q')
    (fits : ∀ pending releasing : ℤ,
      0 ≤ pending - (if chunk.phase.pending then 1 else 0) →
      0 ≤ releasing - (if chunk.phase = .releasing then 1 else 0) → Fits q pending releasing →
      Fits q' (pending - (if chunk.phase.pending then 1 else 0) + if phase.pending then 1 else 0)
        (releasing - (if chunk.phase = .releasing then 1 else 0) +
          if phase = .releasing then 1 else 0)) : s'.Counted := by
  refine ⟨?_, ?_⟩
  · intro other member
    rw [chunks] at member
    rw [requests, List.length_set]
    rcases List.mem_or_eq_of_mem_set member with before | rfl
    · exact counted.owned other before
    · exact counted.owned chunk (List.mem_of_getElem? found)
  · intro id r at_id
    rw [requests, set_lookup owned] at at_id
    rw [chunks, set_count found, set_count found]
    split at at_id
    · next same =>
        cases at_id
        have before := counted.fits chunk.owner q owned
        have pendings : (s.chunks.countP (Chunk.pendingOf id) : ℤ) -
            (if chunk.phase.pending then 1 else 0) ≥ 0 := by
          split
          · next pending =>
              have := List.countP_pos_iff.mpr ⟨chunk, List.mem_of_getElem? found,
                show Chunk.pendingOf id chunk = true by simp [Chunk.pendingOf, same, pending]⟩
              omega
          · omega
        have releasings : (s.chunks.countP (Chunk.releasingOf id) : ℤ) -
            (if chunk.phase = .releasing then 1 else 0) ≥ 0 := by
          split
          · next releasing =>
              have := List.countP_pos_iff.mpr ⟨chunk, List.mem_of_getElem? found,
                show Chunk.releasingOf id chunk = true by simp [Chunk.releasingOf, same, releasing]⟩
              omega
          · omega
        rw [← same] at before
        simpa [Chunk.pendingOf, Chunk.releasingOf, same] using
          fits _ _ pendings releasings before
    · next other =>
        have elsewhere : decide (chunk.owner = id) = false := by simp [Ne.symm other]
        simpa [Chunk.pendingOf, Chunk.releasingOf, elsewhere] using counted.fits id r at_id

/-! ## What one step can do -/

inductive Completed (s : Closing) (c : ℕ) (chunk : Chunk) (q : Reserved) :
    LockEvent → Closing → Prop
  | device (phase : chunk.phase = .device) :
      Completed s c chunk q (.device c) (s.setChunk c chunk .written)
  | notify (phase : chunk.phase = .written) :
      Completed s c chunk q (.notify c) (setChunk c chunk
        (if 1 < q.nReq then .counting else .releasing)
        { s with requests := s.requests.set chunk.owner { q with nReq := q.nReq - 1 } })
  | release (phase : chunk.phase = .releasing) (free : s.flush.holdsM2 = false) :
      Completed s c chunk q (.release c) (setChunk c chunk .counting { s with
        totalWritePages := s.totalWritePages - q.pages
        requests := s.requests.set chunk.owner { q with released := true } })
  | count (phase : chunk.phase = .counting) (free : s.flush.holdsM = false) :
      Completed s c chunk q (.count c)
        (setChunk c chunk .gone { s with outstandingWrites := s.outstandingWrites - 1 })

inductive Stepped (s : Closing) : LockEvent → Closing → Prop
  | reserve {pages chunks : ℕ} (free : s.flush.holdsM2 = false) :
      Stepped s (.reserve pages chunks) { s with
        totalWritePages := s.totalWritePages + pages
        requests := s.requests ++ [⟨pages, chunks, chunks, false⟩] }
  | writev {id : ℕ} {q : Reserved} (found : s.requests[id]? = some q) (more : 0 < q.left) :
      Stepped s (.writev id) { s with
        outstandingWrites := s.outstandingWrites + 1
        requests := s.requests.set id { q with left := q.left - 1 }
        chunks := s.chunks ++ [⟨id, .device⟩] }
  | complete {c : ℕ} {chunk : Chunk} {q : Reserved} {e : LockEvent} {s' : Closing}
      (found : s.chunks[c]? = some chunk) (owned : s.requests[chunk.owner]? = some q)
      (completed : Completed s c chunk q e s') : Stepped s e s'
  | flush {e : LockEvent} {phase : FlushPhase}
      (held : phase.holdsM2 = true → s.flush.holdsM2 = true ∨ e = .flushStart) :
      Stepped s e { s with flush := phase }

variable {e : LockEvent}

theorem step_cases (counted : s.Counted) (stepped : s.step e = some s') :
    Stepped s e s' := by
  cases e with
  | reserve pages chunks =>
      simp only [step, reserve, Option.ite_none_right_eq_some, Option.some.injEq] at stepped
      obtain ⟨⟨free, -⟩, rfl⟩ := stepped
      exact .reserve free
  | writev id =>
      simp only [step, writev] at stepped
      split at stepped
      · next q found =>
          simp only [Option.ite_none_right_eq_some, Option.some.injEq] at stepped
          obtain ⟨⟨-, more⟩, rfl⟩ := stepped
          exact .writev found more
      · cases stepped
  | device c =>
      simp only [step, device] at stepped
      split at stepped
      · next chunk found =>
          split at stepped
          · next q owned =>
              simp only [Option.ite_none_right_eq_some, Option.some.injEq] at stepped
              obtain ⟨⟨phase, -⟩, rfl⟩ := stepped
              exact .complete found owned (.device phase)
          · cases stepped
      · cases stepped
  | notify c =>
      simp only [step, notify] at stepped
      split at stepped
      · next chunk found =>
          split at stepped
          · next q owned =>
              simp only [Option.ite_none_right_eq_some, Option.some.injEq] at stepped
              obtain ⟨phase, rfl⟩ := stepped
              exact .complete found owned (.notify phase)
          · cases stepped
      · cases stepped
  | release c =>
      simp only [step, release] at stepped
      split at stepped
      · next chunk found =>
          split at stepped
          · next q owned =>
              simp only [Option.ite_none_right_eq_some, Option.some.injEq] at stepped
              obtain ⟨⟨phase, free⟩, rfl⟩ := stepped
              exact .complete found owned (.release phase free)
          · cases stepped
      · cases stepped
  | count c =>
      simp only [step, count] at stepped
      split at stepped
      · next chunk found =>
          obtain ⟨q, owned⟩ := counted.owner_mem found
          simp only [Option.ite_none_right_eq_some, Option.some.injEq] at stepped
          obtain ⟨⟨phase, free⟩, rfl⟩ := stepped
          exact .complete found owned (.count phase free)
      · cases stepped
  | flushStart =>
      simp only [step, Option.ite_none_right_eq_some, Option.some.injEq] at stepped
      obtain ⟨-, rfl⟩ := stepped
      exact .flush fun _ => .inr rfl
  | flushLock =>
      simp only [step, Option.ite_none_right_eq_some, Option.some.injEq] at stepped
      obtain ⟨phase, rfl⟩ := stepped
      exact .flush fun _ => .inl (by rw [phase]; rfl)
  | flushTest =>
      simp only [step, Option.ite_none_right_eq_some, Option.some.injEq] at stepped
      obtain ⟨phase, rfl⟩ := stepped
      exact .flush fun _ => .inl (by rw [phase]; rfl)
  | flushWake =>
      simp only [step, Option.ite_none_right_eq_some, Option.some.injEq] at stepped
      obtain ⟨phase, rfl⟩ := stepped
      exact .flush fun _ => .inl (by rw [phase]; rfl)

/-! ## The invariant -/

theorem Completed.counted {c : ℕ} {q : Reserved} (completed : Completed s c chunk q e s')
    (counted : s.Counted) (found : s.chunks[c]? = some chunk)
    (owned : s.requests[chunk.owner]? = some q) :
    s'.Counted := by
  have unchanged : s.requests = s.requests.set chunk.owner q := by
    obtain ⟨inside, rfl⟩ := List.getElem?_eq_some_iff.mp owned
    exact (List.set_getElem_self inside).symm
  cases completed with
  | device phase =>
      refine counted.move found owned rfl unchanged ?_
      intro pending releasing _ _ fits
      simpa [phase, ChunkPhase.pending] using fits
  | notify phase =>
      refine counted.move found owned rfl rfl ?_
      intro pending releasing more none fits
      obtain ⟨sum, last, done⟩ := fits
      simp only [phase, ChunkPhase.pending, if_true, reduceCtorEq, if_false] at more none ⊢
      have unreleased : q.released = false := by
        rw [Bool.eq_false_iff]
        intro released
        have := (done released).1
        omega
      by_cases several : 1 < q.nReq
      · simp only [several, if_true, reduceCtorEq, if_false, Bool.false_eq_true]
        refine ⟨by simp only; omega, ?_, by simp [unreleased]⟩
        intro positive
        have := (last (by omega)).1
        omega
      · simp only [several, if_false, if_true, Bool.false_eq_true]
        refine ⟨by simp only; omega, ?_, by simp [unreleased]⟩
        intro _
        have idle : releasing = 0 := by
          by_contra other
          have := (last (by omega)).1
          omega
        exact ⟨by simp only; omega, by omega, unreleased⟩
  | release phase free =>
      refine counted.move found owned rfl rfl ?_
      intro pending releasing _ more fits
      obtain ⟨sum, last, -⟩ := fits
      simp only [phase, ChunkPhase.pending, if_true, reduceCtorEq, if_false,
        Bool.false_eq_true] at more ⊢
      obtain ⟨none, one, -⟩ := last (by omega)
      refine ⟨by simp only; omega, fun positive => by omega, fun _ => ⟨none, by omega⟩⟩
  | count phase free =>
      refine counted.move found owned rfl unchanged ?_
      intro pending releasing _ _ fits
      simpa [phase, ChunkPhase.pending] using fits

theorem Counted.step (counted : s.Counted) (stepped : s.step e = some s') :
    s'.Counted := by
  cases step_cases counted stepped with
  | @reserve pages chunks free =>
      refine ⟨?_, ?_⟩
      · intro chunk member
        have := counted.owned chunk member
        simp only [List.length_append, List.length_singleton]
        omega
      · intro id q found
        rw [add_lookup] at found
        split at found
        · next new =>
            cases found
            have none : ∀ chunk ∈ s.chunks, decide (chunk.owner = id) = false := by
              intro chunk member
              have := counted.owned chunk member
              simp only [decide_eq_false_iff_not]
              omega
            have pending : s.chunks.countP (Chunk.pendingOf id) = 0 :=
              List.countP_eq_zero.mpr fun chunk member => by
                simp [Chunk.pendingOf, none chunk member]
            have releasing : s.chunks.countP (Chunk.releasingOf id) = 0 :=
              List.countP_eq_zero.mpr fun chunk member => by
                simp [Chunk.releasingOf, none chunk member]
            rw [pending, releasing]
            exact ⟨by simp, by simp, by simp⟩
        · exact counted.fits id q found
  | @writev id q found more =>
      refine ⟨?_, ?_⟩
      · intro chunk member
        rw [List.length_set]
        rcases List.mem_append.mp member with old | new
        · exact counted.owned chunk old
        · rw [List.mem_singleton.mp new]
          exact (List.getElem?_eq_some_iff.mp found).1
      · intro other r at_other
        rw [set_lookup found] at at_other
        rw [add_count, add_count]
        split at at_other
        · next same =>
            cases at_other
            obtain ⟨sum, last, done⟩ := counted.fits id q found
            subst same
            simp only [Chunk.pendingOf, Chunk.releasingOf, ChunkPhase.pending, decide_true,
              Bool.and_self, if_true, reduceCtorEq, decide_false, Bool.and_false,
              Bool.false_eq_true, if_false, add_zero]
            exact ⟨by simp only; omega, last, done⟩
        · next different =>
            have elsewhere : decide (id = other) = false := by simp [Ne.symm different]
            simpa [Chunk.pendingOf, Chunk.releasingOf, elsewhere] using
              counted.fits other r at_other
  | complete found owned completed => exact completed.counted counted found owned
  | flush held => exact ⟨counted.owned, counted.fits⟩

structure Open (s : Closing) : Prop where
  counted : s.Counted
  released : s.flush.holdsM2 = true → ∀ q ∈ s.requests, q.released = true

theorem Open.step (opened : s.Open) (allowed : s.Released e) (stepped : s.step e = some s') :
    s'.Open := by
  refine ⟨opened.counted.step stepped, ?_⟩
  cases step_cases opened.counted stepped with
  | reserve free =>
      intro holds
      rw [show s.flush.holdsM2 = true from holds] at free
      cases free
  | @writev id q found more =>
      intro holds r member
      rcases List.mem_or_eq_of_mem_set member with before | rfl
      · exact opened.released holds r before
      · exact opened.released holds q (List.mem_of_getElem? found)
  | @complete c chunk q e s' found owned completed =>
      intro holds r member
      cases completed with
      | device phase => exact opened.released holds r member
      | notify phase =>
          rcases List.mem_or_eq_of_mem_set member with before | rfl
          · exact opened.released holds r before
          · exact opened.released holds q (List.mem_of_getElem? owned)
      | release phase free =>
          rw [show s.flush.holdsM2 = true from holds] at free
          cases free
      | count phase free => exact opened.released holds r member
  | @flush e phase held =>
      intro holds r member
      rcases held holds with before | rfl
      · exact opened.released before r member
      · exact allowed r member

/-- What is left of a released request is to count its chunks out. -/
theorem Counted.released_phase (counted : s.Counted) {c : ℕ} (found : s.chunks[c]? = some chunk)
    (released : ∀ q ∈ s.requests, q.released = true) :
    chunk.phase = .counting ∨ chunk.phase = .gone := by
  obtain ⟨q, owned⟩ := counted.owner_mem found
  obtain ⟨sum, -, done⟩ := counted.fits chunk.owner q owned
  obtain ⟨none, idle⟩ := done (released q (List.mem_of_getElem? owned))
  have member := List.mem_of_getElem? found
  have pending : Chunk.pendingOf chunk.owner chunk = false := by
    rw [Bool.eq_false_iff]
    intro counts
    have := List.countP_pos_iff.mpr ⟨chunk, member, counts⟩
    omega
  have releasing : Chunk.releasingOf chunk.owner chunk = false := by
    rw [Bool.eq_false_iff]
    intro counts
    have := List.countP_pos_iff.mpr ⟨chunk, member, counts⟩
    omega
  cases phase : chunk.phase with
  | device => simp [Chunk.pendingOf, phase, ChunkPhase.pending] at pending
  | written => simp [Chunk.pendingOf, phase, ChunkPhase.pending] at pending
  | releasing => simp [Chunk.releasingOf, phase] at releasing
  | counting => exact .inl rfl
  | gone => exact .inr rfl

theorem start_open (max : ℤ) : (start max).Open :=
  ⟨⟨by simp [start], by simp [start]⟩, by simp [start]⟩

end Closing

open Closing in
/-- In every run in which `flush` is entered only when every request has been released,
no chunk needs `m2` while `flush` holds it, and while `flush` waits some step of the
completion path can be taken as long as a write is in flight. -/
theorem flush_lets_completions_go {max : ℤ} {events : List LockEvent} {t : Closing}
    (along : Along Closing.step Closing.Released (.start max) events)
    (ran : run Closing.step (.start max) events = some t) :
    (t.flush.holdsM2 = true → ∀ chunk ∈ t.chunks,
      chunk.phase = .counting ∨ chunk.phase = .gone) ∧
    (t.flush = .waiting → t.InFlight → t.CanComplete) := by
  have opened : t.Open := invariant_along
    (fun _ _ _ opened allowed stepped => opened.step allowed stepped) (start_open max) along ran
  have phases : t.flush.holdsM2 = true → ∀ (c : ℕ) (chunk : Chunk), t.chunks[c]? = some chunk →
      chunk.phase = .counting ∨ chunk.phase = .gone := fun holds c chunk found =>
    opened.counted.released_phase found (opened.released holds)
  refine ⟨?_, ?_⟩
  · intro holds chunk member
    obtain ⟨c, found⟩ := List.mem_iff_getElem?.mp member
    exact phases holds c chunk found
  · intro waiting inFlight
    have holds : t.flush.holdsM2 = true := by rw [waiting]; rfl
    rcases inFlight with ⟨q, member, unreleased⟩ | ⟨chunk, member, left⟩
    · rw [opened.released holds q member] at unreleased
      cases unreleased
    · obtain ⟨c, found⟩ := List.mem_iff_getElem?.mp member
      obtain ⟨inside, -⟩ := List.getElem?_eq_some_iff.mp found
      have counting := (phases holds c chunk found).resolve_right left
      refine ⟨.count c, ?_, ?_⟩
      · exact List.mem_flatMap.mpr ⟨c, List.mem_range.mpr inside, by simp⟩
      · simp [Closing.step, count, found, counting, waiting, FlushPhase.holdsM]

def releasedThenFlush : List LockEvent :=
  [.reserve 1 1, .writev 0, .device 0, .notify 0, .release 0, .flushStart, .flushLock, .flushTest]

theorem flush_lets_completions_go_released : ∃ t : Closing,
    run Closing.step (.start 6) releasedThenFlush = some t ∧ t.flush = .waiting ∧
      t.InFlight ∧ t.CanComplete := by
  obtain ⟨t, ran, held⟩ := (Option.any_eq_true _ _).mp
    (by decide +kernel : (run Closing.step (.start 6) releasedThenFlush).any
      (fun t => decide (t.flush = .waiting ∧ t.InFlight)) = true)
  obtain ⟨waiting, inFlight⟩ := of_decide_eq_true held
  exact ⟨t, ran, waiting, inFlight,
    (flush_lets_completions_go (by decide +kernel) ran).2 waiting inFlight⟩

/-- `flush` is entered while a write of one page is at the device: it waits with `m2`
held, and the completion of the write stops at `release_room`. -/
theorem flush_blocks_release :
    (run Closing.step (.start 6) [.reserve 1 1, .writev 0, .flushStart, .flushLock, .flushTest,
      .device 0, .notify 0]).any (fun t => decide (t.flush = .waiting ∧ t.InFlight ∧
        ¬ t.CanComplete)) = true := by
  decide +kernel

end LsvdRbd.Journal
