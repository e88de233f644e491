import LsvdRbd.Lib.Ledger
import LsvdRbd.Lib.Machine
import LsvdRbd.Lib.Refs

/-!
# Reads that wait for a fetch

A read that finds its chunk being fetched makes a `pending_read_request`. Its `run` is
called by the thread that made it, and its `on_backend_done` by the thread that got the
chunk, in any order; both take the mutex of the request, and the second one notifies the
parent and frees the request. It does so while it holds the mutex, which is a member of the
request, and gives the mutex up afterwards.
-/

namespace LsvdRbd.Cache

open Ledger Machine Refs

set_option autoImplicit false

/-! ## One request -/

inductive Side
  | runner
  | filler
deriving DecidableEq

instance : Fintype Side := ⟨{.runner, .filler}, by intro side; cases side <;> simp⟩

def Side.other : Side → Side
  | runner => filler
  | filler => runner

/-- Where a thread is in its function: before the lock, with the lock, after its field is
set, after `notify` of the parent, before the unlock, and out of it. -/
inductive Spot
  | ready
  | locked
  | stored
  | told
  | leaving
  | gone
deriving DecidableEq

instance : Fintype Spot :=
  ⟨{.ready, .locked, .stored, .told, .leaving, .gone}, by intro spot; cases spot <;> simp⟩

namespace Spot

def inside : Spot → Bool
  | ready | gone => false
  | _ => true

def isSet : Spot → Bool
  | ready | locked => false
  | _ => true

end Spot

/-- A `pending_read_request`: its counter, its mutex, and the two fields `parent` and
`is_backend_done`; how often it has notified its parent, and where the two threads are. -/
structure Pending where
  cell : Cell
  mutex : Option Side
  hasParent : Bool
  backendDone : Bool
  notified : ℕ
  runner : Spot
  filler : Spot
deriving DecidableEq

namespace Pending

def new : Pending := ⟨.new 2, none, false, false, 0, .ready, .ready⟩

def spot (r : Pending) : Side → Spot
  | .runner => r.runner
  | .filler => r.filler

def goTo (r : Pending) (side : Side) (spot : Spot) : Pending :=
  match side with
  | .runner => { r with runner := spot }
  | .filler => { r with filler := spot }

def store (r : Pending) : Side → Pending
  | .runner => { r with hasParent := true }
  | .filler => { r with backendDone := true }

/-- The next statement of one of the two functions. The parent releases its child when it
is notified. -/
def advance (r : Pending) (side : Side) : Option Pending :=
  match r.spot side with
  | .ready =>
      if r.mutex = none then
        some ({ r with cell := r.cell.touch, mutex := some side }.goTo side .locked)
      else none
  | .locked => some (({ r with cell := r.cell.touch }.store side).goTo side .stored)
  | .stored =>
      if r.backendDone && r.hasParent then
        some ({ r with cell := r.cell.touch.release, notified := r.notified + 1 }.goTo side .told)
      else some ({ r with cell := r.cell.touch }.goTo side .leaving)
  | .told => some ({ r with cell := r.cell.release }.goTo side .leaving)
  | .leaving => some ({ r with cell := r.cell.touch, mutex := none }.goTo side .gone)
  | .gone => none

def ending : Spot → Cell × ℕ
  | .told => (⟨1, 0, 0⟩, 1)
  | .leaving => (⟨0, 1, 0⟩, 1)
  | .gone => (⟨0, 1, 1⟩, 1)
  | _ => (.new 2, 0)

/-- The request while the threads are there: whole until both fields are set, and after that
as the thread leaves it that is not yet out of its function. -/
def stateAt (runner filler : Spot) : Pending where
  cell := if runner.isSet && filler.isSet then
    (ending (if filler = .gone then runner else filler)).1 else .new 2
  mutex := if runner.inside then some .runner else if filler.inside then some .filler else none
  hasParent := runner.isSet
  backendDone := filler.isSet
  notified := if runner.isSet && filler.isSet then
    (ending (if filler = .gone then runner else filler)).2 else 0
  runner := runner
  filler := filler

/-- Where the two can be at a time: one has not begun, and then the other has not notified,
or one is out of its function. -/
def possible : Spot → Spot → Bool
  | .ready, spot | spot, .ready => spot ≠ .told
  | .gone, _ | _, .gone => true
  | _, _ => false

def Ok (r : Pending) : Prop := possible r.runner r.filler = true ∧ r = stateAt r.runner r.filler

instance (r : Pending) : Decidable r.Ok := inferInstanceAs (Decidable (_ ∧ _))

def ahead : Spot → ℕ
  | .ready => 5
  | .locked => 4
  | .stored => 3
  | .told => 2
  | .leaving => 1
  | .gone => 0

def left (r : Pending) : ℕ := ahead r.runner + ahead r.filler

-- the next four are checked at each of the places where the two threads can be

theorem advance_at : ∀ side runner filler, possible runner filler = true →
    ∀ r' ∈ (stateAt runner filler).advance side, r'.Ok ∧ r'.left < (stateAt runner filler).left := by
  decide +kernel

theorem once_at : ∀ runner filler, possible runner filler = true →
    (stateAt runner filler).notified ≤ 1 ∧ (stateAt runner filler).cell.frees ≤ 1 ∧
      (stateAt runner filler).cell.torn ≤ (stateAt runner filler).cell.frees := by
  decide +kernel

theorem stuck_at : ∀ side runner filler, possible runner filler = true →
    (stateAt runner filler).advance side = none →
      (stateAt runner filler).spot side = .gone ∨
        (stateAt runner filler).advance side.other ≠ none := by
  decide +kernel

theorem left_at : ∀ runner filler, (stateAt runner filler).left ≤ 10 := by
  decide +kernel

variable {r r' : Pending} {side : Side}

theorem new_ok : new.Ok := ⟨rfl, rfl⟩

theorem Ok.advance (ok : r.Ok) (advanced : r.advance side = some r') : r'.Ok ∧ r'.left < r.left := by
  have here := advance_at side r.runner r.filler ok.1
  rw [← ok.2] at here
  exact here r' advanced

/-- In every state the parent is notified at most once and the request freed at most once;
nothing touches it after that but the unlock. -/
theorem Ok.once (ok : r.Ok) : r.notified ≤ 1 ∧ r.cell.frees ≤ 1 ∧ r.cell.torn ≤ r.cell.frees := by
  have here := once_at r.runner r.filler ok.1
  rwa [← ok.2] at here

/-- A thread that cannot go on is out of its function, or the other one can go on. -/
theorem Ok.stuck (ok : r.Ok) (stuck : r.advance side = none) :
    r.spot side = .gone ∨ r.advance side.other ≠ none := by
  have here := stuck_at side r.runner r.filler ok.1
  rw [← ok.2] at here
  exact here stuck

/-- Once both threads are out of their functions, all of it has happened. -/
theorem Ok.ended (ok : r.Ok) (gone : ∀ side, r.spot side = .gone) :
    r.notified = 1 ∧ r.cell.frees = 1 ∧ r.cell.torn = 1 := by
  have runner : r.runner = .gone := gone .runner
  have filler : r.filler = .gone := gone .filler
  rw [ok.2, runner, filler]
  exact ⟨rfl, rfl, rfl⟩

theorem Ok.left_le (ok : r.Ok) : r.left ≤ 10 := by
  rw [ok.2]
  exact left_at r.runner r.filler

end Pending

/-! ## The reads of one fetch -/

/-- `pending_reads` of a chunk, and whether `on_backend_done` of the fetch has taken them. -/
structure Waiters where
  reads : List Pending
  taken : Bool

/-- A read of the chunk arrives; the backend has answered; a thread goes on in `run` of a
request; the thread of the fetch goes on with the first request it has not finished. -/
inductive Turn
  | arrive
  | take
  | run (i : ℕ)
  | fill
deriving DecidableEq

namespace Waiters

def start : Waiters := ⟨[], false⟩

def advance (w : Waiters) (i : ℕ) (side : Side) : Option Waiters := do
  let r ← w.reads[i]?
  let r' ← r.advance side
  pure { w with reads := w.reads.set i r' }

def step (w : Waiters) : Turn → Option Waiters
  | .arrive => if w.taken then none else some { w with reads := w.reads ++ [.new] }
  | .take => if w.taken then none else some { w with taken := true }
  | .run i => w.advance i .runner
  | .fill =>
      if w.taken then w.advance (w.reads.findIdx fun r => r.filler ≠ .gone) .filler else none

variable {w w' : Waiters} {i : ℕ} {side : Side} {turn : Turn}

theorem advance_eq_some :
    w.advance i side = some w' ↔ ∃ r r', w.reads[i]? = some r ∧ r.advance side = some r' ∧
      { w with reads := w.reads.set i r' } = w' := by
  simp [advance, Option.bind_eq_some_iff]

def Ok (w : Waiters) : Prop := ∀ r ∈ w.reads, r.Ok

theorem Ok.advance (ok : w.Ok) (advanced : w.advance i side = some w') : w'.Ok := by
  obtain ⟨r, r', found, stepped, rfl⟩ := advance_eq_some.mp advanced
  intro other member
  rcases List.mem_or_eq_of_mem_set member with old | rfl
  · exact ok other old
  · exact ((ok r (List.mem_of_getElem? found)).advance stepped).1

theorem Ok.step (ok : w.Ok) (stepped : w.step turn = some w') : w'.Ok := by
  cases turn with
  | arrive =>
      simp only [Waiters.step, Option.ite_none_left_eq_some, Option.some.injEq] at stepped
      obtain ⟨-, rfl⟩ := stepped
      intro r member
      rcases List.mem_append.mp member with old | new
      · exact ok r old
      · rw [List.mem_singleton.mp new]
        exact Pending.new_ok
  | take =>
      simp only [Waiters.step, Option.ite_none_left_eq_some, Option.some.injEq] at stepped
      obtain ⟨-, rfl⟩ := stepped
      exact ok
  | run i => exact ok.advance stepped
  | fill =>
      simp only [Waiters.step, Option.ite_none_right_eq_some] at stepped
      exact ok.advance stepped.2

def left (w : Waiters) : ℕ := (w.reads.map Pending.left).sum

theorem Ok.left_le (ok : w.Ok) : w.left ≤ 10 * w.reads.length := by
  have bound := List.sum_le_card_nsmul (w.reads.map Pending.left) 10 (by
    intro n member
    obtain ⟨r, inReads, rfl⟩ := List.mem_map.mp member
    exact (ok r inReads).left_le)
  simpa [left, Nat.mul_comm] using bound

theorem Ok.step_left (ok : w.Ok) (taken : w.taken = true) (stepped : w.step turn = some w') :
    w'.taken = true ∧ w'.left < w.left := by
  have lowers : ∀ {i side}, w.advance i side = some w' → w'.taken = true ∧ w'.left < w.left := by
    intro i side advanced
    obtain ⟨r, r', found, moved, rfl⟩ := advance_eq_some.mp advanced
    have sum : ((w.reads.set i r').map Pending.left).sum + r.left = _ := set_sum found Pending.left
    have lower := ((ok r (List.mem_of_getElem? found)).advance moved).2
    exact ⟨taken, by simp only [left]; omega⟩
  cases turn with
  | arrive => simp [Waiters.step, taken] at stepped
  | take => simp [Waiters.step, taken] at stepped
  | run i => exact lowers stepped
  | fill =>
      simp only [Waiters.step, taken, if_true] at stepped
      exact lowers stepped

theorem Ok.all_gone (ok : w.Ok) (taken : w.taken = true) (stuck : ∀ turn, w.step turn = none)
    {r : Pending} (member : r ∈ w.reads) (side : Side) : r.spot side = .gone := by
  have blocked : ∀ {i side r}, w.advance i side = none → w.reads[i]? = some r →
      r.advance side = none := by
    intro i side r none found
    cases moved : r.advance side with
    | none => rfl
    | some r' => simp [Waiters.advance, found, moved] at none
  have runners : ∀ r ∈ w.reads, r.advance .runner = none := by
    intro r member
    obtain ⟨i, found⟩ := List.mem_iff_getElem?.mp member
    exact blocked (stuck (.run i)) found
  have fillers : ∀ r ∈ w.reads, r.filler = .gone := by
    by_contra some
    simp only [not_forall] at some
    obtain ⟨r, member, notGone⟩ := some
    have inside : w.reads.findIdx (fun r => r.filler ≠ .gone) < w.reads.length :=
      List.findIdx_lt_length_of_exists ⟨r, member, by simpa using notGone⟩
    have first := of_decide_eq_true (List.findIdx_getElem (w := inside))
    have filling := stuck .fill
    simp only [Waiters.step, taken, if_true] at filling
    have idle := blocked filling (List.getElem?_eq_getElem inside)
    rcases (ok _ (List.getElem_mem inside)).stuck idle with gone | awake
    · exact first gone
    · exact awake (runners _ (List.getElem_mem inside))
  cases side with
  | filler => exact fillers r member
  | runner =>
      have out : r.advance .filler = none := by simp [Pending.advance, Pending.spot, fillers r member]
      exact ((ok r member).stuck (runners r member)).resolve_right fun awake => awake out

end Waiters

/-- However the threads that run the reads and the thread of the fetch take turns, no read
notifies its parent twice, and none is freed twice. Once the reads are taken, no more than
ten statements for each read follow, and where none can follow, every read has notified its
parent and is freed; its mutex was given up after it was freed, once for every read. -/
theorem pending_reads_end_once {turns : List Turn} {w : Waiters}
    (ran : run Waiters.step .start turns = some w) :
    (∀ r ∈ w.reads, r.notified ≤ 1 ∧ r.cell.frees ≤ 1 ∧ r.cell.torn ≤ r.cell.frees) ∧
      (w.taken = true →
        (∀ more w', run Waiters.step w more = some w' → more.length ≤ 10 * w.reads.length) ∧
          ((∀ turn, w.step turn = none) →
            ∀ r ∈ w.reads, r.notified = 1 ∧ r.cell.frees = 1 ∧ r.cell.torn = 1)) := by
  have ok : w.Ok := invariant_run (fun _ _ _ ok stepped => Waiters.Ok.step ok stepped)
    (by intro r member; cases member) ran
  refine ⟨fun r member => (ok r member).once, fun taken => ⟨?_, ?_⟩⟩
  · intro more w' later
    have bound := run_length_le (fun w _ w' (kept : w.Ok ∧ w.taken = true) stepped =>
      have lower := kept.1.step_left kept.2 stepped
      (⟨⟨kept.1.step stepped, lower.1⟩, lower.2⟩ :
        (w'.Ok ∧ w'.taken = true) ∧ w'.left < w.left)) ⟨ok, taken⟩ later
    exact bound.trans ok.left_le
  · intro stuck r member
    exact (ok r member).ended fun side => ok.all_gone taken stuck member side

def twoReads : List Turn := List.flatten
  [[.arrive, .arrive], .replicate 4 (.run 0), [.take], .replicate 9 .fill, .replicate 5 (.run 1)]

theorem pending_reads_end_once_two : ∃ w : Waiters,
    run Waiters.step .start twoReads = some w ∧ w.reads.length = 2 ∧
      ∀ r ∈ w.reads, r.notified = 1 ∧ r.cell.frees = 1 ∧ r.cell.torn = 1 := by
  let ended : Pending := ⟨⟨0, 1, 1⟩, none, true, true, 1, .gone, .gone⟩
  have ran : run Waiters.step .start twoReads = some ⟨[ended, ended], true⟩ := rfl
  refine ⟨_, ran, rfl, ((pending_reads_end_once ran).2 rfl).2 ?_⟩
  intro turn
  cases turn with
  | arrive | take | fill => rfl
  | run i => rcases i with _ | _ | _ <;> rfl

end LsvdRbd.Cache
