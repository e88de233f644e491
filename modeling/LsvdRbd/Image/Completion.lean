import LsvdRbd.Cache.Steps
import LsvdRbd.Journal.Requests
import LsvdRbd.Lib.Countdown
import LsvdRbd.Lib.Ledger

/-!
# Completion of requests

A `read_request` or `write_request` makes its sub-requests, sets a counter to their
number and then starts them one after the other. Each notifies its parent once, in any
order and also while others have still to be started; the one that takes the counter
down gives the room back and invokes the callback.
-/

namespace LsvdRbd.Image

open Countdown Journal Ledger Machine

set_option autoImplicit false

/-! ## Sub-requests -/

inductive Io
  | made
  | running
  | done
deriving DecidableEq

/-- A sub-request: a `wcache_write_req` with `reqs`, the write of a pad if it has one and
that of the data; a `cache_hit_request`; a `cache_miss_request`, whose operation is first
the backend read and then the fill; a `pending_read_request`, which waits for its parent
and for the read of another request. -/
inductive Sub
  | write (reqs : ℤ) (pad : Option Io) (data : Io)
  | hit (store : Io)
  | miss (backendDone : Bool) (io : Io)
  | pending (hasParent backendDone : Bool)
deriving DecidableEq

def Sub.wcache (pad : Bool) : Sub :=
  if pad then .write 2 (some .made) .made else .write 1 none .made

/-- The request that `make_read_req` returns; a read that it has served has none. -/
def Sub.ofReq {β : Type*} : Cache.Req β → Option Sub
  | .hit _ _ _ => some (.hit .made)
  | .miss _ _ _ _ => some (.miss false .made)
  | .pending _ _ _ _ => some (.pending false false)
  | .direct _ | .insert _ _ _ _ => none

inductive Which
  | pad
  | main

namespace Sub

/-- The next statement of `run`: what it leaves, whether `run` goes on after it, and
whether it notifies the parent. -/
def launch : Sub → Option (Sub × Bool × Bool)
  | write reqs (some .made) data => some (write reqs (some .running) data, true, false)
  | write reqs pad .made => some (write reqs pad .running, false, false)
  | hit .made => some (hit .running, false, false)
  | miss false .made => some (miss false .running, false, false)
  | pending false done => some (pending true done, false, done)
  | _ => none

/-- A completion: `notify` of the sub-request, or `on_backend_done`. What it leaves, and
whether it notifies the parent. -/
def complete : Which → Sub → Option (Sub × Bool)
  | .pad, write reqs (some .running) data =>
      some (write (reqs - 1) (some .done) data, !decide (0 < reqs - 1))
  | .main, write reqs pad .running => some (write (reqs - 1) pad .done, !decide (0 < reqs - 1))
  | .main, hit .running => some (hit .done, true)
  | .main, miss false .running => some (miss true .running, true)
  | .main, miss true .running => some (miss true .done, false)
  | .main, pending hasParent false => some (pending hasParent true, hasParent)
  | _, _ => none

def notified : Sub → Bool
  | write reqs _ _ => decide (reqs ≤ 0)
  | hit store => decide (store = .done)
  | miss backendDone _ => backendDone
  | pending hasParent backendDone => hasParent && backendDone

/-- `reqs` is the number of writes that have not completed and the pad is written first;
the fill of a miss is started by the completion of its backend read. -/
def Ok : Sub → Prop
  | write reqs pad data =>
      reqs = (if pad = none ∨ pad = some .done then 0 else 1) + (if data = .done then 0 else 1) ∧
        (pad = some .made → data = .made)
  | miss backendDone io => io ≠ if backendDone then .made else .done
  | _ => True

def work : Sub → ℕ
  | write reqs pad data => pad.elim 0 ioWork + ioWork data + if reqs ≤ 0 then 0 else 3
  | hit store => ioWork store + if store = .done then 0 else 3
  | miss backendDone io => ioWork io + if backendDone then 0 else 4
  | pending hasParent backendDone =>
      (if hasParent then 0 else 1) + (if backendDone then 0 else 1) +
        if hasParent && backendDone then 0 else 3
where
  ioWork : Io → ℕ
    | .made => 2
    | .running => 1
    | .done => 0

instance : (sub : Sub) → Decidable sub.Ok
  | write _ _ _ => inferInstanceAs (Decidable (_ ∧ _))
  | hit _ => .isTrue trivial
  | miss _ _ => inferInstanceAs (Decidable (_ ≠ _))
  | pending _ _ => .isTrue trivial

structure Fresh (sub : Sub) : Prop where
  ok : sub.Ok
  unnotified : sub.notified = false
  unlaunched : sub.launch.isSome = true

theorem wcache_fresh (pad : Bool) : (wcache pad).Fresh := by
  cases pad with
  | false => exact ⟨by decide, rfl, rfl⟩
  | true => exact ⟨by decide, rfl, rfl⟩

theorem of_req_fresh {β : Type*} {r : Cache.Req β} {sub : Sub} (made : ofReq r = some sub) :
    sub.Fresh := by
  cases r with
  | hit c r phase => exact Option.some.inj made ▸ ⟨trivial, rfl, rfl⟩
  | miss c r buf phase => exact Option.some.inj made ▸ ⟨by decide, rfl, rfl⟩
  | pending c r running done => exact Option.some.inj made ▸ ⟨trivial, rfl, rfl⟩
  | direct r => cases made
  | insert c key buf phase => cases made

theorem of_req_is_some {β : Type*} {r : Cache.Req β} (read : r.read.isSome = true) :
    (ofReq r).isSome = !r.isDirect := by
  cases r with
  | insert c key buf phase => cases read
  | _ => rfl

/-- What a statement of `run` leaves: the parent is notified at most once, `run` goes on
if something is left to start, and less is to come. -/
theorem launch_spec {sub next : Sub} {more notifies : Bool} (ok : sub.Ok)
    (launched : sub.launch = some (next, more, notifies)) :
    next.Ok ∧ next.notified.toNat = sub.notified.toNat + notifies.toNat ∧
      next.launch.isSome = more ∧ next.work + 3 * notifies.toNat < sub.work := by
  cases sub with
  | write reqs pad data =>
      -- `reqs` is known from the two operations, which leaves closed terms
      obtain ⟨rfl, first⟩ := ok
      rcases pad with none | ⟨_ | _ | _⟩ <;> cases data <;> first
        | (cases launched <;> decide)
        | cases first rfl
  | hit store => cases store <;> cases launched; decide
  | miss backendDone io => cases backendDone <;> cases io <;> cases launched; decide
  | pending hasParent backendDone =>
      cases hasParent <;> cases backendDone <;> cases launched <;> decide

theorem complete_spec {sub next : Sub} {which : Which} {notifies : Bool} (ok : sub.Ok)
    (completed : sub.complete which = some (next, notifies)) :
    next.Ok ∧ next.notified.toNat = sub.notified.toNat + notifies.toNat ∧
      next.launch.isSome = sub.launch.isSome ∧ next.work + 3 * notifies.toNat < sub.work := by
  cases sub with
  | write reqs pad data =>
      obtain ⟨rfl, first⟩ := ok
      cases which <;> rcases pad with none | ⟨_ | _ | _⟩ <;> cases data <;> first
        | (cases completed <;> decide)
        | cases first rfl
  | hit store => cases which <;> cases store <;> cases completed; decide
  | miss backendDone io =>
      cases which <;> cases backendDone <;> cases io <;> cases completed <;> decide
  | pending hasParent backendDone =>
      cases which <;> cases hasParent <;> cases backendDone <;> cases completed <;> decide

theorem notified_of_finished {sub : Sub} (ok : sub.Ok) (launched : sub.launch = none)
    (finished : ∀ which, sub.complete which = none) : sub.notified = true := by
  have pad := finished .pad
  have main := finished .main
  cases sub with
  | write reqs padIo data =>
      obtain ⟨rfl, -⟩ := ok
      rcases padIo with none | ⟨_ | _ | _⟩ <;> cases data <;>
        first | contradiction | rfl
  | hit store => cases store <;> first | contradiction | rfl
  | miss backendDone io =>
      cases backendDone <;> cases io <;> first | contradiction | rfl
  | pending hasParent backendDone =>
      cases hasParent <;> cases backendDone <;> first | contradiction | rfl

end Sub

/-! ## Requests -/

inductive Op
  | read
  | write
deriving DecidableEq

/-- A `read_request` or `write_request` once its sub-requests are made. -/
structure Aio where
  op : Op
  /-- How many sub-requests were made. -/
  made : ℕ
  /-- Those that `run` starts, and the one it is at. -/
  subs : List Sub
  next : ℕ
  /-- `num_subreqs` or `n_req`. -/
  gate : Gate
  /-- `run` has called `notify` itself. -/
  direct : Bool
  /-- The calls of `notify` that have not come to the counter yet. -/
  due : ℕ
  /-- What `release_room` gives back, and what the request has of `total_write_pages`. -/
  pages : ℤ
  held : ℤ
  released : ℕ
  calls : ℕ

/-- `wlog_chunk_bytes` in sectors, `max_write_pages`, and `backend_obj_bytes`. -/
structure Limits where
  maxSectors : ℕ
  maxPages : ℤ
  objBytes : ℕ

variable {β : Type*}

/-- A part of a read for which the cache is asked: the shard as it is then, which is one
that it can get into, and a range within a chunk, as `handle_reads` makes it. -/
structure Lookup (β : Type*) where
  shard : Cache.Shard β
  key : Cache.Key
  adjust : ℕ
  len : ℕ
  chunks : 0 < shard.size
  reached : ∃ events, run Cache.Shard.next (.start shard.size) events = some shard
  aligned : key.offset % Cache.chunkSize = 0
  inside : adjust + len ≤ Cache.chunkSize

inductive Slice (β : Type*)
  | memory
  | cached (lookup : Lookup β)

/-- What `handle_reads` adds for a part; it goes no further while `allocate_chunk` finds no
chunk. -/
def Slice.request : Slice β → Option (Option Sub)
  | memory => some none
  | cached l => (l.shard.next (.read l.key l.adjust l.len)).bind fun after =>
      after.reqs.getLast?.map Sub.ofReq

/-- A request: a read with the parts that `handle_reads` makes of it, or a write with the
log and the bytes in the current batch as each of its chunks finds them. -/
inductive Call (β : Type*)
  | read (slices : List (Slice β))
  | write (lba sectors : ℕ) (logs : ℕ → Wlog) (lens : ℕ → ℕ)

/-- `translate_impl::writev` does not fail its assertion: a batch without room is replaced
by an empty one, and what is appended ends before `local_buf_limit`. -/
def appends (objBytes len bytes : ℕ) : Bool :=
  let len := if len + bytes ≤ objBytes then len else 0
  decide (len + bytes ≤ objBytes)

def placed (objBytes : ℕ) (logs : ℕ → Wlog) (lens : ℕ → ℕ) (c : (ℕ × ℕ) × ℕ) : Option Sub :=
  ((logs c.2).writev c.1.1 (512 * c.1.2)).toOption.bind fun (recs, _) =>
    if appends objBytes (lens c.2) (512 * c.1.2) then some (Sub.wcache (decide (1 < recs.length)))
    else none

/-- `run` up to the point where it starts the sub-requests. A write does not get there if
`reserve_room` waits for more than there is; a division by zero and a failed assertion end
the program. -/
def Call.start (lim : Limits) : Call β → Option Aio
  | read slices => (slices.mapM Slice.request).map fun made =>
      let subs := made.filterMap id
      let numSubreqs := toInt subs.length
      if numSubreqs = 0 then ⟨.read, subs.length, [], 0, ⟨numSubreqs, 0⟩, true, 1, 0, 0, 0, 0⟩
      else ⟨.read, subs.length, subs, 0, ⟨numSubreqs, 0⟩, false, 0, 0, 0, 0, 0⟩
  | write lba sectors logs lens =>
      if toInt lim.maxSectors ≠ 0 ∧ roomPages sectors ≤ lim.maxPages then
        ((chunks lim.maxSectors lba sectors).zipIdx.mapM (placed lim.objBytes logs lens)).map
          fun subs => ⟨.write, subs.length, subs, 0, ⟨divRoundUpInt sectors lim.maxSectors, 0⟩, false,
            0, roomPages sectors, roomPages sectors, 0, 0⟩
      else none

namespace Aio

def ready (s : Aio) : ℕ :=
  match s.op with
  | .read => s.gate.passed
  | .write => s.released

def issued (s : Aio) : ℕ := s.subs.countP Sub.notified + s.direct.toNat

def advance (i : ℕ) (sub : Sub) (notifies : Bool) (s : Aio) : Aio :=
  { s with subs := s.subs.set i sub, due := s.due + notifies.toNat }

def work (s : Aio) : ℕ :=
  (s.subs.map Sub.work).sum + 3 * s.due + (s.gate.passed - s.released) +
    (s.gate.passed - s.calls)

end Aio

/-- What can happen next: `run` starts something, an operation completes, a call of
`notify` takes one off the counter, and the one that goes on releases the room and
invokes the callback. -/
inductive Event
  | launch
  | complete (i : ℕ) (which : Which)
  | notify
  | release
  | call

def step (s : Aio) : Event → Option Aio
  | .launch => s.subs[s.next]?.bind fun sub => sub.launch.map fun (sub, more, notifies) =>
      { s.advance s.next sub notifies with next := if more then s.next else s.next + 1 }
  | .complete i which => s.subs[i]?.bind fun sub => (sub.complete which).map fun (sub, notifies) =>
      s.advance i sub notifies
  | .notify =>
      if 0 < s.due then some { s with due := s.due - 1, gate := s.gate.arrive } else none
  | .release =>
      if s.op = .write ∧ s.released < s.gate.passed then
        some { s with released := s.released + 1, held := s.held - s.pages }
      else none
  | .call => if s.calls < s.ready then some { s with calls := s.calls + 1 } else none

def Aio.Stuck (s : Aio) : Prop := ∀ event, step s event = none

/-- The callback is invoked once and the room is given back once, both after the last
sub-request has completed, in whatever order things happen. -/
structure Aio.CompletesOnce (s : Aio) : Prop where
  ends : ∃ bound, ∀ events t, run step s events = some t → events.length ≤ bound
  comes : ∀ events t, run step s events = some t → t.Stuck →
    t.calls = 1 ∧ (s.op = .write → t.released = 1) ∧ t.held = 0
  once : ∀ events t, run step s events = some t → t.calls ≤ 1 ∧ t.released ≤ 1 ∧
    t.held = (if t.released = 0 then s.held else 0) ∧
    (0 < t.calls + t.released → t.subs.countP Sub.notified = s.made)

/-! ## What holds in every run -/

def Aio.frame (s : Aio) : Op × ℕ × ℕ × Bool × ℤ :=
  (s.op, s.made, s.subs.length, s.direct, s.pages)

/-- A request whose counter was set to `n`. -/
structure Aio.Inv (n : ℤ) (s : Aio) : Prop where
  ok : ∀ sub ∈ s.subs, sub.Ok
  started : ∀ i sub, s.subs[i]? = some sub → (sub.launch.isSome = true ↔ s.next ≤ i)
  due : s.due ≤ s.issued
  gate : s.gate = Gate.arrive^[s.issued - s.due] ⟨n, 0⟩
  released : s.released ≤ s.gate.passed
  calls : s.calls ≤ s.ready
  held : s.held = s.pages * (1 - s.released)

namespace Aio

variable {n : ℤ} {s t : Aio}

theorem passed_eq (inv : s.Inv n) :
    s.gate.passed = s.issued - s.due + 1 - (max n 1).toNat := by
  rw [inv.gate, Gate.arrive_iterate]

theorem ready_le (inv : s.Inv n) : s.ready ≤ s.gate.passed := by
  rw [ready]
  split
  · exact Nat.le_refl _
  · exact inv.released

/-- A step of a sub-request changes the number of calls under way, but not how many have
come to the counter. -/
theorem advance_spec {i : ℕ} {old new : Sub} {notifies : Bool} (inv : s.Inv n)
    (found : s.subs[i]? = some old)
    (notified : new.notified.toNat = old.notified.toNat + notifies.toNat)
    (lower : new.work + 3 * notifies.toNat < old.work) :
    (s.advance i new notifies).issued = s.issued + notifies.toNat ∧
      (s.advance i new notifies).issued - (s.advance i new notifies).due = s.issued - s.due ∧
      (s.advance i new notifies).work < s.work := by
  have count : ((s.subs.set i new).countP Sub.notified : ℤ) = _ := set_count found
  have sum : ((s.subs.set i new).map Sub.work).sum + _ = _ := set_sum found Sub.work
  have issued : (s.advance i new notifies).issued = s.issued + notifies.toNat := by
    rw [Aio.issued, Aio.issued, advance]
    dsimp only
    cases before : old.notified <;> cases after : new.notified <;> cases notifies <;>
      simp_all; omega
  have due := inv.due
  refine ⟨issued, ?_, ?_⟩
  · rw [issued]
    dsimp only [advance]
    omega
  · dsimp only [work, advance]
    omega

theorem Inv.advance {i : ℕ} (next : ℕ) {old new : Sub} {notifies : Bool} (inv : s.Inv n)
    (found : s.subs[i]? = some old) (ok : new.Ok)
    (notified : new.notified.toNat = old.notified.toNat + notifies.toNat)
    (lower : new.work + 3 * notifies.toNat < old.work)
    (started : ∀ j sub, (s.subs.set i new)[j]? = some sub →
      (sub.launch.isSome = true ↔ next ≤ j)) :
    Inv n { s.advance i new notifies with next := next } := by
  obtain ⟨issued, arrived, -⟩ := advance_spec inv found notified lower
  refine ⟨?_, started, ?_, ?_, inv.released, inv.calls, inv.held⟩
  · intro sub member
    rcases List.mem_or_eq_of_mem_set member with before | rfl
    · exact inv.ok sub before
    · exact ok
  · have due := inv.due
    show s.due + notifies.toNat ≤ (s.advance i new notifies).issued
    omega
  · exact inv.gate.trans (congrArg (fun k => Gate.arrive^[k] ⟨n, 0⟩) arrived.symm)

end Aio

open Aio

theorem step_keeps {n : ℤ} {s t : Aio} {event : Event} (inv : s.Inv n)
    (stepped : step s event = some t) : t.Inv n ∧ t.frame = s.frame ∧ t.work < s.work := by
  cases event with
  | launch =>
      obtain ⟨sub, found, mapped⟩ := Option.bind_eq_some_iff.mp stepped
      obtain ⟨⟨new, more, notifies⟩, launched, rfl⟩ := Option.map_eq_some_iff.mp mapped
      obtain ⟨ok, notified, left, lower⟩ :=
        Sub.launch_spec (inv.ok sub (List.mem_of_getElem? found)) launched
      refine ⟨inv.advance _ found ok notified lower ?_, ?_, ?_⟩
      · intro j other at_j
        rw [set_lookup found] at at_j
        have before := inv.started j
        by_cases here : j = s.next
        · rw [if_pos here] at at_j
          cases at_j
          rw [left, here]
          cases more with
          | false => simp
          | true => simp
        · rw [if_neg here] at at_j
          rw [before other at_j]
          cases more with
          | false =>
              simp only [Bool.false_eq_true, if_false]
              omega
          | true => simp
      · simp [frame, advance]
      · exact (advance_spec inv found notified lower).2.2
  | complete i which =>
      obtain ⟨sub, found, mapped⟩ := Option.bind_eq_some_iff.mp stepped
      obtain ⟨⟨new, notifies⟩, completed, rfl⟩ := Option.map_eq_some_iff.mp mapped
      obtain ⟨ok, notified, left, lower⟩ :=
        Sub.complete_spec (inv.ok sub (List.mem_of_getElem? found)) completed
      refine ⟨inv.advance s.next found ok notified lower ?_, ?_, ?_⟩
      · intro j other at_j
        rw [set_lookup found] at at_j
        by_cases here : j = i
        · rw [if_pos here] at at_j
          cases at_j
          rw [left, here]
          exact inv.started i sub found
        · rw [if_neg here] at at_j
          exact inv.started j other at_j
      · simp [frame, advance]
      · exact (advance_spec inv found notified lower).2.2
  | notify =>
      obtain ⟨under, result⟩ := Option.ite_none_right_eq_some.mp stepped
      cases result
      have due := inv.due
      have grows : s.gate.passed ≤ s.gate.arrive.passed ∧
          s.gate.arrive.passed ≤ s.gate.passed + 1 := by
        dsimp only [Gate.arrive]
        split
        · omega
        · omega
      have released := inv.released
      have calls := Nat.le_trans inv.calls (ready_le inv)
      refine ⟨⟨inv.ok, inv.started, ?_, ?_, ?_, ?_, inv.held⟩, rfl, ?_⟩
      · show s.due - 1 ≤ s.issued
        omega
      · show s.gate.arrive = Gate.arrive^[s.issued - (s.due - 1)] ⟨n, 0⟩
        rw [show s.issued - (s.due - 1) = s.issued - s.due + 1 by omega,
          Function.iterate_succ_apply', ← inv.gate]
      · exact released.trans grows.1
      · refine inv.calls.trans ?_
        unfold ready
        dsimp only
        split
        · exact grows.1
        · exact Nat.le_refl _
      · dsimp only [work]
        omega
  | release =>
      obtain ⟨⟨isWrite, under⟩, result⟩ := Option.ite_none_right_eq_some.mp stepped
      cases result
      refine ⟨⟨inv.ok, inv.started, inv.due, inv.gate, under, ?_, ?_⟩, rfl, ?_⟩
      · have calls := inv.calls
        unfold ready at calls ⊢
        rw [isWrite] at calls
        rw [isWrite]
        exact Nat.le_succ_of_le calls
      · rw [inv.held]
        push_cast
        ring
      · dsimp only [work]
        omega
  | call =>
      obtain ⟨under, result⟩ := Option.ite_none_right_eq_some.mp stepped
      cases result
      have ready := ready_le inv
      refine ⟨⟨inv.ok, inv.started, inv.due, inv.gate, inv.released, under, inv.held⟩, rfl, ?_⟩
      dsimp only [work]
      omega

theorem run_keeps {n : ℤ} {s t : Aio} {events : List Event} (inv : s.Inv n)
    (ran : run step s events = some t) : t.Inv n ∧ t.frame = s.frame := by
  have keeps : ∀ mid event next, mid.Inv n ∧ mid.frame = s.frame → step mid event = some next →
      next.Inv n ∧ next.frame = s.frame := by
    intro mid event next ⟨inv, same⟩ stepped
    obtain ⟨kept, unchanged, -⟩ := step_keeps inv stepped
    exact ⟨kept, unchanged.trans same⟩
  exact invariant_run keeps ⟨inv, rfl⟩ ran

namespace Aio

variable {n : ℤ} {s t : Aio}

def expected (s : Aio) : ℕ := s.subs.length + s.direct.toNat

theorem issued_le (s : Aio) : s.issued ≤ s.expected :=
  Nat.add_le_add_right List.countP_le_length _

/-- At the end every sub-request has notified the request and everything that passed the
counter has gone through. -/
theorem stuck_spec (inv : s.Inv n) (stuck : s.Stuck) :
    s.subs.countP Sub.notified = s.subs.length ∧
      s.gate.passed = s.expected + 1 - (max n 1).toNat ∧ s.calls = s.gate.passed ∧
      (s.op = .write → s.released = s.gate.passed) := by
  have finished : s.subs.countP Sub.notified = s.subs.length := by
    rw [List.countP_eq_length]
    intro sub member
    obtain ⟨i, found⟩ := List.mem_iff_getElem?.mp member
    refine Sub.notified_of_finished (inv.ok sub member) ?_ ?_
    · -- `run` is past the last sub-request
      have beyond : s.subs.length ≤ s.next := by
        by_contra inside
        have at_next := List.getElem?_eq_getElem (Nat.lt_of_not_le inside)
        have idle := stuck .launch
        have open_ := (inv.started s.next _ at_next).mpr (Nat.le_refl _)
        obtain ⟨result, launched⟩ := Option.isSome_iff_exists.mp open_
        simp [step, at_next, launched] at idle
      have inside := (List.getElem?_eq_some_iff.mp found).1
      have started := inv.started i sub found
      cases launched : sub.launch with
      | none => rfl
      | some result =>
          rw [launched] at started
          have := started.mp rfl
          omega
    · intro which
      have idle := stuck (.complete i which)
      simpa [step, found] using idle
  have none_due : s.due = 0 := by
    have idle := stuck .notify
    simpa [step] using idle
  have passed := passed_eq inv
  rw [issued, finished, none_due] at passed
  have released : s.op = .write → s.released = s.gate.passed := by
    intro isWrite
    have idle := stuck .release
    have below := inv.released
    simp only [step, isWrite, true_and, ite_eq_right_iff, reduceCtorEq, imp_false] at idle
    omega
  refine ⟨finished, passed, ?_, released⟩
  have idle := stuck .call
  have below := inv.calls
  simp only [step, ite_eq_right_iff, reduceCtorEq, imp_false] at idle
  have ready : s.ready = s.gate.passed := by
    unfold ready
    split
    · rfl
    · exact released (by assumption)
  omega

theorem expected_of_frame (same : t.frame = s.frame) :
    t.op = s.op ∧ t.pages = s.pages ∧ t.subs.length = s.subs.length ∧ t.expected = s.expected := by
  obtain ⟨op, -, length, direct, pages⟩ : t.op = s.op ∧ t.made = s.made ∧
      t.subs.length = s.subs.length ∧ t.direct = s.direct ∧ t.pages = s.pages := by
    simpa [frame] using same
  exact ⟨op, pages, length, by rw [expected, expected, length, direct]⟩

/-- Where as many notifications come as the counter was set to, only the last one passes
it, and by then every sub-request has sent its own. -/
theorem passed_le_one (inv : s.Inv n) (counted : s.expected = (max n 1).toNat) :
    s.gate.passed ≤ 1 ∧
      (0 < s.gate.passed → s.subs.countP Sub.notified = s.subs.length) := by
  have passed := passed_eq inv
  have bound := issued_le s
  refine ⟨by omega, ?_⟩
  intro through
  have all : s.issued = s.expected := by omega
  rw [issued, expected] at all
  omega

/-- A request completes once if its counter was set to the number of notifications and
every sub-request that was made is started. -/
theorem completes_once_iff (inv : s.Inv n) (fresh : s.released = 0)
    (roomless : s.op = .read → s.pages = 0) :
    s.CompletesOnce ↔ s.expected = (max n 1).toNat ∧ s.subs.length = s.made := by
  have keeps : ∀ mid event next, mid.Inv n → step mid event = some next →
      next.Inv n ∧ next.work < mid.work := by
    intro mid event next inv stepped
    obtain ⟨kept, -, lower⟩ := step_keeps inv stepped
    exact ⟨kept, lower⟩
  constructor
  · intro completes
    obtain ⟨events, t, ran, stuck⟩ := exists_stuck keeps inv
    obtain ⟨kept, same⟩ := run_keeps inv ran
    obtain ⟨-, -, length, expected⟩ := expected_of_frame same
    obtain ⟨finished, passed, calls, -⟩ := stuck_spec kept stuck
    have one := (completes.comes events t ran stuck).1
    have made := (completes.once events t ran).2.2.2 (by omega)
    exact ⟨by omega, by omega⟩
  · intro ⟨counted, made⟩
    have held : s.held = s.pages := by
      rw [inv.held, fresh]
      ring
    refine ⟨⟨s.work, fun events t ran => run_length_le keeps inv ran⟩, ?_, ?_⟩
    · intro events t ran stuck
      obtain ⟨kept, same⟩ := run_keeps inv ran
      obtain ⟨op, pages, length, expected⟩ := expected_of_frame same
      obtain ⟨-, passed, calls, released⟩ := stuck_spec kept stuck
      have one : t.gate.passed = 1 := by omega
      refine ⟨calls.trans one, fun isWrite => (released (op.trans isWrite)).trans one, ?_⟩
      rw [kept.held, pages]
      cases isWrite : s.op with
      | read => rw [roomless isWrite, zero_mul]
      | write =>
          rw [released (op.trans isWrite), one]
          ring
    · intro events t ran
      obtain ⟨kept, same⟩ := run_keeps inv ran
      obtain ⟨-, pages, length, expected⟩ := expected_of_frame same
      obtain ⟨atMost, through⟩ := passed_le_one kept (expected.trans counted)
      have calls := kept.calls.trans (ready_le kept)
      have released := kept.released
      refine ⟨calls.trans atMost, released.trans atMost, ?_, ?_⟩
      · rw [kept.held, pages, held]
        split
        next none => simp [none]
        next some =>
          rw [show t.released = 1 by omega]
          ring
      · intro either
        rw [through (by omega), length, made]

theorem start_inv (ok : ∀ sub ∈ s.subs, sub.Fresh) (next : s.next = 0)
    (gate : s.gate = ⟨n, 0⟩) (due : s.due = s.direct.toNat) (released : s.released = 0)
    (calls : s.calls = 0) (held : s.held = s.pages) : s.Inv n := by
  have none_notified : s.subs.countP Sub.notified = 0 := by
    rw [List.countP_eq_zero]
    intro sub member
    simp [(ok sub member).unnotified]
  have issued : s.issued = s.due := by rw [issued, none_notified, due, zero_add]
  refine ⟨fun sub member => (ok sub member).ok, ?_, issued.ge, ?_, ?_, ?_, ?_⟩
  · intro i sub found
    simp [(ok sub (List.mem_of_getElem? found)).unlaunched, next]
  · rw [issued, Nat.sub_self, gate]
    rfl
  · omega
  · omega
  · rw [held, released]
    ring

end Aio

/-! ## The requests that complete -/

def Slice.Answered : Slice β → Prop
  | memory => True
  | cached l => l.shard.map l.key = none →
      ∃ c < l.shard.size, (l.shard.entries c).refcount = 0

def Slice.asks : Slice β → Bool
  | memory => false
  | cached l => (l.shard.map l.key).all fun c => decide ((l.shard.entries c).status ≠ .filling)

instance : (slice : Slice β) → Decidable slice.Answered
  | .memory => .isTrue trivial
  | .cached _ => inferInstanceAs (Decidable (_ → _))

/-- A read needs answers of the cache and a number of sub-requests that is an `int`. A
write is not empty, its size and that of a chunk add up to an `int`, it takes no more room
than there is, a batch holds its largest chunk, and the log is in order at each. -/
def Call.Completes (lim : Limits) : Call β → Prop
  | read slices => (∀ slice ∈ slices, slice.Answered) ∧ slices.countP Slice.asks < 2 ^ 31
  | write _ sectors logs _ =>
      0 < lim.maxSectors ∧ 0 < sectors ∧ sectors + lim.maxSectors ≤ 2 ^ 31 ∧
        (sectors / 8 : ℕ) ≤ lim.maxPages ∧ 512 * min sectors lim.maxSectors ≤ lim.objBytes ∧
        ∀ i, i * lim.maxSectors < sectors →
          (logs i).base ≤ (logs i).nextAlloc ∧ (logs i).nextAlloc < (logs i).limit

theorem Slice.request_is_some_iff (slice : Slice β) :
    slice.request.isSome = true ↔ slice.Answered := by
  cases slice with
  | memory => exact ⟨fun _ => trivial, fun _ => rfl⟩
  | cached l =>
      obtain ⟨events, reached⟩ := l.reached
      rw [Slice.Answered,
        ← (Cache.Shard.run_timed l.chunks reached).read_returns_iff l.aligned l.inside, Slice.request]
      cases stepped : l.shard.next (.read l.key l.adjust l.len) with
      | none => rfl
      | some after =>
          obtain ⟨r, added, -, -⟩ := Cache.Shard.read_adds stepped
          simp [added]

theorem Slice.request_spec {slice : Slice β} {made : Option Sub}
    (requested : slice.request = some made) :
    (∀ sub ∈ made, sub.Fresh) ∧ made.isSome = slice.asks := by
  cases slice with
  | memory =>
      cases requested
      exact ⟨by simp, rfl⟩
  | cached l =>
      obtain ⟨after, stepped, last⟩ := Option.bind_eq_some_iff.mp requested
      obtain ⟨r, added, read, direct⟩ := Cache.Shard.read_adds stepped
      rw [added, List.getLast?_concat] at last
      cases last
      refine ⟨fun sub => Sub.of_req_fresh, ?_⟩
      rw [Sub.of_req_is_some read, Slice.asks]
      cases mapped : l.shard.map l.key with
      | none => simpa [mapped] using direct
      | some c =>
          rw [mapped] at direct
          by_cases filling : (l.shard.entries c).status = .filling
          · simp [filling, direct.mpr ⟨c, rfl, filling⟩]
          · have other : r.isDirect = false := by
              rw [Bool.eq_false_iff]
              rintro isDirect
              obtain ⟨_, ⟨⟩, isFilling⟩ := direct.mp isDirect
              exact filling isFilling
            simp [filling, other]

theorem requests_spec {slices : List (Slice β)} {made : List (Option Sub)}
    (requested : slices.mapM Slice.request = some made) :
    (∀ sub ∈ made.filterMap id, sub.Fresh) ∧
      (made.filterMap id).length = slices.countP Slice.asks := by
  have each := map_m_eq_some_iff.mp requested
  clear requested
  induction each with
  | nil => exact ⟨by simp, rfl⟩
  | @cons slice sub _ _ first _ ih =>
      obtain ⟨fresh, asks⟩ := Slice.request_spec first
      rw [List.countP_cons, ← asks, ← ih.2]
      cases sub with
      | none => exact ⟨ih.1, rfl⟩
      | some sub => exact ⟨List.forall_mem_cons.mpr ⟨fresh sub rfl, ih.1⟩, rfl⟩

theorem appends_iff {objBytes len bytes : ℕ} :
    appends objBytes len bytes = true ↔ bytes ≤ objBytes := by
  simp only [appends, decide_eq_true_eq]
  split <;> omega

variable {logs : ℕ → Wlog} {lens : ℕ → ℕ} {c : (ℕ × ℕ) × ℕ}

/-- The assertions of `allocate` for the record of a chunk, and that of `writev`. -/
theorem placed_is_some_iff {objBytes : ℕ} (small : 512 * c.1.2 + 4096 < 2 ^ 31) :
    (placed objBytes logs lens c).isSome = true ↔
      ((logs c.2).base ≤ (logs c.2).nextAlloc ∧ (logs c.2).nextAlloc < (logs c.2).limit) ∧
        512 * c.1.2 ≤ objBytes := by
  have positive : 1 ≤ divRoundUpInt (512 * c.1.2 : ℕ) 4096 + 1 := by
    rw [div_round_up_int_eq (by omega) (by omega) (by omega)]
    omega
  rw [placed, Wlog.writev]
  dsimp only [Wlog.allocate]
  rw [if_neg (by omega)]
  split
  next outside =>
    simp only [Except.map, Except.toOption, Option.bind_none, Option.isSome_none,
      Bool.false_eq_true, false_iff]
    exact fun allowed => outside allowed.1
  next inside =>
    rw [and_iff_right (not_not.mp inside), ← @appends_iff _ (lens c.2)]
    split <;> simp only [Except.map, Except.toOption, Option.bind_some] <;> split <;> simp_all

theorem placed_fresh {objBytes : ℕ} {sub : Sub} (made : placed objBytes logs lens c = some sub) :
    sub.Fresh := by
  obtain ⟨records, -, appended⟩ := Option.bind_eq_some_iff.mp made
  obtain ⟨-, result⟩ := Option.ite_none_right_eq_some.mp appended
  exact Option.some.inj result ▸ Sub.wcache_fresh _

/-- The counter is set to the number of the chunks, if there are any, unless the sum of
`div_round_up` overflows. -/
theorem counter_eq_iff {unit lba sectors : ℕ} (positive : 0 < unit)
    (small : 512 * unit + 4096 < 2 ^ 31) :
    max (divRoundUpInt sectors unit) 1 = (chunks unit lba sectors).length ↔
      0 < sectors ∧ sectors + unit ≤ 2 ^ 31 := by
  have exact_max : toInt unit = unit := to_int_of_range (by omega) (by omega)
  have length : (chunks unit lba sectors).length = Format.divRoundUp sectors unit := by
    rw [chunks, List.length_map, List.length_range]
  rw [length]
  rcases Nat.eq_zero_or_pos sectors with rfl | nonempty
  · rw [show Format.divRoundUp 0 unit = 0 from Nat.div_eq_of_lt (by omega)]
    omega
  rw [div_round_up_of_pos nonempty positive]
  -- `k` chunks are full before the last one
  obtain ⟨k, product, full, rest⟩ : ∃ k : ℕ, (sectors - 1) / unit = k ∧ k * unit < sectors ∧
      sectors ≤ k * unit + unit := by
    have low := Nat.div_mul_le_self (sectors - 1) unit
    have high := Nat.lt_div_mul_add (a := sectors - 1) positive
    exact ⟨_, rfl, by omega, by omega⟩
  have counted := to_int_natCast sectors
  have filled : ((k * unit : ℕ) : ℤ) = k * unit := Nat.cast_mul k unit
  have reached : (k : ℤ) + 1 ≤ divRoundUpInt sectors unit ↔ _ :=
    succ_le_div_round_up_int_iff (by omega) (by omega)
  have passed : (k : ℤ) + 1 + 1 ≤ divRoundUpInt sectors unit ↔ _ :=
    succ_le_div_round_up_int_iff (by omega) (by omega)
  rw [exact_max] at reached passed
  rw [add_mul, one_mul] at passed
  have single : k = 0 → k * unit = 0 := by
    rintro rfl
    exact Nat.zero_mul unit
  rw [product, Nat.cast_add_one]
  constructor
  · intro same
    refine ⟨nonempty, Nat.le_of_not_lt fun beyond => ?_⟩
    have many : k ≠ 0 := fun none => by
      have := single none
      omega
    have enough : (k : ℤ) + 1 ≤ divRoundUpInt sectors unit := by omega
    obtain ⟨-, above, sum⟩ := (reached.mp enough).resolve_right (by omega)
    have over_range : (2 : ℤ) ^ 31 < sectors + unit := by exact_mod_cast beyond
    rcases counted with ⟨exact_count, -⟩ | ⟨wrapped, -⟩
    · rw [exact_count] at sum
      exact absurd sum (not_le.mpr over_range)
    · have bounded : (unit : ℤ) < 2 ^ 32 := by omega
      linarith
  · rintro ⟨-, inRange⟩
    have low := reached.mpr (by omega)
    have high := mt passed.mp (by omega)
    omega

theorem mem_chunks_iff {unit lba size : ℕ} :
    c ∈ (chunks unit lba size).zipIdx ↔
      c.2 < Format.divRoundUp size unit ∧ c.1 = (lba + c.2 * unit, min (size - c.2 * unit) unit) := by
  rw [List.mem_zipIdx_iff_getElem?, chunks, List.getElem?_map, Option.map_eq_some_iff]
  simp only [List.getElem?_eq_some_iff, List.getElem_range, List.length_range]
  constructor
  · rintro ⟨_, ⟨inside, rfl⟩, same⟩
    exact ⟨inside, same.symm⟩
  · rintro ⟨inside, same⟩
    exact ⟨c.2, ⟨inside, rfl⟩, same.symm⟩

/-- Every chunk is placed if the first one, which is the largest, fits a batch and the log
is in order at each. -/
theorem all_placed_iff {unit lba sectors objBytes : ℕ} (positive : 0 < unit)
    (small : 512 * unit + 4096 < 2 ^ 31) (nonempty : 0 < sectors) :
    (∃ subs, (chunks unit lba sectors).zipIdx.mapM (placed objBytes logs lens) = some subs) ↔
      512 * min sectors unit ≤ objBytes ∧ ∀ i, i * unit < sectors →
        (logs i).base ≤ (logs i).nextAlloc ∧ (logs i).nextAlloc < (logs i).limit := by
  rw [exists_map_m_iff]
  constructor
  · intro every
    have at_chunk : ∀ i, i * unit < sectors →
        ((logs i).base ≤ (logs i).nextAlloc ∧ (logs i).nextAlloc < (logs i).limit) ∧
          512 * min (sectors - i * unit) unit ≤ objBytes := by
      intro i inside
      have member : ((lba + i * unit, min (sectors - i * unit) unit), i) ∈
          (chunks unit lba sectors).zipIdx :=
        mem_chunks_iff.mpr ⟨(lt_div_round_up_iff positive).mpr inside, rfl⟩
      exact (placed_is_some_iff (by dsimp only; omega)).mp (every _ member)
    refine ⟨?_, fun i inside => (at_chunk i inside).1⟩
    simpa using (at_chunk 0 (by omega)).2
  · rintro ⟨fits, inOrder⟩ ⟨c, i⟩ member
    obtain ⟨inside, same⟩ := mem_chunks_iff.mp member
    have sized : c.2 = min (sectors - i * unit) unit := congrArg Prod.snd same
    refine (placed_is_some_iff (by dsimp only; omega)).mpr ⟨?_, ?_⟩
    · exact inOrder i ((lt_div_round_up_iff positive).mp inside)
    · dsimp only
      omega

theorem counted_iff (lim : Limits) {lba sectors : ℕ}
    {subs : List Sub}
    (made : (chunks lim.maxSectors lba sectors).zipIdx.mapM (placed lim.objBytes logs lens) =
      some subs) :
    (⟨.write, subs.length, subs, 0, ⟨divRoundUpInt sectors lim.maxSectors, 0⟩, false, 0,
        roomPages sectors, roomPages sectors, 0, 0⟩ : Aio).CompletesOnce ↔
      max (divRoundUpInt sectors lim.maxSectors) 1 =
        (chunks lim.maxSectors lba sectors).length := by
  have each := map_m_eq_some_iff.mp made
  have fresh : ∀ sub ∈ subs, sub.Fresh := by
    intro sub member
    obtain ⟨i, inside, rfl⟩ := List.getElem_of_mem member
    exact placed_fresh (each.get (each.length_eq ▸ inside) inside)
  have length := each.length_eq
  rw [List.length_zipIdx] at length
  rw [completes_once_iff (start_inv fresh rfl rfl rfl rfl rfl rfl) rfl
    fun isRead => Op.noConfusion isRead]
  simp only [expected, Bool.toNat_false, add_zero, and_true]
  omega

theorem write_completes_iff {lim : Limits} {lba sectors : ℕ}
    (small : 512 * lim.maxSectors + 4096 < 2 ^ 31) :
    (∃ s, (Call.write (β := β) lba sectors logs lens).start lim = some s ∧ s.CompletesOnce) ↔
      (Call.write (β := β) lba sectors logs lens).Completes lim := by
  have exact_max : toInt lim.maxSectors = lim.maxSectors :=
    to_int_of_range (by omega) (by omega)
  have split : (∃ s, (Call.write (β := β) lba sectors logs lens).start lim = some s ∧
      s.CompletesOnce) ↔ (toInt lim.maxSectors ≠ 0 ∧ roomPages sectors ≤ lim.maxPages) ∧
        (∃ subs, (chunks lim.maxSectors lba sectors).zipIdx.mapM (placed lim.objBytes logs lens) =
          some subs) ∧
        max (divRoundUpInt sectors lim.maxSectors) 1 =
          (chunks lim.maxSectors lba sectors).length := by
    rw [Call.start]
    split
    next reserved =>
      rw [and_iff_right reserved]
      constructor
      · rintro ⟨s, started, completes⟩
        obtain ⟨subs, made, rfl⟩ := Option.map_eq_some_iff.mp started
        exact ⟨⟨subs, made⟩, (counted_iff lim made).mp completes⟩
      · rintro ⟨⟨subs, made⟩, counted⟩
        exact ⟨_, Option.map_eq_some_iff.mpr ⟨subs, made, rfl⟩, (counted_iff lim made).mpr counted⟩
    next blocked => simp [blocked]
  rw [split, Call.Completes, exact_max]
  by_cases positive : 0 < lim.maxSectors
  · rw [counter_eq_iff positive small]
    by_cases counted : 0 < sectors ∧ sectors + lim.maxSectors ≤ 2 ^ 31
    · have pages : roomPages sectors = (sectors / 8 : ℕ) := to_int_of_range (by omega) (by omega)
      have divides : (lim.maxSectors : ℤ) ≠ 0 := by omega
      rw [all_placed_iff positive small counted.1, pages]
      constructor
      · rintro ⟨⟨-, room⟩, ⟨fits, inOrder⟩, -⟩
        exact ⟨positive, counted.1, counted.2, room, fits, inOrder⟩
      · rintro ⟨-, -, -, room, fits, inOrder⟩
        exact ⟨⟨divides, room⟩, ⟨fits, inOrder⟩, counted⟩
    · exact iff_of_false (fun completes => counted completes.2.2)
        fun completes => counted ⟨completes.2.1, completes.2.2.1⟩
  · have zero : lim.maxSectors = 0 := by omega
    simp [zero]

theorem read_completes_iff (lim : Limits) (slices : List (Slice β)) :
    (∃ s, (Call.read slices).start lim = some s ∧ s.CompletesOnce) ↔
      (Call.read slices).Completes lim := by
  rw [Call.Completes]
  simp only [← Slice.request_is_some_iff]
  rw [← exists_map_m_iff, Call.start]
  cases requested : slices.mapM Slice.request with
  | none => simp
  | some made =>
      obtain ⟨fresh, length⟩ := requests_spec requested
      have counter := to_int_natCast (made.filterMap id).length
      rw [← length]
      simp only [Option.map_some, Option.some.injEq, exists_eq_left', exists_eq', true_and]
      generalize made.filterMap id = subs at fresh counter ⊢
      split
      next none =>
        rw [none] at counter
        rw [completes_once_iff (start_inv (by simp) rfl rfl rfl rfl rfl rfl) rfl fun _ => rfl]
        simp only [expected, List.length_nil, Bool.toNat_true, none]
        omega
      next some =>
        rw [completes_once_iff (start_inv fresh rfl rfl rfl rfl rfl rfl) rfl fun _ => rfl]
        simp only [expected, Bool.toNat_false, add_zero, and_true]
        omega

/-- For chunks below 2 GiB, the requests that complete once whatever the order of their
operations. -/
theorem requests_complete_once (lim : Limits) (small : 512 * lim.maxSectors + 4096 < 2 ^ 31)
    (call : Call β) :
    (∃ s, call.start lim = some s ∧ s.CompletesOnce) ↔ call.Completes lim := by
  cases call with
  | read slices => exact read_completes_iff lim slices
  | write lba sectors logs lens => exact write_completes_iff small

def fetching (size : ℕ) : Option (Cache.Shard ℕ) :=
  run Cache.Shard.next (.start size) [.read ⟨"disk", 1, 0⟩ 0 512, .run 0]

def duringFetch (seq : ℕ) (shard : Cache.Shard ℕ) (fetches : fetching shard.size = some shard)
    (chunks : 0 < shard.size) : Lookup ℕ :=
  ⟨shard, ⟨"disk", seq, 0⟩, 0, 512, chunks, ⟨_, fetches⟩, rfl, by decide⟩

/-- A read of which one part is in memory, one waits for a chunk that is being fetched and
one is fetched, and a write of 20 sectors in chunks of 8 to a log of 9 pages, the last of
which does not fit before its end; the second starts a new batch. -/
theorem requests_complete_once_padded :
    (∃ s, (Call.read [.memory, .cached (duringFetch 1 ((fetching 2).get rfl) rfl (by decide)),
        .cached (duringFetch 2 ((fetching 2).get rfl) rfl (by decide))]).start ⟨8, 6, 8192⟩ = some s ∧
        s.CompletesOnce) ∧
      ∃ s, (Call.write 0 20 (fun i => ⟨5, 14, 1, 0, 9 + 2 * i⟩) fun i => 4096 * i : Call ℕ).start
        ⟨8, 6, 8192⟩ = some s ∧ s.CompletesOnce := by
  refine ⟨(requests_complete_once _ (by decide) _).mpr ⟨by decide +kernel, by decide +kernel⟩,
    (requests_complete_once _ (by decide) _).mpr ⟨by decide, by decide, by decide, by decide,
      by decide, ?_⟩⟩
  intro i inside
  dsimp only at inside ⊢
  omega

/-- A write of no sectors: nothing notifies the request, and nothing happens any more. A
chunk of 16 MiB does not fit a batch of 8 MiB; and a read of another object while the only
chunk is being fetched gets no further. -/
theorem empty_write_never_completes :
    (∃ s, (Call.write 0 0 (fun _ => ⟨5, 14, 1, 0, 5⟩) fun _ => 0 : Call ℕ).start
        ⟨4096, 600, 8388608⟩ = some s ∧ s.Stuck ∧ s.calls = 0) ∧
      (Call.write 0 32768 (fun _ => ⟨5, 9000, 1, 0, 5⟩) fun _ => 0 : Call ℕ).start
        ⟨32768, 6000, 8388608⟩ = none ∧
      (Call.read [.cached (duringFetch 2 ((fetching 1).get rfl) rfl (by decide))]).start
        ⟨4096, 600, 8388608⟩ = none := by
  refine ⟨⟨⟨.write, 0, [], 0, ⟨0, 0⟩, false, 0, 0, 0, 0, 0⟩, by rfl, ?_, rfl⟩,
    Option.isNone_iff_eq_none.mp (by decide +kernel), Option.isNone_iff_eq_none.mp (by decide +kernel)⟩
  intro event
  cases event with
  | launch => rfl
  | complete i which => rfl
  | notify => rfl
  | release => rfl
  | call => rfl

end LsvdRbd.Image
