import LsvdRbd.Session.Buffers

/-!
# The batch that is being filled

`writev`, `flush` and `checkpoint` queue the current batch and replace it under the
mutex `m`. The flush thread does the same in three steps without it: it tests that
the batch is not empty, pushes it on the queue, and replaces it. Here requests have
an identity, the worker and completions follow it, and the threads meet between any
two of these steps.
-/

namespace LsvdRbd.Session

open Records RunList ExtentMap Format Translate Recovery Machine

set_option autoImplicit false

variable {σ : Type*}

/-- A `translate_req` of kind `REQ_PUT`; they are numbered as they are allocated. -/
structure Cell (σ : Type*) where
  id : ℕ
  request : Request σ

inductive Queued
  | put (id : ℕ)
  | flush
  | other
  deriving DecidableEq

/-- Where `flush_thread` is: before its test, before the push, or before the
replacement. -/
inductive FlushThread
  | idle
  | tested
  | pushed
  deriving DecidableEq

/-- What one call of `append` has added: to which batch, at which place of its map
and of its data. -/
structure Appended (σ : Type*) where
  batch : ℕ
  index : ℕ
  offset : ℕ
  lba : ℕ
  data : List σ

def Appended.In (e : Appended σ) (r : Request σ) : Prop :=
  r.entries[e.index]? = some (.store e.lba e.data.length 0 0) ∧
    (r.data.drop e.offset).take e.data.length = e.data

variable {r : Request σ}

theorem Appended.In.append {e : Appended σ} (inside : e.In r) (lba : ℕ) (data : List σ) :
    e.In (r.append lba data) := by
  obtain ⟨entry, slice⟩ := inside
  have bound := (List.getElem?_eq_some_iff.mp entry).1
  refine ⟨?_, ?_⟩
  · rw [Request.append, List.getElem?_append_left bound]
    exact entry
  · have length := congrArg List.length slice
    rw [List.length_take, List.length_drop] at length
    simp only [Request.append]
    rw [List.drop_append, List.take_append_of_le_length (by rw [List.length_drop]; omega)]
    exact slice

structure Batches (σ : Type*) where
  /-- The requests that are not freed. -/
  heap : List (Cell σ)
  /-- The batch that `current` points to, the last one that was allocated. -/
  current : ℕ
  queue : List Queued
  /-- Each object of the worker, with what its request had at that time. -/
  dispatched : List (Cell σ)
  /-- The requests whose PUT is not done. -/
  inflight : List ℕ
  bufmap : Bufmap
  thread : FlushThread
  /-- What `writev` has appended so far. -/
  appended : List (Appended σ)

namespace Batches

variable (env : Env)

def deref (s : Batches σ) (id : ℕ) : Option (Request σ) :=
  (s.heap.find? fun c => decide (c.id = id)).map Cell.request

def push (s : Batches σ) : Batches σ := { s with queue := s.queue ++ [.put s.current] }

/-- `current = new translate_req`; the allocator gives a block that meets no other. -/
def replace (addr : ℤ) (s : Batches σ) : Option (Batches σ) :=
  if ∀ c ∈ s.heap, c.request.Clear env addr then
    some { s with heap := s.heap ++ [⟨s.current + 1, ⟨addr, [], []⟩⟩], current := s.current + 1 }
  else none

def append (lba : ℕ) (data : List σ) (s : Batches σ) : Option (Batches σ) :=
  (s.deref s.current).bind fun r =>
    if 0 < data.length ∧ r.room env data.length then
      some { s with
        heap := s.heap.map fun c => if c.id = s.current then ⟨c.id, r.append lba data⟩ else c
        bufmap := (s.bufmap.set lba (lba + data.length) ⟨r.tail⟩).1
        appended := s.appended ++ [⟨s.current, r.entries.length, r.data.length, lba, data⟩] }
    else none

def writev (lba : ℕ) (data : List σ) (addr : ℤ) (s : Batches σ) : Option (Batches σ) :=
  (s.deref s.current).bind fun r =>
    (if r.room env data.length then some s else s.push.replace env addr).bind (append env lba data)

/-- What `flush` and `checkpoint` do under the mutex. -/
def submit (item : Queued) (addr : ℤ) (s : Batches σ) : Option (Batches σ) :=
  (s.deref s.current).bind fun r =>
    (if r.data.length = 0 then some s else s.push.replace env addr).map fun s =>
      { s with queue := s.queue ++ [item] }

def work (s : Batches σ) : Option (Batches σ) :=
  match s.queue with
  | [] => none
  | .put id :: rest => (s.deref id).map fun r =>
      { s with
        queue := rest
        dispatched := s.dispatched ++ [⟨id, r⟩]
        inflight := s.inflight ++ [id] }
  | .flush :: rest => if s.inflight.length = 0 then some { s with queue := rest } else none
  | .other :: rest => some { s with queue := rest }

/-- `notify` reads the entries that the request has now, and frees it. -/
def complete (id : ℕ) (s : Batches σ) : Option (Batches σ) :=
  if id ∈ s.inflight then
    (s.deref id).map fun r =>
      { s with
        heap := s.heap.filter fun c => decide (c.id ≠ id)
        inflight := s.inflight.erase id
        bufmap := r.forget env s.bufmap }
  else none

def test (s : Batches σ) : Option (Batches σ) :=
  if s.thread = .idle then
    (s.deref s.current).map fun r =>
      { s with thread := if r.data.length = 0 then .idle else .tested }
  else none

def threadPush (s : Batches σ) : Option (Batches σ) :=
  if s.thread = .tested then some { s.push with thread := .pushed } else none

def threadReplace (addr : ℤ) (s : Batches σ) : Option (Batches σ) :=
  if s.thread = .pushed then (s.replace env addr).map fun s => { s with thread := .idle } else none

end Batches

inductive BatchAction (σ : Type*)
  | writev (lba : ℕ) (data : List σ) (addr : ℤ)
  | flush (addr : ℤ)
  | checkpoint (addr : ℤ)
  | gcSubmit
  | work
  | complete (id : ℕ)
  | threadTest
  | threadPush
  | threadReplace (addr : ℤ)

def Batches.step (env : Env) (s : Batches σ) : BatchAction σ → Option (Batches σ)
  | .writev lba data addr => s.writev env lba data addr
  | .flush addr => s.submit env .flush addr
  | .checkpoint addr => s.submit env .other addr
  | .gcSubmit => some { s with queue := s.queue ++ [.other] }
  | .work => s.work
  | .complete id => s.complete env id
  | .threadTest => s.test
  | .threadPush => s.threadPush
  | .threadReplace addr => s.threadReplace env addr

/-- Between the push and the replacement of the flush thread no host thread takes
the mutex; addresses are below `2^35`. -/
def HostWaits (s : Batches σ) : BatchAction σ → Prop
  | .writev lba data _ => s.thread ≠ .pushed ∧ lba + data.length ≤ 2 ^ 35
  | .flush _ | .checkpoint _ => s.thread ≠ .pushed
  | _ => True

instance (s : Batches σ) (a : BatchAction σ) : Decidable (HostWaits s a) := by
  cases a <;> unfold HostWaits <;> infer_instance

def BatchAction.writes : BatchAction σ → List (ℕ × List σ)
  | .writev lba data _ => [(lba, data)]
  | _ => []

namespace Batches

variable {env : Env} {s s' : Batches σ}

/-! ## Where every batch is -/

def heapIds (s : Batches σ) : List ℕ := s.heap.map Cell.id

def sentIds (s : Batches σ) : List ℕ := s.dispatched.map Cell.id

structure Ok (env : Env) (s : Batches σ) : Prop where
  buffered : Buffered env (s.heap.map Cell.request) s.bufmap
  ordered : s.heapIds.Pairwise (· < ·)
  known : ∀ id ∈ s.heapIds, id ≤ s.current
  freed : ∀ id ≤ s.current, id ∈ s.heapIds ∨ id ∈ s.sentIds
  sent : s.sentIds.Nodup
  sentKnown : ∀ id ∈ s.sentIds, id ≤ s.current
  frozen : ∀ c ∈ s.heap, ∀ d ∈ s.dispatched, c.id = d.id → c = d
  flying : s.inflight.Nodup ∧ ∀ id ∈ s.inflight, id ∈ s.sentIds
  queued : ∀ id, .put id ∈ s.queue → id ≤ s.current ∧ id ∉ s.sentIds ∧ s.queue.count (.put id) = 1
  waiting : ∀ id ≤ s.current, id ∈ s.sentIds ∨ .put id ∈ s.queue ∨
    (id = s.current ∧ s.thread ≠ .pushed)
  filled : s.thread ≠ .pushed → s.current ∉ s.sentIds ∧ .put s.current ∉ s.queue
  placed : ∀ e ∈ s.appended, e.batch ≤ s.current ∧
    ∀ c ∈ s.heap ++ s.dispatched, c.id = e.batch → e.In c.request

theorem Ok.unique (ok : s.Ok env) {c d : Cell σ} (inHeap : c ∈ s.heap) (alsoIn : d ∈ s.heap)
    (same : c.id = d.id) : c = d :=
  List.inj_on_of_nodup_map (ok.ordered.imp fun less => less.ne) inHeap alsoIn same

theorem Ok.deref_eq_some_iff (ok : s.Ok env) {id : ℕ} :
    s.deref id = some r ↔ ⟨id, r⟩ ∈ s.heap := by
  unfold deref
  constructor
  · intro found
    obtain ⟨c, search, rfl⟩ := Option.map_eq_some_iff.mp found
    have same : c.id = id := by simpa using List.find?_some search
    exact same ▸ List.mem_of_find?_eq_some search
  · intro member
    cases search : s.heap.find? fun c => decide (c.id = id) with
    | none =>
        have := List.find?_eq_none.mp search _ member
        simp at this
    | some c =>
        have same : c.id = id := by simpa using List.find?_some search
        rw [ok.unique (List.mem_of_find?_eq_some search) member same]
        rfl

theorem Ok.rethread (ok : s.Ok env) (free : s.thread ≠ .pushed) {thread : FlushThread}
    (stillFree : thread ≠ .pushed) : Ok env { s with thread := thread } := by
  refine ⟨ok.buffered, ok.ordered, ok.known, ok.freed, ok.sent, ok.sentKnown, ok.frozen, ok.flying,
    ok.queued, ?_, fun _ => ok.filled free, ok.placed⟩
  intro id bound
  exact (ok.waiting id bound).imp_right fun rest => rest.imp_right fun here => ⟨here.1, stillFree⟩

theorem Ok.enqueue (ok : s.Ok env) {item : Queued} (other : ∀ id, item ≠ .put id) :
    Ok env { s with queue := s.queue ++ [item] } := by
  have same : ∀ id, Queued.put id ∈ s.queue ++ [item] ↔ Queued.put id ∈ s.queue := by
    intro id
    rw [List.mem_append, List.mem_singleton]
    exact or_iff_left (Ne.symm (other id))
  refine ⟨ok.buffered, ok.ordered, ok.known, ok.freed, ok.sent, ok.sentKnown, ok.frozen, ok.flying,
    ?_, ?_, ?_, ok.placed⟩
  · intro id member
    obtain ⟨bound, unsent, once⟩ := ok.queued id ((same id).mp member)
    refine ⟨bound, unsent, ?_⟩
    rw [List.count_append, once, List.count_singleton, if_neg (by simpa using other id)]
  · intro id bound
    exact (ok.waiting id bound).imp_right fun rest => rest.imp_left (same id).mpr
  · intro free
    exact ⟨(ok.filled free).1, fun member => (ok.filled free).2 ((same _).mp member)⟩

/-! ## Rolling over -/

theorem Ok.push (ok : s.Ok env) (free : s.thread ≠ .pushed) :
    Ok env { s.push with thread := .pushed } := by
  obtain ⟨unsent, notQueued⟩ := ok.filled free
  refine ⟨ok.buffered, ok.ordered, ok.known, ok.freed, ok.sent, ok.sentKnown, ok.frozen, ok.flying,
    ?_, ?_, fun pushed => absurd rfl pushed, ok.placed⟩
  · intro id member
    change Queued.put id ∈ s.queue ++ [.put s.current] at member
    change _ ∧ _ ∧ (s.queue ++ [Queued.put s.current]).count (.put id) = 1
    rw [List.count_append]
    rcases List.mem_append.mp member with old | new
    · obtain ⟨bound, idUnsent, once⟩ := ok.queued id old
      have different : s.current ≠ id := by
        rintro rfl
        exact notQueued old
      exact ⟨bound, idUnsent, by rw [once, List.count_singleton, if_neg (by simpa using different)]⟩
    · obtain rfl : id = s.current := by simpa using new
      exact ⟨le_refl _, unsent, by rw [List.count_eq_zero.mpr notQueued]; simp⟩
  · intro id bound
    rcases ok.waiting id bound with sent | queued | ⟨rfl, -⟩
    · exact .inl sent
    · exact .inr (.inl (List.mem_append_left _ queued))
    · exact .inr (.inl (List.mem_append_right _ (List.mem_singleton_self _)))

theorem Ok.replace (ok : s.Ok env) (pushed : s.thread = .pushed) {addr : ℤ}
    (clear : ∀ c ∈ s.heap, c.request.Clear env addr) {thread : FlushThread}
    (free : thread ≠ .pushed) :
    Ok env { s with
      heap := s.heap ++ [⟨s.current + 1, ⟨addr, [], []⟩⟩]
      current := s.current + 1
      thread := thread } := by
  have ids : (s.heap ++ [(⟨s.current + 1, ⟨addr, [], []⟩⟩ : Cell σ)]).map Cell.id =
      s.heapIds ++ [s.current + 1] := by simp [heapIds]
  have newer : s.current + 1 ∉ s.sentIds := by
    intro sent
    have := ok.sentKnown _ sent
    omega
  refine ⟨?_, ?_, ?_, ?_, ok.sent, ?_, ?_, ok.flying, ?_, ?_, ?_, ?_⟩
  · simp only [List.map_append, List.map_singleton]
    refine ok.buffered.add ?_
    intro r member
    obtain ⟨c, inHeap, rfl⟩ := List.mem_map.mp member
    exact clear c inHeap
  · rw [heapIds, ids, List.pairwise_append]
    refine ⟨ok.ordered, List.pairwise_singleton _ _, ?_⟩
    intro id member last isLast
    rw [List.mem_singleton.mp isLast]
    exact Nat.lt_succ_of_le (ok.known id member)
  · intro id member
    rw [heapIds, ids, List.mem_append, List.mem_singleton] at member
    rcases member with old | rfl
    · exact Nat.le_succ_of_le (ok.known id old)
    · exact le_refl _
  · intro id bound
    rw [heapIds, ids, List.mem_append, List.mem_singleton]
    rcases Nat.le_succ_iff.mp bound with old | rfl
    · exact (ok.freed id old).imp_left .inl
    · exact .inl (.inr rfl)
  · exact fun id sent => Nat.le_succ_of_le (ok.sentKnown id sent)
  · intro c member d sent same
    rcases List.mem_append.mp member with old | new
    · exact ok.frozen c old d sent same
    · rw [List.mem_singleton.mp new] at same
      exact absurd (List.mem_map.mpr ⟨d, sent, same.symm⟩) newer
  · intro id member
    obtain ⟨bound, rest⟩ := ok.queued id member
    exact ⟨Nat.le_succ_of_le bound, rest⟩
  · intro id bound
    rcases Nat.le_succ_iff.mp bound with old | rfl
    · exact (ok.waiting id old).imp_right fun rest =>
        rest.imp_right fun here => absurd pushed here.2
    · exact .inr (.inr ⟨rfl, free⟩)
  · intro _
    refine ⟨newer, ?_⟩
    intro queued
    have : s.current + 1 ≤ s.current := (ok.queued _ queued).1
    omega
  · intro e member
    obtain ⟨bound, inside⟩ := ok.placed e member
    refine ⟨Nat.le_succ_of_le bound, ?_⟩
    intro c found same
    rw [List.append_assoc, List.mem_append, List.mem_append, List.mem_singleton] at found
    rcases found with old | rfl | sent
    · exact inside c (List.mem_append_left _ old) same
    · simp only at same
      omega
    · exact inside c (List.mem_append_right _ sent) same

theorem Ok.roll (ok : s.Ok env) (free : s.thread ≠ .pushed) {addr : ℤ}
    (done : s.push.replace env addr = some s') : s'.Ok env ∧ s'.thread = s.thread := by
  simp only [Batches.replace, Option.ite_none_right_eq_some, Option.some.injEq] at done
  obtain ⟨clear, rfl⟩ := done
  exact ⟨(ok.push free).replace rfl clear free, rfl⟩

/-! ## Appending -/

theorem Ok.append (ok : s.Ok env) (free : s.thread ≠ .pushed) {lba : ℕ} {data : List σ}
    (bound : lba + data.length ≤ 2 ^ 35) (done : s.append env lba data = some s') :
    s'.Ok env := by
  obtain ⟨r, found, done⟩ := Option.bind_eq_some_iff.mp done
  simp only [Option.ite_none_right_eq_some, Option.some.injEq] at done
  obtain ⟨⟨nonempty, room⟩, rfl⟩ := done
  have member := ok.deref_eq_some_iff.mp found
  obtain ⟨unsent, notQueued⟩ := ok.filled free
  -- the current batch was allocated last
  obtain ⟨front, back, split⟩ := List.append_of_mem member
  have ordered := ok.ordered
  rw [heapIds, split, List.map_append, List.map_cons, List.pairwise_append, List.pairwise_cons]
    at ordered
  obtain rfl : back = [] := by
    cases back with
    | nil => rfl
    | cons c rest =>
        have after : s.current < c.id := ordered.2.1.1 c.id (by simp)
        have := ok.known c.id (by rw [heapIds, split]; simp)
        omega
  have older : ∀ c ∈ front, c.id ≠ s.current := fun c inFront =>
    (ordered.2.2 c.id (List.mem_map_of_mem inFront) s.current (by simp)).ne
  have heap : (s.heap.map fun c => if c.id = s.current then ⟨c.id, r.append lba data⟩ else c) =
      front ++ [⟨s.current, r.append lba data⟩] := by
    rw [split, List.map_append, List.map_cons, List.map_nil, if_pos rfl]
    congr 1
    conv_rhs => rw [← List.map_id front]
    exact List.map_congr_left fun c inFront => if_neg (older c inFront)
  rw [heap]
  have ids : (front ++ [(⟨s.current, r.append lba data⟩ : Cell σ)]).map Cell.id = s.heapIds := by
    simp [heapIds, split]
  refine ⟨?_, ?_, ?_, ?_, ok.sent, ok.sentKnown, ?_, ok.flying, ok.queued, ok.waiting, ok.filled, ?_⟩
  · have buffered := ok.buffered
    rw [split, List.map_append] at buffered
    rw [List.map_append]
    exact (buffered.append nonempty room bound).1
  · rw [heapIds, ids]
    exact ok.ordered
  · rw [heapIds, ids]
    exact ok.known
  · rw [heapIds, ids]
    exact ok.freed
  · intro c inHeap d sent same
    rcases List.mem_append.mp inHeap with old | new
    · exact ok.frozen c (by rw [split]; exact List.mem_append_left _ old) d sent same
    · rw [List.mem_singleton.mp new] at same
      exact absurd (List.mem_map.mpr ⟨d, sent, same.symm⟩) unsent
  · intro e appended
    rcases List.mem_append.mp appended with old | new
    · obtain ⟨known, inside⟩ := ok.placed e old
      refine ⟨known, ?_⟩
      intro c inCells same
      rw [List.append_assoc, List.mem_append, List.mem_append, List.mem_singleton] at inCells
      rcases inCells with inFront | rfl | sent
      · exact inside c (by rw [split]; simp [inFront]) same
      · exact (inside _ (List.mem_append_left _ member) same).append lba data
      · exact inside c (List.mem_append_right _ sent) same
    · obtain rfl := List.mem_singleton.mp new
      refine ⟨le_refl _, ?_⟩
      intro c inCells same
      rw [List.append_assoc, List.mem_append, List.mem_append, List.mem_singleton] at inCells
      rcases inCells with inFront | rfl | sent
      · exact absurd same (older c inFront)
      · simp [Appended.In, Request.append]
      · exact absurd (List.mem_map.mpr ⟨c, sent, same⟩) unsent

/-! ## The worker and completions -/

theorem Ok.dequeue (ok : s.Ok env) {item : Queued} {rest : List Queued}
    (head : s.queue = item :: rest) (other : ∀ id, item ≠ .put id) :
    Ok env { s with queue := rest } := by
  have same : ∀ id, Queued.put id ∈ s.queue ↔ Queued.put id ∈ rest := by
    intro id
    rw [head, List.mem_cons]
    exact or_iff_right (Ne.symm (other id))
  refine ⟨ok.buffered, ok.ordered, ok.known, ok.freed, ok.sent, ok.sentKnown, ok.frozen, ok.flying,
    ?_, ?_, ?_, ok.placed⟩
  · intro id member
    obtain ⟨bound, unsent, once⟩ := ok.queued id ((same id).mpr member)
    rw [head, List.count_cons_of_ne (by simpa using other id)] at once
    exact ⟨bound, unsent, once⟩
  · intro id bound
    exact (ok.waiting id bound).imp_right fun rest => rest.imp_left (same id).mp
  · intro free
    exact ⟨(ok.filled free).1, fun member => (ok.filled free).2 ((same _).mpr member)⟩

theorem Ok.dispatch (ok : s.Ok env) {id : ℕ} {rest : List Queued} (head : s.queue = .put id :: rest)
    (found : s.deref id = some r) :
    Ok env { s with
      queue := rest
      dispatched := s.dispatched ++ [⟨id, r⟩]
      inflight := s.inflight ++ [id] } := by
  have member := ok.deref_eq_some_iff.mp found
  obtain ⟨known, unsent, once⟩ := ok.queued id (by rw [head]; exact List.mem_cons_self)
  have notLater : Queued.put id ∉ rest := by
    rw [head, List.count_cons_self] at once
    exact List.count_eq_zero.mp (by omega)
  have ids : (s.dispatched ++ [(⟨id, r⟩ : Cell σ)]).map Cell.id = s.sentIds ++ [id] := by
    simp [sentIds]
  have mem_sent : ∀ other, other ∈ s.sentIds ++ [id] ↔ other ∈ s.sentIds ∨ other = id := by
    intro other
    rw [List.mem_append, List.mem_singleton]
  refine ⟨ok.buffered, ok.ordered, ok.known, ?_, ?_, ?_, ?_, ?_, ?_, ?_, ?_, ?_⟩
  · intro other bound
    rw [sentIds, ids, mem_sent]
    exact (ok.freed other bound).imp_right .inl
  · rw [sentIds, ids, List.nodup_append]
    refine ⟨ok.sent, List.nodup_singleton id, ?_⟩
    intro other sent last isLast same
    rw [List.mem_singleton.mp isLast] at same
    exact unsent (same ▸ sent)
  · intro other sent
    rw [sentIds, ids, mem_sent] at sent
    rcases sent with old | rfl
    · exact ok.sentKnown other old
    · exact known
  · intro c inHeap d sent same
    rcases List.mem_append.mp sent with old | new
    · exact ok.frozen c inHeap d old same
    · rw [List.mem_singleton.mp new] at same ⊢
      exact ok.unique inHeap member same
  · constructor
    · rw [List.nodup_append]
      refine ⟨ok.flying.1, List.nodup_singleton id, ?_⟩
      intro other flying last isLast same
      rw [List.mem_singleton.mp isLast] at same
      exact unsent (same ▸ ok.flying.2 other flying)
    · intro other flying
      rw [sentIds, ids, mem_sent]
      rcases List.mem_append.mp flying with old | new
      · exact .inl (ok.flying.2 other old)
      · exact .inr (List.mem_singleton.mp new)
  · intro other queued
    have different : id ≠ other := by
      rintro rfl
      exact notLater queued
    obtain ⟨bound, otherUnsent, otherOnce⟩ :=
      ok.queued other (by rw [head]; exact List.mem_cons_of_mem _ queued)
    rw [head, List.count_cons_of_ne (by simpa using different)] at otherOnce
    refine ⟨bound, ?_, otherOnce⟩
    rw [sentIds, ids, mem_sent]
    rintro (sent | same)
    · exact otherUnsent sent
    · exact different same.symm
  · intro other bound
    rw [sentIds, ids, mem_sent]
    rcases ok.waiting other bound with sent | queued | here
    · exact .inl (.inl sent)
    · rw [head, List.mem_cons] at queued
      rcases queued with same | later
      · exact .inl (.inr (by simpa using same))
      · exact .inr (.inl later)
    · exact .inr (.inr here)
  · intro free
    obtain ⟨currentUnsent, notQueued⟩ := ok.filled free
    rw [head, List.mem_cons, not_or] at notQueued
    refine ⟨?_, notQueued.2⟩
    rw [sentIds, ids, mem_sent]
    rintro (sent | same)
    · exact currentUnsent sent
    · exact notQueued.1 (by rw [same])
  · intro e appended
    obtain ⟨bound, inside⟩ := ok.placed e appended
    refine ⟨bound, ?_⟩
    intro c inCells same
    rw [← List.append_assoc, List.mem_append, List.mem_singleton] at inCells
    rcases inCells with old | rfl
    · exact inside c old same
    · exact inside _ (List.mem_append_left _ member) same

theorem Ok.complete (ok : s.Ok env) {id : ℕ} (flying : id ∈ s.inflight)
    (found : s.deref id = some r) :
    Ok env { s with
      heap := s.heap.filter fun c => decide (c.id ≠ id)
      inflight := s.inflight.erase id
      bufmap := r.forget env s.bufmap } := by
  have member := ok.deref_eq_some_iff.mp found
  have sublist : (s.heap.filter fun c => decide (c.id ≠ id)).Sublist s.heap := List.filter_sublist
  refine ⟨?_, ok.ordered.sublist (sublist.map _), ?_, ?_, ok.sent, ok.sentKnown, ?_, ?_, ok.queued,
    ok.waiting, ok.filled, ?_⟩
  · refine ok.buffered.release (List.mem_map.mpr ⟨_, member, rfl⟩) (sublist.map _) ?_
    intro other inBuffers different
    obtain ⟨c, inHeap, rfl⟩ := List.mem_map.mp inBuffers
    refine List.mem_map.mpr ⟨c, List.mem_filter.mpr ⟨inHeap, decide_eq_true ?_⟩, rfl⟩
    intro same
    rw [ok.unique inHeap member same] at different
    exact different rfl
  · exact fun other inHeap => ok.known other ((sublist.map _).mem inHeap)
  · intro other bound
    rcases ok.freed other bound with inHeap | sent
    · obtain ⟨c, inCells, rfl⟩ := List.mem_map.mp inHeap
      by_cases same : c.id = id
      · rw [same]
        exact .inr (ok.flying.2 id flying)
      · exact .inl (List.mem_map.mpr ⟨c, List.mem_filter.mpr ⟨inCells, decide_eq_true same⟩, rfl⟩)
    · exact .inr sent
  · exact fun c inHeap => ok.frozen c (sublist.mem inHeap)
  · exact ⟨ok.flying.1.erase id,
      fun other inFlight => ok.flying.2 other (List.mem_of_mem_erase inFlight)⟩
  · intro e appended
    obtain ⟨bound, inside⟩ := ok.placed e appended
    refine ⟨bound, ?_⟩
    intro c inCells same
    rcases List.mem_append.mp inCells with inHeap | sent
    · exact inside c (List.mem_append_left _ (sublist.mem inHeap)) same
    · exact inside c (List.mem_append_right _ sent) same

/-! ## Whole runs -/

theorem Ok.step (ok : s.Ok env) {a : BatchAction σ} (waits : HostWaits s a)
    (stepped : s.step env a = some s') : s'.Ok env := by
  cases a with
  | writev lba data addr =>
      obtain ⟨r, -, done⟩ := Option.bind_eq_some_iff.mp stepped
      obtain ⟨mid, rolled, appended⟩ := Option.bind_eq_some_iff.mp done
      split at rolled
      · cases rolled
        exact ok.append waits.1 waits.2 appended
      · obtain ⟨midOk, thread⟩ := ok.roll waits.1 rolled
        exact midOk.append (by rw [thread]; exact waits.1) waits.2 appended
  | flush addr =>
      obtain ⟨r, -, done⟩ := Option.bind_eq_some_iff.mp stepped
      obtain ⟨mid, rolled, rfl⟩ := Option.map_eq_some_iff.mp done
      split at rolled
      · cases rolled
        exact ok.enqueue (by simp)
      · exact (ok.roll waits rolled).1.enqueue (by simp)
  | checkpoint addr =>
      obtain ⟨r, -, done⟩ := Option.bind_eq_some_iff.mp stepped
      obtain ⟨mid, rolled, rfl⟩ := Option.map_eq_some_iff.mp done
      split at rolled
      · cases rolled
        exact ok.enqueue (by simp)
      · exact (ok.roll waits rolled).1.enqueue (by simp)
  | gcSubmit =>
      cases stepped
      exact ok.enqueue (by simp)
  | work =>
      simp only [Batches.step, work] at stepped
      split at stepped
      · cases stepped
      · rename_i id rest head
        obtain ⟨r, found, rfl⟩ := Option.map_eq_some_iff.mp stepped
        exact ok.dispatch head found
      · rename_i rest head
        simp only [Option.ite_none_right_eq_some] at stepped
        obtain rfl := Option.some.inj stepped.2
        exact ok.dequeue head (by simp)
      · rename_i rest head
        cases stepped
        exact ok.dequeue head (by simp)
  | complete id =>
      simp only [Batches.step, Batches.complete, Option.ite_none_right_eq_some] at stepped
      obtain ⟨flying, done⟩ := stepped
      obtain ⟨r, found, rfl⟩ := Option.map_eq_some_iff.mp done
      exact ok.complete flying found
  | threadTest =>
      simp only [Batches.step, test, Option.ite_none_right_eq_some] at stepped
      obtain ⟨idle, done⟩ := stepped
      obtain ⟨r, -, rfl⟩ := Option.map_eq_some_iff.mp done
      refine ok.rethread (by simp [idle]) ?_
      split <;> simp
  | threadPush =>
      simp only [Batches.step, threadPush, Option.ite_none_right_eq_some, Option.some.injEq] at stepped
      obtain ⟨tested, rfl⟩ := stepped
      exact ok.push (by simp [tested])
  | threadReplace addr =>
      simp only [Batches.step, threadReplace, Option.ite_none_right_eq_some] at stepped
      obtain ⟨pushed, done⟩ := stepped
      obtain ⟨mid, replaced, rfl⟩ := Option.map_eq_some_iff.mp done
      simp only [Batches.replace, Option.ite_none_right_eq_some, Option.some.injEq] at replaced
      obtain ⟨clear, rfl⟩ := replaced
      exact ok.replace pushed clear (by simp)

def start (addr : ℤ) : Batches σ := ⟨[⟨0, ⟨addr, [], []⟩⟩], 0, [], [], [], Extmap.empty, .idle, []⟩

theorem start_ok (small : env.objBytes < 2 ^ 31) (addr : ℤ) : (start addr : Batches σ).Ok env where
  buffered := by
    refine ⟨?_, ⟨by exact_mod_cast small, List.pairwise_singleton _ _⟩, Bounded.empty, by simp [start]⟩
    intro r member
    rw [List.mem_singleton.mp member]
    exact ⟨⟨by simp [entryRanges, Proper], by simp [entryRanges]⟩, by simp⟩
  ordered := List.pairwise_singleton _ _
  known := by simp [start, heapIds]
  freed := by simp [start, heapIds]
  sent := List.nodup_nil
  sentKnown := by simp [start, sentIds]
  frozen := by simp [start]
  flying := by simp [start]
  queued := by simp [start]
  waiting := by simp [start]
  filled := by simp [start, sentIds]
  placed := by simp [start]

theorem step_appended {a : BatchAction σ} (stepped : s.step env a = some s') :
    s'.appended.map (fun e => (e.lba, e.data)) =
      s.appended.map (fun e => (e.lba, e.data)) ++ a.writes := by
  have replaced : ∀ {mid mid' : Batches σ} {addr : ℤ}, mid.replace env addr = some mid' →
      mid'.appended = mid.appended := by
    intro mid mid' addr done
    simp only [Batches.replace, Option.ite_none_right_eq_some] at done
    obtain rfl := Option.some.inj done.2
    rfl
  have submitted : ∀ {item : Queued} {addr : ℤ}, s.submit env item addr = some s' →
      s'.appended = s.appended := by
    intro item addr done
    obtain ⟨r, -, done⟩ := Option.bind_eq_some_iff.mp done
    obtain ⟨mid, rolled, rfl⟩ := Option.map_eq_some_iff.mp done
    split at rolled
    · cases rolled
      rfl
    · have kept := replaced rolled
      exact kept
  cases a with
  | writev lba data addr =>
      obtain ⟨r, -, done⟩ := Option.bind_eq_some_iff.mp stepped
      obtain ⟨mid, rolled, appended⟩ := Option.bind_eq_some_iff.mp done
      have same : mid.appended = s.appended := by
        split at rolled
        · cases rolled
          rfl
        · have kept := replaced rolled
          exact kept
      obtain ⟨r, -, done⟩ := Option.bind_eq_some_iff.mp appended
      simp only [Option.ite_none_right_eq_some] at done
      obtain rfl := Option.some.inj done.2
      simp [same, BatchAction.writes]
  | flush addr => simp [submitted stepped, BatchAction.writes]
  | checkpoint addr => simp [submitted stepped, BatchAction.writes]
  | gcSubmit =>
      cases stepped
      simp [BatchAction.writes]
  | work =>
      simp only [Batches.step, work] at stepped
      split at stepped
      · cases stepped
      · obtain ⟨r, -, rfl⟩ := Option.map_eq_some_iff.mp stepped
        simp [BatchAction.writes]
      · simp only [Option.ite_none_right_eq_some] at stepped
        obtain rfl := Option.some.inj stepped.2
        simp [BatchAction.writes]
      · cases stepped
        simp [BatchAction.writes]
  | complete id =>
      simp only [Batches.step, Batches.complete, Option.ite_none_right_eq_some] at stepped
      obtain ⟨r, -, rfl⟩ := Option.map_eq_some_iff.mp stepped.2
      simp [BatchAction.writes]
  | threadTest =>
      simp only [Batches.step, test, Option.ite_none_right_eq_some] at stepped
      obtain ⟨r, -, rfl⟩ := Option.map_eq_some_iff.mp stepped.2
      simp [BatchAction.writes]
  | threadPush =>
      simp only [Batches.step, threadPush, Option.ite_none_right_eq_some] at stepped
      obtain rfl := Option.some.inj stepped.2
      simp [push, BatchAction.writes]
  | threadReplace addr =>
      simp only [Batches.step, threadReplace, Option.ite_none_right_eq_some] at stepped
      obtain ⟨mid, done, rfl⟩ := Option.map_eq_some_iff.mp stepped.2
      simp [replaced done, BatchAction.writes]

def objectsWith (s : Batches σ) (e : Appended σ) : List (Cell σ) :=
  s.dispatched.filter fun d => decide (d.id = e.batch ∧ e.index < d.request.entries.length)

def waitsFor (s : Batches σ) (e : Appended σ) : ℕ :=
  s.queue.count (.put e.batch) + if e.batch = s.current ∧ s.thread ≠ .pushed then 1 else 0

theorem Ok.once (ok : s.Ok env) {e : Appended σ} (appended : e ∈ s.appended) :
    (s.objectsWith e).length + s.waitsFor e = 1 := by
  obtain ⟨known, inside⟩ := ok.placed e appended
  by_cases sent : e.batch ∈ s.sentIds
  · -- the object that was made of the batch, and no other
    obtain ⟨d, member, same⟩ := List.mem_map.mp sent
    have index := (List.getElem?_eq_some_iff.mp
      (inside d (List.mem_append_right _ member) same).1).1
    have distinct : s.dispatched.Nodup := List.Nodup.of_map _ ok.sent
    have objects : s.objectsWith e = [d] := by
      refine List.perm_singleton.mp ((List.perm_ext_iff_of_nodup (distinct.filter _)
        (List.nodup_singleton d)).mpr ?_)
      intro other
      rw [List.mem_filter, List.mem_singleton, decide_eq_true_iff]
      constructor
      · rintro ⟨otherMember, otherSame, -⟩
        exact List.inj_on_of_nodup_map ok.sent otherMember member (otherSame.trans same.symm)
      · rintro rfl
        exact ⟨member, same, index⟩
    have notQueued : s.queue.count (.put e.batch) = 0 :=
      List.count_eq_zero.mpr fun queued => (ok.queued _ queued).2.1 sent
    have notCurrent : ¬(e.batch = s.current ∧ s.thread ≠ .pushed) := fun ⟨isCurrent, free⟩ =>
      (ok.filled free).1 (isCurrent ▸ sent)
    rw [objects, waitsFor, notQueued, if_neg notCurrent]
    rfl
  · have objects : s.objectsWith e = [] := by
      rw [objectsWith, List.filter_eq_nil_iff]
      intro d member both
      rw [decide_eq_true_iff] at both
      exact sent (List.mem_map.mpr ⟨d, member, both.1⟩)
    rw [objects, waitsFor, List.length_nil, zero_add]
    rcases ok.waiting e.batch known with impossible | queued | ⟨isCurrent, free⟩
    · exact absurd impossible sent
    · have notCurrent : ¬(e.batch = s.current ∧ s.thread ≠ .pushed) := fun ⟨isCurrent, free⟩ =>
        (ok.filled free).2 (isCurrent ▸ queued)
      rw [(ok.queued _ queued).2.2, if_neg notCurrent]
    · have notQueued := (ok.filled free).2
      rw [← isCurrent] at notQueued
      rw [List.count_eq_zero.mpr notQueued, if_pos ⟨isCurrent, free⟩]

end Batches

/-- In every run in which no host thread takes the mutex between the push and the
replacement of the flush thread: every entry that `writev` has appended is in one
object, with its data, or its batch is still to be dispatched once; no request is
dispatched twice; and `notify` takes an address out of the buffer map only if the
object has it. -/
theorem writes_reach_one_object {env : Env} {addr : ℤ} {t : Batches σ}
    {acts : List (BatchAction σ)} (small : env.objBytes < 2 ^ 31)
    (along : Along (Batches.step env) HostWaits (Batches.start addr) acts)
    (ran : run (Batches.step env) (Batches.start addr) acts = some t) :
    t.appended.map (fun e => (e.lba, e.data)) = acts.flatMap BatchAction.writes ∧
      (∀ e ∈ t.appended, (t.objectsWith e).length + t.waitsFor e = 1 ∧
        ∀ d ∈ t.objectsWith e, e.In d.request) ∧
      (t.dispatched.map Cell.id).Nodup ∧
      ∀ id u, t.step env (.complete id) = some u → ∃ d ∈ t.dispatched, d.id = id ∧
        ∀ x p, locate t.bufmap x = some p → locate u.bufmap x = none →
          d.request.holds env p = true ∧ (lastIndex (entryRanges d.request.entries) x).isSome := by
  have ok : t.Ok env := invariant_along (fun _ _ _ ok waits stepped => ok.step waits stepped)
    (Batches.start_ok small addr) along ran
  refine ⟨?_, ?_, ok.sent, ?_⟩
  · have tracked : ∀ {s : Batches σ} {acts : List (BatchAction σ)},
        run (Batches.step env) s acts = some t → t.appended.map (fun e => (e.lba, e.data)) =
          s.appended.map (fun e => (e.lba, e.data)) ++ acts.flatMap BatchAction.writes := by
      intro s acts ran
      induction acts generalizing s with
      | nil =>
          cases ran
          simp
      | cons a acts ih =>
          obtain ⟨next, stepped, rest⟩ := (run_cons_eq_some _).mp ran
          rw [ih rest, Batches.step_appended stepped, List.flatMap_cons, List.append_assoc]
    exact tracked ran
  · intro e appended
    refine ⟨ok.once appended, ?_⟩
    intro d member
    obtain ⟨sent, both⟩ := List.mem_filter.mp member
    rw [decide_eq_true_iff] at both
    exact (ok.placed e appended).2 d (List.mem_append_right _ sent) both.1
  · intro id u stepped
    simp only [Batches.step, Batches.complete, Option.ite_none_right_eq_some] at stepped
    obtain ⟨flying, done⟩ := stepped
    obtain ⟨r, found, rfl⟩ := Option.map_eq_some_iff.mp done
    have member := ok.deref_eq_some_iff.mp found
    obtain ⟨d, sent, same⟩ := List.mem_map.mp (ok.flying.2 id flying)
    obtain rfl := ok.frozen _ member d sent same.symm
    refine ⟨_, sent, rfl, ?_⟩
    intro x p before after
    have inBuffers : r ∈ t.heap.map Cell.request := List.mem_map.mpr ⟨_, member, rfl⟩
    obtain ⟨-, located⟩ := forget_spec env ok.buffered.bounded (List.mem_map_of_mem inBuffers)
      (ok.buffered.proper r inBuffers).proper.ranges
    simp only [located, before, Option.filter_some] at after
    by_contra outside
    rw [if_pos] at after
    · cases after
    · rw [not_and_or] at outside
      rcases outside with elsewhere | uncovered
      · rw [Bool.not_eq_true] at elsewhere
        rw [elsewhere]
        simp
      · rw [Bool.not_eq_true] at uncovered
        rw [uncovered]
        rfl

def flushedRun : List (BatchAction ℕ) :=
  [.writev 0 [1] 0, .threadTest, .threadPush, .work, .threadReplace 5000000, .writev 8 [2] 0,
    .complete 0]

theorem writes_reach_one_object_flushed : ∃ t e,
    run (Batches.step ⟨fun _ => 0, 7, 786432, 50⟩) (Batches.start 1000000) flushedRun = some t ∧
      e ∈ t.appended ∧ (t.objectsWith e).length + t.waitsFor e = 1 := by
  obtain ⟨t, ran, held⟩ := (Option.any_eq_true _ _).mp
    (by decide +kernel : (run (Batches.step ⟨fun _ => 0, 7, 786432, 50⟩) (Batches.start 1000000)
      flushedRun).any (fun t => decide (t.appended.length = 2)) = true)
  obtain ⟨e, member⟩ := List.exists_mem_of_length_pos
    (by rw [of_decide_eq_true held]; decide : 0 < t.appended.length)
  exact ⟨t, e, ran, member, ((writes_reach_one_object (by decide) (by decide +kernel) ran).2.1 e
    member).1⟩

/-- A write between the worker's dispatch and the replacement is in no object, waits
for none, and leaves the buffer map when the PUT completes; and a batch that a
write without room pushes again is dispatched twice, while the batch that replaced
it is dropped with its write. -/
theorem write_lost_between_push_and_replace :
    (run (Batches.step ⟨fun _ => 0, 7, 786432, 50⟩) (Batches.start 1000000)
      [.writev 0 [1] 0, .threadTest, .threadPush, .work, .writev 8 [2] 0, .threadReplace 5000000,
        .complete 0]).map (fun t =>
          (t.appended.map fun e => ((t.objectsWith e).length, t.waitsFor e), locate t.bufmap 8)) =
      some ([(1, 0), (0, 0)], none) ∧
    (run (Batches.step ⟨fun _ => 0, 7, 786432, 50⟩) (Batches.start 1000000)
      [.writev 0 (List.replicate 1536 1) 0, .threadTest, .threadPush, .writev 8 [2] 5000000,
        .threadReplace 9000000, .work, .work]).map (fun t => (t.dispatched.map Cell.id,
          t.appended.map fun e => ((t.objectsWith e).length, t.waitsFor e))) =
      some ([0, 0], [(2, 0), (0, 0)]) := by
  decide +kernel

end LsvdRbd.Session
