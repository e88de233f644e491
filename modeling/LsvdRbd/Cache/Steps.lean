import LsvdRbd.Cache.Served

/-!
# What one step does to a shard

A read or an insertion may take a chunk from another key; every other step moves a
request on, and with it the entry and the stored bytes of its chunk. From this follows
when `allocate_chunk` comes to an end.
-/

namespace LsvdRbd.Cache

open Ledger Machine

set_option autoImplicit false

variable {β : Type*}

namespace Shard

def moved (id : ℕ) (new : Req β) (c : ℕ) (entry : Entry) (stored : List β) (s : Shard β) :
    Shard β :=
  { s with
    entries := Function.update s.entries c entry
    store := Function.update s.store c stored
    reqs := s.reqs.set id new }

inductive Moves (s : Shard β) (id c : ℕ) : Event β → Req β → Req β → Entry → List β → Prop
  | runHit (r : Read β) :
      Moves s id c (.run id) (.hit c r .made) (.hit c r .running) (s.entries c) (s.store c)
  | runPending (r : Read β) (done : Bool) :
      Moves s id c (.run id) (.pending c r false done)
        (.pending c (if done then r.notify else r) true done) (s.entries c) (s.store c)
  | runMiss (r : Read β) (buf : List β) :
      Moves s id c (.run id) (.miss c r buf .made) (.miss c r buf .fetching)
        { s.entries c with status := .fetching } (s.store c)
  | runInsert (key : Key) (buf : List β) :
      Moves s id c (.run id) (.insert c key buf .made) (.insert c key buf .writing)
        (s.entries c) (s.store c)
  | storeRead (r : Read β) :
      Moves s id c (.storeRead id) (.hit c r .running)
        (.hit c (r.copyIn (s.store c)).notify .answered) (s.entries c) (s.store c)
  | hitDone (r : Read β) :
      Moves s id c (.hitDone id) (.hit c r .answered) (.hit c r .released)
        { s.entries c with refcount := (s.entries c).refcount - 1 } (s.store c)
  | backendDone (r : Read β) (buf data : List β) :
      Moves s id c (.backendDone id data) (.miss c r buf .fetching)
        (.miss c r data (.dispatching (s.entries c).pending))
        { s.entries c with status := .filling, fill := some id, pending := [] } (s.store c)
  | answer (r : Read β) (buf : List β) :
      Moves s id c (.answer id) (.miss c r buf (.dispatching []))
        (.miss c (r.copyIn buf).notify buf (.filling .writing)) (s.entries c) (s.store c)
  | missWritten (r : Read β) (buf : List β) :
      Moves s id c (.storeWritten id) (.miss c r buf (.filling .writing))
        (.miss c r buf (.filling .written)) (s.entries c) buf
  | insertWritten (key : Key) (buf : List β) :
      Moves s id c (.storeWritten id) (.insert c key buf .writing) (.insert c key buf .written)
        (s.entries c) buf
  | missDone (r : Read β) (buf : List β) :
      Moves s id c (.storeDone id) (.miss c r buf (.filling .written))
        (.miss c r buf (.filling .released)) { s.entries c with
          status := .valid, fill := none, refcount := (s.entries c).refcount - 1 } (s.store c)
  | insertDone (key : Key) (buf : List β) :
      Moves s id c (.storeDone id) (.insert c key buf .written) (.insert c key buf .released)
        { s.entries c with
          status := .valid, fill := none, refcount := (s.entries c).refcount - 1 } (s.store c)

inductive Stepped (s : Shard β) : Event β → Shard β → Prop
  | hit {key : Key} {adjust len c : ℕ} (mapped : s.map key = some c)
      (valid : (s.entries c).status = .valid) :
      Stepped s (.read key adjust len) ((s.setEntry c { s.entries c with
        refcount := (s.entries c).refcount + 1
        accessed := true }).addReq (.hit c ⟨key, adjust, len, [], 0⟩ .made))
  | direct {key : Key} {adjust len c : ℕ} {buf : List β} (mapped : s.map key = some c)
      (filling : (s.entries c).status = .filling)
      (buffered : ((s.entries c).fill.bind fun id => s.reqs[id]?.bind Req.buffer) = some buf) :
      Stepped s (.read key adjust len) ((s.setEntry c { s.entries c with
        refcount := (s.entries c).refcount + 1 - 1
        accessed := true }).addReq
          (.direct (Read.copyIn buf ⟨key, adjust, len, [], 0⟩)))
  | wait {key : Key} {adjust len c : ℕ} (mapped : s.map key = some c)
      (fetching : (s.entries c).status = .fetching) :
      Stepped s (.read key adjust len) ((s.setEntry c { s.entries c with
        refcount := (s.entries c).refcount + 1
        accessed := true
        pending := (s.entries c).pending ++ [s.reqs.length] }).addReq
          (.pending c ⟨key, adjust, len, [], 0⟩ false false))
  | miss {key : Key} {adjust len c : ℕ} {t : Shard β} (unmapped : s.map key = none)
      (allocated : s.allocateChunk = some (.ok (c, t))) :
      Stepped s (.read key adjust len) (t.readMissed c ⟨key, adjust, len, [], 0⟩)
  | insert {key : Key} {data : List β} {c : ℕ} {t : Shard β}
      (allocated : s.allocateChunk = some (.ok (c, t))) :
      Stepped s (.insert key data) (t.insertInto c key data)
  | move {event : Event β} {id c : ℕ} {old new : Req β} {entry : Entry} {stored : List β}
      (found : s.reqs[id]? = some old) (moves : Moves s id c event old new entry stored) :
      Stepped s event (s.moved id new c entry stored)
  | dispatch {id c d p : ℕ} {r q : Read β} {buf : List β} {left : List ℕ} {running : Bool}
      (found : s.reqs[id]? = some (.miss c r buf (.dispatching (p :: left))))
      (waiting : s.reqs[p]? = some (.pending d q running false)) :
      Stepped s (.dispatch id)
        (((s.setEntry d { s.entries d with refcount := (s.entries d).refcount - 1 }).setReq p
          (.pending d (if running then (q.copyIn buf).notify else q.copyIn buf) running
            true)).setReq id (.miss c r buf (.dispatching left)))

variable {s t : Shard β} {event : Event β}

theorem Stepped.request {id c : ℕ} {old new : Req β} {entry : Entry} {stored : List β}
    (found : s.reqs[id]? = some old) (moves : Moves s id c event old new entry stored)
    (after : t = s.moved id new c entry stored) :
    Stepped s event t := by
  rw [after]
  exact .move found moves

theorem moved_request (id c : ℕ) (new : Req β) :
    s.setReq id new = s.moved id new c (s.entries c) (s.store c) := by
  simp [setReq, moved]

theorem moved_entry (id c : ℕ) (new : Req β) (entry : Entry) :
    (s.setEntry c entry).setReq id new = s.moved id new c entry (s.store c) := by
  simp [setReq, setEntry, moved]

theorem moved_store (id c : ℕ) (new : Req β) (stored : List β) :
    { s with store := Function.update s.store c stored }.setReq id new =
      s.moved id new c (s.entries c) stored := by
  simp [setReq, moved]

theorem next_map {outcome : Option (Shard β)}
    (stepped : (outcome.map Except.ok : Outcome (Shard β)).bind Except.toOption = some t) :
    outcome = some t := by
  cases outcome with
  | none => cases stepped
  | some u => exact congrArg some (Option.some.inj stepped)

theorem dec_chunk_ok {c : ℕ} (next : Shard β → Shard β)
    (stepped : ((s.decChunkRefcount c).map next).toOption = some t) :
    t = next (s.setEntry c { s.entries c with refcount := (s.entries c).refcount - 1 }) := by
  rw [decChunkRefcount] at stepped
  split at stepped
  · cases stepped
  · exact (Option.some.inj stepped).symm

theorem allocate_next {next : ℕ × Shard β → Shard β}
    (stepped : (s.allocateChunk.map (Except.map next)).bind Except.toOption = some t) :
    ∃ c u, s.allocateChunk = some (.ok (c, u)) ∧ t = next (c, u) := by
  obtain ⟨result, mapped, passed⟩ := Option.bind_eq_some_iff.mp stepped
  obtain ⟨outcome, returned, rfl⟩ := Option.map_eq_some_iff.mp mapped
  cases outcome with
  | error failed => cases passed
  | ok found => exact ⟨found.1, found.2, returned, (Option.some.inj passed).symm⟩

theorem read_cases {key : Key} {adjust len : ℕ}
    (stepped : s.next (.read key adjust len) = some t) :
    Stepped s (.read key adjust len) t := by
  simp only [next, step, makeReadReq] at stepped
  split at stepped
  · cases stepped
  split at stepped
  · cases stepped
  cases mapped : s.map key with
  | none =>
      rw [mapped] at stepped
      obtain ⟨c, u, allocated, rfl⟩ := allocate_next stepped
      exact .miss mapped allocated
  | some c =>
      rw [mapped] at stepped
      simp only [readFound] at stepped
      split at stepped
      · cases stepped
      · next valid =>
          cases stepped
          exact .hit mapped valid
      · next filling =>
          obtain ⟨result, copied, passed⟩ := Option.bind_eq_some_iff.mp stepped
          obtain ⟨buf, buffered, rfl⟩ := Option.map_eq_some_iff.mp copied
          cases passed
          exact .direct mapped filling buffered
      · next fetching =>
          cases stepped
          exact .wait mapped fetching

theorem run_cases {id : ℕ} (ran : s.runReq id = some t) : Stepped s (.run id) t := by
  rw [runReq] at ran
  split at ran
  · next c r found =>
      exact .request found (.runHit r)
        ((Option.some.inj ran).symm.trans (moved_request id c _))
  · next c r done found =>
      exact .request found (.runPending r done)
        ((Option.some.inj ran).symm.trans (moved_request id c _))
  · next c r buf found =>
      exact .request found (.runMiss r buf)
        ((Option.some.inj ran).symm.trans (moved_entry id c _ _))
  · next c key buf found =>
      exact .request found (.runInsert key buf)
        ((Option.some.inj ran).symm.trans (moved_request id c _))
  · cases ran

theorem store_cases {id : ℕ}
    (stepped : event = .storeWritten id ∧ s.storeWritten id = some t ∨
      event = .storeDone id ∧ s.storeDone id = some t) : Stepped s event t := by
  rcases stepped with ⟨rfl, ran⟩ | ⟨rfl, ran⟩
  · rw [storeWritten] at ran
    split at ran
    · next c r buf found =>
        exact .request found (.missWritten r buf)
          ((Option.some.inj ran).symm.trans (moved_store id c _ _))
    · next c key buf found =>
        exact .request found (.insertWritten key buf)
          ((Option.some.inj ran).symm.trans (moved_store id c _ _))
    · cases ran
  · rw [storeDone] at ran
    split at ran
    · next c r buf found =>
        exact .request found (.missDone r buf)
          ((Option.some.inj ran).symm.trans (moved_entry id c _ _))
    · next c key buf found =>
        exact .request found (.insertDone key buf)
          ((Option.some.inj ran).symm.trans (moved_entry id c _ _))
    · cases ran

theorem dispatch_cases {id : ℕ} (stepped : s.next (.dispatch id) = some t) :
    Stepped s (.dispatch id) t := by
  simp only [next, step, dispatch] at stepped
  split at stepped
  · next c r buf p left found =>
      split at stepped
      · next d q running waiting =>
          obtain rfl := dec_chunk_ok _ stepped
          exact .dispatch found waiting
      · cases stepped
  · cases stepped

theorem next_cases (stepped : s.next event = some t) : Stepped s event t := by
  cases event with
  | read key adjust len => exact read_cases stepped
  | insert key data =>
      obtain ⟨c, u, allocated, rfl⟩ := allocate_next stepped
      exact .insert allocated
  | run id => exact run_cases (next_map stepped)
  | storeRead id =>
      have ran := next_map stepped
      rw [storeRead] at ran
      split at ran
      · next c r found =>
          exact .request found (.storeRead r)
            ((Option.some.inj ran).symm.trans (moved_request id c _))
      · cases ran
  | hitDone id =>
      simp only [next, step, hitDone] at stepped
      split at stepped
      · next c r found =>
          exact .request found (.hitDone r)
            ((dec_chunk_ok _ stepped).trans (moved_entry id c _ _))
      · cases stepped
  | backendDone id data =>
      have ran := next_map stepped
      rw [backendDone] at ran
      split at ran
      · next c r buf found =>
          exact .request found (.backendDone r buf data)
            ((Option.some.inj ran).symm.trans (moved_entry id c _ _))
      · cases ran
  | dispatch id => exact dispatch_cases stepped
  | answer id =>
      have ran := next_map stepped
      rw [answer] at ran
      split at ran
      · next c r buf found =>
          exact .request found (.answer r buf)
            ((Option.some.inj ran).symm.trans (moved_request id c _))
      · cases ran
  | storeWritten id => exact store_cases (.inl ⟨rfl, next_map stepped⟩)
  | storeDone id => exact store_cases (.inr ⟨rfl, next_map stepped⟩)

/-! ## What `allocate_chunk` leaves -/

/-- The chunk is taken from its key, and other chunks keep all but their access bits. -/
structure Took (s : Shard β) (c : ℕ) (t : Shard β) : Prop where
  free : (s.entries c).Free
  size : t.size = s.size
  clock : t.clock = (c + 1) % s.size
  map : t.map = Function.update s.map (s.entries c).key none
  store : t.store = s.store
  reqs : t.reqs = s.reqs
  status : ∀ d, (t.entries d).status = if d = c then .empty else (s.entries d).status
  key : ∀ d, (t.entries d).key = (s.entries d).key
  fill : ∀ d, (t.entries d).fill = (s.entries d).fill

theorem allocate_took {c : ℕ} (allocated : s.allocateChunk = some (.ok (c, t))) : s.Took c t := by
  obtain ⟨⟨entries, d⟩, searched, evicted⟩ := Option.map_eq_some_iff.mp allocated
  obtain ⟨cleared, free⟩ := search_found searched
  have same : ∀ e, (entries e).key = (s.entries e).key ∧
      (entries e).status = (s.entries e).status ∧ (entries e).fill = (s.entries e).fill := by
    intro e
    rcases cleared e with kept | ⟨-, kept⟩ <;> rw [kept] <;> exact ⟨rfl, rfl, rfl⟩
  simp only [evict] at evicted
  split at evicted
  · cases evicted
  split at evicted
  · cases evicted
  obtain ⟨rfl, rfl⟩ := Prod.mk.inj (Except.ok.inj evicted)
  refine ⟨free, rfl, rfl, by rw [← (same d).1], rfl, rfl, ?_, ?_, ?_⟩
  · intro e
    show (Function.update entries d _ e).status = _
    by_cases here : e = d
    · rw [here, Function.update_self, if_pos rfl]
    · rw [Function.update_of_ne here, if_neg here, (same e).2.1]
  · intro e
    show (Function.update entries d _ e).key = _
    by_cases here : e = d
    · rw [here, Function.update_self, (same d).1]
    · rw [Function.update_of_ne here, (same e).1]
  · intro e
    show (Function.update entries d _ e).fill = _
    by_cases here : e = d
    · rw [here, Function.update_self, (same d).2.2]
    · rw [Function.update_of_ne here, (same e).2.2]

/-! ## The invariant without any assumption -/

abbrev Consistent (s : Shard β) : Prop := s.Ok fun _ _ => []

theorem honest_of_next (stepped : s.next event = some t) :
    Honest (fun _ _ => []) s event := by
  have any : ∀ (key : Key) (chunk : List β), Holds (fun _ _ => []) key chunk := by
    intro key chunk
    simp [Holds]
  cases event with
  | read key adjust len =>
      simp only [next, step, makeReadReq] at stepped
      split at stepped
      · cases stepped
      · next aligned =>
          split at stepped
          · cases stepped
          · next inside => exact ⟨not_not.mp aligned, Nat.not_lt.mp inside⟩
  | insert key data => exact any key data
  | backendDone id data => exact fun r _ => any r.key data
  | _ => trivial

theorem Ok.next_consistent (ok : s.Consistent) (stepped : s.next event = some t) : t.Consistent :=
  ok.next (honest_of_next stepped) stepped

/-! ## The hand of the clock -/

/-- The invariant with the hand of the clock on a chunk. -/
structure Timed (size : ℕ) (s : Shard β) : Prop where
  ok : s.Consistent
  sized : s.size = size
  inside : s.clock < size

theorem Took.timed {size c : ℕ} (took : s.Took c t) (same : s.size = size) (positive : 0 < size) :
    t.size = size ∧ t.clock < size := by
  rw [took.size, took.clock, same]
  exact ⟨rfl, Nat.mod_lt _ positive⟩

variable {size : ℕ}

theorem Timed.next (timed : s.Timed size) (stepped : s.next event = some t) : t.Timed size := by
  have positive : 0 < size := Nat.zero_lt_of_lt timed.inside
  have sized : t.size = size ∧ t.clock < size := by
    cases next_cases stepped with
    | hit mapped valid => exact ⟨timed.sized, timed.inside⟩
    | direct mapped filling buffered => exact ⟨timed.sized, timed.inside⟩
    | wait mapped fetching => exact ⟨timed.sized, timed.inside⟩
    | miss unmapped allocated => exact (allocate_took allocated).timed timed.sized positive
    | insert allocated => exact (allocate_took allocated).timed timed.sized positive
    | move found moves => exact ⟨timed.sized, timed.inside⟩
    | dispatch found waiting => exact ⟨timed.sized, timed.inside⟩
  exact ⟨timed.ok.next_consistent stepped, sized.1, sized.2⟩

theorem start_timed (positive : 0 < size) : (start size : Shard β).Timed size :=
  ⟨start_ok size, rfl, positive⟩

theorem run_timed {events : List (Event β)} (positive : 0 < size)
    (ran : run Shard.next (start size) events = some t) : t.Timed size :=
  invariant_run (fun _ _ _ timed stepped => timed.next stepped) (start_timed positive) ran

theorem Ok.free_iff (ok : s.Consistent) (c : ℕ) :
    (s.entries c).Free ↔ (s.entries c).refcount = 0 :=
  ⟨fun free => free.elim (ok.sound c).vacant id, .inr⟩

theorem used_chunks_le (reqs : List (Req β)) (size : ℕ) :
    ∑ c ∈ Finset.range size, reqs.countP (Req.uses c) ≤ reqs.countP Req.active := by
  induction reqs with
  | nil => simp
  | cons r reqs ih =>
      have one : ∑ c ∈ Finset.range size, (if r.uses c then 1 else 0) ≤
          if r.active then 1 else 0 := by
        cases chunk : r.chunk with
        | none => simp [Req.uses, chunk]
        | some d =>
            cases active : r.active with
            | false => simp [Req.uses, active]
            | true =>
                simp only [Req.uses, chunk, active, Option.some.injEq, Bool.and_true,
                  decide_eq_true_eq, Finset.sum_ite_eq, if_true]
                split <;> omega
      simp only [List.countP_cons, Finset.sum_add_distrib]
      omega

/-- With fewer unfinished requests than chunks, some chunk is not in use. -/
theorem Ok.spare (ok : s.Consistent) (fewer : s.reqs.countP Req.active < size) :
    ∃ c < size, (s.entries c).refcount = 0 := by
  by_contra absent
  push Not at absent
  have each : ∀ c ∈ Finset.range size, 1 ≤ s.reqs.countP (Req.uses c) := by
    intro c member
    have counted := (ok.sound c).counted
    have used := absent c (Finset.mem_range.mp member)
    omega
  have many : size ≤ ∑ c ∈ Finset.range size, s.reqs.countP (Req.uses c) := by
    calc size = ∑ _c ∈ Finset.range size, 1 := by simp
      _ ≤ ∑ c ∈ Finset.range size, s.reqs.countP (Req.uses c) := Finset.sum_le_sum each
  have few := used_chunks_le s.reqs size
  omega

theorem Ok.exists_fill_buffer {c : ℕ} (ok : s.Consistent)
    (filling : (s.entries c).status = .filling) :
    ∃ buf, ((s.entries c).fill.bind fun id => s.reqs[id]?.bind Req.buffer) = some buf := by
  obtain ⟨id, fill⟩ := Option.ne_none_iff_exists'.mp ((ok.sound c).busy.mp (.inr filling))
  obtain ⟨r, found, -, fills⟩ := (ok.sound c).owner id fill
  rw [fill, Option.bind_some, found, Option.bind_some]
  cases r with
  | miss d q buf phase => exact ⟨buf, rfl⟩
  | insert d key buf phase => exact ⟨buf, rfl⟩
  | _ => exact fills.elim

/-- `make_read_req` returns unless the key is not in the map and every chunk is in use. -/
theorem Timed.read_returns_iff {size adjust len : ℕ} {key : Key} (timed : s.Timed size)
    (aligned : key.offset % chunkSize = 0) (inside : adjust + len ≤ chunkSize) :
    (s.next (.read key adjust len)).isSome = true ↔
      (s.map key = none → ∃ c < size, (s.entries c).refcount = 0) := by
  have safe := timed.ok.makeReadReq aligned inside
  have returns : (s.next (.read key adjust len)).isSome = (s.makeReadReq key adjust len).isSome := by
    rw [Shard.next, Shard.step]
    cases outcome : s.makeReadReq key adjust len with
    | none => rfl
    | some result =>
        obtain ⟨t, rfl, -⟩ := safe result outcome
        rfl
  rw [returns, makeReadReq, if_neg (not_not.mpr aligned), if_neg (Nat.not_lt.mpr inside)]
  cases mapped : s.map key with
  | none =>
      have free : (∃ c < s.size, (s.entries c).Free) ↔ ∃ c < size, (s.entries c).refcount = 0 := by
        simp only [timed.ok.free_iff, timed.sized]
      simp only [Option.isSome_map, forall_const]
      rw [allocate_returns_iff (timed.sized ▸ timed.inside), free]
  | some c =>
      have occupied := (timed.ok.mapped key c mapped).2
      simp only [reduceCtorEq, false_implies, iff_true, readFound]
      split
      · next empty => exact absurd empty occupied
      · rfl
      · next filling =>
          obtain ⟨buf, buffered⟩ := timed.ok.exists_fill_buffer filling
          rw [Option.isSome_map]
          exact Option.isSome_iff_exists.mpr ⟨buf, buffered⟩
      · rfl

theorem read_adds {key : Key} {adjust len : ℕ} (stepped : s.next (.read key adjust len) = some t) :
    ∃ r : Req β, t.reqs = s.reqs ++ [r] ∧ r.read.isSome = true ∧
      (r.isDirect = true ↔ ∃ c, s.map key = some c ∧ (s.entries c).status = .filling) := by
  cases next_cases stepped with
  | hit mapped valid => exact ⟨_, rfl, rfl, by simp [Req.isDirect, mapped, valid]⟩
  | direct mapped filling buffered => exact ⟨_, rfl, rfl, by simp [Req.isDirect, mapped, filling]⟩
  | wait mapped fetching => exact ⟨_, rfl, rfl, by simp [Req.isDirect, mapped, fetching]⟩
  | @miss _ _ _ c after unmapped allocated =>
      refine ⟨.miss c ⟨key, adjust, len, [], 0⟩ [] .made, ?_, rfl, by simp [Req.isDirect, unmapped]⟩
      show after.reqs ++ _ = s.reqs ++ _
      rw [(allocate_took allocated).reqs]
  | move found moves => cases moves

end Shard

theorem search_inside {size fuel clock c : ℕ} {entries found : ℕ → Entry} (inside : clock < size)
    (searched : search size fuel entries clock = some (found, c)) : c < size := by
  induction fuel generalizing entries clock with
  | zero => cases searched
  | succ fuel ih =>
      by_cases evictable : (entries clock).Evictable
      · rw [search_stop evictable] at searched
        cases searched
        exact inside
      · rw [search_pass evictable] at searched
        exact ih (Nat.mod_lt _ (Nat.zero_lt_of_lt inside)) searched

/-- In every state a shard can get into, the loop of `allocate_chunk` ends within
`2 * size + 1` rounds, on a chunk that nothing refers to, if and only if there is one.
Otherwise it never ends. There is one while fewer requests are unfinished than the shard
has chunks. -/
theorem allocation_ends_iff {size : ℕ} (positive : 0 < size) {events : List (Event β)}
    {t : Shard β} (ran : run Shard.next (Shard.start size) events = some t) :
    ((∃ entries c, search size (2 * size + 1) t.entries t.clock = some (entries, c) ∧
        c < size ∧ (entries c).refcount = 0) ↔ ∃ c < size, (t.entries c).refcount = 0) ∧
      ((∀ c < size, (t.entries c).refcount ≠ 0) →
        ∀ rounds, search size rounds t.entries t.clock = none) ∧
      (t.reqs.countP Req.active < size → ∃ c < size, (t.entries c).refcount = 0) := by
  have timed := Shard.run_timed positive ran
  have never : (∀ c < size, (t.entries c).refcount ≠ 0) →
      ∀ rounds, search size rounds t.entries t.clock = none := by
    intro inUse rounds
    exact search_none (fun c bound free => inUse c bound ((timed.ok.free_iff c).mp free))
      timed.inside
  refine ⟨⟨?_, ?_⟩, never, timed.ok.spare⟩
  · rintro ⟨entries, c, searched, -, -⟩
    by_contra absent
    push Not at absent
    rw [never absent] at searched
    cases searched
  · rintro ⟨c, bound, unused⟩
    have some_chunk : (search size (2 * size + 1) t.entries t.clock).isSome = true := by
      refine search_reaches_free (d := (c + size - t.clock) % size) ?_ timed.inside ?_
      · rw [Nat.add_mod_mod, show t.clock + (c + size - t.clock) = c + size by
          have := timed.inside
          omega, Nat.add_mod_right, Nat.mod_eq_of_lt bound]
        exact .inr unused
      · have below := Nat.mod_lt (c + size - t.clock) positive
        omega
    obtain ⟨⟨entries, d⟩, searched⟩ := Option.isSome_iff_exists.mp some_chunk
    obtain ⟨cleared, free⟩ := search_found searched
    refine ⟨entries, d, searched, search_inside timed.inside searched, ?_⟩
    have none := (timed.ok.free_iff d).mp free
    rcases cleared d with kept | ⟨-, kept⟩ <;> rw [kept] <;> exact none

def readThenFetch : List (Event ℕ) :=
  [.insert ⟨"disk", 1, 0⟩ [], .run 0, .storeWritten 0, .storeDone 0, .read ⟨"disk", 1, 0⟩ 0 1,
    .run 1, .storeRead 1, .hitDone 1, .read ⟨"disk", 2, 0⟩ 0 1]

theorem allocation_ends_in_second_round : ∃ t : Shard ℕ,
    run Shard.next (Shard.start 2) readThenFetch = some t ∧
      ∃ entries c, search 2 5 t.entries t.clock = some (entries, c) ∧ c < 2 ∧
        (entries c).refcount = 0 := by
  obtain ⟨t, ran, held⟩ := (Option.any_eq_true _ _).mp
    (by decide +kernel : (run Shard.next (Shard.start 2) readThenFetch).any
      (fun t => decide ((t.entries 0).refcount = 0)) = true)
  exact ⟨t, ran, (allocation_ends_iff (by decide) ran).1.mpr
    ⟨0, by decide, of_decide_eq_true held⟩⟩

def onlyChunkFetched : List (Event ℕ) := [.read ⟨"disk", 1, 0⟩ 0 1, .run 0]

/-- The only chunk is being fetched when another key is read: the search goes on for ever,
with the lock held that the fetch needs to complete. -/
theorem allocation_never_ends : ∃ t : Shard ℕ,
    run Shard.next (Shard.start 1) onlyChunkFetched = some t ∧
      t.map ⟨"disk", 2, 0⟩ = none ∧ ∀ rounds, search 1 rounds t.entries t.clock = none := by
  obtain ⟨t, ran, held⟩ := (Option.any_eq_true _ _).mp
    (by decide +kernel : (run Shard.next (Shard.start 1) onlyChunkFetched).any
      (fun t => decide (t.map ⟨"disk", 2, 0⟩ = none ∧ t.clock < 1 ∧
        (t.entries 0).status ≠ .empty ∧ (t.entries 0).refcount ≠ 0)) = true)
  obtain ⟨unmapped, inside, occupied, used⟩ := of_decide_eq_true held
  refine ⟨t, ran, unmapped, fun rounds => search_none ?_ inside⟩
  intro c bound
  obtain rfl := Nat.lt_one_iff.mp bound
  exact not_or.mpr ⟨occupied, used⟩

end LsvdRbd.Cache
