import LsvdRbd.Lib.Machine

/-!
# One shard of the shared read cache

`shared_read_cache` as a step function. What runs under `global_cache_lock` is
one step, and so is the completion of a backend or store operation; between them
the threads interleave freely. Requests are numbered in the order they are made,
and a buffer is named by the request that owns it.
-/

namespace LsvdRbd.Cache

set_option autoImplicit false

def chunkSize : ℕ := 64 * 1024

/-- `chunk_key`. -/
structure Key where
  image : String
  seq : ℕ
  offset : ℕ
deriving DecidableEq

/-- `entry_status`. -/
inductive Status
  | empty
  | fetching
  | filling
  | valid
deriving DecidableEq

/-- `entry_state`. -/
structure Entry where
  status : Status
  accessed : Bool
  refcount : ℤ
  /-- `pending_fill_data`. -/
  fill : Option ℕ
  /-- `pending_reads`. -/
  pending : List ℕ
  key : Key

def Entry.unused : Entry := ⟨.empty, false, 0, none, [], ⟨"", 0, 0⟩⟩

/-! ## Requests -/

variable {β : Type*}

/-- What a read asks for, what has been copied to its destination, and how often
its parent was notified. -/
structure Read (β : Type*) where
  key : Key
  adjust : ℕ
  len : ℕ
  dest : List β
  notified : ℕ

namespace Read

def copyIn (chunk : List β) (r : Read β) : Read β :=
  { r with dest := (chunk.drop r.adjust).take r.len }

def notify (r : Read β) : Read β := { r with notified := r.notified + 1 }

end Read

inductive HitPhase
  | made
  | running
  | answered
  | released
deriving DecidableEq

inductive FillPhase
  | made
  | writing
  | written
  | released
deriving DecidableEq

/-- A miss fetches the chunk, serves the reads that wait for it and then fills
the chunk. -/
inductive MissPhase
  | made
  | fetching
  | dispatching (left : List ℕ)
  | filling (phase : FillPhase)
deriving DecidableEq

/-- A request on a chunk; `direct` is a read that `make_read_req` answers itself. -/
inductive Req (β : Type*)
  | direct (r : Read β)
  | hit (chunk : ℕ) (r : Read β) (phase : HitPhase)
  | pending (chunk : ℕ) (r : Read β) (running done : Bool)
  | miss (chunk : ℕ) (r : Read β) (buf : List β) (phase : MissPhase)
  | insert (chunk : ℕ) (key : Key) (buf : List β) (phase : FillPhase)

namespace Req

def chunk : Req β → Option ℕ
  | direct _ => none
  | hit c _ _ | pending c _ _ _ | miss c _ _ _ | insert c _ _ _ => some c

def read : Req β → Option (Read β)
  | direct r | hit _ r _ | pending _ r _ _ | miss _ r _ _ => some r
  | insert _ _ _ _ => none

def key : Req β → Key
  | direct r | hit _ r _ | pending _ r _ _ | miss _ r _ _ => r.key
  | insert _ key _ _ => key

def isDirect : Req β → Bool
  | direct _ => true
  | _ => false

/-- The buffer that `pending_fill_data` points to. -/
def buffer : Req β → Option (List β)
  | miss _ _ buf _ | insert _ _ buf _ => some buf
  | _ => none

def active : Req β → Bool
  | direct _ => false
  | hit _ _ phase => decide (phase ≠ .released)
  | pending _ _ _ done => !done
  | miss _ _ _ phase => decide (phase ≠ .filling .released)
  | insert _ _ _ phase => decide (phase ≠ .released)

def uses (c : ℕ) (r : Req β) : Bool := decide (r.chunk = some c) && r.active

theorem uses_iff {c : ℕ} {r : Req β} :
    r.uses c = true ↔ r.chunk = some c ∧ r.active = true := by
  simp [uses]

section Uses

variable (c d : ℕ) (r : Read β)

@[simp] theorem uses_direct : (direct r).uses c = false := rfl

@[simp] theorem uses_hit (phase : HitPhase) :
    (hit d r phase).uses c = (decide (d = c) && decide (phase ≠ .released)) := by
  simp [uses, chunk, active]

@[simp] theorem uses_pending (running done : Bool) :
    (pending d r running done).uses c = (decide (d = c) && !done) := by
  simp [uses, chunk, active]

@[simp] theorem uses_miss (buf : List β) (phase : MissPhase) :
    (miss d r buf phase).uses c = (decide (d = c) && decide (phase ≠ .filling .released)) := by
  simp [uses, chunk, active]

@[simp] theorem uses_insert (key : Key) (buf : List β) (phase : FillPhase) :
    (insert d key buf phase).uses c = (decide (d = c) && decide (phase ≠ .released)) := by
  simp [uses, chunk, active]

end Uses

end Req

/-! ## The shard -/

structure Shard (β : Type*) where
  size : ℕ
  entries : ℕ → Entry
  map : Key → Option ℕ
  clock : ℕ
  /-- The last completed write to each chunk of the store. -/
  store : ℕ → List β
  reqs : List (Req β)

inductive Assertion
  | offsetAligned
  | insideChunk
  | entryNotEmpty
  | noFillData
  | noPendingReads
  | refcountPositive
deriving DecidableEq

abbrev Outcome (α : Type*) := Option (Except Assertion α)

/-- The search of `allocate_chunk`. It goes round until an entry is empty or out
of use; `fuel` bounds the entries it looks at. -/
def search (size : ℕ) : ℕ → (ℕ → Entry) → ℕ → Option ((ℕ → Entry) × ℕ)
  | 0, _, _ => none
  | fuel + 1, entries, clock =>
      let entry := entries clock
      if entry.status = .empty ∨ entry.refcount = 0 ∧ entry.accessed = false then
        some (entries, clock)
      else
        search size fuel
          (if entry.refcount = 0 then
            Function.update entries clock { entry with accessed := false }
          else entries)
          ((clock + 1) % size)

namespace Shard

def start (size : ℕ) : Shard β :=
  ⟨size, fun _ => .unused, fun _ => none, 0, fun _ => [], []⟩

def setEntry (c : ℕ) (entry : Entry) (s : Shard β) : Shard β :=
  { s with entries := Function.update s.entries c entry }

def setReq (id : ℕ) (r : Req β) (s : Shard β) : Shard β := { s with reqs := s.reqs.set id r }

def addReq (r : Req β) (s : Shard β) : Shard β := { s with reqs := s.reqs ++ [r] }

/-- `cache_map.insert` keeps an entry that is there. -/
def mapInsert (key : Key) (c : ℕ) (s : Shard β) : Shard β :=
  { s with map := if (s.map key).isSome then s.map else Function.update s.map key (some c) }

def evict (entries : ℕ → Entry) (c : ℕ) (s : Shard β) : Except Assertion (ℕ × Shard β) :=
  if (entries c).fill ≠ none then .error .noFillData
  else if (entries c).pending ≠ [] then .error .noPendingReads
  else .ok (c, { s with
    entries := Function.update entries c { entries c with status := .empty }
    map := Function.update s.map (entries c).key none
    clock := (c + 1) % s.size })

/-- `allocate_chunk`; there is no outcome while every chunk is in use. -/
def allocateChunk (s : Shard β) : Outcome (ℕ × Shard β) :=
  (search s.size (2 * s.size) s.entries s.clock).map fun found => s.evict found.1 found.2

/-- `make_read_req` for a key in the map. -/
def readFound (c : ℕ) (r : Read β) (s : Shard β) : Outcome (Shard β) :=
  let entry := { s.entries c with refcount := (s.entries c).refcount + 1, accessed := true }
  match entry.status with
  | .empty => some (.error .entryNotEmpty)
  | .valid => some (.ok ((s.setEntry c entry).addReq (.hit c r .made)))
  | .filling =>
      (entry.fill.bind fun id => s.reqs[id]?.bind Req.buffer).map fun buf =>
        .ok ((s.setEntry c { entry with refcount := entry.refcount - 1 }).addReq
          (.direct (r.copyIn buf)))
  | .fetching => some (.ok
      ((s.setEntry c { entry with pending := entry.pending ++ [s.reqs.length] }).addReq
        (.pending c r false false)))

/-- `make_read_req` for a key that is not in the map, once it has a chunk. -/
def readMissed (c : ℕ) (r : Read β) (s : Shard β) : Shard β :=
  let entry := s.entries c
  ((s.setEntry c { entry with
      fill := some s.reqs.length
      refcount := entry.refcount + 1
      status := .fetching
      key := r.key }).mapInsert r.key c).addReq (.miss c r [] .made)

def makeReadReq (key : Key) (adjust len : ℕ) (s : Shard β) : Outcome (Shard β) :=
  let r : Read β := ⟨key, adjust, len, [], 0⟩
  if key.offset % chunkSize ≠ 0 then some (.error .offsetAligned)
  else if chunkSize < adjust + len then some (.error .insideChunk)
  else
    match s.map key with
    | some c => s.readFound c r
    | none => s.allocateChunk.map (Except.map fun found => found.2.readMissed found.1 r)

def insertInto (c : ℕ) (key : Key) (data : List β) (s : Shard β) : Shard β :=
  let entry := s.entries c
  ((s.setEntry c { entry with
      refcount := entry.refcount + 1
      accessed := false
      status := .filling
      fill := some s.reqs.length
      key := key }).mapInsert key c).addReq (.insert c key data .made)

/-- `insert_object`, up to the end of its locked section. -/
def insertObject (key : Key) (data : List β) (s : Shard β) : Outcome (Shard β) :=
  s.allocateChunk.map (Except.map fun found => found.2.insertInto found.1 key data)

def decChunkRefcount (c : ℕ) (s : Shard β) : Except Assertion (Shard β) :=
  let entry := s.entries c
  if entry.refcount ≤ 0 then .error .refcountPositive
  else .ok (s.setEntry c { entry with refcount := entry.refcount - 1 })

def onStoreDone (c : ℕ) (s : Shard β) : Shard β :=
  let entry := s.entries c
  s.setEntry c
    { entry with status := .valid, fill := none, refcount := entry.refcount - 1 }

/-- `run`; a pending read whose data has come notifies its parent at once. -/
def runReq (id : ℕ) (s : Shard β) : Option (Shard β) :=
  match s.reqs[id]? with
  | some (.hit c r .made) => some (s.setReq id (.hit c r .running))
  | some (.pending c r false done) =>
      some (s.setReq id (.pending c (if done then r.notify else r) true done))
  | some (.miss c r buf .made) =>
      some ((s.setEntry c { s.entries c with status := .fetching }).setReq id
        (.miss c r buf .fetching))
  | some (.insert c key buf .made) => some (s.setReq id (.insert c key buf .writing))
  | _ => none

def storeRead (id : ℕ) (s : Shard β) : Option (Shard β) :=
  match s.reqs[id]? with
  | some (.hit c r .running) =>
      some (s.setReq id (.hit c (r.copyIn (s.store c)).notify .answered))
  | _ => none

/-- The end of `cache_hit_request::notify`. -/
def hitDone (id : ℕ) (s : Shard β) : Outcome (Shard β) :=
  match s.reqs[id]? with
  | some (.hit c r .answered) =>
      some ((s.decChunkRefcount c).map (setReq id (.hit c r .released)))
  | _ => none

/-- The backend read of a miss completes: the locked section of `on_backend_done`. -/
def backendDone (id : ℕ) (data : List β) (s : Shard β) : Option (Shard β) :=
  match s.reqs[id]? with
  | some (.miss c r _ .fetching) =>
      let entry := s.entries c
      some ((s.setEntry c { entry with status := .filling, fill := some id, pending := [] }).setReq
        id (.miss c r data (.dispatching entry.pending)))
  | _ => none

/-- A miss calls `on_backend_done` of the next read that waited for it. -/
def dispatch (id : ℕ) (s : Shard β) : Outcome (Shard β) :=
  match s.reqs[id]? with
  | some (.miss c r buf (.dispatching (p :: left))) =>
      match s.reqs[p]? with
      | some (.pending d q running false) =>
          let served := q.copyIn buf
          some ((s.decChunkRefcount d).map fun s =>
            (s.setReq p (.pending d (if running then served.notify else served) running true)).setReq
              id (.miss c r buf (.dispatching left)))
      | _ => none
  | _ => none

/-- A miss notifies its own parent and starts to fill its chunk. -/
def answer (id : ℕ) (s : Shard β) : Option (Shard β) :=
  match s.reqs[id]? with
  | some (.miss c r buf (.dispatching [])) =>
      some (s.setReq id (.miss c (r.copyIn buf).notify buf (.filling .writing)))
  | _ => none

def storeWritten (id : ℕ) (s : Shard β) : Option (Shard β) :=
  match s.reqs[id]? with
  | some (.miss c r buf (.filling .writing)) =>
      some ({ s with store := Function.update s.store c buf }.setReq id
        (.miss c r buf (.filling .written)))
  | some (.insert c key buf .writing) =>
      some ({ s with store := Function.update s.store c buf }.setReq id
        (.insert c key buf .written))
  | _ => none

def storeDone (id : ℕ) (s : Shard β) : Option (Shard β) :=
  match s.reqs[id]? with
  | some (.miss c r buf (.filling .written)) =>
      some ((s.onStoreDone c).setReq id (.miss c r buf (.filling .released)))
  | some (.insert c key buf .written) =>
      some ((s.onStoreDone c).setReq id (.insert c key buf .released))
  | _ => none

end Shard

inductive Event (β : Type*)
  | read (key : Key) (adjust len : ℕ)
  | insert (key : Key) (data : List β)
  | run (id : ℕ)
  | storeRead (id : ℕ)
  | hitDone (id : ℕ)
  | backendDone (id : ℕ) (data : List β)
  | dispatch (id : ℕ)
  | answer (id : ℕ)
  | storeWritten (id : ℕ)
  | storeDone (id : ℕ)

namespace Shard

def step (s : Shard β) : Event β → Outcome (Shard β)
  | .read key adjust len => s.makeReadReq key adjust len
  | .insert key data => s.insertObject key data
  | .run id => (s.runReq id).map .ok
  | .storeRead id => (s.storeRead id).map .ok
  | .hitDone id => s.hitDone id
  | .backendDone id data => (s.backendDone id data).map .ok
  | .dispatch id => s.dispatch id
  | .answer id => (s.answer id).map .ok
  | .storeWritten id => (s.storeWritten id).map .ok
  | .storeDone id => (s.storeDone id).map .ok

def next (s : Shard β) (event : Event β) : Option (Shard β) :=
  (s.step event).bind Except.toOption

end Shard

/-! ## The search -/

namespace Entry

def Evictable (entry : Entry) : Prop :=
  entry.status = .empty ∨ entry.refcount = 0 ∧ entry.accessed = false

def Free (entry : Entry) : Prop := entry.status = .empty ∨ entry.refcount = 0

/-- The search clears access bits of free entries and changes nothing else. -/
def Cleared (before after : Entry) : Prop :=
  after = before ∨ before.refcount = 0 ∧ after = { before with accessed := false }

theorem Cleared.refl (entry : Entry) : entry.Cleared entry := .inl rfl

theorem Cleared.trans {first second third : Entry} (front : first.Cleared second)
    (back : second.Cleared third) : first.Cleared third := by
  rcases front with rfl | ⟨free, rfl⟩
  · exact back
  · rcases back with rfl | ⟨-, rfl⟩
    · exact .inr ⟨free, rfl⟩
    · exact .inr ⟨free, rfl⟩

theorem Cleared.evictable {before after : Entry} (cleared : before.Cleared after)
    (evictable : before.Evictable) : after.Evictable := by
  rcases cleared with rfl | ⟨-, rfl⟩
  · exact evictable
  · exact evictable.imp_right fun unread => ⟨unread.1, rfl⟩

theorem Cleared.free_iff {before after : Entry} (cleared : before.Cleared after) :
    after.Free ↔ before.Free := by
  rcases cleared with rfl | ⟨-, rfl⟩
  · exact Iff.rfl
  · exact Iff.rfl

theorem Evictable.free {entry : Entry} (evictable : entry.Evictable) : entry.Free :=
  evictable.imp_right And.left

end Entry

def passed (entries : ℕ → Entry) (clock : ℕ) : ℕ → Entry :=
  if (entries clock).refcount = 0 then
    Function.update entries clock { entries clock with accessed := false }
  else entries

theorem passed_cleared (entries : ℕ → Entry) (clock c : ℕ) :
    (entries c).Cleared (passed entries clock c) := by
  unfold passed
  split
  case isTrue free =>
    by_cases same : c = clock
    · subst same
      exact .inr ⟨free, Function.update_self ..⟩
    · exact .inl (Function.update_of_ne same ..)
  case isFalse => exact .refl _

variable {entries : ℕ → Entry} {size fuel clock : ℕ}

theorem search_stop (evictable : (entries clock).Evictable) :
    search size (fuel + 1) entries clock = some (entries, clock) := by
  rw [search]
  exact if_pos evictable

theorem search_pass (kept : ¬ (entries clock).Evictable) :
    search size (fuel + 1) entries clock =
      search size fuel (passed entries clock) ((clock + 1) % size) := by
  rw [search]
  exact if_neg kept

theorem search_found {size fuel clock c : ℕ} {entries found : ℕ → Entry}
    (searched : search size fuel entries clock = some (found, c)) :
    (∀ d, (entries d).Cleared (found d)) ∧ (entries c).Free := by
  induction fuel generalizing entries clock with
  | zero => cases searched
  | succ fuel ih =>
      by_cases evictable : (entries clock).Evictable
      · rw [search_stop evictable] at searched
        cases searched
        exact ⟨fun d => .refl _, evictable.free⟩
      · rw [search_pass evictable] at searched
        obtain ⟨cleared, free⟩ := ih searched
        exact ⟨fun d => (passed_cleared entries clock d).trans (cleared d),
          (passed_cleared entries clock c).free_iff.mp free⟩

theorem search_reaches_evictable {size fuel clock d : ℕ}
    (evictable : (entries ((clock + d) % size)).Evictable) (inside : clock < size)
    (enough : d < fuel) : (search size fuel entries clock).isSome = true := by
  induction d generalizing fuel entries clock with
  | zero =>
      obtain ⟨fuel, rfl⟩ := Nat.exists_eq_succ_of_ne_zero (Nat.ne_of_gt enough)
      rw [Nat.add_zero, Nat.mod_eq_of_lt inside] at evictable
      simp [search_stop evictable]
  | succ d ih =>
      obtain ⟨fuel, rfl⟩ := Nat.exists_eq_succ_of_ne_zero (Nat.ne_of_gt (Nat.zero_lt_of_lt enough))
      by_cases here : (entries clock).Evictable
      · simp [search_stop here]
      · rw [Nat.succ_eq_add_one, search_pass here]
        refine ih ?_ (Nat.mod_lt _ (by omega)) (by omega)
        rw [Nat.mod_add_mod, Nat.add_assoc, Nat.add_comm 1 d]
        exact (passed_cleared entries clock _).evictable evictable

/-- A free entry is found in the second round at the latest. -/
theorem search_reaches_free {size fuel clock d : ℕ} (free : (entries ((clock + d) % size)).Free)
    (inside : clock < size) (enough : d + size < fuel) :
    (search size fuel entries clock).isSome = true := by
  induction d generalizing fuel entries clock with
  | zero =>
      obtain ⟨fuel, rfl⟩ := Nat.exists_eq_succ_of_ne_zero (show fuel ≠ 0 by omega)
      rw [Nat.add_zero, Nat.mod_eq_of_lt inside] at free
      by_cases here : (entries clock).Evictable
      · simp [search_stop here]
      · rw [Nat.succ_eq_add_one, search_pass here]
        have unused : (entries clock).refcount = 0 :=
          free.resolve_left fun vacant => here (.inl vacant)
        -- its access bit is clear now, and it is `size - 1` entries ahead
        refine search_reaches_evictable (d := size - 1) ?_ (Nat.mod_lt _ (by omega)) (by omega)
        have around : ((clock + 1) % size + (size - 1)) % size = clock := by
          rw [Nat.mod_add_mod, show clock + 1 + (size - 1) = clock + size by omega,
            Nat.add_mod_right, Nat.mod_eq_of_lt inside]
        rw [around, passed, if_pos unused, Function.update_self]
        exact .inr ⟨unused, rfl⟩
  | succ d ih =>
      obtain ⟨fuel, rfl⟩ := Nat.exists_eq_succ_of_ne_zero (show fuel ≠ 0 by omega)
      by_cases here : (entries clock).Evictable
      · simp [search_stop here]
      · rw [Nat.succ_eq_add_one, search_pass here]
        refine ih ?_ (Nat.mod_lt _ (by omega)) (by omega)
        rw [Nat.mod_add_mod, Nat.add_assoc, Nat.add_comm 1 d]
        exact (passed_cleared entries clock _).free_iff.mpr free

theorem search_none (inUse : ∀ c < size, ¬ (entries c).Free) (inside : clock < size) :
    search size fuel entries clock = none := by
  induction fuel generalizing entries clock with
  | zero => rfl
  | succ fuel ih =>
      rw [search_pass fun evictable => inUse clock inside evictable.free]
      refine ih ?_ (Nat.mod_lt _ (by omega))
      intro c bound free
      exact inUse c bound ((passed_cleared entries clock c).free_iff.mp free)

/-- Two rounds are enough fuel: `allocate_chunk` returns if and only if some chunk
is free, and otherwise no number of rounds ends its search. -/
theorem allocate_returns_iff {s : Shard β} (inside : s.clock < s.size) :
    s.allocateChunk.isSome = true ↔ ∃ c < s.size, (s.entries c).Free := by
  rw [Shard.allocateChunk, Option.isSome_map]
  constructor
  · intro found
    by_contra absent
    push Not at absent
    rw [search_none absent inside] at found
    cases found
  · rintro ⟨c, bound, free⟩
    refine search_reaches_free (d := (c + s.size - s.clock) % s.size) ?_ inside ?_
    · rwa [Nat.add_mod_mod, show s.clock + (c + s.size - s.clock) = c + s.size by omega,
        Nat.add_mod_right, Nat.mod_eq_of_lt bound]
    · have below := Nat.mod_lt (c + s.size - s.clock) (show 0 < s.size by omega)
      omega

end LsvdRbd.Cache
