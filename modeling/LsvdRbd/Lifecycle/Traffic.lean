import LsvdRbd.Lifecycle.Lineage

/-!
# Writers and the window of recovery

A write request waits once for the backend, in `backend_backpressure`, and then
hands over all its chunks; the worker sends whatever it finds in its queue. Nothing
bounds the numbers given out past the oldest outstanding PUT, and so the window that
recovery deletes may be too small.
-/

namespace LsvdRbd.Lifecycle

open Records RunList ExtentMap Format Translate Recovery Session Machine

set_option autoImplicit false

variable {σ : Type*}

/-- A write request between `reserve_room` and `release_room`: its pages, whether it
has passed `backend_backpressure`, and the sectors it has still to write. -/
structure Writer where
  pages : ℕ
  passed : Bool
  left : ℕ

/-- `max_write_pages`, and the sectors of `wlog_chunk_bytes`. -/
structure Limits where
  maxPages : ℕ
  chunk : ℕ

structure Traffic (σ : Type*) where
  lineage : Lineage σ
  writers : List Writer

/-- Host threads reserve room, wait for the backend once, and then write all their
chunks; the other events are those of the image. -/
inductive TrafficEvent (σ : Type*)
  | reserve (sectors : ℕ)
  | pass (i : ℕ)
  | write (i lba : ℕ) (data : List σ) (addr : ℤ)
  | release (i : ℕ)
  | other (e : Event σ)

def Event.isWrite : Event σ → Bool
  | .act (.writev _ _ _) => true
  | _ => false

namespace Traffic

def create : Traffic σ := ⟨.create, []⟩

section Steps

variable (limits : Limits) (crc32 : Bytes → ℕ) (uuid : ℕ)

def reserve (sectors : ℕ) (t : Traffic σ) : Option (Traffic σ) :=
  match t.lineage.world with
  | .closed _ => none
  | .opened _ _ =>
      if (t.writers.map Writer.pages).sum + sectors / 8 ≤ limits.maxPages then
        some { t with writers := t.writers ++ [⟨sectors / 8, false, sectors⟩] }
      else none

/-- `backend_backpressure` waits while more PUTs than the window are outstanding. -/
def pass (i : ℕ) (t : Traffic σ) : Option (Traffic σ) :=
  match t.lineage.world, t.writers[i]? with
  | .opened cfg tx, some r =>
      if tx.inflight.length ≤ cfg.window then
        some { t with writers := t.writers.set i { r with passed := true } }
      else none
  | _, _ => none

def write (i lba : ℕ) (data : List σ) (addr : ℤ) (t : Traffic σ) : Option (Traffic σ) :=
  match t.writers[i]? with
  | none => none
  | some r =>
      if r.passed = true ∧ data.length = min r.left limits.chunk then
        (t.lineage.step crc32 uuid (.act (.writev lba data addr))).map fun lineage =>
          ⟨lineage, t.writers.set i { r with left := r.left - data.length }⟩
      else none

def release (i : ℕ) (t : Traffic σ) : Option (Traffic σ) :=
  match t.writers[i]? with
  | none => none
  | some r => if r.passed = true ∧ r.left = 0 then
      some { t with writers := t.writers.eraseIdx i } else none

def other (e : Event σ) (t : Traffic σ) : Option (Traffic σ) :=
  if e.isWrite then none
  else (t.lineage.step crc32 uuid e).map fun lineage =>
    ⟨lineage, match lineage.world with
      | .closed _ => []
      | .opened _ _ => t.writers⟩

def step (t : Traffic σ) : TrafficEvent σ → Option (Traffic σ)
  | .reserve sectors => t.reserve limits sectors
  | .pass i => t.pass i
  | .write i lba data addr => t.write limits crc32 uuid i lba data addr
  | .release i => t.release i
  | .other e => t.other crc32 uuid e

end Steps

end Traffic

def TrafficEvent.event : TrafficEvent σ → Option (Event σ)
  | .write _ lba data addr => some (.act (.writev lba data addr))
  | .other e => some e
  | _ => none

namespace Traffic

theorem step_cases {limits : Limits} {crc32 : Bytes → ℕ} {uuid : ℕ} {t t' : Traffic σ}
    {e : TrafficEvent σ} (stepped : t.step limits crc32 uuid e = some t') :
    (∃ event, e.event = some event ∧ t.lineage.step crc32 uuid event = some t'.lineage) ∨
      t'.lineage = t.lineage := by
  cases e with
  | reserve sectors =>
      simp only [step, reserve] at stepped
      split at stepped
      · cases stepped
      · split at stepped
        · cases stepped
          exact .inr rfl
        · cases stepped
  | pass i =>
      simp only [step, pass] at stepped
      split at stepped
      · split at stepped
        · cases stepped
          exact .inr rfl
        · cases stepped
      · cases stepped
  | write i lba data addr =>
      simp only [step, write] at stepped
      split at stepped
      · cases stepped
      · split at stepped
        · obtain ⟨lineage, taken, rfl⟩ := Option.map_eq_some_iff.mp stepped
          exact .inl ⟨_, rfl, taken⟩
        · cases stepped
  | release i =>
      simp only [step, release] at stepped
      split at stepped
      · cases stepped
      · split at stepped
        · cases stepped
          exact .inr rfl
        · cases stepped
  | other event =>
      simp only [step, other] at stepped
      split at stepped
      · cases stepped
      · obtain ⟨lineage, taken, rfl⟩ := Option.map_eq_some_iff.mp stepped
        exact .inl ⟨event, rfl, taken⟩

def Contained (window : ℕ) (t : Traffic σ) (e : TrafficEvent σ) : Prop :=
  ∀ event ∈ e.event, Lineage.Contained window t.lineage event

instance (window : ℕ) (t : Traffic σ) (e : TrafficEvent σ) : Decidable (t.Contained window e) :=
  inferInstanceAs (Decidable (∀ event ∈ e.event, Lineage.Contained window t.lineage event))

end Traffic

/-- In every history of sessions, crashes and recoveries, with any number of writers
that pass the back-pressure, in which recoveries delete four times `window` numbers
or more, garbage collection deletes only before the newest checkpoint, and every
crash comes after the first checkpoint, or with nothing in the backend, and finds
fewer than four windows of numbers given out from the oldest outstanding PUT on: the
session that wrote an object which recovery replays continued from every object
replayed before it, and recovery leaves no object after the last one it replays. -/
theorem recovery_keeps_generations {limits : Limits} {crc32 : Bytes → ℕ} {uuid window : ℕ}
    (uuidBound : uuid < 2 ^ 128) (positive : 0 < window) {events : List (TrafficEvent σ)}
    {t : Traffic σ}
    (along : Along (Traffic.step limits crc32 uuid) (Traffic.Contained window) .create events)
    (ran : run (Traffic.step limits crc32 uuid) .create events = some t) :
    (∀ n ∈ t.lineage.world.backend.replayed, ∀ m ∈ t.lineage.world.backend.replayed, m < n →
      t.lineage.chronicle.Continued (t.lineage.chronicle.author n) m) ∧
    ∀ backend (cfg : Config) image last store, t.lineage.world = .closed backend →
      window ≤ cfg.window → cfg.window * 4 ≤ 2 ^ 31 →
      recover cfg.window backend.super backend.store = some (.ok (image, last, store)) →
      ∀ (n : ℕ) (obj : Obj σ), store[n]? = some obj → n ≤ last := by
  have keeps : ∀ (t : Traffic σ) (e : TrafficEvent σ) (next : Traffic σ),
      t.lineage.Pure uuid window → t.Contained window e →
      t.step limits crc32 uuid e = some next → next.lineage.Pure uuid window := by
    intro t e next isPure contained stepped
    rcases Traffic.step_cases stepped with ⟨event, isEvent, taken⟩ | same
    · exact isPure.step uuidBound positive (contained event isEvent) taken
    · rw [same]
      exact isPure
  have isPure : t.lineage.Pure uuid window :=
    invariant_along keeps (Lineage.create_pure uuid window) along ran
  constructor
  · intro n upper m lower order
    obtain ⟨obj, present⟩ := replayed_present upper
    obtain ⟨other, otherPresent⟩ := replayed_present lower
    exact isPure.attributed.pairs n m obj other present otherPresent order
  · intro backend cfg image last store closed atLeast limit recovered
    have holds := isPure.world
    rw [closed] at holds
    exact Lineage.Short.early holds.2 holds.1 atLeast (recover_cases recovered)

def narrowConfig : Config := ⟨786432, 60, 1⟩

def wholeChunk (content : ℕ) : List ℕ := List.replicate 1536 content

def firstCheckpoint : List (TrafficEvent ℕ) :=
  [.other (.launch narrowConfig 1000000), .other (.act (.checkpoint 0)), .other (.act .work),
    .other (.act .ckptStep), .other (.act .ckptStep), .other (.act .ckptStep)]

def threeChunks : List (TrafficEvent ℕ) :=
  [.reserve 4608, .pass 0, .write 0 0 (wholeChunk 0) 0, .write 0 1536 (wholeChunk 0) 2000000,
    .write 0 3072 (wholeChunk 0) 3000000, .release 0, .other (.act (.flushThread 4000000)),
    .other (.act .work), .other (.act .work), .other (.act .work)]

def secondSession : List (TrafficEvent ℕ) :=
  [.other .crash, .other (.launch narrowConfig 1000000), .reserve 4608, .pass 0,
    .write 0 10000 (wholeChunk 1) 0, .write 0 11536 (wholeChunk 1) 2000000,
    .write 0 13072 (wholeChunk 1) 3000000, .release 0, .other (.act (.flushThread 4000000)),
    .other (.act .work), .other (.act .work), .other (.act .work), .other (.act (.complete 2)),
    .other (.act (.complete 3)), .other (.act (.complete 4)), .other .crash]

theorem recovery_keeps_generations_twice : ∃ t : Traffic ℕ,
    run (Traffic.step ⟨1000, 1536⟩ (fun _ => 0) 7) .create
        (firstCheckpoint ++ threeChunks ++ [.other (.act (.complete 4))] ++ secondSession) = some t ∧
      t.lineage.world.backend.replayed = [2, 3, 4] ∧
      ∀ n ∈ [2, 3, 4], ∀ m ∈ [2, 3, 4], m < n →
        t.lineage.chronicle.Continued (t.lineage.chronicle.author n) m := by
  obtain ⟨t, ran, held⟩ := (Option.any_eq_true _ _).mp
    (by decide +kernel : (run (Traffic.step ⟨1000, 1536⟩ (fun _ => 0) 7) .create
      (firstCheckpoint ++ threeChunks ++ [.other (.act (.complete 4))] ++ secondSession)).any
        (fun t => decide (t.lineage.world.backend.replayed = [2, 3, 4])) = true)
  have replayed := of_decide_eq_true held
  have pairs := (recovery_keeps_generations (by norm_num) one_pos (by decide +kernel) ran).1
  rw [replayed] at pairs
  exact ⟨t, ran, replayed, pairs⟩

/-- A request of four chunks passes once, and only its last object lands before the
crash. Recovery deletes numbers 2 to 4. After the next session has written them anew,
recovery replays them and then object 5 of the first session. -/
theorem generations_mix :
    (run (Traffic.step ⟨1000, 1536⟩ (fun _ => 0) 7) .create
      (firstCheckpoint ++ [.reserve 6144, .pass 0, .write 0 0 (wholeChunk 0) 0,
        .write 0 1536 (wholeChunk 0) 2000000, .write 0 3072 (wholeChunk 0) 3000000,
        .write 0 4608 (wholeChunk 0) 4000000, .release 0, .other (.act (.flushThread 5000000)),
        .other (.act .work), .other (.act .work), .other (.act .work), .other (.act .work),
        .other (.act (.complete 5))] ++ secondSession)).map (fun t =>
          (t.lineage.world.backend.replayed, t.lineage.chronicle.author 4,
            t.lineage.chronicle.author 5,
            decide (t.lineage.chronicle.Continued (t.lineage.chronicle.author 5) 4))) =
      some ([2, 3, 4, 5], 2, 1, false) := by
  decide +kernel

end LsvdRbd.Lifecycle
