import LsvdRbd.Cache.Steps

/-!
# What a backend read leaves in the cache

`rados_read_req::notify` copies what was read into the buffer, if anything was.
`on_backend_done` does not look at the result: it publishes the buffer, and a
`read_request` completes with its length once its parts have notified it.
-/

namespace LsvdRbd.Cache

open Ledger Machine

set_option autoImplicit false

variable {β : Type*}

inductive Fetch (β : Type*)
  | failed (errno : ℕ)
  | got (data : List β)
deriving DecidableEq

namespace Fetch

def ret : Fetch β → ℤ
  | failed errno => -errno
  | got data => data.length

/-- `rados_read_req::notify`: what is in the buffer afterwards. -/
def copyInto (buffer : List β) : Fetch β → List β
  | failed _ => buffer
  | got data => if 0 < (got data).ret then data ++ buffer.drop data.length else buffer

theorem copy_into_got (buffer data : List β) :
    (got data).copyInto buffer = data ++ buffer.drop data.length := by
  rw [copyInto]
  split
  · rfl
  · next none =>
      have empty : data = [] := List.length_eq_zero_iff.mp (by simp only [ret] at none; omega)
      simp [empty]

end Fetch

/-- `read_request`: its length, the requests that `handle_reads` made for it, and whether
`num_subreqs` has been set. -/
structure ReadRequest where
  bytes : ℕ
  parts : List ℕ
  launched : Bool

/-- What a request of the cache contributes to `num_subreqs`: one until it notifies. A read
that is answered at once is no request. -/
def Req.outstanding (r : Req β) : ℤ :=
  if r.isDirect then 0 else 1 - ((r.read.map Read.notified).getD 0 : ℕ)

def ReadRequest.numSubreqs (s : Shard β) (p : ReadRequest) : ℤ :=
  ((p.parts.filterMap (s.reqs[·]?)).map Req.outstanding).sum

def ReadRequest.result (s : Shard β) (p : ReadRequest) : Option ℤ :=
  if p.launched ∧ p.numSubreqs s ≤ 0 then some p.bytes else none

structure Reader (β : Type*) where
  shard : Shard β
  reads : List ReadRequest

/-- `begin`, `part` and `launch` are `read_request::run`; `fetched` is the completion of a
backend read for a buffer that `aligned_alloc` left as it is. -/
inductive ReaderEvent (β : Type*)
  | begin (bytes : ℕ)
  | part (i : ℕ) (key : Key) (adjust len : ℕ)
  | launch (i : ℕ)
  | fetched (id : ℕ) (buffer : List β) (outcome : Fetch β)
  | cache (event : Event β)

def Event.other : Event β → Bool
  | .read _ _ _ | .backendDone _ _ => false
  | _ => true

namespace Reader

def start (size : ℕ) : Reader β := ⟨.start size, []⟩

def step (s : Reader β) : ReaderEvent β → Option (Reader β)
  | .begin bytes => some { s with reads := s.reads ++ [⟨bytes, [], false⟩] }
  | .part i key adjust len =>
      match s.reads[i]? with
      | some ⟨bytes, parts, false⟩ =>
          (s.shard.next (.read key adjust len)).map fun shard =>
            ⟨shard, s.reads.set i ⟨bytes, parts ++ [s.shard.reqs.length], false⟩⟩
      | _ => none
  | .launch i =>
      match s.reads[i]? with
      | some ⟨bytes, parts, false⟩ =>
          some { s with reads := s.reads.set i ⟨bytes, parts, true⟩ }
      | _ => none
  | .fetched id buffer outcome =>
      (s.shard.next (.backendDone id (outcome.copyInto buffer))).map fun shard =>
        { s with shard := shard }
  | .cache event =>
      if event.other then (s.shard.next event).map fun shard => { s with shard := shard }
      else none

variable (object : String → ℕ → List β)

/-- Every backend read succeeds with the bytes of the object, up to its end, and what is
inserted are the bytes of an object. -/
def Delivers (s : Reader β) : ReaderEvent β → Prop
  | .fetched id _ outcome => ∀ r ∈ s.shard.reqs[id]?,
      outcome = .got (((object r.key.image r.key.seq).drop r.key.offset).take chunkSize)
  | .cache (.insert key data) => Holds object key data
  | _ => True

/-- No chunk is valid, or served while it is filled, with other bytes than the object's. -/
def Clean (s : Reader β) : Prop :=
  ∀ c, ((s.shard.entries c).status = .valid →
      Holds object (s.shard.entries c).key (s.shard.store c)) ∧
    ((s.shard.entries c).status = .filling → ∀ buf,
      ((s.shard.entries c).fill.bind fun id => s.shard.reqs[id]?.bind Req.buffer) = some buf →
        Holds object (s.shard.entries c).key buf)

def Truthful (s : Reader β) : Prop :=
  ∀ p ∈ s.reads, ∀ n, p.result s.shard = some n → 0 ≤ n → ∀ id ∈ p.parts,
    ∀ r ∈ s.shard.reqs[id]?, ∀ read ∈ r.read, read.Served object

instance [DecidableEq β] (s : Reader β) :
    (event : ReaderEvent β) → Decidable (s.Delivers object event)
  | .fetched id _ outcome =>
      match found : s.shard.reqs[id]? with
      | none => .isTrue (by simp [Delivers, found])
      | some r => decidable_of_iff
          (outcome = .got (((object r.key.image r.key.seq).drop r.key.offset).take chunkSize))
          (by simp [Delivers, found])
  | .cache (.insert key data) => (inferInstance : Decidable
      (((object key.image key.seq).drop key.offset).take chunkSize <+: data))
  | .cache (.read _ _ _) | .cache (.run _) | .cache (.storeRead _) | .cache (.hitDone _)
  | .cache (.backendDone _ _) | .cache (.dispatch _) | .cache (.answer _)
  | .cache (.storeWritten _) | .cache (.storeDone _) | .begin _ | .part _ _ _ _
  | .launch _ => .isTrue trivial

variable {object} {s t : Reader β}

theorem step_cases {event : ReaderEvent β} (delivers : s.Delivers object event)
    (stepped : s.step event = some t) :
    t.shard = s.shard ∨
      ∃ e, s.shard.next e = some t.shard ∧ Honest object s.shard e := by
  cases event with
  | begin bytes =>
      cases stepped
      exact .inl rfl
  | part i key adjust len =>
      simp only [step] at stepped
      split at stepped
      · obtain ⟨shard, moved, rfl⟩ := Option.map_eq_some_iff.mp stepped
        exact .inr ⟨_, moved, Shard.honest_of_next moved⟩
      · cases stepped
  | launch i =>
      simp only [step] at stepped
      split at stepped
      · cases stepped
        exact .inl rfl
      · cases stepped
  | fetched id buffer outcome =>
      obtain ⟨shard, moved, rfl⟩ := Option.map_eq_some_iff.mp stepped
      refine .inr ⟨_, moved, ?_⟩
      intro r found
      rw [delivers r found, Fetch.copy_into_got]
      exact List.prefix_append _ _
  | cache e =>
      simp only [step] at stepped
      split at stepped
      · next other =>
          obtain ⟨shard, moved, rfl⟩ := Option.map_eq_some_iff.mp stepped
          refine .inr ⟨e, moved, ?_⟩
          cases e with
          | insert key data => exact delivers
          | read key adjust len => cases other
          | backendDone id data => cases other
          | _ => trivial
      · cases stepped

theorem ok_step {event : ReaderEvent β} (ok : s.shard.Ok object)
    (delivers : s.Delivers object event) (stepped : s.step event = some t) :
    t.shard.Ok object := by
  rcases step_cases delivers stepped with same | ⟨e, moved, honest⟩
  · rw [same]
    exact ok
  · exact ok.next honest moved

theorem clean_of_ok (ok : s.shard.Ok object) : s.Clean object := fun c =>
  ⟨(ok.sound c).kept, fun filling _ buffered => ok.fill_buffer filling buffered⟩

/-- Once `num_subreqs` is down to zero, every part has been answered. -/
theorem truthful_of_ok (ok : s.shard.Ok object) : s.Truthful object := by
  intro p member n completed _ id part r found read of
  rw [ReadRequest.result] at completed
  split at completed
  case isFalse => cases completed
  case isTrue done =>
    have nonneg : ∀ r ∈ p.parts.filterMap (s.shard.reqs[·]?), 0 ≤ r.outstanding := by
      intro q among
      obtain ⟨j, -, at_j⟩ := List.mem_filterMap.mp among
      rw [Req.outstanding]
      split
      · exact le_rfl
      · cases answered : q.read with
        | none => simp
        | some other =>
            have := ((ok.sane_at at_j).served answered).1
            simp only [Option.map_some, Option.getD_some]
            omega
    have among : r ∈ p.parts.filterMap (s.shard.reqs[·]?) :=
      List.mem_filterMap.mpr ⟨id, part, found⟩
    have each : ∀ n ∈ (p.parts.filterMap (s.shard.reqs[·]?)).map Req.outstanding, 0 ≤ n := by
      intro n mapped
      obtain ⟨q, inside, rfl⟩ := List.mem_map.mp mapped
      exact nonneg q inside
    have outstanding : r.outstanding ≤ 0 :=
      (List.single_le_sum each _ (List.mem_map_of_mem among)).trans done.2
    refine ((ok.sane_at found).served of).2 ?_
    rw [Req.outstanding] at outstanding
    split at outstanding
    · next direct => exact .inr direct
    · have once := ((ok.sane_at found).served of).1
      rw [show r.read = some read from of] at outstanding
      simp only [Option.map_some, Option.getD_some] at outstanding
      exact .inl (by omega)

theorem fetched_clean_iff {id : ℕ} {buffer : List β} {outcome : Fetch β} {r : Req β}
    (ok : s.shard.Ok object) (found : s.shard.reqs[id]? = some r)
    (stepped : s.step (.fetched id buffer outcome) = some t) :
    t.Clean object ↔ Holds object r.key (outcome.copyInto buffer) := by
  obtain ⟨shard, moved, rfl⟩ := Option.map_eq_some_iff.mp stepped
  constructor
  · intro clean
    cases Shard.next_cases moved with
    | @move _ _ c _ _ _ _ at_id moves =>
        cases moves with
        | backendDone q buf data =>
            cases found.symm.trans at_id
            have uses : (Req.miss c q buf .fetching).uses c = true := by
              simp
            have keyed := (ok.sound c).keyed id _ found uses
            have published := (clean c).2
            simp only [Shard.moved, Function.update_self, Option.bind_some, set_lookup found,
              if_true] at published
            rw [keyed]
            exact published trivial _ rfl
  · intro holds
    have honest : Honest object s.shard (.backendDone id (outcome.copyInto buffer)) := by
      intro q at_id
      cases found.symm.trans at_id
      exact holds
    exact clean_of_ok (ok.next honest moved)

end Reader

/-- In every run in which each backend read succeeds with the object's bytes, no chunk is
valid or served while it is filled with other bytes, and a read that completes with a
result that is not negative has the object's bytes. The first backend read that leaves
other bytes in its buffer, by an error or an early end, puts them into the cache. -/
theorem delivered_fetches_keep_cache (object : String → ℕ → List β) (size : ℕ)
    {events : List (ReaderEvent β)} {t : Reader β}
    (delivers : Along Reader.step (Reader.Delivers object) (Reader.start size) events)
    (ran : run Reader.step (Reader.start size) events = some t) :
    t.Clean object ∧ t.Truthful object ∧
      ∀ (id : ℕ) (buffer : List β) (outcome : Fetch β) (r : Req β) (u : Reader β),
        t.shard.reqs[id]? = some r → t.step (.fetched id buffer outcome) = some u →
        (u.Clean object ↔ Holds object r.key (outcome.copyInto buffer)) := by
  have ok : t.shard.Ok object := invariant_along
    (fun _ _ _ ok delivers stepped => Reader.ok_step ok delivers stepped)
    (Shard.start_ok size) delivers ran
  refine ⟨Reader.clean_of_ok ok, Reader.truthful_of_ok ok, ?_⟩
  intro id buffer outcome r u found stepped
  exact Reader.fetched_clean_iff ok found stepped

def threeBytes (image : String) (seq : ℕ) : List ℕ :=
  if image = "disk" ∧ seq = 1 then [7, 8, 9] else []

def missThenHit (outcome : Fetch ℕ) : List (ReaderEvent ℕ) :=
  [.begin 3, .part 0 ⟨"disk", 1, 0⟩ 0 3, .launch 0, .cache (.run 0), .fetched 0 [0, 0, 0, 0] outcome,
    .cache (.answer 0), .cache (.storeWritten 0), .cache (.storeDone 0), .begin 2,
    .part 1 ⟨"disk", 1, 0⟩ 1 2, .launch 1, .cache (.run 1), .cache (.storeRead 1)]

theorem delivered_fetches_keep_cache_short : ∃ t : Reader ℕ,
    run Reader.step (Reader.start 1) (missThenHit (.got [7, 8, 9])) = some t ∧
      t.reads.map (ReadRequest.result t.shard) = [some 3, some 2] ∧
      t.Clean threeBytes ∧ t.Truthful threeBytes := by
  obtain ⟨t, ran, held⟩ := (Option.any_eq_true _ _).mp
    (by decide +kernel : (run Reader.step (Reader.start 1) (missThenHit (.got [7, 8, 9]))).any
      (fun t => decide (t.reads.map (ReadRequest.result t.shard) = [some 3, some 2])) = true)
  obtain ⟨clean, truthful, -⟩ := delivered_fetches_keep_cache threeBytes 1
    (by decide +kernel) ran
  exact ⟨t, ran, of_decide_eq_true held, clean, truthful⟩

/-- The backend read fails: both reads complete with their lengths, with what was in the
buffer, and the chunk is valid. -/
theorem failed_fetch_poisons : ∃ t : Reader ℕ,
    run Reader.step (Reader.start 1) (missThenHit (.failed 2)) = some t ∧
      t.reads.map (ReadRequest.result t.shard) = [some 3, some 2] ∧
      t.shard.reqs.filterMap (fun r => r.read.map Read.dest) = [[0, 0, 0], [0, 0]] ∧
      (t.shard.entries 0).status = .valid ∧ ¬ t.Clean threeBytes ∧ ¬ t.Truthful threeBytes := by
  obtain ⟨t, ran, held⟩ := (Option.any_eq_true _ _).mp
    (by decide +kernel : (run Reader.step (Reader.start 1) (missThenHit (.failed 2))).any
      (fun t => decide (t.reads.map (ReadRequest.result t.shard) = [some 3, some 2] ∧
        t.shard.reqs.filterMap (fun r => r.read.map Read.dest) = [[0, 0, 0], [0, 0]] ∧
        (t.shard.entries 0).status = .valid ∧
        ¬ ((threeBytes (t.shard.entries 0).key.image (t.shard.entries 0).key.seq).drop
          (t.shard.entries 0).key.offset).take chunkSize <+: t.shard.store 0) &&
        t.reads[0]?.any (fun p => decide (p.result t.shard = some 3) && p.parts.any fun id =>
          t.shard.reqs[id]?.any fun r => r.read.any fun read =>
            decide (¬ bytes threeBytes read <+: read.dest))) = true)
  obtain ⟨state, read⟩ := Bool.and_eq_true_iff.mp held
  obtain ⟨results, dests, valid, wrong⟩ := of_decide_eq_true state
  refine ⟨t, ran, results, dests, valid, fun clean => wrong ((clean 0).1 valid), ?_⟩
  obtain ⟨p, at_p, read⟩ := (Option.any_eq_true _ _).mp read
  obtain ⟨completed, read⟩ := Bool.and_eq_true_iff.mp read
  obtain ⟨id, part, read⟩ := List.any_eq_true.mp read
  obtain ⟨r, found, read⟩ := (Option.any_eq_true _ _).mp read
  obtain ⟨q, of, unserved⟩ := (Option.any_eq_true _ _).mp read
  intro truthful
  exact of_decide_eq_true unserved (truthful p (List.mem_of_getElem? at_p) 3
    (of_decide_eq_true completed) (by decide) id part r found q of)

end LsvdRbd.Cache
