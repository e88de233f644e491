import LsvdRbd.Journal.Requests
import LsvdRbd.Session.Batches
import LsvdRbd.Session.Coherence

/-!
# Journal order and log order

`write_cache_impl::writev` takes a journal record and its number under the journal's
lock and gives the lock up before it passes the write to `translate_impl::writev`, which
has a lock of its own. Between the two another call can overtake it.
-/

namespace LsvdRbd.Journal

open Machine Session

set_option autoImplicit false

variable {σ : Type*}

structure Call (σ : Type*) where
  seq : ℕ
  lba : ℕ
  data : List σ

structure Racing (σ : Type*) where
  wlog : Wlog
  /-- The calls in the order of their records. -/
  journal : List (Call σ)
  /-- The calls that have a record and have not reached the translation layer. -/
  between : List (Call σ)
  /-- The calls in the order in which the translation layer took them. -/
  stream : List (Call σ)
  batches : Batches σ

namespace Racing

def start (super : Super) (addr : ℤ) : Racing σ :=
  ⟨.openLog super, [], [], [], .start addr⟩

/-- The locked section of `writev`. -/
def take (lba : ℕ) (data : List σ) (s : Racing σ) : Option (Racing σ) :=
  ((s.wlog.writev lba (512 * data.length)).toOption).map fun (_, wlog) =>
    { s with
      wlog := wlog
      journal := s.journal ++ [⟨wlog.sequence - 1, lba, data⟩]
      between := s.between ++ [⟨wlog.sequence - 1, lba, data⟩] }

/-- The call of `translate_impl::writev` that follows it. -/
def pass (env : Env) (seq : ℕ) (addr : ℤ) (s : Racing σ) : Option (Racing σ) :=
  (s.between.find? fun call => decide (call.seq = seq)).bind fun call =>
    (s.batches.step env (.writev call.lba call.data addr)).map fun batches =>
      { s with
        between := s.between.filter fun other => decide (other.seq ≠ seq)
        stream := s.stream ++ [call]
        batches := batches }

end Racing

inductive RaceEvent (σ : Type*)
  | take (lba : ℕ) (data : List σ)
  | pass (seq : ℕ) (addr : ℤ)
  | other (action : BatchAction σ)

def Racing.step (env : Env) (s : Racing σ) : RaceEvent σ → Option (Racing σ)
  | .take lba data => s.take lba data
  | .pass seq addr => s.pass env seq addr
  | .other action =>
      if action.writes.length = 0 then
        (s.batches.step env action).map fun batches => { s with batches := batches }
      else none

/-- A call takes its record while no other call is between the two locks. -/
def Alone (s : Racing σ) : RaceEvent σ → Prop
  | .take _ _ => s.between.length = 0
  | _ => True

instance (s : Racing σ) (event : RaceEvent σ) : Decidable (Alone s event) := by
  cases event <;> unfold Alone <;> infer_instance

def content (v : ℤ → σ) (calls : List (Call σ)) : ℤ → σ :=
  calls.foldl (fun v call => writeVolume v call.lba call.data) v

namespace Racing

variable {env : Env} {s s' : Racing σ}

/-- The calls that have reached the translation layer are the first ones of the journal. -/
structure Serial (s : Racing σ) : Prop where
  split : s.journal = s.stream ++ s.between
  few : s.between.length ≤ 1
  numbered : s.journal.Pairwise fun a b => a.seq < b.seq
  below : ∀ call ∈ s.journal, call.seq < s.wlog.sequence
  appended : s.batches.appended.map (fun e => (e.lba, e.data)) =
    s.stream.map fun call => (call.lba, call.data)

theorem Serial.take (serial : s.Serial) {lba : ℕ} {data : List σ} (alone : s.between.length = 0)
    (taken : s.take lba data = some s') : s'.Serial := by
  obtain ⟨split, -, numbered, below, appended⟩ := serial
  obtain ⟨⟨recs, wlog⟩, written, rfl⟩ := Option.map_eq_some_iff.mp taken
  have later : s.wlog.sequence < wlog.sequence := by
    cases result : s.wlog.writev lba (512 * data.length) with
    | error failed =>
        rw [result] at written
        cases written
    | ok value =>
        rw [result] at written
        cases written
        exact Wlog.writev_sequence result
  refine ⟨?_, ?_, ?_, ?_, appended⟩
  · show s.journal ++ _ = s.stream ++ (s.between ++ _)
    rw [split, List.append_assoc]
  · simp [alone]
  · refine List.pairwise_append.mpr ⟨numbered, List.pairwise_singleton _ _, ?_⟩
    intro a old b new
    rw [List.mem_singleton.mp new]
    have := below a old
    show a.seq < wlog.sequence - 1
    omega
  · intro call member
    show call.seq < wlog.sequence
    rcases List.mem_append.mp member with old | new
    · exact (below call old).trans later
    · rw [List.mem_singleton.mp new]
      show wlog.sequence - 1 < wlog.sequence
      omega

theorem Serial.pass (serial : s.Serial) {seq : ℕ} {addr : ℤ}
    (passed : s.pass env seq addr = some s') : s'.Serial := by
  obtain ⟨split, few, numbered, below, appended⟩ := serial
  obtain ⟨call, found, rest⟩ := Option.bind_eq_some_iff.mp passed
  obtain ⟨batches, stepped, rfl⟩ := Option.map_eq_some_iff.mp rest
  have number : call.seq = seq := by simpa using List.find?_some found
  have only : s.between = [call] := by
    obtain ⟨other, same⟩ := List.length_eq_one_iff.mp
      (le_antisymm few (List.length_pos_of_mem (List.mem_of_find?_eq_some found)))
    rw [same] at found ⊢
    rw [List.mem_singleton.mp (List.mem_of_find?_eq_some found)]
  have none : s.between.filter (fun other => decide (other.seq ≠ seq)) = [] := by
    simp [only, number]
  refine ⟨?_, ?_, numbered, below, ?_⟩
  · show s.journal = s.stream ++ [call] ++ _
    rw [none, split, only, List.append_nil]
  · show (s.between.filter _).length ≤ 1
    rw [none]
    exact Nat.zero_le _
  · show batches.appended.map _ = (s.stream ++ [call]).map _
    rw [Batches.step_appended stepped, appended, List.map_append]
    rfl

theorem Serial.step (serial : s.Serial) {event : RaceEvent σ} (alone : Alone s event)
    (stepped : s.step env event = some s') : s'.Serial := by
  cases event with
  | take lba data => exact serial.take alone stepped
  | pass seq addr => exact serial.pass stepped
  | other action =>
      simp only [Racing.step, Option.ite_none_right_eq_some] at stepped
      obtain ⟨silent, stepped⟩ := stepped
      obtain ⟨batches, done, rfl⟩ := Option.map_eq_some_iff.mp stepped
      refine ⟨serial.split, serial.few, serial.numbered, serial.below, ?_⟩
      show batches.appended.map _ = _
      rw [Batches.step_appended done, List.length_eq_zero_iff.mp silent, List.append_nil]
      exact serial.appended

theorem start_serial (super : Super) (addr : ℤ) : (start super addr : Racing σ).Serial :=
  ⟨rfl, Nat.zero_le _, .nil, by simp [start], rfl⟩

theorem Serial.before (serial : s.Serial) {a b : Call σ} {i : ℕ} (taken : a ∈ s.journal)
    (passed : s.stream[i]? = some b) (less : a.seq < b.seq) : ∃ k < i, s.stream[k]? = some a := by
  obtain ⟨inside, -⟩ := List.getElem?_eq_some_iff.mp passed
  have later : s.journal[i]? = some b := by
    rw [serial.split, List.getElem?_append_left inside, passed]
  obtain ⟨k, earlier⟩ := List.mem_iff_getElem?.mp taken
  have before : k < i := by
    by_contra notBefore
    obtain ⟨kInside, rfl⟩ := List.getElem?_eq_some_iff.mp earlier
    obtain ⟨iInside, rfl⟩ := List.getElem?_eq_some_iff.mp later
    rcases Nat.eq_or_lt_of_le (Nat.le_of_not_lt notBefore) with same | after
    · simp only [same] at less
      omega
    · have := List.pairwise_iff_getElem.mp serial.numbered i k iInside kInside after
      omega
  refine ⟨k, before, ?_⟩
  rwa [serial.split, List.getElem?_append_left (by omega)] at earlier

end Racing

/-- In every run in which a call takes its record only while no other is between the two
locks, a call with a smaller number is appended first, and once no call is between the
locks the batches and the journal give every sector the same content. -/
theorem journal_order_is_log_order {env : Env} {super : Super} {addr : ℤ}
    {events : List (RaceEvent σ)} {t : Racing σ}
    (along : Along (Racing.step env) Alone (.start super addr) events)
    (ran : run (Racing.step env) (.start super addr) events = some t) :
    t.batches.appended.map (fun e => (e.lba, e.data)) =
      t.stream.map (fun call => (call.lba, call.data)) ∧
    (∀ a ∈ t.journal, ∀ (i : ℕ) (b : Call σ), t.stream[i]? = some b → a.seq < b.seq →
      ∃ k < i, t.stream[k]? = some a) ∧
    (t.between = [] → ∀ v, content v t.stream = content v t.journal) := by
  have serial : t.Serial := invariant_along
    (fun _ _ _ serial alone stepped => Racing.Serial.step serial alone stepped)
    (Racing.start_serial super addr) along ran
  refine ⟨serial.appended, ?_, ?_⟩
  · intro a taken i b passed less
    exact serial.before taken passed less
  · intro quiet v
    rw [serial.split, quiet, List.append_nil]

def serialCalls : List (RaceEvent ℕ) :=
  [.take 8 [1], .pass 1 0, .take 8 [2], .pass 2 0]

theorem journal_order_is_log_order_serial : ∃ t : Racing ℕ,
    run (Racing.step smallEnv) (.start (initWcache smallFile).1 1000000) serialCalls = some t ∧
      t.between = [] ∧ content (fun _ => 0) t.stream = content (fun _ => 0) t.journal ∧
      content (fun _ => 0) t.stream 8 = 2 := by
  obtain ⟨t, ran, held⟩ := (Option.any_eq_true _ _).mp
    (by decide +kernel : (run (Racing.step smallEnv) (.start (initWcache smallFile).1 1000000)
      serialCalls).any (fun t => decide (t.between.length = 0 ∧
        content (fun _ => 0) t.stream 8 = 2)) = true)
  obtain ⟨quiet, two⟩ := of_decide_eq_true held
  have none := List.length_eq_zero_iff.mp quiet
  exact ⟨t, ran, none, (journal_order_is_log_order (by decide +kernel) ran).2.2 none _, two⟩

/-- The second call overtakes the first between the locks: the journal ends with its
data, the batches with that of the first. -/
theorem overtaken_between_locks :
    (run (Racing.step smallEnv) (.start (initWcache smallFile).1 1000000) [.take 8 [1], .take 8 [2],
      .pass 2 0, .pass 1 0]).map (fun t => (t.stream.map Call.seq, t.journal.map Call.seq,
        content (fun _ => 0) t.stream 8, content (fun _ => 0) t.journal 8)) =
      some ([2, 1], [1, 2], 1, 2) := by
  decide +kernel

end LsvdRbd.Journal
