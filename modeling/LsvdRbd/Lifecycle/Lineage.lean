import LsvdRbd.Lifecycle.Superblock
import LsvdRbd.Session.Contiguous

/-!
# Sessions that continue each other

Each object in the backend was written by some session, and each session continued
from the objects that it found. A crash leaves objects beyond the first missing
number, and recovery deletes a window of numbers to be rid of them. What it does not
delete is found by a later recovery behind objects of another session.
-/

namespace LsvdRbd.Lifecycle

open Records RunList ExtentMap Format Translate Recovery Session Machine

set_option autoImplicit false

variable {σ : Type*}

/-- Who wrote what: the number of the session that is open or was the last one, the
session that wrote the object under each number, and for each session the number it
started from and the authors of what it found before that. -/
structure Chronicle where
  session : ℕ
  author : ℕ → ℕ
  start : ℕ → ℕ
  found : ℕ → ℕ → ℕ

namespace Chronicle

def empty : Chronicle := ⟨0, fun _ => 0, fun _ => 0, fun _ _ => 0⟩

def opens (r : Chronicle) (first : ℕ) : Chronicle :=
  { r with
    session := r.session + 1
    start := Function.update r.start (r.session + 1) first
    found := Function.update r.found (r.session + 1) r.author }

theorem opens_start (r : Chronicle) (first : ℕ) :
    (r.opens first).start (r.opens first).session = first := Function.update_self _ _ _

def writes (r : Chronicle) (n : ℕ) : Chronicle :=
  { r with author := Function.update r.author n r.session }

/-- The session continued from the object that now has the number: it is the one it
found when it was opened, or one it wrote. -/
def Continued (r : Chronicle) (session n : ℕ) : Prop :=
  (n < r.start session → r.author n = r.found session n) ∧
    (r.start session ≤ n → r.author n = session)

instance (r : Chronicle) (session n : ℕ) : Decidable (r.Continued session n) :=
  inferInstanceAs (Decidable (_ ∧ _))

end Chronicle

structure Lineage (σ : Type*) where
  world : World σ
  chronicle : Chronicle

namespace Lineage

def create : Lineage σ := ⟨World.create, .empty⟩

def record (r : Chronicle) (w : World σ) (e : Event σ) (w' : World σ) : Chronicle :=
  match e, w, w' with
  | .launch _ _, _, .opened _ tx => r.opens tx.curSeq
  | .act a, .opened _ tx, _ => match tx.lands a with
      | some n => r.writes n
      | none => r
  | _, _, _ => r

def step (crc32 : Bytes → ℕ) (uuid : ℕ) (h : Lineage σ) (e : Event σ) : Option (Lineage σ) :=
  (Lifecycle.step crc32 uuid h.world e).map fun w => ⟨w, record h.chronicle h.world e w⟩

end Lineage

/-! ## What recovery replays -/

def dataFrom (store : Store σ) : ℕ → ℕ → List ℕ
  | 0, _ => []
  | fuel + 1, n => match readDataHdr store[n]? with
      | .ok (some _) => n :: dataFrom store fuel (nextSeq n)
      | _ => []

def Backend.replayed (backend : Backend σ) : List ℕ :=
  match backend.super.getLast? with
  | none => []
  | some c => dataFrom backend.store (backend.store.size + 1) (nextSeq c)

theorem reads_as_data_present {obj : Option (Obj σ)} (reads : ReadsAsData obj) :
    ∃ found, obj = some found := by
  obtain ⟨parsed, read⟩ := reads
  cases obj with
  | none => cases read
  | some found => exact ⟨found, rfl⟩

variable {store : Store σ}

theorem data_from_present {fuel first n : ℕ} (member : n ∈ dataFrom store fuel first) :
    ∃ obj, store[n]? = some obj := by
  induction fuel generalizing first with
  | zero => cases member
  | succ fuel ih =>
      unfold dataFrom at member
      split at member
      · next parsed read =>
          rcases List.mem_cons.mp member with rfl | later
          · exact reads_as_data_present ⟨parsed, read⟩
          · exact ih later
      · cases member

variable {backend : Backend σ}

theorem replayed_present {n : ℕ} (member : n ∈ backend.replayed) :
    ∃ obj, backend.store[n]? = some obj := by
  unfold Backend.replayed at member
  split at member
  · cases member
  · exact data_from_present member

/-- An object is applied if it reads as data, and the replay stops at one that does
not. -/
theorem apply_log_reads {seq : ℕ} {obj : Option (Obj σ)} {s : Image} {result : Option Image}
    (applied : applyLog obj seq s = .ok result) : ReadsAsData obj ↔ result.isSome = true := by
  unfold ReadsAsData
  rcases apply_log_cases applied with ⟨read, rfl⟩ | ⟨parsed, info, read, -, rfl⟩
  · simp [read]
  · simp [read]

theorem replay_reads {fuel seq stop : ℕ} {s image : Image}
    (stored : ∀ (n : ℕ) (obj : Obj σ), store[n]? = some obj → n < 2 ^ 31)
    (ran : replay (fun n => applyLog store[n]? n) fuel seq s = some (.ok (image, stop))) :
    ¬ReadsAsData store[stop]? ∧ ∀ n, seq ≤ n → n < stop → ReadsAsData store[n]? := by
  refine replay_induction (motive := fun _ seq _ =>
    ¬ReadsAsData store[stop]? ∧ ∀ n, seq ≤ n → n < stop → ReadsAsData store[n]?) ?_ ?_ ran
  · intro fuel applied
    refine ⟨by simp [apply_log_reads applied], ?_⟩
    intro n lower upper
    omega
  · intro fuel seq s next applied _ later
    have here : ReadsAsData store[seq]? := (apply_log_reads applied).mpr rfl
    obtain ⟨obj, present⟩ := reads_as_data_present here
    rw [next_seq_eq (stored seq obj present)] at later
    obtain ⟨stops, before⟩ := later
    refine ⟨stops, ?_⟩
    intro n lower upper
    rcases Nat.eq_or_lt_of_le lower with rfl | further
    · exact here
    · exact before n further upper

/-! ## The invariant -/

namespace Chronicle

variable {r : Chronicle} {store store' : Store σ}

/-- No object is by a session to come, and the author of each object continued from
every object with a smaller number. -/
structure Attributed (r : Chronicle) (store : Store σ) : Prop where
  authors : ∀ (n : ℕ) (obj : Obj σ), store[n]? = some obj → r.author n ≤ r.session
  pairs : ∀ (n m : ℕ) (obj other : Obj σ), store[n]? = some obj → store[m]? = some other → m < n →
    r.Continued (r.author n) m

theorem Attributed.fewer (attributed : r.Attributed store)
    (fewer : ∀ (n : ℕ) (obj : Obj σ), store'[n]? = some obj → store[n]? = some obj) :
    r.Attributed store' where
  authors n obj present := attributed.authors n obj (fewer n obj present)
  pairs n m obj other upper lower order :=
    attributed.pairs n m obj other (fewer n obj upper) (fewer m other lower) order

def Owns (r : Chronicle) (store : Store σ) : Prop :=
  ∀ (n : ℕ) (obj : Obj σ), store[n]? = some obj → r.Continued r.session n

theorem Attributed.opens (attributed : r.Attributed store) {first : ℕ}
    (early : ∀ (n : ℕ) (obj : Obj σ), store[n]? = some obj → n < first) :
    (r.opens first).Attributed store ∧ (r.opens first).Owns store := by
  refine ⟨⟨?_, ?_⟩, ?_⟩
  · intro n obj present
    exact (attributed.authors n obj present).trans (Nat.le_succ _)
  · intro n m obj other upper lower order
    have old := attributed.authors n obj upper
    have continued := attributed.pairs n m obj other upper lower order
    have start : (r.opens first).start (r.author n) = r.start (r.author n) :=
      Function.update_of_ne (by omega) _ _
    have found : (r.opens first).found (r.author n) = r.found (r.author n) :=
      Function.update_of_ne (by omega) _ _
    change (r.opens first).Continued (r.author n) m
    unfold Continued
    rw [start, found]
    exact continued
  · intro n obj present
    have start : (r.opens first).start (r.session + 1) = first := Function.update_self _ _ _
    have found : (r.opens first).found (r.session + 1) = r.author := Function.update_self _ _ _
    have before := early n obj present
    change (r.opens first).Continued (r.session + 1) n
    unfold Continued
    rw [start, found]
    exact ⟨fun _ => rfl, fun late => absurd before (by omega)⟩

theorem Attributed.writes (attributed : r.Attributed store) (owns : r.Owns store) {n : ℕ}
    (late : r.start r.session ≤ n) (obj : Obj σ) :
    (r.writes n).Attributed (store.insert n obj) ∧ (r.writes n).Owns (store.insert n obj) := by
  have other : ∀ m, n ≠ m → (r.writes n).author m = r.author m := fun m different =>
    Function.update_of_ne (Ne.symm different) _ _
  have here : (r.writes n).author n = r.session := Function.update_self _ _ _
  have kept : ∀ g m, n ≠ m → r.Continued g m → (r.writes n).Continued g m := by
    intro g m different continued
    unfold Continued
    rw [other m different]
    exact continued
  have fresh : (r.writes n).Continued r.session n :=
    ⟨fun early => absurd late (not_le.mpr early), fun _ => here⟩
  have ownsAfter : (r.writes n).Owns (store.insert n obj) := by
    intro m any present
    by_cases same : n = m
    · exact same ▸ fresh
    · rw [table_insert, if_neg same] at present
      exact kept _ m same (owns m any present)
  refine ⟨⟨?_, ?_⟩, ownsAfter⟩
  · intro m any present
    by_cases same : n = m
    · rw [← same, here]
      exact le_refl _
    · rw [table_insert, if_neg same] at present
      rw [other m same]
      exact attributed.authors m any present
  · intro upper lower top bottom upperPresent lowerPresent order
    by_cases isUpper : n = upper
    · rw [← isUpper, here]
      exact ownsAfter lower bottom lowerPresent
    · rw [table_insert, if_neg isUpper] at upperPresent
      rw [other upper isUpper]
      by_cases isLower : n = lower
      · -- the later object comes after the start of this session, so it is of this session
        have author : r.author upper = r.session :=
          (owns upper top upperPresent).2 (by omega)
        rw [author]
        exact isLower ▸ fresh
      · rw [table_insert, if_neg isLower] at lowerPresent
        exact kept _ lower isLower
          (attributed.pairs upper lower top bottom upperPresent lowerPresent order)

end Chronicle

/-- Whatever lies beyond a missing number of the log is within the window. -/
structure Short (window : ℕ) (backend : Backend σ) : Prop where
  reach : ∀ c, backend.super.getLast? = some c → ∀ n, c < n → ¬ReadsAsData backend.store[n]? →
    ∀ (m : ℕ) (obj : Obj σ), backend.store[m]? = some obj → m + 1 < n + 4 * window
  blank : backend.super = [] → ∀ n : ℕ, backend.store[n]? = none

/-- Recovery uses at least the window, and a crash comes after the first checkpoint, or before
anything is written, and finds fewer than four windows of numbers given out from the oldest
PUT on its way; `acts` is what is asked of the steps of a session. -/
def World.Within (window : ℕ) (acts : Tx σ → Action σ → Prop) (w : World σ) : Event σ → Prop
  | .launch cfg _ | .abandon cfg _ => window ≤ cfg.window ∧ cfg.window * 4 ≤ 2 ^ 31
  | .act a => match w with
      | .opened _ tx => acts tx a
      | .closed _ => True
  | .crash => match w with
      | .opened _ tx => (tx.super = [] → tx.store.isEmpty = true) ∧
          ∀ put ∈ tx.inflight, tx.curSeq < put.seq + 4 * window
      | .closed _ => True

instance (window : ℕ) (acts : Tx σ → Action σ → Prop) [∀ tx a, Decidable (acts tx a)]
    (w : World σ) (e : Event σ) : Decidable (w.Within window acts e) := by
  unfold World.Within
  induction e using Event.casesOn <;> induction w using World.casesOn <;> infer_instance

namespace Lineage

structure Current (start : ℕ) (tx : Tx σ) : Prop where
  early : ∀ (n : ℕ) (obj : Obj σ), tx.store[n]? = some obj → n < tx.curSeq
  flying : ∀ put ∈ tx.inflight, start ≤ put.seq
  writing : ∀ c, tx.ckpting = some c → start ≤ c.seq
  started : start ≤ tx.curSeq

structure Pure (uuid window : ℕ) (h : Lineage σ) : Prop where
  attributed : h.chronicle.Attributed h.world.backend.store
  world : match h.world with
    | .closed backend => Sealed uuid backend ∧ Short window backend
    | .opened _ tx => tx.Guarded uuid ∧ tx.Dense ∧ h.chronicle.Owns tx.store ∧
        Current (h.chronicle.start h.chronicle.session) tx

/-- Garbage collection deletes only before the newest checkpoint. -/
def Contained (window : ℕ) (h : Lineage σ) (e : Event σ) : Prop :=
  h.world.Within window (fun tx a => NumbersLeft tx a ∧ tx.DeletesOld a) e

instance (window : ℕ) (h : Lineage σ) (e : Event σ) : Decidable (Contained window h e) :=
  inferInstanceAs (Decidable (World.Within _ _ _ _))

/-! ## One step -/

theorem Current.step {env : Env} {start : ℕ} {tx tx' : Tx σ} {a : Action σ}
    (current : Current start tx) (stepped : Tx.Stepped env tx a tx') (left : NumbersLeft tx a)
    (separate : tx.Separate) : Current start tx' := by
  have grows := (stepped.counts left).1
  have started := current.started
  refine ⟨stepped.early left separate current.early, ?_, ?_, by omega⟩
  · intro put member
    rcases stepped.sends put member with old | new
    · exact current.flying put old
    · omega
  · intro c busy
    rcases stepped.begins c busy with ⟨old, before, seq⟩ | new
    · rw [← seq]
      exact current.writing old before
    · omega

/-- The window that recovery deletes takes away all that dangles. -/
theorem Short.early {uuid window window' last : ℕ} {image : Image} (short : Short window backend)
    (isSealed : Sealed uuid backend) (atLeast : window ≤ window')
    (found : Recovered window' backend.super backend.store image last store) :
    ∀ (n : ℕ) (obj : Obj σ), store[n]? = some obj → n ≤ last := by
  intro n obj present
  cases found with
  | blank none =>
      rw [short.blank none n] at present
      cases present
  | replayed isLast read ran =>
      rename_i ckpt stop loaded
      have before := delete_first_present present
      have small := isSealed.stored n obj before
      obtain ⟨later, upper, -⟩ := isSealed.replay_bounds isLast ran
      obtain ⟨stops, -⟩ := replay_reads isSealed.stored ran
      have reach := short.reach ckpt isLast stop later stops n obj before
      rw [prev_seq_pred (by omega) upper] at present ⊢
      by_contra beyond
      rw [delete_first_lookup, if_pos] at present
      · cases present
      · refine List.mem_map.mpr ⟨n - (stop - 1), ?_, ?_⟩
        · rw [List.mem_range'_1]
          omega
        · rw [Nat.mod_eq_of_lt (by omega)]
          omega

theorem reopened_dense {uuid window last : ℕ} {image : Image} (isSealed : Sealed uuid backend)
    (limit : window * 4 ≤ 2 ^ 31)
    (found : Recovered window backend.super backend.store image last store) (addr : ℤ) :
    (reopen image last { backend with store := store } addr).Dense := by
  refine ⟨?_, by simp [reopen], by simp [reopen]⟩
  intro c newest n after before
  cases found with
  | blank none => simp [reopen, none] at newest
  | replayed isLast read ran =>
      rename_i stop loaded
      cases isLast.symm.trans newest
      obtain ⟨later, upper, first⟩ := isSealed.replay_bounds isLast ran
      obtain ⟨-, reads⟩ := replay_reads isSealed.stored ran
      have inside : n < nextSeq (prevSeq stop) := before
      rw [prev_seq_pred (by omega) upper, next_seq_eq (by omega)] at inside
      refine .inl ?_
      change ReadsAsData (deleteFirst _ (prevSeq stop) _)[n]?
      rw [prev_seq_pred (by omega) upper, delete_first_before _ (by omega) (by omega)]
      exact reads n (by omega) (by omega)

/-- Deletes from the first missing number on leave the rest within the window. -/
theorem Short.delete_first {uuid window window' last count : ℕ} {image : Image}
    (short : Short window backend) (isSealed : Sealed uuid backend)
    (found : Recovered window' backend.super backend.store image last store)
    (listed : backend.super ≠ []) (bound : last + count < 2 ^ 32) :
    Short window { backend with store := deleteFirst count last backend.store } := by
  refine ⟨?_, fun none => absurd none listed⟩
  intro c newest n after gone m obj present
  cases found with
  | blank none => exact absurd none listed
  | replayed isLast read ran =>
      rename_i stop loaded
      cases isLast.symm.trans newest
      obtain ⟨later, upper, -⟩ := isSealed.replay_bounds isLast ran
      obtain ⟨stops, -⟩ := replay_reads isSealed.stored ran
      have before := delete_first_present present
      rw [prev_seq_pred (by omega) upper] at gone bound
      by_cases early : n ≤ stop - 1
      · rw [delete_first_before _ early bound] at gone
        exact short.reach _ isLast n after gone m obj before
      · have reach := short.reach _ isLast stop later stops m obj before
        omega

theorem Short.of_crash {window : ℕ} {tx : Tx σ} (positive : 0 < window) (dense : tx.Dense)
    (early : ∀ (n : ℕ) (obj : Obj σ), tx.store[n]? = some obj → n < tx.curSeq)
    (blank : tx.super = [] → tx.store.isEmpty = true)
    (few : ∀ put ∈ tx.inflight, tx.curSeq < put.seq + 4 * window) :
    Short window (⟨tx.store, tx.super⟩ : Backend σ) := by
  constructor
  · intro c newest n after gone m obj present
    have earlier := early m obj present
    rcases Nat.lt_or_ge n tx.curSeq with before | late
    · rcases dense.log c newest n after before with there | ⟨put, member, seq⟩ | ⟨k, busy, seq⟩
      · exact absurd there gone
      · have := few put member
        omega
      · have := dense.next k busy
        omega
    · omega
  · intro none n
    have empty : tx.store = ∅ := Std.ExtTreeMap.isEmpty_iff.mp (blank none)
    change tx.store[n]? = _
    rw [empty]
    simp

theorem Pure.step {crc32 : Bytes → ℕ} {uuid window : ℕ} {h h' : Lineage σ} {e : Event σ}
    (isPure : h.Pure uuid window) (uuidBound : uuid < 2 ^ 128) (positive : 0 < window)
    (contained : Contained window h e) (stepped : h.step crc32 uuid e = some h') :
    h'.Pure uuid window := by
  obtain ⟨world, r⟩ := h
  obtain ⟨attributed, holds⟩ := isPure
  obtain ⟨w, moved, rfl⟩ := Option.map_eq_some_iff.mp stepped
  cases step_cases moved with
  | launch recovered =>
      rename_i backend cfg addr image last store
      obtain ⟨isSealed, short⟩ := holds
      obtain ⟨atLeast, limit⟩ := contained
      have found := recover_cases recovered
      have restored := isSealed.restored uuidBound found
      have early := Short.early short isSealed atLeast found
      have next : ∀ (n : ℕ) (obj : Obj σ), store[n]? = some obj → n < nextSeq last := by
        intro n obj present
        rw [next_seq_eq restored.bound]
        exact Nat.lt_succ_of_le (early n obj present)
      obtain ⟨fewer, after⟩ := found.deletes isSealed restored limit
      obtain ⟨opened, owns⟩ := (attributed.fewer fewer).opens next
      refine ⟨opened, restored.guarded isSealed _ after, reopened_dense isSealed limit found _, owns,
        next, ?_, ?_, ?_⟩
      · intro put member
        cases member
      · intro c busy
        cases busy
      · exact (Chronicle.opens_start _ _).le
  | abandonIdle => exact ⟨attributed, holds⟩
  | abandonDeleting recovered listed few =>
      obtain ⟨isSealed, short⟩ := holds
      obtain ⟨atLeast, limit⟩ := contained
      have found := recover_cases recovered
      have restored := isSealed.restored uuidBound found
      have bound := restored.bound
      exact ⟨attributed.fewer fun _ _ => delete_first_present,
        isSealed.delete_first restored.before (by omega),
        Short.delete_first short isSealed found listed (by omega)⟩
  | act taken =>
      rename_i cfg tx tx' a
      obtain ⟨guarded, dense, owns, current⟩ := holds
      obtain ⟨left, old⟩ := contained
      have before : tx.Guarded (cfg.env crc32 uuid).uuid := guarded
      have guardedAfter : tx'.Guarded uuid := before.step taken left
      have denseAfter := dense.step taken uuidBound left old guarded.backed
      have currentAfter := current.step taken left guarded.separate
      rcases taken.landed with ⟨none, fewer⟩ | ⟨n, obj, lands, store, sent⟩
      · have same : record r (.opened cfg tx) (.act a) (.opened cfg tx') = r := by
          simp only [record, none]
        rw [same]
        exact ⟨attributed.fewer fewer, guardedAfter, denseAfter,
          fun n obj present => owns n obj (fewer n obj present), currentAfter⟩
      · have written : record r (.opened cfg tx) (.act a) (.opened cfg tx') = r.writes n := by
          simp only [record, lands]
        have late : r.start r.session ≤ n := by
          rcases sent with ⟨put, member, rfl⟩ | ⟨c, busy, rfl⟩
          · exact current.flying put member
          · exact current.writing c busy
        obtain ⟨attributedAfter, ownsAfter⟩ := attributed.writes owns late obj
        rw [written]
        refine ⟨?_, guardedAfter, denseAfter, ?_, currentAfter⟩
        · change (r.writes n).Attributed tx'.store
          rw [store]
          exact attributedAfter
        · rw [store]
          exact ownsAfter
  | crash =>
      obtain ⟨guarded, dense, owns, current⟩ := holds
      obtain ⟨blank, few⟩ := contained
      exact ⟨attributed, sealed_of_guarded guarded,
        Short.of_crash positive dense current.early blank few⟩

theorem create_pure (uuid window : ℕ) : (create : Lineage σ).Pure uuid window where
  attributed := ⟨by simp [create, World.create, World.backend],
    by simp [create, World.create, World.backend]⟩
  world := ⟨create_sealed uuid, ⟨by simp, by simp⟩⟩

end Lineage

end LsvdRbd.Lifecycle
