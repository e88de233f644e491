import LsvdRbd.Session.Cleaning

/-!
# Reads in progress

`handle_reads` looks the objects up under the map lock and creates a sub-request
for each part that the backend has; the sub-requests are run later. Garbage
collection asks `obj_read_refcount` before it deletes an object, but no read ever
counts itself there, so here nothing holds a delete back.
-/

namespace LsvdRbd.Session

open Records RunList ExtentMap Format Translate Recovery Machine

set_option autoImplicit false

variable {σ : Type*} {env : Env}

/-! ## What a read names -/

theorem handle_reads_objects {bufmap : Bufmap} {objmap : Objmap} (sound : Sound objmap)
    {start count : ℕ} {pieces : List Piece}
    (plan : handleReads bufmap objmap start count = some pieces) {obj block inBlock n : ℤ}
    (member : .fetch obj block inBlock n ∈ pieces) :
    ∃ x p, locate objmap x = some p ∧ p.obj = obj := by
  obtain ⟨⟨e, inScan, same⟩, -⟩ := plan_reads_fetch _ plan member
  obtain ⟨-, sublist, -⟩ := scan_ahead sound.shape sound.ordered
    (fun e member => (sound.within e member).fits) (objmap_searchable sound start)
  have inMap := sublist.mem inScan
  have := sound.ordered.nonempty e inMap
  refine ⟨e.base, (e.base - e.base) +ᵥ e.ptr, ?_, ?_⟩
  · exact (get_eq_some_iff sound.ordered _ _).mpr ⟨e, inMap, ⟨le_refl _, by omega⟩, rfl⟩
  · rw [vadd_obj, same]

/-! ## The session with its reads -/

/-- A sub-request that was created and has not completed: the object it names, and
whether the backend had that object when it was created. -/
structure SubRequest where
  obj : ℕ
  there : Bool

structure Reader (σ : Type*) where
  tx : Tx σ
  outstanding : List SubRequest

inductive ReadEvent (σ : Type*)
  | act (a : Action σ)
  | read (start count : ℕ)
  | fetched (i : ℕ)

def Piece.object : Piece → Option ℕ
  | .fetch obj _ _ _ => some obj.toNat
  | _ => none

namespace Reader

def step (env : Env) (s : Reader σ) : ReadEvent σ → Option (Reader σ)
  | .act a => (Session.step env s.tx a).map fun tx => { s with tx := tx }
  | .read start count =>
      (handleReads s.tx.bufmap s.tx.maps.objmap start count).map fun pieces =>
        { s with outstanding := s.outstanding ++ (pieces.filterMap Piece.object).map fun o =>
            ⟨o, s.tx.store.contains o⟩ }
  | .fetched i =>
      if i < s.outstanding.length then
        some { s with outstanding := s.outstanding.eraseIdx i }
      else none

/-- When a cycle takes up dead objects or gives up cleaned ones, no sub-request
names them. -/
def Unread (s : Reader σ) : ReadEvent σ → Prop
  | .act .gcDead => ∀ r ∈ s.outstanding, r.obj ∉ deadObjects s.tx.maps.info
  | .act .gcDone => match s.tx.gc with
      | .sending objs _ => ∀ r ∈ s.outstanding, r.obj ∉ objs.map Prod.fst
      | _ => True
  | _ => True

instance (s : Reader σ) (e : ReadEvent σ) : Decidable (s.Unread e) := by
  unfold Unread
  split
  · infer_instance
  · split <;> infer_instance
  · infer_instance

def InRange (s : Reader σ) : ReadEvent σ → Prop
  | .act a => SelectsInRange s.tx a
  | .read _ _ | .fetched _ => True

instance (s : Reader σ) (e : ReadEvent σ) : Decidable (s.InRange e) := by
  cases e <;> unfold InRange <;> infer_instance

def UnreadInRange (s : Reader σ) (e : ReadEvent σ) : Prop := s.InRange e ∧ s.Unread e

instance (s : Reader σ) (e : ReadEvent σ) : Decidable (s.UnreadInRange e) :=
  inferInstanceAs (Decidable (_ ∧ _))

end Reader

namespace Tx

variable {s s' : Tx σ}

theorem Stepped.doomed {a : Action σ} (stepped : Stepped env s a s') :
    ∀ o ∈ s'.gc.doomed, o ∈ s.gc.doomed ∨
      (a = .gcDead ∧ o ∈ deadObjects s.maps.info) ∨
      (a = .gcDone ∧ ∃ objs, s.gc = .sending objs [] ∧ o ∈ objs.map Prod.fst) := by
  intro o member
  cases stepped with
  | write rolled nonempty room => exact .inl (by rw [← rolled.frame.2.2.2.2.1]; exact member)
  | flush rolled => exact .inl (by rw [← rolled.frame.2.2.2.2.1]; exact member)
  | checkpoint rolled => exact .inl (by rw [← rolled.frame.2.2.2.2.1]; exact member)
  | flushThread rolled => exact .inl (by rw [← rolled.frame.2.2.2.2.1]; exact member)
  | trim done => exact .inl member
  | complete inflight => exact .inl member
  | work free worked => cases worked <;> exact .inl member
  | ckpt busy done =>
      cases done with
      | done stage phase moved =>
          rcases moved with ⟨rfl, -⟩ | ⟨objs, -, waits, rfl⟩
          · exact .inl member
          · exact .inl (by rw [waits]; exact member)
      | _ => exact .inl member
  | collect collected =>
      cases collected with
      | dead phase => exact .inr (.inl ⟨rfl, member⟩)
      | done phase quiet => exact .inr (.inr ⟨rfl, _, phase, member⟩)
      | reap phase inLeft => exact .inl (by rw [phase]; exact member)
      | checkpoint phase rolled => exact .inl (by rw [phase]; exact member)
      | delete phase => exact .inl (by rw [phase]; exact List.mem_cons_of_mem _ member)
      | select phase distinct few allowed =>
          simp only at member
          split at member <;> cases member
      | _ => cases member

theorem Stepped.store_kept {a : Action σ} (stepped : Stepped env s a s') {o : ℕ}
    (kept : o ∉ s.deletes a) (ordinary : o ∉ s.ckptNumbers) (present : (s.store[o]?).isSome) :
    (s'.store[o]?).isSome := by
  cases stepped with
  | write rolled nonempty room => exact rolled.frame.2.2.2.2.2 ▸ present
  | flush rolled => exact rolled.frame.2.2.2.2.2 ▸ present
  | checkpoint rolled => exact rolled.frame.2.2.2.2.2 ▸ present
  | flushThread rolled => exact rolled.frame.2.2.2.2.2 ▸ present
  | trim done => exact present
  | work free worked => cases worked <;> exact present
  | complete member =>
      simp only [land, table_insert]
      split
      · rfl
      · exact present
  | ckpt busy done =>
      cases done with
      | object stage =>
          simp only [table_insert]
          split
          · rfl
          · exact present
      | superblock stage => exact present
      | delete stage =>
          rw [ckptNumbers, busy] at ordinary
          simp only [stage, List.mem_append, List.mem_cons, not_or] at ordinary
          simp only [table_erase, if_neg (Ne.symm ordinary.2.2.1)]
          exact present
      | done stage phase moved => exact present
  | collect collected =>
      cases collected with
      | reap phase inLeft =>
          simp only [deletes, List.mem_singleton] at kept
          simp only [table_erase, if_neg (Ne.symm kept)]
          exact present
      | delete phase =>
          simp only [deletes, phase, List.mem_singleton] at kept
          simp only [table_erase, if_neg (Ne.symm kept)]
          exact present
      | checkpoint phase rolled => exact rolled.frame.2.2.2.2.2 ▸ present
      | _ => exact present

end Tx

/-- The state of the session with its reads: a named object is data, it is still
there if it was, and no cycle has decided to delete it. -/
structure Reader.Safe (env : Env) (s : Reader σ) : Prop where
  sparing : s.tx.Sparing env
  earlier : ∀ r ∈ s.outstanding, r.obj < s.tx.curSeq
  ordinary : ∀ r ∈ s.outstanding, r.obj ∉ s.tx.ckptNumbers
  present : ∀ r ∈ s.outstanding, r.there = true → (s.tx.store[r.obj]?).isSome
  spared : ∀ r ∈ s.outstanding, r.obj ∉ s.tx.gc.doomed

namespace Reader.Safe

variable {s : Reader σ}

/-- Under the condition no step deletes an object that a sub-request names. -/
theorem not_deleted (safe : s.Safe env) {a : Action σ} {tx : Tx σ}
    (stepped : Session.step env s.tx a = some tx) :
    ∀ r ∈ s.outstanding, r.obj ∉ s.tx.deletes a := by
  intro r member deleted
  exact safe.spared r member
    ((Tx.step_cases stepped).deletes_doomed safe.sparing.covers r.obj deleted)

theorem act (safe : s.Safe env) (envOk : env.Ok) {a : Action σ} {tx : Tx σ}
    (allowed : SelectsInRange s.tx a) (unread : s.Unread (.act a))
    (stepped : Session.step env s.tx a = some tx) : ({ s with tx := tx } : Reader σ).Safe env := by
  have cases := Tx.step_cases stepped
  have ok := safe.sparing.valid.ok
  have moves := cases.moves ok envOk allowed.1
  refine ⟨safe.sparing.step envOk allowed stepped, ?_, ?_, ?_, ?_⟩
  · intro r member
    exact lt_of_lt_of_le (safe.earlier r member) moves.numbers
  · intro r member isCkpt
    rcases cases.numbers (InRange.numbersLeft allowed.1) _ isCkpt with old | ⟨isNew, -⟩
    · exact safe.ordinary r member old
    · have := safe.earlier r member
      omega
  · intro r member there
    exact cases.store_kept (safe.not_deleted stepped r member) (safe.ordinary r member)
      (safe.present r member there)
  · intro r member doomed
    rcases cases.doomed _ doomed with old | ⟨rfl, dead⟩ | ⟨rfl, objs, phase, cleaned⟩
    · exact safe.spared r member old
    · exact unread r member dead
    · simp only [Unread, phase] at unread
      exact unread r member cleaned

theorem read (safe : s.Safe env) {start count : ℕ} {pieces : List Piece}
    (plan : handleReads s.tx.bufmap s.tx.maps.objmap start count = some pieces) :
    ({ s with outstanding := s.outstanding ++ (pieces.filterMap Piece.object).map fun o =>
        ⟨o, s.tx.store.contains o⟩ } : Reader σ).Safe env := by
  have ok := safe.sparing.valid.ok
  have mapped : ∀ o ∈ pieces.filterMap Piece.object, ∃ x p,
      locate s.tx.maps.objmap x = some p ∧ p.obj = o := by
    intro o member
    obtain ⟨piece, inPieces, named⟩ := List.mem_filterMap.mp member
    cases piece with
    | fetch obj block inBlock n =>
        obtain ⟨x, p, found, same⟩ :=
          handle_reads_objects ok.consistent.sound plan inPieces
        have bounds := ok.consistent.sound.bounds found
        have number : obj.toNat = o := Option.some.inj named
        exact ⟨x, p, found, by omega⟩
    | _ => cases named
  refine ⟨safe.sparing, ?_, ?_, ?_, ?_⟩ <;> intro r member <;>
    rcases List.mem_append.mp member with old | new
  · exact safe.earlier r old
  · obtain ⟨o, named, rfl⟩ := List.mem_map.mp new
    obtain ⟨x, p, found, same⟩ := mapped o named
    have := ok.below.mapped x p found
    simp only
    omega
  · exact safe.ordinary r old
  · obtain ⟨o, named, rfl⟩ := List.mem_map.mp new
    obtain ⟨x, p, found, same⟩ := mapped o named
    intro isCkpt
    exact (safe.sparing.valid.reserved o isCkpt).unmapped x p found same
  · exact safe.present r old
  · obtain ⟨o, named, rfl⟩ := List.mem_map.mp new
    intro there
    rwa [Std.ExtTreeMap.contains_eq_isSome_getElem?] at there
  · exact safe.spared r old
  · obtain ⟨o, named, rfl⟩ := List.mem_map.mp new
    obtain ⟨x, p, found, same⟩ := mapped o named
    intro doomed
    exact (safe.sparing.covers.doomed o doomed).unmapped found same

theorem step {s s' : Reader σ} {e : ReadEvent σ} (safe : s.Safe env) (envOk : env.Ok)
    (allowed : s.UnreadInRange e) (stepped : s.step env e = some s') : s'.Safe env := by
  cases e with
  | act a =>
      obtain ⟨tx, done, rfl⟩ := Option.map_eq_some_iff.mp stepped
      exact safe.act envOk allowed.1 allowed.2 done
  | read start count =>
      obtain ⟨pieces, plan, rfl⟩ := Option.map_eq_some_iff.mp stepped
      exact safe.read plan
  | fetched i =>
      simp only [Reader.step, Option.ite_none_right_eq_some, Option.some.injEq] at stepped
      obtain ⟨-, rfl⟩ := stepped
      obtain ⟨sparing, earlier, ordinary, present, spared⟩ := safe
      have fewer : ∀ r ∈ s.outstanding.eraseIdx i, r ∈ s.outstanding :=
        fun r member => List.mem_of_mem_eraseIdx member
      exact ⟨sparing, fun r member => earlier r (fewer r member),
        fun r member => ordinary r (fewer r member), fun r member => present r (fewer r member),
        fun r member => spared r (fewer r member)⟩

end Reader.Safe

/-- In every run in which a cycle takes up dead objects and gives up cleaned ones
only when no sub-request names them, and selects only objects that were there when
it started, no step of a cycle deletes an object that a sub-request names, and such
an object is still there if it was when the sub-request was created. -/
theorem outstanding_reads_keep_objects {s : Tx σ} {t : Reader σ}
    {events : List (ReadEvent σ)} (envOk : env.Ok) (opened : s.AtRest)
    (published : s.Published env fun _ _ => True)
    (along : Along (Reader.step env) Reader.UnreadInRange ⟨s, []⟩ events)
    (ran : run (Reader.step env) ⟨s, []⟩ events = some t) :
    ∀ r ∈ t.outstanding,
      (∀ a u, step env t.tx a = some u → r.obj ∉ t.tx.deletes a) ∧
        (r.there = true → (t.tx.store[r.obj]?).isSome) := by
  have start : Reader.Safe env (⟨s, []⟩ : Reader σ) :=
    ⟨opened.sparing envOk published, by simp, by simp, by simp, by simp⟩
  have safe := invariant_along
    (fun _ _ _ safe allowed stepped => Reader.Safe.step safe envOk allowed stepped) start along ran
  intro r member
  exact ⟨fun a u stepped => safe.not_deleted stepped r member, safe.present r member⟩

def overwrittenRead : List (ReadEvent ℕ) :=
  [.act (.writev 8 [2] 0), .act (.flushThread 5000000), .act .work, .act (.complete 1), .read 8 1,
    .act (.writev 8 [3] 0), .act (.flushThread 9000000), .act .work, .act (.complete 2)]

/-- The fetch is done when the cycle starts, and another read is on its way when it
deletes. -/
theorem outstanding_read_keeps_object : ∃ t,
    run (Reader.step smallEnv) ⟨Tx.create 1000000, []⟩ (overwrittenRead ++
      [.fetched 0, .act .gcStart, .act .gcDead, .read 8 1]) = some t ∧
    t.outstanding.map SubRequest.obj = [2] ∧ t.tx.deletes (.gcReap 1) = [1] ∧
    ∀ r ∈ t.outstanding, (∀ a u, step smallEnv t.tx a = some u → r.obj ∉ t.tx.deletes a) ∧
      (r.there = true → (t.tx.store[r.obj]?).isSome) := by
  obtain ⟨t, ran, held⟩ := (Option.any_eq_true _ _).mp
    (by decide +kernel : (run (Reader.step smallEnv) ⟨Tx.create 1000000, []⟩ (overwrittenRead ++
      [.fetched 0, .act .gcStart, .act .gcDead, .read 8 1])).any (fun t =>
        decide (t.outstanding.map SubRequest.obj = [2] ∧ t.tx.deletes (.gcReap 1) = [1])) = true)
  obtain ⟨named, deleted⟩ := of_decide_eq_true held
  exact ⟨t, ran, named, deleted, outstanding_reads_keep_objects small_env_ok
    (Tx.create_at_rest 1000000) (Tx.create_published _ _ _) (by decide +kernel) ran⟩

/-- Object 1 is deleted while a sub-request names it: as a dead object, and as a
cleaned one. -/
theorem read_object_deleted :
    (run (Reader.step smallEnv) ⟨Tx.create 1000000, []⟩ (overwrittenRead ++
      [.act .gcStart, .act .gcDead, .act (.gcReap 1)])).map (fun t =>
        (t.outstanding.map SubRequest.obj, t.tx.store.contains 1)) = some ([1], false) ∧
    (run (Reader.step smallEnv) ⟨Tx.create 1000000, []⟩ ((deletingRun.take 8).map .act ++
      [.read 8 1] ++ (deletingRun.drop 8 ++ [Action.gcDelete]).map .act)).map (fun t =>
        (t.outstanding.map SubRequest.obj, t.tx.store.contains 1)) = some ([1], false) := by
  constructor <;> decide +kernel

end LsvdRbd.Session
