import LsvdRbd.Recovery.RoundTrip
import LsvdRbd.Session.Cleaning

/-!
# What a delete leaves to recovery

A crash leaves the backend. Recovery reads the newest checkpoint that the
superblock lists and the objects after it. A cleaned object is deleted after a
checkpoint that no longer refers to it; a dead one is deleted at once, whatever the
newest checkpoint says of it.
-/

namespace LsvdRbd.Session

open Records RunList ExtentMap Format Translate Recovery Machine

set_option autoImplicit false

variable {σ : Type*} {env : Env}

/-- A dead object that is deleted was dead in the newest checkpoint already. -/
def ReapsOld (s : Tx σ) : Action σ → Prop
  | .gcReap o => match s.super.getLast? with
      | none => True
      | some c => match readFromCheckpoint s.store[c]? ⟨Extmap.empty, ∅, []⟩ with
          | .ok image => (image.info[o]?).map ObjInfo.live = some 0
          | .error _ => True
  | _ => True

instance (s : Tx σ) (a : Action σ) : Decidable (ReapsOld s a) := by
  unfold ReapsOld
  induction a using Action.casesOn with
  | gcReap o =>
      induction s.super.getLast? using Option.casesOn with
      | none => infer_instance
      | some c =>
          dsimp only
          induction readFromCheckpoint s.store[c]? ⟨Extmap.empty, ∅, []⟩ using Except.casesOn <;>
            infer_instance
  | _ => infer_instance

namespace Tx

variable {s s' : Tx σ}

/-! ## What the backend holds -/

structure Logged (env : Env) (s : Tx σ) : Prop where
  stored : ∀ n obj, s.store[n]? = some obj → n < 2 ^ 31 ∧ IsLogged env.uuid n obj
  flying : ∀ put ∈ s.inflight, put.seq < 2 ^ 31 ∧ IsLogged env.uuid put.seq put.obj

theorem Logged.of_same (logged : s.Logged env) (store : s'.store = s.store)
    (inflight : s'.inflight = s.inflight) : s'.Logged env :=
  ⟨by rw [store]; exact logged.stored, by rw [inflight]; exact logged.flying⟩

theorem Logged.erase (logged : s.Logged env) {o : ℕ} (store : s'.store = s.store.erase o)
    (inflight : s'.inflight = s.inflight) : s'.Logged env := by
  refine ⟨?_, by rw [inflight]; exact logged.flying⟩
  intro n obj found
  rw [store, table_erase] at found
  split at found
  · cases found
  · exact logged.stored n obj found

theorem Logged.insert (logged : s.Logged env) {o : ℕ} {obj : Obj σ} (bound : o < 2 ^ 31)
    (isLogged : IsLogged env.uuid o obj) (store : s'.store = s.store.insert o obj)
    (inflight : s'.inflight ⊆ s.inflight) : s'.Logged env := by
  refine ⟨?_, fun put member => logged.flying put (inflight member)⟩
  intro n other found
  rw [store, table_insert] at found
  split at found
  · rename_i same
    subst same
    cases found
    exact ⟨bound, isLogged⟩
  · exact logged.stored n other found

theorem Logged.send (logged : s.Logged env) (bound : s.curSeq < 2 ^ 31) {rest : List (Work σ)}
    {request : Option (Request σ)} {maps : Maps} {obj : Obj σ} {hdrSectors : ℕ} {ranges : Ranges}
    (emits : Emits env.uuid s.curSeq s.maps maps obj hdrSectors ranges) :
    (s.send rest request maps obj).Logged env := by
  refine ⟨logged.stored, ?_⟩
  intro put member
  rcases List.mem_append.mp member with old | new
  · exact logged.flying put old
  · obtain rfl := List.mem_singleton.mp new
    exact ⟨bound, .inr ⟨hdrSectors, ranges, emits.object, emits.proper, emits.reach⟩⟩

theorem Stepped.logged {Q : Tx σ → Maps → Prop} {a : Action σ} (stepped : Stepped env s a s')
    (ok : s.Ok env) (envOk : env.Ok) (inRange : InRange s a) (published : Published env Q s)
    (logged : s.Logged env) : s'.Logged env := by
  have rolls : ∀ {mid : Tx σ}, Rolled env s mid → mid.Logged env := fun rolled =>
    logged.of_same rolled.frame.2.2.2.2.2 rolled.frame.2.2.1
  cases stepped with
  | write rolled nonempty room => exact (rolls rolled).of_same rfl rfl
  | flush rolled => exact (rolls rolled).of_same rfl rfl
  | checkpoint rolled => exact (rolls rolled).of_same rfl rfl
  | flushThread rolled => exact rolls rolled
  | trim done => exact logged.of_same rfl rfl
  | complete member =>
      obtain ⟨bound, isLogged⟩ := logged.flying _ member
      exact logged.insert bound isLogged rfl fun put inside => (List.mem_filter.mp inside).1
  | work free worked =>
      cases worked with
      | put head done =>
          rename_i r rest maps obj
          have inBuffers := mem_buffers_of_queued head
          obtain ⟨emits, -⟩ := process_batch_emits ok.consistent.sound
            (ok.buffered.proper r inBuffers).proper envOk.uuid inRange done
          exact logged.send inRange emits
      | gc head done =>
          rename_i entries data rest maps obj
          obtain ⟨request, -⟩ := ok.queued (.gc entries data) (by simp [head])
          obtain ⟨emits, -⟩ := write_gc_emits ok.consistent.sound request envOk.uuid inRange done
          exact logged.send inRange emits
      | ckpt head done => exact logged.of_same rfl rfl
      | flush head quiet => exact logged.of_same rfl rfl
  | ckpt busy done =>
      have progress := published.writing _ busy
      cases done with
      | object stage =>
          unfold Progress at progress
          rw [stage] at progress
          obtain ⟨-, bound, maps, object, -⟩ := progress
          exact logged.insert bound
            (.inl (checkpoint_object_not_data envOk.uuid (by omega) object)) rfl fun _ => id
      | superblock stage => exact logged.of_same rfl rfl
      | delete stage => exact logged.erase rfl rfl
      | done stage phase moved => exact logged.of_same rfl rfl
  | collect collected =>
      cases collected with
      | reap phase member => exact logged.erase rfl rfl
      | delete phase => exact logged.erase rfl rfl
      | checkpoint phase rolled => exact (rolls rolled).of_same rfl rfl
      | _ => exact logged.of_same rfl rfl

/-! ## Deletes -/

theorem Stepped.deleted {a : Action σ} (stepped : Stepped env s a s') {o : ℕ}
    (member : o ∈ s.deletes a) : s'.store = s.store.erase o ∧ s'.super = s.super := by
  cases stepped with
  | collect collected =>
      cases collected with
      | reap phase inLeft =>
          rw [List.mem_singleton.mp member]
          exact ⟨rfl, rfl⟩
      | delete phase =>
          simp only [deletes, phase, List.mem_singleton] at member
          rw [member]
          exact ⟨rfl, rfl⟩
      | finish phase => simp [deletes, phase] at member
      | _ => cases member
  | _ => cases member

theorem reap_spares (envOk : env.Ok) {o c : ℕ}
    (published : Published env (fun _ maps => maps.Measured) s)
    (newest : s.super.getLast? = some c) (old : ReapsOld s (.gcReap o)) :
    ∃ obj, s.store[c]? = some obj ∧ Spares env [o] c obj := by
  have listed : c ∈ s.ckpts := published.super ▸ List.mem_of_getLast? newest
  obtain ⟨obj, present, bound, maps, object, consistent, below, measured⟩ :=
    published.listed c listed
  obtain ⟨m, read, -⟩ := read_from_written_checkpoint consistent.sound envOk.uuid (by omega)
    object []
  simp only [ReapsOld, newest, present, read, load_table (table_fits consistent measured),
    Option.map_eq_some_iff] at old
  obtain ⟨oi, inTable, dead⟩ := old
  have count := consistent.exact o oi inTable
  rw [dead] at count
  refine ⟨obj, present, ?_, fun _ => ⟨bound, maps, object, consistent, below, ?_⟩⟩
  · intro other member
    rw [List.mem_singleton.mp member]
    exact below.listed o oi inTable
  · intro other member x p found
    rw [List.mem_singleton.mp member]
    exact (owned_eq_zero_iff consistent.sound o).mp count.symm x p found

/-- The newest checkpoint spares what garbage collection deletes. -/
theorem deletes_spared (envOk : env.Ok) {a : Action σ} (stepped : Stepped env s a s') {o c : ℕ}
    (published : Published env (fun _ maps => maps.Measured) s) (forgotten : s.Forgotten env)
    (old : ReapsOld s a) (member : o ∈ s.deletes a) (newest : s.super.getLast? = some c) :
    ∃ obj, s.store[c]? = some obj ∧ Spares env [o] c obj := by
  cases stepped with
  | collect collected =>
      cases collected with
      | reap phase inLeft =>
          rw [List.mem_singleton.mp member]
          exact reap_spares envOk published newest old
      | delete phase =>
          simp only [deletes, phase, List.mem_singleton] at member
          simp only [Forgotten, phase] at forgotten
          obtain ⟨-, n, obj, last, present, spares⟩ := forgotten
          cases newest.symm.trans last
          exact ⟨obj, present, spares.fewer (by simp [member])⟩
      | finish phase => simp [deletes, phase] at member
      | _ => cases member
  | _ => cases member

end Tx

def ReapsInRange (s : Tx σ) (a : Action σ) : Prop := SelectsInRange s a ∧ ReapsOld s a

instance (s : Tx σ) (a : Action σ) : Decidable (ReapsInRange s a) :=
  inferInstanceAs (Decidable (_ ∧ _))

structure Tx.Recoverable (env : Env) (s : Tx σ) : Prop where
  sparing : s.Sparing env
  measured : s.maps.Measured
  published : s.Published env fun _ maps => maps.Measured
  logged : s.Logged env

theorem Tx.Recoverable.step {s s' : Tx σ} {a : Action σ} (recoverable : s.Recoverable env)
    (envOk : env.Ok) (allowed : ReapsInRange s a) (stepped : step env s a = some s') :
    s'.Recoverable env := by
  obtain ⟨sparing, measured, published, logged⟩ := recoverable
  have valid := sparing.valid
  have inRange := allowed.1.1
  have cases := step_cases stepped
  exact ⟨sparing.step envOk allowed.1 stepped,
    (cases.remapped valid.ok envOk inRange).measured valid.ok measured,
    cases.published valid.ok inRange valid.reserved valid.ordinary (fun _ => id)
      (fun _ _ _ _ => measured) published,
    cases.logged valid.ok envOk inRange published logged⟩

/-- In every run in which every selected object was there when its cycle started and
every dead object that is deleted was dead in the newest checkpoint, each delete is
of an object before that checkpoint which it does not refer to. So recovery after
the delete gives the same map and the same last number as before it, and every
object that the map refers to is as it was. -/
theorem deletes_spare_recovery {s t u : Tx σ} {acts : List (Action σ)}
    {a : Action σ} {o : ℕ} (envOk : env.Ok) (opened : s.AtRest)
    (measured : s.maps.Measured) (published : s.Published env fun _ maps => maps.Measured)
    (logged : s.Logged env) (along : Along (step env) ReapsInRange s acts)
    (ran : run (step env) s acts = some t) (allowed : ReapsInRange t a)
    (stepped : step env t a = some u) (deleted : o ∈ t.deletes a) :
    (∀ window, (recover window u.super u.store).map (fun r => r.map fun r => (r.1, r.2.1)) =
      (recover window t.super t.store).map fun r => r.map fun r => (r.1, r.2.1)) ∧
    ∀ c, t.super.getLast? = some c → o < c ∧
      (∃ image, readFromCheckpoint t.store[c]? ⟨Extmap.empty, ∅, []⟩ = .ok image ∧
        ∀ x p, locate image.objmap x = some p → p.obj ≠ o) ∧
      recoverMap c u.store = recoverMap c t.store ∧
      ∀ m last, recoverMap c u.store = some (.ok (m, last)) → ∀ x p, locate m x = some p →
        u.store[p.obj.toNat]? = t.store[p.obj.toNat]? := by
  have start : s.Recoverable env := ⟨opened.sparing envOk ⟨published.super, published.increasing,
    fun c member => (published.listed c member).imp fun _ both => ⟨both.1, both.2.imp fun _ _ =>
      trivial⟩, by simp [opened.ckpting]⟩, measured, published, logged⟩
  obtain ⟨⟨-, -, -, -, forgotten⟩, -, published, logged⟩ := invariant_along
    (fun _ _ _ recoverable allowed stepped =>
      Tx.Recoverable.step recoverable envOk allowed stepped) start along ran
  have cases := Tx.step_cases stepped
  obtain ⟨store, super⟩ := cases.deleted deleted
  have low : ∀ n, 2 ^ 31 ≤ n → t.store[n]? = none := by
    intro n high
    cases found : t.store[n]? with
    | none => rfl
    | some obj =>
        have := (logged.stored n obj found).1
        omega
  have others : ∀ n, n ≠ o → u.store[n]? = t.store[n]? := by
    intro n different
    rw [store, table_erase, if_neg (Ne.symm different)]
  have newest : ∀ c, t.super.getLast? = some c → ∃ obj, t.store[c]? = some obj ∧ c < 2 ^ 31 ∧
      o < c ∧ Tx.Spares env [o] c obj := by
    intro c last
    obtain ⟨obj, present, spares⟩ :=
      Tx.deletes_spared envOk cases published forgotten allowed.2 deleted last
    exact ⟨obj, present, (spares.2 t).1, spares.1 o (by simp), spares⟩
  refine ⟨?_, ?_⟩
  · intro window
    rw [super]
    cases last : t.super.getLast? with
    | none => simp [recover, rollForward, last, Except.map]
    | some c =>
        obtain ⟨obj, present, bound, before, -⟩ := newest c last
        exact recover_congr low bound (fun n later => others n (by omega)) window last
  · intro c last
    obtain ⟨obj, present, bound, before, spares⟩ := newest c last
    obtain ⟨maps, image, avoids, -, -, read, -, located, -⟩ := (spares.2 t).read envOk []
    have same := recover_map_congr low bound fun n later => others n (by omega)
    refine ⟨before, ⟨image, by rw [present]; exact read, ?_⟩, same, ?_⟩
    · intro x p found
      rw [located] at found
      exact avoids o (by simp) x p found
    · intro m final recovered x p found
      apply others
      -- the address is as the checkpoint has it, or was replayed
      rw [same, recoverMap, present] at recovered
      obtain ⟨maps, image, avoids, -, -, read, sound, located, -⟩ := (spares.2 t).read envOk [c]
      rw [read] at recovered
      obtain ⟨result, replayed, finished⟩ := Option.map_eq_some_iff.mp recovered
      cases result with
      | error fault => cases finished
      | ok result =>
          obtain ⟨m', stop⟩ := result
          simp only [Except.map, Except.ok.injEq, Prod.mk.injEq] at finished
          obtain ⟨rfl, -⟩ := finished
          rw [next_seq_eq bound] at replayed
          rcases replay_mapped low (fun n obj found => (logged.stored n obj found).2) sound replayed
            x p found with old | new
          · have bounds := sound.bounds old
            rw [located] at old
            have := avoids o (by simp) x p old
            omega
          · omega

theorem Tx.create_logged (env : Env) (addr : ℤ) : (create addr : Tx σ).Logged env :=
  ⟨by simp [create], by simp [create]⟩

/-- The delete of the cleaned object 1 leaves recovery from the cycle's own
checkpoint as it was. -/
theorem deletes_spare_recovery_cleaned : ∃ t u c,
    run (step smallEnv) (Tx.create 1000000) deletingRun = some t ∧
      step smallEnv t .gcDelete = some u ∧ t.store.contains 1 = true ∧
      t.super.getLast? = some c ∧ 1 < c ∧ recoverMap c u.store = recoverMap c t.store := by
  obtain ⟨t, ran, held⟩ := (Option.any_eq_true _ _).mp
    (by decide +kernel : (run (step smallEnv) (Tx.create 1000000) deletingRun).any (fun t =>
      decide (t.deletes .gcDelete = [1] ∧ t.store.contains 1 = true ∧
        t.super.getLast? = some 4 ∧ ReapsInRange t .gcDelete ∧
        (step smallEnv t .gcDelete).isSome)) = true)
  obtain ⟨deleted, present, last, allowed, defined⟩ := of_decide_eq_true held
  obtain ⟨u, stepped⟩ := Option.isSome_iff_exists.mp defined
  obtain ⟨before, -, same, -⟩ := (deletes_spare_recovery small_env_ok (Tx.create_at_rest 1000000)
    Maps.empty_measured (Tx.create_published _ _ _) (Tx.create_logged _ _) (by decide +kernel) ran
    allowed stepped (by rw [deleted]; exact List.mem_singleton_self 1)).2 4 last
  exact ⟨t, u, 4, ran, stepped, present, last, before, same⟩

def checkpointedRun : List (Action ℕ) :=
  [.writev 8 [2] 0, .flushThread 5000000, .work, .complete 1, .checkpoint 0, .work, .ckptStep,
    .ckptStep, .ckptStep]

def recovered (t : Tx ℕ) : Option (Option ObjOffset × ℕ) :=
  (t.super.getLast?.bind fun c => recoverMap c t.store).bind fun r => match r with
    | .ok (m, last) => some (locate m 8, last)
    | .error _ => none

/-- Object 1 is deleted while the object that overwrites it is on its way, so that
recovery maps address 8 to an object that is gone; and object 3, which object 4
overwrites, is deleted and leaves a gap that recovery stops at. -/
theorem delete_breaks_recovery :
    (run (step smallEnv) (Tx.create 1000000) (checkpointedRun ++ [.writev 8 [3] 0,
      .flushThread 9000000, .work, .gcStart, .gcDead, .gcReap 1])).map (fun t =>
        (recovered t, t.store.contains 1)) = some (some (some ⟨1, 8⟩, 2), false) ∧
    (run (step smallEnv) (Tx.create 1000000) (checkpointedRun ++ [.writev 8 [3] 0,
      .flushThread 9000000, .work, .complete 3, .writev 8 [4] 0, .flushThread 13000000, .work,
      .complete 4, .gcStart, .gcDead])).map (fun t =>
        (recovered t, (step smallEnv t (.gcReap 3)).map recovered)) =
      some (some (some ⟨4, 8⟩, 4), some (some (some ⟨1, 8⟩, 2))) := by
  constructor <;> decide +kernel

end LsvdRbd.Session
