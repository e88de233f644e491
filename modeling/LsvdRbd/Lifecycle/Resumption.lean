import LsvdRbd.Lifecycle.Deletion

/-!
# Deleting an image a second time

`delete_image` call by call. It removes the superblock last, so that a deletion that
was cut short can be started again. But it gives up at the first listed checkpoint
that is missing, and that is the first thing an earlier attempt has deleted.
-/

namespace LsvdRbd.Lifecycle

open Records RunList ExtentMap Format Translate Recovery Session Machine

set_option autoImplicit false

variable {σ : Type*}

/-- What `delete_image` asks of the backend next. -/
inductive Phase
  | listed (c : ℕ) (rest : List ℕ)
  | probing (n seq : ℕ)
  | failed
  | finished
  deriving DecidableEq

structure Deletion (σ : Type*) where
  phase : Phase
  store : Store σ

def Phase.enter (seq : ℕ) : List ℕ → Phase
  | [] => .probing 0 seq
  | c :: rest => .listed c rest

def Deletion.start (unset : ℕ) (backend : Backend σ) : Deletion σ :=
  ⟨Phase.enter unset backend.super, backend.store⟩

/-- One call of the backend, which may fail. A missing object is an error too. The
loop takes every error for a missing object; the other two calls end the deletion. -/
def Deletion.call (d : Deletion σ) (works : Bool) : Option (Deletion σ) :=
  match d.phase with
  | .listed c rest =>
      if works ∧ d.store[c]?.isSome then some ⟨Phase.enter c rest, d.store.erase c⟩
      else some ⟨.failed, d.store⟩
  | .probing n seq =>
      if n < 16 then
        if works ∧ d.store[seq]?.isSome then some ⟨.probing 1 (nextSeq seq), d.store.erase seq⟩
        else some ⟨.probing (n + 1) (nextSeq seq), d.store⟩
      else if works then some ⟨.finished, d.store⟩
      else some ⟨.failed, d.store⟩
  | .failed => none
  | .finished => none

/-- `delete_image` is called again on what an earlier attempt has left. Without the
superblock it returns at once, with an error. -/
def Deletion.again (unset : ℕ) (super : List ℕ) (d : Deletion σ) : Option (Store σ) :=
  match d.phase with
  | .finished => none
  | _ => deleteImage unset ⟨d.store, super⟩

/-! ## Calls that all succeed -/

section Working

variable {store out : Store σ}

theorem call_probing (n seq : ℕ) (store : Store σ) :
    Deletion.call ⟨.probing n seq, store⟩ true =
      if n < 16 then match store[seq]? with
        | some _ => some ⟨.probing 1 (nextSeq seq), store.erase seq⟩
        | none => some ⟨.probing (n + 1) (nextSeq seq), store⟩
      else some ⟨.finished, store⟩ := by
  cases found : store[seq]? <;> simp [Deletion.call, found]

theorem probe_calls {fuel n seq : ℕ} (ended : probe fuel n seq store = some out) :
    ∃ k, run Deletion.call ⟨.probing n seq, store⟩ (List.replicate k true) =
      some ⟨.finished, out⟩ := by
  induction fuel generalizing n seq store with
  | zero => cases ended
  | succ fuel ih =>
      have first := call_probing n seq store
      rw [probe] at ended
      split at ended
      · next more =>
          rw [if_pos more] at first
          split at ended
          · next obj found =>
              rw [found] at first
              obtain ⟨k, later⟩ := ih ended
              exact ⟨k + 1, (run_cons_eq_some _).mpr ⟨_, first, later⟩⟩
          · next found =>
              rw [found] at first
              obtain ⟨k, later⟩ := ih ended
              exact ⟨k + 1, (run_cons_eq_some _).mpr ⟨_, first, later⟩⟩
      · next enough =>
          cases ended
          rw [if_neg enough] at first
          exact ⟨1, (run_cons_eq_some _).mpr ⟨_, first, rfl⟩⟩

theorem delete_listed_calls (seq : ℕ) {listed : List ℕ}
    (deleted : deleteListed listed store = some out) :
    ∃ k, run Deletion.call ⟨Phase.enter seq listed, store⟩ (List.replicate k true) =
      some ⟨.probing 0 (listed.getLast?.getD seq), out⟩ := by
  induction listed generalizing seq store with
  | nil =>
      cases deleted
      exact ⟨0, rfl⟩
  | cons c rest ih =>
      rw [deleteListed] at deleted
      split at deleted
      · cases deleted
      · next obj found =>
          have first : Deletion.call ⟨Phase.enter seq (c :: rest), store⟩ true =
              some ⟨Phase.enter c rest, store.erase c⟩ := by
            simp [Deletion.call, Phase.enter, found]
          obtain ⟨k, later⟩ := ih c deleted
          rw [List.getLast?_cons, Option.getD_some]
          exact ⟨k + 1, (run_cons_eq_some _).mpr ⟨_, first, later⟩⟩

theorem delete_listed_fails (seq : ℕ) {listed : List ℕ}
    (deleted : deleteListed listed store = none) :
    ∃ k left, run Deletion.call ⟨Phase.enter seq listed, store⟩ (List.replicate k true) =
      some ⟨.failed, left⟩ := by
  induction listed generalizing seq store with
  | nil => cases deleted
  | cons c rest ih =>
      rw [deleteListed] at deleted
      split at deleted
      · next found =>
          have first : Deletion.call ⟨Phase.enter seq (c :: rest), store⟩ true =
              some ⟨.failed, store⟩ := by
            simp [Deletion.call, Phase.enter, found]
          exact ⟨1, store, (run_cons_eq_some _).mpr ⟨_, first, rfl⟩⟩
      · next obj found =>
          have first : Deletion.call ⟨Phase.enter seq (c :: rest), store⟩ true =
              some ⟨Phase.enter c rest, store.erase c⟩ := by
            simp [Deletion.call, Phase.enter, found]
          obtain ⟨k, left, later⟩ := ih c deleted
          exact ⟨k + 1, left, (run_cons_eq_some _).mpr ⟨_, first, later⟩⟩

def Deletion.Over (d : Deletion σ) : Prop := ∀ works, d.call works = none

theorem over_unique {d e e' : Deletion σ} {k k' : ℕ}
    (first : run Deletion.call d (List.replicate k true) = some e) (ended : e.Over)
    (second : run Deletion.call d (List.replicate k' true) = some e') (ended' : e'.Over) :
    e = e' := by
  induction k generalizing d k' with
  | zero =>
      cases first
      cases k' with
      | zero => exact Option.some.inj second
      | succ k' =>
          obtain ⟨next, stepped, -⟩ := (run_cons_eq_some _).mp second
          rw [ended true] at stepped
          cases stepped
  | succ k ih =>
      obtain ⟨next, stepped, rest⟩ := (run_cons_eq_some _).mp first
      cases k' with
      | zero =>
          cases second
          rw [ended' true] at stepped
          cases stepped
      | succ k' =>
          obtain ⟨other, stepped', rest'⟩ := (run_cons_eq_some _).mp second
          cases stepped.symm.trans stepped'
          exact ih rest rest'

theorem delete_image_iff_finishes {unset : ℕ} {backend : Backend σ} :
    deleteImage unset backend = some out ↔
      ∃ k, run Deletion.call (.start unset backend) (List.replicate k true) =
        some ⟨.finished, out⟩ := by
  have forward : ∀ {out : Store σ}, deleteImage unset backend = some out →
      ∃ k, run Deletion.call (.start unset backend) (List.replicate k true) =
        some ⟨.finished, out⟩ := by
    intro out deleted
    obtain ⟨mid, listed, ended⟩ := Option.bind_eq_some_iff.mp deleted
    obtain ⟨k, toLoop⟩ := delete_listed_calls unset listed
    obtain ⟨j, toEnd⟩ := probe_calls ended
    refine ⟨k + j, ?_⟩
    rw [List.replicate_add]
    exact (run_append_eq_some _).mpr ⟨_, toLoop, toEnd⟩
  refine ⟨forward, ?_⟩
  rintro ⟨k, finishes⟩
  cases listed : deleteListed backend.super backend.store with
  | none =>
      obtain ⟨j, left, fails⟩ := delete_listed_fails unset listed
      have same := over_unique finishes (fun _ => rfl) fails (fun _ => rfl)
      cases same
  | some mid =>
      obtain ⟨other, ended⟩ := @probe_returns σ mid (16 * mid.size + 17) 0
        (backend.super.getLast?.getD unset) (by omega) (by omega)
      have deleted : deleteImage unset backend = some other := by
        rw [deleteImage, listed]
        exact ended
      obtain ⟨j, finishes'⟩ := forward deleted
      have same := over_unique finishes (fun _ => rfl) finishes' (fun _ => rfl)
      cases same
      exact deleted

end Working

/-! ## What is left of an interrupted deletion -/

section Left

variable {d d' : Deletion σ} {works : Bool} {backend : Backend σ} {c : ℕ} {rest : List ℕ}

theorem call_cases (called : d.call works = some d') :
    d'.store = d.store ∨ ∃ m, d'.store = d.store.erase m := by
  unfold Deletion.call at called
  split at called
  · split at called
    · cases called
      exact .inr ⟨_, rfl⟩
    · cases called
      exact .inl rfl
  · split at called
    · split at called
      · cases called
        exact .inr ⟨_, rfl⟩
      · cases called
        exact .inl rfl
    · split at called
      all_goals
        cases called
        exact .inl rfl
  · cases called
  · cases called

theorem call_keeps_missing (called : d.call works = some d') (gone : d.store[c]? = none) :
    d'.store[c]? = none := by
  rcases call_cases called with same | ⟨m, same⟩
  · rw [same, gone]
  · rw [same, table_erase, gone, ite_self]

def Begun (backend : Backend σ) (c : ℕ) (rest : List ℕ) (d : Deletion σ) : Prop :=
  (d.phase = .listed c rest ∨ d.phase = .failed) ∧ d.store = backend.store ∨ d.store[c]? = none

theorem Begun.call (begun : Begun backend c rest d) (called : d.call works = some d') :
    Begun backend c rest d' := by
  rcases begun with ⟨phase | phase, same⟩ | gone
  · rw [Deletion.call, phase] at called
    dsimp only at called
    split at called
    · cases called
      right
      rw [table_erase, if_pos rfl]
    · cases called
      exact .inl ⟨.inr rfl, same⟩
  · rw [Deletion.call, phase] at called
    cases called
  · exact .inr (call_keeps_missing called gone)

theorem interrupted_begun {unset : ℕ} {calls : List Bool} (listed : backend.super = c :: rest)
    (ran : run Deletion.call (.start unset backend) calls = some d) : Begun backend c rest d := by
  have start : Begun backend c rest (.start unset backend) := by
    refine .inl ⟨.inl ?_, rfl⟩
    rw [Deletion.start, listed, Phase.enter]
  exact invariant_run (fun _ _ _ begun called => begun.call called) start ran

theorem delete_image_missing {unset : ℕ} (listed : backend.super = c :: rest)
    (gone : backend.store[c]? = none) : deleteImage unset backend = none := by
  rw [deleteImage, listed, deleteListed, gone]
  rfl

end Left

section Unset

variable {store out : Store σ}

theorem probe_top {fuel n : ℕ} (few : n ≤ 16)
    (small : ∀ (m : ℕ) (obj : Obj σ), store[m]? = some obj → m + 16 < 2 ^ 32)
    (ended : probe fuel n ((2 ^ 32 - 16 + n) % 2 ^ 32) store = some out) : out = store := by
  induction fuel generalizing n with
  | zero => cases ended
  | succ fuel ih =>
      rw [probe] at ended
      split at ended
      · next more =>
          have missing : store[(2 ^ 32 - 16 + n) % 2 ^ 32]? = none := by
            by_contra found
            obtain ⟨obj, present⟩ := Option.ne_none_iff_exists'.mp found
            have bound := small _ obj present
            omega
          have next : nextSeq ((2 ^ 32 - 16 + n) % 2 ^ 32) = (2 ^ 32 - 16 + (n + 1)) % 2 ^ 32 := by
            unfold nextSeq
            omega
          simp only [missing, next] at ended
          exact ih (by omega) ended
      · exact (Option.some.inj ended).symm

theorem probe_first {fuel seq : ℕ} {obj : Obj σ} (present : store[seq]? = some obj)
    (ended : probe fuel 0 seq store = some out) : out[seq]? = none := by
  cases fuel with
  | zero => cases ended
  | succ fuel =>
      rw [probe, if_pos (by omega), present] at ended
      by_contra stays
      obtain ⟨other, there⟩ := Option.ne_none_iff_exists'.mp stays
      have erased := probe_present ended there
      rw [table_erase, if_pos rfl] at erased
      cases erased

theorem delete_image_unlisted {unset : ℕ} (deleted : deleteImage unset ⟨store, []⟩ = some out) :
    ∃ fuel, probe fuel 0 unset store = some out := by
  obtain ⟨same, listed, ended⟩ := Option.bind_eq_some_iff.mp deleted
  cases listed
  exact ⟨_, ended⟩

theorem delete_image_unset {backend : Backend σ} (listed : backend.super ≠ []) (a b : ℕ) :
    deleteImage a backend = deleteImage b backend := by
  obtain ⟨last, isLast⟩ := Option.ne_none_iff_exists'.mp
    (fun none => listed (List.getLast?_eq_none_iff.mp none))
  simp only [deleteImage, isLast, Option.getD_some]

end Unset

/-! ## Resuming -/

/-- Deleting and deleting again ends as one uninterrupted deletion does, whatever the
variable that was never set holds. -/
def Resumes (backend : Backend σ) (d : Deletion σ) : Prop :=
  ∀ before < 2 ^ 32, ∀ after < 2 ^ 32, ∃ out, deleteImage before backend = some out ∧
    d.again after backend.super = some out

variable {d : Deletion σ}

theorem again_of_unfinished {unset : ℕ} {super : List ℕ} (unfinished : d.phase ≠ .finished) :
    d.again unset super = deleteImage unset ⟨d.store, super⟩ := by
  unfold Deletion.again
  split
  · next finished => exact absurd finished unfinished
  · rfl

variable {backend : Backend σ}

theorem Resumes.unfinished (resumes : Resumes backend d) :
    d.phase ≠ .finished := by
  intro finished
  obtain ⟨out, -, again⟩ := resumes 0 (by norm_num) 0 (by norm_num)
  rw [Deletion.again, finished] at again
  cases again

theorem Resumes.listed_untouched {unset : ℕ} {calls : List Bool} (resumes : Resumes backend d)
    (listed : backend.super ≠ []) (ran : run Deletion.call (.start unset backend) calls = some d) :
    d.store = backend.store := by
  obtain ⟨c, rest, isListed⟩ := List.exists_cons_of_ne_nil listed
  obtain ⟨out, -, again⟩ := resumes 0 (by norm_num) 0 (by norm_num)
  rw [again_of_unfinished resumes.unfinished] at again
  rcases interrupted_begun isListed ran with ⟨-, same⟩ | gone
  · exact same
  · have fails : deleteImage 0 ⟨d.store, backend.super⟩ = none := delete_image_missing isListed gone
    rw [fails] at again
    cases again

/-- Where the loop starts from a variable that was never set, it may delete anything
or nothing. -/
theorem Resumes.unlisted_empty (low : Low backend)
    (fewer : ∀ (m : ℕ) (obj : Obj σ), d.store[m]? = some obj → backend.store[m]? = some obj)
    (resumes : Resumes backend d) (unlisted : backend.super = []) :
    d.store = backend.store ∧ ∀ n : ℕ, backend.store[n]? = none := by
  obtain ⟨store, super⟩ := backend
  obtain rfl : super = [] := unlisted
  have unfinished := resumes.unfinished
  have top : ∀ {store out : Store σ},
      (∀ (m : ℕ) (obj : Obj σ), store[m]? = some obj → m + 16 < 2 ^ 32) →
      deleteImage (2 ^ 32 - 16) ⟨store, []⟩ = some out → out = store := by
    intro store out small deleted
    obtain ⟨fuel, ended⟩ := delete_image_unlisted deleted
    exact probe_top (Nat.zero_le _) small ended
  have again : ∀ {out : Store σ}, d.again (2 ^ 32 - 16) [] = some out → out = d.store := by
    intro out deleted
    rw [again_of_unfinished unfinished] at deleted
    exact top (fun m obj present => low m obj (fewer m obj present)) deleted
  obtain ⟨untouched, deleted, deletedAgain⟩ := resumes (2 ^ 32 - 16) (by norm_num) (2 ^ 32 - 16)
    (by norm_num)
  have same : d.store = store := (again deletedAgain).symm.trans (top low deleted)
  refine ⟨same, ?_⟩
  intro m
  by_contra found
  obtain ⟨obj, present⟩ := Option.ne_none_iff_exists'.mp found
  have bound := low m obj present
  obtain ⟨out, deleted', deletedAgain'⟩ := resumes m (by omega) (2 ^ 32 - 16) (by norm_num)
  obtain ⟨fuel, ended⟩ := delete_image_unlisted deleted'
  have gone : out[m]? = none := probe_first present ended
  rw [again deletedAgain', same] at gone
  exact found gone

theorem run_call_fewer {d e : Deletion σ} {calls : List Bool} {m : ℕ} {obj : Obj σ}
    (ran : run Deletion.call d calls = some e) (present : e.store[m]? = some obj) :
    d.store[m]? = some obj := by
  induction calls generalizing d with
  | nil =>
      cases ran
      exact present
  | cons works calls ih =>
      obtain ⟨next, called, later⟩ := (run_cons_eq_some _).mp ran
      have there := ih later
      rcases call_cases called with same | ⟨k, same⟩
      · rwa [same] at there
      · rw [same] at there
        exact table_of_erase there

/-- A deletion of an image whose listed checkpoints are there is interrupted, by a
crash between two calls or by calls that fail. Deleting the image again then ends as
an uninterrupted deletion does exactly if no call had taken effect and there was a
listed checkpoint or nothing at all to delete. -/
theorem deletion_resumes_iff {backend : Backend σ} {unset : ℕ} {calls : List Bool} {d : Deletion σ}
    (distinct : backend.super.Nodup)
    (present : ∀ c ∈ backend.super, ∃ obj, backend.store[c]? = some obj) (low : Low backend)
    (ran : run Deletion.call (.start unset backend) calls = some d) :
    Resumes backend d ↔ d.phase ≠ .finished ∧ d.store = backend.store ∧
      (backend.super = [] → ∀ n : ℕ, backend.store[n]? = none) := by
  constructor
  · intro resumes
    by_cases listed : backend.super = []
    · obtain ⟨same, empty⟩ := resumes.unlisted_empty low (fun _ _ => run_call_fewer ran) listed
      exact ⟨resumes.unfinished, same, fun _ => empty⟩
    · exact ⟨resumes.unfinished, resumes.listed_untouched listed ran, fun none => absurd none listed⟩
  · rintro ⟨unfinished, same, empty⟩ before - after -
    rw [again_of_unfinished unfinished, same]
    obtain ⟨out, deleted⟩ := delete_image_returns distinct present before
    refine ⟨out, deleted, ?_⟩
    by_cases listed : backend.super = []
    · obtain ⟨out', deleted'⟩ := delete_image_returns distinct present after
      have probed : Probed backend := by
        intro n obj there
        rw [empty listed n] at there
        cases there
      have equal : out' = out := by
        apply Std.ExtTreeMap.ext_getElem?
        intro n
        rw [probed.clears low deleted n, probed.clears low deleted' n]
      exact equal ▸ deleted'
    · rw [← delete_image_unset listed before after]
      exact deleted

/-- The very first call fails, and the image is deleted again. -/
theorem deletion_resumes_first_call : ∃ (h : Lineage ℕ) (d : Deletion ℕ),
    run (Lineage.step (fun _ => 0) 7) .create checkpointFirst = some h ∧
      h.world.backend.super = [1] ∧
      run Deletion.call (.start 0 h.world.backend) [false] = some d ∧ d.phase = .failed ∧
      Resumes h.world.backend d := by
  obtain ⟨h, ran, held⟩ := (Option.any_eq_true _ _).mp
    (by decide +kernel : (run (Lineage.step (fun _ => 0) 7) .create checkpointFirst).any (fun h =>
      decide (h.world.backend.super = [1])) = true)
  have super : h.world.backend.super = [1] := of_decide_eq_true held
  have isSealed := Lineage.history_sealed (by norm_num) (by decide +kernel) ran
  have called : run Deletion.call (.start 0 h.world.backend) [false] =
      some ⟨.failed, h.world.backend.store⟩ := by
    simp [run_cons, Deletion.start, super, Phase.enter, Deletion.call]
  refine ⟨h, _, ran, super, called, rfl, ?_⟩
  refine (deletion_resumes_iff isSealed.distinct isSealed.present isSealed.low called).mpr ?_
  exact ⟨by simp, rfl, by simp [super]⟩

/-- Checkpoint 1 is deleted and then the deletion is cut short: it cannot be repeated,
and the superblock and object 2 stay. If the calls for object 2 and the 15 numbers
after it fail, the deletion goes on, removes the superblock and leaves object 2. -/
theorem deletion_stuck : ∃ (h : Lineage ℕ) (cut missed : Deletion ℕ),
    run (Lineage.step (fun _ => 0) 7) .create checkpointFirst = some h ∧
      (deleteImage 0 h.world.backend).map (·.size) = some 0 ∧
      run Deletion.call (.start 0 h.world.backend) [true] = some cut ∧
      cut.store.keys = [2] ∧ cut.again 0 h.world.backend.super = none ∧
      run Deletion.call (.start 0 h.world.backend) ([true] ++ List.replicate 16 false ++ [true]) =
        some missed ∧
      missed.phase = .finished ∧ missed.store.keys = [2] := by
  obtain ⟨h, ran, held⟩ := (Option.any_eq_true _ _).mp
    (by decide +kernel : (run (Lineage.step (fun _ => 0) 7) .create checkpointFirst).any (fun h =>
      decide ((deleteImage 0 h.world.backend).map (·.size) = some 0) &&
      (run Deletion.call (.start 0 h.world.backend) [true]).any (fun cut =>
        decide (cut.store.keys = [2]) &&
          decide ((cut.again 0 h.world.backend.super).isNone = true)) &&
      (run Deletion.call (.start 0 h.world.backend)
        ([true] ++ List.replicate 16 false ++ [true])).any (fun missed =>
          decide (missed.phase = .finished) && decide (missed.store.keys = [2]))) = true)
  simp only [Bool.and_eq_true, decide_eq_true_eq, Option.any_eq_true, Option.isNone_iff_eq_none]
    at held
  obtain ⟨⟨whole, cut, cutRan, left, stuck⟩, missed, missedRan, finished, stays⟩ := held
  exact ⟨h, cut, missed, ran, whole, cutRan, left, stuck, missedRan, finished, stays⟩

end LsvdRbd.Lifecycle
