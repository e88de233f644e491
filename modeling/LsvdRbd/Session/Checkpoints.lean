import LsvdRbd.Session.Coherence

/-!
# Published checkpoints

The listed checkpoints are in increasing order, and each is in the backend as it
was written, from the maps that the worker then had. Nothing that garbage
collection deletes is a checkpoint. A checkpoint that is written while no PUT is
outstanding refers to completed objects only.
-/

namespace LsvdRbd.Session

open Records RunList ExtentMap Format Translate Recovery Machine

set_option autoImplicit false

variable {σ : Type*} {env : Env}

def Gc.objects : Gc σ → List ℕ
  | .reaping _ dead left => dead ++ left
  | .selected _ objs | .snapshot objs _ | .sending objs _ | .cleaned objs | .waiting objs =>
      objs.map Prod.fst
  | .deleting left => left
  | _ => []

namespace Tx

variable {s s' mid : Tx σ}

/-! ## What garbage collection may delete -/

variable {a : Action σ}

theorem Collected.objects (collected : Collected env s a s') :
    ∀ o ∈ s'.gc.objects, o ∈ s.gc.objects ∨ ∃ oi : ObjInfo, s.maps.info[o]? = some oi := by
  intro o member
  cases collected with
  | dead phase =>
      simp only [Gc.objects, List.mem_append, or_self, deadObjects, List.mem_map] at member
      obtain ⟨entry, dead, rfl⟩ := member
      have inTable := (List.mem_filter.mp dead).1
      exact .inr ⟨entry.2, Std.ExtTreeMap.mem_toList_iff_getElem?_eq_some.mp inTable⟩
  | reap phase inLeft =>
      simp only [Gc.objects, phase, List.mem_append] at member ⊢
      exact .inl (member.imp id List.mem_of_mem_erase)
  | select phase nodup few allowed =>
      simp only at member
      split at member
      · cases member
      · simp only [Gc.objects, withLengths, List.map_map, List.mem_map] at member
        obtain ⟨n, picked, rfl⟩ := member
        exact .inr (selectable_listed (allowed n picked))
  | snapshot phase => exact .inl (by simpa only [Gc.objects, phase] using member)
  | load phase loaded => exact .inl (by simpa only [Gc.objects, phase] using member)
  | submit phase more => exact .inl (by simpa only [Gc.objects, phase] using member)
  | done phase quiet => exact .inl (by simpa only [Gc.objects, phase] using member)
  | checkpoint phase rolled => exact .inl (by simpa only [Gc.objects, phase] using member)
  | delete phase =>
      simp only [Gc.objects, phase] at member ⊢
      exact .inl (List.mem_cons_of_mem _ member)
  | start phase => cases member
  | erase phase => cases member
  | bound phase => cases member
  | finish phase => cases member
  | stop may => cases member
  | stopErased phase => cases member

theorem Stepped.objects (stepped : Stepped env s a s') :
    ∀ o ∈ s'.gc.objects, o ∈ s.gc.objects ∨ ∃ oi : ObjInfo, s.maps.info[o]? = some oi := by
  intro o member
  cases stepped with
  | write rolled nonempty room => cases rolled <;> exact .inl member
  | flush rolled => cases rolled <;> exact .inl member
  | checkpoint rolled => cases rolled <;> exact .inl member
  | flushThread rolled => cases rolled <;> exact .inl member
  | trim done => exact .inl member
  | complete inflight => exact .inl member
  | work free worked => cases worked <;> exact .inl member
  | collect collected => exact collected.objects o member
  | ckpt busy done =>
      cases done with
      | done stage phase moved =>
          rcases moved with ⟨rfl, -⟩ | ⟨objs, -, waits, rfl⟩
          · exact .inl member
          · exact .inl (by simpa only [Gc.objects, waits] using member)
      | _ => exact .inl member

def Ordinary (s : Tx σ) : Prop := ∀ o ∈ s.gc.objects, o < s.curSeq ∧ o ∉ s.ckptNumbers

theorem Stepped.ordinary (stepped : Stepped env s a s') (ok : s.Ok env) (envOk : env.Ok)
    (inRange : InRange s a) (reserved : Reserved s) (ordinary : Ordinary s) :
    Ordinary s' := by
  intro o member
  have before : o < s.curSeq ∧ o ∉ s.ckptNumbers := by
    rcases stepped.objects o member with old | ⟨oi, present⟩
    · exact ordinary o old
    · refine ⟨ok.below.listed o oi present, ?_⟩
      intro isCkpt
      rw [(reserved o isCkpt).unlisted] at present
      cases present
  refine ⟨lt_of_lt_of_le before.1 (stepped.moves ok envOk inRange).numbers, ?_⟩
  intro isCkpt
  rcases stepped.numbers inRange.numbersLeft o isCkpt with old | ⟨rfl, -⟩
  · exact before.2 old
  · exact lt_irrefl _ before.1

/-! ## What is in the backend for a checkpoint -/

/-- How far the checkpoint that is being written has got, and what follows; `W` says
what is known of the object of a checkpoint. -/
def Underway (W : Tx σ → ℕ → Obj σ → Prop) (s : Tx σ) (c : Ckpt σ) : Prop :=
  match c.stage with
  | .object => (∀ n ∈ s.ckpts, n < c.seq) ∧ W s c.seq c.obj
  | .superblock => (∀ n ∈ s.ckpts, n < c.seq) ∧ W s c.seq c.obj ∧ s.store[c.seq]? = some c.obj
  | .deletes old => (∀ o ∈ old, ∀ n ∈ s.ckpts, o < n) ∧ s.ckpts.getLast? = some c.seq ∧
      s.store[c.seq]? = some c.obj

/-- The superblock lists the checkpoints in increasing order, and each is in the
backend. -/
structure Backed (W : Tx σ → ℕ → Obj σ → Prop) (s : Tx σ) : Prop where
  super : s.super = s.ckpts
  increasing : s.ckpts.Pairwise (· < ·)
  listed : ∀ c ∈ s.ckpts, ∃ obj, s.store[c]? = some obj ∧ W s c obj
  writing : ∀ c, s.ckpting = some c → Underway W s c

section Backed

variable {W : Tx σ → ℕ → Obj σ → Prop}

theorem Backed.of_same (backed : Backed W s) (ckpts : s'.ckpts = s.ckpts)
    (super : s'.super = s.super) (ckpting : s'.ckpting = s.ckpting)
    (store : ∀ n ∈ s.ckptNumbers, s'.store[n]? = s.store[n]?)
    (stable : ∀ c obj, W s c obj → W s' c obj) : Backed W s' := by
  refine ⟨by rw [super, ckpts, backed.super], by rw [ckpts]; exact backed.increasing, ?_, ?_⟩
  · intro c member
    rw [ckpts] at member
    obtain ⟨obj, present, known⟩ := backed.listed c member
    exact ⟨obj, by rw [store c (List.mem_append_left _ member)]; exact present, stable c obj known⟩
  · intro c busy
    rw [ckpting] at busy
    have progress := backed.writing c busy
    have number : c.seq ∈ s.ckptNumbers := by simp [ckptNumbers, busy]
    unfold Underway at progress ⊢
    rw [ckpts, store _ number]
    cases stage : c.stage with
    | object =>
        rw [stage] at progress
        exact ⟨progress.1, stable _ _ progress.2⟩
    | superblock =>
        rw [stage] at progress
        exact ⟨progress.1, stable _ _ progress.2.1, progress.2.2⟩
    | deletes old =>
        rw [stage] at progress
        exact progress

theorem Backed.imp {W' : Tx σ → ℕ → Obj σ → Prop} (backed : Backed W s)
    (weaker : ∀ c obj, W s c obj → W' s c obj) : Backed W' s := by
  refine ⟨backed.super, backed.increasing, ?_, ?_⟩
  · intro c member
    obtain ⟨obj, present, known⟩ := backed.listed c member
    exact ⟨obj, present, weaker c obj known⟩
  · intro c busy
    have progress := backed.writing c busy
    unfold Underway at progress ⊢
    cases stage : c.stage with
    | object =>
        rw [stage] at progress
        exact ⟨progress.1, weaker _ _ progress.2⟩
    | superblock =>
        rw [stage] at progress
        exact ⟨progress.1, weaker _ _ progress.2.1, progress.2.2⟩
    | deletes old =>
        rw [stage] at progress
        exact progress

theorem Rolled.checkpoints (rolled : Rolled env s mid) : mid.ckpts = s.ckpts ∧
    mid.super = s.super ∧ mid.ckpting = s.ckpting ∧ mid.store = s.store := by
  cases rolled <;> exact ⟨rfl, rfl, rfl, rfl⟩

theorem keep_three_increasing {ckpts : List ℕ} (increasing : ckpts.Pairwise (· < ·)) :
    (keepThree ckpts).1.Pairwise (· < ·) ∧
      ∀ o ∈ (keepThree ckpts).2, ∀ n ∈ (keepThree ckpts).1, o < n := by
  rw [← List.take_append_drop (ckpts.length - 3) ckpts, List.pairwise_append] at increasing
  exact ⟨increasing.2.1, increasing.2.2⟩

theorem keep_three_last (ckpts : List ℕ) (n : ℕ) :
    (keepThree (ckpts ++ [n])).1.getLast? = some n := by
  rw [keepThree, List.length_append, List.length_singleton, List.drop_append_of_le_length (by omega),
    List.getLast?_append, List.getLast?_singleton, Option.some_or]

theorem Checkpointed.backed {c : Ckpt σ} (done : Checkpointed s c s') (busy : s.ckpting = some c)
    (stable : ∀ c obj, W s c obj → W s' c obj) (backed : Backed W s) : Backed W s' := by
  obtain ⟨super, increasing, listed, writing⟩ := backed
  have progress := writing c busy
  unfold Underway at progress
  cases done with
  | object stage =>
      rw [stage] at progress
      obtain ⟨newest, known⟩ := progress
      refine ⟨super, increasing, ?_, ?_⟩
      · intro n member
        obtain ⟨obj, present, old⟩ := listed n member
        have := newest n member
        refine ⟨obj, ?_, stable n obj old⟩
        simp only [table_insert]
        rw [if_neg (by omega)]
        exact present
      · intro c' same
        cases same
        refine ⟨newest, stable _ _ known, ?_⟩
        simp
  | superblock stage =>
      rw [stage] at progress
      obtain ⟨newest, known, present⟩ := progress
      have all : (s.ckpts ++ [c.seq]).Pairwise (· < ·) := by
        rw [List.pairwise_append]
        refine ⟨increasing, List.pairwise_singleton _ _, ?_⟩
        intro n member last isLast
        rw [List.mem_singleton.mp isLast]
        exact newest n member
      obtain ⟨kept, dropped⟩ := keep_three_increasing all
      refine ⟨rfl, kept, ?_, ?_⟩
      · intro n member
        rcases List.mem_append.mp (mem_keep_three.mp (.inl member)) with old | new
        · obtain ⟨obj, inStore, before⟩ := listed n old
          exact ⟨obj, inStore, stable n obj before⟩
        · rw [List.mem_singleton.mp new]
          exact ⟨c.obj, present, stable _ _ known⟩
      · intro c' same
        cases same
        exact ⟨dropped, keep_three_last _ _, present⟩
  | delete stage =>
      rename_i o rest
      rw [stage] at progress
      refine ⟨super, increasing, ?_, ?_⟩
      · intro n member
        obtain ⟨obj, present, old⟩ := listed n member
        have := progress.1 o (by simp) n member
        refine ⟨obj, ?_, stable n obj old⟩
        simp only [table_erase]
        rw [if_neg (by omega)]
        exact present
      · intro c' same
        cases same
        have := progress.1 o (by simp) c.seq (List.mem_of_getLast? progress.2.1)
        refine ⟨fun other member n inCkpts => progress.1 other (by simp [member]) n inCkpts,
          progress.2.1, ?_⟩
        simp only [table_erase]
        rw [if_neg (by omega)]
        exact progress.2.2
  | done stage phase moved =>
      refine ⟨super, increasing, ?_, ?_⟩
      · intro n member
        obtain ⟨obj, present, old⟩ := listed n member
        exact ⟨obj, present, stable n obj old⟩
      · intro c' free
        cases free

theorem Collected.stored (collected : Collected env s a s') (ordinary : Ordinary s) :
    ∀ n ∈ s.ckptNumbers, s'.store[n]? = s.store[n]? := by
  intro n number
  cases collected with
  | reap phase member =>
      rename_i maxObj dead left o
      have different : o ≠ n := by
        rintro rfl
        exact (ordinary o (by simp [Gc.objects, phase, member])).2 number
      simp only [table_erase, if_neg different]
  | delete phase =>
      rename_i o rest
      have different : o ≠ n := by
        rintro rfl
        exact (ordinary o (by simp [Gc.objects, phase])).2 number
      simp only [table_erase, if_neg different]
  | checkpoint phase rolled => cases rolled <;> rfl
  | _ => rfl

theorem land_stored {put : Put σ} (apart : put.seq ∉ s.ckptNumbers) :
    ∀ n ∈ s.ckptNumbers, (s.land env put).store[n]? = s.store[n]? := by
  intro n number
  have different : put.seq ≠ n := by
    rintro rfl
    exact apart number
  simp only [land, table_insert, if_neg different]

theorem Reserved.apart (reserved : Reserved s) : ∀ put ∈ s.inflight, put.seq ∉ s.ckptNumbers :=
  fun put member number => (reserved put.seq number).landed put member rfl

/-- Every step keeps the checkpoints backed, if what is known of them stays true and
holds of every checkpoint that is made. -/
theorem Stepped.backed (stepped : Stepped env s a s')
    (apart : ∀ put ∈ s.inflight, put.seq ∉ s.ckptNumbers) (ordinary : Ordinary s)
    (taken : ∀ n ∈ s.ckpts, n < s.curSeq) (stable : ∀ c obj, W s c obj → W s' c obj)
    (made : ∀ byGc rest obj, a = .work → s.queue = .ckpt byGc :: rest →
      checkpointObject env.uuid s.curSeq s.maps = some obj → W s' s.curSeq obj)
    (backed : Backed W s) : Backed W s' := by
  have rolls : ∀ {mid : Tx σ}, Rolled env s mid → ∀ t : Tx σ, t.ckpts = mid.ckpts →
      t.super = mid.super → t.ckpting = mid.ckpting → t.store = mid.store →
      (∀ c obj, W s c obj → W t c obj) → Backed W t := by
    intro mid rolled t ckpts super ckpting store keeps
    obtain ⟨midCkpts, midSuper, midCkpting, midStore⟩ := rolled.checkpoints
    exact backed.of_same (ckpts.trans midCkpts) (super.trans midSuper)
      (ckpting.trans midCkpting) (fun n _ => by rw [store, midStore]) keeps
  cases stepped with
  | write rolled nonempty room => exact rolls rolled _ rfl rfl rfl rfl stable
  | flush rolled => exact rolls rolled _ rfl rfl rfl rfl stable
  | checkpoint rolled => exact rolls rolled _ rfl rfl rfl rfl stable
  | flushThread rolled => exact rolls rolled _ rfl rfl rfl rfl stable
  | trim done => exact backed.of_same rfl rfl rfl (fun _ _ => rfl) stable
  | complete member => exact backed.of_same rfl rfl rfl (land_stored (apart _ member)) stable
  | ckpt busy done => exact done.backed busy stable backed
  | collect collected =>
      obtain ⟨-, -, -, -, ckpts, super, ckpting, -⟩ := collected.frame
      exact backed.of_same ckpts super ckpting (collected.stored ordinary) stable
  | work free worked =>
      cases worked with
      | put head done => exact backed.of_same rfl rfl rfl (fun _ _ => rfl) stable
      | gc head done => exact backed.of_same rfl rfl rfl (fun _ _ => rfl) stable
      | flush head quiet => exact backed.of_same rfl rfl rfl (fun _ _ => rfl) stable
      | ckpt head done =>
          rename_i byGc rest obj
          refine ⟨backed.super, backed.increasing, ?_, ?_⟩
          · intro c member
            obtain ⟨old, present, known⟩ := backed.listed c member
            exact ⟨old, present, stable c old known⟩
          · intro c same
            cases same
            exact ⟨taken, made byGc rest obj rfl head done⟩

end Backed

/-! ## Checkpoints of consistent maps -/

def Written (env : Env) (Q : Tx σ → Maps → Prop) (s : Tx σ) (c : ℕ) (obj : Obj σ) : Prop :=
  c < 2 ^ 31 ∧ ∃ maps : Maps, checkpointObject env.uuid c maps = some obj ∧ maps.Consistent ∧
    maps.Below c ∧ Q s maps

theorem Written.imp {Q R : Tx σ → Maps → Prop} {c : ℕ} {obj : Obj σ} (written : Written env Q s c obj)
    (weaker : ∀ maps, Q s maps → R s' maps) : Written env R s' c obj := by
  obtain ⟨bound, maps, object, consistent, below, holds⟩ := written
  exact ⟨bound, maps, object, consistent, below, weaker maps holds⟩

def Progress (env : Env) (Q : Tx σ → Maps → Prop) (s : Tx σ) (c : Ckpt σ) : Prop :=
  match c.stage with
  | .object => (∀ n ∈ s.ckpts, n < c.seq) ∧ Written env Q s c.seq c.obj
  | .superblock => (∀ n ∈ s.ckpts, n < c.seq) ∧ Written env Q s c.seq c.obj ∧
      s.store[c.seq]? = some c.obj
  | .deletes old => (∀ o ∈ old, ∀ n ∈ s.ckpts, o < n) ∧ s.ckpts.getLast? = some c.seq ∧
      s.store[c.seq]? = some c.obj

/-- The superblock lists the checkpoints in increasing order, and each is in the
backend as it was written from maps that satisfy `Q`. -/
structure Published (env : Env) (Q : Tx σ → Maps → Prop) (s : Tx σ) : Prop where
  super : s.super = s.ckpts
  increasing : s.ckpts.Pairwise (· < ·)
  listed : ∀ c ∈ s.ckpts, ∃ obj, s.store[c]? = some obj ∧ Written env Q s c obj
  writing : ∀ c, s.ckpting = some c → Progress env Q s c

theorem published_iff {Q : Tx σ → Maps → Prop} : Published env Q s ↔ Backed (Written env Q) s := by
  have progress : ∀ c, Progress env Q s c ↔ Underway (Written env Q) s c := by
    intro c
    unfold Progress Underway
    cases c.stage <;> rfl
  constructor
  · rintro ⟨super, increasing, listed, writing⟩
    exact ⟨super, increasing, listed, fun c busy => (progress c).mp (writing c busy)⟩
  · rintro ⟨super, increasing, listed, writing⟩
    exact ⟨super, increasing, listed, fun c busy => (progress c).mpr (writing c busy)⟩

/-- Every step keeps the checkpoints published, if `Q` stays true and holds of the
maps from which a checkpoint is made. -/
theorem Stepped.published {Q : Tx σ → Maps → Prop} (stepped : Stepped env s a s') (ok : s.Ok env)
    (inRange : InRange s a) (reserved : Reserved s) (ordinary : Ordinary s)
    (stable : ∀ maps, Q s maps → Q s' maps)
    (made : ∀ byGc rest, a = .work → s.queue = .ckpt byGc :: rest → Q s' s.maps)
    (published : Published env Q s) : Published env Q s' := by
  rw [published_iff] at published ⊢
  refine stepped.backed reserved.apart ordinary ?_ (fun c obj written => written.imp stable) ?_
    published
  · intro n member
    exact (reserved n (List.mem_append_left _ member)).taken
  · rintro byGc rest obj rfl head done
    exact ⟨inRange, s.maps, done, ok.consistent, ok.below, made byGc rest rfl head⟩

/-! ## Whole runs -/

structure Valid (env : Env) (s : Tx σ) : Prop where
  ok : s.Ok env
  reserved : Reserved s
  ordinary : Ordinary s

theorem Valid.step (valid : s.Valid env) (envOk : env.Ok) (stepped : Stepped env s a s')
    (inRange : InRange s a) : s'.Valid env :=
  ⟨stepped.ok valid.ok inRange, stepped.reserved valid.ok envOk inRange valid.reserved,
    stepped.ordinary valid.ok envOk inRange valid.reserved valid.ordinary⟩

theorem AtRest.valid (opened : s.AtRest) (envOk : env.Ok) : s.Valid env := by
  refine ⟨opened.ok envOk, opened.reservedNumbers, ?_⟩
  intro o member
  rw [opened.gc] at member
  cases member

def Landed (s : Tx σ) (maps : Maps) : Prop :=
  ∀ x p, locate maps.objmap x = some p → p.obj < s.curSeq ∧ ∀ put ∈ s.inflight, (put.seq : ℤ) ≠ p.obj

theorem Landed.step {maps : Maps} (landed : Landed s maps) (moves : Moves s s') :
    Landed s' maps := by
  intro x p found
  obtain ⟨earlier, done⟩ := landed x p found
  have numbers := moves.numbers
  refine ⟨by omega, ?_⟩
  intro put member
  rcases moves.flying put member with old | new
  · exact done put old
  · omega

end Tx

/-- The worker takes a checkpoint request only while no PUT is outstanding. -/
def Settled (s : Tx σ) : Action σ → Prop
  | .work => match s.queue with
      | .ckpt _ :: _ => s.inflight.length = 0
      | _ => True
  | _ => True

instance (s : Tx σ) (a : Action σ) : Decidable (Settled s a) :=
  decidable_of_iff ((match a with
    | .work => match s.queue with
        | .ckpt _ :: _ => decide (s.inflight.length = 0)
        | _ => true
    | _ => true) = true) (by
      unfold Settled
      split
      · split <;> simp
      · simp)

def SettledInRange (s : Tx σ) (a : Action σ) : Prop := InRange s a ∧ Settled s a

instance (s : Tx σ) (a : Action σ) : Decidable (SettledInRange s a) :=
  inferInstanceAs (Decidable (_ ∧ _))

theorem Tx.Published.landed_step {s s' : Tx σ} {a : Action σ}
    (published : Published env Landed s) (valid : s.Valid env) (envOk : env.Ok)
    (stepped : Stepped env s a s') (inRange : InRange s a) (settled : Settled s a) :
    Published env Landed s' := by
  have moves := stepped.moves valid.ok envOk inRange
  refine stepped.published valid.ok inRange valid.reserved valid.ordinary
    (fun maps landed => landed.step moves) ?_ published
  rintro byGc rest rfl head
  simp only [Settled, head, List.length_eq_zero_iff] at settled
  refine Landed.step ?_ moves
  intro x p found
  refine ⟨valid.ok.below.mapped x p found, ?_⟩
  rw [settled]
  intro put member
  cases member

theorem Tx.Written.read {Q : Tx σ → Maps → Prop} {s : Tx σ} {c : ℕ} {obj : Obj σ}
    (written : Written env Q s c obj) (envOk : env.Ok) (ckpts : List ℕ) :
    ∃ maps image, Q s maps ∧ maps.Consistent ∧ maps.Below c ∧
      readFromCheckpoint (some obj) ⟨Extmap.empty, ∅, ckpts⟩ = .ok image ∧ Sound image.objmap ∧
      (∀ x, locate image.objmap x = locate maps.objmap x) ∧
      image.info = (ckptObjects maps.info).foldl loadObject ∅ ∧ image.ckpts = ckpts := by
  obtain ⟨bound, maps, object, consistent, below, holds⟩ := written
  obtain ⟨m, read, sound, located⟩ := read_from_written_checkpoint consistent.sound envOk.uuid
    (by omega) object ckpts
  exact ⟨maps, _, holds, consistent, below, read, sound, located, rfl, rfl⟩

/-- In every run whose worker takes checkpoint requests only while no PUT is
outstanding, every checkpoint that the superblock lists can be read, and the PUT
of every object that its map refers to is done. -/
theorem published_checkpoints_refer_to_completed {s t : Tx σ} {acts : List (Action σ)}
    (envOk : env.Ok) (opened : s.AtRest)
    (published : s.Published env fun _ _ => True)
    (along : Along (step env) SettledInRange s acts) (ran : run (step env) s acts = some t) :
    ∀ c ∈ t.super, ∃ image, readFromCheckpoint t.store[c]? ⟨Extmap.empty, ∅, []⟩ = .ok image ∧
      ∀ x p, locate image.objmap x = some p → p.obj < c ∧ t.sent p.obj.toNat = none := by
  have start : s.Valid env ∧ s.Published env Tx.Landed := by
    refine ⟨opened.valid envOk, published.super, published.increasing, ?_, ?_⟩
    · intro c member
      obtain ⟨obj, present, bound, maps, object, consistent, below, -⟩ := published.listed c member
      refine ⟨obj, present, bound, maps, object, consistent, below, ?_⟩
      intro x p found
      have := below.mapped x p found
      have := (opened.reserved c member).taken
      refine ⟨by omega, ?_⟩
      rw [opened.inflight]
      intro put inflight
      cases inflight
    · intro c busy
      rw [opened.ckpting] at busy
      cases busy
  have keeps : ∀ (s : Tx σ) (a : Action σ) (next : Tx σ),
      s.Valid env ∧ s.Published env Tx.Landed → SettledInRange s a → step env s a = some next →
      next.Valid env ∧ next.Published env Tx.Landed := by
    rintro s a next ⟨valid, published⟩ ⟨inRange, settled⟩ stepped
    have cases := Tx.step_cases stepped
    exact ⟨valid.step envOk cases inRange,
      published.landed_step valid envOk cases inRange settled⟩
  obtain ⟨valid, final⟩ := invariant_along keeps start along ran
  intro c member
  rw [final.super] at member
  obtain ⟨obj, present, written⟩ := final.listed c member
  obtain ⟨maps, image, landed, consistent, below, read, -, located, -⟩ := written.read envOk []
  refine ⟨image, by rw [present]; exact read, ?_⟩
  intro x p found
  rw [located] at found
  have bounds := consistent.sound.bounds found
  refine ⟨below.mapped x p found, ?_⟩
  by_contra flying
  obtain ⟨put, carried⟩ := Option.ne_none_iff_exists'.mp flying
  obtain ⟨inflight, seq⟩ := (Tx.sent_eq_some_iff valid.ok).mp carried
  have := (landed x p found).2 put inflight
  omega

theorem Tx.create_published (env : Env) (Q : Tx σ → Maps → Prop) (addr : ℤ) :
    (Tx.create addr : Tx σ).Published env Q where
  super := rfl
  increasing := List.Pairwise.nil
  listed c member := by cases member
  writing c busy := by cases busy

def settledRun : List (Action ℕ) :=
  [.writev 8 [2, 3] 0, .flushThread 5000000, .work, .complete 1, .checkpoint 0, .work, .ckptStep,
    .ckptStep]

theorem published_checkpoint_refers_to_completed : ∃ t image,
    run (step smallEnv) (Tx.create 1000000) settledRun = some t ∧ t.super = [2] ∧
      readFromCheckpoint t.store[2]? ⟨Extmap.empty, ∅, []⟩ = .ok image ∧
      ∀ x p, locate image.objmap x = some p → p.obj < (2 : ℕ) ∧ t.sent p.obj.toNat = none := by
  obtain ⟨t, ran⟩ := Option.isSome_iff_exists.mp
    (by decide +kernel : (run (step smallEnv) (Tx.create 1000000) settledRun).isSome)
  have listed : (run (step smallEnv) (Tx.create 1000000) settledRun).map Tx.super = some [2] := by
    decide +kernel
  rw [ran] at listed
  have super : t.super = [2] := Option.some.inj listed
  obtain ⟨image, read, durable⟩ := published_checkpoints_refer_to_completed small_env_ok
    (Tx.create_at_rest 1000000) (Tx.create_published _ _ _) (by decide +kernel) ran 2 (by simp [super])
  exact ⟨t, image, ran, super, read, durable⟩

/-- The checkpoint overtakes the PUT of object 1: the superblock lists checkpoint 2,
whose map gives address 8 to object 1, and object 1 is not in the backend. -/
theorem checkpoint_overtakes_put :
    (run (step smallEnv) (Tx.create 1000000)
      [.writev 8 [2, 3] 0, .checkpoint 5000000, .work, .work, .ckptStep, .ckptStep]).map (fun t =>
        (t.super, (t.sent 1).isSome, t.store.contains 1,
          match readFromCheckpoint t.store[2]? ⟨Extmap.empty, ∅, []⟩ with
          | .ok image => locate image.objmap 8
          | .error _ => none)) =
      some ([2], true, false, some ⟨1, 8⟩) := by
  decide +kernel

end LsvdRbd.Session
