import LsvdRbd.Lifecycle.Remains
import LsvdRbd.Session.Readable

/-!
# A clean close

`shutdown` stops the collector and asks for a last checkpoint, behind everything that is
queued. Until that is written the worker goes on, and PUTs complete. Whatever the session
did before, trims and garbage collection among it, the next open loads this checkpoint,
finds nothing to replay and has the maps of the session.
-/

namespace LsvdRbd.Lifecycle

open Records RunList ExtentMap Format Translate Recovery Session Machine

set_option autoImplicit false

variable {σ : Type*} {env : Env}

/-- What still happens once `shutdown` has asked for its checkpoint. -/
def isClosing : Action σ → Bool
  | .work | .ckptStep | .complete _ => true
  | _ => false

/-- A checkpoint with the newest number holds the present maps, if its number was given out
while the image was closing. -/
def Newest (uuid first : ℕ) (s : Tx σ) (c : ℕ) (obj : Obj σ) : Prop :=
  c < s.curSeq ∧ (first ≤ c → c + 1 = s.curSeq → checkpointObject uuid c s.maps = some obj)

/-- Where the checkpoint of `shutdown` is: last in the queue, being written, or listed. -/
def LastCheckpoint (first : ℕ) (s : Tx σ) : Prop :=
  (∃ front, s.queue = front ++ [.ckpt false]) ∨ s.queue = [] ∧ first < s.curSeq ∧
    ((∃ c, s.ckpting = some c ∧ c.seq + 1 = s.curSeq) ∨
      s.ckpting = none ∧ s.ckpts.getLast? = some (s.curSeq - 1))

structure Steady (env : Env) (s : Tx σ) : Prop where
  valid : s.Valid env
  guarded : s.Guarded env.uuid
  early : ∀ (n : ℕ) (obj : Obj σ), s.store[n]? = some obj → n < s.curSeq

structure Closing (env : Env) (first : ℕ) (s : Tx σ) : Prop where
  steady : Steady env s
  started : first ≤ s.curSeq
  backed : s.Backed (Newest env.uuid first)
  last : LastCheckpoint first s
  empty : s.current.data = []

variable {s s' : Tx σ} {a : Action σ} {first : ℕ}

/-! ## One step -/

theorem Steady.step (steady : Steady env s) (envOk : env.Ok) (stepped : Tx.Stepped env s a s')
    (inRange : InRange s a) : Steady env s' :=
  ⟨steady.valid.step envOk stepped inRange, steady.guarded.step stepped inRange.numbersLeft,
    stepped.early inRange.numbersLeft steady.guarded.separate steady.early⟩

/-- A step gives out a number, or it leaves the maps alone. -/
theorem closing_frame (stepped : Tx.Stepped env s a s') (closing : isClosing a = true)
    (left : NumbersLeft s a) : s'.current = s.current ∧
      (s.curSeq < s'.curSeq ∨ s'.curSeq = s.curSeq ∧ s'.maps = s.maps) := by
  cases stepped with
  | write | flush | checkpoint | flushThread | trim => cases closing
  | collect collected => cases collected <;> cases closing
  | complete member => exact ⟨rfl, .inr ⟨rfl, rfl⟩⟩
  | ckpt busy done => cases done <;> exact ⟨rfl, .inr ⟨rfl, rfl⟩⟩
  | work free worked =>
      have next : s.curSeq < nextSeq s.curSeq := by
        rw [next_seq_eq left]
        omega
      cases worked with
      | flush head quiet => exact ⟨rfl, .inr ⟨rfl, rfl⟩⟩
      | put head done | gc head done | ckpt head done => exact ⟨rfl, .inl next⟩

theorem Newest.step {c : ℕ} {obj : Obj σ} (newest : Newest env.uuid first s c obj)
    (stepped : Tx.Stepped env s a s') (closing : isClosing a = true) (left : NumbersLeft s a) :
    Newest env.uuid first s' c obj := by
  obtain ⟨taken, holds⟩ := newest
  rcases (closing_frame stepped closing left).2 with grows | ⟨curSeq, maps⟩
  · refine ⟨taken.trans grows, ?_⟩
    intro _ isLast
    omega
  · rw [Newest, curSeq, maps]
    exact ⟨taken, holds⟩

theorem Tx.Worked.last_checkpoint (worked : Tx.Worked env s s') (started : first ≤ s.curSeq)
    (left : s.curSeq < 2 ^ 31) (last : LastCheckpoint first s) : LastCheckpoint first s' := by
  have next : nextSeq s.curSeq = s.curSeq + 1 := next_seq_eq left
  have front : ∀ {item : Work σ} {rest : List (Work σ)}, s.queue = item :: rest →
      (∃ front', rest = front' ++ [.ckpt false]) ∨ item = .ckpt false ∧ rest = [] := by
    intro item rest head
    rcases last with ⟨front, queue⟩ | ⟨none, -⟩
    · rw [head] at queue
      cases front with
      | nil => exact .inr (List.cons.inj queue)
      | cons other front => exact .inl ⟨front, (List.cons.inj queue).2⟩
    · cases head.symm.trans none
  cases worked with
  | put head | gc head | flush head => exact .inl ((front head).resolve_right (by simp))
  | ckpt head done =>
      rcases front head with more | ⟨-, none⟩
      · exact .inl more
      · refine .inr ⟨none, ?_, .inl ⟨_, rfl, next.symm⟩⟩
        change first < nextSeq s.curSeq
        omega

theorem Tx.Checkpointed.last_checkpoint {c : Ckpt σ} (done : Tx.Checkpointed s c s')
    (busy : s.ckpting = some c) (backed : s.Backed (Newest env.uuid first))
    (last : LastCheckpoint first s) : LastCheckpoint first s' := by
  rcases last with ⟨front, queue⟩ | ⟨queue, grown, ⟨c', writing, isLast⟩ | ⟨free, -⟩⟩
  · left
    cases done <;> exact ⟨front, queue⟩
  · cases busy.symm.trans writing
    right
    cases done with
    | object | superblock | delete => exact ⟨queue, grown, .inl ⟨_, rfl, isLast⟩⟩
    | done stage phase moved =>
        have progress := backed.writing c busy
        unfold Tx.Underway at progress
        rw [stage] at progress
        refine ⟨queue, grown, .inr ⟨rfl, progress.2.1.trans ?_⟩⟩
        exact congrArg some (by simp only; omega)
  · cases busy.symm.trans free

theorem Closing.step (closing : Closing env first s) (envOk : env.Ok)
    (stepped : Tx.Stepped env s a s') (ends : isClosing a = true) (inRange : InRange s a) :
    Closing env first s' := by
  have left := inRange.numbersLeft
  obtain ⟨current, numbers⟩ := closing_frame stepped ends left
  obtain ⟨valid, guarded, -⟩ := closing.steady
  refine ⟨closing.steady.step envOk stepped inRange, by have := closing.started; omega, ?_, ?_,
    by rw [current]; exact closing.empty⟩
  · refine stepped.backed valid.reserved.apart valid.ordinary
      (fun n member => guarded.separate.taken n (List.mem_append_left _ member))
      (fun c obj newest => newest.step stepped ends left) ?_ closing.backed
    rintro byGc rest obj rfl head object
    cases stepped with
    | collect collected => cases collected
    | work free worked =>
        cases worked with
        | put other | gc other | flush other => simp [head] at other
        | ckpt other done =>
            refine ⟨?_, fun _ _ => object⟩
            change s.curSeq < nextSeq s.curSeq
            rw [next_seq_eq left]
            omega
  · cases stepped with
    | write | flush | checkpoint | flushThread | trim => cases ends
    | collect collected => cases collected <;> cases ends
    | complete member => exact closing.last
    | work free worked => exact Tx.Worked.last_checkpoint worked closing.started left closing.last
    | ckpt busy done => exact Tx.Checkpointed.last_checkpoint done busy closing.backed closing.last

/-! ## From the request to the next open -/

/-- Once the checkpoint is listed, an open loads the maps of the session, and there is
nothing to replay and nothing to delete. -/
theorem Closing.recovers (closing : Closing env first s) (envOk : env.Ok) (queue : s.queue = [])
    (written : s.ckpting = none) (window : ℕ) (narrow : window * 4 ≤ 2 ^ 31) :
    ∃ image store, recover window s.super s.store = some (.ok (image, s.curSeq - 1, store)) ∧
      (∀ x, locate image.objmap x = locate s.maps.objmap x) ∧
      (TableFits s.maps.info → image.info = s.maps.info) ∧ image.ckpts = s.ckpts ∧
      ∀ n : ℕ, store[n]? = s.store[n]? := by
  have listed : first < s.curSeq ∧ s.ckpts.getLast? = some (s.curSeq - 1) := by
    rcases closing.last with ⟨front, more⟩ | ⟨-, grown, ⟨c, busy, -⟩ | ⟨-, isLast⟩⟩
    · simp [queue] at more
    · cases written.symm.trans busy
    · exact ⟨grown, isLast⟩
  obtain ⟨grown, isLast⟩ := listed
  have bound := closing.steady.guarded.separate.bound
  obtain ⟨obj, present, -, holds⟩ := closing.backed.listed _ (List.mem_of_getLast? isLast)
  have object := holds (by omega) (by omega)
  obtain ⟨m, read, -, located⟩ := read_from_written_checkpoint closing.steady.valid.ok.consistent.sound
    envOk.uuid (by omega) object s.super
  rw [← present] at read
  have next : nextSeq (s.curSeq - 1) = s.curSeq := (next_seq_eq (by omega)).trans (by omega)
  have absent : s.store[s.curSeq]? = none := by
    cases found : s.store[s.curSeq]? with
    | none => rfl
    | some obj => exact absurd (closing.steady.early _ obj found) (lt_irrefl _)
  have newest : s.super.getLast? = some (s.curSeq - 1) := by rw [closing.backed.super, isLast]
  refine ⟨⟨m, (ckptObjects s.maps.info).foldl loadObject ∅, s.super⟩,
    deleteDangling window (s.curSeq - 1) s.store, ?_, located, load_table,
    closing.backed.super, ?_⟩
  · rw [recover_newest newest read, next, replay, absent, ← prev_seq_pred (by omega) bound]
    rfl
  · intro n
    rw [delete_dangling_eq]
    by_cases early : n ≤ s.curSeq - 1
    · exact delete_first_before _ early (by omega)
    · cases found : (deleteFirst (window * 4 - 1) (s.curSeq - 1) s.store)[n]? with
      | some obj =>
          have := closing.steady.early n obj (delete_first_present found)
          omega
      | none =>
          cases stored : s.store[n]? with
          | none => rfl
          | some obj =>
              have := closing.steady.early n obj stored
              omega

end LsvdRbd.Lifecycle
