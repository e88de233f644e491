import LsvdRbd.Recovery.Numbers
import LsvdRbd.Session.Checkpoints

/-!
# One name space for data and checkpoints

Batches, garbage collection and checkpoints take their numbers from one counter. As
long as the counter does not run out, whatever the maps, the PUTs on their way and
garbage collection refer to is data, and every checkpoint that is listed was made
from maps that refer to data before it. Addresses play no part in this.
-/

namespace LsvdRbd.Session

open Records RunList ExtentMap Format Translate Recovery Machine

set_option autoImplicit false

variable {σ : Type*} {env : Env}

namespace Tx

variable {s s' mid : Tx σ}

def DataNumber (s : Tx σ) (n : ℕ) : Prop := n < s.curSeq ∧ n ∉ s.ckptNumbers

variable {a : Action σ}

theorem Stepped.counts (stepped : Stepped env s a s') (left : NumbersLeft s a) :
    s.curSeq ≤ s'.curSeq ∧ (s.curSeq ≤ 2 ^ 31 → s'.curSeq ≤ 2 ^ 31) := by
  cases stepped with
  | write rolled nonempty room => cases rolled <;> exact ⟨le_refl _, id⟩
  | flush rolled => cases rolled <;> exact ⟨le_refl _, id⟩
  | checkpoint rolled => cases rolled <;> exact ⟨le_refl _, id⟩
  | flushThread rolled => cases rolled <;> exact ⟨le_refl _, id⟩
  | trim done => exact ⟨le_refl _, id⟩
  | complete member => exact ⟨le_refl _, id⟩
  | ckpt busy done => cases done <;> exact ⟨le_refl _, id⟩
  | collect collected =>
      obtain ⟨-, -, curSeq, -⟩ := collected.frame
      rw [curSeq]
      exact ⟨le_refl _, id⟩
  | work free worked =>
      have room : s.curSeq < 2 ^ 31 := left
      have next : nextSeq s.curSeq = s.curSeq + 1 := next_seq_eq left
      cases worked with
      | flush head quiet => exact ⟨le_refl _, id⟩
      | _ =>
          simp only [send, next]
          omega

theorem DataNumber.step {n : ℕ} (data : s.DataNumber n) (stepped : Stepped env s a s')
    (left : NumbersLeft s a) : s'.DataNumber n := by
  refine ⟨lt_of_lt_of_le data.1 (stepped.counts left).1, ?_⟩
  intro isCkpt
  rcases stepped.numbers left n isCkpt with old | ⟨rfl, -⟩
  · exact data.2 old
  · exact lt_irrefl _ data.1

/-- Data and checkpoints have numbers of their own. -/
structure Separate (s : Tx σ) : Prop where
  names : Names s.DataNumber s.maps.objmap s.maps.info
  flying : ∀ put ∈ s.inflight, s.DataNumber put.seq
  ordinary : Ordinary s
  taken : ∀ n ∈ s.ckptNumbers, n < s.curSeq
  bound : s.curSeq ≤ 2 ^ 31

theorem Separate.sent (separate : s.Separate) (left : s.curSeq < 2 ^ 31) {rest : List (Work σ)}
    {request : Option (Request σ)} {maps : Maps} {obj : Obj σ} :
    (s.send rest request maps obj).DataNumber s.curSeq := by
  refine ⟨?_, fun isCkpt => lt_irrefl _ (separate.taken _ isCkpt)⟩
  change s.curSeq < nextSeq s.curSeq
  rw [next_seq_eq left]
  omega

theorem Separate.step_names (separate : s.Separate) (stepped : Stepped env s a s')
    (left : NumbersLeft s a) : Names s'.DataNumber s'.maps.objmap s'.maps.info := by
  have before : Names s'.DataNumber s.maps.objmap s.maps.info :=
    separate.names.imp fun n data => data.step stepped left
  cases stepped with
  | write rolled nonempty room => cases rolled <;> exact before
  | flush rolled => cases rolled <;> exact before
  | checkpoint rolled => cases rolled <;> exact before
  | flushThread rolled => cases rolled <;> exact before
  | trim done => exact before.trim done
  | complete member => exact before
  | ckpt busy done => cases done <;> exact before
  | work free worked =>
      cases worked with
      | put head done => exact before.process_batch left (separate.sent left) done
      | gc head done => exact before.write_gc left (separate.sent left) done
      | ckpt head done => exact before
      | flush head quiet => exact before
  | collect collected =>
      obtain ⟨objmap, -, -, -, -, -, -, kept⟩ := collected.frame
      refine ⟨by rw [objmap]; exact before.mapped, ?_⟩
      intro o oi present
      exact before.listed o oi (kept o oi present)

theorem Separate.step_flying (separate : s.Separate) (stepped : Stepped env s a s')
    (left : NumbersLeft s a) : ∀ put ∈ s'.inflight, s'.DataNumber put.seq := by
  have before : ∀ put ∈ s.inflight, s'.DataNumber put.seq :=
    fun put member => (separate.flying put member).step stepped left
  cases stepped with
  | write rolled nonempty room => cases rolled <;> exact before
  | flush rolled => cases rolled <;> exact before
  | checkpoint rolled => cases rolled <;> exact before
  | flushThread rolled => cases rolled <;> exact before
  | trim done => exact before
  | complete member => exact fun put inside => before put (List.mem_filter.mp inside).1
  | ckpt busy done => cases done <;> exact before
  | collect collected =>
      obtain ⟨-, inflight, -⟩ := collected.frame
      rw [inflight]
      exact before
  | work free worked =>
      have sends : ∀ {rest request maps obj}, (∀ put ∈ s.inflight,
          (s.send rest request maps obj).DataNumber put.seq) →
          ∀ put ∈ (s.send rest request maps obj).inflight,
            (s.send rest request maps obj).DataNumber put.seq := by
        intro rest request maps obj old put member
        rcases List.mem_append.mp member with flying | new
        · exact old put flying
        · rw [List.mem_singleton.mp new]
          exact separate.sent left
      cases worked with
      | put head done => exact sends before
      | gc head done => exact sends before
      | ckpt head done => exact before
      | flush head quiet => exact before

theorem Separate.step (separate : s.Separate) (stepped : Stepped env s a s')
    (left : NumbersLeft s a) : s'.Separate := by
  refine ⟨separate.step_names stepped left, separate.step_flying stepped left, ?_, ?_,
    (stepped.counts left).2 separate.bound⟩
  · intro o member
    have data : s.DataNumber o := by
      rcases stepped.objects o member with old | ⟨oi, present⟩
      · exact separate.ordinary o old
      · exact separate.names.listed o oi present
    exact data.step stepped left
  · intro n isCkpt
    rcases stepped.numbers left n isCkpt with old | ⟨rfl, -, -, grows⟩
    · exact lt_of_lt_of_le (separate.taken n old) (stepped.counts left).1
    · exact grows

/-- The object is the whole checkpoint of some maps, and these refer to data before
it. -/
def Saved (uuid : ℕ) (s : Tx σ) (c : ℕ) (obj : Obj σ) : Prop :=
  c < s.curSeq ∧ ∃ maps : Maps, checkpointObject uuid c maps = some obj ∧
    Names (fun n => n < c ∧ n ∉ s.ckptNumbers) maps.objmap maps.info

theorem Saved.step {uuid c : ℕ} {obj : Obj σ} (saved : Saved uuid s c obj)
    (stepped : Stepped env s a s') (left : NumbersLeft s a) : Saved uuid s' c obj := by
  obtain ⟨taken, maps, object, names⟩ := saved
  refine ⟨lt_of_lt_of_le taken (stepped.counts left).1, maps, object, names.imp ?_⟩
  rintro n ⟨before, notCkpt⟩
  have data : s.DataNumber n := ⟨by omega, notCkpt⟩
  exact ⟨before, (data.step stepped left).2⟩

structure Guarded (uuid : ℕ) (s : Tx σ) : Prop where
  separate : s.Separate
  backed : s.Backed (Saved uuid)
  few : s.ckpts.length ≤ 3
  stored : ∀ (n : ℕ) (obj : Obj σ), s.store[n]? = some obj → n < 2 ^ 31

theorem keep_three_length (ckpts : List ℕ) : (keepThree ckpts).1.length ≤ 3 := by
  simp only [keepThree, List.length_drop]
  omega

theorem Stepped.few (stepped : Stepped env s a s') (few : s.ckpts.length ≤ 3) :
    s'.ckpts.length ≤ 3 := by
  cases stepped with
  | write rolled nonempty room => cases rolled <;> exact few
  | flush rolled => cases rolled <;> exact few
  | checkpoint rolled => cases rolled <;> exact few
  | flushThread rolled => cases rolled <;> exact few
  | trim done => exact few
  | complete member => exact few
  | work free worked => cases worked <;> exact few
  | collect collected =>
      obtain ⟨-, -, -, -, ckpts, -⟩ := collected.frame
      rw [ckpts]
      exact few
  | ckpt busy done =>
      cases done with
      | superblock stage => exact keep_three_length _
      | _ => exact few

theorem Separate.step_stored (separate : s.Separate) (stepped : Stepped env s a s')
    (stored : ∀ (n : ℕ) (obj : Obj σ), s.store[n]? = some obj → n < 2 ^ 31) :
    ∀ (n : ℕ) (obj : Obj σ), s'.store[n]? = some obj → n < 2 ^ 31 := by
  have bound := separate.bound
  have inserts : ∀ (o : ℕ) (new : Obj σ), o < s.curSeq →
      ∀ (n : ℕ) (obj : Obj σ), (s.store.insert o new)[n]? = some obj → n < 2 ^ 31 := by
    intro o new taken n obj present
    rw [table_insert] at present
    split at present
    · omega
    · exact stored n obj present
  have erases : ∀ (o n : ℕ) (obj : Obj σ), (s.store.erase o)[n]? = some obj → n < 2 ^ 31 :=
    fun _ n obj present => stored n obj (table_of_erase present)
  cases stepped with
  | write rolled nonempty room => cases rolled <;> exact stored
  | flush rolled => cases rolled <;> exact stored
  | checkpoint rolled => cases rolled <;> exact stored
  | flushThread rolled => cases rolled <;> exact stored
  | trim done => exact stored
  | complete member => exact inserts _ _ (separate.flying _ member).1
  | work free worked => cases worked <;> exact stored
  | ckpt busy done =>
      cases done with
      | object stage => exact inserts _ _ (separate.taken _ (by simp [ckptNumbers, busy]))
      | superblock stage => exact stored
      | delete stage => exact erases _
      | done stage phase moved => exact stored
  | collect collected =>
      cases collected with
      | reap phase member => exact erases _
      | delete phase => exact erases _
      | checkpoint phase rolled => cases rolled <;> exact stored
      | _ => exact stored

theorem Guarded.step (guarded : s.Guarded env.uuid) (stepped : Stepped env s a s')
    (left : NumbersLeft s a) : s'.Guarded env.uuid := by
  obtain ⟨separate, backed, few, stored⟩ := guarded
  refine ⟨separate.step stepped left, ?_, stepped.few few, separate.step_stored stepped stored⟩
  refine stepped.backed (fun put member => (separate.flying put member).2) separate.ordinary
    (fun n member => separate.taken n (List.mem_append_left _ member))
    (fun c obj saved => saved.step stepped left) ?_ backed
  rintro byGc rest obj rfl head object
  have grows : s.curSeq < s'.curSeq := by
    cases stepped with
    | work free worked =>
        cases worked with
        | ckpt other done =>
            change s.curSeq < nextSeq s.curSeq
            rw [next_seq_eq left]
            omega
        | put other done => simp [head] at other
        | gc other done => simp [head] at other
        | flush other quiet => simp [head] at other
    | collect collected => cases collected
  refine ⟨grows, s.maps, object, separate.names.imp ?_⟩
  intro n data
  exact ⟨data.1, (data.step stepped left).2⟩

end Tx

end LsvdRbd.Session
