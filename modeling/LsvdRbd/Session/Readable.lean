import LsvdRbd.Session.Cleaning

/-!
# Mapped data is readable

While a batch is filled, queued or on its way, the buffer map points to its block.
A request of garbage collection has no block that reads know: once `write_gc` has
changed the map, and until the PUT is done, the data that it moves is neither in
the backend nor in the buffer map, unless a newer batch has the address.
-/

namespace LsvdRbd.Session

open Records RunList ExtentMap Format Translate Recovery Machine

set_option autoImplicit false

variable {σ : Type*} {env : Env}

/-- Every address that `write_gc` is about to move is in the buffer map. -/
def MovesBuffered (s : Tx σ) : Action σ → Prop
  | .work => match s.queue with
      | .gc entries data :: _ => ∀ piece ∈ revalidate s.maps.objmap entries data,
          ∀ i ∈ List.range piece.2.length, (locate s.bufmap (piece.1 + (i : ℕ))).isSome
      | _ => True
  | _ => True

instance (s : Tx σ) (a : Action σ) : Decidable (MovesBuffered s a) := by
  unfold MovesBuffered
  induction a using Action.casesOn with
  | work =>
      induction s.queue using List.casesOn with
      | nil => infer_instance
      | cons item rest => induction item using Work.casesOn <;> infer_instance
  | _ => infer_instance

def Action.keepsMap : Action σ → Bool
  | .trim _ _ => false
  | _ => true

namespace Tx

variable {s s' mid : Tx σ}

/-! ## Moved data -/

section Move

variable {entries : List MapEntry} {data : List σ} {rest : List (Work σ)} {maps : Maps}
  {obj : Obj σ}

/-- What `write_gc` moves was in the backend. -/
theorem moved_landed (ok : s.Ok env) (head : s.queue = .gc entries data :: rest)
    (carried : s.Carried) {x i : ℤ}
    (written : lastIndex (pieceRanges (revalidate s.maps.objmap entries data)) x = some i) :
    s.flying x = none := by
  obtain ⟨request, -⟩ := ok.queued (.gc entries data) (by simp [head])
  obtain ⟨before, e, after, p, split, low, high, found, sameObj, -⟩ :=
    revalidate_sector ok.consistent.sound request written
  obtain ⟨-, landed, -⟩ :=
    (carried.requests entries data (by simp [head])).2 before e after split x low high
  have bounds := ok.consistent.sound.bounds found
  have absent : s.sent p.obj.toNat = none := by
    rw [sent, List.find?_eq_none]
    intro put member
    have := landed put member
    simp only [decide_eq_true_eq]
    omega
  simp [flying, found, absent]

theorem flying_move (ok : s.Ok env) (envOk : env.Ok) (bound : s.curSeq < 2 ^ 31)
    (head : s.queue = .gc entries data :: rest) (carried : s.Carried)
    (done : writeGc env.crc32 env.uuid s.curSeq entries data s.maps = some (maps, obj)) (x : ℤ) :
    (s.send rest none maps obj).flying x = s.flying x := by
  obtain ⟨request, -⟩ := ok.queued (.gc entries data) (by simp [head])
  obtain ⟨emits, -⟩ := write_gc_emits ok.consistent.sound request envOk.uuid bound done
  have laid := emits.locate_eq x
  rw [overlay] at laid
  cases written : lastIndex (pieceRanges (revalidate s.maps.objmap entries data)) x with
  | some i =>
      rw [written] at laid
      simp only at laid
      rw [moved_landed ok head carried written, flying]
      change (locate maps.objmap x).bind _ = none
      simp [laid, sent_send ok]
  | none =>
      rw [written] at laid
      simp only at laid
      unfold flying
      change (locate maps.objmap x).bind _ = _
      rw [laid]
      cases found : locate s.maps.objmap x with
      | none => rfl
      | some p =>
          have older := ok.below.mapped x p found
          have bounds := ok.consistent.sound.bounds found
          simp only [Option.bind_some, sent_send ok]
          rw [if_neg (by omega)]

theorem coherent_move {zero : σ} {v : ℤ → σ} (coherent : Coherent zero v s) (ok : s.Ok env)
    (envOk : env.Ok) (bound : s.curSeq < 2 ^ 31) (head : s.queue = .gc entries data :: rest)
    (carried : s.Carried)
    (done : writeGc env.crc32 env.uuid s.curSeq entries data s.maps = some (maps, obj)) :
    Coherent zero v (s.send rest none maps obj) := by
  obtain ⟨request, -⟩ := ok.queued (.gc entries data) (by simp [head])
  obtain ⟨emits, -⟩ := write_gc_emits ok.consistent.sound request envOk.uuid bound done
  obtain ⟨pointers, flights, shown⟩ := coherent
  have waiting : ∀ x, latest (s.send rest none maps obj).pending x = latest s.pending x := by
    intro x
    have split := latest_head head maps obj x
    simp only [Work.request, Work.place, Option.bind_none, Option.or_none] at split
    exact split.symm
  refine ⟨?_, ?_, ?_⟩
  · intro x
    rw [waiting, flying_move ok envOk bound head carried done]
    exact pointers x
  · intro put member
    rcases List.mem_append.mp member with old | new
    · exact faithful_send emits (ok.flying put old) (flights put old)
    · obtain rfl := List.mem_singleton.mp new
      trivial
  · intro x
    have here := shown x
    unfold Shows at here ⊢
    rw [waiting]
    cases newest : latest s.pending x with
    | some place =>
        rw [newest] at here
        exact here
    | none =>
        rw [newest] at here
        exact ((designates_send ok envOk bound head carried done x).2 _).mp here

end Move

/-! ## Moved data that a newer batch has -/

variable {x : ℤ}

theorem Unmoved.of_less (unmoved : s.Unmoved x)
    (mapped : ∀ p, locate s'.maps.objmap x = some p → locate s.maps.objmap x = some p)
    (sent : ∀ o put, s'.sent o = some put → s.sent o = some put)
    (waiting : (latest s.pending x).isSome → (latest s'.pending x).isSome) : s'.Unmoved x :=
  fun p put found flying isGc => waiting (unmoved p put (mapped p found) (sent _ put flying) isGc)

theorem Rolled.unmoved (rolled : Rolled env s mid) (unmoved : s.Unmoved x) :
    mid.Unmoved x := by
  obtain ⟨maps, -, inflight, -⟩ := rolled.frame
  refine unmoved.of_less (fun p => by rw [maps]; exact id) ?_ (by rw [rolled.latest_eq]; exact id)
  intro o put
  rw [sent, inflight]
  exact id

theorem Worked.unmoved (worked : Worked env s s') (ok : s.Ok env) (envOk : env.Ok)
    (bound : s.curSeq < 2 ^ 31) (carried : s.Carried)
    (pointers : locate s.bufmap x = ((latest s.pending x).or (s.flying x)).map pointer)
    (buffered : MovesBuffered s .work) (unmoved : s.Unmoved x) : s'.Unmoved x := by
  cases worked with
  | put head done =>
      rename_i r rest maps obj
      have inBuffers := mem_buffers_of_queued head
      obtain ⟨emits, -⟩ := process_batch_emits ok.consistent.sound
        (ok.buffered.proper r inBuffers).proper envOk.uuid bound done
      intro p put found sent isGc
      rw [sent_send ok] at sent
      by_cases isNew : p.obj.toNat = s.curSeq
      · rw [if_pos isNew] at sent
        cases sent
        cases isGc
      -- the batch does not have the address, so it was not the newest
      · rw [if_neg isNew] at sent
        change locate maps.objmap x = some p at found
        rw [emits.locate_eq, overlay] at found
        split at found
        · cases found
          exact absurd (by simp) isNew
        · rename_i uncovered
          have waiting := unmoved p put found sent isGc
          have split := latest_head head maps obj x
          simp only [Work.place, Work.request, Option.bind_some, uncovered, Option.map_none,
            Option.or_none] at split
          rw [split] at waiting
          exact waiting
  | gc head done =>
      rename_i entries data rest maps obj
      obtain ⟨request, -⟩ := ok.queued (.gc entries data) (by simp [head])
      obtain ⟨emits, -⟩ := write_gc_emits ok.consistent.sound request envOk.uuid bound done
      have split := latest_head head maps obj x
      simp only [Work.place, Work.request, Option.bind_none, Option.or_none] at split
      intro p put found sent isGc
      rw [← split]
      change locate maps.objmap x = some p at found
      rw [emits.locate_eq, overlay] at found
      cases written : lastIndex (pieceRanges (revalidate s.maps.objmap entries data)) x with
      | some i =>
          -- the address has moved, so the buffer map has a newer batch for it
          obtain ⟨piece, inPieces, low, high, -⟩ := last_index_piece written
          simp only [MovesBuffered, head] at buffered
          have there := buffered piece inPieces (x - piece.1).toNat
            (List.mem_range.mpr (by omega))
          rw [show piece.1 + ((x - piece.1).toNat : ℕ) = x by omega, pointers,
            moved_landed ok head carried written, Option.or_none] at there
          simpa using there
      | none =>
          rw [written] at found
          have older := ok.below.mapped x p found
          have bounds := ok.consistent.sound.bounds found
          rw [sent_send ok, if_neg (by omega)] at sent
          exact unmoved p put found sent isGc
  | ckpt head done =>
      refine unmoved.of_less (fun _ => id) (fun _ _ => id) ?_
      simp [pending, head, Work.request, List.filterMap_cons]
  | flush head quiet =>
      refine unmoved.of_less (fun _ => id) (fun _ _ => id) ?_
      simp [pending, head, Work.request, List.filterMap_cons]

theorem Stepped.unmoved {a : Action σ} (stepped : Stepped env s a s') (ok : s.Ok env)
    (envOk : env.Ok) (inRange : InRange s a) (noTrim : ∀ base limit, a ≠ .trim base limit)
    (carried : s.Carried)
    (pointers : locate s.bufmap x = ((latest s.pending x).or (s.flying x)).map pointer)
    (buffered : MovesBuffered s a) (unmoved : s.Unmoved x) : s'.Unmoved x := by
  cases stepped with
  | write rolled nonempty room =>
      refine (rolled.unmoved unmoved).of_less (fun _ => id) (fun _ _ => id) ?_
      intro waiting
      have newest := congrArg Option.isSome (pointer_write (rolled.ok ok) nonempty room inRange x)
      rw [Option.isSome_map] at newest
      change Option.isSome (latest (_ ++ [_]) x) = true
      rw [newest]
      split
      · rfl
      · rw [Option.isSome_map]
        exact waiting
  | flush rolled =>
      exact (rolled.unmoved unmoved).of_less (fun _ => id) (fun _ _ => id)
        (by rw [latest_enqueue _ rfl]; exact id)
  | checkpoint rolled =>
      exact (rolled.unmoved unmoved).of_less (fun _ => id) (fun _ _ => id)
        (by rw [latest_enqueue _ rfl]; exact id)
  | flushThread rolled => exact rolled.unmoved unmoved
  | trim done => exact absurd rfl (noTrim _ _)
  | work free worked => exact worked.unmoved ok envOk inRange carried pointers buffered unmoved
  | ckpt busy done =>
      obtain ⟨maps, inflight, -, queue, current, -⟩ := done.frame
      refine unmoved.of_less (fun p => by rw [maps]; exact id) ?_
        (by rw [pending, pending, queue, current]; exact id)
      intro o put
      rw [sent, inflight]
      exact id
  | complete member =>
      refine unmoved.of_less (fun _ => id) ?_ id
      intro o put found
      rw [sent_complete ok member] at found
      split at found
      · cases found
      · exact found
  | collect collected =>
      obtain ⟨objmap, inflight, -⟩ := collected.frame
      refine unmoved.of_less (fun p => by rw [objmap]; exact id) ?_ ?_
      · intro o put
        rw [sent, inflight]
        exact id
      · rw [collected.latest_eq]
        exact id

/-! ## What readable means -/

/-- The PUT of the object is done, or the buffer map points to the content. -/
def Readable (env : Env) (s : Tx σ) (x : ℤ) (p : ObjOffset) (value : σ) : Prop :=
  s.sent p.obj.toNat = none ∨ ∃ ptr, locate s.bufmap x = some ptr ∧ s.peek env ptr = some value

section Readable

variable {zero : σ} {v : ℤ → σ}

/-- The buffer map has moved data only as far as a newer batch has it. -/
theorem Coherent.moved_waiting (coherent : Coherent zero v s) {p : ObjOffset}
    (found : locate s.maps.objmap x = some p) {put : Put σ} (sent : s.sent p.obj.toNat = some put)
    (isGc : put.request = none) : (locate s.bufmap x).isSome = (latest s.pending x).isSome := by
  rw [coherent.pointers]
  simp [flying, found, sent, isGc]

theorem Coherent.readable_iff (coherent : Coherent zero v s) (ok : s.Ok env) {p : ObjOffset}
    (found : locate s.maps.objmap x = some p) :
    s.Readable env x p (v x) ↔ s.Unmoved x := by
  constructor
  · intro readable q put located sent isGc
    cases found.symm.trans located
    rcases readable with landed | ⟨ptr, pointed, -⟩
    · rw [landed] at sent
      cases sent
    · rw [← coherent.moved_waiting found sent isGc, pointed]
      rfl
  · intro unmoved
    cases sent : s.sent p.obj.toNat with
    | none => exact .inl sent
    | some put =>
        have pointed : (locate s.bufmap x).isSome := by
          cases isBatch : put.request with
          | none =>
              rw [coherent.moved_waiting found sent isBatch]
              exact unmoved p put found sent isBatch
          | some r =>
              obtain ⟨member, seq⟩ := (sent_eq_some_iff ok).mp sent
              have faithful := coherent.flights put member
              unfold Faithful at faithful
              rw [isBatch] at faithful
              have bounds := ok.consistent.sound.bounds found
              obtain ⟨i, index, -⟩ := faithful.2 x p found (by omega)
              rw [coherent.pointers]
              simp [flying, found, sent, isBatch, index]
        obtain ⟨ptr, pointed⟩ := Option.isSome_iff_exists.mp pointed
        have content := coherent.sector ok unmoved
        rw [pointed] at content
        exact .inr ⟨ptr, pointed, content⟩

end Readable

end Tx

/-- The condition under which the content is that of the last writes: no trims, and
what makes the moves and the deletes of a cycle safe. -/
def KeepsContent (s : Tx σ) (a : Action σ) : Prop :=
  LoadsInRange s a ∧ SelectsOld s a ∧ a.keepsMap = true

instance (s : Tx σ) (a : Action σ) : Decidable (KeepsContent s a) :=
  inferInstanceAs (Decidable (_ ∧ _ ∧ _))

structure Tx.Held (env : Env) (zero : σ) (v : ℤ → σ) (s : Tx σ) : Prop where
  keeping : s.Keeping env
  covers : s.Covers
  coherent : Coherent zero v s

theorem Tx.Held.step {zero : σ} {v : ℤ → σ} {s s' : Tx σ} {a : Action σ}
    (held : s.Held env zero v) (envOk : env.Ok) (allowed : KeepsContent s a)
    (stepped : step env s a = some s') : s'.Held env zero (record v a) := by
  obtain ⟨loads, old, noTrim⟩ := allowed
  obtain ⟨keeping, covers, coherent⟩ := held
  have ok := keeping.valid.ok
  have cases := step_cases stepped
  refine ⟨keeping.step envOk loads stepped, cases.covers ok envOk loads.1 old covers,
    cases.coherent envOk ok keeping.valid.reserved loads.1 ?_ ?_ ?_ coherent⟩
  · rintro base limit rfl
    cases noTrim
  · rintro rfl entries data rest head
    cases cases with
    | work free worked =>
        cases worked with
        | gc isHead done =>
            exact coherent_move coherent ok envOk loads.1 isHead keeping.carried done
        | put isHead done => simp [head] at isHead
        | ckpt isHead done => simp [head] at isHead
        | flush isHead quiet => simp [head] at isHead
    | collect collected => cases collected
  · intro o deleted x p found
    exact (covers.doomed o (cases.deletes_doomed covers o deleted)).unmapped found

/-- In every run without trims whose cycles read back and select as they should:
data that is mapped is readable unless garbage collection has moved it, the PUT is
not done and no newer batch has the address; and a read of readable addresses
returns the last writes. If besides `write_gc` only ever moves addresses that the
buffer map has, then all mapped data is readable. -/
theorem mapped_data_readable {zero : σ} {v : ℤ → σ} {s t : Tx σ} {acts : List (Action σ)}
    (envOk : env.Ok) (opened : s.Opened zero v) (measured : s.maps.Measured)
    (along : Along (step env) KeepsContent s acts) (ran : run (step env) s acts = some t) :
    (∀ x p, locate t.maps.objmap x = some p →
      (t.Readable env x p (acts.foldl record v x) ↔
        ∀ put, t.sent p.obj.toNat = some put → put.request = none →
          (locate t.bufmap x).isSome)) ∧
      (∀ start count : ℕ,
        (∀ x p, (start : ℤ) ≤ x → x < start + count → locate t.maps.objmap x = some p →
          t.Readable env x p (acts.foldl record v x)) →
        t.read env zero start count = some ((List.range count).map fun (i : ℕ) =>
          some (acts.foldl record v ((start : ℤ) + i)))) ∧
      (Along (step env) MovesBuffered s acts → ∀ x p, locate t.maps.objmap x = some p →
        t.Readable env x p (acts.foldl record v x)) := by
  have start : s.Held env zero v :=
    ⟨opened.keeping envOk measured, opened.covers, opened.coherent⟩
  have keeps : ∀ (v : ℤ → σ) (s : Tx σ) (a : Action σ) (next : Tx σ), s.Held env zero v →
      KeepsContent s a → step env s a = some next → next.Held env zero (record v a) :=
    fun _ _ _ _ held allowed stepped => held.step envOk allowed stepped
  obtain ⟨keeping, covers, coherent⟩ := tracked_along keeps start along ran
  have ok := keeping.valid.ok
  refine ⟨?_, ?_, ?_⟩
  · intro x p found
    rw [coherent.readable_iff ok found]
    constructor
    · intro unmoved put sent isGc
      rw [coherent.moved_waiting found sent isGc]
      exact unmoved p put found sent isGc
    · intro pointed q put located sent isGc
      cases found.symm.trans located
      rw [← coherent.moved_waiting found sent isGc]
      exact pointed put sent isGc
  · intro first count readable
    refine coherent.read ok count ?_
    intro x low high p put found sent isGc
    exact (coherent.readable_iff ok found).mp (readable x p low high found) p put found sent isGc
  · intro buffered x p found
    have keepsUnmoved : ∀ (v : ℤ → σ) (s : Tx σ) (a : Action σ) (next : Tx σ),
        s.Held env zero v ∧ (∀ x, s.Unmoved x) → KeepsContent s a ∧ MovesBuffered s a →
        step env s a = some next →
        next.Held env zero (record v a) ∧ ∀ x, next.Unmoved x := by
      rintro v s a next ⟨held, unmoved⟩ ⟨allowed, buffered⟩ stepped
      refine ⟨keeps v s a next held allowed stepped, ?_⟩
      intro x
      refine (Tx.step_cases stepped).unmoved held.keeping.valid.ok envOk allowed.1.1 ?_
        held.keeping.carried (held.coherent.pointers x) buffered (unmoved x)
      rintro base limit rfl
      cases allowed.2.2
    have unmoved : ∀ x, s.Unmoved x := by
      intro x p put found sent
      simp [Tx.sent, opened.inflight] at sent
    obtain ⟨-, unmoved⟩ := tracked_along keepsUnmoved ⟨start, unmoved⟩
      (along.and buffered) ran
    exact (coherent.readable_iff ok found).mpr (unmoved x)

def overtakenRun : List (Action ℕ) := cleaningRun.take 16 ++ [.writev 8 [5] 0, .work]

theorem mapped_data_readable_overtaken : ∃ t p,
    run (step smallEnv) (Tx.create 1000000) overtakenRun = some t ∧
      locate t.maps.objmap 8 = some p ∧ (t.sent p.obj.toNat).isSome ∧
      t.Readable smallEnv 8 p 5 := by
  obtain ⟨t, ran, held⟩ := (Option.any_eq_true _ _).mp
    (by decide +kernel : (run (step smallEnv) (Tx.create 1000000) overtakenRun).any (fun t =>
      decide (locate t.maps.objmap 8 = some ⟨3, 8⟩ ∧ (t.sent 3).isSome)) = true)
  obtain ⟨found, sent⟩ := of_decide_eq_true held
  exact ⟨t, _, ran, found, sent, (mapped_data_readable small_env_ok (Tx.create_opened 0 1000000)
    Maps.empty_measured (by decide +kernel) ran).2.2 (by decide +kernel) 8 _ found⟩

/-- The map says that object 3 has address 8, whose PUT is not done; the buffer map
does not have it, and a read finds nothing. -/
theorem moved_data_unreadable :
    (run (step smallEnv) (Tx.create 1000000) (cleaningRun.take 17)).map (fun t =>
        (locate t.maps.objmap 8, (t.sent 3).isSome && (locate t.bufmap 8).isNone,
          t.read smallEnv 0 8 1)) = some (some ⟨3, 8⟩, true, some [none]) := by
  decide +kernel

end LsvdRbd.Session
