import LsvdRbd.Session.Coherence

/-!
# Trims

UNMAP and WRITE_ZEROES of the block device take a range out of the object map
and touch nothing else. `write_gc` revalidates its request without a lock, so
here the worker may stand between its two halves while the other threads go on.
A trimmed sector reads as zeros from then on if neither the buffer map nor what
the worker has revalidated held it.
-/

namespace LsvdRbd.Session

open Records RunList ExtentMap Format Translate Recovery Machine

set_option autoImplicit false

variable {σ : Type*} {env : Env}

/-! ## The device -/

/-- The session of an image, and what its worker has kept of the request at the
head of its queue. -/
structure Device (σ : Type*) where
  tx : Tx σ
  revalidated : Option (List (ℤ × List σ))

/-- The requests that `lsvd_submit_io` carries out by a trim. -/
inductive ZeroIo
  | unmap
  | writeZeroes

def blockLen : ℕ := 4096

inductive Event (σ : Type*)
  | act (a : Action σ)
  | revalidate
  | update
  | submit (io : ZeroIo) (block count : ℕ)

/-- The byte range in the 64 bits that the device computes it in, and `trim`. -/
def Tx.submitIo (s : Tx σ) (io : ZeroIo) (block count : ℕ) : Option (Tx σ) :=
  let offset := block * blockLen % 2 ^ 64
  let len := count * blockLen % 2 ^ 64
  match io with
  | .unmap => s.trim (offset / 512) ((offset + len) % 2 ^ 64 / 512)
  | .writeZeroes => s.trim (offset / 512) ((offset + len) % 2 ^ 64 / 512)

def Tx.gcNext (s : Tx σ) : Bool :=
  match s.queue with
  | item :: _ => item.isGc
  | [] => false

namespace Device

/-- The worker takes a garbage collection request in two steps, and does nothing
else in between. -/
def blocks (s : Device σ) : Action σ → Bool
  | .work => s.revalidated.isSome || s.tx.gcNext
  | _ => false

def step (env : Env) (s : Device σ) : Event σ → Option (Device σ)
  | .act a =>
      if s.blocks a then none else (Session.step env s.tx a).map fun tx => { s with tx := tx }
  | .revalidate =>
      match s.revalidated, s.tx.ckpting, s.tx.queue with
      | none, none, .gc entries data :: _ =>
          some { s with revalidated := some (Translate.revalidate s.tx.maps.objmap entries data) }
      | _, _, _ => none
  | .update =>
      match s.revalidated, s.tx.queue with
      | some pieces, .gc _ _ :: rest =>
          (updateGc env.crc32 env.uuid s.tx.curSeq pieces s.tx.maps).map fun result =>
            ⟨s.tx.send rest none result.1 result.2, none⟩
      | _, _ => none
  | .submit io block count => (s.tx.submitIo io block count).map fun tx => { s with tx := tx }

theorem update_revalidated {tx : Tx σ} (free : tx.ckpting = none) (isNext : tx.gcNext = true) :
    run (step env) ⟨tx, none⟩ [.revalidate, .update] =
      (tx.work env).map fun next => ⟨next, none⟩ := by
  unfold Tx.gcNext at isNext
  split at isNext
  · rename_i item rest head
    cases item with
    | gc entries data =>
        have first : step env ⟨tx, none⟩ .revalidate =
            some ⟨tx, some (Translate.revalidate tx.maps.objmap entries data)⟩ := by
          simp only [step, free, head]
        have second : step env ⟨tx, some (Translate.revalidate tx.maps.objmap entries data)⟩
            .update = (tx.work env).map fun next => ⟨next, none⟩ := by
          simp only [step, Tx.work, free, head, Option.map_map]
          rfl
        rw [run_cons, first, Option.bind_some, run_cons, second]
        cases tx.work env <;> rfl
    | put r => cases isNext
    | ckpt byGc => cases isNext
    | flush tag => cases isNext
  · cases isNext

inductive Stepped (env : Env) (s : Device σ) : Event σ → Device σ → Prop
  | act {a : Action σ} {tx : Tx σ} (stepped : Tx.Stepped env s.tx a tx) :
      Stepped env s (.act a) { s with tx := tx }
  | revalidate {entries : List MapEntry} {data : List σ} {rest : List (Work σ)}
      (head : s.tx.queue = .gc entries data :: rest) :
      Stepped env s .revalidate
        { s with revalidated := some (Translate.revalidate s.tx.maps.objmap entries data) }
  | update {pieces : List (ℤ × List σ)} {entries : List MapEntry} {data : List σ}
      {rest : List (Work σ)} {maps : Maps} {obj : Obj σ} (ready : s.revalidated = some pieces)
      (head : s.tx.queue = .gc entries data :: rest)
      (done : updateGc env.crc32 env.uuid s.tx.curSeq pieces s.tx.maps = some (maps, obj)) :
      Stepped env s .update ⟨s.tx.send rest none maps obj, none⟩
  | submit {io : ZeroIo} {block count : ℕ} {tx : Tx σ}
      (done : s.tx.submitIo io block count = some tx) :
      Stepped env s (.submit io block count) { s with tx := tx }

theorem step_cases {s s' : Device σ} {e : Event σ} (stepped : step env s e = some s') :
    Stepped env s e s' := by
  cases e with
  | act a =>
      simp only [step] at stepped
      split at stepped
      · cases stepped
      · obtain ⟨tx, taken, rfl⟩ := Option.map_eq_some_iff.mp stepped
        exact .act (Tx.step_cases taken)
  | revalidate =>
      simp only [step] at stepped
      split at stepped
      · rename_i head
        cases stepped
        exact .revalidate head
      · cases stepped
  | update =>
      simp only [step] at stepped
      split at stepped
      · rename_i ready head
        obtain ⟨result, done, rfl⟩ := Option.map_eq_some_iff.mp stepped
        exact .update ready head done
      · cases stepped
  | submit io block count =>
      obtain ⟨tx, done, rfl⟩ := Option.map_eq_some_iff.mp stepped
      exact .submit done

end Device

/-! ## Sectors that nothing holds -/

namespace Tx

variable {s s' mid : Tx σ}

def Pointed (s : Tx σ) : Prop :=
  ∀ x place, latest s.pending x = some place → locate s.bufmap x = some (pointer place)

theorem Pointed.of_same (pointed : s.Pointed)
    (pending : ∀ x, latest s'.pending x = latest s.pending x) (bufmap : s'.bufmap = s.bufmap) :
    s'.Pointed := by
  intro x place newest
  rw [bufmap]
  exact pointed x place (pending x ▸ newest)

theorem AtRest.pointed (opened : s.AtRest) : s.Pointed := by
  intro x place newest
  simp [pending, opened.queue, latest, opened.current.1, entryRanges, lastIndex] at newest

theorem Rolled.pointed (rolled : Rolled env s mid) (pointed : s.Pointed) : mid.Pointed := by
  cases rolled with
  | same => exact pointed
  | queued addr clear =>
      refine pointed.of_same ?_ rfl
      intro x
      simp [pending, latest_append, latest, Work.request, entryRanges, lastIndex]

theorem pointed_append (pointed : s.Pointed) (ok : s.Ok env) {lba : ℕ} {data : List σ}
    (nonempty : 0 < data.length) (room : s.current.room env data.length = true)
    (bound : lba + data.length ≤ 2 ^ 35) :
    Pointed { s with
      current := s.current.append lba data
      bufmap := (s.bufmap.set lba (lba + data.length) ⟨s.current.tail⟩).1 } := by
  intro x place newest
  have points := pointer_write ok nonempty room bound x
  have located := locate_write ok nonempty room bound x
  change latest (s.queue.filterMap Work.request ++ [s.current.append lba data]) x = some place
    at newest
  rw [newest, Option.map_some] at points
  change locate (s.bufmap.set lba (lba + data.length) ⟨s.current.tail⟩).1 x = _
  rw [located]
  split at points
  · rw [if_pos (by assumption), points]
  · rw [if_neg (by assumption)]
    obtain ⟨old, before, same⟩ := Option.map_eq_some_iff.mp points.symm
    rw [← same]
    exact pointed x old before

variable {rest : List (Work σ)}

theorem pointed_send (pointed : s.Pointed) {item : Work σ} (head : s.queue = item :: rest)
    (maps : Maps) (obj : Obj σ) :
    (s.send rest item.request maps obj).Pointed := by
  intro x place newest
  refine pointed x place ?_
  rw [latest_head head maps obj, newest, Option.some_or]

theorem pointed_land (pointed : s.Pointed) (ok : s.Ok env) {put : Put σ}
    (member : put ∈ s.inflight) : (s.land env put).Pointed := by
  intro x place newest
  change latest s.pending x = some place at newest
  have before := pointed x place newest
  simp only [land]
  cases request : put.request with
  | none => exact before
  | some r =>
      have inBuffers := mem_buffers_of_put member request
      obtain ⟨-, located⟩ := forget_spec env ok.buffered.bounded
        (List.mem_map_of_mem inBuffers) (ok.buffered.proper r inBuffers).proper.ranges
      obtain ⟨waits, index⟩ := latest_some newest
      have other := holds_elsewhere ok inBuffers (List.mem_append_right _ waits)
        (Ne.symm (pending_blocks ok member request waits)) index
      simp only
      rw [located, before]
      simp [other]

theorem Stepped.pointed {a : Action σ} (stepped : Stepped env s a s') (ok : s.Ok env)
    (inRange : InRange s a) (pointed : s.Pointed) : s'.Pointed := by
  cases stepped with
  | write rolled nonempty room =>
      exact pointed_append (rolled.pointed pointed) (rolled.ok ok) nonempty room inRange
  | flush rolled => exact (rolled.pointed pointed).of_same (latest_enqueue _ rfl _) rfl
  | checkpoint rolled => exact (rolled.pointed pointed).of_same (latest_enqueue _ rfl _) rfl
  | flushThread rolled => exact rolled.pointed pointed
  | trim done => exact pointed
  | work free worked =>
      cases worked with
      | put head done => exact pointed_send pointed head _ _
      | gc head done => exact pointed_send pointed head _ _
      | ckpt head done =>
          intro x place newest
          exact pointed_send pointed head s.maps ⟨[], []⟩ x place newest
      | flush head quiet =>
          intro x place newest
          exact pointed_send pointed head s.maps ⟨[], []⟩ x place newest
  | ckpt busy done =>
      obtain ⟨-, -, -, queue, current, bufmap⟩ := done.frame
      refine pointed.of_same (fun x => ?_) bufmap
      rw [pending, pending, queue, current]
  | complete member => exact pointed_land pointed ok member
  | collect collected =>
      cases collected with
      | submit phase more => exact pointed.of_same (latest_enqueue _ rfl _) rfl
      | checkpoint phase rolled =>
          exact (rolled.pointed pointed).of_same (latest_enqueue _ rfl _) rfl
      | _ => exact pointed

/-- Neither map has the sector. -/
structure Blank (x : ℤ) (s : Tx σ) : Prop where
  unmapped : locate s.maps.objmap x = none
  unbuffered : locate s.bufmap x = none

variable {x : ℤ}

theorem Blank.uncovered (blank : s.Blank x) (pointed : s.Pointed) {r : Request σ}
    (head : s.queue = .put r :: rest) :
    lastIndex (entryRanges r.entries) x = none := by
  cases newest : latest s.pending x with
  | some place =>
      have := pointed x place newest
      rw [blank.unbuffered] at this
      cases this
  | none =>
      rw [latest_head head s.maps ⟨[], []⟩, Option.or_eq_none_iff] at newest
      simpa [Work.place, Work.request] using newest.2

theorem blank_send (blank : s.Blank x) {request : Option (Request σ)} {maps : Maps} {obj : Obj σ}
    {hdrSectors : ℕ} {ranges : Ranges}
    (emits : Emits env.uuid s.curSeq s.maps maps obj hdrSectors ranges)
    (uncovered : lastIndex ranges x = none) : (s.send rest request maps obj).Blank x := by
  refine ⟨?_, blank.unbuffered⟩
  have laid := emits.locate_eq x
  rw [overlay, uncovered, blank.unmapped] at laid
  exact laid

theorem Worked.blank (worked : Worked env s s') (envOk : env.Ok) (ok : s.Ok env)
    (bound : s.curSeq < 2 ^ 31) (pointed : s.Pointed) (blank : s.Blank x) : s'.Blank x := by
  cases worked with
  | put head done =>
      rename_i r rest maps obj
      have inBuffers := mem_buffers_of_queued head
      have proper := (ok.buffered.proper r inBuffers).proper
      exact blank_send blank
        (process_batch_emits ok.consistent.sound proper envOk.uuid bound done).1
        (blank.uncovered pointed head)
  | gc head done =>
      rename_i entries data rest maps obj
      obtain ⟨request, apart⟩ := ok.queued (.gc entries data) (by simp [head])
      apply blank_send blank (write_gc_emits ok.consistent.sound request envOk.uuid bound done).1
      -- revalidation keeps only what is mapped
      rw [revalidate_covers ok.consistent.sound request]
      intro e member low high p found
      rw [blank.unmapped] at found
      cases found
  | ckpt head done => exact ⟨blank.unmapped, blank.unbuffered⟩
  | flush head quiet => exact ⟨blank.unmapped, blank.unbuffered⟩

theorem blank_trim {base limit : ℕ} {maps : Maps} (ok : s.Ok env)
    (done : s.maps.trim base limit = some maps) (order : base ≤ limit) (bound : base < 2 ^ 35)
    (unbuffered : locate s.bufmap x = none)
    (gone : (base ≤ x ∧ x < limit) ∨ locate s.maps.objmap x = none) :
    Blank x { s with maps := maps } := by
  obtain ⟨trimmed, same, -, -, located, -⟩ := trim_defined ok.consistent ok.below
    (by omega : (0 : ℤ) ≤ base) (by exact_mod_cast order : (base : ℤ) ≤ limit) (by omega)
  cases done.symm.trans same
  refine ⟨?_, unbuffered⟩
  simp only
  rw [located]
  split
  · rfl
  · rename_i outside
    exact gone.resolve_left outside

theorem blank_land (blank : s.Blank x) (ok : s.Ok env) {put : Put σ} (member : put ∈ s.inflight) :
    (s.land env put).Blank x := by
  refine ⟨blank.unmapped, ?_⟩
  simp only [land]
  cases request : put.request with
  | none => exact blank.unbuffered
  | some r =>
      have inBuffers := mem_buffers_of_put member request
      obtain ⟨-, located⟩ := forget_spec env ok.buffered.bounded
        (List.mem_map_of_mem inBuffers) (ok.buffered.proper r inBuffers).proper.ranges
      simp only
      rw [located, blank.unbuffered]
      rfl

end Tx

def Action.Writes (x : ℤ) : Action σ → Prop
  | .writev lba data _ => lba ≤ x ∧ x < lba + data.length
  | _ => False

/-- Only a host write to the sector puts it into a map again. -/
theorem Tx.Stepped.blank {s s' : Tx σ} {a : Action σ} {x : ℤ} (stepped : Stepped env s a s')
    (envOk : env.Ok) (ok : s.Ok env) (inRange : InRange s a) (pointed : s.Pointed)
    (unwritten : ¬a.Writes x) (blank : s.Blank x) : s'.Blank x := by
  have rolledBlank : ∀ {mid : Tx σ}, Rolled env s mid → mid.Blank x := by
    intro mid rolled
    obtain ⟨maps, bufmap, -⟩ := rolled.frame
    exact ⟨maps ▸ blank.unmapped, bufmap ▸ blank.unbuffered⟩
  cases stepped with
  | write rolled nonempty room =>
      refine ⟨(rolledBlank rolled).unmapped, ?_⟩
      have located := locate_write (rolled.ok ok) nonempty room inRange x
      simp only [Action.Writes] at unwritten ⊢
      rw [located, if_neg unwritten]
      exact (rolledBlank rolled).unbuffered
  | flush rolled => exact ⟨(rolledBlank rolled).unmapped, (rolledBlank rolled).unbuffered⟩
  | checkpoint rolled => exact ⟨(rolledBlank rolled).unmapped, (rolledBlank rolled).unbuffered⟩
  | flushThread rolled => exact rolledBlank rolled
  | trim done => exact blank_trim ok done inRange.1 inRange.2 blank.unbuffered (.inr blank.unmapped)
  | work free worked => exact worked.blank envOk ok inRange pointed blank
  | ckpt busy done =>
      obtain ⟨maps, -, -, -, -, bufmap⟩ := done.frame
      exact ⟨maps ▸ blank.unmapped, bufmap ▸ blank.unbuffered⟩
  | complete member => exact blank_land blank ok member
  | collect collected =>
      obtain ⟨objmap, -, -, bufmap, -⟩ := collected.frame
      exact ⟨objmap ▸ blank.unmapped, bufmap ▸ blank.unbuffered⟩

theorem Tx.Blank.read {s : Tx σ} {x : ℕ} (blank : s.Blank x) (ok : s.Ok env) (zero : σ)
    {start count : ℕ} (low : start ≤ x) (high : x < start + count) :
    ∃ sectors, s.read env zero start count = some sectors ∧
      sectors[x - start]? = some (some zero) := by
  obtain ⟨pieces, plan, filled⟩ := @handle_reads_spec σ (s.peek env) s.fetch zero _ _ _
    ok.buffered.bounded (fun e member => (ok.buffered.bounded.within e member).upper)
    ok.consistent.sound start count
  refine ⟨_, by rw [Tx.read, plan, Option.map_some, filled], ?_⟩
  have address : (start : ℤ) + (x - start : ℕ) = x := by omega
  rw [List.getElem?_map, List.getElem?_range (by omega), Option.map_some, address,
    blank.unbuffered, blank.unmapped]
  rfl

/-! ## Whole runs -/

namespace Device

variable {s s' : Device σ}

def InRange (s : Device σ) : Event σ → Prop
  | .act a => Session.InRange s.tx a
  | .revalidate => True
  | .update => s.tx.curSeq < 2 ^ 31
  | .submit _ block count => 8 * block < 2 ^ 35 ∧ 8 * (block + count) ≤ 2 ^ 35

instance (s : Device σ) (e : Event σ) : Decidable (InRange s e) := by
  cases e <;> unfold InRange <;> infer_instance

structure Ok (env : Env) (s : Device σ) : Prop where
  tx : s.tx.Ok env
  pointed : s.tx.Pointed
  pieces : ∀ pieces, s.revalidated = some pieces →
    Proper (pieceRanges pieces) ∧ Apart (pieceRanges pieces)

theorem submit_io_eq (tx : Tx σ) (io : ZeroIo) {block count : ℕ}
    (bound : 8 * (block + count) ≤ 2 ^ 35) :
    tx.submitIo io block count = tx.trim (8 * block) (8 * (block + count)) := by
  have offset : block * blockLen % 2 ^ 64 = 512 * (8 * block) := by
    rw [blockLen, Nat.mod_eq_of_lt (by omega)]
    omega
  have len : count * blockLen % 2 ^ 64 = 512 * (8 * count) := by
    rw [blockLen, Nat.mod_eq_of_lt (by omega)]
    omega
  have stop : (512 * (8 * block) + 512 * (8 * count)) % 2 ^ 64 = 512 * (8 * (block + count)) := by
    rw [Nat.mod_eq_of_lt (by omega)]
    omega
  unfold Tx.submitIo
  simp only [offset, len, stop]
  rw [Nat.mul_div_cancel_left _ (by decide), Nat.mul_div_cancel_left _ (by decide)]
  cases io <;> rfl

theorem submitted_trim {io : ZeroIo} {block count : ℕ} {tx : Tx σ}
    (inRange : s.InRange (.submit io block count))
    (done : s.tx.submitIo io block count = some tx) :
    Tx.Stepped env s.tx (.trim (8 * block) (8 * (block + count))) tx ∧
      Session.InRange s.tx (.trim (8 * block) (8 * (block + count))) := by
  obtain ⟨start, stop⟩ : 8 * block < 2 ^ 35 ∧ 8 * (block + count) ≤ 2 ^ 35 := inRange
  rw [submit_io_eq s.tx io stop] at done
  obtain ⟨maps, trimmed, rfl⟩ := Tx.trim_cases done
  exact ⟨.trim trimmed, by omega, start⟩

theorem Stepped.ok {e : Event σ} (stepped : Stepped env s e s') (ok : s.Ok env)
    (inRange : s.InRange e) : s'.Ok env := by
  cases stepped with
  | act stepped =>
      exact ⟨stepped.ok ok.tx inRange, stepped.pointed ok.tx inRange ok.pointed, ok.pieces⟩
  | revalidate head =>
      rename_i entries data rest
      obtain ⟨request, apart⟩ := ok.tx.queued (.gc entries data) (by simp [head])
      refine ⟨ok.tx, ok.pointed, ?_⟩
      intro pieces same
      cases same
      exact ⟨piece_ranges_proper ok.tx.consistent.sound request,
        piece_ranges_apart ok.tx.consistent.sound request apart⟩
  | update ready head done =>
      obtain ⟨proper, apart⟩ := ok.pieces _ ready
      have next := update_gc_next ok.tx.consistent ok.tx.below proper apart inRange done
      exact ⟨Tx.ok_send ok.tx head inRange next.consistent next.below,
        Tx.pointed_send ok.pointed head _ _, by simp⟩
  | submit done =>
      obtain ⟨trimmed, trimRange⟩ := submitted_trim inRange done
      exact ⟨trimmed.ok ok.tx trimRange, trimmed.pointed ok.tx trimRange ok.pointed, ok.pieces⟩

structure Blank (x : ℤ) (s : Device σ) : Prop where
  tx : s.tx.Blank x
  dropped : ∀ pieces ∈ s.revalidated, lastIndex (pieceRanges pieces) x = none

end Device

def Event.Writes (x : ℤ) : Event σ → Prop
  | .act a => a.Writes x
  | _ => False

theorem Device.Stepped.blank {s s' : Device σ} {e : Event σ} {x : ℤ} (stepped : Stepped env s e s')
    (envOk : env.Ok) (ok : s.Ok env) (inRange : s.InRange e) (unwritten : ¬e.Writes x)
    (blank : s.Blank x) : s'.Blank x := by
  cases stepped with
  | act stepped =>
      exact ⟨stepped.blank envOk ok.tx inRange ok.pointed unwritten blank.tx, blank.dropped⟩
  | revalidate head =>
      rename_i entries data rest
      obtain ⟨request, -⟩ := ok.tx.queued (.gc entries data) (by simp [head])
      refine ⟨blank.tx, ?_⟩
      intro pieces same
      cases same
      rw [revalidate_covers ok.tx.consistent.sound request]
      intro e member low high p found
      rw [blank.tx.unmapped] at found
      cases found
  | update ready head done =>
      obtain ⟨proper, -⟩ := ok.pieces _ ready
      refine ⟨?_, by simp⟩
      exact Tx.blank_send blank.tx
        (update_gc_emits ok.tx.consistent.sound proper envOk.uuid inRange done).1
        (blank.dropped _ ready)
  | submit done =>
      obtain ⟨trimmed, trimRange⟩ := submitted_trim inRange done
      exact ⟨trimmed.blank envOk ok.tx trimRange ok.pointed id blank.tx, blank.dropped⟩

namespace Device

/-- Nothing but the object map holds a sector of the range: the buffer map has
none of them, and neither has what the worker has revalidated. -/
def OnlyMapped (s : Device σ) (base limit : ℕ) : Prop :=
  ∀ x : ℕ, x < limit → base ≤ x → locate s.tx.bufmap x = none ∧
    ∀ pieces ∈ s.revalidated, lastIndex (pieceRanges pieces) x = none

instance (s : Device σ) (base limit : ℕ) : Decidable (s.OnlyMapped base limit) :=
  inferInstanceAs (Decidable (∀ x : ℕ, x < limit → _))

theorem submit_blank {s : Device σ} (ok : s.Ok env) (io : ZeroIo) {block count : ℕ}
    (inRange : s.InRange (.submit io block count))
    (only : s.OnlyMapped (8 * block) (8 * (block + count))) :
    ∃ next, step env s (.submit io block count) = some next ∧
      ∀ x : ℕ, 8 * block ≤ x → x < 8 * (block + count) → next.Blank x := by
  obtain ⟨start, stop⟩ : 8 * block < 2 ^ 35 ∧ 8 * (block + count) ≤ 2 ^ 35 := inRange
  obtain ⟨maps, done, -⟩ := trim_defined ok.tx.consistent ok.tx.below
    (by omega : (0 : ℤ) ≤ (8 * block : ℕ))
    (by omega : ((8 * block : ℕ) : ℤ) ≤ (8 * (block + count) : ℕ)) (by omega)
  refine ⟨{ s with tx := { s.tx with maps := maps } }, ?_, ?_⟩
  · rw [step, submit_io_eq s.tx io stop, Tx.trim, done]
    rfl
  · intro x low high
    obtain ⟨unbuffered, dropped⟩ := only x high low
    exact ⟨Tx.blank_trim ok.tx done (by omega) start unbuffered (.inl (by omega)), dropped⟩

end Device

/-- An UNMAP or WRITE_ZEROES of a range takes effect if, when it is submitted,
the range is neither in the buffer map nor in what the worker has revalidated:
the request is carried out, and after every further run a read returns zeros for
each sector of the range that the run has not written. -/
theorem trimmed_sectors_read_zero (zero : σ) {s t : Device σ} {front : List (Event σ)}
    (envOk : env.Ok) (opened : s.tx.AtRest) (idle : s.revalidated = none)
    (along : Along (Device.step env) Device.InRange s front)
    (ran : run (Device.step env) s front = some t) (io : ZeroIo) (block count : ℕ)
    (inRange : t.InRange (.submit io block count))
    (only : t.OnlyMapped (8 * block) (8 * (block + count))) :
    ∃ next, Device.step env t (.submit io block count) = some next ∧
      ∀ back u, Along (Device.step env) Device.InRange next back →
        run (Device.step env) next back = some u →
        ∀ x : ℕ, 8 * block ≤ x → x < 8 * (block + count) → (∀ e ∈ back, ¬e.Writes x) →
        ∀ start n : ℕ, start ≤ x → x < start + n → ∃ sectors,
          u.tx.read env zero start n = some sectors ∧ sectors[x - start]? = some (some zero) := by
  have started : s.Ok env := ⟨opened.ok envOk, opened.pointed, by simp [idle]⟩
  have reached : t.Ok env := invariant_along
    (fun _ _ _ ok inRange stepped => (Device.step_cases stepped).ok ok inRange) started along ran
  obtain ⟨next, submitted, blank⟩ := Device.submit_blank reached io inRange only
  refine ⟨next, submitted, ?_⟩
  intro back u alongBack ranBack x low high unwritten start n covers stops
  have nextOk : next.Ok env := (Device.step_cases submitted).ok reached inRange
  have keeps : ∀ (s : Device σ) (e : Event σ) (after : Device σ), s.Ok env ∧ s.Blank x →
      s.InRange e ∧ ¬e.Writes x → Device.step env s e = some after →
      after.Ok env ∧ after.Blank x := by
    rintro s e after ⟨ok, blank⟩ ⟨inRange, untouched⟩ stepped
    have cases := Device.step_cases stepped
    exact ⟨cases.ok ok inRange, cases.blank envOk ok inRange untouched blank⟩
  obtain ⟨ok, blankThere⟩ := invariant_along keeps ⟨nextOk, blank x low high⟩
    (alongBack.and_forall unwritten) ranBack
  obtain ⟨-, stop⟩ : 8 * block < 2 ^ 35 ∧ 8 * (block + count) ≤ 2 ^ 35 := inRange
  exact blankThere.tx.read ok.tx zero covers stops

def settledBlock : List (Event ℕ) :=
  [.act (.writev 8 [1, 2, 3, 4, 5, 6, 7, 8] 0), .act (.flushThread 5000000), .act .work,
    .act (.complete 1)]

def laterCycle : List (Event ℕ) :=
  [.act (.writev 24 [1, 2] 0), .act (.flushThread 9000000), .act .work, .act (.complete 2),
    .act (.writev 24 [3] 0), .act (.flushThread 13000000), .act .work, .act (.complete 3),
    .act .gcStart, .act .gcDead, .act (.gcReap 1), .act .gcErase, .act .gcBound,
    .act (.gcSelect [2]), .act .gcSnapshot, .act (.gcLoad fun _ _ => 0), .act .gcSubmit,
    .revalidate, .update, .act (.complete 4), .act .gcDone]

theorem trimmed_block_reads_zero : ∃ t next u,
    run (Device.step smallEnv) ⟨Tx.create 1000000, none⟩ settledBlock = some t ∧
      t.OnlyMapped 8 16 ∧ Device.step smallEnv t (.submit .writeZeroes 1 1) = some next ∧
      run (Device.step smallEnv) next laterCycle = some u ∧
      ∃ sectors, u.tx.read smallEnv 0 8 8 = some sectors ∧ sectors[3]? = some (some 0) := by
  obtain ⟨t, ran, held⟩ := (Option.any_eq_true _ _).mp
    (by decide +kernel : (run (Device.step smallEnv) ⟨Tx.create 1000000, none⟩ settledBlock).any
      (fun t => decide (t.OnlyMapped 8 16) &&
        (Device.step smallEnv t (.submit .writeZeroes 1 1)).all fun next =>
          decide (Along (Device.step smallEnv) Device.InRange next laterCycle) &&
            (run (Device.step smallEnv) next laterCycle).isSome) = true)
  rw [Bool.and_eq_true, decide_eq_true_iff] at held
  obtain ⟨only, continues⟩ := held
  obtain ⟨next, submitted, reads⟩ := trimmed_sectors_read_zero 0 small_env_ok
    (Tx.create_at_rest 1000000) rfl (by decide +kernel) ran .writeZeroes 1 1 ⟨by decide, by decide⟩
    only
  rw [submitted, Option.all_some, Bool.and_eq_true, decide_eq_true_iff] at continues
  obtain ⟨u, further⟩ := Option.isSome_iff_exists.mp continues.2
  exact ⟨t, next, u, ran, only, submitted, further, reads laterCycle u continues.1 further 11
    (by decide) (by decide) (by simp [laterCycle, Event.Writes, Action.Writes]) 8 8 (by decide)
    (by decide)⟩

def revalidatedHalf : List (Event ℕ) :=
  settledBlock ++ [.act (.writev 8 [11, 12, 13, 14] 0), .act (.flushThread 9000000), .act .work,
    .act (.complete 2), .act .gcStart, .act .gcDead, .act .gcErase, .act .gcBound,
    .act (.gcSelect [1]), .act .gcSnapshot, .act (.gcLoad fun _ _ => 0), .act .gcSubmit, .revalidate]

/-- A block that is still buffered reads back after it was zeroed, and so does one
that the worker had revalidated. -/
theorem zeroed_block_reads_back :
    (run (Device.step smallEnv) ⟨Tx.create 1000000, none⟩
      [.act (.writev 8 [1, 2, 3, 4, 5, 6, 7, 8] 0), .submit .writeZeroes 1 1]).bind
        (fun t => t.tx.read smallEnv 0 8 1) = some [some 1] ∧
      (run (Device.step smallEnv) ⟨Tx.create 1000000, none⟩
        (revalidatedHalf ++ [.submit .unmap 1 1, .update, .act (.complete 3)])).bind
          (fun t => t.tx.read smallEnv 0 12 1) = some [some 5] := by
  decide +kernel

end LsvdRbd.Session
