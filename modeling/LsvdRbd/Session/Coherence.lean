import LsvdRbd.Session.Reads

/-!
# Reads see the latest writes

A volume is a function from addresses to sectors. Every session that neither
trims nor lets garbage collection move data shows its volume: the newest copy of
a sector is in a batch that the buffer map points to, or in an object that has
been sent and that the buffer map still shadows, or in the backend.
-/

namespace LsvdRbd.Session

open Records RunList ExtentMap Format Translate Recovery Machine

set_option autoImplicit false

variable {σ : Type*} {env : Env}

/-! ## Volumes -/

def writeVolume (v : ℤ → σ) (lba : ℕ) (data : List σ) (x : ℤ) : σ :=
  if lba ≤ x then (data[(x - lba).toNat]?).getD (v x) else v x

/-- Only host writes change the volume. -/
def record (v : ℤ → σ) : Action σ → ℤ → σ
  | .writev lba data _ => writeVolume v lba data
  | _ => v

variable {data : List σ} {lba : ℕ} {x : ℤ}

theorem write_volume_inside (v : ℤ → σ) (low : lba ≤ x) (high : x < lba + data.length) :
    data[(x - lba).toNat]? = some (writeVolume v lba data x) := by
  rw [writeVolume, if_pos low, List.getElem?_eq_getElem (by omega), Option.getD_some]

theorem write_volume_outside (v : ℤ → σ) (outside : ¬(lba ≤ x ∧ x < lba + data.length)) :
    writeVolume v lba data x = v x := by
  unfold writeVolume
  split
  · rename_i low
    rw [List.getElem?_eq_none (by omega), Option.getD_none]
  · rfl

/-! ## Where the newest copy is -/

/-- The newest batch that covers an address, and the sector it has for it. -/
def latest : List (Request σ) → ℤ → Option (Request σ × ℤ)
  | [], _ => none
  | r :: rest, x =>
      (latest rest x).or ((lastIndex (entryRanges r.entries) x).map fun i => (r, i))

theorem latest_append (older newer : List (Request σ)) (x : ℤ) :
    latest (older ++ newer) x = (latest newer x).or (latest older x) := by
  induction older with
  | nil => simp [latest]
  | cons r rest ih => rw [List.cons_append, latest, ih, latest, Option.or_assoc]

theorem latest_some {requests : List (Request σ)} {r : Request σ} {i : ℤ}
    (found : latest requests x = some (r, i)) :
    r ∈ requests ∧ lastIndex (entryRanges r.entries) x = some i := by
  induction requests with
  | nil => cases found
  | cons first rest ih =>
      rw [latest, Option.or_eq_some_iff] at found
      rcases found with later | ⟨-, here⟩
      · obtain ⟨member, index⟩ := ih later
        exact ⟨List.mem_cons_of_mem _ member, index⟩
      · obtain ⟨j, index, same⟩ := Option.map_eq_some_iff.mp here
        cases same
        exact ⟨by simp, index⟩

def pointer (place : Request σ × ℤ) : SectorPtr := ⟨place.1.base + 512 * place.2⟩

def Work.place (item : Work σ) (x : ℤ) : Option (Request σ × ℤ) :=
  item.request.bind fun r => (lastIndex (entryRanges r.entries) x).map fun i => (r, i)

namespace Tx

variable {s s' mid : Tx σ}

def flying (s : Tx σ) (x : ℤ) : Option (Request σ × ℤ) :=
  (locate s.maps.objmap x).bind fun p => (s.sent p.obj.toNat).bind fun put =>
    put.request.bind fun r => (lastIndex (entryRanges r.entries) x).map fun i => (r, i)

/-- The map points into a batch on its way where the object has the sector. -/
def Faithful (m : Objmap) (put : Put σ) : Prop :=
  match put.request with
  | some r => put.obj.data = r.data ∧ ∀ x p, locate m x = some p → p.obj = put.seq →
      ∃ i, lastIndex (entryRanges r.entries) x = some i ∧
        p.offset = (put.obj.hdr.length / 512 : ℕ) + i
  | none => True

/-- The object map designates this content for a sector. -/
def Designates (zero : σ) (s : Tx σ) (x : ℤ) (value : σ) : Prop :=
  match locate s.maps.objmap x with
  | some p => ∃ obj, s.object p.obj.toNat = some obj ∧ dataSector obj p.offset = some value
  | none => value = zero

/-- The newest copy of a sector has this content. -/
def Shows (zero : σ) (s : Tx σ) (x : ℤ) (value : σ) : Prop :=
  match latest s.pending x with
  | some place => place.1.data[place.2.toNat]? = some value
  | none => s.Designates zero x value

def ShowsAfter (zero : σ) (s : Tx σ) (requests : List (Request σ)) (x : ℤ) (value : σ) : Prop :=
  match latest requests x with
  | some place => place.1.data[place.2.toNat]? = some value
  | none => s.Designates zero x value

structure Coherent (zero : σ) (v : ℤ → σ) (s : Tx σ) : Prop where
  pointers : ∀ x, locate s.bufmap x = ((latest s.pending x).or (s.flying x)).map pointer
  flights : ∀ put ∈ s.inflight, Faithful s.maps.objmap put
  shown : ∀ x, s.Shows zero x (v x)

/-! ## Objects -/

variable {put : Put σ}

theorem sent_eq_some_iff (ok : s.Ok env) {o : ℕ} :
    s.sent o = some put ↔ put ∈ s.inflight ∧ put.seq = o := by
  constructor
  · intro found
    exact ⟨List.mem_of_find?_eq_some found, by simpa using List.find?_some found⟩
  · rintro ⟨member, rfl⟩
    cases search : s.sent put.seq with
    | none =>
        have := List.find?_eq_none.mp search put member
        simp at this
    | some other =>
        rw [put_unique ok (List.mem_of_find?_eq_some search) member
          (by simpa using List.find?_some search)]

theorem sent_send (ok : s.Ok env) (rest : List (Work σ)) (request : Option (Request σ))
    (maps : Maps) (obj : Obj σ) (o : ℕ) :
    (s.send rest request maps obj).sent o =
      if o = s.curSeq then some ⟨s.curSeq, obj, request⟩ else s.sent o := by
  unfold sent
  simp only [send, List.find?_append]
  by_cases new : o = s.curSeq
  · subst new
    have nothing : s.inflight.find? (fun put => decide (put.seq = s.curSeq)) = none := by
      rw [List.find?_eq_none]
      intro put member
      have := ok.flying put member
      simp only [decide_eq_true_eq]
      omega
    rw [nothing]
    simp
  · have other : ¬s.curSeq = o := fun same => new same.symm
    simp [new, other]

theorem sent_complete (ok : s.Ok env) (member : put ∈ s.inflight) (o : ℕ) :
    (s.land env put).sent o = if o = put.seq then none else s.sent o := by
  apply Option.ext
  intro other
  rw [sent_eq_some_iff (ok_complete ok member)]
  simp only [land, List.mem_filter, decide_eq_true_eq]
  split
  · rename_i here
    simp only [reduceCtorEq, iff_false]
    rintro ⟨⟨-, different⟩, same⟩
    exact different (same.trans here)
  · rename_i elsewhere
    rw [sent_eq_some_iff ok]
    constructor
    · rintro ⟨⟨inflight, -⟩, same⟩
      exact ⟨inflight, same⟩
    · rintro ⟨inflight, rfl⟩
      exact ⟨⟨inflight, elsewhere⟩, rfl⟩

theorem object_send (ok : s.Ok env) (rest : List (Work σ)) (request : Option (Request σ))
    (maps : Maps) (obj : Obj σ) (o : ℕ) :
    (s.send rest request maps obj).object o = if o = s.curSeq then some obj else s.object o := by
  rw [object, sent_send ok, object]
  by_cases new : o = s.curSeq
  · simp [new]
  · simp only [if_neg new]
    rfl

theorem object_complete (ok : s.Ok env) (member : put ∈ s.inflight) (o : ℕ) :
    (s.land env put).object o = s.object o := by
  rw [object, sent_complete ok member, object]
  simp only [land, table_insert]
  by_cases here : o = put.seq
  · rw [(sent_eq_some_iff ok).mpr ⟨member, here.symm⟩]
    simp [here]
  · rw [if_neg here, if_neg (fun same => here same.symm)]

/-! ## Steps that leave every copy where it is -/

variable {v : ℤ → σ} {zero : σ}

theorem Coherent.of_same (coherent : Coherent zero v s)
    (pending : ∀ x, latest s'.pending x = latest s.pending x)
    (objmap : s'.maps.objmap = s.maps.objmap) (inflight : s'.inflight = s.inflight)
    (bufmap : s'.bufmap = s.bufmap)
    (objects : ∀ x p, locate s.maps.objmap x = some p →
      s'.object p.obj.toNat = s.object p.obj.toNat) : Coherent zero v s' := by
  obtain ⟨pointers, flights, shown⟩ := coherent
  refine ⟨?_, ?_, ?_⟩
  · intro x
    rw [bufmap, pointers, pending, flying, flying, objmap]
    simp only [sent, inflight]
  · rw [inflight, objmap]
    exact flights
  · intro x
    have before := shown x
    unfold Shows Designates at before ⊢
    rw [pending, objmap]
    cases newest : latest s.pending x with
    | some place =>
        rw [newest] at before
        exact before
    | none =>
        rw [newest] at before
        cases found : locate s.maps.objmap x with
        | none =>
            rw [found] at before
            exact before
        | some p =>
            rw [found] at before
            simp only at before ⊢
            rw [objects x p found]
            exact before

theorem object_of_store {o : ℕ} (inflight : s'.inflight = s.inflight)
    (store : s'.store[o]? = s.store[o]?) : s'.object o = s.object o := by
  simp only [object, sent, inflight, store]

theorem Rolled.latest_eq (rolled : Rolled env s mid) (x : ℤ) :
    latest mid.pending x = latest s.pending x := by
  cases rolled with
  | same => rfl
  | queued addr clear =>
      simp [pending, Work.request, List.filterMap_append, latest_append, latest, entryRanges,
        lastIndex]

theorem Rolled.object_eq (rolled : Rolled env s mid) (o : ℕ) : mid.object o = s.object o := by
  obtain ⟨-, -, inflight, -, -, store⟩ := rolled.frame
  exact object_of_store inflight (by rw [store])

theorem Rolled.coherent (rolled : Rolled env s mid) (coherent : Coherent zero v s) :
    Coherent zero v mid := by
  refine coherent.of_same rolled.latest_eq ?_ ?_ ?_ fun _ p _ => rolled.object_eq p.obj.toNat
  · cases rolled <;> rfl
  · cases rolled <;> rfl
  · cases rolled <;> rfl

theorem latest_enqueue (s : Tx σ) {item : Work σ} (plain : item.request = none) (phase : Gc σ)
    (x : ℤ) : latest ({ s with queue := s.queue ++ [item], gc := phase } : Tx σ).pending x =
      latest s.pending x := by
  simp [pending, List.filterMap_append, plain]

theorem Reserved.ordinary_mapped (reserved : Reserved s) (sound : Sound s.maps.objmap)
    {p : ObjOffset} (found : locate s.maps.objmap x = some p) : p.obj.toNat ∉ s.ckptNumbers := by
  intro number
  have bounds := sound.bounds found
  have different := (reserved _ number).unmapped x p found
  omega

theorem Checkpointed.object_kept {c : Ckpt σ} (done : Checkpointed s c s')
    (busy : s.ckpting = some c) {n : ℕ} (ordinary : n ∉ s.ckptNumbers) : s'.object n = s.object n := by
  have others : ∀ m ∈ s.ckptNumbers, m ≠ n := by
    rintro m number rfl
    exact ordinary number
  cases done with
  | object stage =>
      have different := others c.seq (by simp [ckptNumbers, busy])
      exact object_of_store rfl (by rw [table_insert, if_neg different])
  | superblock stage => rfl
  | delete stage =>
      rename_i o rest
      have different := others o (by simp [ckptNumbers, busy, stage])
      exact object_of_store rfl (by rw [table_erase, if_neg different])
  | done stage phase moved => rfl

theorem Checkpointed.coherent {c : Ckpt σ} (done : Checkpointed s c s') (busy : s.ckpting = some c)
    (sound : Sound s.maps.objmap) (reserved : Reserved s) (coherent : Coherent zero v s) :
    Coherent zero v s' := by
  obtain ⟨maps, inflight, -, queue, current, bufmap⟩ := done.frame
  exact coherent.of_same (fun x => by rw [pending, pending, queue, current]) (by rw [maps])
    inflight bufmap fun x p found => done.object_kept busy (reserved.ordinary_mapped sound found)

def deletes (s : Tx σ) : Action σ → List ℕ
  | .gcReap o => [o]
  | .gcDelete => match s.gc with
      | .deleting (o :: _) => [o]
      | _ => []
  | _ => []

variable {a : Action σ}

theorem Stepped.object_kept (stepped : Stepped env s a s') (ok : s.Ok env) {n : ℕ}
    (older : n < s.curSeq) (ordinary : n ∉ s.ckptNumbers) (kept : n ∉ s.deletes a) :
    s'.object n = s.object n := by
  cases stepped with
  | write rolled nonempty room => exact rolled.object_eq n
  | flush rolled => exact rolled.object_eq n
  | checkpoint rolled => exact rolled.object_eq n
  | flushThread rolled => exact rolled.object_eq n
  | trim done => rfl
  | complete member => exact object_complete ok member n
  | ckpt busy done => exact done.object_kept busy ordinary
  | work free worked =>
      cases worked with
      | put head done => rw [object_send ok, if_neg (by omega)]
      | gc head done => rw [object_send ok, if_neg (by omega)]
      | ckpt head done => rfl
      | flush head quiet => rfl
  | collect collected =>
      cases collected with
      | reap phase member =>
          simp only [deletes, List.mem_singleton] at kept
          exact object_of_store rfl (by rw [table_erase, if_neg (Ne.symm kept)])
      | delete phase =>
          simp only [deletes, phase, List.mem_singleton] at kept
          exact object_of_store rfl (by rw [table_erase, if_neg (Ne.symm kept)])
      | checkpoint phase rolled => exact rolled.object_eq n
      | _ => rfl

theorem Stepped.objects_kept (stepped : Stepped env s a s') (ok : s.Ok env) (reserved : Reserved s)
    (unmapped : ∀ o ∈ s.deletes a, ∀ x p, locate s.maps.objmap x = some p → p.obj ≠ o) :
    ∀ x p, locate s.maps.objmap x = some p → s'.object p.obj.toNat = s.object p.obj.toNat := by
  intro x p found
  have older := ok.below.mapped x p found
  have bounds := ok.consistent.sound.bounds found
  refine stepped.object_kept ok (by omega)
    (reserved.ordinary_mapped ok.consistent.sound found) ?_
  intro deleted
  have different := unmapped _ deleted x p found
  omega

theorem Collected.latest_eq (collected : Collected env s a s') (x : ℤ) :
    latest s'.pending x = latest s.pending x := by
  cases collected with
  | submit phase more => exact latest_enqueue s rfl _ x
  | checkpoint phase rolled => exact (latest_enqueue _ rfl _ x).trans (rolled.latest_eq x)
  | _ => rfl

theorem Collected.coherent (collected : Collected env s a s')
    (objects : ∀ x p, locate s.maps.objmap x = some p →
      s'.object p.obj.toNat = s.object p.obj.toNat)
    (coherent : Coherent zero v s) : Coherent zero v s' := by
  obtain ⟨objmap, inflight, -, bufmap, -⟩ := collected.frame
  exact coherent.of_same collected.latest_eq objmap inflight bufmap objects

/-! ## Host writes -/

theorem latest_write (ok : s.Ok env) (nonempty : 0 < data.length)
    (room : s.current.room env data.length = true) (bound : lba + data.length ≤ 2 ^ 35) (x : ℤ) :
    latest (s.queue.filterMap Work.request ++ [s.current.append lba data]) x =
      if lba ≤ x ∧ x < lba + data.length then
        some (s.current.append lba data, s.current.data.length + (x - lba))
      else ((lastIndex (entryRanges s.current.entries) x).map fun i =>
        (s.current.append lba data, i)).or (latest (s.queue.filterMap Work.request) x) := by
  have buffers : s.buffers = (s.inflight.filterMap Put.request ++
      s.queue.filterMap Work.request) ++ [s.current] := by
    simp [Tx.buffers, pending]
  have buffered := ok.buffered
  rw [buffers] at buffered
  have ranges := (buffered.append nonempty room bound).2.2
  have length := (buffered.proper s.current (by simp)).proper.length
  have index : lastIndex (entryRanges (s.current.append lba data).entries) x =
      if lba ≤ x ∧ x < lba + data.length then some (s.current.data.length + (x - lba))
      else lastIndex (entryRanges s.current.entries) x := by
    rw [ranges, last_index_append, length]
    by_cases inside : lba ≤ x ∧ x < lba + data.length
    · simp [lastIndex, inside.1, inside.2]
    · simp [lastIndex, inside]
  simp only [latest_append, latest, Option.none_or, index]
  split <;> simp

theorem latest_current (s : Tx σ) (x : ℤ) : latest s.pending x =
    ((lastIndex (entryRanges s.current.entries) x).map fun i => (s.current, i)).or
      (latest (s.queue.filterMap Work.request) x) := by
  simp [pending, latest_append, latest]

theorem locate_write (ok : s.Ok env) (nonempty : 0 < data.length)
    (room : s.current.room env data.length = true) (bound : lba + data.length ≤ 2 ^ 35) (x : ℤ) :
    locate (s.bufmap.set lba (lba + data.length) ⟨s.current.tail⟩).1 x =
      if lba ≤ x ∧ x < lba + data.length then some ⟨s.current.tail + 512 * (x - lba)⟩
      else locate s.bufmap x := by
  have buffers : s.buffers = (s.inflight.filterMap Put.request ++
      s.queue.filterMap Work.request) ++ [s.current] := by
    simp [Tx.buffers, pending]
  have buffered := ok.buffered
  rw [buffers] at buffered
  exact (buffered.append nonempty room bound).2.1 x

theorem pointer_write (ok : s.Ok env) (nonempty : 0 < data.length)
    (room : s.current.room env data.length = true) (bound : lba + data.length ≤ 2 ^ 35) (x : ℤ) :
    (latest (s.queue.filterMap Work.request ++ [s.current.append lba data]) x).map pointer =
      if lba ≤ x ∧ x < lba + data.length then some ⟨s.current.tail + 512 * (x - lba)⟩
      else (latest s.pending x).map pointer := by
  rw [latest_write ok nonempty room bound, latest_current]
  split
  · simp only [Option.map_some, pointer, Request.tail, Request.append]
    congr 2
    ring
  · cases lastIndex (entryRanges s.current.entries) x <;> simp [pointer, Request.append]

theorem coherent_append (coherent : Coherent zero v s) (ok : s.Ok env) (nonempty : 0 < data.length)
    (room : s.current.room env data.length = true) (bound : lba + data.length ≤ 2 ^ 35) :
    Coherent zero (writeVolume v lba data) { s with
      current := s.current.append lba data
      bufmap := (s.bufmap.set lba (lba + data.length) ⟨s.current.tail⟩).1 } := by
  have batch := ok.buffered.proper s.current (by simp [buffers, pending])
  have length := batch.proper.length
  obtain ⟨pointers, flights, shown⟩ := coherent
  refine ⟨?_, flights, ?_⟩
  · intro x
    change locate (s.bufmap.set lba (lba + data.length) ⟨s.current.tail⟩).1 x =
      ((latest (s.queue.filterMap Work.request ++ [s.current.append lba data]) x).or
        (s.flying x)).map pointer
    rw [locate_write ok nonempty room bound, Option.map_or, pointer_write ok nonempty room bound,
      pointers, Option.map_or]
    split <;> simp
  · intro x
    have here := shown x
    change match latest (s.queue.filterMap Work.request ++ [s.current.append lba data]) x with
      | some place => place.1.data[place.2.toNat]? = some (writeVolume v lba data x)
      | none => s.Designates zero x (writeVolume v lba data x)
    unfold Shows at here
    rw [latest_current] at here
    rw [latest_write ok nonempty room bound]
    by_cases inside : lba ≤ x ∧ x < lba + data.length
    · rw [if_pos inside]
      simp only [Request.append]
      rw [List.getElem?_append_right (by omega), ← write_volume_inside v inside.1 inside.2]
      congr 1
      omega
    · rw [if_neg inside, write_volume_outside v inside]
      cases covered : lastIndex (entryRanges s.current.entries) x with
      | none =>
          rw [covered] at here
          exact here
      | some i =>
          have bounds := last_index_bounds batch.proper.ranges covered
          rw [covered] at here
          simp only [Option.map_some, Option.some_or, Request.append] at here ⊢
          rw [List.getElem?_append_left (by omega)]
          exact here

/-! ## The worker -/

theorem latest_head {item : Work σ} {rest : List (Work σ)} (head : s.queue = item :: rest)
    (maps : Maps) (obj : Obj σ) (x : ℤ) :
    latest s.pending x =
      (latest (s.send rest item.request maps obj).pending x).or (item.place x) := by
  rw [pending, pending, head]
  cases item <;> simp [Work.request, Work.place, send, List.filterMap_cons, latest]

section Send

variable {item : Work σ} {rest : List (Work σ)} {maps : Maps} {obj : Obj σ} {hdrSectors : ℕ}
  {ranges : Ranges}

theorem flying_send (ok : s.Ok env)
    (emits : Emits env.uuid s.curSeq s.maps maps obj hdrSectors ranges)
    (ranged : ∀ x, lastIndex ranges x = (item.place x).map Prod.snd) (x : ℤ) :
    (s.send rest item.request maps obj).flying x = (item.place x).or (s.flying x) := by
  have laid := emits.locate_eq x
  rw [overlay, ranged] at laid
  unfold flying
  simp only [sent_send ok]
  change (locate maps.objmap x).bind _ = _
  rw [laid]
  cases placed : item.place x with
  | some place =>
      obtain ⟨r, request, index⟩ := Option.bind_eq_some_iff.mp placed
      obtain ⟨i, found, rfl⟩ := Option.map_eq_some_iff.mp index
      simp [request, found]
  | none =>
      simp only [Option.map_none, Option.none_or]
      cases found : locate s.maps.objmap x with
      | none => rfl
      | some p =>
          have old := ok.below.mapped x p found
          have bounds := ok.consistent.sound.bounds found
          simp only [Option.bind_some]
          rw [if_neg (by omega)]

theorem faithful_send (emits : Emits env.uuid s.curSeq s.maps maps obj hdrSectors ranges)
    (earlier : put.seq < s.curSeq) (before : Faithful s.maps.objmap put) :
    Faithful maps.objmap put := by
  unfold Faithful at before ⊢
  cases request : put.request with
  | none => trivial
  | some r =>
      rw [request] at before
      refine ⟨before.1, ?_⟩
      intro x p found isPut
      rw [emits.locate_eq, overlay] at found
      split at found
      · have : (s.curSeq : ℤ) = p.obj := congrArg ObjOffset.obj (Option.some.inj found)
        omega
      · exact before.2 x p found isPut

/-- The sector is in the requests to come, or else in the batch that is sent or where
it was before. -/
theorem shows_send {zero value : σ} (ok : s.Ok env)
    (emits : Emits env.uuid s.curSeq s.maps maps obj hdrSectors ranges)
    (ranged : ∀ x, lastIndex ranges x = (item.place x).map Prod.snd)
    (data : ∀ r, item.request = some r → obj.data = r.data) {later : List (Request σ)}
    (here : match (latest later x).or (item.place x) with
      | some place => place.1.data[place.2.toNat]? = some value
      | none => s.Designates zero x value) :
    (s.send rest item.request maps obj).ShowsAfter zero later x value := by
  unfold ShowsAfter
  cases newest : latest later x with
  | some place =>
      rw [newest] at here
      exact here
  | none =>
      rw [newest, Option.none_or] at here
      have laid : locate maps.objmap x = _ := emits.locate_eq x
      rw [overlay, ranged] at laid
      change match locate maps.objmap x with
        | some p => ∃ obj', (s.send rest item.request maps obj).object p.obj.toNat = some obj' ∧
            dataSector obj' p.offset = some value
        | none => value = zero
      cases placed : item.place x with
      | some place =>
          rw [placed] at here laid
          rw [laid]
          obtain ⟨r, request, index⟩ := Option.bind_eq_some_iff.mp placed
          obtain ⟨i, found, rfl⟩ := Option.map_eq_some_iff.mp index
          have positive := (last_index_bounds emits.proper (by rw [ranged, placed]; rfl)).1
          have hdr : obj.hdr.length / 512 = hdrSectors := by
            rw [emits.header]
            omega
          refine ⟨obj, ?_, ?_⟩
          · rw [object_send ok]
            simp
          · simp only at here
            simp only [dataSector, hdr]
            rw [if_pos (by omega), data r request, ← here]
            congr 1
            omega
      | none =>
          rw [placed] at here laid
          rw [laid]
          simp only [Designates] at here
          cases found : locate s.maps.objmap x with
          | none =>
              rw [found] at here
              exact here
          | some p =>
              rw [found] at here
              have := ok.below.mapped x p found
              have := ok.consistent.sound.bounds found
              simp only [Option.map_none] at here ⊢
              rw [object_send ok, if_neg (by omega)]
              exact here

theorem coherent_send (coherent : Coherent zero v s) (ok : s.Ok env) (head : s.queue = item :: rest)
    (emits : Emits env.uuid s.curSeq s.maps maps obj hdrSectors ranges)
    (ranged : ∀ x, lastIndex ranges x = (item.place x).map Prod.snd)
    (data : ∀ r, item.request = some r → obj.data = r.data) :
    Coherent zero v (s.send rest item.request maps obj) := by
  obtain ⟨pointers, flights, shown⟩ := coherent
  have hdr : obj.hdr.length / 512 = hdrSectors := by
    rw [emits.header]
    omega
  have laid : ∀ x, locate maps.objmap x = overlay s.curSeq hdrSectors ranges
      (locate s.maps.objmap) x := emits.locate_eq
  refine ⟨?_, ?_, ?_⟩
  · intro x
    rw [flying_send ok emits ranged, ← Option.or_assoc, ← latest_head head]
    exact pointers x
  · intro put member
    rcases List.mem_append.mp member with old | new
    · exact faithful_send emits (ok.flying put old) (flights put old)
    · obtain rfl := List.mem_singleton.mp new
      -- only what the new object was laid over is mapped to it
      have mapped : ∀ x p, locate maps.objmap x = some p → p.obj = s.curSeq →
          ∃ place, item.place x = some place ∧ p.offset = hdrSectors + place.2 := by
        intro x p found isNew
        rw [laid, overlay] at found
        split at found
        · rename_i i index
          rw [ranged] at index
          obtain ⟨place, placed, rfl⟩ := Option.map_eq_some_iff.mp index
          exact ⟨place, placed, (congrArg ObjOffset.offset (Option.some.inj found)).symm⟩
        · have := ok.below.mapped x p found
          omega
      unfold Faithful
      simp only
      cases request : item.request with
      | some r =>
          refine ⟨data r request, ?_⟩
          intro x p found isNew
          obtain ⟨place, placed, offset⟩ := mapped x p found isNew
          rw [Work.place, request] at placed
          obtain ⟨i, index, rfl⟩ := Option.map_eq_some_iff.mp placed
          exact ⟨i, index, by rw [hdr]; exact offset⟩
      | none => trivial
  · intro x
    have here := shown x
    unfold Shows at here
    rw [latest_head head maps obj] at here
    exact shows_send ok emits ranged data here

end Send

theorem Worked.coherent (worked : Worked env s s') (envOk : env.Ok) (ok : s.Ok env)
    (bound : s.curSeq < 2 ^ 31)
    (moved : ∀ entries data rest, s.queue = .gc entries data :: rest → Coherent zero v s')
    (coherent : Coherent zero v s) : Coherent zero v s' := by
  cases worked with
  | put head done =>
      rename_i r rest maps obj
      have inBuffers := mem_buffers_of_queued head
      obtain ⟨emits, data⟩ := process_batch_emits ok.consistent.sound
        (ok.buffered.proper r inBuffers).proper envOk.uuid bound done
      refine coherent_send coherent ok head emits ?_ ?_
      · intro x
        simp [Work.place, Work.request, Function.comp_def]
      · intro r' request
        rw [← Option.some.inj request, data]
  | gc head done => exact moved _ _ _ head
  | ckpt head done =>
      refine coherent.of_same ?_ rfl rfl rfl fun _ _ _ => rfl
      intro x
      simp [pending, head, Work.request, List.filterMap_cons]
  | flush head quiet =>
      refine coherent.of_same ?_ rfl rfl rfl fun _ _ _ => rfl
      intro x
      simp [pending, head, Work.request, List.filterMap_cons]

/-! ## Completions -/

theorem holds_elsewhere (ok : s.Ok env) {r other : Request σ} (inBuffers : r ∈ s.buffers)
    (otherIn : other ∈ s.buffers) (different : other.base ≠ r.base) {x i : ℤ}
    (index : lastIndex (entryRanges other.entries) x = some i) :
    r.holds env (pointer (other, i)) = false := by
  have otherOk := ok.buffered.proper other otherIn
  have bounds := last_index_bounds otherOk.proper.ranges index
  have length := otherOk.proper.length
  have here := Buffered.holds_sector otherOk bounds.1 (by omega)
  by_contra there
  rw [Bool.not_eq_false] at there
  exact different (ok.buffered.holds_unique otherIn inBuffers here there)

theorem coherent_land (coherent : Coherent zero v s) (ok : s.Ok env) (member : put ∈ s.inflight) :
    Coherent zero v (s.land env put) := by
  obtain ⟨pointers, flights, shown⟩ := coherent
  have faithful := flights put member
  have flyingAfter : ∀ x, (s.land env put).flying x = (locate s.maps.objmap x).bind fun p =>
      (if p.obj.toNat = put.seq then none else s.sent p.obj.toNat).bind fun other =>
        other.request.bind fun r => (lastIndex (entryRanges r.entries) x).map fun i => (r, i) := by
    intro x
    unfold flying
    simp only [sent_complete ok member]
    rfl
  refine ⟨?_, ?_, ?_⟩
  · intro x
    change locate (s.land env put).bufmap x = ((latest s.pending x).or _).map pointer
    rw [flyingAfter]
    unfold Faithful at faithful
    simp only [land]
    cases request : put.request with
    | none =>
        -- no batch was on its way under this number
        rw [pointers, flying]
        congr 2
        cases found : locate s.maps.objmap x with
        | none => rfl
        | some p =>
            simp only [Option.bind_some]
            by_cases own : p.obj.toNat = put.seq
            · rw [if_pos own, (sent_eq_some_iff ok).mpr ⟨member, own.symm⟩]
              simp [request]
            · rw [if_neg own]
    | some r =>
        rw [request] at faithful
        have inBuffers := mem_buffers_of_put member request
        obtain ⟨-, located⟩ := forget_spec env ok.buffered.bounded
          (List.mem_map_of_mem inBuffers) (ok.buffered.proper r inBuffers).proper.ranges
        simp only
        rw [located, pointers]
        cases newest : latest s.pending x with
        | some place =>
            obtain ⟨waits, index⟩ := latest_some newest
            have other := holds_elsewhere ok inBuffers (List.mem_append_right _ waits)
              (Ne.symm (pending_blocks ok member request waits)) index
            simp [other]
        | none =>
            simp only [Option.none_or, flying]
            cases found : locate s.maps.objmap x with
            | none => rfl
            | some p =>
                have bounds := ok.consistent.sound.bounds found
                simp only [Option.bind_some]
                by_cases own : p.obj.toNat = put.seq
                · obtain ⟨i, index, -⟩ := faithful.2 x p found (by omega)
                  have rOk := ok.buffered.proper r inBuffers
                  have range := last_index_bounds rOk.proper.ranges index
                  have length := rOk.proper.length
                  have here := Buffered.holds_sector rOk range.1 (by omega)
                  rw [if_pos own, (sent_eq_some_iff ok).mpr ⟨member, own.symm⟩]
                  simp only [Option.bind_some, request, index, Option.map_some, Option.bind_none,
                    Option.map_none, Option.filter_some, pointer]
                  rw [here]
                  simp
                · rw [if_neg own]
                  cases carried : s.sent p.obj.toNat with
                  | none => rfl
                  | some otherPut =>
                      obtain ⟨otherMember, otherSeq⟩ := (sent_eq_some_iff ok).mp carried
                      simp only [Option.bind_some]
                      cases otherRequest : otherPut.request with
                      | none => rfl
                      | some other =>
                          simp only [Option.bind_some]
                          cases index : lastIndex (entryRanges other.entries) x with
                          | none => rfl
                          | some i =>
                              have different : otherPut ≠ put := by
                                rintro rfl
                                exact own otherSeq.symm
                              have kept := holds_elsewhere ok inBuffers
                                (mem_buffers_of_put otherMember otherRequest)
                                (put_blocks ok otherMember member different otherRequest request)
                                index
                              simp [kept]
  · intro other otherMember
    exact flights other (List.mem_filter.mp otherMember).1
  · intro x
    have here := shown x
    unfold Shows Designates at here ⊢
    simp only [object_complete ok member]
    exact here

/-! ## Reads -/

theorem find_some_of_unique {α β : Type*} {f : α → Option β} {items : List α} {a : α} {b : β}
    (member : a ∈ items) (value : f a = some b)
    (others : ∀ other ∈ items, f other = none ∨ f other = some b) :
    items.findSome? f = some b := by
  induction items with
  | nil => cases member
  | cons first rest ih =>
      rw [List.findSome?_cons]
      rcases others first (by simp) with nothing | same
      · rw [nothing]
        simp only
        refine ih ?_ fun other inRest => others other (by simp [inRest])
        rcases List.mem_cons.mp member with rfl | inRest
        · rw [value] at nothing
          cases nothing
        · exact inRest
      · rw [same]

/-- The sector that a batch has at one of its places is found in memory. -/
theorem peek_pointer (ok : s.Ok env) {r : Request σ} (inBuffers : r ∈ s.buffers) {i : ℤ}
    (lower : 0 ≤ i) {value : σ} (found : r.data[i.toNat]? = some value) :
    s.peek env (pointer (r, i)) = some value := by
  have inside := (List.getElem?_eq_some_iff.mp found).1
  have rOk := ok.buffered.proper r inBuffers
  have holds := Buffered.holds_sector rOk lower (by omega)
  have distant := ok.buffered.blocks.distant
  rw [List.pairwise_map] at distant
  have symmetric : Std.Symm fun a b : Request σ => Distant env.objBytes a.base b.base :=
    ⟨fun _ _ => Or.symm⟩
  have index : ((r.base + 512 * i - r.base) / 512).toNat = i.toNat := by omega
  refine find_some_of_unique inBuffers ?_ ?_
  · rw [Request.sector, pointer, if_pos holds, index]
    exact found
  · intro other otherIn
    rw [Request.sector]
    split
    · rename_i there
      -- only one request has the address
      have same : r = other := by
        by_contra different
        have apart := distant.forall inBuffers otherIn different
        have := ok.buffered.holds_unique inBuffers otherIn holds there
        unfold Distant at apart
        omega
      subst same
      right
      simp only [pointer, index]
      exact found
    · exact .inl rfl

/-- No data that garbage collection has moved is on its way, or a newer batch has
the address. -/
def Unmoved (s : Tx σ) (x : ℤ) : Prop :=
  ∀ p put, locate s.maps.objmap x = some p → s.sent p.obj.toNat = some put →
    put.request = none → (latest s.pending x).isSome

theorem Coherent.sector (coherent : Coherent zero v s) (ok : s.Ok env) (unmoved : s.Unmoved x) :
    designated (s.peek env) s.fetch zero (locate s.bufmap x)
      (locate s.maps.objmap x) = some (v x) := by
  obtain ⟨pointers, flights, shown⟩ := coherent
  have here := shown x
  unfold Shows at here
  rw [pointers]
  cases newest : latest s.pending x with
  | some place =>
      rw [newest] at here
      obtain ⟨waits, index⟩ := latest_some newest
      have inBuffers : place.1 ∈ s.buffers := List.mem_append_right _ waits
      have bounds := last_index_bounds (ok.buffered.proper place.1 inBuffers).proper.ranges index
      exact peek_pointer ok inBuffers bounds.1 here
  | none =>
      rw [newest] at here
      simp only [Option.none_or, flying]
      unfold Designates at here
      cases found : locate s.maps.objmap x with
      | none =>
          rw [found] at here
          simp only at here
          rw [here]
          rfl
      | some p =>
          rw [found] at here
          obtain ⟨obj, object, sector⟩ := here
          have bounds := ok.consistent.sound.bounds found
          simp only [Option.bind_some]
          rw [Tx.object] at object
          cases carried : s.sent p.obj.toNat with
          | none =>
              rw [carried] at object
              simp only at object
              simp only [Option.bind_none, Option.map_none, designated, fetch]
              rw [object]
              exact sector
          | some put =>
              obtain ⟨member, seq⟩ := (sent_eq_some_iff ok).mp carried
              rw [carried] at object
              cases object
              have faithful := flights put member
              unfold Faithful at faithful
              cases request : put.request with
              | none =>
                  have waiting := unmoved p put found carried request
                  rw [newest] at waiting
                  cases waiting
              | some r =>
                  rw [request] at faithful
                  obtain ⟨data, mapped⟩ := faithful
                  obtain ⟨i, index, offset⟩ := mapped x p found (by omega)
                  have inBuffers := mem_buffers_of_put member request
                  have range := last_index_bounds
                    (ok.buffered.proper r inBuffers).proper.ranges index
                  simp only [Option.bind_some, request, index, Option.map_some, designated]
                  refine peek_pointer ok inBuffers range.1 ?_
                  rw [dataSector, if_pos (by omega), data] at sector
                  rw [← sector]
                  congr 1
                  omega

theorem Coherent.read (coherent : Coherent zero v s) (ok : s.Ok env) {start : ℕ} (count : ℕ)
    (unmoved : ∀ x : ℤ, start ≤ x → x < start + count → s.Unmoved x) :
    s.read env zero start count =
      some ((List.range count).map fun (i : ℕ) => some (v ((start : ℤ) + i))) := by
  obtain ⟨pieces, plan, filled⟩ := @handle_reads_spec σ (s.peek env) s.fetch zero _ _ _
    ok.buffered.bounded (fun e member => (ok.buffered.bounded.within e member).upper)
    ok.consistent.sound start count
  rw [Tx.read, plan, Option.map_some, filled]
  congr 1
  refine List.map_congr_left fun i member => coherent.sector ok ?_
  have := List.mem_range.mp member
  exact unmoved _ (by omega) (by omega)

/-! ## Whole runs -/

/-- Every step but a trim is coherent, if `write_gc` is and no address is mapped to
what garbage collection deletes. -/
theorem Stepped.coherent (stepped : Stepped env s a s')
    (envOk : env.Ok) (ok : s.Ok env) (reserved : Reserved s) (inRange : InRange s a)
    (noTrim : ∀ base limit, a ≠ .trim base limit)
    (moved : a = .work → ∀ entries data rest, s.queue = .gc entries data :: rest →
      Coherent zero v s')
    (unmapped : ∀ o ∈ s.deletes a, ∀ x p, locate s.maps.objmap x = some p → p.obj ≠ o)
    (coherent : Coherent zero v s) : Coherent zero (record v a) s' := by
  have objects := stepped.objects_kept ok reserved unmapped
  cases stepped with
  | write rolled nonempty room =>
      exact coherent_append (rolled.coherent coherent) (rolled.ok ok) nonempty room inRange
  | flush rolled =>
      exact (rolled.coherent coherent).of_same (latest_enqueue _ rfl _) rfl rfl rfl fun _ _ _ => rfl
  | checkpoint rolled =>
      exact (rolled.coherent coherent).of_same (latest_enqueue _ rfl _) rfl rfl rfl fun _ _ _ => rfl
  | flushThread rolled => exact rolled.coherent coherent
  | trim done => exact absurd rfl (noTrim _ _)
  | work free worked => exact worked.coherent envOk ok inRange (moved rfl) coherent
  | ckpt busy done => exact done.coherent busy ok.consistent.sound reserved coherent
  | complete member => exact coherent_land coherent ok member
  | collect collected =>
      have unchanged : record v a = v := by cases collected <;> rfl
      rw [unchanged]
      exact collected.coherent objects coherent

/-- The state in which the constructors leave an image: nothing buffered, queued or on
its way. -/
structure AtRest (s : Tx σ) : Prop where
  consistent : s.maps.Consistent
  below : s.maps.Below s.curSeq
  bufmap : s.bufmap = Extmap.empty
  current : s.current.entries = [] ∧ s.current.data = []
  queue : s.queue = []
  inflight : s.inflight = []
  ckpting : s.ckpting = none
  gc : s.gc = .idle
  reserved : ∀ n ∈ s.ckpts, Unused s n

/-- An image with this content. -/
structure Opened (zero : σ) (v : ℤ → σ) (s : Tx σ) : Prop extends AtRest s where
  content : ∀ x, s.Designates zero x (v x)

theorem AtRest.ok (opened : s.AtRest) (envOk : env.Ok) : s.Ok env := by
  obtain ⟨consistent, below, bufmap, ⟨entries, data⟩, queue, inflight, -, gc, -⟩ := opened
  have buffers : s.buffers = [s.current] := by simp [buffers, pending, queue, inflight]
  refine ⟨consistent, below, by simp [inflight], by simp [inflight], ?_, by simp [queue], ?_⟩
  · rw [buffers, bufmap]
    have small := envOk.objBytes
    refine ⟨?_, ⟨by exact_mod_cast small, List.pairwise_singleton _ _⟩, Bounded.empty, by simp⟩
    intro r member
    rw [List.mem_singleton.mp member]
    exact ⟨⟨by simp [entries, entryRanges, Proper], by simp [entries, data, entryRanges]⟩,
      by simp [data]⟩
  · rw [gc]
    trivial

theorem AtRest.reservedNumbers (opened : s.AtRest) : Reserved s := by
  intro n member
  simp only [ckptNumbers, opened.ckpting, List.append_nil] at member
  exact opened.reserved n member

theorem Opened.coherent (opened : Opened zero v s) :
    Coherent zero v s := by
  have nothing : ∀ x, latest s.pending x = none := by
    intro x
    simp [pending, opened.queue, latest, opened.current.1, entryRanges, lastIndex]
  refine ⟨?_, by simp [opened.inflight], ?_⟩
  · intro x
    rw [opened.bufmap, nothing, flying]
    simp [sent, opened.inflight]
  · intro x
    unfold Shows
    rw [nothing]
    exact opened.content x

end Tx

/-- The steps of a session without trims and with garbage collection disabled. -/
def Action.Plain : Action σ → Prop
  | .writev _ _ _ | .flush _ _ | .checkpoint _ | .flushThread _ => True
  | .work | .ckptStep | .complete _ => True
  | _ => False

instance (a : Action σ) : Decidable a.Plain :=
  decidable_of_iff ((match a with
    | .writev _ _ _ | .flush _ _ | .checkpoint _ | .flushThread _ => true
    | .work | .ckptStep | .complete _ => true
    | _ => false) = true) (by cases a <;> simp [Action.Plain])

structure Tx.NoGc (s : Tx σ) : Prop where
  queued : ∀ item ∈ s.queue, item.isGc = false
  flying : ∀ put ∈ s.inflight, put.request.isSome

theorem Tx.Rolled.noGc {s mid : Tx σ} (rolled : Rolled env s mid) (noGc : s.NoGc) : mid.NoGc := by
  cases rolled with
  | same => exact noGc
  | queued addr clear =>
      refine ⟨?_, noGc.flying⟩
      intro item member
      rcases List.mem_append.mp member with old | new
      · exact noGc.queued item old
      · rw [List.mem_singleton.mp new]
        rfl

theorem Tx.Stepped.noGc {s s' : Tx σ} {a : Action σ} (stepped : Stepped env s a s')
    (plain : a.Plain) (noGc : s.NoGc) : s'.NoGc := by
  have added : ∀ {mid : Tx σ} {item : Work σ}, mid.NoGc → item.isGc = false →
      ({ mid with queue := mid.queue ++ [item] } : Tx σ).NoGc := by
    intro mid item before quiet
    refine ⟨?_, before.flying⟩
    intro other member
    rcases List.mem_append.mp member with old | new
    · exact before.queued other old
    · rw [List.mem_singleton.mp new]
      exact quiet
  have rest : ∀ {item : Work σ} {tail : List (Work σ)}, s.queue = item :: tail →
      ∀ other ∈ tail, other.isGc = false := fun head other member =>
    noGc.queued other (by rw [head]; exact List.mem_cons_of_mem _ member)
  cases stepped with
  | write rolled nonempty room => exact ⟨(rolled.noGc noGc).queued, (rolled.noGc noGc).flying⟩
  | flush rolled => exact added (rolled.noGc noGc) rfl
  | checkpoint rolled => exact added (rolled.noGc noGc) rfl
  | flushThread rolled => exact rolled.noGc noGc
  | trim done => exact ⟨noGc.queued, noGc.flying⟩
  | work free worked =>
      cases worked with
      | put head done =>
          refine ⟨rest head, ?_⟩
          intro put member
          rcases List.mem_append.mp member with old | new
          · exact noGc.flying put old
          · rw [List.mem_singleton.mp new]
            rfl
      | gc head done =>
          have isGc := noGc.queued _ (by rw [head]; exact List.mem_cons_self)
          cases isGc
      | ckpt head done => exact ⟨rest head, noGc.flying⟩
      | flush head quiet => exact ⟨rest head, noGc.flying⟩
  | ckpt busy done =>
      refine ⟨?_, ?_⟩
      · rw [done.frame.2.2.2.1]
        exact noGc.queued
      · rw [done.frame.2.1]
        exact noGc.flying
  | complete member =>
      exact ⟨noGc.queued, fun put flying => noGc.flying put (List.mem_filter.mp flying).1⟩
  | collect collected => cases collected <;> exact absurd plain id

theorem Tx.NoGc.unmoved {s : Tx σ} (noGc : s.NoGc) (x : ℤ) : s.Unmoved x := by
  intro p put found sent isGc
  have isBatch := noGc.flying put (List.mem_of_find?_eq_some sent)
  rw [isGc] at isBatch
  cases isBatch

/-- The condition on a step: addresses below `2^35`, numbers below `2^31`. -/
def PlainInRange (s : Tx σ) (a : Action σ) : Prop := InRange s a ∧ a.Plain

instance (s : Tx σ) (a : Action σ) : Decidable (PlainInRange s a) :=
  inferInstanceAs (Decidable (_ ∧ _))

structure Tx.Good (env : Env) (zero : σ) (v : ℤ → σ) (s : Tx σ) : Prop where
  ok : s.Ok env
  reserved : Reserved s
  coherent : Coherent zero v s

theorem Tx.Opened.good {zero : σ} {v : ℤ → σ} {s : Tx σ} (opened : Opened zero v s)
    (envOk : env.Ok) : Good env zero v s :=
  ⟨opened.ok envOk, opened.reservedNumbers, opened.coherent⟩

theorem Tx.Good.step {zero : σ} {v : ℤ → σ} {s s' : Tx σ} {a : Action σ} (good : s.Good env zero v)
    (envOk : env.Ok) (stepped : step env s a = some s') (inRange : InRange s a)
    (noTrim : ∀ base limit, a ≠ .trim base limit)
    (moved : a = .work → ∀ entries data rest, s.queue = .gc entries data :: rest →
      Coherent zero v s')
    (unmapped : ∀ o ∈ s.deletes a, ∀ x p, locate s.maps.objmap x = some p → p.obj ≠ o) :
    s'.Good env zero (record v a) := by
  have cases := step_cases stepped
  exact ⟨cases.ok good.ok inRange, cases.reserved good.ok envOk inRange good.reserved,
    cases.coherent envOk good.ok good.reserved inRange noTrim moved unmapped good.coherent⟩

/-- With garbage collection disabled and without trims, after every run whose
writes are below `2^35` every read returns for each sector the last write that
covers it, or what the image held when it was opened; and every pointer of the
buffer map is into the block of a batch that is being filled, queued or on its
way. -/
theorem reads_return_latest_writes {zero : σ} {v : ℤ → σ} {s t : Tx σ} {acts : List (Action σ)}
    (envOk : env.Ok) (opened : s.Opened zero v) (along : Along (step env) PlainInRange s acts)
    (ran : run (step env) s acts = some t) :
    (∀ start count : ℕ, t.read env zero start count =
      some ((List.range count).map fun (i : ℕ) => some (acts.foldl record v ((start : ℤ) + i)))) ∧
      ∀ x p, locate t.bufmap x = some p → ∃ r ∈ t.buffers, r.holds env p = true := by
  have started : s.Good env zero v ∧ s.NoGc :=
    ⟨opened.good envOk, by simp [opened.queue], by simp [opened.inflight]⟩
  have keeps : ∀ (v : ℤ → σ) (s : Tx σ) (a : Action σ) (next : Tx σ),
      s.Good env zero v ∧ s.NoGc → PlainInRange s a → step env s a = some next →
      next.Good env zero (record v a) ∧ next.NoGc := by
    rintro v s a next ⟨good, noGc⟩ ⟨inRange, plain⟩ stepped
    refine ⟨good.step envOk stepped inRange ?_ ?_ ?_, (Tx.step_cases stepped).noGc plain noGc⟩
    · rintro base limit rfl
      exact plain
    · intro isWork entries data rest head
      have isGc := noGc.queued _ (by rw [head]; exact List.mem_cons_self)
      cases isGc
    · intro o deleted
      cases a with
      | gcReap o => exact plain.elim
      | gcDelete => exact plain.elim
      | _ => cases deleted
  obtain ⟨⟨ok, -, coherent⟩, noGc⟩ := tracked_along keeps started along ran
  refine ⟨fun start count => coherent.read ok count fun x _ _ => noGc.unmoved x, ?_⟩
  intro x p found
  obtain ⟨-, -, b, member, low, high⟩ := located_in_block ok.buffered.bounded found
  obtain ⟨r, inBuffers, rfl⟩ := List.mem_map.mp member
  exact ⟨r, inBuffers, Request.holds_iff.mpr ⟨low, by omega⟩⟩

def Tx.create (addr : ℤ) : Tx σ where
  maps := Maps.empty
  bufmap := Extmap.empty
  current := ⟨addr, [], []⟩
  queue := []
  inflight := []
  curSeq := 1
  returned := []
  ckpts := []
  ckpting := none
  gc := .idle
  store := ∅
  super := []

theorem Tx.create_at_rest (addr : ℤ) : (create addr : Tx σ).AtRest where
  consistent := Maps.empty_consistent
  below := ⟨by simp [create, Maps.empty], by simp [create, Maps.empty]⟩
  bufmap := rfl
  current := ⟨rfl, rfl⟩
  queue := rfl
  inflight := rfl
  ckpting := rfl
  gc := rfl
  reserved := by simp [create]

theorem Tx.create_opened (zero : σ) (addr : ℤ) : (create addr).Opened zero fun _ => zero :=
  ⟨create_at_rest addr, fun x => by simp [Designates, create, Maps.empty]⟩

/-- The smallest objects whose reserve holds a header, cleaned when half empty. -/
def smallEnv : Env := ⟨fun _ => 0, 7, 786432, 50⟩

theorem small_env_ok : smallEnv.Ok := ⟨by decide, by decide⟩

def overwriteRun : List (Action ℕ) :=
  [.writev 8 [1, 2] 0, .flushThread 5000000, .work, .writev 8 [3] 0, .flushThread 9000000, .work,
    .complete 2]

theorem reads_return_latest_writes_overwrite :
    Along (step smallEnv) PlainInRange (Tx.create 1000000) overwriteRun ∧
      ∃ t, run (step smallEnv) (Tx.create 1000000) overwriteRun = some t ∧
        t.read smallEnv 0 8 2 = some [some 3, some 2] := by
  have along : Along (step smallEnv) PlainInRange (Tx.create 1000000) overwriteRun := by
    decide +kernel
  obtain ⟨t, ran⟩ := Option.isSome_iff_exists.mp
    (by decide +kernel : (run (step smallEnv) (Tx.create 1000000) overwriteRun).isSome)
  refine ⟨along, t, ran, ?_⟩
  rw [(reads_return_latest_writes small_env_ok (Tx.create_opened 0 1000000) along ran).1 8 2]
  rfl

/-- A write at `2^35` is recorded at a negative address: when its PUT completes the
buffer map still points into the block, and a read does not find the sector. -/
theorem read_misses_high_address :
    (run (step smallEnv) (Tx.create 1000000)
      [.writev (2 ^ 35) [5] 0, .flushThread 5000000, .work, .complete 1]).map (fun t =>
        (t.read smallEnv 0 (2 ^ 35) 1, locate t.bufmap (2 ^ 35), t.buffers.map Request.base)) =
      some (some [none], some ⟨1000000⟩, [5000000]) := by
  decide +kernel

end LsvdRbd.Session
