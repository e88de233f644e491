import LsvdRbd.Lib.Machine
import LsvdRbd.Session.Steps

/-!
# What every reachable session satisfies

The maps are consistent, every number given out is below the next one, every
buffer pointer is into an allocated block, and garbage collection works on
extents that fit its records.
-/

namespace LsvdRbd.Session

open Records RunList ExtentMap Format Translate Recovery

set_option autoImplicit false

variable {σ : Type*} {env : Env}

structure Env.Ok (env : Env) : Prop where
  uuid : env.uuid < 2 ^ 128
  objBytes : env.objBytes < 2 ^ 31

/-- Addresses below `2^35` and numbers below `2^31`. -/
def InRange (s : Tx σ) : Action σ → Prop
  | .writev lba data _ => lba + data.length ≤ 2 ^ 35
  | .trim base limit => base ≤ limit ∧ base < 2 ^ 35
  | .work => s.curSeq < 2 ^ 31
  | _ => True

instance (s : Tx σ) (a : Action σ) : Decidable (InRange s a) := by
  cases a <;> unfold InRange <;> infer_instance

def NumbersLeft (s : Tx σ) : Action σ → Prop
  | .work => s.curSeq < 2 ^ 31
  | _ => True

instance (s : Tx σ) (a : Action σ) : Decidable (NumbersLeft s a) := by
  cases a <;> unfold NumbersLeft <;> infer_instance

variable {a : Action σ}

theorem InRange.numbersLeft {s : Tx σ} (inRange : InRange s a) :
    NumbersLeft s a := by
  cases a with
  | work => exact inRange
  | _ => trivial

def Work.Ok : Work σ → Prop
  | .gc entries data => ProperRequest entries data ∧ Apart (entryRanges entries)
  | _ => True

def Gc.Ok : Gc σ → Prop
  | .snapshot _ live => Ordered live ∧ ∀ e ∈ live, Within e
  | .sending _ left => Ordered (left.map Prod.fst) ∧
      ∀ e ∈ left, Within e.1 ∧ (e.2.length : ℤ) = e.1.len
  | _ => True

structure Tx.Ok (env : Env) (s : Tx σ) : Prop where
  consistent : s.maps.Consistent
  below : s.maps.Below s.curSeq
  flying : ∀ put ∈ s.inflight, put.seq < s.curSeq
  distinct : (s.inflight.map Put.seq).Nodup
  buffered : Buffered env s.buffers s.bufmap
  queued : ∀ item ∈ s.queue, item.Ok
  phase : s.gc.Ok

namespace Tx

variable {s s' mid : Tx σ}

/-! ## Host threads -/

theorem buffers_roll (s : Tx σ) (r : Request σ) :
    ({ s with queue := s.queue ++ [.put s.current], current := r } : Tx σ).buffers =
      s.buffers ++ [r] := by
  simp [buffers, pending, Work.request, List.filterMap_append]

theorem buffers_enqueue (s : Tx σ) {item : Work σ} (plain : item.request = none) (phase : Gc σ) :
    ({ s with queue := s.queue ++ [item], gc := phase } : Tx σ).buffers = s.buffers := by
  simp [buffers, pending, List.filterMap_append, plain]

theorem Rolled.ok (rolled : Rolled env s mid) (ok : s.Ok env) : mid.Ok env := by
  cases rolled with
  | same => exact ok
  | queued addr clear =>
      refine ⟨ok.consistent, ok.below, ok.flying, ok.distinct, ?_, ?_, ok.phase⟩
      · rw [buffers_roll]
        exact ok.buffered.add clear
      · intro item member
        rcases List.mem_append.mp member with old | new
        · exact ok.queued item old
        · rw [List.mem_singleton.mp new]
          trivial

theorem Rolled.frame (rolled : Rolled env s mid) : mid.maps = s.maps ∧ mid.bufmap = s.bufmap ∧
    mid.inflight = s.inflight ∧ mid.curSeq = s.curSeq ∧ mid.gc = s.gc ∧ mid.store = s.store := by
  cases rolled <;> exact ⟨rfl, rfl, rfl, rfl, rfl, rfl⟩

theorem ok_append (ok : s.Ok env) {lba : ℕ} {data : List σ} (nonempty : 0 < data.length)
    (room : s.current.room env data.length = true) (bound : lba + data.length ≤ 2 ^ 35) :
    Ok env { s with
      current := s.current.append lba data
      bufmap := (s.bufmap.set lba (lba + data.length) ⟨s.current.tail⟩).1 } := by
  have buffers : s.buffers = (s.inflight.filterMap Put.request ++
      s.queue.filterMap Work.request) ++ [s.current] := by
    simp [Tx.buffers, pending]
  have buffered := ok.buffered
  rw [buffers] at buffered
  refine ⟨ok.consistent, ok.below, ok.flying, ok.distinct, ?_, ok.queued, ok.phase⟩
  have appended := (buffered.append nonempty room bound).1
  rw [List.append_assoc] at appended
  exact appended

theorem ok_enqueue (ok : s.Ok env) (item : Work σ) (plain : item.request = none)
    (itemOk : item.Ok) {phase : Gc σ} (phaseOk : phase.Ok) :
    Ok env { s with queue := s.queue ++ [item], gc := phase } := by
  refine ⟨ok.consistent, ok.below, ok.flying, ok.distinct, ?_, ?_, phaseOk⟩
  · rw [buffers_enqueue s plain]
    exact ok.buffered
  · intro other member
    rcases List.mem_append.mp member with old | new
    · exact ok.queued other old
    · rw [List.mem_singleton.mp new]
      exact itemOk

/-! ## The worker -/

variable {rest : List (Work σ)}

theorem buffers_send {item : Work σ} (head : s.queue = item :: rest) (maps : Maps) (obj : Obj σ) :
    (s.send rest item.request maps obj).buffers = s.buffers := by
  rw [buffers, buffers, pending, pending, head]
  simp only [send, List.filterMap_append, List.append_assoc]
  congr 1
  cases item <;> simp [Work.request, List.filterMap_cons]

variable {maps : Maps}

theorem ok_send (ok : s.Ok env) {item : Work σ} (head : s.queue = item :: rest) {obj : Obj σ}
    (bound : s.curSeq < 2 ^ 31) (consistent : maps.Consistent) (below : maps.Below (s.curSeq + 1)) :
    Ok env (s.send rest item.request maps obj) := by
  have next := next_seq_eq bound
  refine ⟨consistent, ?_, ?_, ?_, ?_, ?_, ok.phase⟩
  · simp only [send, next]
    exact below
  · intro put member
    simp only [send, List.mem_append, List.mem_singleton] at member ⊢
    rw [next]
    rcases member with old | rfl
    · have := ok.flying put old
      omega
    · simp only
      omega
  · simp only [send, List.map_append, List.map_cons, List.map_nil, List.nodup_append]
    refine ⟨ok.distinct, List.nodup_singleton _, ?_⟩
    intro a member b new same
    obtain ⟨put, inflight, rfl⟩ := List.mem_map.mp member
    have := ok.flying put inflight
    rw [List.mem_singleton] at new
    omega
  · rw [buffers_send head]
    exact ok.buffered
  · intro other member
    exact ok.queued other (by rw [head]; exact List.mem_cons_of_mem _ member)

theorem Worked.ok (worked : Worked env s s') (ok : s.Ok env) (bound : s.curSeq < 2 ^ 31) :
    s'.Ok env := by
  cases worked with
  | put head done =>
      rename_i r rest maps obj
      have inBuffers := mem_buffers_of_queued head
      have next := process_batch_next ok.consistent ok.below (ok.buffered.proper r inBuffers).proper
        bound done
      exact ok_send ok head bound next.consistent next.below
  | gc head done =>
      rename_i entries data rest maps obj
      obtain ⟨request, apart⟩ := ok.queued (.gc entries data) (by simp [head])
      have next := write_gc_next ok.consistent ok.below request apart bound done
      exact ok_send ok head bound next.consistent next.below
  | ckpt head done =>
      rename_i byGc rest obj
      have next := next_seq_eq bound
      refine ⟨ok.consistent, ⟨?_, ?_⟩, ?_, ok.distinct, ?_, ?_, ok.phase⟩
      · intro x p found
        have := ok.below.mapped x p found
        simp only [next]
        omega
      · intro o oi present
        have := ok.below.listed o oi present
        simp only [next]
        omega
      · intro put member
        have := ok.flying put member
        simp only [next]
        omega
      · have buffered := ok.buffered
        simp only [buffers, pending, head, Work.request, List.filterMap_cons] at buffered ⊢
        exact buffered
      · intro item member
        exact ok.queued item (by rw [head]; exact List.mem_cons_of_mem _ member)
  | flush head quiet =>
      refine ⟨ok.consistent, ok.below, ok.flying, ok.distinct, ?_, ?_, ok.phase⟩
      · have buffered := ok.buffered
        simp only [buffers, pending, head, Work.request, List.filterMap_cons] at buffered ⊢
        exact buffered
      · intro item member
        exact ok.queued item (by rw [head]; exact List.mem_cons_of_mem _ member)

theorem Checkpointed.ok {c : Ckpt σ} (done : Checkpointed s c s') (ok : s.Ok env) : s'.Ok env := by
  cases done with
  | object stage =>
      exact ⟨ok.consistent, ok.below, ok.flying, ok.distinct, ok.buffered, ok.queued, ok.phase⟩
  | superblock stage =>
      exact ⟨ok.consistent, ok.below, ok.flying, ok.distinct, ok.buffered, ok.queued, ok.phase⟩
  | delete stage =>
      exact ⟨ok.consistent, ok.below, ok.flying, ok.distinct, ok.buffered, ok.queued, ok.phase⟩
  | done stage phase moved =>
      refine ⟨ok.consistent, ok.below, ok.flying, ok.distinct, ok.buffered, ok.queued, ?_⟩
      rcases moved with ⟨rfl, -⟩ | ⟨objs, -, -, rfl⟩
      · exact ok.phase
      · trivial

/-! ## Completions -/

theorem put_unique (ok : s.Ok env) {put other : Put σ} (member : put ∈ s.inflight)
    (otherMember : other ∈ s.inflight) (same : put.seq = other.seq) : put = other :=
  List.inj_on_of_nodup_map ok.distinct member otherMember same

theorem put_blocks (ok : s.Ok env) {put other : Put σ} (member : put ∈ s.inflight)
    (otherMember : other ∈ s.inflight) (different : put ≠ other) {r r' : Request σ}
    (request : put.request = some r) (otherRequest : other.request = some r') :
    r.base ≠ r'.base := by
  have distant := ok.buffered.blocks.distant
  rw [buffers, List.map_append, List.pairwise_append, List.pairwise_map,
    List.pairwise_filterMap] at distant
  have symmetric : Std.Symm fun a b : Put σ => ∀ r, a.request = some r → ∀ r', b.request = some r' →
      Distant env.objBytes r.base r'.base :=
    ⟨fun a b apart r first r' second => Or.symm (apart r' second r first)⟩
  have apart := distant.1.forall member otherMember different r request r' otherRequest
  intro same
  unfold Distant at apart
  omega

theorem pending_blocks (ok : s.Ok env) {put : Put σ} (member : put ∈ s.inflight)
    {r r' : Request σ} (request : put.request = some r) (waits : r' ∈ s.pending) :
    r.base ≠ r'.base := by
  have distant := ok.buffered.blocks.distant
  rw [buffers, List.map_append, List.pairwise_append] at distant
  have apart := distant.2.2 r.base
    (List.mem_map_of_mem (List.mem_filterMap.mpr ⟨put, member, request⟩)) r'.base
    (List.mem_map_of_mem waits)
  intro same
  unfold Distant at apart
  omega

theorem mem_buffers_of_put {put : Put σ} (member : put ∈ s.inflight) {r : Request σ}
    (request : put.request = some r) : r ∈ s.buffers :=
  List.mem_append_left _ (List.mem_filterMap.mpr ⟨put, member, request⟩)

theorem ok_complete (ok : s.Ok env) {put : Put σ} (member : put ∈ s.inflight) :
    Ok env (s.land env put) := by
  set left := s.inflight.filter fun other => decide (other.seq ≠ put.seq) with leftDef
  have sublist : left.Sublist s.inflight := List.filter_sublist
  refine ⟨ok.consistent, ok.below, fun other inLeft => ok.flying other (sublist.mem inLeft),
    ok.distinct.sublist (sublist.map _), ?_, ok.queued, ok.phase⟩
  change Buffered env (left.filterMap Put.request ++ s.pending) _
  simp only [land]
  cases request : put.request with
  | some r =>
      refine ok.buffered.release (mem_buffers_of_put member request)
        ((sublist.filterMap _).append_right _) ?_
      intro other inBuffers different
      rcases List.mem_append.mp inBuffers with flying | waits
      · obtain ⟨otherPut, otherMember, otherRequest⟩ := List.mem_filterMap.mp flying
        refine List.mem_append_left _ (List.mem_filterMap.mpr ⟨otherPut, ?_, otherRequest⟩)
        refine List.mem_filter.mpr ⟨otherMember, decide_eq_true ?_⟩
        intro sameSeq
        have same := put_unique ok otherMember member sameSeq
        rw [same, request] at otherRequest
        rw [Option.some.inj otherRequest] at different
        exact different rfl
      · exact List.mem_append_right _ waits
  | none =>
      have buffers : left.filterMap Put.request = s.inflight.filterMap Put.request := by
        rw [leftDef, List.filterMap_filter]
        refine List.filterMap_congr fun other otherMember => ?_
        by_cases sameSeq : other.seq = put.seq
        · rw [put_unique ok otherMember member sameSeq, request]
          simp
        · simp [sameSeq]
      rw [buffers]
      exact ok.buffered

/-! ## Garbage collection -/

theorem forget_info (objs : List ℕ) (maps : Maps) (o : ℕ) :
    (forget objs maps).info[o]? = if o ∈ objs then none else maps.info[o]? :=
  table_erase_all objs maps.info o

theorem forget_ok {seq : ℕ} (consistent : maps.Consistent) (below : maps.Below seq) (objs : List ℕ)
    : (forget objs maps).Consistent ∧ (forget objs maps).Below seq := by
  have kept : ∀ (o : ℕ) (oi : ObjInfo), (forget objs maps).info[o]? = some oi →
      maps.info[o]? = some oi := by
    intro o oi present
    rw [forget_info] at present
    split at present
    · cases present
    · exact present
  exact ⟨⟨consistent.sound, fun o oi present => consistent.keys o oi (kept o oi present),
    fun o oi present => consistent.exact o oi (kept o oi present)⟩,
    ⟨below.mapped, fun o oi present => below.listed o oi (kept o oi present)⟩⟩

theorem uncount_ok {seq : ℕ} (consistent : maps.Consistent) (below : maps.Below seq) (objs : List ℕ)
    : (uncount objs maps).Consistent ∧ (uncount objs maps).Below seq :=
  ⟨⟨consistent.sound, consistent.keys, consistent.exact⟩, ⟨below.mapped, below.listed⟩⟩

theorem live_extents_spec {m : Objmap} (sound : Sound m) (maxObj : ℤ) (objs : List (ℕ × ℕ)) :
    Sound (liveExtents m maxObj objs) ∧
      ∀ x, locate (liveExtents m maxObj objs) x = (locate m x).filter fun p =>
        decide (p.obj ≤ maxObj ∧ ∃ entry ∈ objs, (entry.1 : ℤ) = p.obj) := by
  set chosen : Extent ObjOffset → Bool := fun e =>
    decide (e.ptr.obj ≤ maxObj ∧ ∃ entry ∈ objs, (entry.1 : ℤ) = e.ptr.obj) with chosenDef
  have sublist : (m.extents.filter chosen).Sublist m.extents := List.filter_sublist
  have ordered := sound.ordered.sublist sublist
  obtain ⟨loadedSound, loaded⟩ := load_entries ordered
    (fun e member => sound.within e (sublist.mem member)) sound_empty
  rw [List.foldl_map] at loadedSound
  refine ⟨loadedSound, ?_⟩
  intro x
  have here := loaded x
  rw [List.foldl_map, locate_empty, Option.or_none] at here
  refine Eq.trans here ?_
  apply Option.ext
  intro p
  rw [Option.filter_eq_some_iff, locate, get_eq_some_iff ordered, get_eq_some_iff sound.ordered]
  constructor
  · rintro ⟨e, member, inside, rfl⟩
    obtain ⟨inMap, picked⟩ := List.mem_filter.mp member
    exact ⟨⟨e, inMap, inside, rfl⟩, picked⟩
  · rintro ⟨⟨e, inMap, inside, rfl⟩, picked⟩
    exact ⟨e, List.mem_filter.mpr ⟨inMap, picked⟩, inside, rfl⟩

theorem read_extent_length {file : List σ} {objs : List (ℕ × ℕ)} {e : Extent ObjOffset}
    {loaded : Extent ObjOffset × List σ} (read : readExtent file objs e = some loaded)
    (lower : 0 ≤ e.len) : loaded.1 = e ∧ (loaded.2.length : ℤ) = e.len := by
  obtain ⟨data, sectors, rfl⟩ := Option.map_eq_some_iff.mp read
  refine ⟨rfl, ?_⟩
  have length := (Machine.map_m_eq_some_iff.mp sectors).length_eq
  rw [List.length_range] at length
  simp only
  omega

theorem loaded_spec {file : List σ} {objs : List (ℕ × ℕ)}
    {live : List (Extent ObjOffset)} {left : List (Extent ObjOffset × List σ)}
    (loaded : live.mapM (readExtent file objs) = some left) :
    left.map Prod.fst = live ∧ ∀ e ∈ left, readExtent file objs e.1 = some e := by
  have reads := Machine.map_m_eq_some_iff.mp loaded
  clear loaded
  induction reads with
  | nil => exact ⟨rfl, by simp⟩
  | cons read others ih =>
      rename_i e pair live left
      obtain ⟨data, -, rfl⟩ := Option.map_eq_some_iff.mp read
      obtain ⟨same, each⟩ := ih
      refine ⟨by rw [List.map_cons, same], ?_⟩
      intro other member
      rcases List.mem_cons.mp member with rfl | later
      · exact read
      · exact each other later

theorem next_request_split (max sectors : ℤ) (left : List (Extent ObjOffset × List σ)) :
    (nextRequest max sectors left).1 ++ (nextRequest max sectors left).2 = left := by
  induction left generalizing sectors with
  | nil => rfl
  | cons e rest ih =>
      unfold nextRequest
      split
      · simp [ih]
      · rfl

theorem gc_entries_eq {taken : List (Extent ObjOffset × List σ)}
    (ordered : Ordered (taken.map Prod.fst)) (within : ∀ e ∈ taken, Within e.1) :
    gcEntries taken = taken.map fun e =>
      (⟨e.1.base, e.1.len, e.1.ptr.obj, e.1.ptr.offset⟩ : MapEntry) := by
  refine List.map_congr_left fun e member => ?_
  exact (within_entry_fits (within e member)
    (ordered.positive e.1 (List.mem_map_of_mem member))).store_eq

theorem flat_data_length {taken : List (Extent ObjOffset × List σ)}
    (lengths : ∀ e ∈ taken, (e.2.length : ℤ) = e.1.len) :
    sectors (taken.map fun e => (e.1.base, e.1.len)) = (taken.flatMap Prod.snd).length := by
  induction taken with
  | nil => rfl
  | cons e others ih =>
      have here := lengths e (by simp)
      rw [List.map_cons, sectors_cons, List.flatMap_cons, List.length_append,
        ih fun other member => lengths other (by simp [member])]
      push_cast
      omega

theorem next_request_ok {left : List (Extent ObjOffset × List σ)} (max : ℤ)
    (ordered : Ordered (left.map Prod.fst))
    (lengths : ∀ e ∈ left, Within e.1 ∧ (e.2.length : ℤ) = e.1.len) :
    Work.Ok (.gc (gcEntries (nextRequest max 0 left).1)
        ((nextRequest max 0 left).1.flatMap Prod.snd)) ∧
      Gc.Ok (.sending [] (nextRequest max 0 left).2 : Gc σ) := by
  have split := next_request_split max 0 left
  generalize nextRequest max 0 left = r at split ⊢
  obtain ⟨taken, rest⟩ := r
  simp only at split ⊢
  subst split
  rw [List.map_append, ordered_append] at ordered
  obtain ⟨takenOrdered, restOrdered, -⟩ := ordered
  have exact := gc_entries_eq takenOrdered fun e member => (lengths e (by simp [member])).1
  have ranges : entryRanges (gcEntries taken) = taken.map fun e => (e.1.base, e.1.len) := by
    rw [exact, entryRanges, List.map_map]
    rfl
  refine ⟨⟨⟨?_, ?_⟩, ?_⟩, restOrdered, fun e member => lengths e (by simp [member])⟩
  · rw [ranges]
    intro range member
    obtain ⟨e, inTaken, rfl⟩ := List.mem_map.mp member
    have within := (lengths e (by simp [inTaken])).1
    have positive := takenOrdered.positive e.1 (List.mem_map_of_mem inTaken)
    exact ⟨within.base, positive, within.limit⟩
  · rw [ranges]
    exact flat_data_length fun e member => (lengths e (by simp [member])).2
  · rw [ranges, Apart, List.pairwise_map]
    have separated := takenOrdered.separated
    rw [List.pairwise_map] at separated
    exact separated.imp fun before => .inl before

theorem Collected.ok (collected : Collected env s a s') (ok : s.Ok env) :
    s'.Ok env := by
  obtain ⟨consistent, below, flying, distinct, buffered, queued, phaseOk⟩ := ok
  cases collected with
  | start phase => exact ⟨consistent, below, flying, distinct, buffered, queued, trivial⟩
  | dead phase =>
      obtain ⟨counted, countedBelow⟩ := uncount_ok consistent below (deadObjects s.maps.info)
      exact ⟨counted, countedBelow, flying, distinct, buffered, queued, trivial⟩
  | reap phase member => exact ⟨consistent, below, flying, distinct, buffered, queued, trivial⟩
  | erase phase =>
      obtain ⟨left, leftBelow⟩ := forget_ok consistent below _
      exact ⟨left, leftBelow, flying, distinct, buffered, queued, trivial⟩
  | bound phase => exact ⟨consistent, below, flying, distinct, buffered, queued, trivial⟩
  | select phase nodup few allowed =>
      refine ⟨consistent, below, flying, distinct, buffered, queued, ?_⟩
      simp only
      split <;> trivial
  | snapshot phase =>
      rename_i maxObj objs
      have sound := (live_extents_spec consistent.sound maxObj objs).1
      exact ⟨consistent, below, flying, distinct, buffered, queued, sound.ordered, sound.within⟩
  | load phase loaded =>
      rename_i objs live left
      rw [phase] at phaseOk
      obtain ⟨ordered, within⟩ := phaseOk
      obtain ⟨same, each⟩ := loaded_spec loaded
      refine ⟨consistent, below, flying, distinct, buffered, queued, same ▸ ordered, ?_⟩
      intro e member
      have inLive : e.1 ∈ live := same ▸ List.mem_map_of_mem member
      exact ⟨within e.1 inLive,
        (read_extent_length (each e member) (ordered.positive e.1 inLive).le).2⟩
  | submit phase more =>
      have old : s.Ok env := ⟨consistent, below, flying, distinct, buffered, queued, phaseOk⟩
      rw [phase] at phaseOk
      obtain ⟨itemOk, restOk⟩ := next_request_ok (env.objBytes / 512 : ℕ) phaseOk.1 phaseOk.2
      exact ok_enqueue old _ rfl itemOk restOk
  | done phase quiet =>
      obtain ⟨counted, countedBelow⟩ := uncount_ok consistent below _
      obtain ⟨left, leftBelow⟩ := forget_ok counted countedBelow _
      exact ⟨left, leftBelow, flying, distinct, buffered, queued, trivial⟩
  | checkpoint phase rolled =>
      have old : s.Ok env := ⟨consistent, below, flying, distinct, buffered, queued, phaseOk⟩
      exact ok_enqueue (rolled.ok old) (.ckpt true) rfl trivial trivial
  | delete phase => exact ⟨consistent, below, flying, distinct, buffered, queued, trivial⟩
  | finish phase => exact ⟨consistent, below, flying, distinct, buffered, queued, trivial⟩
  | stop may => exact ⟨consistent, below, flying, distinct, buffered, queued, trivial⟩
  | stopErased phase =>
      obtain ⟨counted, countedBelow⟩ := uncount_ok consistent below _
      obtain ⟨left, leftBelow⟩ := forget_ok counted countedBelow _
      exact ⟨left, leftBelow, flying, distinct, buffered, queued, trivial⟩

/-- Every step within the limits keeps the invariant. -/
theorem Stepped.ok (stepped : Stepped env s a s') (ok : s.Ok env) (inRange : InRange s a) :
    s'.Ok env := by
  cases stepped with
  | write rolled nonempty room => exact ok_append (rolled.ok ok) nonempty room inRange
  | flush rolled =>
      have old := rolled.ok ok
      exact ok_enqueue old (.flush _) rfl trivial old.phase
  | checkpoint rolled =>
      have old := rolled.ok ok
      exact ok_enqueue old (.ckpt false) rfl trivial old.phase
  | flushThread rolled => exact rolled.ok ok
  | trim done =>
      rename_i base limit maps
      obtain ⟨trimmed, same, consistent, below, -⟩ := trim_defined ok.consistent ok.below
        (by omega : (0 : ℤ) ≤ base) (by exact_mod_cast inRange.1 : (base : ℤ) ≤ limit)
        (by have := inRange.2; omega)
      cases done.symm.trans same
      exact ⟨consistent, below, ok.flying, ok.distinct, ok.buffered, ok.queued, ok.phase⟩
  | work free worked => exact worked.ok ok inRange
  | ckpt busy done => exact done.ok ok
  | complete member => exact ok_complete ok member
  | collect collected => exact collected.ok ok

/-! ## Numbers -/

/-- What a step does with numbers: an address is mapped as before, unmapped, or
mapped to the next number; tables and PUTs gain at most the next number. -/
structure Moves (s s' : Tx σ) : Prop where
  mapped : ∀ x p, locate s'.maps.objmap x = some p →
    locate s.maps.objmap x = some p ∨ p.obj = s.curSeq
  listed : ∀ (o : ℕ) (oi : ObjInfo), s'.maps.info[o]? = some oi →
    (∃ old : ObjInfo, s.maps.info[o]? = some old) ∨ o = s.curSeq
  flying : ∀ put ∈ s'.inflight, put ∈ s.inflight ∨ put.seq = s.curSeq
  numbers : s.curSeq ≤ s'.curSeq

theorem Moves.of_same (maps : s'.maps = s.maps) (inflight : s'.inflight.Sublist s.inflight)
    (numbers : s.curSeq ≤ s'.curSeq) : Moves s s' := by
  refine ⟨?_, ?_, fun put member => .inl (inflight.mem member), numbers⟩
  · rw [maps]
    exact fun x p found => .inl found
  · rw [maps]
    exact fun o oi present => .inl ⟨oi, present⟩

theorem moves_send {request : Option (Request σ)} {obj : Obj σ} {hdrSectors dataSectors : ℕ}
    {ranges : Ranges} (bound : s.curSeq < 2 ^ 31)
    (emits : Emits env.uuid s.curSeq s.maps maps obj hdrSectors ranges)
    (next : s.maps.Next s.curSeq hdrSectors dataSectors maps) :
    Moves s (s.send rest request maps obj) := by
  refine ⟨?_, ?_, ?_, ?_⟩
  · intro x p found
    have laid := emits.locate_eq x
    rw [overlay] at laid
    simp only [send] at found
    rw [laid] at found
    split at found
    · exact .inr (congrArg ObjOffset.obj (Option.some.inj found)).symm
    · exact .inl found
  · intro o oi present
    simp only [send] at present
    rw [next.table, table_insert] at present
    by_cases same : s.curSeq = o
    · exact .inr same.symm
    · rw [if_neg same] at present
      obtain ⟨old, found, -⟩ := Option.map_eq_some_iff.mp present
      exact .inl ⟨old, found⟩
  · intro put member
    rcases List.mem_append.mp member with old | new
    · exact .inl old
    · rw [List.mem_singleton.mp new]
      exact .inr rfl
  · simp only [send, next_seq_eq bound]
    omega

theorem Worked.moves (worked : Worked env s s') (ok : s.Ok env) (envOk : env.Ok)
    (bound : s.curSeq < 2 ^ 31) : Moves s s' := by
  cases worked with
  | put head done =>
      rename_i r rest maps obj
      have inBuffers := mem_buffers_of_queued head
      have proper := (ok.buffered.proper r inBuffers).proper
      exact moves_send bound
        (process_batch_emits ok.consistent.sound proper envOk.uuid bound done).1
        (process_batch_next ok.consistent ok.below proper bound done)
  | gc head done =>
      rename_i entries data rest maps obj
      obtain ⟨request, apart⟩ := ok.queued (.gc entries data) (by simp [head])
      exact moves_send bound
        (write_gc_emits ok.consistent.sound request envOk.uuid bound done).1
        (write_gc_next ok.consistent ok.below request apart bound done)
  | ckpt head done =>
      exact .of_same rfl (List.Sublist.refl _) (by simp only [next_seq_eq bound]; omega)
  | flush head quiet => exact .of_same rfl (List.Sublist.refl _) (le_refl _)

theorem Checkpointed.frame {c : Ckpt σ} (done : Checkpointed s c s') : s'.maps = s.maps ∧
    s'.inflight = s.inflight ∧ s'.curSeq = s.curSeq ∧ s'.queue = s.queue ∧ s'.current = s.current ∧
    s'.bufmap = s.bufmap := by
  cases done <;> exact ⟨rfl, rfl, rfl, rfl, rfl, rfl⟩

theorem Collected.frame (collected : Collected env s a s') :
    s'.maps.objmap = s.maps.objmap ∧ s'.inflight = s.inflight ∧ s'.curSeq = s.curSeq ∧
      s'.bufmap = s.bufmap ∧ s'.ckpts = s.ckpts ∧ s'.super = s.super ∧ s'.ckpting = s.ckpting ∧
      ∀ (o : ℕ) (oi : ObjInfo), s'.maps.info[o]? = some oi → s.maps.info[o]? = some oi := by
  have erased : ∀ (objs : List ℕ) (maps : Maps) (o : ℕ) (oi : ObjInfo),
      (forget objs maps).info[o]? = some oi → maps.info[o]? = some oi := by
    intro objs maps o oi present
    rw [forget_info] at present
    split at present
    · cases present
    · exact present
  cases collected with
  | erase phase => exact ⟨rfl, rfl, rfl, rfl, rfl, rfl, rfl, erased _ _⟩
  | done phase quiet => exact ⟨rfl, rfl, rfl, rfl, rfl, rfl, rfl, erased _ _⟩
  | stopErased phase => exact ⟨rfl, rfl, rfl, rfl, rfl, rfl, rfl, erased _ _⟩
  | checkpoint phase rolled =>
      cases rolled <;> exact ⟨rfl, rfl, rfl, rfl, rfl, rfl, rfl, fun _ _ present => present⟩
  | _ => exact ⟨rfl, rfl, rfl, rfl, rfl, rfl, rfl, fun _ _ present => present⟩

theorem Rolled.moves (rolled : Rolled env s mid) : Moves s mid := by
  cases rolled <;> exact .of_same rfl (List.Sublist.refl _) (le_refl _)

theorem Stepped.moves (stepped : Stepped env s a s') (ok : s.Ok env) (envOk : env.Ok)
    (inRange : InRange s a) : Moves s s' := by
  cases stepped with
  | write rolled nonempty room => exact ⟨rolled.moves.mapped, rolled.moves.listed,
      rolled.moves.flying, rolled.moves.numbers⟩
  | flush rolled => exact ⟨rolled.moves.mapped, rolled.moves.listed, rolled.moves.flying,
      rolled.moves.numbers⟩
  | checkpoint rolled => exact ⟨rolled.moves.mapped, rolled.moves.listed, rolled.moves.flying,
      rolled.moves.numbers⟩
  | flushThread rolled => exact rolled.moves
  | trim done =>
      rename_i base limit maps
      obtain ⟨trimmed, same, -, -, located, table⟩ := trim_defined ok.consistent ok.below
        (by omega : (0 : ℤ) ≤ base) (by exact_mod_cast inRange.1 : (base : ℤ) ≤ limit)
        (by have := inRange.2; omega)
      cases done.symm.trans same
      refine ⟨?_, ?_, fun put member => .inl member, le_refl _⟩
      · intro x p found
        simp only at found
        rw [located] at found
        split at found
        · cases found
        · exact .inl found
      · intro o oi present
        simp only at present
        rw [table] at present
        obtain ⟨old, before, -⟩ := Option.map_eq_some_iff.mp present
        exact .inl ⟨old, before⟩
  | work free worked => exact worked.moves ok envOk inRange
  | ckpt busy done =>
      obtain ⟨maps, inflight, numbers, -⟩ := done.frame
      exact .of_same maps (inflight ▸ List.Sublist.refl _) numbers.ge
  | complete member => exact .of_same rfl List.filter_sublist (le_refl _)
  | collect collected =>
      obtain ⟨objmap, inflight, numbers, -, -, -, -, info⟩ := collected.frame
      refine ⟨?_, fun o oi present => .inl ⟨oi, info o oi present⟩, ?_, numbers.ge⟩
      · rw [objmap]
        exact fun x p found => .inl found
      · rw [inflight]
        exact fun put member => .inl member

structure Unused (s : Tx σ) (n : ℕ) : Prop where
  taken : n < s.curSeq
  unmapped : ∀ x p, locate s.maps.objmap x = some p → p.obj ≠ n
  unlisted : s.maps.info[n]? = none
  landed : ∀ put ∈ s.inflight, put.seq ≠ n

theorem Unused.step {n : ℕ} (unused : Unused s n) (moves : Moves s s') : Unused s' n := by
  obtain ⟨taken, unmapped, unlisted, landed⟩ := unused
  refine ⟨lt_of_lt_of_le taken moves.numbers, ?_, ?_, ?_⟩
  · intro x p found
    rcases moves.mapped x p found with old | new
    · exact unmapped x p old
    · omega
  · by_contra listed
    obtain ⟨oi, present⟩ := Option.ne_none_iff_exists'.mp listed
    rcases moves.listed n oi present with ⟨old, before⟩ | new
    · rw [unlisted] at before
      cases before
    · omega
  · intro put member
    rcases moves.flying put member with old | new
    · exact landed put old
    · omega

def ckptNumbers (s : Tx σ) : List ℕ :=
  s.ckpts ++ match s.ckpting with
    | none => []
    | some c => c.seq :: match c.stage with
        | .deletes old => old
        | _ => []

/-- Data never shares a number with a checkpoint. -/
def Reserved (s : Tx σ) : Prop := ∀ n ∈ s.ckptNumbers, Unused s n

theorem mem_keep_three {ckpts : List ℕ} {n : ℕ} :
    n ∈ (keepThree ckpts).1 ∨ n ∈ (keepThree ckpts).2 ↔ n ∈ ckpts := by
  rw [keepThree]
  conv_rhs => rw [← List.take_append_drop (ckpts.length - 3) ckpts, List.mem_append]
  exact Or.comm

theorem Checkpointed.numbers {c : Ckpt σ} (done : Checkpointed s c s')
    (busy : s.ckpting = some c) : s'.ckptNumbers ⊆ s.ckptNumbers := by
  cases done with
  | object stage => simp [ckptNumbers, busy, stage]
  | superblock stage =>
      intro n member
      have kept := @mem_keep_three (s.ckpts ++ [c.seq]) n
      simp only [ckptNumbers, busy, stage, List.mem_append, List.mem_cons] at member kept ⊢
      grind
  | delete stage =>
      intro n member
      simp only [ckptNumbers, busy, stage, List.mem_append, List.mem_cons] at member ⊢
      grind
  | done stage phase moved =>
      intro n member
      simp only [ckptNumbers, busy, List.append_nil] at member ⊢
      exact List.mem_append_left _ member

theorem Stepped.numbers (stepped : Stepped env s a s') (left : NumbersLeft s a) :
    ∀ n ∈ s'.ckptNumbers, n ∈ s.ckptNumbers ∨
      n = s.curSeq ∧ s'.maps = s.maps ∧ s'.inflight = s.inflight ∧ s.curSeq < s'.curSeq := by
  cases stepped with
  | write rolled nonempty room => cases rolled <;> exact fun _ member => .inl member
  | flush rolled => cases rolled <;> exact fun _ member => .inl member
  | checkpoint rolled => cases rolled <;> exact fun _ member => .inl member
  | flushThread rolled => cases rolled <;> exact fun _ member => .inl member
  | trim done => exact fun _ member => .inl member
  | complete member => exact fun _ inNumbers => .inl inNumbers
  | ckpt busy done => exact fun _ member => .inl (done.numbers busy member)
  | collect collected =>
      obtain ⟨-, -, -, -, ckpts, -, ckpting, -⟩ := collected.frame
      rw [ckptNumbers, ckptNumbers, ckpts, ckpting]
      exact fun _ member => .inl member
  | work free worked =>
      cases worked with
      | put head done => exact fun _ member => .inl member
      | gc head done => exact fun _ member => .inl member
      | flush head quiet => exact fun _ member => .inl member
      | ckpt head done =>
          intro n member
          simp only [ckptNumbers, List.mem_append, List.mem_singleton] at member
          rcases member with listed | isNew
          · exact .inl (List.mem_append_left _ listed)
          · exact .inr ⟨isNew, rfl, rfl, by simp only [next_seq_eq left]; omega⟩

theorem Stepped.reserved (stepped : Stepped env s a s') (ok : s.Ok env) (envOk : env.Ok)
    (inRange : InRange s a) (reserved : Reserved s) : Reserved s' := by
  intro n member
  rcases stepped.numbers inRange.numbersLeft n member with old | ⟨rfl, maps, inflight, taken⟩
  · exact (reserved n old).step (stepped.moves ok envOk inRange)
  · refine ⟨taken, ?_, ?_, ?_⟩
    · intro x p found
      rw [maps] at found
      have := ok.below.mapped x p found
      omega
    · rw [maps]
      by_contra listed
      obtain ⟨oi, present⟩ := Option.ne_none_iff_exists'.mp listed
      have := ok.below.listed _ oi present
      omega
    · intro put flying
      rw [inflight] at flying
      have := ok.flying put flying
      omega

end Tx

end LsvdRbd.Session
