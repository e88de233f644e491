import LsvdRbd.Lifecycle.Lineage
import LsvdRbd.Session.Durable

/-!
# What a crash leaves of a session

A crash leaves the newest checkpoint and, up to the first number that did not land, the
objects after it. Opening succeeds exactly if these objects write no address that the
checkpoint maps and none twice, since `apply_log` throws on everything that it
displaces, and gives one of the volumes since the last flush that returned.
-/

namespace LsvdRbd.Lifecycle

open Records RunList ExtentMap Format Translate Recovery Session Machine

set_option autoImplicit false

variable {σ : Type*}

namespace Backend

def base (backend : Backend σ) : ℕ := backend.super.getLast?.getD 0

theorem base_eq {backend : Backend σ} {c : ℕ} (newest : backend.super.getLast? = some c) :
    backend.base = c := by
  rw [base, newest, Option.getD_some]

/-- The objects after the newest checkpoint write no address that the checkpoint maps,
and none twice. -/
def Fresh (backend : Backend σ) : Prop :=
  ∀ c loaded, backend.super.getLast? = some c →
    readFromCheckpoint backend.store[c]? ⟨Extmap.empty, ∅, backend.super⟩ = .ok loaded →
    Untouched (locate loaded.objmap) (backend.replayed.flatMap (rangesAt backend.store))

end Backend

/-- The log up to a number that holds no data, and the map at each number. -/
structure Remains (uuid : ℕ) (zero : σ) (since : List (ℤ → σ)) (stop : ℕ)
    (view : ℕ → ℤ → Option ObjOffset) (backend : Backend σ) : Prop where
  started : backend.base < stop
  bound : stop ≤ 2 ^ 31
  stops : readDataHdr backend.store[stop]? = .ok none
  layers : ∀ n, backend.base < n → n < stop → ∃ obj, backend.store[n]? = some obj ∧
    Layer uuid n obj (view n) (view (n + 1))
  data : ∀ n, backend.base < n → n ≤ stop → ∀ x p, view n x = some p →
    0 ≤ p.obj ∧ p.obj.toNat < n ∧ p.obj.toNat ∉ backend.super
  content : ∃ v ∈ since, ∀ x, Holds zero (fun n => backend.store[n]?) (view stop) x (v x)
  origin : backend.super = [] → ∀ x, view 1 x = none
  saved : ∀ c ∈ backend.super, ∃ obj, backend.store[c]? = some obj ∧
    ∃ maps : Maps, checkpointObject uuid c maps = some obj ∧ maps.Intact c ∧
      ∀ x, locate maps.objmap x = view (c + 1) x

/-! ## Opening -/

variable {store : Store σ}

theorem data_from_stretch {uuid first count fuel : ℕ} (bound : first + count ≤ 2 ^ 31)
    (made : MadeFrom uuid store first count) (stops : readDataHdr store[first + count]? = .ok none)
    (enough : count < fuel) :
    dataFrom store fuel first = List.range' first count := by
  induction count generalizing first fuel with
  | zero =>
      obtain ⟨fuel, rfl⟩ := Nat.exists_eq_add_of_lt enough
      rw [zero_add, dataFrom, show readDataHdr store[first]? = .ok none from stops]
      rfl
  | succ count ih =>
      obtain ⟨fuel, rfl⟩ : ∃ rest, fuel = rest + 1 := ⟨fuel - 1, by omega⟩
      obtain ⟨obj, hdrSectors, ranges, present, wellMade⟩ := made 0 (by omega)
      obtain ⟨parsed, read, -⟩ := wellMade.object
      rw [add_zero] at present
      have later := ih (show first + 1 + count ≤ 2 ^ 31 by omega) made.tail
        (by rwa [show first + 1 + count = first + (count + 1) by omega])
        (show count < fuel by omega)
      rw [dataFrom, present, read, List.range'_succ]
      simp only
      rw [next_seq_eq (by omega), later]

theorem recover_newest {window c : ℕ} {super : List ℕ} {loaded : Image}
    (newest : super.getLast? = some c)
    (read : readFromCheckpoint store[c]? ⟨Extmap.empty, ∅, super⟩ = .ok loaded) :
    recover window super store =
      (replay (fun n => applyLog store[n]? n) (store.size + 1) (nextSeq c) loaded).map fun r =>
        r.map fun (s', stop) => (s', prevSeq stop, deleteDangling window (prevSeq stop) store) := by
  have ckpts : loaded.ckpts = super := read_from_checkpoint_ckpts read
  simp only [recover, newest, read, rollForward, ckpts]

namespace Remains

variable {uuid stop window : ℕ} {zero : σ} {since : List (ℤ → σ)}
  {view : ℕ → ℤ → Option ObjOffset} {backend : Backend σ}

theorem madeFrom (remains : Remains uuid zero since stop view backend) :
    MadeFrom uuid backend.store (backend.base + 1) (stop - (backend.base + 1)) := by
  intro j inside
  obtain ⟨obj, present, hdrSectors, ranges, made, -⟩ :=
    remains.layers (backend.base + 1 + j) (by omega) (by omega)
  exact ⟨obj, hdrSectors, ranges, present, made⟩

theorem read_newest (remains : Remains uuid zero since stop view backend)
    (uuidBound : uuid < 2 ^ 128) {c : ℕ} (newest : backend.super.getLast? = some c) :
    ∃ s : Maps, readFromCheckpoint backend.store[c]? ⟨Extmap.empty, ∅, backend.super⟩ =
        .ok ⟨s.objmap, s.info, backend.super⟩ ∧ s.Intact (c + 1) ∧
      ∀ x, locate s.objmap x = view (c + 1) x := by
  obtain ⟨obj, present, maps, object, intact, located⟩ :=
    remains.saved c (List.mem_of_getLast? newest)
  have started := remains.started
  have bound := remains.bound
  rw [Backend.base_eq newest] at started
  obtain ⟨s, read, after, same⟩ :=
    read_intact_checkpoint intact uuidBound (show c < 2 ^ 32 by omega) object backend.super
  refine ⟨s, by rw [present]; exact read, after.skip, ?_⟩
  intro x
  rw [same, located]

structure Reopens (view : ℕ → ℤ → Option ObjOffset) (stop : ℕ) (image : Image) (last : ℕ) :
    Prop where
  last : last + 1 = stop
  intact : ∃ s : Maps, image.objmap = s.objmap ∧ image.info = s.info ∧ s.Intact stop
  located : ∀ x, locate image.objmap x = view stop x

theorem blank_stop (remains : Remains uuid zero since stop view backend)
    (short : Short window backend) (none : backend.super = []) : stop = 1 := by
  have started := remains.started
  have base : backend.base = 0 := by simp [Backend.base, none]
  by_contra more
  obtain ⟨obj, present, -⟩ := remains.layers 1 (by omega) (by omega)
  rw [short.blank none] at present
  cases present

theorem recover_fresh (remains : Remains uuid zero since stop view backend)
    (short : Short window backend) (uuidBound : uuid < 2 ^ 128) (window' : ℕ) :
    (backend.Fresh → ∃ image last store,
      recover window' backend.super backend.store = some (.ok (image, last, store)) ∧
      Reopens view stop image last) ∧
    (¬backend.Fresh → ∃ fault, recover window' backend.super backend.store =
      some (.error fault)) := by
  cases newest : backend.super.getLast? with
  | none =>
      have empty := List.getLast?_eq_none_iff.mp newest
      have one := remains.blank_stop short empty
      constructor
      · intro fresh
        refine ⟨⟨Extmap.empty, ∅, []⟩, 0, backend.store, by rw [empty]; rfl, one.symm,
          ⟨Maps.empty, rfl, rfl, Maps.empty_intact _⟩, ?_⟩
        intro x
        rw [one, remains.origin empty, locate_empty]
      · intro stale
        refine absurd ?_ stale
        intro c loaded isNewest
        rw [newest] at isNewest
        cases isNewest
  | some c =>
      have base := Backend.base_eq newest
      have started := remains.started
      have bound := remains.bound
      have made := remains.madeFrom
      rw [base] at started made
      obtain ⟨s, read, intact, located⟩ := remains.read_newest uuidBound newest
      have next : nextSeq c = c + 1 := next_seq_eq (by omega)
      have end' : c + 1 + (stop - (c + 1)) = stop := by omega
      have stops : readDataHdr backend.store[c + 1 + (stop - (c + 1))]? = .ok none := by
        rw [end']
        exact remains.stops
      have enough : stop - (c + 1) < backend.store.size + 1 := by
        refine Nat.lt_succ_of_le (count_le_size backend.store (c + 1) _ ?_)
        intro j inside
        obtain ⟨obj, -, -, present, -⟩ := made j inside
        exact ⟨obj, present⟩
      have replayed : backend.replayed.flatMap (rangesAt backend.store) =
          stretchRanges backend.store (c + 1) (stop - (c + 1)) := by
        simp only [Backend.replayed, newest, next]
        rw [data_from_stretch (by omega) made stops enough]
        rfl
      have fresh : backend.Fresh ↔ Untouched (locate s.objmap)
          (stretchRanges backend.store (c + 1) (stop - (c + 1))) := by
        rw [← replayed]
        constructor
        · intro fresh
          exact fresh c _ newest read
        · intro untouched other loaded isNewest isRead
          cases newest.symm.trans isNewest
          obtain rfl := Except.ok.inj (read.symm.trans isRead)
          exact untouched
      obtain ⟨succeeds, fails⟩ :=
        replay_stretch_iff (by omega) made stops enough intact backend.super
      rw [recover_newest newest read, fresh, next]
      constructor
      · intro untouched
        obtain ⟨s', ran, after⟩ := succeeds untouched
        -- the same replay, by its maps
        obtain ⟨m, mapRan, -, final⟩ := replay_stretch uuid backend.store
          (fun j => view (c + 1 + j)) (c + 1) (stop - (c + 1)) (backend.store.size + 1) (by omega)
          (by
            intro j inside
            obtain ⟨obj, present, layer⟩ := remains.layers (c + 1 + j) (by omega) (by omega)
            rw [present]
            exact layer.laysOver)
          stops intact.consistent.sound located enough
        have sameMap : s'.objmap = m := by
          have := (replay_objmap ran).symm.trans mapRan
          exact (Prod.mk.inj (Except.ok.inj (Option.some.inj this))).1
        rw [end'] at ran after final
        refine ⟨_, _, _, by rw [ran]; rfl, ?_, ⟨s', rfl, rfl, after⟩, ?_⟩
        · rw [prev_seq_pred (by omega) bound]
          omega
        · intro x
          change locate s'.objmap x = _
          rw [sameMap]
          exact final x
      · intro touched
        obtain ⟨fault, ran⟩ := fails touched
        exact ⟨fault, by rw [ran]; rfl⟩

theorem reopens (remains : Remains uuid zero since stop view backend) (short : Short window backend)
    (uuidBound : uuid < 2 ^ 128) {window' last : ℕ} {image : Image}
    (recovered : recover window' backend.super backend.store = some (.ok (image, last, store))) :
    Reopens view stop image last := by
  obtain ⟨succeeds, fails⟩ := remains.recover_fresh short uuidBound window'
  by_cases fresh : backend.Fresh
  · obtain ⟨image', last', store', same, reopens⟩ := succeeds fresh
    rw [recovered] at same
    obtain ⟨rfl, rfl, -⟩ := Prod.mk.inj (Except.ok.inj (Option.some.inj same)) |>.imp id Prod.mk.inj
    exact reopens
  · obtain ⟨fault, failed⟩ := fails fresh
    rw [recovered] at failed
    cases failed

theorem delete_first (remains : Remains uuid zero since stop view backend) {last count : ℕ}
    (isLast : last + 1 = stop) (before : ∀ c ∈ backend.super, c ≤ last)
    (room : last + count < 2 ^ 32) :
    Remains uuid zero since stop view
      { backend with store := deleteFirst count last backend.store } := by
  have same : ∀ n ≤ last, (deleteFirst count last backend.store)[n]? = backend.store[n]? :=
    fun n early => delete_first_before _ early room
  refine ⟨remains.started, remains.bound, ?_, ?_, remains.data, ?_, remains.origin, ?_⟩
  · simp only [delete_first_lookup]
    split
    · exact read_data_hdr_missing
    · exact remains.stops
  · intro n after earlier
    obtain ⟨obj, present, layer⟩ := remains.layers n after earlier
    exact ⟨obj, (same n (by omega)).trans present, layer⟩
  · obtain ⟨v, member, holds⟩ := remains.content
    refine ⟨v, member, ?_⟩
    intro x
    refine (holds x).of_objects ?_
    intro q mapped
    have earlier := (remains.data stop remains.started (le_refl _) x q mapped).2.1
    exact same _ (by omega)
  · intro c member
    obtain ⟨obj, present, written⟩ := remains.saved c member
    exact ⟨obj, (same c (before c member)).trans present, written⟩

end Remains

/-! ## A crash -/

namespace Remains

variable {env : Env} {tx : Tx σ} {zero : σ} {p : Pledge σ} {t : Trail}

def Missing (tx : Tx σ) (n : ℕ) : Prop :=
  tx.base < n ∧ (n = tx.curSeq ∨ (∃ put ∈ tx.inflight, put.seq = n) ∨
    ∃ k, tx.ckpting = some k ∧ k.seq = n)

/-- Nothing that is missing reads as data, and nothing was missing at the last flush. -/
theorem Missing.stops {n : ℕ} (missing : Missing tx n) (uuidBound : env.uuid < 2 ^ 128)
    (guarded : tx.Guarded env.uuid) (dense : tx.Dense)
    (early : ∀ (n : ℕ) (obj : Obj σ), tx.store[n]? = some obj → n < tx.curSeq)
    (linked : tx.Linked env.uuid zero p.since t) :
    readDataHdr tx.store[n]? = .ok none ∧ t.floor ≤ n ∧ n ≤ tx.curSeq := by
  have bound := guarded.separate.bound
  obtain ⟨after, rfl | ⟨put, member, rfl⟩ | ⟨k, busy, rfl⟩⟩ := missing
  · refine ⟨?_, linked.floor, le_refl _⟩
    cases found : tx.store[tx.curSeq]? with
    | none => exact read_data_hdr_missing
    | some obj => exact absurd (early _ obj found) (lt_irrefl _)
  · obtain ⟨high, -, absent⟩ := linked.flying put member
    exact ⟨by rw [absent]; rfl, high, (guarded.separate.flying put member).1.le⟩
  · obtain ⟨-, high, absent⟩ := linked.writing k busy
    have next := dense.next k busy
    refine ⟨?_, high, by omega⟩
    have progress := linked.saved.writing k busy
    unfold Tx.Underway at progress
    cases stage : k.stage with
    | object =>
        rw [absent stage]
        rfl
    | superblock =>
        rw [stage] at progress
        obtain ⟨-, ⟨-, maps, object, -⟩, present⟩ := progress
        rw [present]
        exact checkpoint_object_not_data uuidBound (by omega) object
    | deletes old =>
        -- the checkpoint is the newest one already
        rw [stage] at progress
        rw [Tx.base, linked.saved.super, progress.2.1, Option.getD_some] at after
        exact absurd after (lt_irrefl _)

/-- Before the first missing number every object has landed. -/
theorem landed {n : ℕ} (none : ∀ m < n, ¬Missing tx m) (linked : tx.Linked env.uuid zero p.since t)
    {m : ℕ} (earlier : m < n) : tx.object m = tx.store[m]? := by
  have absent : tx.sent m = Option.none := by
    refine List.find?_eq_none.mpr ?_
    intro put member
    simp only [decide_eq_true_eq]
    rintro rfl
    exact none _ earlier ⟨(linked.flying put member).2.1, .inr (.inl ⟨put, member, rfl⟩)⟩
  rw [Tx.object, absent]

/-- The log up to the first missing number. -/
theorem of_crash (durable : tx.Durable env zero p) (uuidBound : env.uuid < 2 ^ 128) :
    ∃ stop view, Remains env.uuid zero p.since stop view ⟨tx.store, tx.super⟩ := by
  classical
  obtain ⟨good, noGc, guarded, dense, early, intact, t, timed, asked, linked⟩ := durable
  have some : ∃ n, Missing tx n := ⟨tx.curSeq, linked.started, .inl rfl⟩
  obtain ⟨stop, missing, first⟩ : ∃ stop, Missing tx stop ∧ ∀ n < stop, ¬Missing tx n :=
    ⟨Nat.find some, Nat.find_spec some, fun n => Nat.find_min some⟩
  obtain ⟨stops, high, late⟩ := missing.stops uuidBound guarded dense early linked
  have bound := guarded.separate.bound
  have after : tx.base < stop := missing.1
  refine ⟨stop, t.view, after, by omega, stops, ?_, ?_, ?_, linked.origin, ?_⟩
  · intro n later before
    rcases linked.links n later (by omega) with ⟨k, busy, seq, -⟩ | ⟨-, obj, object, layer⟩
    · exact absurd ⟨later, .inr (.inr ⟨k, busy, seq⟩)⟩ (first n before)
    · exact ⟨obj, (landed first linked before).symm.trans object, layer⟩
  · intro n later before x q mapped
    obtain ⟨lower, earlier, isData⟩ := linked.data n later (by omega) x q mapped
    refine ⟨lower, earlier, fun listed => isData.2 (List.mem_append_left _ ?_)⟩
    exact linked.saved.super ▸ listed
  · obtain ⟨v, found, holds⟩ := linked.contents stop after high late
    refine ⟨v, List.mem_of_getElem? found, ?_⟩
    intro x
    refine (holds x).of_objects ?_
    intro q mapped
    exact (landed first linked (linked.data stop after late x q mapped).2.1).symm
  · intro c member
    have isCkpt : c ∈ tx.ckpts := linked.saved.super ▸ member
    obtain ⟨obj, present, -, written⟩ := linked.saved.listed c isCkpt
    exact ⟨obj, present, written⟩

end Remains

/-! ## A session starts again -/

def imageContent (zero : σ) (store : Store σ) (objmap : Objmap) (x : ℤ) : σ :=
  match locate objmap x with
  | some p => (store[p.obj.toNat]?.bind fun obj => dataSector obj p.offset).getD zero
  | none => zero

theorem image_content_eq {zero : σ} {objmap : Objmap} {v : ℤ → σ}
    (holds : ∀ x, Holds zero (fun n => store[n]?) (locate objmap) x (v x)) :
    imageContent zero store objmap = v := by
  funext x
  have here := holds x
  unfold Holds at here
  unfold imageContent
  cases found : locate objmap x with
  | none =>
      rw [found] at here
      exact here.symm
  | some p =>
      rw [found] at here
      obtain ⟨obj, present, sector⟩ := here
      simp only [present, Option.bind_some, sector, Option.getD_some]

namespace Remains

variable {uuid stop window : ℕ} {zero : σ} {since : List (ℤ → σ)}
  {view : ℕ → ℤ → Option ObjOffset} {backend : Backend σ}

variable {image : Image}

theorem recovers (remains : Remains uuid zero since stop view backend) {last : ℕ}
    (reopens : Reopens view stop image last) (same : ∀ n ≤ last, store[n]? = backend.store[n]?) :
    imageContent zero store image.objmap ∈ since ∧ ∀ x,
      Holds zero (fun n => store[n]?) (locate image.objmap) x
        (imageContent zero store image.objmap x) := by
  obtain ⟨v, member, holds⟩ := remains.content
  have isLast := reopens.last
  have kept : ∀ x, Holds zero (fun n => store[n]?) (locate image.objmap) x (v x) := by
    intro x
    rw [show locate image.objmap = view stop from funext reopens.located]
    refine (holds x).of_objects ?_
    intro q mapped
    have earlier := (remains.data stop remains.started (le_refl _) x q mapped).2.1
    exact same _ (by omega)
  rw [image_content_eq kept]
  exact ⟨member, kept⟩

theorem kept {window' last : ℕ}
    (found : Recovered window' backend.super backend.store image last store) (bound : last < 2 ^ 31)
    (limit : window' * 4 ≤ 2 ^ 31) :
    ∀ n ≤ last, store[n]? = backend.store[n]? := by
  cases found with
  | blank none => exact fun _ _ => rfl
  | replayed isLast read ran => exact fun n early => delete_first_before _ early (by omega)

theorem linked (remains : Remains uuid zero since stop view backend)
    (isSealed : Sealed uuid backend) {last : ℕ} (restored : Restored backend image last)
    (reopens : Reopens view stop image last) (same : ∀ n ≤ last, store[n]? = backend.store[n]?)
    (addr : ℤ) :
    (reopen image last { backend with store := store } addr).Linked uuid zero
      [imageContent zero store image.objmap] ⟨0, view, fun _ => 0, stop⟩ := by
  obtain ⟨ckpts, before, bound, -⟩ := restored
  have isLast := reopens.last
  have holds := (remains.recovers reopens same).2
  have curSeq : (reopen image last { backend with store := store } addr).curSeq = stop := by
    rw [← isLast]
    exact next_seq_eq bound
  have base : (reopen image last { backend with store := store } addr).base = backend.base := rfl
  have numbers : (reopen image last { backend with store := store } addr).ckptNumbers =
      backend.super := by
    simp [Tx.ckptNumbers, reopen, ckpts]
  have atMost : ∀ c ∈ backend.super, c ≤ backend.base := by
    intro c member
    cases newest : backend.super.getLast? with
    | none =>
        rw [List.getLast?_eq_none_iff.mp newest] at member
        cases member
    | some greatest =>
        rw [Backend.base_eq newest]
        exact le_last isSealed.increasing newest c member
  refine ⟨by rw [curSeq, base]; exact remains.started, ?_, rfl, curSeq.ge, by simp [reopen],
    by simp [reopen], ?_, ?_, ?_, remains.origin, ?_⟩
  · intro x
    rw [curSeq]
    exact (reopens.located x).symm
  · intro n after earlier
    rw [curSeq] at earlier
    obtain ⟨obj, present, layer⟩ := remains.layers n after earlier
    refine .inr ⟨⟨by omega, ?_⟩, obj, (same n (by omega)).trans present, layer⟩
    rw [numbers]
    intro listed
    have := atMost n listed
    omega
  · intro n after earlier x q mapped
    rw [curSeq] at earlier
    obtain ⟨lower, upper, isData⟩ := remains.data n after earlier x q mapped
    exact ⟨lower, upper, by omega, by rw [numbers]; exact isData⟩
  · intro n after high earlier
    rw [curSeq] at earlier
    obtain rfl : n = stop := le_antisymm earlier high
    refine ⟨_, rfl, ?_⟩
    intro x
    have view : view n = locate image.objmap := (funext reopens.located).symm
    simp only [view]
    exact holds x
  · refine ⟨ckpts.symm, ?_, ?_, by simp [reopen]⟩
    · change image.ckpts.Pairwise _
      rw [ckpts]
      exact isSealed.increasing
    · intro c member
      have listed : c ∈ backend.super := ckpts ▸ member
      obtain ⟨obj, present, written⟩ := remains.saved c listed
      have := before c listed
      exact ⟨obj, (same c this).trans present, by omega, written⟩

theorem launched (remains : Remains uuid zero since stop view backend)
    (isSealed : Sealed uuid backend) (short : Short window backend) (uuidBound : uuid < 2 ^ 128)
    {crc32 : Bytes → ℕ} {cfg : Config} (small : cfg.objBytes < 2 ^ 31)
    (atLeast : window ≤ cfg.window) (limit : cfg.window * 4 ≤ 2 ^ 31) {last : ℕ}
    (recovered : recover cfg.window backend.super backend.store = some (.ok (image, last, store)))
    (addr : ℤ) :
    (reopen image last { backend with store := store } addr).Durable (cfg.env crc32 uuid) zero
      ⟨[], imageContent zero store image.objmap, []⟩ := by
  have found := recover_cases recovered
  have restored := isSealed.restored uuidBound found
  have bound := restored.bound
  have reopens := remains.reopens short uuidBound recovered
  have same := kept found bound limit
  have holds := (remains.recovers reopens same).2
  have guarded := restored.guarded isSealed addr (found.deletes isSealed restored limit).2
  have next : nextSeq last = last + 1 := next_seq_eq bound
  have curSeq : (reopen image last { backend with store := store } addr).curSeq = stop := by
    rw [← reopens.last]
    exact next
  obtain ⟨s, objmap, info, intact⟩ := reopens.intact
  have mapsIntact : (reopen image last { backend with store := store } addr).maps.Intact
      (reopen image last { backend with store := store } addr).curSeq := by
    rw [curSeq]
    exact intact.of_eq objmap info
  have opened : (reopen image last { backend with store := store } addr).Opened zero
      (imageContent zero store image.objmap) := by
    refine ⟨⟨mapsIntact.consistent, mapsIntact.below, rfl, ⟨rfl, rfl⟩, rfl, rfl, rfl, rfl, ?_⟩,
      holds⟩
    intro n member
    have isCkpt : n ∈ (reopen image last { backend with store := store } addr).ckptNumbers :=
      List.mem_append_left _ member
    refine ⟨guarded.separate.taken n isCkpt, ?_, ?_, by simp [reopen]⟩
    · intro x q mapped isCheckpoint
      have data := remains.data stop remains.started (le_refl _) x q
        ((reopens.located x).symm.trans mapped)
      rw [isCheckpoint, Int.toNat_natCast, ← restored.ckpts] at data
      exact data.2.2 member
    · by_contra present
      obtain ⟨oi, listed⟩ := Option.ne_none_iff_exists'.mp present
      exact (guarded.separate.names.listed n oi listed).2 isCkpt
  refine ⟨opened.good ⟨uuidBound, small⟩, ⟨by simp [reopen], by simp [reopen]⟩, guarded,
    Lineage.reopened_dense isSealed limit found addr, ?_, mapsIntact,
    ⟨0, view, fun _ => 0, stop⟩, opened.timed, rfl,
    remains.linked isSealed restored reopens same addr⟩
  intro n obj present
  have := Lineage.Short.early short isSealed atLeast found n obj present
  change n < nextSeq last
  omega

end Remains

end LsvdRbd.Lifecycle
