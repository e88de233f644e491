import LsvdRbd.Session.Coverage

/-!
# Cleaning moves data unchanged

A request of garbage collection carries, for every address that the map still
gives to the object it was read from, the sector that the map designates there.
So `write_gc` changes where sectors are, and not what they are. When a cleaned
object is deleted, neither the map nor the newest checkpoint refers to it.
-/

namespace LsvdRbd.Session

open Records RunList ExtentMap Format Translate Recovery Machine

set_option autoImplicit false

variable {σ : Type*} {env : Env}

/-! ## The temporary file -/

variable {objs : List (ℕ × ℕ)}

theorem temp_file_sector (store : Store σ) (buf : ℕ → ℕ → σ) {o : ℕ}
    (listed : ∃ entry ∈ objs, entry.1 = o) :
    ∃ start n, fileMap objs o = some start ∧ (o, n) ∈ objs ∧ ∀ k < n,
      (tempFile store buf objs)[start + k]? = some (copied store buf o k) := by
  induction objs with
  | nil =>
      obtain ⟨entry, member, -⟩ := listed
      cases member
  | cons first rest ih =>
      obtain ⟨first, length⟩ := first
      have head : tempFile store buf ((first, length) :: rest) =
          (List.range length).map (copied store buf first) ++ tempFile store buf rest :=
        List.flatMap_cons
      rw [head]
      by_cases here : first = o
      · subst here
        refine ⟨0, length, by simp [fileMap], by simp, ?_⟩
        intro k inside
        rw [zero_add, List.getElem?_append_left (by simpa using inside), List.getElem?_map,
          List.getElem?_range inside, Option.map_some]
      · obtain ⟨entry, member, same⟩ := listed
        obtain ⟨start, n, found, inRest, sectors⟩ := ih ⟨entry, by
          rcases List.mem_cons.mp member with rfl | later
          · exact absurd same here
          · exact later, same⟩
        refine ⟨length + start, n, ?_, by simp [inRest], ?_⟩
        · rw [fileMap, if_neg (by omega), found]
          rfl
        · intro k inside
          rw [List.getElem?_append_right (by simp; omega), ← sectors k inside]
          congr 1
          simp
          omega

theorem read_extent_sector {file : List σ} {e : Extent ObjOffset} {pair : Extent ObjOffset × List σ}
    (read : readExtent file objs e = some pair) {k : ℕ} (inside : k < e.len.toNat) :
    pair.2[k]? = file[(fileMap objs e.ptr.obj).getD 0 + e.ptr.offset.toNat + k]? := by
  obtain ⟨data, sectors, rfl⟩ := Option.map_eq_some_iff.mp read
  have pairs := Machine.map_m_eq_some_iff.mp sectors
  have length := pairs.length_eq
  rw [List.length_range] at length
  have here := pairs.get (by simpa using inside) (by omega : k < data.length)
  simp only [List.get_eq_getElem, List.getElem_range] at here
  exact (List.getElem?_eq_getElem _).trans here.symm

/-! ## What a request carries -/

def Gc.moving : Gc σ → Bool
  | .sending _ _ | .stopped => true
  | _ => false

namespace Tx

variable {s s' mid : Tx σ}

/-- The object's PUT is done, and if the map still gives the address to it, then
this is the sector. -/
def Backs (s : Tx σ) (o x : ℤ) (sector : Option σ) : Prop :=
  o < s.curSeq ∧ (∀ put ∈ s.inflight, (put.seq : ℤ) ≠ o) ∧
    ∀ p, locate s.maps.objmap x = some p → p.obj = o →
      ∃ obj, s.object p.obj.toNat = some obj ∧ dataSector obj p.offset = sector

theorem Backs.step {o x : ℤ} {sector : Option σ} (backs : s.Backs o x sector) (moves : Moves s s')
    (objects : ∀ x p, locate s.maps.objmap x = some p →
      s'.object p.obj.toNat = s.object p.obj.toNat) : s'.Backs o x sector := by
  have numbers := moves.numbers
  obtain ⟨older, landed, found⟩ := backs
  refine ⟨by omega, ?_, ?_⟩
  · intro put member
    rcases moves.flying put member with old | new
    · exact landed put old
    · omega
  intro p located same
  rcases moves.mapped x p located with old | new
  · rw [objects x p old]
    exact found p old same
  · omega

/-- What a request has for an address is in place of its entry's data. -/
def Carries (s : Tx σ) (entries : List MapEntry) (data : List σ) : Prop :=
  ∀ before e after, entries = before ++ e :: after → ∀ x, e.lba ≤ x → x < e.lba + e.len →
    s.Backs e.obj x data[(sectors (entryRanges before) + (x - e.lba)).toNat]?

def Loaded (s : Tx σ) (pair : Extent ObjOffset × List σ) : Prop :=
  ∀ x, pair.1.Contains x → s.Backs pair.1.ptr.obj x pair.2[(x - pair.1.base).toNat]?

def Lengths (s : Tx σ) (objs : List (ℕ × ℕ)) : Prop :=
  ∀ entry ∈ objs, ∃ oi : ObjInfo, s.maps.info[entry.1]? = some oi ∧
    entry.2 = (oi.hdr + oi.data).toNat

/-- An address that is still mapped to its object is where the snapshot has it. -/
def Frozen (s : Tx σ) (objs : List (ℕ × ℕ)) (live : List (Extent ObjOffset)) : Prop :=
  ∀ x p, get live x = some p → p.obj < s.curSeq ∧ (∃ entry ∈ objs, (entry.1 : ℤ) = p.obj) ∧
    ∀ q, locate s.maps.objmap x = some q → q.obj = p.obj → q = p

structure Carried (s : Tx σ) : Prop where
  requests : ∀ entries data, Work.gc entries data ∈ s.queue →
    s.gc.moving = true ∧ s.Carries entries data
  phase : match s.gc with
    | .selected _ objs => s.Lengths objs
    | .snapshot objs live => s.Lengths objs ∧ s.Frozen objs live
    | .sending _ left => ∀ pair ∈ left, s.Loaded pair
    | _ => True

theorem Lengths.step (lengths : s.Lengths objs) (lists : Lists s s') :
    s'.Lengths objs := by
  intro entry member
  obtain ⟨oi, present, length⟩ := lengths entry member
  obtain ⟨oi', kept, hdr, data⟩ := lists entry.1 oi present
  exact ⟨oi', kept, by rw [length, hdr, data]⟩

theorem Frozen.step {live : List (Extent ObjOffset)} (frozen : s.Frozen objs live)
    (moves : Moves s s') : s'.Frozen objs live := by
  have numbers := moves.numbers
  intro x p found
  obtain ⟨older, listed, same⟩ := frozen x p found
  refine ⟨by omega, listed, ?_⟩
  intro q located sameObj
  rcases moves.mapped x q located with old | new
  · exact same q old sameObj
  · omega

theorem Carried.step (carried : s.Carried) (moves : Moves s s') (lists : Lists s s')
    (objects : ∀ x p, locate s.maps.objmap x = some p →
      s'.object p.obj.toNat = s.object p.obj.toNat) (phase : s'.gc = s.gc)
    (queue : ∀ entries data, Work.gc entries data ∈ s'.queue → Work.gc entries data ∈ s.queue) :
    s'.Carried := by
  constructor
  · intro entries data member
    obtain ⟨moving, carries⟩ := carried.requests entries data (queue entries data member)
    refine ⟨phase ▸ moving, ?_⟩
    intro before e after split x low high
    exact (carries before e after split x low high).step moves objects
  · have before := carried.phase
    rw [phase]
    cases gc : s.gc with
    | selected maxObj objs =>
        rw [gc] at before
        exact before.step lists
    | snapshot objs live =>
        rw [gc] at before
        exact ⟨before.1.step lists, before.2.step moves⟩
    | sending objs left =>
        rw [gc] at before
        exact fun pair member x contains => (before pair member x contains).step moves objects
    | _ => trivial

def Stores (s : Tx σ) (e : Extent ObjOffset) : Prop :=
  ∀ i < e.len.toNat, ((s.store[e.ptr.obj.toNat]?).bind fun obj =>
    dataSector obj (e.ptr.offset + i)).isSome

instance (s : Tx σ) (e : Extent ObjOffset) : Decidable (s.Stores e) :=
  inferInstanceAs (Decidable (∀ i < e.len.toNat, _))

theorem load_backs (measured : s.maps.Measured) {live : List (Extent ObjOffset)}
    (ordered : Ordered live) (lengths : s.Lengths objs) (frozen : s.Frozen objs live)
    (returned : ∀ entry ∈ objs, s.sent entry.1 = none) {pair : Extent ObjOffset × List σ}
    (inLive : pair.1 ∈ live) (within : Within pair.1) (stores : s.Stores pair.1) {buf : ℕ → ℕ → σ}
    (read : readExtent (tempFile s.store buf objs) objs pair.1 = some pair) : s.Loaded pair := by
  intro x contains
  obtain ⟨low, high⟩ := contains
  have limit : pair.1.limit = pair.1.base + pair.1.len := rfl
  obtain ⟨older, ⟨entry, member, sameObj⟩, same⟩ := frozen x _
    ((get_eq_some_iff ordered x _).mpr ⟨pair.1, inLive, ⟨low, high⟩, rfl⟩)
  rw [vadd_obj] at older sameObj
  refine ⟨older, ?_, ?_⟩
  · intro put flying isPut
    have absent := returned entry member
    rw [sent, List.find?_eq_none] at absent
    exact absent put flying (by simp only [decide_eq_true_eq]; omega)
  intro p located pObj
  obtain rfl := same p located (by rw [pObj, vadd_obj])
  obtain ⟨start, n, place, listed, file⟩ := temp_file_sector s.store buf ⟨entry, member, rfl⟩
  obtain ⟨oi, present, length⟩ := lengths (entry.1, n) listed
  have number : ((x - pair.1.base) +ᵥ pair.1.ptr).obj.toNat = entry.1 := by
    rw [vadd_obj]
    omega
  have inside := measured.inside x _ oi located (by rw [number]; exact present)
  have offsetLower := within.offset
  rw [vadd_offset] at inside
  have inExtent : (x - pair.1.base).toNat < pair.1.len.toNat := by omega
  have sector := read_extent_sector read inExtent
  have here := file (pair.1.ptr.offset + (x - pair.1.base)).toNat (by simp only at length; omega)
  rw [← sameObj, place, Option.getD_some] at sector
  rw [show start + (pair.1.ptr.offset + (x - pair.1.base)).toNat =
    start + pair.1.ptr.offset.toNat + (x - pair.1.base).toNat by omega, ← sector] at here
  obtain ⟨value, stored⟩ := Option.isSome_iff_exists.mp (stores _ inExtent)
  obtain ⟨obj, present, data⟩ := Option.bind_eq_some_iff.mp stored
  rw [vadd_obj] at number
  rw [number] at present
  refine ⟨obj, ?_, ?_⟩
  · rw [vadd_obj, number, object, returned entry member]
    exact present
  · have offset : ((pair.1.ptr.offset + (x - pair.1.base)).toNat : ℤ) =
        pair.1.ptr.offset + (x - pair.1.base).toNat := by omega
    have same_sector : copied s.store buf entry.1 (pair.1.ptr.offset + (x - pair.1.base)).toNat =
        value := by
      rw [copied, present, Option.bind_some, offset, data, Option.getD_some]
    rw [here, same_sector, ← data, vadd_offset]
    congr 1
    omega

theorem submit_carries {taken : List (Extent ObjOffset × List σ)}
    (ordered : Ordered (taken.map Prod.fst))
    (lengths : ∀ e ∈ taken, Within e.1 ∧ (e.2.length : ℤ) = e.1.len)
    (loaded : ∀ pair ∈ taken, s.Loaded pair) :
    s.Carries (gcEntries taken) (taken.flatMap Prod.snd) := by
  intro before e after split x low high
  rw [gc_entries_eq ordered fun e member => (lengths e member).1] at split
  obtain ⟨front, back, rfl, rfl, rest⟩ := List.map_eq_append_iff.mp split
  obtain ⟨pair, later, rfl, rfl, -⟩ := List.map_eq_cons_iff.mp rest
  have inTaken : pair ∈ front ++ pair :: later := by simp
  have total := flat_data_length fun e (member : e ∈ front) =>
    (lengths e (by simp [member])).2
  have ranges : entryRanges (front.map fun e =>
      (⟨e.1.base, e.1.len, e.1.ptr.obj, e.1.ptr.offset⟩ : MapEntry)) =
        front.map fun e => (e.1.base, e.1.len) := by
    rw [entryRanges, List.map_map]
    rfl
  have length := (lengths pair inTaken).2
  have backs := loaded pair inTaken x ⟨low, high⟩
  simp only at low high ⊢
  have place : ((front ++ pair :: later).flatMap Prod.snd)[(sectors (entryRanges (front.map fun e =>
      (⟨e.1.base, e.1.len, e.1.ptr.obj, e.1.ptr.offset⟩ : MapEntry))) +
        (x - pair.1.base)).toNat]? = pair.2[(x - pair.1.base).toNat]? := by
    rw [ranges, total, List.flatMap_append, List.getElem?_append_right (by omega),
      List.flatMap_cons, List.getElem?_append_left (by omega)]
    congr 1
    omega
  rw [place]
  exact backs

end Tx

/-- The backend has every object that a cycle reads, with the extents that it moves. -/
def ReadsBack (s : Tx σ) : Action σ → Prop
  | .gcLoad _ => match s.gc with
      | .snapshot objs live => (∀ entry ∈ objs, (s.sent entry.1).isNone) ∧ ∀ e ∈ live, s.Stores e
      | _ => True
  | _ => True

instance (s : Tx σ) (a : Action σ) : Decidable (ReadsBack s a) := by
  unfold ReadsBack
  induction a using Action.casesOn with
  | gcLoad buf => induction s.gc using Gc.casesOn <;> infer_instance
  | _ => infer_instance

namespace Tx

variable {s s' mid : Tx σ}

theorem Carried.none (carried : s.Carried) (still : s.gc.moving = false) :
    ∀ entries data, Work.gc entries data ∉ s.queue := by
  intro entries data member
  have := (carried.requests entries data member).1
  rw [still] at this
  cases this

theorem Carried.of_none (none : ∀ entries data, Work.gc entries data ∉ s'.queue)
    (phase : match s'.gc with
      | .selected _ objs => s'.Lengths objs
      | .snapshot objs live => s'.Lengths objs ∧ s'.Frozen objs live
      | .sending _ left => ∀ pair ∈ left, s'.Loaded pair
      | _ => True) : s'.Carried :=
  ⟨fun entries data member => absurd member (none entries data), phase⟩

theorem frozen_snapshot (ok : s.Ok env) (maxObj : ℤ) (objs : List (ℕ × ℕ)) :
    s.Frozen objs (liveExtents s.maps.objmap maxObj objs).extents := by
  intro x p found
  obtain ⟨-, located⟩ := live_extents_spec ok.consistent.sound maxObj objs
  change locate (liveExtents s.maps.objmap maxObj objs) x = some p at found
  rw [located, Option.filter_eq_some_iff, decide_eq_true_iff] at found
  obtain ⟨mapped, -, listed⟩ := found
  refine ⟨ok.below.mapped x p mapped, listed, ?_⟩
  intro q here _
  exact Option.some.inj (here.symm.trans mapped)

theorem lengths_select {objs : List ℕ} {lastCkpt : ℕ}
    (allowed : ∀ o ∈ objs, selectable env s.maps.info lastCkpt o) :
    s.Lengths (withLengths s.maps.info objs) := by
  intro entry member
  obtain ⟨o, picked, rfl⟩ := List.mem_map.mp member
  obtain ⟨oi, present⟩ := selectable_listed (allowed o picked)
  refine ⟨oi, present, ?_⟩
  simp only [Std.ExtTreeMap.getD_eq_getD_getElem?, present, Option.getD_some]

theorem Collected.carried {a : Action σ} (collected : Collected env s a s') (ok : s.Ok env)
    (measured : s.maps.Measured) (returned : ReadsBack s a) (carried : s.Carried) :
    s'.Carried := by
  have none : s.gc.moving = false → ∀ entries data, Work.gc entries data ∉ s.queue :=
    carried.none
  have before := carried.phase
  have phaseOk := ok.phase
  cases collected with
  | start phase => exact .of_none (none (by rw [phase]; rfl)) trivial
  | dead phase => exact .of_none (none (by rw [phase]; rfl)) trivial
  | reap phase member => exact .of_none (none (by rw [phase]; rfl)) trivial
  | erase phase => exact .of_none (none (by rw [phase]; rfl)) trivial
  | bound phase => exact .of_none (none (by rw [phase]; rfl)) trivial
  | select phase distinct few allowed =>
      rename_i maxObj lastCkpt objs
      refine .of_none (none (by rw [phase]; rfl)) ?_
      by_cases empty : objs.length = 0
      · simp only [if_pos empty]
      · simp only [if_neg empty]
        exact lengths_select allowed
  | snapshot phase =>
      rename_i maxObj objs
      rw [phase] at before
      exact .of_none (none (by rw [phase]; rfl)) ⟨before, frozen_snapshot ok maxObj objs⟩
  | load phase loaded =>
      rename_i objs live left
      rw [phase] at before phaseOk
      simp only [ReadsBack, phase] at returned
      obtain ⟨same, each⟩ := loaded_spec loaded
      refine .of_none (none (by rw [phase]; rfl)) ?_
      intro pair member
      have inLive : pair.1 ∈ live := same ▸ List.mem_map_of_mem member
      exact load_backs measured phaseOk.1 before.1 before.2
        (fun entry inObjs => Option.isNone_iff_eq_none.mp (returned.1 entry inObjs)) inLive
        (phaseOk.2 pair.1 inLive) (returned.2 pair.1 inLive) (each pair member)
  | submit phase more =>
      rename_i objs left
      rw [phase] at before phaseOk
      have split := next_request_split (env.objBytes / 512 : ℕ) 0 left
      have sublist : (nextRequest (env.objBytes / 512 : ℕ) 0 left).1.Sublist left := by
        conv_rhs => rw [← split]
        exact List.sublist_append_left _ _
      constructor
      · intro entries data member
        refine ⟨rfl, ?_⟩
        rcases List.mem_append.mp member with old | new
        · exact (carried.requests entries data old).2
        · obtain ⟨rfl, rfl⟩ : entries = _ ∧ data = _ := by simpa using new
          exact submit_carries (phaseOk.1.sublist (sublist.map Prod.fst))
            (fun e member => phaseOk.2 e (sublist.mem member))
            fun pair member => before pair (sublist.mem member)
      · intro pair member
        exact before pair (split ▸ List.mem_append_right _ member)
  | done phase quiet =>
      refine .of_none ?_ trivial
      intro entries data member
      simp only [gcQuiet, Bool.and_eq_true, List.all_eq_true] at quiet
      have := quiet.1 _ member
      cases this
  | checkpoint phase rolled =>
      refine .of_none ?_ trivial
      have quiet := none (by rw [phase]; rfl)
      intro entries data member
      cases rolled with
      | same => simp [quiet] at member
      | queued addr clear => simp [quiet] at member
  | delete phase => exact .of_none (none (by rw [phase]; rfl)) trivial
  | finish phase => exact .of_none (none (by rw [phase]; rfl)) trivial
  | stop may => exact ⟨fun entries data member => ⟨rfl, (carried.requests entries data member).2⟩,
      trivial⟩
  | stopErased phase =>
      exact ⟨fun entries data member => ⟨rfl, (carried.requests entries data member).2⟩, trivial⟩

theorem Rolled.requests_kept (rolled : Rolled env s mid) : ∀ entries data,
    Work.gc entries data ∈ mid.queue → Work.gc entries data ∈ s.queue := by
  cases rolled with
  | same => exact fun _ _ member => member
  | queued addr clear =>
      intro entries data member
      simpa using member

theorem Stepped.carried {a : Action σ} (stepped : Stepped env s a s') (ok : s.Ok env)
    (envOk : env.Ok) (reserved : Reserved s) (measured : s.maps.Measured) (inRange : InRange s a)
    (returned : ReadsBack s a) (carried : s.Carried) : s'.Carried := by
  have moves := stepped.moves ok envOk inRange
  have added : ∀ {mid : Tx σ} {item : Work σ}, Rolled env s mid → item.isGc = false →
      ∀ entries data, Work.gc entries data ∈ mid.queue ++ [item] →
        Work.gc entries data ∈ s.queue := by
    intro mid item rolled plain entries data member
    rcases List.mem_append.mp member with old | new
    · exact rolled.requests_kept entries data old
    · rw [← List.mem_singleton.mp new] at plain
      cases plain
  have others : a.forgets = false → s.deletes a = [] → s'.gc = s.gc →
      (∀ entries data, Work.gc entries data ∈ s'.queue → Work.gc entries data ∈ s.queue) →
      s'.Carried := by
    intro keeps noDelete phase queue
    exact carried.step moves (stepped.lists ok inRange keeps)
      (stepped.objects_kept ok reserved (by rw [noDelete]; simp)) phase queue
  cases stepped with
  | write rolled nonempty room =>
      exact others rfl rfl rolled.frame.2.2.2.2.1 rolled.requests_kept
  | flush rolled => exact others rfl rfl rolled.frame.2.2.2.2.1 (added rolled rfl)
  | checkpoint rolled => exact others rfl rfl rolled.frame.2.2.2.2.1 (added rolled rfl)
  | flushThread rolled => exact others rfl rfl rolled.frame.2.2.2.2.1 rolled.requests_kept
  | trim done => exact others rfl rfl rfl fun _ _ member => member
  | complete member => exact others rfl rfl rfl fun _ _ member => member
  | work free worked =>
      have popped : ∀ {item : Work σ} {rest : List (Work σ)}, s.queue = item :: rest →
          ∀ entries data, Work.gc entries data ∈ rest → Work.gc entries data ∈ s.queue :=
        fun head entries data member => by
          rw [head]
          exact List.mem_cons_of_mem _ member
      cases worked with
      | put head done => exact others rfl rfl rfl (popped head)
      | gc head done => exact others rfl rfl rfl (popped head)
      | ckpt head done => exact others rfl rfl rfl (popped head)
      | flush head quiet => exact others rfl rfl rfl (popped head)
  | ckpt busy done =>
      have queue : ∀ entries data, Work.gc entries data ∈ s'.queue →
          Work.gc entries data ∈ s.queue := by
        rw [done.frame.2.2.2.1]
        exact fun _ _ member => member
      cases done with
      | object stage => exact others rfl rfl rfl queue
      | superblock stage => exact others rfl rfl rfl queue
      | delete stage => exact others rfl rfl rfl queue
      | done stage phase moved =>
          rcases moved with ⟨rfl, -⟩ | ⟨objs, -, waits, rfl⟩
          · exact others rfl rfl rfl queue
          · exact .of_none (carried.none (by rw [waits]; rfl)) trivial
  | collect collected => exact collected.carried ok measured returned carried

/-! ## What `write_gc` does to the content -/

/-- Every address designates what it did; it stays where it is, or an entry of the
request has moved it to the new object. -/
theorem designates_send {zero : σ} (ok : s.Ok env) (envOk : env.Ok) (bound : s.curSeq < 2 ^ 31)
    {entries : List MapEntry} {data : List σ} {rest : List (Work σ)} {maps : Maps} {obj : Obj σ}
    (head : s.queue = .gc entries data :: rest) (carried : s.Carried)
    (done : writeGc env.crc32 env.uuid s.curSeq entries data s.maps = some (maps, obj)) (x : ℤ) :
    (locate maps.objmap x = locate s.maps.objmap x ∨
        ∃ e ∈ entries, e.lba ≤ x ∧ x < e.lba + e.len ∧ ∃ p q, locate s.maps.objmap x = some p ∧
          p.obj = e.obj ∧ locate maps.objmap x = some q ∧ q.obj = s.curSeq) ∧
      ∀ value, s.Designates zero x value ↔
        (s.send rest none maps obj).Designates zero x value := by
  obtain ⟨request, -⟩ := ok.queued (.gc entries data) (by simp [head])
  obtain ⟨emits, copied⟩ := write_gc_emits ok.consistent.sound request envOk.uuid bound done
  have laid := emits.locate_eq x
  unfold Designates
  rw [show (s.send rest none maps obj).maps = maps from rfl]
  rw [overlay] at laid
  cases written : lastIndex (pieceRanges (revalidate s.maps.objmap entries data)) x with
  | none =>
      rw [written] at laid
      simp only at laid
      refine ⟨.inl laid, ?_⟩
      intro value
      rw [laid]
      cases found : locate s.maps.objmap x with
      | none => rfl
      | some p =>
          have older := ok.below.mapped x p found
          have bounds := ok.consistent.sound.bounds found
          simp only [object_send ok]
          rw [if_neg (by omega)]
  | some i =>
      rw [written] at laid
      simp only at laid
      obtain ⟨before, e, after, p, split, low, high, found, sameObj, sector⟩ :=
        revalidate_sector ok.consistent.sound request written
      have inside := last_index_bounds emits.proper written
      refine ⟨.inr ⟨e, by simp [split], low, high, p, _, found, sameObj, laid, rfl⟩, ?_⟩
      intro value
      obtain ⟨-, -, backs⟩ :=
        (carried.requests entries data (by simp [head])).2 before e after split x low high
      obtain ⟨old, object, sameSector⟩ := backs p found sameObj
      have header : obj.hdr.length / 512 =
          hdrSectorsFor (revalidate s.maps.objmap entries data).length := by
        rw [emits.header]
        omega
      -- the new object has the sector that the request carries
      have moved : dataSector obj (hdrSectorsFor (revalidate s.maps.objmap entries data).length + i) =
          dataSector old p.offset := by
        rw [dataSector, header, if_pos (by omega), copied, sameSector, ← sector]
        congr 1
        omega
      rw [found, laid]
      simp only [object_send ok, Int.toNat_natCast, if_true, object, Option.some.injEq,
        exists_eq_left', moved]

end Tx

/-! ## The checkpoint before the deletes -/

def Work.gcCkpt : Work σ → ℕ
  | .ckpt true => 1
  | _ => 0

def Gc.waits : Gc σ → ℕ
  | .waiting _ => 1
  | _ => 0

def Avoids (objs : List ℕ) (maps : Maps) : Prop :=
  ∀ o ∈ objs, ∀ x p, locate maps.objmap x = some p → p.obj ≠ (o : ℕ)

namespace Tx

variable {s s' mid : Tx σ}

def gcCkpts (s : Tx σ) : ℕ :=
  (s.queue.map Work.gcCkpt).sum + match s.ckpting with
    | some c => c.byGc.toNat
    | none => 0

def Alone (s : Tx σ) : Prop := s.gcCkpts = s.gc.waits

theorem Rolled.gcCkpts (rolled : Rolled env s mid) : mid.gcCkpts = s.gcCkpts := by
  cases rolled with
  | same => rfl
  | queued addr clear => simp [Tx.gcCkpts, Work.gcCkpt]

theorem Rolled.alone (rolled : Rolled env s mid) (alone : s.Alone) : mid.Alone := by
  rw [Alone, rolled.gcCkpts, rolled.frame.2.2.2.2.1]
  exact alone

theorem alone_enqueue (alone : s.Alone) {item : Work σ} (other : item.gcCkpt = 0) :
    Alone { s with queue := s.queue ++ [item] } := by
  unfold Alone Tx.gcCkpts at alone ⊢
  simpa [other] using alone

variable {a : Action σ}

theorem Collected.alone (collected : Collected env s a s') (alone : s.Alone) :
    s'.Alone := by
  unfold Alone at alone ⊢
  cases collected with
  | submit phase more =>
      rw [phase] at alone
      simpa [Tx.gcCkpts, Work.gcCkpt, Gc.waits] using alone
  | checkpoint phase rolled =>
      rw [phase, ← rolled.gcCkpts] at alone
      simp only [Tx.gcCkpts, Gc.waits, List.map_append, List.map_cons, List.map_nil,
        List.sum_append, List.sum_singleton, Work.gcCkpt] at alone ⊢
      omega
  | select phase distinct few allowed =>
      rw [phase] at alone
      simp only
      split <;> exact alone
  | stop may =>
      have still : s.gc.waits = 0 := by
        cases gc : s.gc <;> rw [gc] at may <;> first | rfl | cases may
      exact alone.trans still
  | start phase => rw [phase] at alone; exact alone
  | dead phase => rw [phase] at alone; exact alone
  | reap phase member => rw [phase] at alone; exact alone
  | erase phase => rw [phase] at alone; exact alone
  | bound phase => rw [phase] at alone; exact alone
  | snapshot phase => rw [phase] at alone; exact alone
  | load phase loaded => rw [phase] at alone; exact alone
  | done phase quiet => rw [phase] at alone; exact alone
  | delete phase => rw [phase] at alone; exact alone
  | finish phase => rw [phase] at alone; exact alone
  | stopErased phase => rw [phase] at alone; exact alone

theorem Stepped.alone (stepped : Stepped env s a s') (alone : s.Alone) :
    s'.Alone := by
  cases stepped with
  | write rolled nonempty room => exact rolled.alone alone
  | flush rolled => exact alone_enqueue (rolled.alone alone) rfl
  | checkpoint rolled => exact alone_enqueue (rolled.alone alone) rfl
  | flushThread rolled => exact rolled.alone alone
  | trim done => exact alone
  | complete member => exact alone
  | collect collected => exact collected.alone alone
  | work free worked =>
      unfold Alone Tx.gcCkpts at alone ⊢
      cases worked with
      | put head done => simpa [send, head, free, Work.gcCkpt] using alone
      | gc head done => simpa [send, head, free, Work.gcCkpt] using alone
      | ckpt head done =>
          rename_i byGc rest obj
          rw [head, free] at alone
          cases byGc with
          | true =>
              simp only [List.map_cons, List.sum_cons, Work.gcCkpt, Bool.toNat_true] at alone ⊢
              omega
          | false => simpa [Work.gcCkpt] using alone
      | flush head quiet => simpa [head, free, Work.gcCkpt] using alone
  | ckpt busy done =>
      rename_i c
      unfold Alone Tx.gcCkpts at alone ⊢
      rw [busy] at alone
      cases done with
      | object stage => exact alone
      | superblock stage => exact alone
      | delete stage => exact alone
      | done stage phase moved =>
          rcases moved with ⟨rfl, other⟩ | ⟨objs, byGc, waits, rfl⟩
          · cases mine : c.byGc with
            | false => simpa [mine] using alone
            | true =>
                simp only [mine] at alone
                cases gc : s.gc with
                | waiting objs => exact absurd gc (other mine objs)
                | _ =>
                    rw [gc] at alone
                    simp [Gc.waits] at alone
          · simp only [byGc, waits, Gc.waits, Bool.toNat_true] at alone ⊢
            omega

def Spares (env : Env) (objs : List ℕ) (c : ℕ) (obj : Obj σ) : Prop :=
  (∀ o ∈ objs, o < c) ∧ ∀ s : Tx σ, Written env (fun _ => Avoids objs) s c obj

theorem Spares.fewer {objs rest : List ℕ} {c : ℕ} {obj : Obj σ} (spares : Spares env objs c obj)
    (fewer : ∀ o ∈ rest, o ∈ objs) : Spares env rest c obj :=
  ⟨fun o member => spares.1 o (fewer o member), fun s => (spares.2 s).imp
    fun _ avoids o member => avoids o (fewer o member)⟩

/-- The checkpoint that garbage collection waits for refers to none of its
objects, and later the newest one does not. -/
def Forgotten (env : Env) (s : Tx σ) : Prop :=
  match s.gc with
  | .waiting objs => ∀ c, s.ckpting = some c → c.byGc = true →
      Spares env (objs.map Prod.fst) c.seq c.obj
  | .deleting left => (∀ c, s.ckpting = some c → Spares env left c.seq c.obj) ∧
      ∃ c obj, s.super.getLast? = some c ∧ s.store[c]? = some obj ∧ Spares env left c obj
  | _ => True

theorem Forgotten.of_same (forgotten : s.Forgotten env) (published : Published env (fun _ _ => True) s)
    (phase : s'.gc = s.gc) (ckpting : s'.ckpting = s.ckpting) (super : s'.super = s.super)
    (stored : ∀ n ∈ s.ckptNumbers, s'.store[n]? = s.store[n]?) : s'.Forgotten env := by
  unfold Forgotten at forgotten ⊢
  rw [phase, ckpting, super]
  cases gc : s.gc with
  | waiting objs =>
      rw [gc] at forgotten
      exact forgotten
  | deleting left =>
      rw [gc] at forgotten
      obtain ⟨writing, c, obj, newest, present, spares⟩ := forgotten
      have number : c ∈ s.ckptNumbers := by
        rw [published.super] at newest
        exact List.mem_append_left _ (List.mem_of_getLast? newest)
      exact ⟨writing, c, obj, newest, by rw [stored c number]; exact present, spares⟩
  | _ => trivial

/-- A checkpoint made while the objects are gone spares them. -/
theorem spares_now {objs : List ℕ} {obj : Obj σ} (ok : s.Ok env) (bound : s.curSeq < 2 ^ 31)
    (gone : ∀ o ∈ objs, s.Gone o) (done : checkpointObject env.uuid s.curSeq s.maps = some obj) :
    Spares env objs s.curSeq obj :=
  ⟨fun o member => (gone o member).given, fun _ => ⟨bound, s.maps, done, ok.consistent, ok.below,
    fun o member _ _ found => (gone o member).unmapped found⟩⟩

theorem Worked.forgotten (worked : Worked env s s') (ok : s.Ok env) (bound : s.curSeq < 2 ^ 31)
    (covers : s.Covers) (published : Published env (fun _ _ => True) s)
    (forgotten : s.Forgotten env) : s'.Forgotten env := by
  cases worked with
  | put head done => exact forgotten.of_same published rfl rfl rfl fun _ _ => rfl
  | gc head done => exact forgotten.of_same published rfl rfl rfl fun _ _ => rfl
  | flush head quiet => exact forgotten.of_same published rfl rfl rfl fun _ _ => rfl
  | ckpt head done =>
      unfold Forgotten at forgotten ⊢
      unfold Covers at covers
      simp only
      cases gc : s.gc with
      | waiting objs =>
          rw [gc] at covers
          intro c same _
          cases same
          refine spares_now ok bound ?_ done
          intro o member
          obtain ⟨entry, inObjs, rfl⟩ := List.mem_map.mp member
          exact covers entry inObjs
      | deleting left =>
          rw [gc] at covers forgotten
          obtain ⟨-, c, obj, newest, present, spares⟩ := forgotten
          refine ⟨?_, c, obj, newest, present, spares⟩
          intro c same
          cases same
          exact spares_now ok bound covers done
      | _ => trivial

theorem Forgotten.restage (forgotten : s.Forgotten env) {c c' : Ckpt σ} (busy : s.ckpting = some c)
    (phase : s'.gc = s.gc) (ckpting : s'.ckpting = some c')
    (same : c'.seq = c.seq ∧ c'.obj = c.obj ∧ c'.byGc = c.byGc)
    (newest : ∀ left, s.gc = .deleting left → ∃ n obj, s'.super.getLast? = some n ∧
      s'.store[n]? = some obj ∧ Spares env left n obj) : s'.Forgotten env := by
  unfold Forgotten at forgotten ⊢
  rw [phase]
  cases gc : s.gc with
  | waiting objs =>
      rw [gc] at forgotten
      intro other isOther byGc
      cases ckpting.symm.trans isOther
      rw [same.1, same.2.1]
      exact forgotten c busy (same.2.2.symm.trans byGc)
  | deleting left =>
      rw [gc] at forgotten
      refine ⟨?_, newest left gc⟩
      intro other isOther
      cases ckpting.symm.trans isOther
      rw [same.1, same.2.1]
      exact forgotten.1 c busy
  | _ => trivial

theorem Checkpointed.forgotten {c : Ckpt σ} (done : Checkpointed s c s')
    (busy : s.ckpting = some c) (published : Published env (fun _ _ => True) s)
    (forgotten : s.Forgotten env) : s'.Forgotten env := by
  have progress := published.writing c busy
  have super := published.super
  have before := forgotten
  unfold Progress at progress
  unfold Forgotten at before
  cases done with
  | object stage =>
      rw [stage] at progress
      refine forgotten.restage busy rfl rfl ⟨rfl, rfl, rfl⟩ ?_
      intro left gc
      rw [gc] at before
      obtain ⟨-, n, obj, newest, present, spares⟩ := before
      have older := progress.1 n (List.mem_of_getLast? (super ▸ newest))
      refine ⟨n, obj, newest, ?_, spares⟩
      simp only [table_insert]
      rw [if_neg (by omega)]
      exact present
  | superblock stage =>
      rw [stage] at progress
      refine forgotten.restage busy rfl rfl ⟨rfl, rfl, rfl⟩ ?_
      intro left gc
      rw [gc] at before
      exact ⟨c.seq, c.obj, keep_three_last _ _, progress.2.2, before.1 c busy⟩
  | delete stage =>
      rename_i o rest
      rw [stage] at progress
      refine forgotten.restage busy rfl rfl ⟨rfl, rfl, rfl⟩ ?_
      intro left gc
      rw [gc] at before
      obtain ⟨-, n, obj, newest, present, spares⟩ := before
      have older := progress.1 o (by simp) n (List.mem_of_getLast? (super ▸ newest))
      refine ⟨n, obj, newest, ?_, spares⟩
      simp only [table_erase]
      rw [if_neg (by omega)]
      exact present
  | done stage phase moved =>
      rw [stage] at progress
      unfold Forgotten
      rcases moved with ⟨rfl, -⟩ | ⟨objs, byGc, waits, rfl⟩
      · simp only
        cases gc : s.gc with
        | waiting objs => simp
        | deleting left =>
            rw [gc] at before
            obtain ⟨-, n, obj, newest, present, spares⟩ := before
            exact ⟨by simp, n, obj, newest, present, spares⟩
        | _ => trivial
      · rw [waits] at before
        refine ⟨by simp, c.seq, c.obj, ?_, progress.2.2, before c busy byGc⟩
        simp only
        rw [super]
        exact progress.2.1

theorem Collected.forgotten (collected : Collected env s a s') (ordinary : Ordinary s)
    (alone : s.Alone) (published : Published env (fun _ _ => True) s) (forgotten : s.Forgotten env)
    : s'.Forgotten env := by
  have stored := collected.stored ordinary
  cases collected with
  | checkpoint phase rolled =>
      rename_i objs addr mid
      have ckpting : mid.ckpting = s.ckpting := rolled.checkpoints.2.2.1
      unfold Forgotten
      intro c busy byGc
      -- no other checkpoint of garbage collection is being written
      unfold Alone at alone
      simp only [ckpting] at busy
      simp [Tx.gcCkpts, busy, byGc, phase, Gc.waits] at alone
  | delete phase =>
      rename_i o rest
      unfold Forgotten at forgotten ⊢
      rw [phase] at forgotten
      obtain ⟨writing, n, obj, newest, present, spares⟩ := forgotten
      have number : n ∈ s.ckptNumbers := by
        rw [published.super] at newest
        exact List.mem_append_left _ (List.mem_of_getLast? newest)
      have fewer : ∀ other ∈ rest, other ∈ o :: rest := fun other => List.mem_cons_of_mem o
      exact ⟨fun c busy => (writing c busy).fewer fewer, n, obj, newest,
        by rw [stored n number]; exact present, spares.fewer fewer⟩
  | select phase distinct few allowed =>
      rename_i maxObj lastCkpt objs
      by_cases empty : objs.length = 0
      · simp only [Forgotten, if_pos empty]
      · simp only [Forgotten, if_neg empty]
  | _ => trivial

theorem Stepped.forgotten (stepped : Stepped env s a s') (valid : s.Valid env)
    (inRange : InRange s a) (covers : s.Covers) (alone : s.Alone)
    (published : Published env (fun _ _ => True) s) (forgotten : s.Forgotten env) :
    s'.Forgotten env := by
  have rolls : ∀ {mid : Tx σ}, Rolled env s mid → ∀ t : Tx σ, t.gc = mid.gc →
      t.ckpting = mid.ckpting → t.super = mid.super → t.store = mid.store → t.Forgotten env := by
    intro mid rolled t gc ckpting super store
    obtain ⟨-, midSuper, midCkpting, midStore⟩ := rolled.checkpoints
    exact forgotten.of_same published (gc.trans rolled.frame.2.2.2.2.1) (ckpting.trans midCkpting)
      (super.trans midSuper) fun n _ => by rw [store, midStore]
  cases stepped with
  | write rolled nonempty room => exact rolls rolled _ rfl rfl rfl rfl
  | flush rolled => exact rolls rolled _ rfl rfl rfl rfl
  | checkpoint rolled => exact rolls rolled _ rfl rfl rfl rfl
  | flushThread rolled => exact rolls rolled _ rfl rfl rfl rfl
  | trim done => exact forgotten.of_same published rfl rfl rfl fun _ _ => rfl
  | complete member =>
      exact forgotten.of_same published rfl rfl rfl (land_stored (valid.reserved.apart _ member))
  | work free worked => exact worked.forgotten valid.ok inRange covers published forgotten
  | ckpt busy done => exact done.forgotten busy published forgotten
  | collect collected => exact collected.forgotten valid.ordinary alone published forgotten

end Tx

/-! ## Whole runs -/

def LoadsInRange (s : Tx σ) (a : Action σ) : Prop := InRange s a ∧ ReadsBack s a

instance (s : Tx σ) (a : Action σ) : Decidable (LoadsInRange s a) :=
  inferInstanceAs (Decidable (_ ∧ _))

def SelectsInRange (s : Tx σ) (a : Action σ) : Prop := InRange s a ∧ SelectsOld s a

instance (s : Tx σ) (a : Action σ) : Decidable (SelectsInRange s a) :=
  inferInstanceAs (Decidable (_ ∧ _))

structure Tx.Keeping (env : Env) (s : Tx σ) : Prop where
  valid : s.Valid env
  measured : s.maps.Measured
  carried : s.Carried

theorem Tx.Keeping.step {s s' : Tx σ} {a : Action σ} (keeping : s.Keeping env) (envOk : env.Ok)
    (allowed : LoadsInRange s a) (stepped : step env s a = some s') : s'.Keeping env := by
  obtain ⟨inRange, returned⟩ := allowed
  obtain ⟨valid, measured, carried⟩ := keeping
  have cases := step_cases stepped
  exact ⟨valid.step envOk cases inRange,
    (cases.remapped valid.ok envOk inRange).measured valid.ok measured,
    cases.carried valid.ok envOk valid.reserved measured inRange returned carried⟩

structure Tx.Sparing (env : Env) (s : Tx σ) : Prop where
  valid : s.Valid env
  covers : s.Covers
  alone : s.Alone
  published : s.Published env fun _ _ => True
  forgotten : s.Forgotten env

theorem Tx.Sparing.step {s s' : Tx σ} {a : Action σ} (sparing : s.Sparing env) (envOk : env.Ok)
    (allowed : SelectsInRange s a) (stepped : step env s a = some s') : s'.Sparing env := by
  obtain ⟨inRange, old⟩ := allowed
  obtain ⟨valid, covers, alone, published, forgotten⟩ := sparing
  have cases := step_cases stepped
  exact ⟨valid.step envOk cases inRange, cases.covers valid.ok envOk inRange old covers,
    cases.alone alone, cases.published valid.ok inRange valid.reserved valid.ordinary
      (fun _ _ => trivial) (fun _ _ _ _ => trivial) published,
    cases.forgotten valid inRange covers alone published forgotten⟩

theorem Tx.AtRest.keeping {s : Tx σ} (opened : s.AtRest)
    (envOk : env.Ok) (measured : s.maps.Measured) : s.Keeping env := by
  refine ⟨opened.valid envOk, measured, ?_, ?_⟩
  · simp [opened.queue]
  · simp only [opened.gc]

theorem Tx.AtRest.sparing {s : Tx σ} (opened : s.AtRest)
    (envOk : env.Ok) (published : s.Published env fun _ _ => True) : s.Sparing env := by
  refine ⟨opened.valid envOk, opened.covers, ?_, published, ?_⟩
  · simp [Alone, gcCkpts, opened.queue, opened.ckpting, opened.gc, Gc.waits]
  · simp only [Forgotten, opened.gc]

/-- In every run whose reads of the backend return its objects, every `write_gc`
leaves each address with the content it had, in its place or moved by an entry of
the request. If besides every selected object was there when its cycle started,
then neither the map nor the newest checkpoint refers to a cleaned object that is
about to be deleted. -/
theorem cleaning_preserves_content (zero : σ) {s t : Tx σ} {acts : List (Action σ)}
    (envOk : env.Ok) (opened : s.AtRest) (measured : s.maps.Measured)
    (published : s.Published env fun _ _ => True)
    (along : Along (step env) LoadsInRange s acts) (ran : run (step env) s acts = some t) :
    (∀ entries data rest u, t.queue = .gc entries data :: rest → t.curSeq < 2 ^ 31 →
      step env t .work = some u → ∀ x,
        (locate u.maps.objmap x = locate t.maps.objmap x ∨
          ∃ e ∈ entries, e.lba ≤ x ∧ x < e.lba + e.len ∧ ∃ p q, locate t.maps.objmap x = some p ∧
            p.obj = e.obj ∧ locate u.maps.objmap x = some q ∧ q.obj = t.curSeq) ∧
        ∀ value, t.Designates zero x value ↔ u.Designates zero x value) ∧
      (Along (step env) SelectsInRange s acts → ∀ o rest, t.gc = .deleting (o :: rest) →
        (∀ x p, locate t.maps.objmap x = some p → p.obj ≠ o) ∧
        ∃ c image, t.super.getLast? = some c ∧
          readFromCheckpoint t.store[c]? ⟨Extmap.empty, ∅, []⟩ = .ok image ∧
          ∀ x p, locate image.objmap x = some p → p.obj ≠ o) := by
  constructor
  · obtain ⟨valid, -, carried⟩ := invariant_along
      (fun _ _ _ keeping allowed stepped => Tx.Keeping.step keeping envOk allowed stepped)
      (opened.keeping envOk measured) along ran
    intro entries data rest u head bound stepped x
    cases Tx.step_cases stepped with
    | work free worked =>
        cases worked with
        | gc isHead done =>
            obtain ⟨⟨rfl, rfl⟩, rfl⟩ := by simpa [head] using isHead
            exact Tx.designates_send valid.ok envOk bound head carried done x
        | put isHead done => simp [head] at isHead
        | ckpt isHead done => simp [head] at isHead
        | flush isHead quiet => simp [head] at isHead
    | collect collected => cases collected
  · intro selects
    obtain ⟨-, covers, -, -, forgotten⟩ := invariant_along
      (fun _ _ _ sparing allowed stepped => Tx.Sparing.step sparing envOk allowed stepped)
      (opened.sparing envOk published) selects ran
    intro o rest phase
    unfold Tx.Covers at covers
    unfold Tx.Forgotten at forgotten
    rw [phase] at covers forgotten
    obtain ⟨-, c, obj, newest, present, spares⟩ := forgotten
    obtain ⟨maps, image, avoids, -, -, read, -, located, -⟩ := (spares.2 t).read envOk []
    refine ⟨fun x p found => (covers o (by simp)).unmapped found, c, image, newest,
      by rw [present]; exact read, ?_⟩
    intro x p found
    rw [located] at found
    exact avoids o (by simp) x p found

def deletingRun : List (Action ℕ) :=
  cleaningRun ++ [.gcDone, .gcCheckpoint 0, .work, .ckptStep, .ckptStep, .ckptStep]

def Gc.toDelete : Gc σ → Option (List ℕ)
  | .deleting left => some left
  | _ => none

theorem Gc.to_delete_eq_some_iff {gc : Gc σ} {left : List ℕ} :
    gc.toDelete = some left ↔ gc = .deleting left := by
  cases gc <;> simp [toDelete]

theorem cleaning_preserves_content_delete : ∃ t c image,
    run (step smallEnv) (Tx.create 1000000) deletingRun = some t ∧ t.super.getLast? = some c ∧
      readFromCheckpoint t.store[c]? ⟨Extmap.empty, ∅, []⟩ = .ok image ∧
      (∀ x p, locate t.maps.objmap x = some p → p.obj ≠ (1 : ℕ)) ∧
      ∀ x p, locate image.objmap x = some p → p.obj ≠ (1 : ℕ) := by
  obtain ⟨t, ran, phase⟩ := Option.map_eq_some_iff.mp (by decide +kernel :
    (run (step smallEnv) (Tx.create 1000000) deletingRun).map (fun t => t.gc.toDelete) =
      some (some [1]))
  have deleting : t.gc = .deleting [1] := Gc.to_delete_eq_some_iff.mp phase
  obtain ⟨unmapped, c, image, newest, read, avoids⟩ := (cleaning_preserves_content 0 small_env_ok
    (Tx.create_at_rest 1000000) Maps.empty_measured (Tx.create_published _ _ _) (by decide +kernel)
    ran).2 (by decide +kernel) 1 [] deleting
  exact ⟨t, c, image, ran, newest, read, unmapped, avoids⟩

/-- The object that was selected too late is deleted while address 8 is mapped to
it. -/
theorem mapped_object_deleted :
    (run (step smallEnv) (Tx.create 1000000) (lateSelection ++ [.gcDone, .gcCheckpoint 0, .work,
      .ckptStep, .ckptStep, .ckptStep, .gcDelete])).map (fun t =>
        (locate t.maps.objmap 8, t.store.contains 2)) = some (some ⟨2, 8⟩, false) := by
  decide +kernel

end LsvdRbd.Session
