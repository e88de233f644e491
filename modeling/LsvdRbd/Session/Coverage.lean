import LsvdRbd.Session.Checkpoints

/-!
# What a garbage collection cycle removes

The live counts stay exact through every step. An object that a cycle reaps is
unmapped and stays so. Of the objects that a cycle cleans, every address is in
the snapshot, then in an extent that is still to be sent or in a queued request,
and in the end nowhere, provided that no selected object is newer than the start
of the cycle.
-/

namespace LsvdRbd.Session

open Records RunList ExtentMap Format Translate Recovery Machine

set_option autoImplicit false

variable {σ : Type*} {env : Env}

namespace Tx

variable {s s' mid : Tx σ}

/-! ## What a step does to the maps -/

/-- The object map is as it was, or some addresses are unmapped, or a new object
is laid over it. -/
inductive Remapped (env : Env) (s s' : Tx σ) : Prop
  | kept (objmap : s'.maps.objmap = s.maps.objmap)
      (info : ∀ (o : ℕ) (oi : ObjInfo), s'.maps.info[o]? = some oi → s.maps.info[o]? = some oi)
  | trimmed (sound : Sound s'.maps.objmap)
      (located : ∀ x p, locate s'.maps.objmap x = some p → locate s.maps.objmap x = some p)
      (table : ∀ o : ℕ, s'.maps.info[o]? = (s.maps.info[o]?).map fun oi =>
        { oi with live := owned o s'.maps.objmap.extents })
  | emitted {obj : Obj σ} {hdrSectors : ℕ} {ranges : Ranges}
      (emits : Emits env.uuid s.curSeq s.maps s'.maps obj hdrSectors ranges)
      (next : s.maps.Next s.curSeq hdrSectors obj.data.length s'.maps)

theorem Remapped.of_same (maps : s'.maps = s.maps) : Remapped env s s' :=
  .kept (by rw [maps]) (by rw [maps]; exact fun _ _ present => present)

theorem Worked.remapped (worked : Worked env s s') (ok : s.Ok env) (envOk : env.Ok)
    (bound : s.curSeq < 2 ^ 31) : Remapped env s s' := by
  cases worked with
  | put head done =>
      rename_i r rest maps obj
      have inBuffers := mem_buffers_of_queued head
      have proper := (ok.buffered.proper r inBuffers).proper
      obtain ⟨emits, data⟩ := process_batch_emits ok.consistent.sound proper envOk.uuid bound done
      have next := process_batch_next ok.consistent ok.below proper bound done
      rw [← data] at next
      exact .emitted emits next
  | gc head done =>
      rename_i entries data rest maps obj
      obtain ⟨request, apart⟩ := ok.queued (.gc entries data) (by simp [head])
      obtain ⟨emits, copied⟩ := write_gc_emits ok.consistent.sound request envOk.uuid bound done
      have next := write_gc_next ok.consistent ok.below request apart bound done
      rw [← copied] at next
      exact .emitted emits next
  | ckpt head done => exact .of_same rfl
  | flush head quiet => exact .of_same rfl

theorem Stepped.remapped {a : Action σ} (stepped : Stepped env s a s') (ok : s.Ok env)
    (envOk : env.Ok) (inRange : InRange s a) : Remapped env s s' := by
  cases stepped with
  | write rolled nonempty room => exact .of_same rolled.frame.1
  | flush rolled => exact .of_same rolled.frame.1
  | checkpoint rolled => exact .of_same rolled.frame.1
  | flushThread rolled => exact .of_same rolled.frame.1
  | trim done =>
      rename_i base limit maps
      obtain ⟨trimmed, same, consistent, -, located, table⟩ := trim_defined ok.consistent ok.below
        (by omega : (0 : ℤ) ≤ base) (by exact_mod_cast inRange.1 : (base : ℤ) ≤ limit)
        (by have := inRange.2; omega)
      cases done.symm.trans same
      refine .trimmed consistent.sound ?_ table
      intro x p found
      simp only at found
      rw [located] at found
      split at found
      · cases found
      · exact found
  | work free worked => exact worked.remapped ok envOk inRange
  | ckpt busy done => exact .of_same done.frame.1
  | complete member => exact .of_same rfl
  | collect collected =>
      obtain ⟨objmap, -, -, -, -, -, -, info⟩ := collected.frame
      exact .kept objmap info

theorem Remapped.measured (remapped : Remapped env s s') (ok : s.Ok env)
    (measured : s.maps.Measured) : s'.maps.Measured := by
  cases remapped with
  | kept objmap info => exact measured.erased objmap info
  | trimmed sound located table => exact measured.unmapped ok.consistent sound located table
  | emitted emits next => exact measured.emitted ok.consistent ok.below emits next

/-! ## Where the addresses of an object are -/

/-- The number has been given out, and every address mapped to it is one of
these. -/
structure Tracked (m : Objmap) (next o : ℕ) (among : ℤ → Prop) : Prop where
  given : o < next
  held : ∀ x p, locate m x = some p → p.obj = o → among x

variable {o : ℕ}

theorem Tracked.step {among among' : ℤ → Prop} (tracked : Tracked s.maps.objmap s.curSeq o among)
    (moves : Moves s s')
    (kept : ∀ x p, locate s'.maps.objmap x = some p → p.obj = o → among x → among' x) :
    Tracked s'.maps.objmap s'.curSeq o among' := by
  refine ⟨lt_of_lt_of_le tracked.given moves.numbers, ?_⟩
  intro x p found same
  rcases moves.mapped x p found with old | new
  · exact kept x p found same (tracked.held x p old same)
  · have := tracked.given
    omega

abbrev Gone (s : Tx σ) (o : ℕ) : Prop := Tracked s.maps.objmap s.curSeq o fun _ => False

theorem Tracked.gone_step (gone : Gone s o) (moves : Moves s s') : Gone s' o :=
  gone.step moves fun _ _ _ _ never => never

theorem Tracked.unmapped (gone : Gone s o) {x : ℤ} {p : ObjOffset}
    (found : locate s.maps.objmap x = some p) : p.obj ≠ o := fun same => gone.held x p found same

def Requested (s : Tx σ) (o : ℕ) (x : ℤ) : Prop :=
  ∃ entries data, Work.gc entries data ∈ s.queue ∧
    ∃ e ∈ entries, e.lba ≤ x ∧ x < e.lba + e.len ∧ e.obj = o

theorem Requested.mono {x : ℤ} (requested : Requested s o x)
    (queue : ∀ entries data, Work.gc entries data ∈ s.queue → Work.gc entries data ∈ s'.queue) :
    Requested s' o x := by
  obtain ⟨entries, data, member, e, inEntries, covers⟩ := requested
  exact ⟨entries, data, queue entries data member, e, inEntries, covers⟩

theorem Rolled.requests (rolled : Rolled env s mid) : ∀ entries data,
    Work.gc entries data ∈ s.queue → Work.gc entries data ∈ mid.queue := by
  cases rolled with
  | same => exact fun _ _ member => member
  | queued addr clear => exact fun _ _ member => List.mem_append_left _ member

/-- Where the objects of a cycle are at each stage of it. -/
def Covers (s : Tx σ) : Prop :=
  match s.gc with
  | .reaping _ dead left => (∀ o ∈ dead, s.Gone o) ∧ ∀ o ∈ left, o ∈ dead
  | .selected maxObj objs => ∀ entry ∈ objs, (entry.1 : ℤ) ≤ maxObj ∧ entry.1 < s.curSeq
  | .snapshot objs live => ∀ entry ∈ objs, Tracked s.maps.objmap s.curSeq entry.1 fun x =>
      ∃ e ∈ live, e.Contains x ∧ e.ptr.obj = entry.1
  | .sending objs left => ∀ entry ∈ objs, Tracked s.maps.objmap s.curSeq entry.1 fun x =>
      (∃ e ∈ left, e.1.Contains x ∧ e.1.ptr.obj = entry.1) ∨ s.Requested entry.1 x
  | .cleaned objs | .waiting objs => ∀ entry ∈ objs, s.Gone entry.1
  | .deleting left => ∀ o ∈ left, s.Gone o
  | _ => True

theorem Covers.step (covers : s.Covers) (moves : Moves s s') (phase : s'.gc = s.gc)
    (requested : ∀ o x p, o < s.curSeq → locate s'.maps.objmap x = some p → p.obj = (o : ℕ) →
      s.Requested o x → s'.Requested o x) : s'.Covers := by
  unfold Covers at covers ⊢
  rw [phase]
  cases gc : s.gc with
  | reaping maxObj dead left =>
      rw [gc] at covers
      exact ⟨fun o member => (covers.1 o member).gone_step moves, covers.2⟩
  | selected maxObj objs =>
      rw [gc] at covers
      intro entry member
      exact ⟨(covers entry member).1, lt_of_lt_of_le (covers entry member).2 moves.numbers⟩
  | snapshot objs live =>
      rw [gc] at covers
      exact fun entry member => (covers entry member).step moves fun _ _ _ _ held => held
  | sending objs left =>
      rw [gc] at covers
      intro entry member
      refine (covers entry member).step moves ?_
      intro x p found same held
      exact held.imp id (requested entry.1 x p (covers entry member).given found same)
  | cleaned objs =>
      rw [gc] at covers
      exact fun entry member => (covers entry member).gone_step moves
  | waiting objs =>
      rw [gc] at covers
      exact fun entry member => (covers entry member).gone_step moves
  | deleting left =>
      rw [gc] at covers
      exact fun o member => (covers o member).gone_step moves
  | idle => trivial
  | started maxObj => trivial
  | reaped maxObj => trivial
  | bounded maxObj lastCkpt => trivial
  | stopped => trivial

theorem Covers.step_queue (covers : s.Covers) (moves : Moves s s') (phase : s'.gc = s.gc)
    (queue : ∀ entries data, Work.gc entries data ∈ s.queue → Work.gc entries data ∈ s'.queue) :
    s'.Covers :=
  covers.step moves phase fun _ _ _ _ _ _ requested => requested.mono queue

/-- What `write_gc` has done leaves no address that its request covers. -/
theorem requested_send (ok : s.Ok env) (envOk : env.Ok) (bound : s.curSeq < 2 ^ 31)
    {entries : List MapEntry} {data : List σ} {rest : List (Work σ)} {maps : Maps} {obj : Obj σ}
    (head : s.queue = .gc entries data :: rest)
    (done : writeGc env.crc32 env.uuid s.curSeq entries data s.maps = some (maps, obj)) {x : ℤ}
    {p : ObjOffset} (found : locate maps.objmap x = some p) (same : p.obj = o)
    (older : o < s.curSeq) (requested : s.Requested o x) :
    (s.send rest none maps obj).Requested o x := by
  obtain ⟨request, -⟩ := ok.queued (.gc entries data) (by simp [head])
  obtain ⟨emits, -⟩ := write_gc_emits ok.consistent.sound request envOk.uuid bound done
  obtain ⟨others, bytes, member, e, inEntries, low, high, eObj⟩ := requested
  rw [head] at member
  rcases List.mem_cons.mp member with isHead | later
  · obtain ⟨rfl, rfl⟩ : others = entries ∧ bytes = data := by simpa using isHead
    -- the address has moved to the new object
    have laid := emits.locate_eq x
    rw [found, overlay] at laid
    split at laid
    · cases laid
      simp only at same
      omega
    · rename_i uncovered
      exact absurd (same.trans eObj.symm)
        ((revalidate_covers ok.consistent.sound request x).mp uncovered e inEntries low high p
          laid.symm)
  · exact ⟨others, bytes, later, e, inEntries, low, high, eObj⟩

end Tx

/-- Every selected object was there when the cycle started. -/
def SelectsOld (s : Tx σ) : Action σ → Prop
  | .gcSelect objs => match s.gc with
      | .bounded maxObj _ => ∀ o ∈ objs, (o : ℤ) ≤ maxObj
      | _ => True
  | _ => True

instance (s : Tx σ) (a : Action σ) : Decidable (SelectsOld s a) := by
  unfold SelectsOld
  induction a using Action.casesOn with
  | gcSelect objs => induction s.gc using Gc.casesOn <;> infer_instance
  | _ => infer_instance

namespace Tx

variable {s s' mid : Tx σ}

theorem dead_gone (ok : s.Ok env) {o : ℕ} (dead : o ∈ deadObjects s.maps.info) : s.Gone o := by
  obtain ⟨oi, present, empty⟩ := mem_dead_objects dead
  refine ⟨ok.below.listed o oi present, ?_⟩
  have count := ok.consistent.exact o oi present
  rw [empty] at count
  exact fun x p found same =>
    (owned_eq_zero_iff ok.consistent.sound o).mp count.symm x p found same

/-- The snapshot has every address of an object that was there in time. -/
theorem snapshot_tracked (ok : s.Ok env) {maxObj : ℤ} {objs : List (ℕ × ℕ)} {entry : ℕ × ℕ}
    (member : entry ∈ objs) (older : (entry.1 : ℤ) ≤ maxObj) (given : entry.1 < s.curSeq) :
    Tracked s.maps.objmap s.curSeq entry.1 fun x =>
      ∃ e ∈ (liveExtents s.maps.objmap maxObj objs).extents,
        e.Contains x ∧ e.ptr.obj = entry.1 := by
  refine ⟨given, ?_⟩
  intro x p found same
  obtain ⟨sound, located⟩ := live_extents_spec ok.consistent.sound maxObj objs
  have live : locate (liveExtents s.maps.objmap maxObj objs) x = some p := by
    rw [located, found, Option.filter_some, if_pos]
    exact decide_eq_true ⟨by omega, entry, member, same.symm⟩
  obtain ⟨e, inLive, contains, rfl⟩ := (get_eq_some_iff sound.ordered x p).mp live
  exact ⟨e, inLive, contains, same⟩

theorem submit_tracked (ok : s.Ok env) {objs : List (ℕ × ℕ)}
    {left : List (Extent ObjOffset × List σ)} (phase : s.gc = .sending objs left) {o : ℕ} {x : ℤ}
    (held : (∃ e ∈ left, e.1.Contains x ∧ e.1.ptr.obj = o) ∨ s.Requested o x) (max : ℤ) :
    (∃ e ∈ (nextRequest max 0 left).2, e.1.Contains x ∧ e.1.ptr.obj = o) ∨
      Requested { s with
        queue := s.queue ++ [.gc (gcEntries (nextRequest max 0 left).1)
          ((nextRequest max 0 left).1.flatMap Prod.snd)] } o x := by
  obtain ⟨ordered, within⟩ : Ordered (left.map Prod.fst) ∧
      ∀ e ∈ left, Within e.1 ∧ (e.2.length : ℤ) = e.1.len := by
    have phaseOk := ok.phase
    rw [phase] at phaseOk
    exact phaseOk
  have split := next_request_split max 0 left
  rcases held with ⟨e, member, contains, sameObj⟩ | requested
  · rw [← split, List.mem_append] at member
    rcases member with taken | later
    · right
      have sublist : (nextRequest max 0 left).1.Sublist left := by
        conv_rhs => rw [← split]
        exact List.sublist_append_left _ _
      have entries := gc_entries_eq (ordered.sublist (sublist.map Prod.fst))
        fun e member => (within e (sublist.mem member)).1
      refine ⟨_, _, List.mem_append_right _ (List.mem_singleton_self _),
        ⟨e.1.base, e.1.len, e.1.ptr.obj, e.1.ptr.offset⟩, ?_, contains.1, contains.2, sameObj⟩
      rw [entries]
      exact List.mem_map_of_mem taken
    · exact .inl ⟨e, later, contains, sameObj⟩
  · exact .inr (requested.mono fun _ _ member => List.mem_append_left _ member)

/-- Once no request is left, no address is. -/
theorem quiet_gone (quiet : s.gcQuiet = true) {o : ℕ}
    (tracked : Tracked s.maps.objmap s.curSeq o fun x =>
      (∃ e ∈ ([] : List (Extent ObjOffset × List σ)), e.1.Contains x ∧ e.1.ptr.obj = o) ∨
        s.Requested o x) : s.Gone o := by
  refine ⟨tracked.given, ?_⟩
  intro x p found same
  rcases tracked.held x p found same with ⟨e, member, -⟩ | ⟨entries, data, member, -⟩
  · cases member
  · simp only [gcQuiet, Bool.and_eq_true, List.all_eq_true] at quiet
    have := quiet.1 _ member
    cases this

theorem Collected.covers {a : Action σ} (collected : Collected env s a s') (ok : s.Ok env)
    (old : SelectsOld s a) (covers : s.Covers) : s'.Covers := by
  unfold Covers at covers
  cases collected with
  | start phase => trivial
  | dead phase => exact ⟨fun o member => dead_gone ok member, fun o member => member⟩
  | reap phase member =>
      rw [phase] at covers
      exact ⟨covers.1, fun o inLeft => covers.2 o (List.mem_of_mem_erase inLeft)⟩
  | erase phase => trivial
  | bound phase => trivial
  | select phase distinct few allowed =>
      rename_i maxObj lastCkpt objs
      simp only [SelectsOld, phase] at old
      by_cases empty : objs.length = 0
      · simp only [Covers, if_pos empty]
      · simp only [Covers, if_neg empty]
        intro entry member
        obtain ⟨o, picked, rfl⟩ := List.mem_map.mp member
        obtain ⟨oi, present⟩ := selectable_listed (allowed o picked)
        exact ⟨old o picked, ok.below.listed o oi present⟩
  | snapshot phase =>
      rw [phase] at covers
      intro entry member
      exact snapshot_tracked ok member (covers entry member).1 (covers entry member).2
  | load phase loaded =>
      rw [phase] at covers
      obtain ⟨same, -⟩ := loaded_spec loaded
      intro entry member
      refine ⟨(covers entry member).given, ?_⟩
      intro x p found sameObj
      obtain ⟨e, inLive, contains⟩ := (covers entry member).held x p found sameObj
      rw [← same] at inLive
      obtain ⟨pair, inLeft, rfl⟩ := List.mem_map.mp inLive
      exact .inl ⟨pair, inLeft, contains⟩
  | submit phase more =>
      rw [phase] at covers
      intro entry member
      refine ⟨(covers entry member).given, ?_⟩
      intro x p found sameObj
      exact submit_tracked ok phase ((covers entry member).held x p found sameObj) _
  | done phase quiet =>
      rw [phase] at covers
      exact fun entry member => quiet_gone quiet (covers entry member)
  | checkpoint phase rolled =>
      rw [phase] at covers
      obtain ⟨maps, -, -, numbers, -⟩ := rolled.frame
      intro entry member
      simp only [Gone]
      rw [maps, numbers]
      exact covers entry member
  | delete phase =>
      rw [phase] at covers
      exact fun o member => covers o (by simp [member])
  | finish phase => trivial
  | stop may => trivial
  | stopErased phase => trivial

theorem Worked.covers (worked : Worked env s s') (ok : s.Ok env) (envOk : env.Ok)
    (bound : s.curSeq < 2 ^ 31) (covers : s.Covers) : s'.Covers := by
  have moves := worked.moves ok envOk bound
  -- any other request leaves those of garbage collection in the queue
  have popped : ∀ {item : Work σ} {rest : List (Work σ)}, s.queue = item :: rest →
      item.isGc = false → ∀ entries data, Work.gc entries data ∈ s.queue →
        Work.gc entries data ∈ rest := by
    intro item rest head plain entries data member
    rw [head] at member
    rcases List.mem_cons.mp member with rfl | later
    · cases plain
    · exact later
  cases worked with
  | put head done => exact covers.step_queue moves rfl (popped head rfl)
  | gc head done =>
      refine covers.step moves rfl ?_
      intro o x p older found same requested
      exact requested_send ok envOk bound head done found same older requested
  | ckpt head done => exact covers.step_queue moves rfl (popped head rfl)
  | flush head quiet => exact covers.step_queue moves rfl (popped head rfl)

theorem Checkpointed.covers {c : Ckpt σ} (done : Checkpointed s c s') (moves : Moves s s')
    (covers : s.Covers) : s'.Covers := by
  have queue : ∀ entries data, Work.gc entries data ∈ s.queue → Work.gc entries data ∈ s'.queue := by
    rw [done.frame.2.2.2.1]
    exact fun _ _ member => member
  cases done with
  | object stage => exact covers.step_queue moves rfl queue
  | superblock stage => exact covers.step_queue moves rfl queue
  | delete stage => exact covers.step_queue moves rfl queue
  | done stage phase moved =>
      rcases moved with ⟨rfl, -⟩ | ⟨objs, -, waits, rfl⟩
      · exact covers.step_queue moves rfl queue
      · unfold Covers at covers
        rw [waits] at covers
        intro o member
        obtain ⟨entry, inObjs, rfl⟩ := List.mem_map.mp member
        exact covers entry inObjs

theorem Stepped.covers {a : Action σ} (stepped : Stepped env s a s') (ok : s.Ok env) (envOk : env.Ok)
    (inRange : InRange s a) (old : SelectsOld s a) (covers : s.Covers) : s'.Covers := by
  have moves := stepped.moves ok envOk inRange
  have rolls : ∀ {mid : Tx σ} (item : Work σ), Rolled env s mid → ∀ entries data,
      Work.gc entries data ∈ s.queue → Work.gc entries data ∈ mid.queue ++ [item] :=
    fun item rolled entries data member =>
      List.mem_append_left _ (rolled.requests entries data member)
  cases stepped with
  | write rolled nonempty room =>
      exact covers.step_queue moves rolled.frame.2.2.2.2.1 rolled.requests
  | flush rolled => exact covers.step_queue moves rolled.frame.2.2.2.2.1 (rolls _ rolled)
  | checkpoint rolled => exact covers.step_queue moves rolled.frame.2.2.2.2.1 (rolls _ rolled)
  | flushThread rolled => exact covers.step_queue moves rolled.frame.2.2.2.2.1 rolled.requests
  | trim done => exact covers.step_queue moves rfl fun _ _ member => member
  | complete member => exact covers.step_queue moves rfl fun _ _ member => member
  | collect collected => exact collected.covers ok old covers
  | work free worked => exact worked.covers ok envOk inRange covers
  | ckpt busy done => exact done.covers moves covers

end Tx

/-! ## What a cycle deletes -/

def Gc.doomed : Gc σ → List ℕ
  | .reaping _ dead _ => dead
  | .cleaned objs | .waiting objs => objs.map Prod.fst
  | .deleting left => left
  | _ => []

namespace Tx

variable {s s' : Tx σ}

theorem Covers.doomed (covers : s.Covers) : ∀ o ∈ s.gc.doomed, s.Gone o := by
  unfold Covers at covers
  intro o member
  cases gc : s.gc with
  | reaping maxObj dead left =>
      rw [gc] at covers member
      exact covers.1 o member
  | cleaned objs =>
      rw [gc] at covers member
      obtain ⟨entry, inObjs, rfl⟩ := List.mem_map.mp member
      exact covers entry inObjs
  | waiting objs =>
      rw [gc] at covers member
      obtain ⟨entry, inObjs, rfl⟩ := List.mem_map.mp member
      exact covers entry inObjs
  | deleting left =>
      rw [gc] at covers member
      exact covers o member
  | _ =>
      rw [gc] at member
      cases member

/-- Only doomed objects are deleted. -/
theorem Stepped.deletes_doomed {a : Action σ} (stepped : Stepped env s a s') (covers : s.Covers) :
    ∀ o ∈ s.deletes a, o ∈ s.gc.doomed := by
  intro o member
  unfold Covers at covers
  cases stepped with
  | collect collected =>
      cases collected with
      | reap phase inLeft =>
          rw [phase] at covers ⊢
          rw [List.mem_singleton.mp member]
          exact covers.2 _ inLeft
      | delete phase =>
          simp only [deletes, phase, List.mem_singleton] at member
          rw [phase, member]
          exact List.mem_cons_self
      | finish phase => simp [deletes, phase] at member
      | _ => cases member
  | _ => cases member

end Tx

/-! ## What leaves the table -/

def Action.forgets : Action σ → Bool
  | .gcErase | .gcDone | .gcStop _ => true
  | _ => false

namespace Tx

variable {s s' mid : Tx σ}

def Lists (s s' : Tx σ) : Prop :=
  ∀ (o : ℕ) (oi : ObjInfo), s.maps.info[o]? = some oi →
    ∃ oi' : ObjInfo, s'.maps.info[o]? = some oi' ∧ oi'.hdr = oi.hdr ∧ oi'.data = oi.data

theorem Lists.of_same (info : s'.maps.info = s.maps.info) : Lists s s' := by
  intro o oi present
  exact ⟨oi, by rw [info]; exact present, rfl, rfl⟩

theorem lists_next {hdrSectors dataSectors : ℕ} (ok : s.Ok env)
    (next : s.maps.Next s.curSeq hdrSectors dataSectors s'.maps) : Lists s s' := by
  intro o oi present
  have older := ok.below.listed o oi present
  refine ⟨{ oi with live := owned o s'.maps.objmap.extents }, ?_, rfl, rfl⟩
  rw [next.table, table_insert, if_neg (by omega), present, Option.map_some]

theorem Worked.lists (worked : Worked env s s') (ok : s.Ok env) (bound : s.curSeq < 2 ^ 31) :
    Lists s s' := by
  cases worked with
  | put head done =>
      rename_i r rest maps obj
      have inBuffers := mem_buffers_of_queued head
      exact lists_next ok (process_batch_next ok.consistent ok.below
        (ok.buffered.proper r inBuffers).proper bound done)
  | gc head done =>
      rename_i entries data rest maps obj
      obtain ⟨request, apart⟩ := ok.queued (.gc entries data) (by simp [head])
      exact lists_next ok (write_gc_next ok.consistent ok.below request apart bound done)
  | ckpt head done => exact .of_same rfl
  | flush head quiet => exact .of_same rfl

theorem Stepped.lists {a : Action σ} (stepped : Stepped env s a s') (ok : s.Ok env)
    (inRange : InRange s a) (keeps : a.forgets = false) : Lists s s' := by
  cases stepped with
  | write rolled nonempty room => exact .of_same (congrArg Maps.info rolled.frame.1)
  | flush rolled => exact .of_same (congrArg Maps.info rolled.frame.1)
  | checkpoint rolled => exact .of_same (congrArg Maps.info rolled.frame.1)
  | flushThread rolled => exact .of_same (congrArg Maps.info rolled.frame.1)
  | trim done =>
      rename_i base limit maps
      obtain ⟨trimmed, same, -, -, -, table⟩ := trim_defined ok.consistent ok.below
        (by omega : (0 : ℤ) ≤ base) (by exact_mod_cast inRange.1 : (base : ℤ) ≤ limit)
        (by have := inRange.2; omega)
      cases done.symm.trans same
      intro o oi present
      exact ⟨{ oi with live := owned o maps.objmap.extents },
        by rw [table, present, Option.map_some], rfl, rfl⟩
  | work free worked => exact worked.lists ok inRange
  | ckpt busy done => exact .of_same (by rw [done.frame.1])
  | complete member => exact .of_same rfl
  | collect collected =>
      cases collected with
      | erase phase => cases keeps
      | done phase quiet => cases keeps
      | stop may => cases keeps
      | stopErased phase => cases keeps
      | checkpoint phase rolled => exact .of_same (congrArg Maps.info rolled.frame.1)
      | _ => exact .of_same rfl

end Tx

/-- A stop that erases table entries finds all requests of its cycle done. -/
def StopsQuiet (s : Tx σ) : Action σ → Prop
  | .gcStop true => match s.gc with
      | .sending _ [] => s.gcQuiet = true
      | _ => True
  | _ => True

instance (s : Tx σ) (a : Action σ) : Decidable (StopsQuiet s a) := by
  unfold StopsQuiet
  induction a using Action.casesOn with
  | gcStop stop =>
      induction stop using Bool.casesOn <;> induction s.gc using Gc.casesOn with
      | sending objs left => induction left using List.casesOn <;> infer_instance
      | _ => infer_instance
  | _ => infer_instance

theorem Tx.Stepped.removed {s s' : Tx σ} {a : Action σ} (stepped : Stepped env s a s')
    (ok : s.Ok env) (inRange : InRange s a) (quiet : StopsQuiet s a) (covers : s.Covers) {o : ℕ}
    {oi : ObjInfo} (present : s.maps.info[o]? = some oi) (removed : s'.maps.info[o]? = none) :
    s.Gone o := by
  have erased : ∀ {objs : List ℕ} {maps : Maps}, maps.info = s.maps.info →
      (forget objs maps).info[o]? = none → o ∈ objs := by
    intro objs maps info absent
    by_contra other
    rw [forget_info, if_neg other, info, present] at absent
    cases absent
  cases forgets : a.forgets with
  | false =>
      obtain ⟨oi', kept, -⟩ := stepped.lists ok inRange forgets o oi present
      rw [kept] at removed
      cases removed
  | true =>
      unfold Covers at covers
      cases stepped with
      | collect collected =>
          cases collected with
          | erase phase =>
              rw [phase] at covers
              exact covers.1 o (erased rfl removed)
          | done phase done =>
              rw [phase] at covers
              obtain ⟨entry, member, rfl⟩ := List.mem_map.mp (erased rfl removed)
              exact quiet_gone done (covers entry member)
          | stopErased phase =>
              rw [phase] at covers
              simp only [StopsQuiet, phase] at quiet
              obtain ⟨entry, member, rfl⟩ := List.mem_map.mp (erased rfl removed)
              exact quiet_gone quiet (covers entry member)
          | stop may =>
              simp only at removed
              rw [present] at removed
              cases removed
          | _ => cases forgets
      | _ => cases forgets

/-! ## Whole runs -/

def Accountable (s : Tx σ) (a : Action σ) : Prop :=
  InRange s a ∧ SelectsOld s a ∧ StopsQuiet s a

instance (s : Tx σ) (a : Action σ) : Decidable (Accountable s a) :=
  inferInstanceAs (Decidable (_ ∧ _))

theorem Tx.AtRest.covers {s : Tx σ} (opened : s.AtRest) : s.Covers := by
  simp only [Covers, opened.gc]

/-- No assertion about a live count fails: every trim within the volume is carried
out, and so is every request whose object fits an `int`. -/
theorem Tx.Ok.counts_defined {s : Tx σ} (ok : s.Ok env) :
    (∀ base limit : ℕ, base ≤ limit → base < 2 ^ 35 → (s.trim base limit).isSome) ∧
      (∀ r rest, s.ckpting = none → s.queue = .put r :: rest → s.curSeq < 2 ^ 31 →
        (hdrSectorsFor r.entries.length + r.data.length) * 512 < 2 ^ 31 → (s.work env).isSome) ∧
      ∀ entries data rest, s.ckpting = none → s.queue = .gc entries data :: rest →
        s.curSeq < 2 ^ 31 →
        (hdrSectorsFor (revalidate s.maps.objmap entries data).length +
          ((revalidate s.maps.objmap entries data).flatMap Prod.snd).length) * 512 < 2 ^ 31 →
        (s.work env).isSome := by
  refine ⟨?_, ?_, ?_⟩
  · intro base limit order bound
    obtain ⟨maps, done, -⟩ := trim_defined ok.consistent ok.below (by omega : (0 : ℤ) ≤ base)
      (by exact_mod_cast order : (base : ℤ) ≤ limit) (by omega)
    rw [trim, done]
    rfl
  · intro r rest free head bound size
    have inBuffers := mem_buffers_of_queued head
    obtain ⟨maps, obj, done, -⟩ := process_batch_defined env.crc32 env.uuid ok.consistent ok.below
      (ok.buffered.proper r inBuffers).proper bound size
    simp only [work, free, head, done]
    rfl
  · intro entries data rest free head bound size
    obtain ⟨request, apart⟩ := ok.queued (.gc entries data) (by simp [head])
    obtain ⟨maps, obj, done, -⟩ := update_gc_defined env.crc32 env.uuid ok.consistent ok.below
      (piece_ranges_proper ok.consistent.sound request)
      (piece_ranges_apart ok.consistent.sound request apart) bound size
    simp only [work, free, head, writeGc, done]
    rfl

/-- After every run, the live count of every object in the table is the number of
addresses mapped to it, between zero and the size of its data, and no assertion
about a count fails. If the run never selects an object that is newer than the
start of its cycle, nor erases entries on a stop before all requests are done,
then only objects that no address is mapped to leave the table. -/
theorem live_counts_exact {s t : Tx σ} {acts : List (Action σ)}
    (envOk : env.Ok) (opened : s.AtRest) (measured : s.maps.Measured)
    (along : Along (step env) InRange s acts) (ran : run (step env) s acts = some t) :
    (∀ (o : ℕ) (oi : ObjInfo), t.maps.info[o]? = some oi →
      oi.live = ({x : ℤ | ∃ p, locate t.maps.objmap x = some p ∧ p.obj = o}.ncard : ℤ) ∧
        0 ≤ oi.live ∧ oi.live ≤ oi.data) ∧
      ((∀ base limit : ℕ, base ≤ limit → base < 2 ^ 35 → (t.trim base limit).isSome) ∧
        (∀ r rest, t.ckpting = none → t.queue = .put r :: rest → t.curSeq < 2 ^ 31 →
          (hdrSectorsFor r.entries.length + r.data.length) * 512 < 2 ^ 31 → (t.work env).isSome) ∧
        ∀ entries data rest, t.ckpting = none → t.queue = .gc entries data :: rest →
          t.curSeq < 2 ^ 31 →
          (hdrSectorsFor (revalidate t.maps.objmap entries data).length +
            ((revalidate t.maps.objmap entries data).flatMap Prod.snd).length) * 512 < 2 ^ 31 →
          (t.work env).isSome) ∧
      (Along (step env) Accountable s acts → ∀ a u, Accountable t a → step env t a = some u →
        ∀ (o : ℕ) (oi : ObjInfo), t.maps.info[o]? = some oi → u.maps.info[o]? = none →
        ∀ x p, locate t.maps.objmap x = some p → p.obj ≠ o) := by
  have keeps : ∀ (s : Tx σ) (a : Action σ) (next : Tx σ), s.Ok env ∧ s.maps.Measured →
      InRange s a → step env s a = some next → next.Ok env ∧ next.maps.Measured := by
    rintro s a next ⟨ok, measured⟩ inRange stepped
    have cases := Tx.step_cases stepped
    exact ⟨cases.ok ok inRange, (cases.remapped ok envOk inRange).measured ok measured⟩
  obtain ⟨ok, sizes⟩ := invariant_along keeps ⟨opened.ok envOk, measured⟩ along ran
  refine ⟨?_, ok.counts_defined, ?_⟩
  · intro o oi present
    have count := ok.consistent.exact o oi present
    have number := (owned_eq_ncard ok.consistent.sound o).1
    exact ⟨count.trans number, by omega, sizes.filled o oi present⟩
  · intro accountable
    have covering : ∀ (s : Tx σ) (a : Action σ) (next : Tx σ), s.Ok env ∧ s.Covers →
        Accountable s a → step env s a = some next → next.Ok env ∧ next.Covers := by
      rintro s a next ⟨ok, covers⟩ ⟨inRange, old, -⟩ stepped
      have cases := Tx.step_cases stepped
      exact ⟨cases.ok ok inRange, cases.covers ok envOk inRange old covers⟩
    obtain ⟨-, covers⟩ := invariant_along covering ⟨opened.ok envOk, opened.covers⟩ accountable ran
    rintro a u ⟨inRange, -, quiet⟩ stepped o oi present removed x p found
    exact ((Tx.step_cases stepped).removed ok inRange quiet covers present removed).unmapped found

def cleaningRun : List (Action ℕ) :=
  [.writev 8 [2, 3] 0, .flushThread 5000000, .work, .writev 9 [4] 0, .flushThread 9000000, .work,
    .complete 1, .complete 2, .gcStart, .gcDead, .gcErase, .gcBound, .gcSelect [1], .gcSnapshot,
    .gcLoad (fun _ _ => 0), .gcSubmit, .work, .complete 3]

theorem live_counts_exact_cleaning : ∃ t u,
    run (step smallEnv) (Tx.create 1000000) cleaningRun = some t ∧
      step smallEnv t .gcDone = some u ∧ t.maps.info[1]? = some ⟨8, 2, 0⟩ ∧
      u.maps.info[1]? = none ∧ ∀ x p, locate t.maps.objmap x = some p → p.obj ≠ (1 : ℕ) := by
  obtain ⟨t, ran, ended⟩ := (Option.any_eq_true _ _).mp
    (by decide +kernel : (run (step smallEnv) (Tx.create 1000000) cleaningRun).any (fun t =>
      decide (Accountable t .gcDone ∧ t.maps.info[1]? = some ⟨8, 2, 0⟩) &&
        (step smallEnv t .gcDone).any fun u => decide (u.maps.info[1]? = none)) = true)
  rw [Bool.and_eq_true, decide_eq_true_iff] at ended
  obtain ⟨⟨accountable, present⟩, next⟩ := ended
  obtain ⟨u, stepped, removed⟩ := (Option.any_eq_true _ _).mp next
  have exact := live_counts_exact small_env_ok (Tx.create_at_rest 1000000) Maps.empty_measured
    (by decide +kernel) ran
  exact ⟨t, u, ran, stepped, present, of_decide_eq_true removed,
    exact.2.2 (by decide +kernel) .gcDone u accountable stepped 1 _ present
      (of_decide_eq_true removed)⟩

def lateSelection : List (Action ℕ) :=
  [.gcStart, .writev 0 [1] 0, .flushThread 5000000, .work, .writev 8 [2, 3] 0, .flushThread 9000000,
    .work, .writev 9 [4] 0, .flushThread 13000000, .work, .complete 1, .complete 2, .complete 3,
    .gcDead, .gcErase, .gcBound, .gcSelect [2], .gcSnapshot, .gcLoad fun _ _ => 0]

/-- An object leaves the table while address 8 is mapped to it: one that was
selected too late, and one whose cycle is stopped while its request waits. -/
theorem mapped_object_leaves_table :
    (run (step smallEnv) (Tx.create 1000000) (lateSelection ++ [.gcDone])).map (fun t =>
        (locate t.maps.objmap 8, t.maps.info[2]?)) = some (some ⟨2, 8⟩, none) ∧
      (run (step smallEnv) (Tx.create 1000000) (cleaningRun.take 16 ++ [.gcStop true])).map (fun t =>
        (locate t.maps.objmap 8, t.maps.info[1]?)) = some (some ⟨1, 8⟩, none) := by
  decide +kernel

end LsvdRbd.Session
