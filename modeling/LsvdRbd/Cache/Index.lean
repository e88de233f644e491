import LsvdRbd.Cache.Steps

/-!
# The index of the read cache

`cache_map` leads from keys to chunks, and each entry has its key. `cache_map.insert`
keeps a mapping that is there, and an eviction erases the mapping of a key and not that
of a chunk. The two directions agree as long as no key is inserted that is in the map.
-/

namespace LsvdRbd.Cache

open Ledger Machine

set_option autoImplicit false

variable {β : Type*}

namespace Shard

def Indexed (s : Shard β) : Prop :=
  ∀ c, (s.entries c).status ≠ .empty → s.map (s.entries c).key = some c

def Mapped (s : Shard β) : Prop :=
  ∀ key c, s.map key = some c → (s.entries c).key = key ∧ (s.entries c).status ≠ .empty

/-- No key is inserted that is in the map. The key of a chunk that was never used is not
given to any other. -/
def Fresh (s : Shard β) : Event β → Prop
  | .read key _ _ => key ≠ Entry.unused.key
  | .insert key _ => key ≠ Entry.unused.key ∧ s.map key = none
  | _ => True

instance (s : Shard β) (event : Event β) : Decidable (s.Fresh event) := by
  cases event <;> unfold Fresh <;> infer_instance

def evicts (s : Shard β) : Event β → Option ℕ
  | .read key _ _ =>
      if s.map key = none then (s.allocateChunk.bind Except.toOption).map Prod.fst else none
  | .insert _ _ => (s.allocateChunk.bind Except.toOption).map Prod.fst
  | _ => none

/-! ## Both directions of the index -/

structure Index (s : Shard β) : Prop where
  ok : s.Consistent
  indexed : s.Indexed
  unused : ∀ c, (s.entries c).status = .empty → (s.entries c).key = Entry.unused.key
  reserved : s.map Entry.unused.key = none

variable {s t u : Shard β} {c : ℕ}

theorem start_index (size : ℕ) : (start size : Shard β).Index :=
  ⟨start_ok size, by simp [Indexed, start, Entry.unused], fun _ _ => rfl, rfl⟩

theorem Index.erased (index : s.Index) (took : s.Took c t) {key : Key} {d : ℕ} (other : d ≠ c)
    (mapped : s.map key = some d) : t.map key = some d := by
  rw [took.map, Function.update_of_ne]
  · exact mapped
  · rintro rfl
    by_cases empty : (s.entries c).status = .empty
    · rw [index.unused c empty, index.reserved] at mapped
      cases mapped
    · rw [index.indexed c empty] at mapped
      exact other (Option.some.inj mapped).symm

theorem Index.given {key : Key} {entry : Entry} {new : Req β} (index : s.Index)
    (took : s.Took c t) (unmapped : s.map key = none) (real : key ≠ Entry.unused.key)
    (status : entry.status ≠ .empty) (keyed : entry.key = key)
    (ok : (((t.setEntry c entry).mapInsert key c).addReq new).Consistent) :
    (((t.setEntry c entry).mapInsert key c).addReq new).Index := by
  have absent : t.map key = none := by
    rw [took.map]
    by_cases same : key = (s.entries c).key
    · rw [same, Function.update_self]
    · rw [Function.update_of_ne same, unmapped]
  have map : (((t.setEntry c entry).mapInsert key c).addReq new).map =
      Function.update t.map key (some c) := by
    simp [addReq, mapInsert, setEntry, absent]
  have entries : (((t.setEntry c entry).mapInsert key c).addReq new).entries =
      Function.update t.entries c entry := rfl
  refine ⟨ok, ?_, ?_, ?_⟩
  · intro d occupied
    rw [entries] at occupied ⊢
    rw [map]
    by_cases here : d = c
    · rw [here, Function.update_self, keyed, Function.update_self]
    · rw [Function.update_of_ne here] at occupied ⊢
      rw [took.status, if_neg here] at occupied
      have before := index.indexed d occupied
      rw [took.key, Function.update_of_ne]
      · exact index.erased took here before
      · intro same
        rw [same, unmapped] at before
        cases before
  · intro d empty
    rw [entries] at empty ⊢
    by_cases here : d = c
    · rw [here, Function.update_self] at empty
      exact absurd empty status
    · rw [Function.update_of_ne here] at empty ⊢
      rw [took.status, if_neg here] at empty
      rw [took.key]
      exact index.unused d empty
  · rw [map, Function.update_of_ne real.symm, took.map]
    by_cases same : Entry.unused.key = (s.entries c).key
    · rw [← same, Function.update_self]
    · rw [Function.update_of_ne same]
      exact index.reserved

theorem Index.kept {entry : Entry} (index : s.Index) (ok : t.Consistent) (map : t.map = s.map)
    (entries : t.entries = Function.update s.entries c entry)
    (key : entry.key = (s.entries c).key)
    (status : entry.status = .empty ↔ (s.entries c).status = .empty) : t.Index := by
  have same : ∀ d, (t.entries d).key = (s.entries d).key ∧
      ((t.entries d).status = .empty ↔ (s.entries d).status = .empty) := by
    intro d
    rw [entries]
    by_cases here : d = c
    · rw [here, Function.update_self]
      exact ⟨key, status⟩
    · rw [Function.update_of_ne here]
      exact ⟨rfl, Iff.rfl⟩
  refine ⟨ok, ?_, ?_, by rw [map]; exact index.reserved⟩
  · intro d occupied
    rw [map, (same d).1]
    exact index.indexed d fun empty => occupied ((same d).2.mpr empty)
  · intro d empty
    rw [(same d).1]
    exact index.unused d ((same d).2.mp empty)

theorem Moves.keeps {event : Event β} {id : ℕ} {old new : Req β} {entry : Entry}
    {stored : List β} (moves : Moves s id c event old new entry stored) (ok : s.Consistent)
    (found : s.reqs[id]? = some old) : entry.key = (s.entries c).key ∧
      (entry.status = .empty ↔ (s.entries c).status = .empty) := by
  have sound := ok.sound c
  have filling : old.uses c = true → entry.status ≠ .empty →
      (entry.status = .empty ↔ (s.entries c).status = .empty) := fun uses occupied =>
    iff_of_false occupied (sound.occupied found uses)
  cases moves with
  | runMiss r buf =>
      exact ⟨rfl, filling (by simp) (by simp)⟩
  | backendDone r buf data =>
      exact ⟨rfl, filling (by simp) (by simp)⟩
  | missDone r buf =>
      exact ⟨rfl, filling (by simp) (by simp)⟩
  | insertDone key buf =>
      exact ⟨rfl, filling (by simp) (by simp)⟩
  | _ => exact ⟨rfl, Iff.rfl⟩

theorem Index.next {event : Event β} (index : s.Index) (fresh : s.Fresh event)
    (stepped : s.next event = some t) : t.Index := by
  have ok := index.ok.next_consistent stepped
  cases next_cases stepped with
  | hit mapped valid => exact index.kept ok rfl rfl rfl Iff.rfl
  | direct mapped filling buffered => exact index.kept ok rfl rfl rfl Iff.rfl
  | wait mapped fetching => exact index.kept ok rfl rfl rfl Iff.rfl
  | miss unmapped allocated =>
      exact index.given (allocate_took allocated) unmapped fresh (by simp) rfl ok
  | insert allocated =>
      exact index.given (allocate_took allocated) fresh.2 fresh.1 (by simp) rfl ok
  | move found moves =>
      obtain ⟨key, status⟩ := moves.keeps index.ok found
      exact index.kept ok rfl rfl key status
  | dispatch found waiting => exact index.kept ok rfl rfl rfl Iff.rfl

end Shard

/-! ## What a key is served from -/

def Req.ServedFrom (c : ℕ) (data : List β) : Req β → Prop
  | .direct r => r.dest = (data.drop r.adjust).take r.len
  | .hit d r phase => d = c ∧
      (phase = .answered ∨ phase = .released → r.dest = (data.drop r.adjust).take r.len)
  | .pending _ _ _ _ | .miss _ _ _ _ => False
  | .insert _ _ _ _ => True

namespace Shard

def ReadsServed (key : Key) (data : List β) (c first : ℕ) (s : Shard β) : Prop :=
  ∀ (id : ℕ) (r : Req β), first < id → s.reqs[id]? = some r → ∀ read ∈ r.read, read.key = key →
    r.ServedFrom c data

structure Serves (key : Key) (data : List β) (c first : ℕ) (s : Shard β) : Prop where
  index : s.Index
  mapped : s.map key = some c
  inserted : ∃ phase, s.reqs[first]? = some (.insert c key data phase) ∧
    (phase = .released → (s.entries c).status = .valid ∧ s.store c = data)
  reads : s.ReadsServed key data c first

variable {s t : Shard β} {key : Key} {data : List β} {c first : ℕ}

/-- The data are in the buffer of the insertion, and then in the chunk. -/
theorem Serves.cases (serves : s.Serves key data c first) :
    (s.entries c).status = .filling ∧ (s.entries c).fill = some first ∧
        (s.reqs[first]?.bind Req.buffer) = some data ∨
      (s.entries c).status = .valid ∧ s.store c = data := by
  obtain ⟨phase, found, released⟩ := serves.inserted
  by_cases over_now : phase = .released
  · exact .inr (released over_now)
  · have uses : (Req.insert c key data phase).uses c = true := by
      simp [over_now]
    obtain ⟨fill, filling, -⟩ := (serves.index.ok.sound c).fits first _ found uses
    exact .inl ⟨filling, fill, by rw [found]; rfl⟩

theorem Serves.stored (serves : s.Serves key data c first)
    (valid : (s.entries c).status = .valid) : s.store c = data := by
  rcases serves.cases with ⟨filling, -⟩ | ⟨-, stored⟩
  · cases filling.symm.trans valid
  · exact stored

variable {event : Event β} {stored : List β} {old new : Req β}

theorem Moves.valid {id : ℕ} {entry : Entry} (moves : Moves s id c event old new entry stored)
    (ok : s.Consistent) (found : s.reqs[id]? = some old) (valid : (s.entries c).status = .valid) :
    entry.status = .valid ∧ stored = s.store c := by
  have idle : old.uses c = true → ¬ old.Fills := fun uses fills =>
    ((ok.sound c).filler found uses fills).2 valid
  cases moves with
  | runMiss r buf => exact absurd trivial (idle (by simp))
  | backendDone r buf data =>
      exact absurd trivial (idle (by simp))
  | missWritten r buf => exact absurd trivial (idle (by simp))
  | insertWritten key buf =>
      exact absurd trivial (idle (by simp))
  | missDone r buf => exact absurd trivial (idle (by simp))
  | insertDone key buf => exact absurd trivial (idle (by simp))
  | _ => exact ⟨valid, rfl⟩

variable {new : Req β}

theorem Serves.added (serves : s.Serves key data c first) (index : t.Index)
    (map : t.map key = some c) (reqs : t.reqs = s.reqs ++ [new])
    (status : (t.entries c).status = (s.entries c).status) (store : t.store c = s.store c)
    (served : ∀ read ∈ new.read, read.key = key → new.ServedFrom c data) :
    t.Serves key data c first := by
  obtain ⟨phase, found, released⟩ := serves.inserted
  obtain ⟨inside, -⟩ := List.getElem?_eq_some_iff.mp found
  refine ⟨index, map, ⟨phase, ?_, ?_⟩, ?_⟩
  · rw [reqs, add_lookup, if_neg (by omega), found]
  · rw [status, store]
    exact released
  · intro id r later at_id
    rw [reqs, add_lookup] at at_id
    split at at_id
    · cases at_id
      exact served
    · exact serves.reads id r later at_id

theorem Serves.given {d : ℕ} {other : Key} {entry : Entry} {u : Shard β}
    (serves : s.Serves key data c first) (took : s.Took d u) (elsewhere : d ≠ c)
    (unmapped : s.map other = none) (keyed : new.key = other)
    (index : (((u.setEntry d entry).mapInsert other d).addReq new).Index) :
    (((u.setEntry d entry).mapInsert other d).addReq new).Serves key data c first := by
  have different : key ≠ other := by
    rintro rfl
    rw [serves.mapped] at unmapped
    cases unmapped
  have mapped : u.map key = some c := serves.index.erased took elsewhere.symm serves.mapped
  refine serves.added index ?_ (by rw [← took.reqs]; rfl) ?_ ?_ ?_
  · show (if (u.map other).isSome then u.map else Function.update u.map other (some d)) key = _
    split
    · exact mapped
    · rw [Function.update_of_ne different, mapped]
  · show (Function.update u.entries d entry c).status = _
    rw [Function.update_of_ne elsewhere.symm, took.status, if_neg elsewhere.symm]
  · show u.store c = _
    rw [took.store]
  · intro read of same
    cases new with
    | insert e k buf phase => cases of
    | _ =>
        cases of
        exact absurd (same.symm.trans keyed) different

theorem Serves.insertion_moved {d : ℕ} {entry : Entry} {phase : FillPhase}
    (serves : s.Serves key data c first) (found : s.reqs[first]? = some (.insert c key data phase))
    (moves : Moves s first d event (.insert c key data phase) new entry stored) :
    ∃ phase', new = .insert c key data phase' ∧ d = c ∧
      (phase' = .released → entry.status = .valid ∧ stored = data) := by
  cases moves with
  | runInsert => exact ⟨.writing, rfl, rfl, by simp⟩
  | insertWritten => exact ⟨.written, rfl, rfl, by simp⟩
  | insertDone =>
      have uses : (Req.insert c key data .written).uses c = true := by
        simp
      obtain ⟨-, -, -, written⟩ := (serves.index.ok.sound c).fits first _ found uses
      exact ⟨.released, rfl, rfl, fun _ => ⟨rfl, written rfl⟩⟩

theorem Serves.read_moved {id d : ℕ} {entry : Entry} (serves : s.Serves key data c first)
    (found : s.reqs[id]? = some old) (moves : Moves s id d event old new entry stored)
    (before : ∀ read ∈ old.read, read.key = key → old.ServedFrom c data) :
    ∀ read ∈ new.read, read.key = key → new.ServedFrom c data := by
  intro read of same
  cases moves with
  | runHit r =>
      cases of
      exact ⟨(before _ rfl same).1, by simp⟩
  | storeRead r =>
      cases of
      obtain ⟨rfl, -⟩ := before r rfl same
      have uses : (Req.hit d r .running).uses d = true := by
        simp
      have stored := serves.stored ((serves.index.ok.sound d).fits id _ found uses)
      refine ⟨rfl, fun _ => ?_⟩
      simp only [Read.notify, Read.copyIn, stored]
  | hitDone r =>
      cases of
      obtain ⟨here, answered⟩ := before _ rfl same
      exact ⟨here, fun _ => answered (.inl rfl)⟩
  | runPending r done =>
      refine (before r rfl ?_).elim
      cases of
      cases done <;> exact same
  | runMiss r buf => exact (before r rfl (by obtain rfl := Option.some.inj of; exact same)).elim
  | backendDone r buf data =>
      exact (before r rfl (by obtain rfl := Option.some.inj of; exact same)).elim
  | answer r buf => exact (before r rfl (by obtain rfl := Option.some.inj of; exact same)).elim
  | missWritten r buf =>
      exact (before r rfl (by obtain rfl := Option.some.inj of; exact same)).elim
  | missDone r buf => exact (before r rfl (by obtain rfl := Option.some.inj of; exact same)).elim
  | runInsert => cases of
  | insertWritten => cases of
  | insertDone => cases of

theorem Serves.moved {id d : ℕ} {entry : Entry} (serves : s.Serves key data c first)
    (found : s.reqs[id]? = some old) (moves : Moves s id d event old new entry stored)
    (index : (s.moved id new d entry stored).Index) :
    (s.moved id new d entry stored).Serves key data c first := by
  obtain ⟨phase, inserted, released⟩ := serves.inserted
  have lookup : ∀ other, (s.moved id new d entry stored).reqs[other]? =
      if other = id then some new else s.reqs[other]? := fun other => set_lookup found new other
  refine ⟨index, serves.mapped, ?_, ?_⟩
  · by_cases same : first = id
    · subst same
      cases found.symm.trans inserted
      obtain ⟨phase', rfl, rfl, kept⟩ := serves.insertion_moved found moves
      refine ⟨phase', by rw [lookup, if_pos rfl], ?_⟩
      intro released
      show (Function.update s.entries d entry d).status = _ ∧ Function.update s.store d stored d = _
      rw [Function.update_self, Function.update_self]
      exact kept released
    · refine ⟨phase, by rw [lookup, if_neg same, inserted], ?_⟩
      intro over_now
      obtain ⟨valid, kept⟩ := released over_now
      show (Function.update s.entries d entry c).status = _ ∧ Function.update s.store d stored c = _
      by_cases here : c = d
      · subst here
        obtain ⟨still, same⟩ := moves.valid serves.index.ok found valid
        rw [Function.update_self, Function.update_self]
        exact ⟨still, same.trans kept⟩
      · rw [Function.update_of_ne here, Function.update_of_ne here]
        exact ⟨valid, kept⟩
  · intro other r later at_other
    rw [lookup] at at_other
    split at at_other
    · next same =>
        subst same
        cases at_other
        exact serves.read_moved found moves (serves.reads other old later found)
    · exact serves.reads other r later at_other

/-- A miss serves a read that waited for it; neither of them reads the key. -/
theorem Serves.dispatched {id d e p : ℕ} {r q served : Read β} {buf : List β} {left : List ℕ}
    {running : Bool} {entry : Entry} (serves : s.Serves key data c first)
    (found : s.reqs[id]? = some (.miss d r buf (.dispatching (p :: left))))
    (waiting : s.reqs[p]? = some (.pending e q running false)) (same : served.key = q.key)
    (status : entry.status = (s.entries e).status)
    (index : (((s.setEntry e entry).setReq p (.pending e served running true)).setReq id
      (.miss d r buf (.dispatching left))).Index) :
    (((s.setEntry e entry).setReq p (.pending e served running true)).setReq id
      (.miss d r buf (.dispatching left))).Serves key data c first := by
  obtain ⟨phase, inserted, released⟩ := serves.inserted
  have apart : id ≠ p := by
    rintro rfl
    cases found.symm.trans waiting
  have turned : (s.reqs.set p (.pending e served running true))[id]? =
      some (.miss d r buf (.dispatching (p :: left))) := by
    rw [set_lookup waiting, if_neg apart, found]
  have lookup : ∀ other, (((s.setEntry e entry).setReq p
      (.pending e served running true)).setReq id (.miss d r buf (.dispatching left))).reqs[other]? =
      if other = id then some (.miss d r buf (.dispatching left))
      else if other = p then some (.pending e served running true) else s.reqs[other]? := by
    intro other
    show ((s.reqs.set p _).set id _)[other]? = _
    rw [set_lookup turned, set_lookup waiting]
  refine ⟨index, serves.mapped, ⟨phase, ?_, ?_⟩, ?_⟩
  · rw [lookup, if_neg, if_neg, inserted]
    · rintro rfl
      cases inserted.symm.trans waiting
    · rintro rfl
      cases inserted.symm.trans found
  · intro over_now
    obtain ⟨valid, kept⟩ := released over_now
    refine ⟨?_, kept⟩
    show (Function.update s.entries e entry c).status = _
    by_cases here : c = e
    · rw [here, Function.update_self, status, ← here, valid]
    · rw [Function.update_of_ne here, valid]
  · intro other s' later at_other read of keyed
    rw [lookup] at at_other
    split at at_other
    · next here =>
        subst here
        cases at_other
        cases of
        exact (serves.reads other _ later found r rfl keyed).elim
    · split at at_other
      · next here =>
          subst here
          cases at_other
          cases of
          exact (serves.reads other _ later waiting q rfl (same.symm.trans keyed)).elim
      · exact serves.reads other s' later at_other read of keyed

theorem Serves.touched {d : ℕ} {entry : Entry} (serves : s.Serves key data c first)
    (status : entry.status = (s.entries d).status) (index : ((s.setEntry d entry).addReq new).Index)
    (served : ∀ read ∈ new.read, read.key = key → new.ServedFrom c data) :
    ((s.setEntry d entry).addReq new).Serves key data c first := by
  refine serves.added index serves.mapped rfl ?_ rfl served
  show (Function.update s.entries d entry c).status = _
  by_cases here : c = d
  · rw [here, Function.update_self, status]
  · rw [Function.update_of_ne here]

theorem evicts_allocated {d : ℕ} {u : Shard β}
    (takes : (∃ k a l, event = .read k a l ∧ s.map k = none) ∨ ∃ k b, event = .insert k b)
    (allocated : s.allocateChunk = some (.ok (d, u))) : s.evicts event = some d := by
  rcases takes with ⟨k, a, l, rfl, unmapped⟩ | ⟨k, b, rfl⟩
  · simp [evicts, unmapped, allocated, Except.toOption]
  · simp [evicts, allocated, Except.toOption]

theorem Serves.next (serves : s.Serves key data c first) (fresh : s.Fresh event)
    (stays : s.evicts event ≠ some c) (stepped : s.next event = some t) :
    t.Serves key data c first := by
  have index := serves.index.next fresh stepped
  cases next_cases stepped with
  | hit mapped valid =>
      refine serves.touched rfl index ?_
      rintro read ⟨⟩ rfl
      exact ⟨Option.some.inj (mapped.symm.trans serves.mapped), by simp⟩
  | direct mapped filling buffered =>
      refine serves.touched rfl index ?_
      rintro read ⟨⟩ rfl
      cases mapped.symm.trans serves.mapped
      rcases serves.cases with ⟨-, fill, buffer⟩ | ⟨valid, -⟩
      · rw [fill] at buffered
        cases buffer.symm.trans buffered
        rfl
      · cases filling.symm.trans valid
  | wait mapped fetching =>
      refine serves.touched rfl index ?_
      rintro read ⟨⟩ rfl
      cases mapped.symm.trans serves.mapped
      rcases serves.cases with ⟨filling, -⟩ | ⟨valid, -⟩
      · cases fetching.symm.trans filling
      · cases fetching.symm.trans valid
  | @miss k a l d u unmapped allocated =>
      have elsewhere : d ≠ c := by
        rintro rfl
        exact stays (evicts_allocated (.inl ⟨k, a, l, rfl, unmapped⟩) allocated)
      exact serves.given (allocate_took allocated) elsewhere unmapped rfl index
  | @insert k b d u allocated =>
      have elsewhere : d ≠ c := by
        rintro rfl
        exact stays (evicts_allocated (.inr ⟨k, b, rfl⟩) allocated)
      exact serves.given (allocate_took allocated) elsewhere fresh.2 rfl index
  | move found moves => exact serves.moved found moves index
  | @dispatch id d e p r q buf left running found waiting =>
      exact serves.dispatched found waiting (by cases running <;> rfl) rfl index

theorem Index.inserts (index : s.Index) (fresh : s.Fresh (.insert key data))
    (evicts : s.evicts (.insert key data) = some c)
    (stepped : s.next (.insert key data) = some t) : t.Serves key data c s.reqs.length := by
  have after := index.next fresh stepped
  obtain ⟨d, u, allocated, rfl⟩ := allocate_next stepped
  obtain rfl : d = c := Option.some.inj
    ((evicts_allocated (.inr ⟨key, data, rfl⟩) allocated).symm.trans evicts)
  have took := allocate_took allocated
  have here : ((u.insertInto d key data).entries d).status ≠ .empty := by
    show (Function.update u.entries d _ d).status ≠ _
    rw [Function.update_self]
    simp
  have lookup : ∀ id, (u.insertInto d key data).reqs[id]? =
      if id = s.reqs.length then some (.insert d key data .made) else s.reqs[id]? := by
    intro id
    show (u.reqs ++ [_])[id]? = _
    rw [took.reqs, add_lookup]
  refine ⟨after, ?_, ⟨.made, by rw [lookup, if_pos rfl], by simp⟩, ?_⟩
  · have mapped := after.indexed d here
    have keyed : ((u.insertInto d key data).entries d).key = key := by
      show (Function.update u.entries d _ d).key = _
      rw [Function.update_self]
    rwa [keyed] at mapped
  · intro id r later at_id
    rw [lookup, if_neg (by omega), List.getElem?_eq_none (by omega)] at at_id
    cases at_id

end Shard

/-! ## Whole runs -/

/-- In every run in which no key is inserted that is in the map, the map and the keys of
the entries are inverse to each other. A key that is then inserted is served from the
inserted data, by the chunk it was given, until that chunk is evicted. -/
theorem index_serves_newest {size : ℕ} {events : List (Event β)} {s : Shard β}
    (fresh : Along Shard.next Shard.Fresh (Shard.start size) events)
    (ran : run Shard.next (Shard.start size) events = some s) :
    s.Indexed ∧ s.Mapped ∧
      ∀ (key : Key) (data : List β) (c : ℕ) (t u : Shard β) (later : List (Event β)),
        s.Fresh (.insert key data) → s.evicts (.insert key data) = some c →
        s.next (.insert key data) = some t →
        Along Shard.next (fun s event => s.Fresh event ∧ s.evicts event ≠ some c) t later →
        run Shard.next t later = some u → u.ReadsServed key data c s.reqs.length := by
  have index : s.Index := invariant_along
    (fun _ _ _ index fresh stepped => index.next fresh stepped) (Shard.start_index size) fresh ran
  refine ⟨index.indexed, index.ok.mapped, ?_⟩
  intro key data c t u later unmapped evicts inserted stays ran_later
  have serves : u.Serves key data c s.reqs.length := invariant_along
    (fun _ _ _ serves allowed stepped => serves.next allowed.1 allowed.2 stepped)
    (index.inserts unmapped evicts inserted) stays ran_later
  exact serves.reads

def firstInsert : List (Event ℕ) :=
  [.insert ⟨"disk", 1, 0⟩ [1], .run 0, .storeWritten 0, .storeDone 0]

def bothReads : List (Event ℕ) :=
  [.read ⟨"disk", 2, 0⟩ 0 1, .run 1, .storeWritten 1, .storeDone 1, .read ⟨"disk", 2, 0⟩ 0 1,
    .run 3, .storeRead 3]

theorem index_serves_newest_twice : ∃ s t u : Shard ℕ,
    run Shard.next (Shard.start 2) firstInsert = some s ∧
      s.next (.insert ⟨"disk", 2, 0⟩ [2]) = some t ∧ run Shard.next t bothReads = some u ∧
      s.Indexed ∧ s.Mapped ∧ u.ReadsServed ⟨"disk", 2, 0⟩ [2] 1 1 := by
  obtain ⟨s, ran, held⟩ := (Option.any_eq_true _ _).mp
    (by decide +kernel : (run Shard.next (Shard.start 2) firstInsert).any (fun s => decide
      (s.Fresh (.insert ⟨"disk", 2, 0⟩ [2]) ∧ s.evicts (.insert ⟨"disk", 2, 0⟩ [2]) = some 1 ∧
        s.reqs.length = 1 ∧ (s.next (.insert ⟨"disk", 2, 0⟩ [2])).any (fun t =>
          decide (Along Shard.next (fun s event => s.Fresh event ∧ s.evicts event ≠ some 1) t
            bothReads) && (run Shard.next t bothReads).isSome) = true)) = true)
  obtain ⟨unmapped, evicts, length, rest⟩ := of_decide_eq_true held
  obtain ⟨t, inserted, rest⟩ := (Option.any_eq_true _ _).mp rest
  obtain ⟨stays, returns⟩ := Bool.and_eq_true_iff.mp rest
  obtain ⟨u, later⟩ := Option.isSome_iff_exists.mp returns
  obtain ⟨indexed, mapped, serves⟩ := index_serves_newest (by decide +kernel) ran
  have reads := serves _ _ _ _ _ _ unmapped evicts inserted (of_decide_eq_true stays) later
  rw [length] at reads
  exact ⟨s, t, u, ran, inserted, later, indexed, mapped, reads⟩

/-- A key is inserted again, with other data: its second chunk is not found under it, and
the key is still read from the first. -/
def insertedAgain : List (Event ℕ) :=
  firstInsert ++ [.insert ⟨"disk", 1, 0⟩ [2], .run 1, .storeWritten 1, .storeDone 1,
    .read ⟨"disk", 1, 0⟩ 0 1, .run 2, .storeRead 2]

theorem stale_after_insert : ∃ t : Shard ℕ,
    run Shard.next (Shard.start 2) insertedAgain = some t ∧
      (t.entries 1).status = .valid ∧ (t.entries 1).key = ⟨"disk", 1, 0⟩ ∧ t.store 1 = [2] ∧
      (t.reqs[2]?.bind Req.read).map Read.dest = some [1] ∧
      ¬ t.Indexed ∧ ¬ t.ReadsServed ⟨"disk", 1, 0⟩ [2] 1 1 := by
  obtain ⟨t, ran, held⟩ := (Option.any_eq_true _ _).mp
    (by decide +kernel : (run Shard.next (Shard.start 2) insertedAgain).any (fun t => decide
      ((t.entries 1).status = .valid ∧ (t.entries 1).key = ⟨"disk", 1, 0⟩ ∧ t.store 1 = [2] ∧
        (t.reqs[2]?.bind Req.read).map Read.dest = some [1] ∧
        t.map ⟨"disk", 1, 0⟩ = some 0) && t.reqs[2]?.any (fun r => r.read.any fun read => decide
          (read.key = ⟨"disk", 1, 0⟩ ∧ r.chunk = some 0 ∧ r.isDirect = false))) = true)
  obtain ⟨entry, read⟩ := Bool.and_eq_true_iff.mp held
  obtain ⟨valid, key, stored, stale, mapped⟩ := of_decide_eq_true entry
  obtain ⟨r, found, read⟩ := (Option.any_eq_true _ _).mp read
  obtain ⟨q, of, read⟩ := (Option.any_eq_true _ _).mp read
  obtain ⟨same, chunk, waits⟩ := of_decide_eq_true read
  refine ⟨t, ran, valid, key, stored, stale, ?_, ?_⟩
  · intro indexed
    have again := indexed 1 (by simp [valid])
    rw [key, mapped] at again
    cases again
  · intro served
    have again := served 2 r (by decide) found q of same
    cases r with
    | direct r => cases waits
    | hit d r phase =>
        cases chunk
        exact absurd again.1 (by decide)
    | pending d r running done => exact again
    | miss d r buf phase => exact again
    | insert d k buf phase => cases of

end LsvdRbd.Cache
