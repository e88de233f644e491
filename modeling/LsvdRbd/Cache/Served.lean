import LsvdRbd.Cache.Chunk

/-!
# What the read cache hands out

The invariant of the chunks over whole runs of a shard. A chunk that is being fetched,
filled or read stays where it is, and every read ends with bytes of the object it asked
for.
-/

namespace LsvdRbd.Cache

open Ledger Machine

set_option autoImplicit false

variable {β : Type*} (object : String → ℕ → List β)

/-- Objects do not change, the backend's answers are theirs and so is what
`insert_object` is given; callers of `make_read_req` keep to one chunk. -/
def Honest (s : Shard β) : Event β → Prop
  | .read key adjust len => key.offset % chunkSize = 0 ∧ adjust + len ≤ chunkSize
  | .insert key data => Holds object key data
  | .backendDone id data => ∀ r ∈ s.reqs[id]?, Holds object r.key data
  | _ => True

instance [DecidableEq β] (s : Shard β) : (event : Event β) → Decidable (Honest object s event)
  | .read _ _ _ => inferInstanceAs (Decidable (_ ∧ _))
  | .insert key data => inferInstanceAs (Decidable (_ <+: data))
  | .backendDone id data =>
      match found : s.reqs[id]? with
      | none => .isTrue (by simp [Honest, found])
      | some r => decidable_of_iff
          (((object r.key.image r.key.seq).drop r.key.offset).take chunkSize <+: data)
          (by simp [Honest, Holds, found])
  | .run _ | .storeRead _ | .hitDone _ | .dispatch _ | .answer _ | .storeWritten _
  | .storeDone _ => .isTrue trivial

def Req.Sane : Req β → Prop
  | .direct r => r.notified = 0 ∧ r.Served object
  | .hit _ r phase => r.adjust + r.len ≤ chunkSize ∧
      match phase with
      | .made | .running => r.notified = 0
      | .answered | .released => r.notified = 1 ∧ r.Served object
  | .pending _ r running done => r.adjust + r.len ≤ chunkSize ∧
      r.notified = (if running && done then 1 else 0) ∧ (done = true → r.Served object)
  | .miss _ r _ phase => r.adjust + r.len ≤ chunkSize ∧
      match phase with
      | .made | .fetching | .dispatching _ => r.notified = 0
      | .filling _ => r.notified = 1 ∧ r.Served object
  | .insert _ _ _ _ => True

variable {object} {r : Req β}

theorem Req.Sane.served (sane : r.Sane object) {read : Read β} (of : read ∈ r.read) :
    read.notified ≤ 1 ∧
      (read.notified = 1 ∨ r.isDirect = true → read.Served object) := by
  cases r with
  | direct q =>
      cases of
      exact ⟨by simp [sane.1], fun _ => sane.2⟩
  | hit c q phase =>
      cases of
      obtain ⟨-, sane⟩ := sane
      cases phase with
      | made => simp_all [isDirect]
      | running => simp_all [isDirect]
      | answered => exact ⟨sane.1.le, fun _ => sane.2⟩
      | released => exact ⟨sane.1.le, fun _ => sane.2⟩
  | pending c q running done =>
      cases of
      obtain ⟨-, notified, served⟩ := sane
      cases done with
      | false => simp_all [isDirect]
      | true =>
          refine ⟨?_, fun _ => served rfl⟩
          rw [notified]
          split <;> simp
  | miss c q buf phase =>
      cases of
      obtain ⟨-, sane⟩ := sane
      cases phase with
      | filling step => exact ⟨sane.1.le, fun _ => sane.2⟩
      | _ => simp_all [isDirect]
  | insert c key buf step => cases of

variable (object)

structure Shard.Ok (s : Shard β) : Prop where
  sound : ∀ c, Sound object s.reqs c (s.entries c) (s.store c)
  mapped : ∀ key c, s.map key = some c →
    (s.entries c).key = key ∧ (s.entries c).status ≠ .empty
  sane : ∀ r ∈ s.reqs, r.Sane object

variable {object}

namespace Shard

variable {s t : Shard β} {c id : ℕ}

theorem start_ok (size : ℕ) : (start size : Shard β).Ok object where
  sound := fun c => {
    counted := rfl
    keyed := by simp [start]
    fits := by simp [start]
    owner := by simp [start, Entry.unused]
    busy := by simp [start, Entry.unused]
    awaited := ⟨List.nodup_nil, by simp [start, Entry.unused]⟩
    quiet := fun _ => rfl
    kept := by simp [start, Entry.unused]
    vacant := fun _ => rfl }
  mapped := by simp [start]
  sane := by simp [start]

variable {old new : Req β}

theorem Ok.replaced (ok : s.Ok object) (found : s.reqs[id]? = some old) (chunk : old.chunk = some c)
    (newChunk : new.chunk = some c) (reqs : t.reqs = s.reqs.set id new) (map : t.map = s.map)
    (entries : ∀ d, d ≠ c → t.entries d = s.entries d) (store : ∀ d, d ≠ c → t.store d = s.store d)
    (key : (t.entries c).key = (s.entries c).key) (occupied : (t.entries c).status ≠ .empty)
    (here : Sound object (s.reqs.set id new) c (t.entries c) (t.store c)) (sane : new.Sane object) :
    t.Ok object where
  sound := by
    intro d
    rw [reqs]
    by_cases same : d = c
    · rw [same]
      exact here
    · rw [entries d same, store d same]
      have outside : ∀ r : Req β, r.chunk = some c → r.uses d = false := by
        intro r onc
        simp [Req.uses, onc, Ne.symm same]
      exact (ok.sound d).agree (.set found (outside old chunk) (outside new newChunk))
  mapped := by
    intro k d found
    rw [map] at found
    obtain ⟨keyed, present⟩ := ok.mapped k d found
    by_cases same : d = c
    · rw [same] at keyed ⊢
      exact ⟨key.trans keyed, occupied⟩
    · rw [entries d same]
      exact ⟨keyed, present⟩
  sane := by
    intro r member
    rw [reqs] at member
    rcases List.mem_or_eq_of_mem_set member with before | rfl
    · exact ok.sane r before
    · exact sane

theorem Ok.added {new : Req β} (ok : s.Ok object)
    (newChunk : ∀ d, new.chunk = some d → d = c)
    (reqs : t.reqs = s.reqs ++ [new])
    (entries : ∀ d, d ≠ c → t.entries d = s.entries d) (store : t.store = s.store)
    (mapped : ∀ key d, t.map key = some d →
      (t.entries d).key = key ∧ (t.entries d).status ≠ .empty)
    (here : Sound object (s.reqs ++ [new]) c (t.entries c) (s.store c))
    (sane : new.Sane object) : t.Ok object where
  sound := by
    intro d
    rw [reqs, store]
    by_cases same : d = c
    · rw [same]
      exact here
    · rw [entries d same]
      have outside : new.uses d = false := by
        rw [Bool.eq_false_iff]
        intro uses
        exact same (newChunk d (Req.uses_iff.mp uses).1)
      exact (ok.sound d).agree (.add outside)
  mapped := mapped
  sane := by
    intro r member
    rw [reqs] at member
    rcases List.mem_append.mp member with before | last
    · exact ok.sane r before
    · rw [List.mem_singleton.mp last]
      exact sane

/-! ### Allocation -/

/-- What `allocate_chunk` leaves: a free chunk that no key leads to. -/
structure Allocated (s : Shard β) (c : ℕ) (t : Shard β) : Prop where
  free : (s.entries c).Free
  empty : (t.entries c).status = .empty
  unmapped : ∀ key, t.map key ≠ some c
  reqs : t.reqs = s.reqs

theorem Ok.evicted {entries : ℕ → Entry} (ok : s.Ok object)
    (cleared : ∀ d, (s.entries d).Cleared (entries d)) (free : (s.entries c).Free) :
    ∃ t, s.evict entries c = .ok (c, t) ∧ t.Ok object ∧ s.Allocated c t := by
  have sound : ∀ d, Sound object s.reqs d (entries d) (s.store d) := fun d =>
    (ok.sound d).cleared (cleared d)
  have still : (entries c).Free := (cleared c).free_iff.mpr free
  have same : ∀ d, (entries d).key = (s.entries d).key ∧
      (entries d).status = (s.entries d).status := by
    intro d
    rcases cleared d with kept | ⟨-, kept⟩ <;> rw [kept] <;> exact ⟨rfl, rfl⟩
  have other : ∀ key d, Function.update s.map (entries c).key none key = some d →
      d ≠ c ∧ s.map key = some d := by
    intro key d found
    by_cases erased : key = (entries c).key
    · rw [erased, Function.update_self] at found
      cases found
    · rw [Function.update_of_ne erased] at found
      refine ⟨?_, found⟩
      rintro rfl
      exact erased ((ok.mapped key d found).1.symm.trans (same d).1.symm)
  rw [evict, if_neg (not_not.mpr ((sound c).unfilled still)),
    if_neg (not_not.mpr ((sound c).unawaited still))]
  refine ⟨_, rfl, ⟨?_, ?_, ok.sane⟩, ⟨free, ?_, fun key found => (other key c found).1 rfl, rfl⟩⟩
  · intro d
    show Sound object s.reqs d (Function.update entries c _ d) (s.store d)
    by_cases here : d = c
    · subst here
      rw [Function.update_self]
      exact (sound d).emptied still
    · rw [Function.update_of_ne here]
      exact sound d
  · intro key d found
    show (Function.update entries c _ d).key = key ∧ (Function.update entries c _ d).status ≠ .empty
    obtain ⟨elsewhere, before⟩ := other key d found
    rw [Function.update_of_ne elsewhere, (same d).1, (same d).2]
    exact ok.mapped key d before
  · show (Function.update entries c _ c).status = .empty
    rw [Function.update_self]

theorem Ok.allocate (ok : s.Ok object) :
    s.allocateChunk = none ∨
      ∃ c t, s.allocateChunk = some (.ok (c, t)) ∧ t.Ok object ∧ s.Allocated c t := by
  rw [allocateChunk]
  cases searched : search s.size (2 * s.size) s.entries s.clock with
  | none => exact .inl rfl
  | some found =>
      obtain ⟨entries, c⟩ := found
      obtain ⟨cleared, free⟩ := search_found searched
      obtain ⟨t, evicted, ok, allocated⟩ := ok.evicted cleared free
      exact .inr ⟨c, t, congrArg some evicted, ok, allocated⟩

theorem Ok.filled {new : Req β} {entry : Entry} {key : Key} (ok : t.Ok object)
    (allocated : s.Allocated c t) (chunk : new.chunk = some c) (active : new.active = true)
    (fills : new.Fills) (newKey : new.key = key)
    (refs : entry.refcount = (t.entries c).refcount + 1)
    (status : entry.status = .fetching ∨ entry.status = .filling)
    (fill : entry.fill = some t.reqs.length) (keyed : entry.key = key)
    (pending : entry.pending = (t.entries c).pending)
    (own : new.Fits object (t.reqs ++ [new]) c entry (t.store c) t.reqs.length)
    (sane : new.Sane object) :
    (((t.setEntry c entry).mapInsert key c).addReq new).Ok object := by
  have here : (((t.setEntry c entry).mapInsert key c).addReq new).entries c = entry :=
    Function.update_self ..
  refine ok.added (c := c) ?_ rfl ?_ rfl ?_ ?_ sane
  · intro d onChunk
    exact Option.some.inj (onChunk.symm.trans chunk)
  · exact fun d elsewhere => Function.update_of_ne elsewhere ..
  · intro k d found
    have before : d = c ∧ k = key ∨ t.map k = some d := by
      change (if (t.map key).isSome then t.map else Function.update t.map key (some c)) k = _ at found
      split at found
      · exact .inr found
      · by_cases same : k = key
        · rw [same, Function.update_self] at found
          exact .inl ⟨(Option.some.inj found).symm, same⟩
        · rw [Function.update_of_ne same] at found
          exact .inr found
    rcases before with ⟨rfl, rfl⟩ | mapped
    · rw [here]
      refine ⟨keyed, ?_⟩
      rcases status with fetching | filling
      · simp [fetching]
      · simp [filling]
    · have elsewhere : d ≠ c := by
        rintro rfl
        exact allocated.unmapped k mapped
      have same : (((t.setEntry c entry).mapInsert key c).addReq new).entries d = t.entries d :=
        Function.update_of_ne elsewhere ..
      rw [same]
      exact ok.mapped k d mapped
  · rw [here]
    exact (ok.sound c).add_filler (.inl allocated.empty) (Req.uses_iff.mpr ⟨chunk, active⟩) fills
      refs status fill (keyed.trans newKey.symm) pending own

theorem Ok.readMissed {r : Read β} (ok : t.Ok object) (allocated : s.Allocated c t)
    (inside : r.adjust + r.len ≤ chunkSize) (fresh : r.notified = 0) :
    (t.readMissed c r).Ok object :=
  ok.filled allocated rfl rfl trivial rfl rfl (.inl rfl) rfl rfl rfl ⟨rfl, rfl⟩ ⟨inside, fresh⟩

theorem Ok.insertInto {key : Key} {data : List β} (ok : t.Ok object)
    (allocated : s.Allocated c t) (holds : Holds object key data) :
    (t.insertInto c key data).Ok object :=
  ok.filled allocated rfl rfl trivial rfl rfl (.inr rfl) rfl rfl rfl
    ⟨rfl, rfl, holds, by simp⟩ trivial

/-! ### The steps -/

variable (object) in
/-- The step does not return, or it fails no assertion and keeps the invariant. -/
def Safe (outcome : Outcome (Shard β)) : Prop :=
  ∀ result ∈ outcome, ∃ t, result = .ok t ∧ t.Ok object

theorem safe_none : Safe object (none : Outcome (Shard β)) := by
  intro result member
  cases member

theorem safe_ok (ok : t.Ok object) : Safe object (some (.ok t)) := by
  intro result member
  exact ⟨t, (Option.some.inj member).symm, ok⟩

theorem Ok.safe_allocate {next : ℕ × Shard β → Shard β} (ok : s.Ok object)
    (follows : ∀ c t, t.Ok object → s.Allocated c t → (next (c, t)).Ok object) :
    Safe object (s.allocateChunk.map (Except.map next)) := by
  rcases ok.allocate with stuck | ⟨c, t, allocated, after, facts⟩
  · rw [stuck]
    exact safe_none
  · rw [allocated]
    exact safe_ok (follows c t after facts)

variable {buf : List β}

theorem Ok.fill_buffer (ok : s.Ok object) (filling : (s.entries c).status = .filling)
    (buffered : ((s.entries c).fill.bind fun id => s.reqs[id]?.bind Req.buffer) = some buf) :
    Holds object (s.entries c).key buf := by
  obtain ⟨id, fill, rest⟩ := Option.bind_eq_some_iff.mp buffered
  obtain ⟨r, found, owned⟩ := Option.bind_eq_some_iff.mp rest
  obtain ⟨other, atid, uses, fills⟩ := (ok.sound c).owner id fill
  cases found.symm.trans atid
  have fits := (ok.sound c).fits id r found uses
  rw [← (ok.sound c).keyed id r found uses]
  cases r with
  | miss d q data phase =>
      cases owned
      cases phase with
      | made => exact absurd (filling.symm.trans fits.2) (by simp)
      | fetching => exact absurd (filling.symm.trans fits.2) (by simp)
      | dispatching left => exact fits.2.2.1
      | filling step => exact fits.2.2.1
  | insert d key data step =>
      cases owned
      exact fits.2.2.1
  | _ => exact fills.elim

theorem Ok.touched {new : Req β} {entry : Entry} (ok : s.Ok object)
    (newChunk : ∀ d, new.chunk = some d → d = c) (key : entry.key = (s.entries c).key)
    (status : entry.status = (s.entries c).status)
    (here : Sound object (s.reqs ++ [new]) c entry (s.store c)) (sane : new.Sane object) :
    ((s.setEntry c entry).addReq new).Ok object := by
  have at_chunk : ((s.setEntry c entry).addReq new).entries c = entry := Function.update_self ..
  have elsewhere : ∀ d, d ≠ c → ((s.setEntry c entry).addReq new).entries d = s.entries d :=
    fun d other => Function.update_of_ne other ..
  refine ok.added newChunk rfl elsewhere rfl ?_ (by rw [at_chunk]; exact here) sane
  intro k d found
  by_cases same : d = c
  · rw [same, at_chunk, key, status, ← same]
    exact ok.mapped k d found
  · rw [elsewhere d same]
    exact ok.mapped k d found

theorem Ok.readFound {r : Read β} (ok : s.Ok object) (mapped : s.map r.key = some c)
    (inside : r.adjust + r.len ≤ chunkSize) (fresh : r.notified = 0) :
    Safe object (s.readFound c r) := by
  obtain ⟨key, occupied⟩ := ok.mapped r.key c mapped
  have sound := ok.sound c
  rw [Shard.readFound]
  dsimp only
  split
  · next empty => exact absurd empty occupied
  · next valid =>
      refine safe_ok (ok.touched (by simp [Req.chunk]) rfl rfl ?_ ⟨inside, fresh⟩)
      exact sound.add_reader (by simp) rfl rfl rfl rfl key.symm
        valid (Sound.awaited_add sound.awaited) sound.quiet occupied
  · next filling =>
      cases buffered : ((s.entries c).fill.bind fun id => s.reqs[id]?.bind Req.buffer) with
      | none => exact safe_none
      | some buf =>
          have holds := ok.fill_buffer filling buffered
          rw [key] at holds
          refine safe_ok (ok.touched (by simp [Req.chunk]) rfl rfl ?_
            ⟨fresh, served_of_holds object holds inside⟩)
          have same : (s.entries c).refcount + 1 - 1 = (s.entries c).refcount := by ring
          rw [same]
          exact (sound.accessed true).agree (.add (by simp))
  · next fetching =>
      refine safe_ok (ok.touched (by simp [Req.chunk]) rfl rfl ?_ ⟨inside, fresh, by simp⟩)
      exact sound.add_reader (by simp) rfl rfl rfl rfl key.symm
        trivial (Sound.awaited_wait sound.awaited) (fun other => absurd fetching other) occupied

theorem Ok.makeReadReq {key : Key} {adjust len : ℕ} (ok : s.Ok object)
    (aligned : key.offset % chunkSize = 0) (inside : adjust + len ≤ chunkSize) :
    Safe object (s.makeReadReq key adjust len) := by
  rw [Shard.makeReadReq, if_neg (not_not.mpr aligned), if_neg (Nat.not_lt.mpr inside)]
  cases mapped : s.map key with
  | some c => exact ok.readFound mapped inside rfl
  | none => exact ok.safe_allocate fun c t after facts => after.readMissed facts inside rfl

theorem Ok.setReq (ok : s.Ok object) (found : s.reqs[id]? = some old) (chunk : old.chunk = some c)
    (newChunk : new.chunk = some c) (occupied : (s.entries c).status ≠ .empty)
    (here : Sound object (s.reqs.set id new) c (s.entries c) (s.store c)) (sane : new.Sane object) :
    (s.setReq id new).Ok object :=
  ok.replaced found chunk newChunk rfl rfl (fun _ _ => rfl) (fun _ _ => rfl) rfl occupied here sane

theorem Ok.setBoth {entry : Entry} (ok : s.Ok object) (found : s.reqs[id]? = some old)
    (chunk : old.chunk = some c) (newChunk : new.chunk = some c)
    (key : entry.key = (s.entries c).key) (occupied : entry.status ≠ .empty)
    (here : Sound object (s.reqs.set id new) c entry (s.store c)) (sane : new.Sane object) :
    ((s.setEntry c entry).setReq id new).Ok object := by
  have at_chunk : ((s.setEntry c entry).setReq id new).entries c = entry :=
    Function.update_self ..
  refine ok.replaced found chunk newChunk rfl rfl ?_ (fun _ _ => rfl) ?_ ?_ ?_ sane
  · exact fun d other => Function.update_of_ne other ..
  · rw [at_chunk, key]
  · rw [at_chunk]
    exact occupied
  · rw [at_chunk]
    exact here

theorem Ok.sane_at (ok : s.Ok object) (found : s.reqs[id]? = some r) :
    r.Sane object :=
  ok.sane r (List.mem_of_getElem? found)

theorem Ok.stored (ok : s.Ok object) (found : s.reqs[id]? = some old) (chunk : old.chunk = some c)
    (active : old.active = true) (newChunk : new.chunk = some c) (newActive : new.active = true)
    (fills : old.Fills) (newFills : new.Fills) (newKey : new.key = old.key)
    (own : new.Fits object (s.reqs.set id new) c (s.entries c) buf id) (sane : new.Sane object) :
    ({ s with store := Function.update s.store c buf }.setReq id new).Ok object := by
  have uses := Req.uses_iff.mpr ⟨chunk, active⟩
  have newUses := Req.uses_iff.mpr ⟨newChunk, newActive⟩
  have occupied := (ok.sound c).occupied found uses
  obtain ⟨fill, invalid⟩ := (ok.sound c).filler found uses fills
  refine ok.replaced found chunk newChunk rfl rfl (fun _ _ => rfl) ?_ rfl occupied ?_ sane
  · exact fun d other => Function.update_of_ne other ..
  · show Sound object _ c (s.entries c) (Function.update s.store c buf c)
    rw [Function.update_self]
    exact (ok.sound c).replace_filler found uses fills newFills (by simp [newUses]) rfl newKey
      (fun _ => own) (by simp [newUses, fill]) (ok.sound c).busy (.inl rfl) (ok.sound c).quiet
      (fun valid => absurd valid invalid) occupied

theorem Ok.fills_on (ok : s.Ok object) (found : s.reqs[id]? = some old)
    (chunk : old.chunk = some c) (active : old.active = true) (newChunk : new.chunk = some c)
    (newActive : new.active = true) (fills : old.Fills) (newFills : new.Fills)
    (newKey : new.key = old.key)
    (own : new.Fits object (s.reqs.set id new) c (s.entries c) (s.store c) id)
    (sane : new.Sane object) : (s.setReq id new).Ok object := by
  have stored := ok.stored found chunk active newChunk newActive fills newFills newKey own sane
  rwa [Function.update_eq_self] at stored

theorem Ok.runReq (ok : s.Ok object) (ran : s.runReq id = some t) : t.Ok object := by
  rw [Shard.runReq] at ran
  split at ran
  · next c r found =>
      cases ran
      have uses : (Req.hit c r .made).uses c = true := by simp
      have sane := ok.sane_at found
      refine ok.setReq found rfl rfl ((ok.sound c).occupied found uses) ?_ ⟨sane.1, sane.2⟩
      exact (ok.sound c).replace_reader found uses not_false (by simp)
        rfl rfl (fun _ => (ok.sound c).fits id _ found uses)
        (fun _ => Sound.awaited_set found (by simp))
  · next c r done found =>
      cases ran
      obtain ⟨inside, notified, served⟩ := ok.sane_at found
      cases done with
      | false =>
          have uses : (Req.pending c r false false).uses c = true := by simp
          refine ok.setReq found rfl rfl ((ok.sound c).occupied found uses) ?_
            ⟨inside, notified, served⟩
          exact (ok.sound c).replace_reader found uses not_false
            (by simp) rfl rfl (fun _ => trivial)
            (fun _ => Sound.awaited_set found (by simp))
      | true =>
          -- the request has given its reference back already
          refine ⟨?_, ok.mapped, ?_⟩
          · intro d
            exact (ok.sound d).agree
              (.set found (by simp) (by simp))
          · intro other member
            rcases List.mem_or_eq_of_mem_set member with before | rfl
            · exact ok.sane other before
            · exact ⟨inside, by simp [Read.notify, notified], served⟩
  · next c r buf found =>
      cases ran
      have uses : (Req.miss c r buf .made).uses c = true := by simp
      obtain ⟨fill, fetching⟩ := (ok.sound c).fits id _ found uses
      have sane := ok.sane_at found
      refine ok.setBoth found rfl rfl rfl (by simp) ?_ ⟨sane.1, sane.2⟩
      exact (ok.sound c).replace_filler found uses trivial trivial
        (by simp) rfl rfl (fun _ => ⟨fill, rfl⟩)
        (by simp [fill]) (by simp [fill]) (.inl rfl) (by simp)
        (by simp) (by simp)
  · next c key buf found =>
      cases ran
      have uses : (Req.insert c key buf .made).uses c = true := by simp
      obtain ⟨fill, filling, holds, -⟩ := (ok.sound c).fits id _ found uses
      exact ok.fills_on found rfl rfl rfl rfl trivial trivial rfl ⟨fill, filling, holds, by simp⟩
        trivial
  · cases ran

theorem Ok.storeRead (ok : s.Ok object) (ran : s.storeRead id = some t) : t.Ok object := by
  rw [Shard.storeRead] at ran
  split at ran
  · next c r found =>
      cases ran
      have uses : (Req.hit c r .running).uses c = true := by simp
      have valid := (ok.sound c).fits id _ found uses
      have holds := (ok.sound c).kept valid
      rw [← (ok.sound c).keyed id _ found uses] at holds
      obtain ⟨inside, notified⟩ := ok.sane_at found
      refine ok.setReq found rfl rfl ((ok.sound c).occupied found uses) ?_
        ⟨inside, congrArg (· + 1) notified, served_of_holds object holds inside⟩
      exact (ok.sound c).replace_reader found uses not_false (by simp)
        rfl rfl (fun _ => valid) (fun _ => Sound.awaited_set found (by simp))
  · cases ran

theorem Ok.referenced (ok : s.Ok object) (found : s.reqs[id]? = some r) (uses : r.uses c = true) :
    0 < (s.entries c).refcount := by
  rw [(ok.sound c).counted]
  exact_mod_cast List.countP_pos_iff.mpr ⟨r, List.mem_of_getElem? found, uses⟩

theorem Ok.decChunkRefcount (ok : s.Ok object) (found : s.reqs[id]? = some r)
    (uses : r.uses c = true) : s.decChunkRefcount c =
      .ok (s.setEntry c { s.entries c with refcount := (s.entries c).refcount - 1 }) := by
  have positive := ok.referenced found uses
  exact if_neg (by omega)

theorem Ok.hitDone (ok : s.Ok object) : Safe object (s.hitDone id) := by
  rw [Shard.hitDone]
  split
  · next c r found =>
      have uses : (Req.hit c r .answered).uses c = true := by simp
      rw [ok.decChunkRefcount found uses]
      have sane := ok.sane_at found
      refine safe_ok (ok.setBoth found rfl rfl rfl ((ok.sound c).occupied found uses) ?_
        ⟨sane.1, sane.2⟩)
      exact (ok.sound c).replace_reader found uses not_false (by simp)
        rfl rfl (by simp) (fun _ => Sound.awaited_set found (by simp))
  · exact safe_none

theorem Ok.backendDone {data : List β} (ok : s.Ok object)
    (honest : ∀ r ∈ s.reqs[id]?, Holds object r.key data)
    (ran : s.backendDone id data = some t) : t.Ok object := by
  rw [Shard.backendDone] at ran
  split at ran
  · next c r buf found =>
      cases ran
      have uses : (Req.miss c r buf .fetching).uses c = true := by simp
      have holds : Holds object r.key data := honest _ found
      have sane := ok.sane_at found
      refine ok.setBoth found rfl rfl rfl (by simp) ?_ ⟨sane.1, sane.2⟩
      refine (ok.sound c).replace_filler found uses trivial trivial
        (by simp) rfl rfl (fun _ => ⟨rfl, rfl, holds, ?_⟩)
        (by simp) (by simp) (.inr rfl) (fun _ => rfl)
        (by simp) (by simp)
      exact Sound.awaited_set found (by simp) (ok.sound c).awaited
  · cases ran

theorem Ok.answer (ok : s.Ok object) (ran : s.answer id = some t) : t.Ok object := by
  rw [Shard.answer] at ran
  split at ran
  · next c r buf found =>
      cases ran
      have uses : (Req.miss c r buf (.dispatching [])).uses c = true := by simp
      obtain ⟨fill, filling, holds, -⟩ := (ok.sound c).fits id _ found uses
      obtain ⟨inside, notified⟩ := ok.sane_at found
      exact ok.fills_on found rfl rfl rfl rfl trivial trivial rfl ⟨fill, filling, holds, by simp⟩
        ⟨inside, congrArg (· + 1) notified, served_of_holds object holds inside⟩
  · cases ran

theorem Ok.storeWritten (ok : s.Ok object) (ran : s.storeWritten id = some t) : t.Ok object := by
  rw [Shard.storeWritten] at ran
  split at ran
  · next c r buf found =>
      cases ran
      obtain ⟨fill, filling, holds, -⟩ := (ok.sound c).fits id _ found (by simp)
      have sane := ok.sane_at found
      exact ok.stored found rfl rfl rfl rfl trivial trivial rfl
        ⟨fill, filling, holds, fun _ => rfl⟩ ⟨sane.1, sane.2⟩
  · next c key buf found =>
      cases ran
      obtain ⟨fill, filling, holds, -⟩ := (ok.sound c).fits id _ found (by simp)
      exact ok.stored found rfl rfl rfl rfl trivial trivial rfl
        ⟨fill, filling, holds, fun _ => rfl⟩ trivial
  · cases ran

theorem Ok.onStoreDone (ok : s.Ok object) (found : s.reqs[id]? = some old)
    (chunk : old.chunk = some c) (active : old.active = true) (newChunk : new.chunk = some c)
    (released : new.active = false) (fills : old.Fills) (newFills : new.Fills)
    (newKey : new.key = old.key) (filling : (s.entries c).status = .filling)
    (holds : Holds object old.key (s.store c)) (sane : new.Sane object) :
    ((s.onStoreDone c).setReq id new).Ok object := by
  have uses := Req.uses_iff.mpr ⟨chunk, active⟩
  have unused : new.uses c = false := by simp [Req.uses, released]
  have sound := ok.sound c
  rw [sound.keyed id old found uses] at holds
  refine ok.setBoth found chunk newChunk rfl (by simp) ?_ sane
  exact sound.replace_filler found uses fills newFills (by simp [unused]) rfl newKey
    (by simp [unused]) (by simp [unused]) (by simp) (.inl rfl)
    (fun _ => sound.quiet (by simp [filling])) (fun _ => holds) (by simp)

theorem Ok.storeDone (ok : s.Ok object) (ran : s.storeDone id = some t) : t.Ok object := by
  rw [Shard.storeDone] at ran
  split at ran
  · next c r buf found =>
      cases ran
      obtain ⟨-, filling, holds, written⟩ := (ok.sound c).fits id _ found (by simp)
      rw [← written rfl] at holds
      have sane := ok.sane_at found
      exact ok.onStoreDone found rfl rfl rfl rfl trivial trivial rfl filling holds
        ⟨sane.1, sane.2⟩
  · next c key buf found =>
      cases ran
      obtain ⟨-, filling, holds, written⟩ := (ok.sound c).fits id _ found (by simp)
      rw [← written rfl] at holds
      exact ok.onStoreDone found rfl rfl rfl rfl trivial trivial rfl filling holds trivial
  · cases ran

theorem Ok.turn {r : Read β} {p : ℕ} {left : List ℕ} (ok : s.Ok object)
    (found : s.reqs[id]? = some (.miss c r buf (.dispatching (p :: left)))) :
    (s.setReq id (.miss c r buf (.dispatching left))).Ok object := by
  have uses : (Req.miss c r buf (.dispatching (p :: left))).uses c = true := by simp
  have sound := ok.sound c
  obtain ⟨fill, filling, holds, unserved, waits⟩ := sound.fits id _ found uses
  have sane := ok.sane_at found
  have awaited : Awaited s.reqs c left :=
    ⟨(List.nodup_cons.mp unserved).2, fun other member => waits other (by simp [member])⟩
  exact ok.fills_on found rfl rfl rfl rfl trivial trivial rfl
    ⟨fill, filling, holds, Sound.awaited_set found (by simp) awaited⟩ ⟨sane.1, sane.2⟩

theorem Ok.serve {r q served : Read β} {p : ℕ} {running : Bool} {left : List ℕ} (ok : s.Ok object)
    (found : s.reqs[id]? = some (.miss c r buf (.dispatching left)))
    (waiting : s.reqs[p]? = some (.pending c q running false)) (last : p ∉ left)
    (key : served.key = q.key) (sane : (Req.pending c served running true).Sane object) :
    ((s.setEntry c { s.entries c with refcount := (s.entries c).refcount - 1 }).setReq p
      (.pending c served running true)).Ok object := by
  have sound := ok.sound c
  have uses : (Req.miss c r buf (.dispatching left)).uses c = true := by simp
  have used : (Req.pending c q running false).uses c = true := by simp
  obtain ⟨fill, filling, holds, awaited⟩ := sound.fits id _ found uses
  have quiet := sound.quiet (by simp [filling])
  refine ok.setBoth waiting rfl rfl rfl (sound.occupied found uses) ?_ sane
  refine sound.replace waiting used (by simp) rfl key
    (by simp) ?_ ?_ sound.busy ?_ sound.quiet sound.kept
    (sound.occupied found uses)
  · intro j other _ atj fits
    by_cases same : j = id
    · subst same
      cases found.symm.trans atj
      exact ⟨fill, filling, holds,
        Sound.awaited_set waiting (fun _ _ _ member => absurd member last) awaited⟩
    · exact Sound.fits_beside fill (by simp [filling]) same fits
  · intro j after
    cases fill.symm.trans after
    refine .inr ⟨?_, fill⟩
    rintro rfl
    cases found.symm.trans waiting
  · show Awaited _ c (s.entries c).pending
    rw [quiet]
    exact ⟨List.nodup_nil, by simp⟩

/-- A miss serves the next read that waited for it. Seen as two steps, the miss moves on
first; then nobody waits for the read any more. -/
theorem Ok.dispatch (ok : s.Ok object) : Safe object (s.dispatch id) := by
  rw [Shard.dispatch]
  split
  · next c r buf p left found =>
      have uses : (Req.miss c r buf (.dispatching (p :: left))).uses c = true := by simp
      obtain ⟨-, -, holds, unserved, waits⟩ := (ok.sound c).fits id _ found uses
      obtain ⟨q, running, waiting⟩ := waits p (by simp)
      have used : (Req.pending c q running false).uses c = true := by simp
      have apart : p ≠ id := by
        rintro rfl
        cases found.symm.trans waiting
      obtain ⟨inside, notified, -⟩ := ok.sane_at waiting
      have sameKey : r.key = q.key := ((ok.sound c).keyed id _ found uses).trans
        ((ok.sound c).keyed p _ waiting used).symm
      rw [sameKey] at holds
      have served := served_of_holds object holds inside
      have sane : (Req.pending c (if running then (q.copyIn buf).notify else q.copyIn buf)
          running true).Sane object := by
        cases running with
        | false => exact ⟨inside, notified, fun _ => served⟩
        | true => exact ⟨inside, congrArg (· + 1) notified, fun _ => served⟩
      have turned : (s.setReq id (.miss c r buf (.dispatching left))).reqs[id]? =
          some (.miss c r buf (.dispatching left)) := by
        rw [Shard.setReq, set_lookup found, if_pos rfl]
      have still : (s.setReq id (.miss c r buf (.dispatching left))).reqs[p]? =
          some (.pending c q running false) := by
        rw [Shard.setReq, set_lookup found, if_neg apart, waiting]
      have after := (ok.turn found).serve turned still (List.nodup_cons.mp unserved).1
        (by cases running <;> rfl) sane
      rw [waiting]
      dsimp only
      rw [ok.decChunkRefcount waiting used]
      refine safe_ok ?_
      simp only [Shard.setReq, setEntry] at after ⊢
      rw [List.set_comm _ _ apart]
      exact after
  · exact safe_none

/-- Every step of an honest environment returns without a failed assertion, if it
returns, and keeps the invariant. -/
theorem Ok.step {event : Event β} (ok : s.Ok object) (honest : Honest object s event) :
    Safe object (s.step event) := by
  have kept : ∀ outcome : Option (Shard β), (∀ t, outcome = some t → t.Ok object) →
      Safe object (outcome.map .ok) := by
    intro outcome keeps
    cases outcome with
    | none => exact safe_none
    | some t => exact safe_ok (keeps t rfl)
  cases event with
  | read key adjust len => exact ok.makeReadReq honest.1 honest.2
  | insert key data => exact ok.safe_allocate fun c t after facts => after.insertInto facts honest
  | run id => exact kept _ fun t => ok.runReq
  | storeRead id => exact kept _ fun t => ok.storeRead
  | hitDone id => exact ok.hitDone
  | backendDone id data => exact kept _ fun t => ok.backendDone honest
  | dispatch id => exact ok.dispatch
  | answer id => exact kept _ fun t => ok.answer
  | storeWritten id => exact kept _ fun t => ok.storeWritten
  | storeDone id => exact kept _ fun t => ok.storeDone

theorem Ok.next {event : Event β} (ok : s.Ok object) (honest : Honest object s event)
    (stepped : s.next event = some t) : t.Ok object := by
  obtain ⟨result, returned, passed⟩ := Option.bind_eq_some_iff.mp stepped
  obtain ⟨after, rfl, kept⟩ := ok.step honest result returned
  cases passed
  exact kept

/-- What `allocate_chunk` takes is not being fetched, filled or read. -/
theorem Ok.evicts_unused (ok : s.Ok object) (allocated : s.allocateChunk = some (.ok (c, t))) :
    (s.entries c).status ≠ .fetching ∧ (s.entries c).status ≠ .filling ∧
      ∀ r ∈ s.reqs, r.uses c = false := by
  rcases ok.allocate with stuck | ⟨d, u, returned, -, facts⟩
  · rw [stuck] at allocated
    cases allocated
  · obtain ⟨rfl, rfl⟩ : d = c ∧ u = t := by simpa [returned] using allocated
    have unfilled := (ok.sound d).unfilled facts.free
    refine ⟨?_, ?_, fun r member => (ok.sound d).unused facts.free member⟩
    · exact fun fetching => (ok.sound d).busy.mp (.inl fetching) unfilled
    · exact fun filling => (ok.sound d).busy.mp (.inr filling) unfilled

end Shard

/-! ## Inserting an object -/

/-- The loop of `sharded_cache::insert_object`: the keys and the bytes copied for each. -/
def insertions (image : String) (seq : ℕ) (data : List β) (processed : ℕ) :
    List (Key × List β) :=
  if processed < data.length then
    (⟨image, seq, processed⟩, (data.drop processed).take chunkSize) ::
      insertions image seq data (processed + min (data.length - processed) chunkSize)
  else []
termination_by data.length - processed
decreasing_by
  simp only [chunkSize]
  omega

/-- What it inserts for an object is honest, whatever the rest of a buffer holds. -/
theorem insertions_honest (image : String) (seq processed : ℕ) (s : Shard β) :
    ∀ inserted ∈ insertions image seq (object image seq) processed, ∀ rest : List β,
      Honest object s (.insert inserted.1 (inserted.2 ++ rest)) := by
  intro inserted member rest
  fun_induction insertions image seq (object image seq) processed with
  | case1 processed more ih =>
      rcases List.mem_cons.mp member with rfl | later
      · exact List.prefix_append _ _
      · exact ih later
  | case2 processed done => cases member

/-! ## Whole runs -/

/-- However the threads and devices interleave, a read notifies its parent at most once,
with the object's bytes in its destination, as far as the object has them. A chunk that
is being fetched or filled, or that some request still uses, is not evicted, and no
assertion fails. -/
theorem reads_return_object_bytes (object : String → ℕ → List β) (size : ℕ)
    {events : List (Event β)} {t : Shard β}
    (honest : Along Shard.next (Honest object) (Shard.start size) events)
    (ran : run Shard.next (Shard.start size) events = some t) :
    (∀ r ∈ t.reqs, ∀ read ∈ r.read, read.notified ≤ 1 ∧
      (read.notified = 1 ∨ r.isDirect = true → bytes object read <+: read.dest)) ∧
    (∀ c u, t.allocateChunk = some (.ok (c, u)) →
      (t.entries c).status ≠ .fetching ∧ (t.entries c).status ≠ .filling ∧
        ∀ r ∈ t.reqs, r.uses c = false) ∧
    ∀ event, Honest object t event → ∀ failed, t.step event ≠ some (.error failed) := by
  have ok : t.Ok object :=
    invariant_along (fun _ _ _ ok honest stepped => ok.next honest stepped)
      (Shard.start_ok size) honest ran
  refine ⟨fun r member read of => (ok.sane r member).served of, ?_, ?_⟩
  · intro c u allocated
    exact ok.evicts_unused allocated
  · intro event allowed failed returned
    obtain ⟨u, wrong, -⟩ := ok.step allowed _ returned
    cases wrong

def sharedChunk : List (Event ℕ) :=
  [.read ⟨"disk", 1, 0⟩ 2 3, .run 0, .read ⟨"disk", 1, 0⟩ 4 2, .backendDone 0 [0, 1, 2, 3, 4, 5, 6],
    .read ⟨"disk", 1, 0⟩ 0 1, .dispatch 0, .run 1, .answer 0, .storeWritten 0, .storeDone 0,
    .read ⟨"disk", 1, 0⟩ 5 2, .run 3, .storeRead 3, .hitDone 3, .read ⟨"disk", 2, 0⟩ 0 4, .run 4,
    .backendDone 4 [7, 8, 9, 10], .answer 4]

def sharedObjects (image : String) (seq : ℕ) : List ℕ :=
  if image = "disk" then (if seq = 1 then [0, 1, 2, 3, 4, 5, 6] else [7, 8, 9, 10]) else []

theorem reads_return_object_bytes_shared_chunk :
    ∃ t : Shard ℕ, run Shard.next (Shard.start 1) sharedChunk = some t ∧
      t.reqs.filterMap (fun r => r.read.map fun read => (read.notified, read.dest)) =
        [(1, [2, 3, 4]), (1, [4, 5]), (0, [0]), (1, [5, 6]), (1, [7, 8, 9, 10])] ∧
      ∀ r ∈ t.reqs, ∀ read ∈ r.read, read.notified = 1 ∨ r.isDirect = true →
        bytes sharedObjects read <+: read.dest := by
  obtain ⟨t, ran, held⟩ := (Option.any_eq_true _ _).mp
    (by decide +kernel : (run Shard.next (Shard.start 1) sharedChunk).any (fun t => decide
      (t.reqs.filterMap (fun r => r.read.map fun read => (read.notified, read.dest)) =
        [(1, [2, 3, 4]), (1, [4, 5]), (0, [0]), (1, [5, 6]), (1, [7, 8, 9, 10])])) = true)
  have honest : Along Shard.next (Honest sharedObjects) (Shard.start 1) sharedChunk := by
    decide +kernel
  refine ⟨t, ran, of_decide_eq_true held, ?_⟩
  intro r member read of
  exact ((reads_return_object_bytes sharedObjects 1 honest ran).1 r member read of).2

end LsvdRbd.Cache
