import LsvdRbd.Cache.Shard
import LsvdRbd.Lib.Ledger

/-!
# One chunk of the read cache

The reference count of a chunk is the number of requests that are not finished with
it, and such a request knows the chunk's key. A chunk that is being fetched or filled
belongs to one request, and a valid one is in the store.
-/

namespace LsvdRbd.Cache

open Ledger

set_option autoImplicit false

variable {β : Type*} (object : String → ℕ → List β)

/-- The chunk starts with the object's bytes from the key's offset on; after the end of
the object a buffer is not initialised. -/
def Holds (key : Key) (chunk : List β) : Prop :=
  ((object key.image key.seq).drop key.offset).take chunkSize <+: chunk

def bytes (r : Read β) : List β :=
  ((object r.key.image r.key.seq).drop (r.key.offset + r.adjust)).take r.len

def Read.Served (r : Read β) : Prop := bytes object r <+: r.dest

theorem served_of_holds {r : Read β} {chunk : List β} (holds : Holds object r.key chunk)
    (inside : r.adjust + r.len ≤ chunkSize) : (r.copyIn chunk).Served object := by
  have cut := (holds.drop r.adjust).take r.len
  rw [List.drop_take, List.take_take, List.drop_drop,
    Nat.min_eq_left (by omega : r.len ≤ chunkSize - r.adjust)] at cut
  exact cut

/-! ## The invariant of one chunk -/

def Awaited (reqs : List (Req β)) (c : ℕ) (ids : List ℕ) : Prop :=
  ids.Nodup ∧ ∀ p ∈ ids, ∃ q running, reqs[p]? = some (.pending c q running false)

def Req.Fills : Req β → Prop
  | .miss _ _ _ _ | .insert _ _ _ _ => True
  | _ => False

/-- What the entry of a chunk is like while the request with a given number uses it. -/
def Req.Fits (reqs : List (Req β)) (c : ℕ) (entry : Entry) (stored : List β) (id : ℕ) :
    Req β → Prop
  | .direct _ | .pending _ _ _ _ => True
  | .hit _ _ _ => entry.status = .valid
  | .miss _ r buf phase => entry.fill = some id ∧
      match phase with
      | .made | .fetching => entry.status = .fetching
      | .dispatching left =>
          entry.status = .filling ∧ Holds object r.key buf ∧ Awaited reqs c left
      | .filling step =>
          entry.status = .filling ∧ Holds object r.key buf ∧ (step = .written → stored = buf)
  | .insert _ key buf step =>
      entry.fill = some id ∧ entry.status = .filling ∧ Holds object key buf ∧
        (step = .written → stored = buf)

structure Sound (reqs : List (Req β)) (c : ℕ) (entry : Entry) (stored : List β) : Prop where
  counted : entry.refcount = reqs.countP (Req.uses c)
  keyed : ∀ (id : ℕ) (r : Req β), reqs[id]? = some r → r.uses c = true → r.key = entry.key
  fits : ∀ (id : ℕ) (r : Req β), reqs[id]? = some r → r.uses c = true →
    r.Fits object reqs c entry stored id
  owner : ∀ id : ℕ, entry.fill = some id →
    ∃ r : Req β, reqs[id]? = some r ∧ r.uses c = true ∧ r.Fills
  busy : (entry.status = .fetching ∨ entry.status = .filling) ↔ entry.fill ≠ none
  awaited : Awaited reqs c entry.pending
  quiet : entry.status ≠ .fetching → entry.pending = []
  kept : entry.status = .valid → Holds object entry.key stored
  vacant : entry.status = .empty → entry.refcount = 0

variable {object}

namespace Sound

variable {reqs after : List (Req β)} {c : ℕ} {entry : Entry} {stored : List β} {ids : List ℕ}

theorem awaited_agree (agree : Agree (Req.uses c) reqs after) (awaited : Awaited reqs c ids) :
    Awaited after c ids := by
  refine ⟨awaited.1, ?_⟩
  intro p member
  obtain ⟨q, running, found⟩ := awaited.2 p member
  exact ⟨q, running, (agree.lookup p _ (by simp)).mpr found⟩

variable {entry' : Entry} {id : ℕ} {r : Req β}

theorem fits_mono (status : entry'.status = entry.status) (fill : entry'.fill = entry.fill)
    (keeps : ∀ ids, Awaited reqs c ids → Awaited after c ids)
    (fits : r.Fits object reqs c entry stored id) : r.Fits object after c entry' stored id := by
  cases r with
  | direct r => trivial
  | hit d r phase => exact status.trans fits
  | pending d r running done => trivial
  | miss d r buf phase =>
      refine ⟨fill.trans fits.1, ?_⟩
      cases phase with
      | made => exact status.trans fits.2
      | fetching => exact status.trans fits.2
      | dispatching left =>
          obtain ⟨-, filling, holds, awaited⟩ := fits
          exact ⟨status.trans filling, holds, keeps left awaited⟩
      | filling step =>
          obtain ⟨-, filling, holds, written⟩ := fits
          exact ⟨status.trans filling, holds, written⟩
  | insert d key buf step =>
      obtain ⟨filled, filling, holds, written⟩ := fits
      exact ⟨fill.trans filled, status.trans filling, holds, written⟩

theorem agree (sound : Sound object reqs c entry stored)
    (agree : Agree (Req.uses c) reqs after) : Sound object after c entry stored where
  counted := sound.counted.trans agree.count.symm
  keyed := fun id r found uses => sound.keyed id r ((agree.lookup id r uses).mp found) uses
  fits := fun id r found uses =>
    fits_mono rfl rfl (fun _ => awaited_agree agree)
      (sound.fits id r ((agree.lookup id r uses).mp found) uses)
  owner := by
    intro id fill
    obtain ⟨r, found, uses, fills⟩ := sound.owner id fill
    exact ⟨r, (agree.lookup id r uses).mpr found, uses, fills⟩
  busy := sound.busy
  awaited := awaited_agree agree sound.awaited
  quiet := sound.quiet
  kept := sound.kept
  vacant := sound.vacant

theorem unused (sound : Sound object reqs c entry stored) (free : entry.Free) (member : r ∈ reqs) :
    r.uses c = false := by
  have zero : entry.refcount = 0 := free.elim sound.vacant id
  have none : reqs.countP (Req.uses c) = 0 := by
    have counted := sound.counted
    omega
  exact Bool.eq_false_iff.mpr (List.countP_eq_zero.mp none r member)

theorem unfilled (sound : Sound object reqs c entry stored) (free : entry.Free) :
    entry.fill = none := by
  cases fill : entry.fill with
  | none => rfl
  | some id =>
      obtain ⟨r, found, uses, -⟩ := sound.owner id fill
      rw [sound.unused free (List.mem_of_getElem? found)] at uses
      cases uses

theorem unawaited (sound : Sound object reqs c entry stored) (free : entry.Free) :
    entry.pending = [] := by
  rw [List.eq_nil_iff_forall_not_mem]
  intro p member
  obtain ⟨q, running, found⟩ := sound.awaited.2 p member
  have unused := sound.unused free (List.mem_of_getElem? found)
  simp at unused

theorem filler (sound : Sound object reqs c entry stored) (found : reqs[id]? = some r)
    (uses : r.uses c = true) (fills : r.Fills) :
    entry.fill = some id ∧ entry.status ≠ .valid := by
  have fits := sound.fits id r found uses
  have fill : entry.fill = some id := by
    cases r with
    | miss d r buf phase => exact fits.1
    | insert d key buf step => exact fits.1
    | _ => exact fills.elim
  refine ⟨fill, ?_⟩
  intro valid
  have busy := sound.busy.mpr (by simp [fill])
  simp [valid] at busy

variable {stored' : List β}

/-- Whatever becomes of a chunk that is being filled, the other requests on it are reads
that wait. -/
theorem fits_beside {id j : ℕ} (fill : entry.fill = some id) (invalid : entry.status ≠ .valid)
    (other : j ≠ id) (fits : r.Fits object reqs c entry stored j) :
    r.Fits object after c entry' stored' j := by
  have only : entry.fill ≠ some j := fun same => other (Option.some.inj (same.symm.trans fill))
  cases r with
  | direct r => trivial
  | hit d r phase => exact absurd fits invalid
  | pending d r running done => trivial
  | miss d r buf phase => exact absurd fits.1 only
  | insert d key buf step => exact absurd fits.1 only

variable {old new : Req β}

theorem replace
    (sound : Sound object reqs c entry stored) (found : reqs[id]? = some old)
    (uses : old.uses c = true)
    (refs : entry'.refcount = entry.refcount - 1 + if new.uses c then 1 else 0)
    (sameKey : entry'.key = entry.key) (newKey : new.key = old.key)
    (own : new.uses c = true → new.Fits object (reqs.set id new) c entry' stored' id)
    (others : ∀ (j : ℕ) (r : Req β), j ≠ id → reqs[j]? = some r →
      r.Fits object reqs c entry stored j → r.Fits object (reqs.set id new) c entry' stored' j)
    (owner : ∀ j, entry'.fill = some j →
      j = id ∧ new.uses c = true ∧ new.Fills ∨ j ≠ id ∧ entry.fill = some j)
    (busy : (entry'.status = .fetching ∨ entry'.status = .filling) ↔ entry'.fill ≠ none)
    (awaited : Awaited (reqs.set id new) c entry'.pending)
    (quiet : entry'.status ≠ .fetching → entry'.pending = [])
    (kept : entry'.status = .valid → Holds object entry'.key stored')
    (occupied : entry'.status ≠ .empty) : Sound object (reqs.set id new) c entry' stored' where
  counted := by
    rw [refs, sound.counted, set_count found, if_pos uses]
  keyed := by
    intro j r atj used
    rw [set_lookup found] at atj
    split at atj
    · cases atj
      rw [sameKey, newKey]
      exact sound.keyed id old found uses
    · exact (sound.keyed j r atj used).trans sameKey.symm
  fits := by
    intro j r atj used
    rw [set_lookup found] at atj
    split at atj
    case isTrue same =>
      cases atj
      subst same
      exact own used
    case isFalse other => exact others j r other atj (sound.fits j r atj used)
  owner := by
    intro j fill
    rcases owner j fill with ⟨rfl, used, fills⟩ | ⟨other, before⟩
    · exact ⟨new, by rw [set_lookup found, if_pos rfl], used, fills⟩
    · obtain ⟨r, atj, used, fills⟩ := sound.owner j before
      exact ⟨r, by rw [set_lookup found, if_neg other, atj], used, fills⟩
  busy := busy
  awaited := awaited
  quiet := quiet
  kept := kept
  vacant := fun empty => absurd empty occupied

theorem awaited_set (found : reqs[id]? = some old)
    (still : ∀ q running, old = .pending c q running false → id ∈ ids →
      ∃ q running, new = .pending c q running false)
    (awaited : Awaited reqs c ids) : Awaited (reqs.set id new) c ids := by
  refine ⟨awaited.1, ?_⟩
  intro p member
  obtain ⟨q, running, atp⟩ := awaited.2 p member
  rw [set_lookup found]
  by_cases same : p = id
  · subst same
    obtain ⟨q', running', rfl⟩ := still q running (Option.some.inj (found.symm.trans atp)) member
    exact ⟨q', running', if_pos rfl⟩
  · exact ⟨q, running, by rw [if_neg same, atp]⟩

theorem occupied (sound : Sound object reqs c entry stored) (found : reqs[id]? = some r)
    (uses : r.uses c = true) : entry.status ≠ .empty := by
  intro empty
  rw [sound.unused (.inl empty) (List.mem_of_getElem? found)] at uses
  cases uses

theorem replace_reader
    (sound : Sound object reqs c entry stored) (found : reqs[id]? = some old)
    (uses : old.uses c = true) (reader : ¬ old.Fills)
    (refs : entry'.refcount = entry.refcount - 1 + if new.uses c then 1 else 0)
    (same : entry' = { entry with refcount := entry'.refcount }) (newKey : new.key = old.key)
    (own : new.uses c = true → new.Fits object (reqs.set id new) c entry stored id)
    (keeps : ∀ ids, Awaited reqs c ids → Awaited (reqs.set id new) c ids) :
    Sound object (reqs.set id new) c entry' stored := by
  have status : entry'.status = entry.status := by rw [same]
  have fill : entry'.fill = entry.fill := by rw [same]
  have pending : entry'.pending = entry.pending := by rw [same]
  have key : entry'.key = entry.key := by rw [same]
  refine sound.replace found uses refs key newKey ?_ ?_ ?_ ?_ ?_ ?_ ?_ ?_
  · exact fun used => fits_mono status fill (fun _ awaited => awaited) (own used)
  · exact fun j r _ _ fits => fits_mono status fill keeps fits
  · intro j filled
    have before := fill.symm.trans filled
    refine .inr ⟨?_, before⟩
    rintro rfl
    obtain ⟨r, atj, -, fills⟩ := sound.owner j before
    cases found.symm.trans atj
    exact reader fills
  · rw [status, fill]
    exact sound.busy
  · rw [pending]
    exact keeps _ sound.awaited
  · rw [status, pending]
    exact sound.quiet
  · rw [status, key]
    exact sound.kept
  · rw [status]
    exact sound.occupied found uses

theorem replace_filler (sound : Sound object reqs c entry stored) (found : reqs[id]? = some old)
    (uses : old.uses c = true) (fills : old.Fills) (newFills : new.Fills)
    (refs : entry'.refcount = entry.refcount - 1 + if new.uses c then 1 else 0)
    (sameKey : entry'.key = entry.key) (newKey : new.key = old.key)
    (own : new.uses c = true → new.Fits object (reqs.set id new) c entry' stored' id)
    (fill : entry'.fill = if new.uses c then some id else none)
    (busy : (entry'.status = .fetching ∨ entry'.status = .filling) ↔ entry'.fill ≠ none)
    (pending : entry'.pending = entry.pending ∨ entry'.pending = [])
    (quiet : entry'.status ≠ .fetching → entry'.pending = [])
    (kept : entry'.status = .valid → Holds object entry'.key stored')
    (occupied : entry'.status ≠ .empty) : Sound object (reqs.set id new) c entry' stored' := by
  obtain ⟨filled, invalid⟩ := sound.filler found uses fills
  refine sound.replace found uses refs sameKey newKey own ?_ ?_ busy ?_ quiet kept occupied
  · exact fun j r other _ fits => fits_beside filled invalid other fits
  · intro j after
    rw [fill] at after
    split at after
    case isTrue used => exact .inl ⟨(Option.some.inj after).symm, used, newFills⟩
    case isFalse => cases after
  · rcases pending with same | none
    · rw [same]
      refine awaited_set found ?_ sound.awaited
      rintro q running rfl -
      exact fills.elim
    · rw [none]
      exact ⟨List.nodup_nil, by simp⟩

theorem awaited_add {new : Req β} (awaited : Awaited reqs c ids) :
    Awaited (reqs ++ [new]) c ids := by
  refine ⟨awaited.1, ?_⟩
  intro p member
  obtain ⟨q, running, found⟩ := awaited.2 p member
  obtain ⟨inside, -⟩ := List.getElem?_eq_some_iff.mp found
  exact ⟨q, running, by rw [add_lookup, if_neg (by omega), found]⟩

theorem awaited_wait {r : Read β} (awaited : Awaited reqs c ids) :
    Awaited (reqs ++ [.pending c r false false]) c (ids ++ [reqs.length]) := by
  have fresh : reqs.length ∉ ids := by
    intro member
    obtain ⟨q, running, found⟩ := awaited.2 _ member
    rw [List.getElem?_eq_none (Nat.le_refl _)] at found
    cases found
  have before : Awaited (reqs ++ [.pending c r false false]) c ids := awaited_add awaited
  refine ⟨List.Nodup.append before.1 (List.nodup_singleton _) (by simpa using fresh), ?_⟩
  intro p member
  rcases List.mem_append.mp member with earlier | last
  · exact before.2 p earlier
  · obtain rfl := List.mem_singleton.mp last
    exact ⟨r, false, by rw [add_lookup, if_pos rfl]⟩

theorem add_reader {new : Req β} (sound : Sound object reqs c entry stored)
    (uses : new.uses c = true) (refs : entry'.refcount = entry.refcount + 1)
    (status : entry'.status = entry.status) (fill : entry'.fill = entry.fill)
    (key : entry'.key = entry.key) (newKey : new.key = entry.key)
    (own : new.Fits object (reqs ++ [new]) c entry' stored reqs.length)
    (awaited : Awaited (reqs ++ [new]) c entry'.pending)
    (quiet : entry.status ≠ .fetching → entry'.pending = []) (occupied : entry.status ≠ .empty) :
    Sound object (reqs ++ [new]) c entry' stored where
  counted := by rw [refs, sound.counted, add_count, if_pos uses]
  keyed := by
    intro j r atj used
    rw [add_lookup] at atj
    split at atj
    · cases atj
      exact newKey.trans key.symm
    · exact (sound.keyed j r atj used).trans key.symm
  fits := by
    intro j r atj used
    rw [add_lookup] at atj
    split at atj
    case isTrue last =>
      cases atj
      rw [last]
      exact own
    case isFalse =>
      exact fits_mono status fill (fun _ => awaited_add) (sound.fits j r atj used)
  owner := by
    intro j filled
    obtain ⟨r, atj, used, fills⟩ := sound.owner j (fill.symm.trans filled)
    obtain ⟨inside, -⟩ := List.getElem?_eq_some_iff.mp atj
    exact ⟨r, by rw [add_lookup, if_neg (by omega), atj], used, fills⟩
  busy := by
    rw [status, fill]
    exact sound.busy
  awaited := awaited
  quiet := by
    rw [status]
    exact quiet
  kept := by
    rw [status, key]
    exact sound.kept
  vacant := fun empty => absurd (status.symm.trans empty) occupied

theorem add_filler {new : Req β} (sound : Sound object reqs c entry stored) (free : entry.Free)
    (uses : new.uses c = true) (fills : new.Fills) (refs : entry'.refcount = entry.refcount + 1)
    (status : entry'.status = .fetching ∨ entry'.status = .filling)
    (fill : entry'.fill = some reqs.length) (key : entry'.key = new.key)
    (pending : entry'.pending = entry.pending)
    (own : new.Fits object (reqs ++ [new]) c entry' stored reqs.length) :
    Sound object (reqs ++ [new]) c entry' stored where
  counted := by rw [refs, sound.counted, add_count, if_pos uses]
  keyed := by
    intro j r atj used
    rw [add_lookup] at atj
    split at atj
    · cases atj
      exact key.symm
    · rw [sound.unused free (List.mem_of_getElem? atj)] at used
      cases used
  fits := by
    intro j r atj used
    rw [add_lookup] at atj
    split at atj
    case isTrue last =>
      cases atj
      rw [last]
      exact own
    case isFalse =>
      rw [sound.unused free (List.mem_of_getElem? atj)] at used
      cases used
  owner := by
    intro j filled
    cases fill.symm.trans filled
    exact ⟨new, by rw [add_lookup, if_pos rfl], uses, fills⟩
  busy := by simp [status, fill]
  awaited := by
    rw [pending, sound.unawaited free]
    exact ⟨List.nodup_nil, by simp⟩
  quiet := fun _ => pending.trans (sound.unawaited free)
  kept := by
    intro valid
    simp [valid] at status
  vacant := by
    intro empty
    simp [empty] at status

theorem accessed (sound : Sound object reqs c entry stored) (bit : Bool) :
    Sound object reqs c { entry with accessed := bit } stored where
  counted := sound.counted
  keyed := sound.keyed
  fits := fun id r found uses =>
    fits_mono rfl rfl (fun _ awaited => awaited) (sound.fits id r found uses)
  owner := sound.owner
  busy := sound.busy
  awaited := sound.awaited
  quiet := sound.quiet
  kept := sound.kept
  vacant := sound.vacant

theorem cleared (sound : Sound object reqs c entry stored) (cleared : entry.Cleared entry') :
    Sound object reqs c entry' stored := by
  rcases cleared with rfl | ⟨-, rfl⟩
  · exact sound
  · exact sound.accessed false

theorem emptied (sound : Sound object reqs c entry stored) (free : entry.Free) :
    Sound object reqs c { entry with status := .empty } stored where
  counted := sound.counted
  keyed := sound.keyed
  fits := by
    intro id r found uses
    rw [sound.unused free (List.mem_of_getElem? found)] at uses
    cases uses
  owner := sound.owner
  busy := by simp [sound.unfilled free]
  awaited := sound.awaited
  quiet := fun _ => sound.unawaited free
  kept := by
    intro valid
    cases valid
  vacant := fun _ => free.elim sound.vacant fun zero => zero

end Sound

end LsvdRbd.Cache
