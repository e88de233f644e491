import LsvdRbd.Cache.Steps

/-!
# Objects that are written again

Nothing takes the chunks of an object out of the cache when the object is deleted, or
written again under the same name. The invariant of a shard survives that as long as none
of its requests has asked for the object, or the object is only deleted: then the cache
has bytes of an object that is no more.
-/

namespace LsvdRbd.Cache

open Ledger

set_option autoImplicit false

variable {β : Type*} {object object' : String → ℕ → List β}

/-- For this key the object is as it was, or gone. -/
def Keeps (object object' : String → ℕ → List β) (key : Key) : Prop :=
  object' key.image key.seq = object key.image key.seq ∨ object' key.image key.seq = []

theorem Keeps.holds {key : Key} {chunk : List β} (keeps : Keeps object object' key)
    (holds : Holds object key chunk) : Holds object' key chunk := by
  rcases keeps with same | gone
  · rw [Holds, same]
    exact holds
  · simp [Holds, gone]

theorem Keeps.served {r : Read β} (keeps : Keeps object object' r.key) (served : r.Served object) :
    r.Served object' := by
  rcases keeps with same | gone
  · rw [Read.Served, bytes, same]
    exact served
  · simp [Read.Served, bytes, gone]

theorem Keeps.sane {r : Req β} (keeps : Keeps object object' r.key) (sane : r.Sane object) :
    r.Sane object' := by
  cases r with
  | direct r => exact ⟨sane.1, keeps.served sane.2⟩
  | hit c r phase =>
      refine ⟨sane.1, ?_⟩
      cases phase with
      | made => exact sane.2
      | running => exact sane.2
      | answered => exact ⟨sane.2.1, keeps.served sane.2.2⟩
      | released => exact ⟨sane.2.1, keeps.served sane.2.2⟩
  | pending c r running done => exact ⟨sane.1, sane.2.1, fun isDone => keeps.served (sane.2.2 isDone)⟩
  | miss c r buf phase =>
      refine ⟨sane.1, ?_⟩
      cases phase with
      | filling step => exact ⟨sane.2.1, keeps.served sane.2.2⟩
      | _ => exact sane.2
  | insert c key buf step => trivial

variable {entry : Entry} {stored : List β}

theorem Keeps.fits {reqs : List (Req β)} {c id : ℕ} {r : Req β} (keeps : Keeps object object' r.key)
    (fits : r.Fits object reqs c entry stored id) :
    r.Fits object' reqs c entry stored id := by
  cases r with
  | miss d r buf phase =>
      refine ⟨fits.1, ?_⟩
      cases phase with
      | made => exact fits.2
      | fetching => exact fits.2
      | dispatching left => exact ⟨fits.2.1, keeps.holds fits.2.2.1, fits.2.2.2⟩
      | filling step => exact ⟨fits.2.1, keeps.holds fits.2.2.1, fits.2.2.2⟩
  | insert d key buf step => exact ⟨fits.1, fits.2.1, keeps.holds fits.2.2.1, fits.2.2.2⟩
  | _ => exact fits

namespace Shard

def Known (s : Shard β) : Prop :=
  ∀ c, (s.entries c).status = .valid → ∃ r ∈ s.reqs, r.key = (s.entries c).key

variable {s t : Shard β}

/-- Objects that no request has asked for may be written again. -/
theorem Ok.rewritten (ok : s.Ok object) (known : s.Known)
    (keeps : ∀ r ∈ s.reqs, Keeps object object' r.key) : s.Ok object' where
  sound := fun c => {
    ok.sound c with
    fits := fun id r found uses =>
      (keeps r (List.mem_of_getElem? found)).fits ((ok.sound c).fits id r found uses)
    kept := by
      intro valid
      obtain ⟨r, member, key⟩ := known c valid
      exact (key ▸ keeps r member).holds ((ok.sound c).kept valid) }
  mapped := ok.mapped
  sane := fun r member => (keeps r member).sane (ok.sane r member)

variable {event : Event β} {old new : Req β}

theorem Moves.key {id c : ℕ} (moves : Moves s id c event old new entry stored) :
    new.key = old.key := by
  cases moves with
  | runPending r done => cases done <;> rfl
  | _ => rfl

theorem Moves.valid_key {id c : ℕ} (moves : Moves s id c event old new entry stored)
    (valid : entry.status = .valid) :
    (s.entries c).status = .valid ∧ entry.key = (s.entries c).key ∨
      old.uses c = true ∧ entry.key = (s.entries c).key := by
  cases moves with
  | runMiss r buf => cases valid
  | backendDone r buf data => cases valid
  | missDone r buf => exact .inr ⟨by simp, rfl⟩
  | insertDone key buf => exact .inr ⟨by simp, rfl⟩
  | _ => exact .inl ⟨valid, rfl⟩

theorem exists_key_set {reqs : List (Req β)} {id : ℕ} (found : reqs[id]? = some old)
    (same : new.key = old.key) {key : Key} (asked : ∃ r ∈ reqs, r.key = key) :
    ∃ r ∈ reqs.set id new, r.key = key := by
  obtain ⟨r, member, rfl⟩ := asked
  obtain ⟨j, at_j⟩ := List.mem_iff_getElem?.mp member
  by_cases here : j = id
  · subst here
    cases found.symm.trans at_j
    exact ⟨new, List.mem_of_getElem? (by rw [set_lookup found, if_pos rfl]), same⟩
  · exact ⟨r, List.mem_of_getElem? (by rw [set_lookup found, if_neg here, at_j]), rfl⟩

theorem Known.touched {new : Req β} {c : ℕ} (known : s.Known)
    (status : entry.status = (s.entries c).status) (key : entry.key = (s.entries c).key) :
    ((s.setEntry c entry).addReq new).Known := by
  intro d valid
  have same : (((s.setEntry c entry).addReq new).entries d).key = (s.entries d).key ∧
      (((s.setEntry c entry).addReq new).entries d).status = (s.entries d).status := by
    show (Function.update s.entries c entry d).key = _ ∧
      (Function.update s.entries c entry d).status = _
    by_cases here : d = c
    · rw [here, Function.update_self]
      exact ⟨key, status⟩
    · rw [Function.update_of_ne here]
      exact ⟨rfl, rfl⟩
  obtain ⟨r, member, keyed⟩ := known d (same.2 ▸ valid)
  exact ⟨r, List.mem_append_left _ member, keyed.trans same.1.symm⟩

theorem Known.given {c : ℕ} {key : Key} {new : Req β} (known : s.Known) (took : s.Took c t)
    (invalid : entry.status ≠ .valid) :
    (((t.setEntry c entry).mapInsert key c).addReq new).Known := by
  intro d valid
  have entries : (((t.setEntry c entry).mapInsert key c).addReq new).entries d =
      Function.update t.entries c entry d := rfl
  rw [entries] at valid ⊢
  by_cases here : d = c
  · rw [here, Function.update_self] at valid
    exact absurd valid invalid
  · rw [Function.update_of_ne here, took.status, if_neg here] at valid
    obtain ⟨r, member, keyed⟩ := known d valid
    refine ⟨r, List.mem_append_left _ (took.reqs ▸ member), ?_⟩
    rw [Function.update_of_ne here, took.key, keyed]

theorem Known.next (known : s.Known) (ok : s.Ok object) (stepped : s.next event = some t) :
    t.Known := by
  cases next_cases stepped with
  | hit mapped valid => exact known.touched rfl rfl
  | direct mapped filling buffered => exact known.touched rfl rfl
  | wait mapped fetching => exact known.touched rfl rfl
  | miss unmapped allocated => exact known.given (allocate_took allocated) (by simp)
  | insert allocated => exact known.given (allocate_took allocated) (by simp)
  | @move _ id c old new entry stored found moves =>
      intro d valid
      refine exists_key_set found moves.key ?_
      change (Function.update s.entries c entry d).status = .valid at valid
      show ∃ r ∈ s.reqs, r.key = (Function.update s.entries c entry d).key
      by_cases here : d = c
      · rw [here, Function.update_self] at valid ⊢
        rcases moves.valid_key valid with ⟨before, key⟩ | ⟨uses, key⟩
        · rw [key]
          exact known c before
        · rw [key]
          exact ⟨old, List.mem_of_getElem? found, (ok.sound c).keyed id old found uses⟩
      · rw [Function.update_of_ne here] at valid ⊢
        exact known d valid
  | @dispatch id c d p r q buf left running found waiting =>
      intro e valid
      have entries : ∀ e, (Function.update s.entries d
          { s.entries d with refcount := (s.entries d).refcount - 1 } e).key = (s.entries e).key ∧
          (Function.update s.entries d
            { s.entries d with refcount := (s.entries d).refcount - 1 } e).status =
            (s.entries e).status := by
        intro e
        by_cases here : e = d
        · rw [here, Function.update_self]
          exact ⟨rfl, rfl⟩
        · rw [Function.update_of_ne here]
          exact ⟨rfl, rfl⟩
      obtain ⟨other, member, keyed⟩ := known e ((entries e).2 ▸ valid)
      have apart : p ≠ id := by
        rintro rfl
        cases found.symm.trans waiting
      have served : ∃ r ∈ s.reqs.set p (.pending d (if running then (q.copyIn buf).notify
          else q.copyIn buf) running true), r.key = (Function.update s.entries d
            { s.entries d with refcount := (s.entries d).refcount - 1 } e).key :=
        exists_key_set waiting (by cases running <;> rfl)
          ⟨other, member, keyed.trans (entries e).1.symm⟩
      have turned : (s.reqs.set p (.pending d (if running then (q.copyIn buf).notify
          else q.copyIn buf) running true))[id]? = some (.miss c r buf (.dispatching (p :: left))) := by
        rw [set_lookup waiting, if_neg apart.symm, found]
      exact exists_key_set turned (rfl : (Req.miss c r buf (.dispatching left)).key = _) served

end Shard

end LsvdRbd.Cache
