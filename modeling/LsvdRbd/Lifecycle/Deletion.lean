import LsvdRbd.Lifecycle.Lineage

/-!
# Deleting an image

`delete_image` deletes the checkpoints that the superblock lists, and then one number
after the other from the last of them on, until it has missed often enough. Objects
before the last checkpoint, and objects behind a wide gap, stay. A later image of the
same name starts again from number 1 and steps onto them.
-/

namespace LsvdRbd.Lifecycle

open Records RunList ExtentMap Format Translate Recovery Session Machine

set_option autoImplicit false

variable {σ : Type*}

/-- The listed checkpoints are deleted; nothing stands for an error from the
backend, which a missing object gives. -/
def deleteListed : List ℕ → Store σ → Option (Store σ)
  | [], store => some store
  | c :: rest, store => match store[c]? with
      | none => none
      | some _ => deleteListed rest (store.erase c)

/-- The loop `for (int n = 0; n < 16; seq++, n++)`, with what is left of its fuel; a
delete that succeeds sets `n` back. -/
def probe : ℕ → ℕ → ℕ → Store σ → Option (Store σ)
  | 0, _, _, _ => none
  | fuel + 1, n, seq, store =>
      if n < 16 then
        match store[seq]? with
        | some _ => probe fuel 1 (nextSeq seq) (store.erase seq)
        | none => probe fuel (n + 1) (nextSeq seq) store
      else some store

/-- `delete_image`: what is left of the numbered objects when it returns 0. Without
checkpoints the loop starts from a variable that was never set. -/
def deleteImage (unset : ℕ) (backend : Backend σ) : Option (Store σ) :=
  (deleteListed backend.super backend.store).bind fun store =>
    probe (16 * store.size + 17) 0 (backend.super.getLast?.getD unset) store

/-! ## The listed checkpoints -/

theorem delete_listed {listed : List ℕ} {store : Store σ} (distinct : listed.Nodup)
    (present : ∀ c ∈ listed, ∃ obj, store[c]? = some obj) :
    deleteListed listed store = some (listed.foldl (fun store c => store.erase c) store) := by
  induction listed generalizing store with
  | nil => rfl
  | cons c rest ih =>
      obtain ⟨fresh, restDistinct⟩ := List.nodup_cons.mp distinct
      obtain ⟨obj, here⟩ := present c (by simp)
      rw [deleteListed, here]
      refine ih restDistinct ?_
      intro other member
      have different : c ≠ other := fun same => fresh (same ▸ member)
      rw [table_erase, if_neg different]
      exact present other (by simp [member])

theorem delete_listed_eq {listed : List ℕ} {store out : Store σ}
    (deleted : deleteListed listed store = some out) :
    out = listed.foldl (fun store c => store.erase c) store ∧
      ∀ c ∈ listed, ∃ obj, store[c]? = some obj := by
  induction listed generalizing store with
  | nil => exact ⟨(Option.some.inj deleted).symm, by simp⟩
  | cons c rest ih =>
      rw [deleteListed] at deleted
      split at deleted
      · cases deleted
      · next obj here =>
          obtain ⟨same, present⟩ := ih deleted
          refine ⟨same, ?_⟩
          intro other member
          rcases List.mem_cons.mp member with rfl | later
          · exact ⟨obj, here⟩
          · exact (present other later).imp fun _ => table_of_erase

/-! ## The loop -/

section Probe

variable {store out : Store σ} {fuel n seq anchor m : ℕ}

/-- The loop gets from the anchor, or from an object after it, to the number before
it gives up. -/
def Near (anchor : ℕ) (store : Store σ) (m : ℕ) : Prop :=
  ∃ start, (start = anchor ∨ ∃ obj, store[start]? = some obj) ∧ anchor ≤ start ∧ start < m ∧
    m ≤ start + 15

theorem Near.le (near : Near anchor store m) : anchor ≤ m := by
  obtain ⟨start, -, after, before, -⟩ := near
  omega

theorem probe_returns (few : n ≤ 16) (enough : 16 * store.size + 17 ≤ fuel + n) :
    ∃ out, probe fuel n seq store = some out := by
  induction fuel generalizing n seq store with
  | zero => omega
  | succ fuel ih =>
      rw [probe]
      split
      · cases found : store[seq]? with
        | none => exact ih (by omega) (by omega)
        | some obj =>
            have member : seq ∈ store := Std.ExtTreeMap.mem_iff_isSome_getElem?.mpr (by simp [found])
            have smaller := @Std.ExtTreeMap.size_erase _ _ _ store _ seq
            rw [if_pos (Std.ExtTreeMap.contains_iff_mem.mpr member)] at smaller
            have positive : store.size ≠ 0 := by
              intro none
              rw [Std.ExtTreeMap.eq_empty_iff_size_eq_zero.mpr none] at found
              simp at found
            exact ih (by omega) (by omega)
      · exact ⟨store, rfl⟩

theorem probe_present {obj : Obj σ} (ended : probe fuel n seq store = some out)
    (present : out[m]? = some obj) : store[m]? = some obj := by
  induction fuel generalizing n seq store with
  | zero => cases ended
  | succ fuel ih =>
      rw [probe] at ended
      split at ended
      · split at ended
        · exact table_of_erase (ih ended)
        · exact ih ended
      · cases ended
        exact present

private theorem next_probed (limit : seq + 16 < 2 ^ 32 + n) (few : n < 16) :
    nextSeq seq = seq + 1 := by
  unfold nextSeq
  omega

/-- What the loop cannot get to stays. The anchor is the last number that was there,
`n` numbers back. -/
theorem probe_misses (small : ∀ (m : ℕ) (obj : Obj σ), store[m]? = some obj → m + 16 < 2 ^ 32)
    (limit : seq + 16 < 2 ^ 32 + n) (back : seq = anchor + n) (gone : store[anchor]? = none)
    (far : ¬Near anchor store m) (ended : probe fuel n seq store = some out) :
    out[m]? = store[m]? := by
  induction fuel generalizing n seq store anchor with
  | zero => cases ended
  | succ fuel ih =>
      rw [probe] at ended
      split at ended
      · next more =>
          have next := next_probed limit more
          cases found : store[seq]? with
          | none =>
              simp only [found, next] at ended
              exact ih small (by omega) (by omega) gone far ended
          | some obj =>
              simp only [found, next] at ended
              have bound := small seq obj found
              have moved : anchor ≠ seq := by
                rintro rfl
                rw [gone] at found
                cases found
              have different : seq ≠ m := by
                rintro rfl
                exact far ⟨anchor, .inl rfl, le_refl _, by omega, by omega⟩
              have farther : ¬Near seq (store.erase seq) m := by
                rintro ⟨start, isStart, after, before, reach⟩
                refine far ⟨start, .inr ?_, by omega, before, reach⟩
                rcases isStart with rfl | ⟨any, present⟩
                · exact ⟨obj, found⟩
                · exact ⟨any, table_of_erase present⟩
              have same := ih (fun o any present => small o any (table_of_erase present)) (by omega)
                rfl (by rw [table_erase, if_pos rfl]) farther ended
              rw [same, table_erase, if_neg different]
      · cases ended
        rfl

/-- If the loop can get to everything, nothing stays. -/
theorem probe_clears (small : ∀ (m : ℕ) (obj : Obj σ), store[m]? = some obj → m + 16 < 2 ^ 32)
    (few : n ≤ 16) (limit : seq + 16 < 2 ^ 32 + n) (back : seq = anchor + n)
    (ahead : ∀ (m : ℕ) (obj : Obj σ), store[m]? = some obj → seq ≤ m ∧ Near anchor store m)
    (ended : probe fuel n seq store = some out) : ∀ m : ℕ, out[m]? = none := by
  induction fuel generalizing n seq store anchor with
  | zero => cases ended
  | succ fuel ih =>
      rw [probe] at ended
      split at ended
      · next more =>
          have next := next_probed limit more
          cases found : store[seq]? with
          | none =>
              simp only [found, next] at ended
              have stepped : seq + 1 = anchor + (n + 1) := by omega
              refine ih small (by omega) (by omega) stepped ?_ ended
              intro m any present
              obtain ⟨after, near⟩ := ahead m any present
              refine ⟨Nat.lt_of_le_of_ne after ?_, near⟩
              rintro rfl
              rw [found] at present
              cases present
          | some obj =>
              simp only [found, next] at ended
              have bound := small seq obj found
              refine ih (fun o any present => small o any (table_of_erase present)) (by omega)
                (by omega) rfl ?_ ended
              intro m any present
              obtain ⟨after, start, isStart, low, before, reach⟩ := ahead m any (table_of_erase present)
              have different : seq ≠ m := by
                rintro rfl
                rw [table_erase, if_pos rfl] at present
                cases present
              refine ⟨by omega, ?_⟩
              by_cases later : seq < start
              · refine ⟨start, .inr ?_, later.le, before, reach⟩
                rcases isStart with rfl | ⟨other, there⟩
                · omega
                · exact ⟨other, by rw [table_erase, if_neg (by omega)]; exact there⟩
              · exact ⟨seq, .inl rfl, le_refl _, by omega, by omega⟩
      · next done =>
          obtain rfl := Option.some.inj ended
          -- the first object that is left would have been near the anchor
          intro m
          induction m using Nat.strong_induction_on with
          | _ m earlier =>
              cases present : store[m]? with
              | none => rfl
              | some obj =>
                  obtain ⟨after, start, isStart, low, before, reach⟩ := ahead m obj present
                  rcases isStart with rfl | ⟨other, there⟩
                  · omega
                  · rw [earlier start before] at there
                    cases there

end Probe

/-! ## What stays -/

/-- Every object is a listed checkpoint, or the loop gets to it from the last one. -/
def Probed (backend : Backend σ) : Prop :=
  ∀ (n : ℕ) (obj : Obj σ), backend.store[n]? = some obj → n ∈ backend.super ∨
    ∃ last, backend.super.getLast? = some last ∧
      Near last (backend.super.foldl (fun store c => store.erase c) backend.store) n

/-- The loop does not get to where the numbers come round. -/
def Low (backend : Backend σ) : Prop :=
  ∀ (n : ℕ) (obj : Obj σ), backend.store[n]? = some obj → n + 16 < 2 ^ 32

variable {uuid : ℕ}

theorem Sealed.low {backend : Backend σ} (isSealed : Sealed uuid backend) :
    Low backend := by
  intro n obj present
  have bound := isSealed.stored n obj present
  omega

section Image

variable {backend : Backend σ} {unset : ℕ} {store : Store σ}

theorem delete_image_returns (distinct : backend.super.Nodup)
    (present : ∀ c ∈ backend.super, ∃ obj, backend.store[c]? = some obj) (unset : ℕ) :
    ∃ store, deleteImage unset backend = some store := by
  rw [deleteImage, delete_listed distinct present]
  exact probe_returns (by omega) (by omega)

theorem Sealed.distinct (isSealed : Sealed uuid backend) : backend.super.Nodup :=
  isSealed.increasing.imp fun order => order.ne

theorem Sealed.present (isSealed : Sealed uuid backend) :
    ∀ c ∈ backend.super, ∃ obj, backend.store[c]? = some obj :=
  fun c member => (isSealed.listed c member).imp fun _ => And.left

theorem delete_image_cases {last : ℕ} (isLast : backend.super.getLast? = some last)
    (deleted : deleteImage unset backend = some store) :
    (∃ obj, backend.store[last]? = some obj) ∧ ∃ fuel, probe fuel 0 last
      (backend.super.foldl (fun store c => store.erase c) backend.store) = some store := by
  obtain ⟨rest, listed, ended⟩ := Option.bind_eq_some_iff.mp deleted
  obtain ⟨rfl, present⟩ := delete_listed_eq listed
  rw [isLast] at ended
  exact ⟨present last (List.mem_of_getLast? isLast), _, ended⟩

theorem delete_image_clears_iff (low : Low backend) (listed : backend.super ≠ [])
    (deleted : deleteImage unset backend = some store) :
    Probed backend ↔ ∀ n : ℕ, store[n]? = none := by
  obtain ⟨last, isLast⟩ := Option.ne_none_iff_exists'.mp
    (fun none => listed (List.getLast?_eq_none_iff.mp none))
  obtain ⟨⟨lastObj, lastPresent⟩, fuel, ended⟩ := delete_image_cases isLast deleted
  have lastLow := low last lastObj lastPresent
  have lookup := table_erase_all backend.super backend.store
  set rest := backend.super.foldl (fun store c => store.erase c) backend.store
  have member : last ∈ backend.super := List.mem_of_getLast? isLast
  have gone : rest[last]? = none := by rw [lookup, if_pos member]
  have kept : ∀ (n : ℕ) (obj : Obj σ), rest[n]? = some obj →
      n ∉ backend.super ∧ backend.store[n]? = some obj := by
    intro n obj present
    rw [lookup] at present
    split at present
    · cases present
    · next unlisted => exact ⟨unlisted, present⟩
  have small : ∀ (n : ℕ) (obj : Obj σ), rest[n]? = some obj → n + 16 < 2 ^ 32 :=
    fun n obj present => low n obj (kept n obj present).2
  constructor
  · intro probed
    refine probe_clears small (by omega) (by omega) rfl ?_ ended
    intro n obj present
    obtain ⟨unlisted, there⟩ := kept n obj present
    obtain ⟨other, isOther, near⟩ := (probed n obj there).resolve_left unlisted
    cases isLast.symm.trans isOther
    exact ⟨near.le, near⟩
  · intro empty n obj present
    by_contra missed
    obtain ⟨unlisted, far⟩ := not_or.mp missed
    have stays := probe_misses small (by omega) rfl gone (fun near => far ⟨last, isLast, near⟩) ended
    rw [empty n, lookup, if_neg unlisted, present] at stays
    cases stays

/-- Without a listed checkpoint, only an image that was never written is clear. -/
theorem Probed.clears (probed : Probed backend) (low : Low backend)
    (deleted : deleteImage unset backend = some store) : ∀ n : ℕ, store[n]? = none := by
  by_cases listed : backend.super = []
  · obtain ⟨rest, same, ended⟩ := Option.bind_eq_some_iff.mp deleted
    rw [listed] at same
    cases same
    intro n
    cases present : store[n]? with
    | none => rfl
    | some obj =>
        have reached := probed n obj (probe_present ended present)
        simp [listed] at reached
  · exact (delete_image_clears_iff low listed deleted).mp probed

end Image

/-! ## The next image of the name -/

/-- `delete_image` and then `create_new` with the same name. -/
def Lineage.recreate (unset : ℕ) (h : Lineage σ) : Option (Lineage σ) := match h.world with
  | .closed backend =>
      (deleteImage unset backend).map fun store => ⟨.closed ⟨store, []⟩, h.chronicle⟩
  | .opened _ _ => none

theorem Lineage.recreate_cases {unset : ℕ} {h fresh : Lineage σ}
    (recreated : h.recreate unset = some fresh) :
    ∃ store, deleteImage unset h.world.backend = some store ∧
      fresh = ⟨.closed ⟨store, []⟩, h.chronicle⟩ := by
  unfold Lineage.recreate at recreated
  split at recreated
  · next backend closed =>
      obtain ⟨store, deleted, same⟩ := Option.map_eq_some_iff.mp recreated
      rw [closed]
      exact ⟨store, deleted, same.symm⟩
  · cases recreated

def Lineage.Since (session : ℕ) (h : Lineage σ) : Prop :=
  (∀ (n : ℕ) (obj : Obj σ), h.world.backend.store[n]? = some obj → session < h.chronicle.author n) ∧
    match h.world with
    | .closed _ => session ≤ h.chronicle.session
    | .opened _ _ => session < h.chronicle.session

theorem Lineage.Since.step {crc32 : Bytes → ℕ} {uuid session : ℕ} {h h' : Lineage σ} {e : Event σ}
    (since : h.Since session) (stepped : h.step crc32 uuid e = some h') : h'.Since session := by
  obtain ⟨world, r⟩ := h
  obtain ⟨written, later⟩ := since
  obtain ⟨w, moved, rfl⟩ := Option.map_eq_some_iff.mp stepped
  cases step_cases moved with
  | launch recovered =>
      refine ⟨?_, Nat.lt_succ_of_le later⟩
      intro n obj present
      cases recover_cases recovered with
      | blank none => exact written n obj present
      | replayed isLast read ran => exact written n obj (delete_first_present present)
  | abandonIdle => exact ⟨written, later⟩
  | abandonDeleting recovered listed few =>
      exact ⟨fun n obj present => written n obj (delete_first_present present), later⟩
  | crash => exact ⟨written, le_of_lt later⟩
  | act taken =>
      rename_i cfg tx tx' a
      rcases taken.landed with ⟨none, fewer⟩ | ⟨m, new, lands, store, -⟩
      · have same : Lineage.record r (.opened cfg tx) (.act a) (.opened cfg tx') = r := by
          simp only [Lineage.record, none]
        rw [same]
        exact ⟨fun n obj present => written n obj (fewer n obj present), later⟩
      · have noted : Lineage.record r (.opened cfg tx) (.act a) (.opened cfg tx') = r.writes m := by
          simp only [Lineage.record, lands]
        rw [noted]
        refine ⟨?_, later⟩
        intro n obj present
        by_cases same : n = m
        · subst same
          change session < Function.update r.author n r.session n
          rw [Function.update_self]
          exact later
        · change session < Function.update r.author m r.session n
          rw [Function.update_of_ne same]
          refine written n obj ?_
          change tx.store[n]? = some obj
          change tx'.store[n]? = some obj at present
          rwa [store, table_insert, if_neg (Ne.symm same)] at present

theorem Lineage.history_sealed {crc32 : Bytes → ℕ} {events : List (Event σ)} {h : Lineage σ}
    (uuidBound : uuid < 2 ^ 128)
    (along : Along (Lineage.step crc32 uuid) (fun h => Limited h.world) .create events)
    (ran : run (Lineage.step crc32 uuid) .create events = some h) :
    Sealed uuid h.world.backend := by
  have keeps : ∀ (h : Lineage σ) (e : Event σ) (next : Lineage σ), Kept uuid h.world →
      Limited h.world e → h.step crc32 uuid e = some next → Kept uuid next.world := by
    intro h e next kept limited stepped
    obtain ⟨w, moved, rfl⟩ := Option.map_eq_some_iff.mp stepped
    exact kept.step uuidBound limited moved
  have kept : Kept uuid h.world := invariant_along keeps (create_kept uuid) along ran
  exact kept.isSealed

/-- Every history of an image, then `delete_image`. It returns 0 if the numbers of the
history stayed within the limits. Whenever it does, nothing is left exactly if every
object is a listed checkpoint or is found from the last one on without 15 missing
numbers in a row. If so, then in every history of a new image of the same name, all
that recovery replays and all that the backend has under the numbers of the recovered
map was written by a session of the new image. -/
theorem deleted_image_leaves_nothing {crc32 : Bytes → ℕ} {uuid : ℕ} {events : List (Event σ)}
    {h : Lineage σ} (ran : run (Lineage.step crc32 uuid) .create events = some h) (unset : ℕ) :
    (uuid < 2 ^ 128 →
      Along (Lineage.step crc32 uuid) (fun h => Limited h.world) .create events →
      Low h.world.backend ∧ ∀ backend, h.world = .closed backend →
        ∃ fresh, h.recreate unset = some fresh) ∧
    ∀ fresh, h.recreate unset = some fresh → Low h.world.backend →
      (h.world.backend.super ≠ [] →
        (Probed h.world.backend ↔ ∀ n : ℕ, fresh.world.backend.store[n]? = none)) ∧
      (Probed h.world.backend → ∀ (uuid' : ℕ) (later : List (Event σ)) (h' : Lineage σ),
        run (Lineage.step crc32 uuid') fresh later = some h' →
        (∀ n ∈ h'.world.backend.replayed, h.chronicle.session < h'.chronicle.author n) ∧
        ∀ window image last store',
          recover window h'.world.backend.super h'.world.backend.store =
            some (.ok (image, last, store')) →
          ∀ x p, locate image.objmap x = some p →
            ∀ obj, h'.world.backend.store[p.obj.toNat]? = some obj →
              h.chronicle.session < h'.chronicle.author p.obj.toNat) := by
  constructor
  · intro uuidBound along
    have isSealed := Lineage.history_sealed uuidBound along ran
    refine ⟨isSealed.low, ?_⟩
    intro backend closed
    obtain ⟨store, deleted⟩ := delete_image_returns isSealed.distinct isSealed.present unset
    refine ⟨⟨.closed ⟨store, []⟩, h.chronicle⟩, ?_⟩
    rw [closed] at deleted
    change deleteImage unset backend = some store at deleted
    simp only [Lineage.recreate, closed, deleted, Option.map_some]
  · intro fresh recreated low
    obtain ⟨store, deleted, rfl⟩ := Lineage.recreate_cases recreated
    refine ⟨fun listed => delete_image_clears_iff low listed deleted, ?_⟩
    intro probed uuid' later h' reran
    have start : (⟨.closed ⟨store, []⟩, h.chronicle⟩ : Lineage σ).Since h.chronicle.session := by
      refine ⟨?_, le_refl _⟩
      intro n obj present
      change store[n]? = _ at present
      rw [probed.clears low deleted n] at present
      cases present
    have since : h'.Since h.chronicle.session := invariant_run
      (fun _ _ _ since stepped => since.step stepped) start reran
    constructor
    · intro n member
      obtain ⟨obj, present⟩ := replayed_present member
      exact since.1 n obj present
    · intro window image last store' recovered x p found obj present
      exact since.1 _ obj present

def writeObject (n : ℕ) : List (Event ℕ) :=
  [.act (.writev 8 [n, n] 0), .act (.flushThread (n * 5000000)), .act .work, .act (.complete n)]

def writeCheckpoint : List (Event ℕ) :=
  [.act (.checkpoint 0), .act .work, .act .ckptStep, .act .ckptStep, .act .ckptStep]

def checkpointFirst : List (Event ℕ) :=
  [.launch smallConfig 1000000] ++ writeCheckpoint ++ writeObject 2 ++ [.crash]

theorem deleted_image_leaves_nothing_twice : ∃ h fresh h' : Lineage ℕ,
    run (Lineage.step (fun _ => 0) 7) .create checkpointFirst = some h ∧
      h.recreate 0 = some fresh ∧
      run (Lineage.step (fun _ => 0) 8) fresh checkpointFirst = some h' ∧
      h'.world.backend.replayed = [2] ∧ h.chronicle.session < h'.chronicle.author 2 := by
  obtain ⟨h, ran, held⟩ := (Option.any_eq_true _ _).mp
    (by decide +kernel : (run (Lineage.step (fun _ => 0) 7) .create checkpointFirst).any (fun h =>
      decide (h.world.backend.super = [1]) && (h.recreate 0).any (fun fresh =>
        decide (fresh.world.backend.store.size = 0) &&
          (run (Lineage.step (fun _ => 0) 8) fresh checkpointFirst).any (fun h' =>
            decide (h'.world.backend.replayed = [2])))) = true)
  obtain ⟨super, rest⟩ := (Bool.and_eq_true _ _).mp held
  obtain ⟨fresh, recreated, again⟩ := (Option.any_eq_true _ _).mp rest
  obtain ⟨none, reopened⟩ := (Bool.and_eq_true _ _).mp again
  obtain ⟨h', reran, replays⟩ := (Option.any_eq_true _ _).mp reopened
  have replayed := of_decide_eq_true replays
  obtain ⟨limits, outcome⟩ := deleted_image_leaves_nothing ran 0
  obtain ⟨clears, later⟩ := outcome fresh recreated (limits (by norm_num) (by decide +kernel)).1
  have probed : Probed h.world.backend := by
    rw [clears (by rw [of_decide_eq_true super]; simp)]
    rw [Std.ExtTreeMap.eq_empty_iff_size_eq_zero.mpr (of_decide_eq_true none)]
    simp
  obtain ⟨since, -⟩ := later probed 8 checkpointFirst h' reran
  exact ⟨h, fresh, h', ran, recreated, reran, replayed, since 2 (by simp [replayed])⟩

/-- Objects 1 and 2 and then checkpoint 3. Deleting the image leaves the two objects,
and after the new image has written checkpoint 1 recovery replays object 2 of the old
one. -/
theorem deleted_image_replayed :
    (((run (Lineage.step (fun _ => 0) 7) .create ([.launch smallConfig 1000000] ++ writeObject 1 ++
        writeObject 2 ++ writeCheckpoint ++ [.crash])).bind (Lineage.recreate 0)).bind fun fresh =>
      (run (Lineage.step (fun _ => 0) 8) fresh ([.launch smallConfig 1000000] ++ writeCheckpoint ++
        [.crash])).map fun h' =>
          (fresh.chronicle.session, h'.world.backend.replayed, h'.chronicle.author 2)) =
      some (1, [2], 1) := by
  decide +kernel

end LsvdRbd.Lifecycle
