import LsvdRbd.Session.Trail

/-!
# A session keeps its pledge

Without trims and garbage collection, and if checkpoints are taken only while no PUT is
outstanding, every step keeps the trail: the maps at the numbers since the newest
checkpoint have volumes that the image may come back with.
-/

namespace LsvdRbd.Session

open Records RunList ExtentMap Format Translate Recovery

set_option autoImplicit false

variable {σ : Type*} {env : Env} {a : Action σ}

theorem Action.Plain.deletes (plain : a.Plain) (s : Tx σ) : s.deletes a = [] := by
  cases a with
  | gcReap o => exact plain.elim
  | gcDelete => exact plain.elim
  | _ => rfl

namespace Tx

variable {s s' : Tx σ} {zero : σ}

structure Recorded (uuid : ℕ) (zero : σ) (p : Pledge σ) (t : Trail) (s : Tx σ) : Prop where
  timed : s.Timed zero p.since t.mark
  asked : p.asked = points t.mark s.queue
  linked : s.Linked uuid zero p.since t

structure Durable (env : Env) (zero : σ) (p : Pledge σ) (s : Tx σ) : Prop where
  good : s.Good env zero p.now
  noGc : s.NoGc
  guarded : s.Guarded env.uuid
  dense : s.Dense
  early : ∀ (n : ℕ) (obj : Obj σ), s.store[n]? = some obj → n < s.curSeq
  intact : s.maps.Intact s.curSeq
  recorded : ∃ t, s.Recorded env.uuid zero p t

/-! ## The maps -/

theorem Stepped.intact (stepped : Stepped env s a s') (ok : s.Ok env) (envOk : env.Ok)
    (inRange : InRange s a) (plain : a.Plain) (noGc : s.NoGc) (intact : s.maps.Intact s.curSeq) :
    s'.maps.Intact s'.curSeq := by
  cases stepped with
  | write rolled nonempty room => cases rolled <;> exact intact
  | flush rolled => cases rolled <;> exact intact
  | checkpoint rolled => cases rolled <;> exact intact
  | flushThread rolled => cases rolled <;> exact intact
  | trim done => exact plain.elim
  | complete member => exact intact
  | ckpt busy done =>
      rw [done.frame.1, done.frame.2.2.1]
      exact intact
  | collect collected => cases collected <;> exact plain.elim
  | work free worked =>
      have next : nextSeq s.curSeq = s.curSeq + 1 := next_seq_eq inRange
      cases worked with
      | put head done =>
          rename_i r rest maps obj
          have inBuffers := mem_buffers_of_queued head
          have proper := (ok.buffered.proper r inBuffers).proper
          obtain ⟨emits, data⟩ := process_batch_emits ok.consistent.sound proper envOk.uuid inRange done
          have after := process_batch_next ok.consistent ok.below proper inRange done
          rw [← data] at after
          change maps.Intact (nextSeq s.curSeq)
          rw [next]
          exact intact.emitted emits after
      | gc head done =>
          have isGc := noGc.queued _ (by rw [head]; exact List.mem_cons_self)
          cases isGc
      | ckpt head done =>
          change s.maps.Intact (nextSeq s.curSeq)
          rw [next]
          exact intact.skip
      | flush head quiet => exact intact

/-! ## The checkpoints -/

theorem Imaged.step {uuid : ℕ} {view : ℕ → ℤ → Option ObjOffset} {c : ℕ} {obj : Obj σ}
    (imaged : Imaged uuid view s c obj) (grows : s.curSeq ≤ s'.curSeq) :
    Imaged uuid view s' c obj := ⟨lt_of_lt_of_le imaged.1 grows, imaged.2⟩

theorem Stepped.imaged {uuid : ℕ} {view : ℕ → ℤ → Option ObjOffset}
    (stepped : Stepped env s a s') (left : NumbersLeft s a) (separate : s.Separate)
    (made : ∀ byGc rest obj, a = .work → s.queue = .ckpt byGc :: rest →
      checkpointObject env.uuid s.curSeq s.maps = some obj → Imaged uuid view s' s.curSeq obj)
    (saved : s.Backed (Imaged uuid view)) : s'.Backed (Imaged uuid view) :=
  stepped.backed (fun put member => (separate.flying put member).2) separate.ordinary
    (fun n member => separate.taken n (List.mem_append_left _ member))
    (fun _ _ imaged => imaged.step (stepped.counts left).1) made saved

section Steps

variable {uuid : ℕ} {p : Pledge σ} {t : Trail} {since since' : List (ℤ → σ)}

theorem Linked.host (linked : s.Linked uuid zero since t) (curSeq : s'.curSeq = s.curSeq)
    (maps : s'.maps = s.maps) (super : s'.super = s.super) (store : s'.store = s.store)
    (inflight : s'.inflight = s.inflight) (ckpting : s'.ckpting = s.ckpting)
    (ckpts : s'.ckpts = s.ckpts)
    (grows : ∀ (i : ℕ) (v : ℤ → σ), since[i]? = some v → since'[i]? = some v) :
    s'.Linked uuid zero since' t := by
  have base : s'.base = s.base := by rw [Tx.base, Tx.base, super]
  have numbers : ∀ n, s.DataNumber n → s'.DataNumber n := by
    intro n data
    unfold DataNumber ckptNumbers
    rw [curSeq, ckpting, ckpts]
    exact data
  refine linked.quiet curSeq (by rw [maps]) base.ge (by rw [base, curSeq]; exact linked.started)
    (fun none => super ▸ none) ?_ ?_ ?_ (fun n _ => object_of_store inflight (by rw [store])) numbers
    grows ?_
  · intro put member
    rw [inflight] at member
    rw [base, store]
    exact ⟨member, (linked.flying put member).2⟩
  · rw [ckpting, inflight, store]
    exact linked.writing
  · intro k busy after
    exact ⟨k, by rw [ckpting]; exact busy, rfl⟩
  · exact linked.saved.of_same ckpts super ckpting (fun n _ => by rw [store])
      fun c obj imaged => imaged.step curSeq.ge

theorem Linked.land (linked : s.Linked uuid zero since t) (ok : s.Ok env) (separate : s.Separate)
    {put : Put σ} (member : put ∈ s.inflight) : (s.land env put).Linked uuid zero since t := by
  have stepped : Stepped env s (.complete put.seq) (s.land env put) := .complete member
  refine linked.quiet rfl rfl (le_refl _) linked.started (fun none => none) ?_ ?_ ?_
    (fun n data => object_complete ok member n) (fun n data => data.step stepped trivial)
    (fun _ _ => id) (stepped.imaged trivial separate (fun _ _ _ same => by cases same) linked.saved)
  · intro other inside
    obtain ⟨inflight, different⟩ := List.mem_filter.mp inside
    simp only [decide_eq_true_eq] at different
    obtain ⟨-, after, absent⟩ := linked.flying other inflight
    refine ⟨inflight, after, ?_⟩
    simp only [Tx.land, table_insert]
    rw [if_neg (Ne.symm different)]
    exact absent
  · intro k busy
    have none := (linked.writing k busy).1
    rw [none] at member
    cases member
  · exact fun k busy _ => ⟨k, busy, rfl⟩

theorem Checkpointed.linked (env : Env) {c : Ckpt σ} (done : Checkpointed s c s')
    (busy : s.ckpting = some c) (linked : s.Linked uuid zero since t) (separate : s.Separate)
    (dense : s.Dense) : s'.Linked uuid zero since t := by
  have stepped : Stepped env s .ckptStep s' := .ckpt busy done
  have saved := stepped.imaged trivial separate (fun _ _ _ same => by cases same) linked.saved
  have objects : ∀ n, s.DataNumber n → s'.object n = s.object n :=
    fun n data => done.object_kept busy data.2
  have numbers : ∀ n, s.DataNumber n → s'.DataNumber n := fun n data => data.step stepped trivial
  obtain ⟨none, floor, absent⟩ := linked.writing c busy
  have next := dense.next c busy
  have progress := linked.saved.writing c busy
  unfold Underway at progress
  cases done with
  | object stage =>
      refine linked.quiet rfl rfl (le_refl _) linked.started (fun none => none) ?_ ?_ ?_ objects
        numbers (fun _ _ => id) saved
      · simp [none]
      · intro k same
        cases same
        exact ⟨none, floor, fun wrong => by cases wrong⟩
      · intro k same after
        cases busy.symm.trans same
        exact ⟨_, rfl, rfl⟩
  | superblock stage =>
      rw [stage] at progress
      have newest : Tx.base { s with
          ckpts := (keepThree (s.ckpts ++ [c.seq])).1
          super := (keepThree (s.ckpts ++ [c.seq])).1
          ckpting := some { c with stage := .deletes (keepThree (s.ckpts ++ [c.seq])).2 } } =
          c.seq := by
        rw [Tx.base, keep_three_last, Option.getD_some]
      have older : s.base ≤ c.seq := by
        unfold Tx.base
        rw [linked.saved.super]
        cases last : s.ckpts.getLast? with
        | none => exact Nat.zero_le _
        | some n => exact (progress.1 n (List.mem_of_getLast? last)).le
      refine linked.quiet rfl rfl (by rw [newest]; exact older) ?_ ?_ ?_ ?_ ?_ objects numbers
        (fun _ _ => id) saved
      · rw [newest]
        change c.seq < s.curSeq
        omega
      · intro empty
        have last := keep_three_last s.ckpts c.seq
        simp only at empty
        rw [empty] at last
        cases last
      · simp [none]
      · intro k same
        cases same
        exact ⟨none, floor, fun wrong => by cases wrong⟩
      · intro k same after
        cases busy.symm.trans same
        exact ⟨_, rfl, rfl⟩
  | delete stage =>
      refine linked.quiet rfl rfl (le_refl _) linked.started (fun none => none) ?_ ?_ ?_ objects
        numbers (fun _ _ => id) saved
      · simp [none]
      · intro k same
        cases same
        exact ⟨none, floor, fun wrong => by cases wrong⟩
      · intro k same after
        cases busy.symm.trans same
        exact ⟨_, rfl, rfl⟩
  | done stage phase moved =>
      rw [stage] at progress
      have newest : s.base = c.seq := by
        rw [Tx.base, linked.saved.super, progress.2.1, Option.getD_some]
      refine linked.quiet rfl rfl (le_refl _) linked.started (fun none => none) ?_ ?_ ?_ objects
        numbers (fun _ _ => id) saved
      · simp [none]
      · intro k same
        cases same
      · intro k same after
        cases busy.symm.trans same
        change s.base < _ at after
        omega

variable {rest : List (Work σ)}

theorem Linked.send (linked : s.Linked env.uuid zero since t) (ok : s.Ok env) (envOk : env.Ok)
    (separate : s.Separate) (free : s.ckpting = none) (bound : s.curSeq < 2 ^ 31)
    (early : s.store[s.curSeq]? = none) {r : Request σ} {maps : Maps} {obj : Obj σ}
    (head : s.queue = .put r :: rest)
    (done : processBatch env.crc32 env.uuid s.curSeq r.entries r.data s.maps = some (maps, obj))
    {mark : ℕ} (timed : (s.send rest (some r) maps obj).Timed zero since mark) :
    (s.send rest (some r) maps obj).Linked env.uuid zero since
      (t.advance (s.curSeq + 1) mark (locate maps.objmap)) := by
  have stepped : Stepped env s .work (s.send rest (some r) maps obj) := .work free (.put head done)
  have next : (s.send rest (some r) maps obj).curSeq = s.curSeq + 1 := next_seq_eq bound
  have inBuffers := mem_buffers_of_queued head
  obtain ⟨emits, -⟩ := process_batch_emits ok.consistent.sound
    (ok.buffered.proper r inBuffers).proper envOk.uuid bound done
  have isData : (s.send rest (some r) maps obj).DataNumber s.curSeq := separate.sent bound
  have views : t.view s.curSeq = locate s.maps.objmap := funext linked.now
  refine linked.advance next rfl free (fun _ => rfl) rfl early stepped.sends ?_
    (fun n data => stepped.object_kept ok data.1 data.2 (by simp [deletes]))
    (fun n data => data.step stepped bound) (.inr ⟨isData, obj, ?_, ?_⟩) ?_ ?_ ?_
  · intro k busy
    simp only [Tx.send, free] at busy
    cases busy
  · rw [object_send ok, if_pos rfl]
  · rw [views]
    exact ⟨_, _, WellMade.of_emits emits, emits.locate_eq⟩
  · intro x q found
    rw [emits.locate_eq, overlay] at found
    split at found
    · exact .inr ⟨by rw [← Option.some.inj found], isData⟩
    · exact .inl (by rw [views]; exact found)
  · obtain ⟨v, found, shows⟩ := timed.shown [] List.nil_prefix
    exact ⟨v, found, shows⟩
  · refine stepped.imaged bound separate ?_ (linked.saved.imp ?_)
    · intro byGc others object _ other
      rw [head] at other
      cases other
    · rintro c object ⟨earlier, saved⟩
      have same : (t.advance (s.curSeq + 1) mark (locate maps.objmap)).view (c + 1) =
          t.view (c + 1) := Function.update_of_ne (by omega) _ _
      exact ⟨earlier, by rw [same]; exact saved⟩

theorem Linked.begin (linked : s.Linked env.uuid zero since t) (separate : s.Separate)
    (intact : s.maps.Intact s.curSeq) (free : s.ckpting = none) (bound : s.curSeq < 2 ^ 31)
    (early : s.store[s.curSeq]? = none) (settled : s.inflight = []) {byGc : Bool} {obj : Obj σ}
    (head : s.queue = .ckpt byGc :: rest)
    (done : checkpointObject env.uuid s.curSeq s.maps = some obj) :
    Linked env.uuid zero since (t.advance (s.curSeq + 1) t.mark (t.view s.curSeq)) { s with
      queue := rest
      ckpting := some ⟨s.curSeq, obj, byGc, .object⟩
      curSeq := nextSeq s.curSeq } := by
  have worked : Worked env s { s with
      queue := rest
      ckpting := some ⟨s.curSeq, obj, byGc, .object⟩
      curSeq := nextSeq s.curSeq } := .ckpt head done
  have stepped := Stepped.work free worked
  have next : nextSeq s.curSeq = s.curSeq + 1 := next_seq_eq bound
  have newView : (t.advance (s.curSeq + 1) t.mark (t.view s.curSeq)).view (s.curSeq + 1) =
      t.view s.curSeq := Function.update_self _ _ _
  refine linked.advance next rfl free linked.now rfl early (fun put member => .inl member) ?_
    (fun n data => rfl) (fun n data => data.step stepped bound) (.inl ⟨_, rfl, rfl, rfl⟩)
    (fun x q found => .inl found) ?_ ?_
  · intro k same
    cases same
    exact ⟨settled, rfl⟩
  · obtain ⟨v, found, holds⟩ := linked.contents s.curSeq linked.started linked.floor (le_refl _)
    rw [linked.mark] at found
    exact ⟨v, found, holds⟩
  · refine stepped.imaged bound separate ?_ (linked.saved.imp ?_)
    · intro _ _ object _ _ made
      refine ⟨?_, s.maps, made, intact, ?_⟩
      · change s.curSeq < nextSeq s.curSeq
        omega
      · intro x
        rw [newView, linked.now]
    · rintro c object ⟨earlier, saved⟩
      have same : (t.advance (s.curSeq + 1) t.mark (t.view s.curSeq)).view (c + 1) =
          t.view (c + 1) := Function.update_of_ne (by omega) _ _
      exact ⟨earlier, by rw [same]; exact saved⟩

theorem Linked.settle (linked : s.Linked uuid zero since t) (free : s.ckpting = none)
    (quiet : s.inflight = []) {returned : List ℕ}
    (timed : Timed zero since' 0 { s with queue := rest, returned := returned }) :
    Linked uuid zero since' ⟨0, t.view, fun _ => 0, s.curSeq⟩
      { s with queue := rest, returned := returned } where
  started := linked.started
  now := linked.now
  mark := rfl
  floor := le_refl _
  flying := by simp [quiet]
  writing := by simp [free]
  links := linked.links
  data := linked.data
  contents := by
    intro n after high before
    obtain rfl : n = s.curSeq := le_antisymm before high
    obtain ⟨v, found, shows⟩ := timed.shown [] List.nil_prefix
    refine ⟨v, found, ?_⟩
    intro x
    rw [show t.view s.curSeq = locate s.maps.objmap from funext linked.now]
    exact shows x
  origin := linked.origin
  saved := linked.saved.of_same rfl rfl rfl (fun _ _ => rfl) fun _ _ imaged => imaged

/-! ## One step -/

theorem flush_empties {tag : ℕ} {addr : ℤ} (ok : s.Ok env)
    (flushed : s.flush env tag addr = some s') : s'.current.entries = [] := by
  obtain ⟨mid, submitted, rfl⟩ := Option.map_eq_some_iff.mp flushed
  unfold submit at submitted
  split at submitted
  · next empty =>
      cases submitted
      have proper := (ok.buffered.proper s.current (by simp [buffers, pending])).proper
      cases entries : s.current.entries with
      | nil => rfl
      | cons e rest =>
          have positive := proper.ranges
          have length := proper.length
          rw [entries, empty] at length
          rw [entries] at positive
          have first := (positive (e.lba, e.len) (by simp [entryRanges])).2.1
          have others : Proper (entryRanges rest) := fun range member => positive range (.tail _ member)
          have more := others.sectors_nonneg
          simp only [entryRanges, List.map_cons, sectors_cons] at length more
          omega
  · unfold roll at submitted
    split at submitted
    · cases submitted
      rfl
    · cases submitted

theorem Linked.rolled {mid : Tx σ} (linked : s.Linked uuid zero since t)
    (rolled : Rolled env s mid) : mid.Linked uuid zero since t := by
  cases rolled with
  | same => exact linked
  | queued addr clear => exact linked.host rfl rfl rfl rfl rfl rfl rfl fun _ _ => id

theorem Recorded.step (recorded : s.Recorded env.uuid zero p t) (good : s.Good env zero p.now)
    (envOk : env.Ok) (separate : s.Separate) (dense : s.Dense) (early : s.store[s.curSeq]? = none)
    (intact : s.maps.Intact s.curSeq) (noGc : s.NoGc) (taken : Session.step env s a = some s')
    (after : s'.Good env zero (record p.now a)) (inRange : InRange s a) (plain : a.Plain)
    (settled : Settled s a) :
    ∃ t', s'.Recorded env.uuid zero (p.act s s' a) t' := by
  obtain ⟨timed, asked, linked⟩ := recorded
  have emptied : ∀ tag addr, a = .flush tag addr → s'.current.entries = [] := by
    rintro tag addr rfl
    exact flush_empties good.ok taken
  have queued : ∀ {mid : Tx σ} {item : Work σ}, item.request = none →
      ({ mid with queue := mid.queue ++ [item] } : Tx σ).pending = mid.pending := by
    intro mid item plain
    simp [pending, List.filterMap_append, plain]
  cases step_cases taken with
  | write rolled nonempty room =>
      refine ⟨t, timed_append (rolled.timed timed) after.coherent, ?_, ?_⟩
      · exact asked.trans rolled.points_eq.symm
      · refine (linked.rolled rolled).host rfl rfl rfl rfl rfl rfl rfl ?_
        intro i v found
        exact (List.getElem?_append_left (List.getElem?_eq_some_iff.mp found).1).trans found
  | flush rolled =>
      rename_i tag addr mid
      refine ⟨t, ?_, ?_, (linked.rolled rolled).host rfl rfl rfl rfl rfl rfl rfl fun _ _ => id⟩
      · exact (rolled.timed timed).of_same (queued rfl) rfl fun _ _ _ => rfl
      · have length := (rolled.timed timed).length
        have entries : mid.current.entries = [] := emptied tag addr rfl
        rw [Pledge.since, List.length_append, List.length_singleton, pending, writes_append,
          writes_cons, writes_nil, entries, List.length_nil] at length
        change p.asked ++ [p.past.length] = points t.mark (mid.queue ++ [.flush tag])
        rw [points_append, rolled.points_eq, ← asked]
        simp only [points]
        rw [show p.past.length = t.mark + writes (mid.queue.filterMap Work.request) by omega]
  | checkpoint rolled =>
      rename_i addr mid
      refine ⟨t, ?_, ?_, (linked.rolled rolled).host rfl rfl rfl rfl rfl rfl rfl fun _ _ => id⟩
      · exact (rolled.timed timed).of_same (queued rfl) rfl fun _ _ _ => rfl
      · change p.asked = points t.mark (mid.queue ++ [.ckpt false])
        rw [points_append, rolled.points_eq, ← asked]
        exact (List.append_nil _).symm
  | flushThread rolled =>
      exact ⟨t, rolled.timed timed, asked.trans rolled.points_eq.symm, linked.rolled rolled⟩
  | trim done => exact plain.elim
  | collect collected => cases collected <;> exact plain.elim
  | complete member =>
      exact ⟨t, timed.of_same rfl rfl fun _ _ _ => object_complete good.ok member _, asked,
        linked.land good.ok separate member⟩
  | ckpt busy done =>
      obtain ⟨maps, -, -, queue, current, -⟩ := done.frame
      refine ⟨t, timed.of_same ?_ ?_ ?_, ?_, done.linked env busy linked separate dense⟩
      · rw [pending, pending, queue, current]
      · rw [maps]
      · intro x q found
        exact done.object_kept busy (good.reserved.ordinary_mapped good.ok.consistent.sound found)
      · rw [queue]
        exact asked
  | work free worked =>
      cases worked with
      | put head done =>
          rename_i r rest maps obj
          have later := timed_send timed good.ok envOk inRange head done
          change ∃ t', Recorded env.uuid zero (if s.returned = s.returned then p else p.fulfil) t' _
          rw [if_pos rfl]
          refine ⟨_, later, ?_, linked.send good.ok envOk separate free inRange early head done later⟩
          rw [asked, head]
          rfl
      | gc head done =>
          have isGc := noGc.queued _ (by rw [head]; exact List.mem_cons_self)
          cases isGc
      | ckpt head done =>
          have none : s.inflight = [] := by
            simpa only [Settled, head, List.length_eq_zero_iff] using settled
          change ∃ t', Recorded env.uuid zero (if s.returned = s.returned then p else p.fulfil) t' _
          rw [if_pos rfl]
          refine ⟨t.advance (s.curSeq + 1) t.mark (t.view s.curSeq),
            timed.of_same ?_ rfl fun _ _ _ => rfl, ?_,
            linked.begin separate intact free inRange early none head done⟩
          · rw [pending, pending, head]
            rfl
          · rw [asked, head]
            rfl
      | flush head quiet =>
          rename_i tag rest
          rw [head, points] at asked
          have fulfilled : p.act s { s with queue := rest, returned := tag :: s.returned } .work =
              ⟨p.past.drop t.mark, p.now, (points t.mark rest).map (· - t.mark)⟩ := by
            change (if tag :: s.returned = s.returned then p else p.fulfil) = _
            rw [if_neg (List.cons_ne_self _ _), Pledge.fulfil, asked]
          have few : t.mark ≤ p.past.length := by
            have length := timed.length
            rw [Pledge.since, List.length_append, List.length_singleton] at length
            omega
          have later : Timed zero (p.since.drop t.mark) 0
              { s with queue := rest, returned := tag :: s.returned } := by
            refine timed.drop.of_same ?_ rfl fun _ _ _ => rfl
            rw [pending, pending, head]
            rfl
          rw [Pledge.since, List.drop_append_of_le_length few] at later
          rw [fulfilled]
          exact ⟨⟨0, t.view, fun _ => 0, s.curSeq⟩, later, points_sub t.mark 0 rest,
            linked.settle free quiet later⟩

end Steps

/-! ## All that holds of such a session -/

theorem Durable.step {p : Pledge σ} (durable : s.Durable env zero p) (envOk : env.Ok)
    (inRange : PlainInRange s a) (settled : Settled s a) (taken : Session.step env s a = some s') :
    s'.Durable env zero (p.act s s' a) := by
  obtain ⟨good, noGc, guarded, dense, early, intact, t, recorded⟩ := durable
  obtain ⟨inRange, plain⟩ := inRange
  have stepped := step_cases taken
  have left := inRange.numbersLeft
  have nothing := plain.deletes s
  have goodAfter : s'.Good env zero (record p.now a) := by
    refine good.step envOk taken inRange ?_ ?_ (by simp [nothing])
    · rintro base limit rfl
      exact plain
    · intro _ entries data rest head
      have isGc := noGc.queued _ (by rw [head]; exact List.mem_cons_self)
      cases isGc
  have absent : s.store[s.curSeq]? = none := by
    by_contra present
    obtain ⟨obj, found⟩ := Option.ne_none_iff_exists'.mp present
    exact lt_irrefl _ (early _ obj found)
  exact ⟨by rw [Pledge.act_now]; exact goodAfter, stepped.noGc plain noGc,
    guarded.step stepped left,
    dense.step stepped envOk.uuid left (by simp [DeletesOld, nothing]) guarded.backed,
    stepped.early left guarded.separate early,
    stepped.intact good.ok envOk inRange plain noGc intact,
    recorded.step good envOk guarded.separate dense absent intact noGc taken goodAfter inRange plain
      settled⟩

end Tx

end LsvdRbd.Session
