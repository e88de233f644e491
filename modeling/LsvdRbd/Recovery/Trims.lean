import LsvdRbd.Recovery.Log

/-!
# Trims are not logged

`trim` takes a range out of the object map and leaves no record in the log. Until the next
checkpoint a crash undoes it: recovery maps every address to the last location that it was
mapped to in any state since the checkpoint, whether or not it was trimmed afterwards.
-/

namespace LsvdRbd.Recovery

open Records RunList ExtentMap Format Translate Machine

set_option autoImplicit false

variable {σ : Type*}

/-- The last location of each address, over the states of a run: what the worker maps it
to now, or else what it was mapped to before. -/
def lastKnown (crc32 : Bytes → ℕ) (uuid : ℕ) :
    (ℤ → Option ObjOffset) → Worker σ → List (Event σ) → ℤ → Option ObjOffset
  | known, _, [] => known
  | known, w, ev :: rest =>
      match work crc32 uuid w ev with
      | some next => lastKnown crc32 uuid (fun x => (locate next.maps.objmap x).or (known x)) next rest
      | none => known

def Knows (known : ℤ → Option ObjOffset) (m : Objmap) : Prop :=
  ∀ x p, locate m x = some p → known x = some p

theorem knows_or (known : ℤ → Option ObjOffset) (m : Objmap) :
    Knows (fun x => (locate m x).or (known x)) m := by
  intro x p found
  simp [found]

variable {known : ℤ → Option ObjOffset}

theorem LaysOver.knows {uuid seq : ℕ} {obj : Option (Obj σ)} {m m' : Objmap}
    (laid : LaysOver uuid obj seq (locate m) (locate m')) (knows : Knows known m) :
    LaysOver uuid obj seq known fun x => (locate m' x).or (known x) := by
  obtain ⟨o, hdrSectors, ranges, here, data, proper, reach, same⟩ := laid
  refine ⟨o, hdrSectors, ranges, here, data, proper, reach, ?_⟩
  intro x
  change (locate m' x).or (known x) = _
  rw [same x, overlay, overlay]
  cases lastIndex ranges x with
  | some i => rfl
  | none =>
      cases found : locate m x with
      | none => rfl
      | some p => exact (knows x p found).symm

variable {w w' : Worker σ}

theorem trim_knows {base limit : ℤ} {crc32 : Bytes → ℕ} {uuid : ℕ} (ok : w.Ok)
    (bounds : InBounds w (.trim base limit)) (knows : Knows known w.maps.objmap)
    (stepped : work crc32 uuid w (.trim base limit) = some w') :
    (fun x => (locate w'.maps.objmap x).or (known x)) = known ∧ w'.curSeq = w.curSeq ∧
      w'.log = w.log := by
  obtain ⟨lower, order, upper⟩ := bounds.2
  obtain ⟨maps, trimmed, rfl⟩ := Option.map_eq_some_iff.mp stepped
  obtain ⟨acc, -, rfl⟩ := Option.map_eq_some_iff.mp trimmed
  refine ⟨?_, rfl, rfl⟩
  funext x
  simp only [ok.sound.locate_unset order (objmap_key lower (by omega))]
  split
  · rfl
  · cases found : locate w.maps.objmap x with
    | none => rfl
    | some p => exact (knows x p found).symm

variable {acts : List (Event σ)}

theorem last_known_knows {crc32 : Bytes → ℕ} {uuid : ℕ} (knows : Knows known w.maps.objmap)
    (ran : run (work crc32 uuid) w acts = some w') :
    Knows (lastKnown crc32 uuid known w acts) w'.maps.objmap := by
  induction acts generalizing w known with
  | nil =>
      cases ran
      exact knows
  | cons ev rest ih =>
      obtain ⟨next, stepped, later⟩ := (run_cons_eq_some _).mp ran
      rw [lastKnown, stepped]
      exact ih (knows_or known next.maps.objmap) later

/-! ## The log of a run with trims -/

section Runs

variable {crc32 : Bytes → ℕ} {uuid : ℕ}

/-- What is known after each number: every data object of the log takes it from one to
the next, and at the end of every part of the run it is the last known location. -/
theorem last_known_stretch (ok : w.Ok) (uuidBound : uuid < 2 ^ 128)
    (knows : Knows known w.maps.objmap) (along : Along (work crc32 uuid) InBounds w acts)
    (ran : run (work crc32 uuid) w acts = some w') :
    ∃ view : ℕ → ℤ → Option ObjOffset, view 0 = known ∧
      (∀ front rest mid, acts = front ++ rest → run (work crc32 uuid) w front = some mid →
        view (mid.curSeq - w.curSeq) = lastKnown crc32 uuid known w front) ∧
      ∀ j, ∀ e ∈ w'.log, e.number = w.curSeq + j →
        (e.kind = .logData ∧ LaysOver uuid (some e.obj) (w.curSeq + j) (view j) (view (j + 1))) ∨
        (e.kind = .checkpoint ∧ w.curSeq + j < 2 ^ 31 ∧
          ∃ maps, checkpointObject uuid (w.curSeq + j) maps = some e.obj) := by
  induction acts generalizing w known with
  | nil =>
      cases ran
      refine ⟨fun _ => known, rfl, ?_, ?_⟩
      · intro front rest mid split _
        rw [(List.append_eq_nil_iff.mp split.symm).1]
        rfl
      · intro j e member number
        have := ok.logged e member
        omega
  | cons ev rest ih =>
      obtain ⟨next, stepped, later⟩ := (run_cons_eq_some _).mp ran
      have nextOk := work_ok ok uuidBound along.1 stepped
      obtain ⟨view, first, parts, objects⟩ := ih nextOk
        (knows_or known next.maps.objmap) (along.2 next stepped) later
      -- the parts of this run are the empty one and those of the rest, one event longer
      have recalled : ∀ front, lastKnown crc32 uuid known w (ev :: front) = lastKnown crc32 uuid
          (fun x => (locate next.maps.objmap x).or (known x)) next front := by
        intro front
        rw [lastKnown, stepped]
      have reaches : ∀ front back mid, rest = front ++ back →
          run (work crc32 uuid) next front = some mid → next.curSeq ≤ mid.curSeq := by
        rintro front back mid rfl ranFront
        exact (run_log_grows nextOk uuidBound
          ((along_append _).mp (along.2 next stepped)).1 ranFront).2.1
      have shorter : ∀ head front back mid, ev :: rest = head :: front ++ back →
          run (work crc32 uuid) w (head :: front) = some mid →
          head = ev ∧ rest = front ++ back ∧ run (work crc32 uuid) next front = some mid := by
        intro head front back mid split ranFront
        obtain ⟨rfl, tails⟩ := List.cons.inj split
        obtain ⟨_, again, ranRest⟩ := (run_cons_eq_some _).mp ranFront
        cases stepped.symm.trans again
        exact ⟨rfl, tails, ranRest⟩
      by_cases isTrim : ev.IsTrim
      · cases ev with
        | trim base limit =>
            obtain ⟨same, seq, -⟩ := trim_knows ok along.1 knows stepped
            rw [same] at first
            rw [seq] at objects parts
            refine ⟨view, first, ?_, objects⟩
            intro front back mid split ranFront
            cases front with
            | nil =>
                cases ranFront
                rw [Nat.sub_self, first]
                rfl
            | cons head front =>
                obtain ⟨rfl, tails, ranRest⟩ := shorter head front back mid split ranFront
                rw [recalled]
                exact parts front back mid tails ranRest
        | _ => cases isTrim
      · obtain ⟨-, e, number, seq, log, kind⟩ := work_emission ok uuidBound along.1 isTrim stepped
        refine ⟨fun j => if j = 0 then known else view (j - 1), rfl, ?_, ?_⟩
        · intro front back mid split ranFront
          cases front with
          | nil =>
              cases ranFront
              simp [lastKnown]
          | cons head front =>
              obtain ⟨rfl, tails, ranRest⟩ := shorter head front back mid split ranFront
              have reached := reaches front back mid tails ranRest
              rw [recalled, ← parts front back mid tails ranRest]
              dsimp only
              rw [if_neg (by omega)]
              congr 1
              omega
        · intro j other member otherNumber
          cases j with
          | zero =>
              -- only the object that was just emitted has this number
              obtain ⟨-, -, -, more, finalLog, above⟩ :=
                run_log_grows nextOk uuidBound (along.2 next stepped) later
              have same : other = e := by
                rw [finalLog, log] at member
                simp only [List.mem_append, List.mem_singleton] at member
                rcases member with (old | same) | new
                · have := ok.logged other old
                  omega
                · exact same
                · have := above other new
                  omega
              subst same
              rcases kind with ⟨isData, laid⟩ | ⟨isCkpt, made, -⟩
              · refine .inl ⟨isData, ?_⟩
                simp only [if_true, zero_add, one_ne_zero, if_false, Nat.sub_self, first]
                exact laid.knows knows
              · exact .inr ⟨isCkpt, along.1.1, w.maps, made⟩
          | succ j =>
              have here := objects j other member (by omega)
              rw [seq] at here
              simpa [add_assoc, add_comm 1 j] using here

end Runs

/-- Take any run of the worker with a checkpoint in it and any trims before and after, and
any subset of the later objects in the backend. Recovery maps every address to the last
location that it was mapped to in any state from the checkpoint to the last object that
is replayed. It agrees with the worker's map wherever that maps something; a trimmed
address comes back as it was before its trim. -/
theorem recovery_undoes_trims {crc32 : Bytes → ℕ} {uuid : ℕ} {w0 wc w1 wk w : Worker σ}
    {before front rest : List (Event σ)} {store : Store σ} (uuidBound : uuid < 2 ^ 128)
    (start : w0.Ok) (bounds : Along (work crc32 uuid) InBounds w0 (before ++ .ckpt :: (front ++ rest)))
    (ranBefore : run (work crc32 uuid) w0 before = some wc)
    (ckptStep : work crc32 uuid wc .ckpt = some w1)
    (ranFront : run (work crc32 uuid) w1 front = some wk)
    (ran : run (work crc32 uuid) w1 (front ++ rest) = some w)
    (listed : ∃ obj, store[wc.curSeq]? = some obj)
    (written : ∀ n obj, wc.curSeq ≤ n → store[n]? = some obj → ∃ kind, ⟨n, kind, obj⟩ ∈ w.log)
    (reach : ∀ n, wc.curSeq < n → n < wk.curSeq → DataPresent w store n)
    (stop : ¬DataPresent w store wk.curSeq) :
    ∃ m, recoverMap wc.curSeq store = some (.ok (m, wk.curSeq - 1)) ∧
      (∀ x, locate m x = lastKnown crc32 uuid (locate w1.maps.objmap) w1 front x) ∧
      (∀ x p, locate wk.maps.objmap x = some p → locate m x = some p) ∧
      ∀ window older image last store',
        recover window (older ++ [wc.curSeq]) store = some (.ok (image, last, store')) →
          image.objmap = m ∧ last = wk.curSeq - 1 := by
  obtain ⟨beforeAlong, restAlong⟩ := (along_append _).mp bounds
  have wcOk := (run_log_grows start uuidBound beforeAlong ranBefore).1
  have ckptAlong := restAlong wc ranBefore
  have seqBound : wc.curSeq < 2 ^ 31 := ckptAlong.1.1
  have afterAlong := ckptAlong.2 w1 ckptStep
  have w1Ok := work_ok wcOk uuidBound ckptAlong.1 ckptStep
  rw [work, Option.map_eq_some_iff] at ckptStep
  obtain ⟨ckptObj, made, rfl⟩ := ckptStep
  set w1 := wc.emit .checkpoint wc.maps ckptObj with w1Def
  have w1Seq : w1.curSeq = wc.curSeq + 1 := next_seq_eq seqBound
  obtain ⟨-, order, frontBound, -⟩ :=
    run_log_grows w1Ok uuidBound ((along_append _).mp afterAlong).1 ranFront
  obtain ⟨-, -, -, more, log, above⟩ := run_log_grows w1Ok uuidBound afterAlong ran
  -- the object under the checkpoint's number is the checkpoint
  have stored : store[wc.curSeq]? = some ckptObj := by
    obtain ⟨obj, found⟩ := listed
    obtain ⟨kind, member⟩ := written _ obj (le_refl _) found
    rw [log, w1Def, Worker.emit] at member
    simp only [List.mem_append, List.mem_singleton, Emitted.mk.injEq] at member
    rcases member with (old | ⟨-, -, same⟩) | new
    · have := wcOk.logged _ old
      simp at this
    · rw [found, same]
    · have := above _ new
      simp only at this
      omega
  obtain ⟨m0, loaded, m0Sound, m0Locate⟩ :=
    read_from_written_checkpoint wcOk.sound uuidBound (by omega) made [wc.curSeq]
  obtain ⟨view, first, parts, objects⟩ :=
    last_known_stretch w1Ok uuidBound (fun x p found => found) afterAlong ran
  have count : w1.curSeq + (wk.curSeq - w1.curSeq) = wk.curSeq := by omega
  have present : ∀ j < wk.curSeq - w1.curSeq, ∃ obj, store[w1.curSeq + j]? = some obj ∧
      LaysOver uuid (some obj) (w1.curSeq + j) (view j) (view (j + 1)) := by
    intro j inside
    obtain ⟨obj, found, member⟩ := reach (w1.curSeq + j) (by omega) (by omega)
    refine ⟨obj, found, ?_⟩
    rcases objects j _ member rfl with ⟨-, laid⟩ | ⟨isCkpt, -⟩
    · exact laid
    · cases isCkpt
  have ends : readDataHdr store[w1.curSeq + (wk.curSeq - w1.curSeq)]? = .ok none := by
    cases found : store[w1.curSeq + (wk.curSeq - w1.curSeq)]? with
    | none => rfl
    | some obj =>
        obtain ⟨kind, member⟩ := written _ obj (by omega) found
        rcases objects _ _ member rfl with ⟨isData, -⟩ | ⟨-, small, maps, made⟩
        · simp only at isData
          subst isData
          rw [count] at found member
          exact absurd ⟨obj, found, member⟩ stop
        · exact checkpoint_object_not_data uuidBound (by omega) made
  have bound := frontBound (by omega)
  obtain ⟨m, replayed, -, located⟩ := replay_stretch uuid store view w1.curSeq
    (wk.curSeq - w1.curSeq) (store.size + 1) (by omega)
    (fun j inside => by
      obtain ⟨obj, found, laid⟩ := present j inside
      rwa [found])
    ends m0Sound (fun x => by rw [first, m0Locate]; rfl)
    (by
      have := count_le_size store w1.curSeq (wk.curSeq - w1.curSeq)
        fun j inside => (present j inside).imp fun _ both => both.1
      omega)
  have known : ∀ x, locate m x = lastKnown crc32 uuid (locate w1.maps.objmap) w1 front x := by
    intro x
    rw [located, parts front rest wk rfl ranFront]
  have recovered : recoverMap wc.curSeq store = some (.ok (m, wk.curSeq - 1)) := by
    have next : nextSeq wc.curSeq = w1.curSeq := rfl
    rw [recoverMap, stored, loaded]
    simp only [next, replayed, count, Option.map_some, Except.map]
    rw [show wk.curSeq = wk.curSeq - 1 + 1 by omega, prev_seq_eq (by omega), Nat.add_sub_cancel]
  refine ⟨m, recovered, known, ?_, ?_⟩
  · intro x p found
    rw [known]
    exact last_known_knows (fun x p found => found) ranFront x p found
  · intro window older image last store' opened
    have same := (recover_objmap opened).symm.trans recovered
    simpa using same

/-- A sector is written, a checkpoint is taken, and the sector is trimmed: the map is empty,
and recovery maps the sector again. -/
theorem recovery_undoes_trims_once : ∃ (w1 wk : Worker Unit) (m : Objmap),
    run (work (fun _ => 0) 0) ⟨Maps.empty, 1, []⟩ [.batch oneSector [()], .ckpt] = some w1 ∧
      run (work (fun _ => 0) 0) w1 [.trim 0 1] = some wk ∧ locate wk.maps.objmap 0 = none ∧
      recoverMap 2 (landed wk.log fun _ => true) = some (.ok (m, 2)) ∧
      locate m 0 = locate w1.maps.objmap 0 ∧ (locate m 0).isSome = true := by
  have empty : (⟨Maps.empty, 1, []⟩ : Worker Unit).Ok :=
    ⟨sound_empty, fun x p found => by simp [Maps.empty] at found, by simp⟩
  obtain ⟨wc, ranBefore, held⟩ := (Option.any_eq_true _ _).mp
    (by decide +kernel : (run (work (fun _ => 0) 0) (⟨Maps.empty, 1, []⟩ : Worker Unit)
      [.batch oneSector [()]]).any (fun wc => decide (wc.curSeq = 2) &&
        (work (fun _ => 0) 0 wc .ckpt).any (fun w1 => (locate w1.maps.objmap 0).isSome &&
          (run (work (fun _ => 0) 0) w1 [.trim 0 1]).any (fun wk =>
            decide (locate wk.maps.objmap 0 = none) && (decide (wk.curSeq = 3) &&
              ((landed wk.log fun _ => true)[2]?.isSome &&
                (landed wk.log fun _ => true)[3]?.isNone))))) = true)
  obtain ⟨number, ckpt⟩ := (Bool.and_eq_true _ _).mp held
  obtain ⟨w1, ckptStep, trimmed⟩ := (Option.any_eq_true _ _).mp ckpt
  obtain ⟨mapped, rest⟩ := (Bool.and_eq_true _ _).mp trimmed
  obtain ⟨wk, ranFront, after⟩ := (Option.any_eq_true _ _).mp rest
  simp only [Bool.and_eq_true, decide_eq_true_eq, Option.isNone_iff_eq_none] at after number
  obtain ⟨gone, last, listed, missing⟩ := after
  have inBounds : Along (work (fun _ => 0) 0) InBounds (⟨Maps.empty, 1, []⟩ : Worker Unit)
      ([.batch oneSector [()]] ++ .ckpt :: ([.trim 0 1] ++ [])) :=
    along_in_bounds _ _ (by
      intro ev member
      simp only [List.append_nil, List.cons_append, List.nil_append, List.mem_cons,
        List.not_mem_nil, or_false] at member
      rcases member with rfl | rfl | rfl
      · exact one_sector_proper
      · trivial
      · exact ⟨by norm_num, by norm_num, by norm_num⟩) (by decide)
  have isListed : ∃ obj, (landed wk.log fun _ => true)[wc.curSeq]? = some obj := by
    rw [number]
    exact Option.isSome_iff_exists.mp listed
  obtain ⟨m, recovered, known, -⟩ := recovery_undoes_trims (by norm_num) empty inBounds ranBefore
    ckptStep ranFront (by rwa [List.append_nil]) isListed
    (fun n obj _ found => landed_from_log found)
    (by
      intro n low high
      omega)
    (by
      rintro ⟨obj, found, -⟩
      rw [last, missing] at found
      cases found)
  rw [number, last] at recovered
  have same : locate m 0 = locate w1.maps.objmap 0 := by
    obtain ⟨next, stepped, done⟩ := (run_cons_eq_some _).mp ranFront
    cases done
    rw [known, lastKnown, stepped]
    simp only [lastKnown, gone, Option.none_or]
  refine ⟨w1, wk, m, ?_, ranFront, gone, recovered, same, by rwa [same]⟩
  obtain ⟨_, stepped, done⟩ := (run_cons_eq_some _).mp ranBefore
  cases done
  rw [run_cons, stepped, Option.bind_some, run_cons, ckptStep]
  rfl

end LsvdRbd.Recovery
