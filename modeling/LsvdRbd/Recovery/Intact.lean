import LsvdRbd.Recovery.RoundTrip
import LsvdRbd.Recovery.Table

/-!
# Replays that succeed

If the table lists every object that the map refers to and its counts are exact, then
`apply_log` throws on each object that displaces something, so that the replay of a
stretch of data objects succeeds exactly if no address of theirs was mapped or comes
twice, and the counts are exact after it.
-/

namespace LsvdRbd.Translate

open Records RunList ExtentMap Format

set_option autoImplicit false

variable {σ : Type*}

def Maps.Listed (s : Maps) : Prop :=
  ∀ x p, locate s.objmap x = some p → ∃ oi : ObjInfo, s.info[p.obj.toNat]? = some oi

/-- Maps whose objects are all listed with exact counts and numbered below `seq`. -/
structure Maps.Intact (seq : ℕ) (s : Maps) : Prop where
  consistent : s.Consistent
  below : s.Below seq
  measured : s.Measured
  listed : s.Listed

section Maps

variable {seq hdrSectors : ℕ} {s s' : Maps}

theorem Maps.Intact.of_eq (intact : s.Intact seq) (objmap : s'.objmap = s.objmap)
    (info : s'.info = s.info) : s'.Intact seq := by
  obtain ⟨m, table, sectors, live⟩ := s
  obtain ⟨m', table', sectors', live'⟩ := s'
  obtain rfl : m' = m := objmap
  obtain rfl : table' = table := info
  obtain ⟨consistent, below, measured, listed⟩ := intact
  exact ⟨⟨consistent.sound, consistent.keys, consistent.exact⟩, ⟨below.mapped, below.listed⟩,
    ⟨measured.inside, measured.filled, measured.sizes⟩, listed⟩

theorem Maps.Intact.skip (intact : s.Intact seq) : s.Intact (seq + 1) := by
  obtain ⟨consistent, ⟨mapped, listed⟩, measured, inTable⟩ := intact
  refine ⟨consistent, ⟨?_, ?_⟩, measured, inTable⟩
  · intro x p found
    have := mapped x p found
    omega
  · intro o oi present
    have := listed o oi present
    omega

theorem Maps.Intact.emitted {uuid : ℕ} {obj : Obj σ} {ranges : Ranges} (intact : s.Intact seq)
    (emits : Emits uuid seq s s' obj hdrSectors ranges)
    (next : s.Next seq hdrSectors obj.data.length s') : s'.Intact (seq + 1) := by
  obtain ⟨consistent, below, measured, listed⟩ := intact
  refine ⟨next.consistent, next.below, measured.emitted consistent below emits next, ?_⟩
  intro x p found
  rw [next.table, table_insert]
  rw [emits.locate_eq, overlay] at found
  split at found
  · cases found
    rw [if_pos (by simp)]
    exact ⟨_, rfl⟩
  · obtain ⟨oi, present⟩ := listed x p found
    have older := below.mapped x p found
    have bounds := consistent.sound.bounds found
    rw [if_neg (by omega), present]
    exact ⟨_, rfl⟩

end Maps

theorem Maps.empty_intact (seq : ℕ) : Maps.empty.Intact seq where
  consistent := Maps.empty_consistent
  below := ⟨by simp [Maps.empty], by simp [Maps.empty]⟩
  measured := Maps.empty_measured
  listed := by simp [Maps.Listed, Maps.empty]

end LsvdRbd.Translate

namespace LsvdRbd.Recovery

open Records RunList ExtentMap Format Translate

variable {σ : Type*}

structure WellMade (uuid seq : ℕ) (obj : Obj σ) (hdrSectors : ℕ) (ranges : Ranges) : Prop where
  object : IsDataObject uuid obj seq hdrSectors ranges
  proper : Proper ranges
  length : sectors ranges = obj.data.length
  header : obj.hdr.length = 512 * hdrSectors
  reach : hdrSectors + sectors ranges ≤ 2 ^ 22

theorem WellMade.of_emits {uuid seq hdrSectors : ℕ} {s s' : Maps} {obj : Obj σ} {ranges : Ranges}
    (emits : Emits uuid seq s s' obj hdrSectors ranges) :
    WellMade uuid seq obj hdrSectors ranges :=
  ⟨emits.object, emits.proper, emits.length, emits.header, emits.reach⟩

/-! ## The checkpoint -/

theorem read_intact_checkpoint {uuid c : ℕ} {s : Maps} {obj : Obj σ} (intact : s.Intact c)
    (uuidBound : uuid < 2 ^ 128) (bound : c < 2 ^ 32)
    (written : checkpointObject uuid c s = some obj) (ckpts : List ℕ) :
    ∃ s' : Maps, readFromCheckpoint (some obj) ⟨Extmap.empty, ∅, ckpts⟩ =
        .ok ⟨s'.objmap, s'.info, ckpts⟩ ∧ s'.Intact c ∧
      ∀ x, locate s'.objmap x = locate s.objmap x := by
  obtain ⟨consistent, below, measured, listed⟩ := intact
  obtain ⟨m, read, sound, located⟩ :=
    read_from_written_checkpoint consistent.sound uuidBound bound written ckpts
  rw [load_table (table_fits consistent measured)] at read
  have counts : ∀ o : ℤ, owned o m.extents = owned o s.objmap.extents := by
    intro o
    refine le_antisymm (owned_le_of_locate consistent.sound sound ?_)
      (owned_le_of_locate sound consistent.sound ?_)
    · intro x p found same
      exact ⟨p, (located x).symm.trans found, same⟩
    · intro x p found same
      exact ⟨p, (located x).trans found, same⟩
  refine ⟨⟨m, s.info, 0, 0⟩, read, ⟨⟨sound, consistent.keys, ?_⟩, ⟨?_, below.listed⟩,
    ⟨?_, measured.filled, measured.sizes⟩, ?_⟩, located⟩
  · intro o oi present
    rw [consistent.exact o oi present]
    exact (counts o).symm
  · intro x p found
    exact below.mapped x p ((located x).symm.trans found)
  · intro x p oi found present
    exact measured.inside x p oi ((located x).symm.trans found) present
  · intro x p found
    exact listed x p ((located x).symm.trans found)

/-! ## One object -/

section Apply

variable {uuid seq hdrSectors : ℕ} {s : Maps} {obj : Obj σ} {ranges : Ranges}

/-- An object that displaces nothing is applied. -/
theorem apply_log_undisplaced (intact : s.Intact seq) (seqBound : seq < 2 ^ 31)
    (made : WellMade uuid seq obj hdrSectors ranges)
    (nothing : (mapExtents seq hdrSectors ranges s.objmap).2 = []) (ckpts : List ℕ) :
    ∃ s' : Maps, applyLog (some obj) seq ⟨s.objmap, s.info, ckpts⟩ =
        .ok (some ⟨s'.objmap, s'.info, ckpts⟩) ∧ s'.Intact (seq + 1) ∧
      ∀ x, locate s'.objmap x = overlay seq hdrSectors ranges (locate s.objmap) x := by
  obtain ⟨consistent, below, measured, listed⟩ := intact
  obtain ⟨sound, located, -, mass⟩ := map_extents_spec seq hdrSectors consistent.sound made.proper
    (by omega) (by omega) (by omega) made.reach
  obtain ⟨parsed, read, -, -, -, hdr, dataSectors, map⟩ := made.object
  have length := made.length
  set s' : Maps := ⟨(mapExtents seq hdrSectors ranges s.objmap).1,
    s.info.insert seq ⟨hdrSectors, obj.data.length, obj.data.length⟩, 0, 0⟩ with after
  have counts : ∀ o : ℤ, owned o s'.objmap.extents =
      owned o s.objmap.extents + if (seq : ℤ) = o then sectors ranges else 0 := by
    intro o
    have balance := mass o
    rw [nothing, owned_nil, add_zero] at balance
    exact balance
  have applied : applyLog (some obj) seq ⟨s.objmap, s.info, ckpts⟩ =
      .ok (some ⟨s'.objmap, s'.info, ckpts⟩) := by
    rw [apply_log_eq seq _ read, hdr, dataSectors, map, nothing]
    rfl
  have table : ∀ o : ℕ, s'.info[o]? =
      ((s.info.insert seq ⟨hdrSectors, obj.data.length, obj.data.length⟩)[o]?).map fun oi =>
        { oi with live := owned o s'.objmap.extents } := by
    intro o
    simp only [after, table_insert]
    have count := counts o
    simp only [after] at count
    split
    · next same =>
        subst same
        rw [if_pos rfl, below.owned consistent.sound] at count
        simp only [Option.map_some, count, zero_add, length]
    · next other =>
        rw [if_neg (by omega), add_zero] at count
        cases present : s.info[o]? with
        | none => rfl
        | some oi => simp only [Option.map_some, count, ← consistent.exact o oi present]
  have keys : ∀ (o : ℕ) (oi : ObjInfo), s'.info[o]? = some oi → o < seq + 1 := by
    intro o oi present
    simp only [after, table_insert] at present
    split at present
    · omega
    · have := below.listed o oi present
      omega
  have next : s.Next seq hdrSectors obj.data.length s' := by
    refine ⟨⟨sound, ?_, ?_⟩, ⟨?_, keys⟩, table⟩
    · intro o oi present
      have := keys o oi present
      omega
    · intro o oi present
      rw [table] at present
      obtain ⟨old, -, rfl⟩ := Option.map_eq_some_iff.mp present
      rfl
    · intro x p found
      rw [located, overlay] at found
      split at found
      · rw [← Option.some.inj found]
        simp
      · have := below.mapped x p found
        omega
  have emits : Emits uuid seq s s' obj hdrSectors ranges :=
    ⟨made.proper, made.length, made.header, made.reach, sound, located, fun o => (counts o).le,
      made.object⟩
  exact ⟨s', applied, Maps.Intact.emitted ⟨consistent, below, measured, listed⟩ emits next, located⟩

/-- An object that displaces something is not: the first extent it displaces belongs to
an object in the table, which has at least that many live sectors. -/
theorem apply_log_displaced (intact : s.Intact seq) (seqBound : seq < 2 ^ 31)
    (made : WellMade uuid seq obj hdrSectors ranges)
    (something : (mapExtents seq hdrSectors ranges s.objmap).2 ≠ []) (ckpts : List ℕ) :
    ∃ fault, applyLog (some obj) seq ⟨s.objmap, s.info, ckpts⟩ = .error fault := by
  obtain ⟨consistent, below, measured, listed⟩ := intact
  obtain ⟨sound, -, lost, mass⟩ := map_extents_spec seq hdrSectors consistent.sound made.proper
    (by omega) (by omega) (by omega) made.reach
  obtain ⟨parsed, read, -, -, -, hdr, dataSectors, map⟩ := made.object
  have length := made.length
  rw [apply_log_eq seq _ read, hdr, dataSectors, map]
  simp only
  set r := mapExtents seq hdrSectors ranges s.objmap
  obtain ⟨d, rest, displaced⟩ := List.exists_cons_of_ne_nil something
  rw [displaced] at lost mass ⊢
  have nonneg : ∀ o : ℤ, 0 ≤ owned o r.1.extents := fun o =>
    owned_nonneg o fun e member => (sound.ordered.positive e member).le
  cases charged : (d :: rest).foldlM chargeReplayed
      (s.info.insert seq ⟨hdrSectors, obj.data.length, obj.data.length⟩) with
  | error fault => exact ⟨fault, rfl⟩
  | ok info =>
      exfalso
      obtain ⟨missing, -⟩ := charge_replayed_cons lost (by
        intro o oi found
        have balance := mass o
        have := nonneg o
        rw [table_insert] at found
        split at found
        · next same =>
            subst same
            rw [if_pos rfl, below.owned consistent.sound] at balance
            rw [← Option.some.inj found]
            simp only
            omega
        · have count := consistent.exact o oi found
          rw [if_neg (by omega)] at balance
          omega) charged
      obtain ⟨within, positive⟩ := lost d (by simp)
      have key := info_key_of_bounds within.objLower within.objUpper
      rw [table_insert] at missing
      split at missing
      · cases missing
      · next other =>
          have balance := mass d.ptr.obj
          have after := nonneg d.ptr.obj
          have more : 0 ≤ owned d.ptr.obj rest :=
            owned_nonneg _ fun e member => (lost e (by simp [member])).2.le
          rw [owned_cons, if_pos rfl, if_neg (by omega)] at balance
          have mapped : owned d.ptr.obj s.objmap.extents ≠ 0 := by omega
          rw [ne_eq, owned_eq_zero_iff consistent.sound] at mapped
          push Not at mapped
          obtain ⟨x, p, found, same⟩ := mapped
          obtain ⟨oi, present⟩ := listed x p found
          rw [same, ← key, Int.toNat_natCast, missing] at present
          cases present

end Apply

/-! ## A stretch of the log -/

def rangesAt (store : Store σ) (n : ℕ) : Ranges :=
  match readDataHdr store[n]? with
  | .ok (some parsed) => dataRanges parsed.dataMap
  | _ => []

theorem WellMade.ranges_at {uuid seq hdrSectors : ℕ} {obj : Obj σ} {ranges : Ranges}
    {store : Store σ} (made : WellMade uuid seq obj hdrSectors ranges)
    (present : store[seq]? = some obj) : rangesAt store seq = ranges := by
  obtain ⟨parsed, read, -, -, -, -, -, map⟩ := made.object
  rw [rangesAt, present, read]
  exact map

def stretchRanges (store : Store σ) (first count : ℕ) : Ranges :=
  (List.range' first count).flatMap (rangesAt store)

theorem stretch_ranges_succ (store : Store σ) (first count : ℕ) :
    stretchRanges store first (count + 1) =
      rangesAt store first ++ stretchRanges store (first + 1) count := by
  simp [stretchRanges, List.range'_succ]

/-- No address of the ranges is mapped, and none comes twice. -/
def Untouched (m : ℤ → Option ObjOffset) (ranges : Ranges) : Prop :=
  (∀ range ∈ ranges, ∀ x, range.1 ≤ x → x < range.1 + range.2 → m x = none) ∧ Apart ranges

theorem untouched_append {seq offset : ℤ} {f : ℤ → Option ObjOffset} {first rest : Ranges}
    (proper : Proper first) (restProper : Proper rest) :
    Untouched f (first ++ rest) ↔
      Untouched f first ∧ Untouched (overlay seq offset first f) rest := by
  have outside : ∀ x, overlay seq offset first f x = none ↔
      (∀ range ∈ first, ¬(range.1 ≤ x ∧ x < range.1 + range.2)) ∧ f x = none := by
    intro x
    rw [overlay, ← last_index_eq_none_iff]
    cases lastIndex first x with
    | none => simp
    | some i => simp
  unfold Untouched Apart
  rw [List.pairwise_append, List.forall_mem_append]
  constructor
  · rintro ⟨⟨firstFree, restFree⟩, firstApart, restApart, between⟩
    refine ⟨⟨firstFree, firstApart⟩, ?_, restApart⟩
    intro range member x low high
    rw [outside]
    refine ⟨?_, restFree range member x low high⟩
    rintro other inFirst ⟨otherLow, otherHigh⟩
    have := between other inFirst range member
    omega
  · rintro ⟨⟨firstFree, firstApart⟩, restFree, restApart⟩
    refine ⟨⟨firstFree, ?_⟩, firstApart, restApart, ?_⟩
    · intro range member x low high
      exact ((outside x).mp (restFree range member x low high)).2
    · intro left inFirst right inRest
      have leftPositive := (proper left inFirst).2.1
      have rightPositive := (restProper right inRest).2.1
      by_contra meet
      -- the larger one of the two starts lies in both
      have free := (outside (max left.1 right.1)).mp
        (restFree right inRest _ (le_max_right _ _) (by omega))
      exact free.1 left inFirst ⟨le_max_left _ _, by omega⟩

section Stretch

variable {uuid : ℕ} {store : Store σ}

def MadeFrom (uuid : ℕ) (store : Store σ) (first count : ℕ) : Prop :=
  ∀ j < count, ∃ obj hdrSectors ranges, store[first + j]? = some obj ∧
    WellMade uuid (first + j) obj hdrSectors ranges

theorem MadeFrom.tail {first count : ℕ} (made : MadeFrom uuid store first (count + 1)) :
    MadeFrom uuid store (first + 1) count := by
  intro j inside
  rw [show first + 1 + j = first + (j + 1) by omega]
  exact made (j + 1) (by omega)

theorem MadeFrom.proper {first count : ℕ} (made : MadeFrom uuid store first count) :
    Proper (stretchRanges store first count) := by
  intro range member
  obtain ⟨n, inside, inRanges⟩ := List.mem_flatMap.mp member
  obtain ⟨lower, upper⟩ := List.mem_range'_1.mp inside
  obtain ⟨obj, hdrSectors, ranges, present, wellMade⟩ := made (n - first) (by omega)
  rw [show first + (n - first) = n by omega] at present wellMade
  rw [wellMade.ranges_at present] at inRanges
  exact wellMade.proper range inRanges

/-- The replay of a stretch succeeds exactly if its addresses are untouched, and stops
at its end with intact maps. -/
theorem replay_stretch_iff {first count fuel : ℕ} {s : Maps} (bound : first + count ≤ 2 ^ 31)
    (made : MadeFrom uuid store first count) (stop : readDataHdr store[first + count]? = .ok none)
    (enough : count < fuel) (intact : s.Intact first) (ckpts : List ℕ) :
    (Untouched (locate s.objmap) (stretchRanges store first count) → ∃ s' : Maps,
      replay (fun n => applyLog store[n]? n) fuel first ⟨s.objmap, s.info, ckpts⟩ =
        some (.ok (⟨s'.objmap, s'.info, ckpts⟩, first + count)) ∧
      s'.Intact (first + count)) ∧
    (¬Untouched (locate s.objmap) (stretchRanges store first count) → ∃ fault,
      replay (fun n => applyLog store[n]? n) fuel first ⟨s.objmap, s.info, ckpts⟩ =
        some (.error fault)) := by
  induction count generalizing first fuel s with
  | zero =>
      obtain ⟨fuel, rfl⟩ := Nat.exists_eq_add_of_lt enough
      have stops : applyLog store[first]? first ⟨s.objmap, s.info, ckpts⟩ = .ok none := by
        rw [applyLog, show readDataHdr store[first]? = .ok none from stop]
        rfl
      constructor
      · intro untouched
        refine ⟨s, ?_, intact⟩
        rw [zero_add, replay, stops]
        rfl
      · intro touched
        exact absurd ⟨by simp [stretchRanges], List.Pairwise.nil⟩ touched
  | succ count ih =>
      obtain ⟨fuel, rfl⟩ : ∃ rest, fuel = rest + 1 := ⟨fuel - 1, by omega⟩
      obtain ⟨obj, hdrSectors, ranges, present, wellMade⟩ := made 0 (by omega)
      rw [add_zero] at present wellMade
      have next : nextSeq first = first + 1 := next_seq_eq (by omega)
      have nothing := map_extents_displaced_eq_nil_iff first hdrSectors intact.consistent.sound
        wellMade.proper (by omega) (by omega) (by omega) wellMade.reach
      have split := @untouched_append first hdrSectors (locate s.objmap) ranges
        (stretchRanges store (first + 1) count) wellMade.proper made.tail.proper
      rw [stretch_ranges_succ, wellMade.ranges_at present, split, replay, present]
      by_cases free : Untouched (locate s.objmap) ranges
      · obtain ⟨s', applied, after, located⟩ := apply_log_undisplaced intact (by omega) wellMade
          (nothing.mpr free) ckpts
        obtain ⟨succeeds, fails⟩ := ih (by omega) made.tail
          (by rwa [show first + 1 + count = first + (count + 1) by omega])
          (show count < fuel by omega) after
        rw [applied]
        simp only [next]
        have same : locate s'.objmap = overlay first hdrSectors ranges (locate s.objmap) :=
          funext located
        rw [same, show first + 1 + count = first + (count + 1) by omega] at succeeds
        rw [same] at fails
        exact ⟨fun untouched => succeeds untouched.2,
          fun touched => fails fun rest => touched ⟨free, rest⟩⟩
      · obtain ⟨fault, thrown⟩ := apply_log_displaced intact (by omega) wellMade
          (fun empty => free (nothing.mp empty)) ckpts
        rw [thrown]
        exact ⟨fun untouched => absurd untouched.1 free, fun _ => ⟨fault, rfl⟩⟩

end Stretch

end LsvdRbd.Recovery
