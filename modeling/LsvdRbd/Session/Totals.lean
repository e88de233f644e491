import LsvdRbd.Lib.Machine
import LsvdRbd.Lib.TableSum
import LsvdRbd.Session.Collector

/-!
# The totals for garbage collection

`total_sectors` and `total_live_sectors` repeat what the object table holds. Six
places adjust them: this module follows the steps that change the table, each
taken as atomic, and says which of them keep the totals in line with it.
-/

namespace LsvdRbd.Session

open Records RunList ExtentMap Format Translate Recovery Machine

set_option autoImplicit false

variable {σ : Type*}

abbrev dataTotal (info : ObjTable) : ℤ := TableSum.total ObjInfo.data info

abbrev liveTotal (info : ObjTable) : ℤ := TableSum.total ObjInfo.live info

theorem charge_all_balance (info : ObjTable) (total : ℤ) {deleted : List (Extent ObjOffset)}
    {acc : ObjTable × ℤ} (charged : chargeAll (info, total) deleted = some acc) :
    dataTotal acc.1 = dataTotal info ∧ liveTotal acc.1 - acc.2 = liveTotal info - total := by
  induction deleted generalizing info total with
  | nil =>
      cases charged
      exact ⟨rfl, rfl⟩
  | cons d rest ih =>
      obtain ⟨next, first, later⟩ := Option.bind_eq_some_iff.mp charged
      obtain ⟨data, live⟩ := ih next.1 next.2 later
      rcases charge_cases first with ⟨-, rfl⟩ | ⟨oi, found, -, rfl⟩
      · exact ⟨data, live⟩
      · have dataKept := TableSum.total_insert ObjInfo.data found
          { oi with live := oi.live - d.len }
        have liveLess := TableSum.total_insert ObjInfo.live found
          { oi with live := oi.live - d.len }
        simp only at data live dataKept liveLess
        unfold dataTotal liveTotal at *
        constructor <;> omega

/-! ## The steps -/

structure Books where
  maps : Maps
  nextSeq : ℕ

/-- The constructor of `translate_impl` sums up the table it is given. -/
def Books.construct (objmap : Objmap) (info : ObjTable) (nextSeq : ℕ) : Books :=
  ⟨⟨objmap, info, dataTotal info, liveTotal info⟩, nextSeq⟩

inductive Move (σ : Type*)
  | batch (entries : List MapEntry) (data : List σ)
  | gc (entries : List MapEntry) (input : List σ)
  | trim (base limit : ℤ)
  | reap
  | remove (objs : List ℕ)

/-- One step, taken as atomic. The objects removed at the end of a cycle are
distinct keys of the table. -/
def Books.step (crc32 : Bytes → ℕ) (uuid : ℕ) (b : Books) : Move σ → Option Books
  | .batch entries data =>
      (processBatch crc32 uuid b.nextSeq entries data b.maps).map fun r => ⟨r.1, b.nextSeq + 1⟩
  | .gc entries input =>
      (writeGc crc32 uuid b.nextSeq entries input b.maps).map fun r => ⟨r.1, b.nextSeq + 1⟩
  | .trim base limit => (b.maps.trim base limit).map fun maps => { b with maps := maps }
  | .reap =>
      let dead := deadObjects b.maps.info
      some { b with maps := forget dead (uncount dead b.maps) }
  | .remove objs =>
      if objs.Nodup ∧ ∀ o ∈ objs, (b.maps.info[o]?).isSome then
        some { b with maps := forget objs (uncount objs b.maps) }
      else none

def Move.Proper : Move σ → Prop
  | .batch entries data => ProperRequest entries data
  | .gc entries input => ProperRequest entries input
  | .trim base limit => 0 ≤ base ∧ base ≤ limit ∧ base < 2 ^ 35
  | .reap => True
  | .remove _ => True

structure Books.Balanced (b : Books) : Prop where
  data : b.maps.totalSectors = dataTotal b.maps.info
  live : b.maps.totalLive = liveTotal b.maps.info

/-- The steps that keep the totals in line: a batch whose writes do not meet, a
garbage collection request of which nothing is left, and the removal of objects
without live sectors. -/
def Accounted (b : Books) : Move σ → Prop
  | .batch entries _ => Apart (entryRanges entries)
  | .gc entries _ => ∀ e ∈ entries, ∀ x p, e.lba ≤ x → x < e.lba + e.len →
      locate b.maps.objmap x = some p → p.obj ≠ e.obj
  | .trim _ _ => True
  | .reap => True
  | .remove objs => (objs.map fun o => (b.maps.info.getD o default).live).sum = 0

structure Books.Tidy (b : Books) : Prop where
  sound : Sound b.maps.objmap
  below : b.maps.Below b.nextSeq

/-! ## What each step does to the differences -/

/-- What the table has and the totals have not. -/
def Books.missing (b : Books) : ℤ × ℤ :=
  (dataTotal b.maps.info - b.maps.totalSectors, liveTotal b.maps.info - b.maps.totalLive)

theorem Books.balanced_iff (b : Books) : b.Balanced ↔ b.missing = (0, 0) := by
  rw [missing, Prod.mk.injEq]
  constructor
  · rintro ⟨data, live⟩
    constructor <;> omega
  · rintro ⟨data, live⟩
    constructor <;> omega

/-- A batch counts the sectors that it overwrites itself twice: once as displaced
extents, once in the live count that it adds. -/
theorem process_batch_missing {crc32 : Bytes → ℕ} {uuid seq : ℕ} {entries : List MapEntry}
    {data : List σ} {s s' : Maps} {obj : Obj σ} (sound : Sound s.objmap) (below : s.Below seq)
    (request : ProperRequest entries data) (seqBound : seq < 2 ^ 31)
    (done : processBatch crc32 uuid seq entries data s = some (s', obj)) :
    (Sound s'.objmap ∧ s'.Below (seq + 1)) ∧
      dataTotal s'.info - s'.totalSectors = dataTotal s.info - s.totalSectors ∧
      liveTotal s'.info - s'.totalLive = liveTotal s.info - s.totalLive +
        owned seq
          (mapExtents seq (hdrSectorsFor entries.length) (entryRanges entries) s.objmap).2 := by
  have length := request.length
  unfold processBatch at done
  dsimp only at done
  split at done
  case isFalse => cases done
  case isTrue size =>
      obtain ⟨acc, charged, result⟩ := Option.map_eq_some_iff.mp done
      cases result
      obtain ⟨mapSound, laid, lost, -⟩ := map_extents_spec seq (hdrSectorsFor entries.length) sound
        request.ranges (by omega) (by omega) (by omega) (by omega)
      have fresh : s.info[seq]? = none := by
        rw [Option.eq_none_iff_forall_ne_some]
        intro oi present
        have := below.listed seq oi present
        omega
      have inserted := fun f => TableSum.total_insert_new f fresh
        (⟨hdrSectorsFor entries.length, data.length, data.length⟩ : ObjInfo)
      have own := charge_all_table _ _ (fun d member => (lost d member).1) charged seq
      rw [table_insert, if_pos rfl, Option.map_some] at own
      obtain ⟨dataSame, liveSame⟩ := charge_all_balance _ _ charged
      have entry : acc.1.getD seq default = ⟨hdrSectorsFor entries.length, data.length,
          data.length - owned seq (mapExtents seq (hdrSectorsFor entries.length)
            (entryRanges entries) s.objmap).2⟩ := by
        rw [Std.ExtTreeMap.getD_eq_getD_getElem?, own]
        rfl
      refine ⟨⟨mapSound, below_overlay below.mapped laid, ?_⟩, ?_, ?_⟩
      · intro o oi present
        obtain ⟨old, found⟩ := charge_all_keys _ _ charged present
        rw [table_insert] at found
        split at found
        · omega
        · have := below.listed o old found
          omega
      · have := inserted ObjInfo.data
        simp only at this ⊢
        unfold dataTotal at *
        omega
      · have := inserted ObjInfo.live
        simp only [entry] at this ⊢
        unfold liveTotal at *
        omega

/-- A garbage collection object is added to the table but not to the totals. -/
theorem update_gc_missing {crc32 : Bytes → ℕ} {uuid seq : ℕ} {pieces : List (ℤ × List σ)}
    {s s' : Maps} {obj : Obj σ} (sound : Sound s.objmap) (below : s.Below seq)
    (proper : Translate.Proper (pieceRanges pieces)) (seqBound : seq < 2 ^ 31)
    (done : updateGc crc32 uuid seq pieces s = some (s', obj)) :
    (Sound s'.objmap ∧ s'.Below (seq + 1)) ∧
      dataTotal s'.info - s'.totalSectors =
        dataTotal s.info - s.totalSectors + (pieces.flatMap Prod.snd).length ∧
      liveTotal s'.info - s'.totalLive =
        liveTotal s.info - s.totalLive + (pieces.flatMap Prod.snd).length := by
  have length := sectors_piece_ranges pieces
  have extentsLength : (gcExtents pieces).length = pieces.length := by simp [gcExtents]
  unfold updateGc at done
  simp only [extentsLength] at done
  split at done
  case isFalse => cases done
  case isTrue size =>
      have same := (gc_extents_eq proper (by omega)).2
      obtain ⟨acc, charged, result⟩ := Option.map_eq_some_iff.mp done
      cases result
      rw [same] at charged
      obtain ⟨mapSound, laid, -, -⟩ := map_extents_spec seq (hdrSectorsFor pieces.length) sound
        proper (by omega) (by omega) (by omega) (by omega)
      have listed : ∀ (o : ℕ) (oi : ObjInfo), acc.1[o]? = some oi → o < seq := by
        intro o oi present
        obtain ⟨old, found⟩ := charge_all_keys _ _ charged present
        exact below.listed o old found
      have fresh : acc.1[seq]? = none := by
        rw [Option.eq_none_iff_forall_ne_some]
        intro oi present
        have := listed seq oi present
        omega
      have inserted := fun f => TableSum.total_insert_new f fresh
        (⟨hdrSectorsFor pieces.length, (pieces.flatMap Prod.snd).length,
          (pieces.flatMap Prod.snd).length⟩ : ObjInfo)
      obtain ⟨dataSame, liveSame⟩ := charge_all_balance _ _ charged
      simp only [same]
      refine ⟨⟨mapSound, below_overlay below.mapped laid, ?_⟩, ?_, ?_⟩
      · intro o oi present
        rw [table_insert] at present
        split at present
        · omega
        · have := listed o oi present
          omega
      · have := inserted ObjInfo.data
        simp only at this ⊢
        unfold dataTotal at *
        omega
      · have := inserted ObjInfo.live
        simp only at this ⊢
        unfold liveTotal at *
        omega

/-- Entries that leave the table are taken off the data total only. -/
theorem forget_missing {objs : List ℕ} (distinct : objs.Nodup) {s : Maps}
    (listed : ∀ o ∈ objs, (s.info[o]?).isSome) :
    dataTotal (forget objs (uncount objs s)).info - (forget objs (uncount objs s)).totalSectors =
        dataTotal s.info - s.totalSectors ∧
      liveTotal (forget objs (uncount objs s)).info - (forget objs (uncount objs s)).totalLive =
        liveTotal s.info - s.totalLive - (objs.map fun o => (s.info.getD o default).live).sum := by
  have found : ∀ o ∈ objs, s.info[o]? = some (s.info.getD o default) := by
    intro o member
    obtain ⟨oi, present⟩ := Option.isSome_iff_exists.mp (listed o member)
    rw [Std.ExtTreeMap.getD_eq_getD_getElem?, present]
    rfl
  simp only [forget, uncount, dataTotal, liveTotal]
  rw [TableSum.total_erase_all _ distinct s.info _ found,
    TableSum.total_erase_all _ distinct s.info _ found]
  constructor <;> ring

theorem Books.Tidy.forget {b : Books} (tidy : b.Tidy) (objs : List ℕ) :
    Books.Tidy { b with maps := Session.forget objs (uncount objs b.maps) } := by
  refine ⟨tidy.sound, tidy.below.mapped, ?_⟩
  intro o oi present
  simp only [Session.forget, uncount, table_erase_all] at present
  split at present
  · cases present
  · exact tidy.below.listed o oi present

theorem dead_objects_nodup (info : ObjTable) : (deadObjects info).Nodup := by
  have distinct : (info.toList.map Prod.fst).Nodup := by
    rw [List.nodup_iff_pairwise_ne, List.pairwise_map]
    refine Std.ExtTreeMap.distinct_keys_toList.imp ?_
    rintro a b differ same
    exact differ (by simp [same])
  exact distinct.sublist (List.filter_sublist.map Prod.fst)

theorem revalidate_empty_iff {m : Objmap} (sound : Sound m) {entries : List MapEntry}
    {input : List σ} (request : ProperRequest entries input) :
    ((revalidate m entries input).flatMap Prod.snd).length = 0 ↔
      ∀ e ∈ entries, ∀ x p, e.lba ≤ x → x < e.lba + e.len →
        locate m x = some p → p.obj ≠ e.obj := by
  have proper := piece_ranges_proper sound request
  have total := sectors_piece_ranges (revalidate m entries input)
  have covers := revalidate_covers sound request
  constructor
  · intro empty e member x p low high found
    have none : lastIndex (pieceRanges (revalidate m entries input)) x = none := by
      rw [Option.eq_none_iff_forall_ne_some]
      intro i written
      have := last_index_bounds proper written
      omega
    exact (covers x).mp none e member low high p found
  · intro moved
    rw [List.length_eq_zero_iff, List.flatMap_eq_nil_iff]
    intro piece member
    have inRanges : (piece.1, (piece.2.length : ℤ)) ∈ pieceRanges (revalidate m entries input) :=
      List.mem_map.mpr ⟨piece, member, rfl⟩
    have none := (last_index_eq_none_iff piece.1).mp
      ((covers piece.1).mpr fun e inEntries low high p found =>
        moved e inEntries piece.1 p low high found)
    have positive := (proper _ inRanges).2.1
    exact absurd ⟨le_refl _, by simp only at positive ⊢; omega⟩ (none _ inRanges)

/-! ## Runs -/

variable {crc32 : Bytes → ℕ} {uuid : ℕ}

/-- A step keeps the map within its bounds, and leaves the differences as they
are exactly if it is one of the accounted ones. -/
theorem Books.Tidy.step {b b' : Books} {move : Move σ} (tidy : b.Tidy) (proper : move.Proper)
    (seqBound : b.nextSeq < 2 ^ 31) (took : b.step crc32 uuid move = some b') :
    b'.Tidy ∧ b'.nextSeq ≤ b.nextSeq + 1 ∧ (b'.missing = b.missing ↔ Accounted b move) := by
  cases move with
  | batch entries data =>
      obtain ⟨⟨s', obj⟩, done, rfl⟩ := Option.map_eq_some_iff.mp took
      have length := proper.length
      have size := (process_batch_cases done).1
      obtain ⟨⟨sound, below⟩, data, live⟩ :=
        process_batch_missing tidy.sound tidy.below proper seqBound done
      have own := @map_extents_own_iff _ _ b.nextSeq (hdrSectorsFor entries.length) tidy.sound
        proper.ranges (by omega) (by omega) (by omega) (by omega)
      refine ⟨⟨sound, below⟩, le_refl _, ?_⟩
      simp only [missing, Prod.mk.injEq, data, live, true_and, Accounted, add_eq_left, own]
      constructor
      · exact fun both => both.2
      · intro apart
        refine ⟨?_, apart⟩
        intro range _ x p _ _ found
        have := tidy.below.mapped x p found
        omega
  | gc entries input =>
      obtain ⟨⟨s', obj⟩, done, rfl⟩ := Option.map_eq_some_iff.mp took
      obtain ⟨⟨sound, below⟩, data, live⟩ := update_gc_missing tidy.sound tidy.below
        (piece_ranges_proper tidy.sound proper) seqBound done
      refine ⟨⟨sound, below⟩, le_refl _, ?_⟩
      simp only [missing, Prod.mk.injEq, data, live, add_eq_left, and_self, Accounted]
      rw [← revalidate_empty_iff tidy.sound proper]
      omega
  | trim base limit =>
      obtain ⟨maps, done, rfl⟩ := Option.map_eq_some_iff.mp took
      obtain ⟨lower, order, upper⟩ := proper
      obtain ⟨acc, charged, rfl⟩ := Option.map_eq_some_iff.mp done
      obtain ⟨sound, -, -⟩ := tidy.sound.unset order (objmap_key lower (by omega))
      have located := tidy.sound.locate_unset order (objmap_key lower (by omega))
      obtain ⟨data, live⟩ := charge_all_balance _ _ charged
      refine ⟨⟨sound, ?_, ?_⟩, Nat.le_succ _, ?_⟩
      · intro x p found
        rw [located] at found
        split at found
        · cases found
        · exact tidy.below.mapped x p found
      · intro o oi present
        obtain ⟨old, found⟩ := charge_all_keys _ _ charged present
        exact tidy.below.listed o old found
      · simp only [missing, data, live, Accounted]
  | reap =>
      cases took
      have listed : ∀ o ∈ deadObjects b.maps.info, (b.maps.info[o]?).isSome := by
        intro o dead
        obtain ⟨oi, present, -⟩ := mem_dead_objects dead
        simp [present]
      obtain ⟨data, live⟩ := forget_missing (dead_objects_nodup b.maps.info) listed
      have empty : ((deadObjects b.maps.info).map fun o =>
          (b.maps.info.getD o default).live).sum = 0 := by
        apply List.sum_eq_zero
        intro count member
        obtain ⟨o, dead, rfl⟩ := List.mem_map.mp member
        obtain ⟨oi, present, none⟩ := mem_dead_objects dead
        rw [Std.ExtTreeMap.getD_eq_getD_getElem?, present]
        exact none
      refine ⟨tidy.forget _, Nat.le_succ _, ?_⟩
      simp only [missing, data, live, empty, sub_zero, Accounted]
  | remove objs =>
      unfold Books.step at took
      dsimp only at took
      split at took
      case isFalse => cases took
      case isTrue allowed =>
          cases took
          obtain ⟨data, live⟩ := forget_missing allowed.1 allowed.2
          refine ⟨tidy.forget _, Nat.le_succ _, ?_⟩
          simp only [missing, data, live, Prod.mk.injEq, true_and, Accounted, sub_eq_self]

/-- Starting from the constructor, the totals are the sums over the table in every
state of a run exactly if every step of it is one of the accounted ones. -/
theorem totals_match_iff_accounted {objmap : Objmap} {info : ObjTable} {nextSeq : ℕ}
    (tidy : (Books.construct objmap info nextSeq).Tidy) {moves : List (Move σ)} {final : Books}
    (proper : ∀ move ∈ moves, move.Proper) (numbers : nextSeq + moves.length ≤ 2 ^ 31)
    (ran : run (Books.step crc32 uuid) (Books.construct objmap info nextSeq) moves = some final) :
    (∀ seen, seen <+: moves → ∀ mid,
      run (Books.step crc32 uuid) (Books.construct objmap info nextSeq) seen = some mid →
        mid.Balanced) ↔
      Along (Books.step crc32 uuid) Accounted (Books.construct objmap info nextSeq) moves := by
  have start : (Books.construct objmap info nextSeq).Balanced := ⟨rfl, rfl⟩
  have bound : (Books.construct objmap info nextSeq).nextSeq + moves.length ≤ 2 ^ 31 := numbers
  clear numbers
  generalize Books.construct objmap info nextSeq = b at *
  induction moves generalizing b with
  | nil =>
      refine ⟨fun _ => trivial, ?_⟩
      intro _ seen earlier mid reached
      obtain rfl := List.prefix_nil.mp earlier
      cases reached
      exact start
  | cons move moves ih =>
      obtain ⟨next, took, rest⟩ := (run_cons_eq_some _).mp ran
      rw [List.length_cons] at bound
      have later : ∀ move ∈ moves, move.Proper := fun other member => proper other (by simp [member])
      obtain ⟨nextTidy, nextSeq, same⟩ := tidy.step (proper move (by simp)) (by omega) took
      have balanced : next.Balanced ↔ Accounted b move := by
        rw [← same, next.balanced_iff, b.balanced_iff.mp start]
      constructor
      · intro always
        have nextBalanced : next.Balanced := by
          refine always [move] (by simp) next ?_
          rw [run_cons_eq_some]
          exact ⟨next, took, rfl⟩
        refine ⟨balanced.mp nextBalanced, ?_⟩
        intro other tookOther
        cases took.symm.trans tookOther
        refine (ih later next nextTidy rest nextBalanced (by omega)).mp ?_
        intro seen earlier mid reached
        refine always (move :: seen) (by simpa using earlier) mid ?_
        rw [run_cons_eq_some]
        exact ⟨next, took, reached⟩
      · rintro ⟨here, accounted⟩ seen earlier mid reached
        cases seen with
        | nil =>
            cases reached
            exact start
        | cons first seen =>
            obtain ⟨rfl, within⟩ := List.cons_prefix_cons.mp earlier
            obtain ⟨other, tookOther, reached⟩ := (run_cons_eq_some _).mp reached
            cases took.symm.trans tookOther
            exact (ih later next nextTidy rest (balanced.mpr here) (by omega)).mpr
              (accounted next took) seen within mid reached

theorem construct_empty_tidy : (Books.construct Extmap.empty ∅ 1).Tidy :=
  ⟨sound_empty, by simp [Books.construct, locate, Extmap.empty, Extmap.extents],
    by simp [Books.construct]⟩

def plainMoves : List (Move ℕ) :=
  [.batch [⟨0, 4, 0, 0⟩] [1, 2, 3, 4], .batch [⟨1, 1, 0, 0⟩, ⟨8, 1, 0, 0⟩] [5, 6], .trim 8 9, .reap]

theorem totals_match_plain_moves : ∃ final,
    run (Books.step (fun _ => 0) 7) (Books.construct Extmap.empty ∅ 1) plainMoves = some final ∧
      final.Balanced := by
  obtain ⟨final, ran⟩ := Option.isSome_iff_exists.mp
    (by decide +kernel : (run (Books.step (fun _ => 0) 7) (Books.construct Extmap.empty ∅ 1)
      plainMoves).isSome = true)
  have proper : ∀ move ∈ plainMoves, move.Proper := by
    simp only [plainMoves, List.forall_mem_cons, Move.Proper]
    refine ⟨⟨?_, rfl⟩, ⟨?_, rfl⟩, by decide, trivial, by simp⟩
    · unfold Translate.Proper
      decide
    · unfold Translate.Proper
      decide
  have balanced := (totals_match_iff_accounted construct_empty_tidy proper (by decide) ran).mpr
  refine ⟨final, ran, balanced ?_ plainMoves List.prefix_rfl final ran⟩
  refine ⟨?_, fun _ _ => ⟨?_, fun _ _ => ⟨trivial, fun _ _ => ⟨trivial, fun _ _ => trivial⟩⟩⟩⟩
  · change List.Pairwise _ _
    decide
  · change List.Pairwise _ _
    decide

/-- A batch that writes one sector twice leaves one live sector and a live total
of zero. A batch of two sectors that are then moved leaves a table with four data
sectors and totals of two and zero. -/
theorem totals_drift :
    (∃ b, run (Books.step (fun _ => 0) 7) (Books.construct Extmap.empty ∅ 1)
        [.batch [⟨0, 1, 0, 0⟩, ⟨0, 1, 0, 0⟩] [1, 2]] = some b ∧
      (liveTotal b.maps.info, b.maps.totalLive) = (1, 0) ∧ ¬b.Balanced) ∧
    ∃ b, run (Books.step (fun _ => 0) 7) (Books.construct Extmap.empty ∅ 1)
        [.batch [⟨0, 2, 0, 0⟩] [1, 2], .gc [⟨0, 2, 1, 8⟩] [1, 2]] = some b ∧
      (dataTotal b.maps.info, b.maps.totalSectors) = (4, 2) ∧
      (liveTotal b.maps.info, b.maps.totalLive) = (2, 0) ∧ ¬b.Balanced := by
  constructor
  · obtain ⟨b, ran, sums⟩ := Option.map_eq_some_iff.mp (by decide +kernel :
      (run (Books.step (fun _ => 0) 7) (Books.construct Extmap.empty ∅ 1)
        [.batch [⟨0, 1, 0, 0⟩, ⟨0, 1, 0, 0⟩] [1, 2]]).map
          (fun b => (liveTotal b.maps.info, b.maps.totalLive)) = some (1, 0))
    refine ⟨b, ran, sums, ?_⟩
    intro balanced
    have := balanced.live
    simp only [Prod.mk.injEq] at sums
    omega
  · obtain ⟨b, ran, sums⟩ := Option.map_eq_some_iff.mp (by decide +kernel :
      (run (Books.step (fun _ => 0) 7) (Books.construct Extmap.empty ∅ 1)
        [.batch [⟨0, 2, 0, 0⟩] [1, 2], .gc [⟨0, 2, 1, 8⟩] [1, 2]]).map
          (fun b => ((dataTotal b.maps.info, b.maps.totalSectors),
            (liveTotal b.maps.info, b.maps.totalLive))) = some ((4, 2), (2, 0)))
    obtain ⟨data, live⟩ := Prod.mk.inj sums
    refine ⟨b, ran, data, live, ?_⟩
    intro balanced
    have := balanced.data
    simp only [Prod.mk.injEq] at data
    omega

end LsvdRbd.Session
