import LsvdRbd.Session.Invariant

/-!
# Reads

`handle_reads` walks both maps at once and divides a read into parts that it
zeroes, copies from a buffer, or asks the read cache for, one cache block at a
time. The buffer map has priority.
-/

namespace LsvdRbd.Session

open Records RunList ExtentMap Format Translate Recovery

set_option autoImplicit false

variable {σ : Type*}

def blockSectors : ℤ := 128

inductive Piece
  | zero (count : ℤ)
  | copy (ptr : SectorPtr) (count : ℤ)
  | fetch (obj block inBlock count : ℤ)
  deriving DecidableEq, Repr

/-- The `vals` of the next extent, or the end of the read if there is none. -/
def nextVals {P : Type*} [Stored P] (null : P) (start stop : ℤ) : List (Extent P) → ℤ × ℤ × P
  | [] => (stop, stop, null)
  | e :: _ => (Stored.layout : Layout P).vals e start stop

/-- The loop, from `start` on, with the extents that both iterators have ahead.
It gets at least one sector further in every round. -/
def planReads (stop : ℤ) :
    ℕ → ℤ → List (Extent SectorPtr) → List (Extent ObjOffset) → Option (List Piece)
  | 0, _, _, _ => none
  | fuel + 1, start, bufs, objs =>
      if stop ≤ start then some []
      else
        let buf := nextVals ⟨0⟩ start stop bufs
        let obj := nextVals ⟨0, 0⟩ start stop objs
        let base3 := min buf.1 obj.1
        if start < base3 then
          (planReads stop fuel base3 bufs objs).map (.zero (base3 - start) :: ·)
        else if buf.1 = start then
          (planReads stop fuel buf.2.1 bufs.tail
            (objs.dropWhile fun e => decide (e.limit ≤ buf.2.1))).map
            (.copy buf.2.2 (buf.2.1 - start) :: ·)
        else
          match objs with
          | [] => none
          | e :: rest =>
              if obj.1 = start then
                let sectors := min obj.2.1 buf.1 - start
                let block := obj.2.2.offset - obj.2.2.offset % blockSectors
                let count := min (block + blockSectors) (obj.2.2.offset + sectors) - obj.2.2.offset
                (planReads stop fuel (start + count) bufs
                  (if start + count = e.limit then rest else e :: rest)).map
                  (.fetch obj.2.2.obj block (obj.2.2.offset % blockSectors) count :: ·)
              else none

def handleReads (bufmap : Bufmap) (objmap : Objmap) (start count : ℕ) : Option (List Piece) :=
  planReads (start + count) (count + 1) start (bufmap.scan Stored.layout start)
    (objmap.scan Stored.layout start)

section Fill

variable (mem : SectorPtr → Option σ) (get : ℤ → ℤ → Option σ) (zero : σ)

def Piece.fill : Piece → List (Option σ)
  | .zero count => List.replicate count.toNat (some zero)
  | .copy ptr count => (List.range count.toNat).map fun (i : ℕ) => mem ((i : ℤ) +ᵥ ptr)
  | .fetch obj block inBlock count =>
      (List.range count.toNat).map fun (i : ℕ) => get obj (block + inBlock + i)

/-- The sector that two maps designate. -/
def designated (buf : Option SectorPtr) (obj : Option ObjOffset) : Option σ :=
  match buf, obj with
  | some ptr, _ => mem ptr
  | none, some p => get p.obj p.offset
  | none, none => some zero

end Fill

namespace Tx

/-- A fetch of an object: what the read cache and the backend are trusted with. -/
def fetch (s : Tx σ) (obj offset : ℤ) : Option σ :=
  (s.store[obj.toNat]?).bind fun o => dataSector o offset

def read (env : Env) (zero : σ) (s : Tx σ) (start count : ℕ) : Option (List (Option σ)) :=
  (handleReads s.bufmap s.maps.objmap start count).map fun pieces =>
    (pieces.flatMap (Piece.fill (s.peek env) s.fetch zero)).take count

end Tx

/-! ## The loop computes the overlay -/

/-- What an iterator has ahead at `start`: extents in order that reach beyond. -/
structure Ahead {P : Type*} [AddAction ℤ P] [Stored P] (start : ℤ) (runs : List (Extent P)) :
    Prop where
  ordered : Ordered runs
  fits : ∀ e ∈ runs, (Stored.layout : Layout P).Fits e
  reach : ∀ e ∈ runs, start < e.limit

section Ahead

variable {P : Type*} [AddAction ℤ P] [Stored P] {start stop : ℤ} {runs : List (Extent P)}

theorem Ahead.later {next : ℤ} (ahead : Ahead start runs) (reach : ∀ e ∈ runs, next < e.limit) :
    Ahead next runs :=
  ⟨ahead.ordered, ahead.fits, reach⟩

theorem Ahead.part (ahead : Ahead start runs) {part : List (Extent P)}
    (sublist : part.Sublist runs) : Ahead start part :=
  ⟨ahead.ordered.sublist sublist, fun e member => ahead.fits e (sublist.mem member),
    fun e member => ahead.reach e (sublist.mem member)⟩

variable {rest : List (Extent P)}

theorem Ahead.vals {e : Extent P} (ahead : Ahead start (e :: rest)) (null : P) (stop : ℤ) :
    nextVals null start stop (e :: rest) =
      (max e.base start, min e.limit stop, (max e.base start - e.base) +ᵥ e.ptr) :=
  Extmap.vals_eq (ahead.fits e (by simp)) (ahead.ordered.positive e (by simp)) start stop
    (ahead.reach e (by simp))

theorem Ahead.get_none (ahead : Ahead start runs) (null : P) (stop : ℤ) {x : ℤ} (low : start ≤ x)
    (below : x < (nextVals null start stop runs).1) : get runs x = none := by
  cases runs with
  | nil => rfl
  | cons e rest =>
      rw [ahead.vals] at below
      simp only at below
      obtain ⟨-, -, before⟩ := (ordered_cons _ _).mp ahead.ordered
      have := ahead.ordered.nonempty e (by simp)
      apply get_none_of_lt_base
      intro other member
      rcases List.mem_cons.mp member with rfl | inRest
      · omega
      · have := before other inRest
        omega

theorem Ahead.reach_next (ahead : Ahead start runs) (null : P) (stop : ℤ) {next : ℤ}
    (progress : start < next) (bound : next ≤ (nextVals null start stop runs).1) :
    Ahead next runs := by
  apply ahead.later
  intro e member
  cases runs with
  | nil => cases member
  | cons head rest =>
      rw [ahead.vals] at bound
      simp only at bound
      obtain ⟨positive, -, before⟩ := (ordered_cons _ _).mp ahead.ordered
      have headLimit : head.limit = head.base + head.len := rfl
      have limit : e.limit = e.base + e.len := rfl
      have := ahead.ordered.positive e member
      rcases List.mem_cons.mp member with rfl | inRest
      · omega
      · have := before e inRest
        omega

theorem Ahead.get_head {e : Extent P} (ahead : Ahead start (e :: rest)) (covers : e.base ≤ start)
    {x : ℤ} (low : start ≤ x) (high : x < e.limit) :
    get (e :: rest) x = some ((x - start) +ᵥ ((start - e.base) +ᵥ e.ptr)) := by
  rw [get_eq_some_iff ahead.ordered]
  refine ⟨e, by simp, ⟨by omega, high⟩, ?_⟩
  rw [vadd_vadd]
  congr 1
  ring

theorem Ahead.tail {e : Extent P} (ahead : Ahead start (e :: rest)) :
    Ahead e.limit rest := by
  obtain ⟨-, restOrdered, before⟩ := (ordered_cons _ _).mp ahead.ordered
  refine ⟨restOrdered, fun other member => ahead.fits other (by simp [member]), ?_⟩
  intro other member
  have := before other member
  have := restOrdered.nonempty other member
  omega

theorem Ahead.skip {next : ℤ} (ahead : Ahead start runs) :
    Ahead next (runs.dropWhile fun e => decide (e.limit ≤ next)) ∧
      ∀ x, next ≤ x → get (runs.dropWhile fun e => decide (e.limit ≤ next)) x = get runs x := by
  induction runs with
  | nil => exact ⟨⟨Ordered.nil, by simp, by simp⟩, fun _ _ => rfl⟩
  | cons e rest ih =>
      by_cases past : e.limit ≤ next
      · rw [List.dropWhile_cons_of_pos (by simpa using past)]
        obtain ⟨restAhead, same⟩ := ih (ahead.part (List.sublist_cons_self _ _))
        refine ⟨restAhead, ?_⟩
        intro x beyond
        rw [same x beyond, get_cons_of_limit_le _ (by omega)]
      · rw [List.dropWhile_cons_of_neg (by simpa using past)]
        refine ⟨ahead.later ?_, fun _ _ => rfl⟩
        intro other member
        obtain ⟨-, restOrdered, before⟩ := (ordered_cons _ _).mp ahead.ordered
        rcases List.mem_cons.mp member with rfl | inRest
        · omega
        · have := before other inRest
          have := restOrdered.nonempty other inRest
          omega

end Ahead

def Piece.count : Piece → ℤ
  | .zero count => count
  | .copy _ count => count
  | .fetch _ _ _ count => count

/-- The parts fit into `n` sectors; the zeros behind the last extent may go further. A
part that is fetched lies inside one aligned block of an object. -/
def Fitting : ℤ → List Piece → Prop
  | n, [] => n ≤ 0
  | n, .zero count :: rest => 0 < count ∧ Fitting (n - count) rest
  | n, .copy _ count :: rest => 0 < count ∧ count ≤ n ∧ Fitting (n - count) rest
  | n, .fetch _ block inBlock count :: rest => 0 < count ∧ count ≤ n ∧
      (0 ≤ block ∧ block % blockSectors = 0 ∧ 0 ≤ inBlock ∧ inBlock + count ≤ blockSectors) ∧
      Fitting (n - count) rest

section Loop

variable {mem : SectorPtr → Option σ} {fetch : ℤ → ℤ → Option σ} {zero : σ}

theorem fill_cons (content : ℤ → Option σ) {start next stop : ℤ} {piece : Piece}
    {pieces : List Piece} (progress : start ≤ next)
    (length : (piece.fill mem fetch zero).length = (next - start).toNat)
    (here : ∀ k : ℕ, start + k < next →
      (piece.fill mem fetch zero)[k]? = some (content (start + k)))
    (later : ∀ k : ℕ, next + k < stop →
      (pieces.flatMap (Piece.fill mem fetch zero))[k]? = some (content (next + k))) :
    ∀ k : ℕ, start + k < stop →
      ((piece :: pieces).flatMap (Piece.fill mem fetch zero))[k]? = some (content (start + k)) := by
  intro k inside
  rw [List.flatMap_cons, List.getElem?_append, length]
  split
  · rename_i first
    exact here k (by omega)
  · rename_i beyond
    rw [later (k - (next - start).toNat) (by omega)]
    congr 2
    omega

/-- The loop ends, and what it fills in is what the maps designate. -/
theorem plan_reads_spec (stop : ℤ) {fuel : ℕ} {start : ℤ} {bufs : List (Extent SectorPtr)}
    {objs : List (Extent ObjOffset)} (enough : (stop - start).toNat < fuel)
    (bufsAhead : Ahead start bufs) (objsAhead : Ahead start objs)
    (offsets : ∀ e ∈ objs, 0 ≤ e.ptr.offset) :
    ∃ pieces, planReads stop fuel start bufs objs = some pieces ∧ Fitting (stop - start) pieces ∧
      ∀ k : ℕ, start + k < stop → (pieces.flatMap (Piece.fill mem fetch zero))[k]? =
        some (designated mem fetch zero (get bufs (start + k)) (get objs (start + k))) := by
  induction fuel generalizing start bufs objs with
  | zero => omega
  | succ fuel ih =>
      unfold planReads
      by_cases finished : stop ≤ start
      · rw [if_pos finished]
        exact ⟨[], rfl, by rw [Fitting]; omega, fun k inside => by omega⟩
      rw [if_neg finished]
      set buf := nextVals ⟨0⟩ start stop bufs with bufDef
      set obj := nextVals ⟨0, 0⟩ start stop objs with objDef
      simp only
      by_cases hole : start < min buf.1 obj.1
      · -- up to the next extent of either map nothing is mapped
        rw [if_pos hole]
        obtain ⟨pieces, plan, fitting, rest⟩ := ih (by omega : (stop - min buf.1 obj.1).toNat < fuel)
          (bufsAhead.reach_next ⟨0⟩ stop hole (min_le_left _ _))
          (objsAhead.reach_next ⟨0, 0⟩ stop hole (min_le_right _ _)) offsets
        refine ⟨.zero (min buf.1 obj.1 - start) :: pieces, by rw [plan]; rfl, ⟨by omega, ?_⟩, ?_⟩
        · rwa [sub_sub_sub_cancel_right]
        refine fill_cons (fun x => designated mem fetch zero (get bufs x) (get objs x)) hole.le
          (by simp [Piece.fill]) ?_ rest
        intro k inside
        have noBuf := bufsAhead.get_none ⟨0⟩ stop (by omega : start ≤ start + k)
          (lt_of_lt_of_le inside (min_le_left _ _))
        have noObj := objsAhead.get_none ⟨0, 0⟩ stop (by omega : start ≤ start + k)
          (lt_of_lt_of_le inside (min_le_right _ _))
        simp only [Piece.fill, noBuf, noObj, designated]
        rw [List.getElem?_replicate_of_lt (by omega)]
      rw [if_neg hole]
      by_cases buffered : buf.1 = start
      · -- the next extent of the buffer map begins here
        rw [if_pos buffered]
        cases bufs with
        | nil =>
            simp only [bufDef, nextVals] at buffered
            omega
        | cons e restBufs =>
            rw [bufsAhead.vals] at bufDef
            have reach := bufsAhead.reach e (by simp)
            simp only [bufDef] at buffered
            have covers : e.base ≤ start := by omega
            have atStart : max e.base start = start := by omega
            obtain ⟨skipAhead, skipped⟩ :=
              @Ahead.skip ObjOffset _ _ start objs (min e.limit stop) objsAhead
            obtain ⟨pieces, plan, fitting, rest⟩ :=
              ih (by omega : (stop - min e.limit stop).toNat < fuel)
              (bufsAhead.tail.later fun other member => by
                have := bufsAhead.tail.reach other member
                omega) skipAhead
              (fun other member => offsets other ((List.dropWhile_sublist _).mem member))
            refine ⟨.copy ((start - e.base) +ᵥ e.ptr) (min e.limit stop - start) :: pieces, ?_,
              ⟨by omega, by omega, ?_⟩, ?_⟩
            · simp only [bufDef, atStart, List.tail_cons, plan, Option.map_some]
            · rwa [sub_sub_sub_cancel_right]
            refine fill_cons
              (fun x => designated mem fetch zero (get (e :: restBufs) x) (get objs x))
              (by omega : start ≤ min e.limit stop) (by simp [Piece.fill]) ?_ ?_
            · intro k inside
              rw [bufsAhead.get_head covers (by omega : start ≤ start + k) (by omega)]
              simp only [Piece.fill, designated]
              rw [List.getElem?_map, List.getElem?_range (by omega), Option.map_some]
              congr 3
              omega
            · intro k inside
              have beyond : e.limit ≤ min e.limit stop + k := by omega
              rw [rest k inside, skipped _ (by omega), get_cons_of_limit_le _ beyond]
      rw [if_neg buffered]
      -- then the next extent of the object map does
      have bufLower : start ≤ buf.1 := by
        cases bufs with
        | nil =>
            simp only [bufDef, nextVals]
            omega
        | cons e restBufs =>
            rw [bufDef, bufsAhead.vals]
            exact le_max_right _ _
      cases objs with
      | nil =>
          simp only [objDef, nextVals] at hole
          omega
      | cons e restObjs =>
          rw [objsAhead.vals] at objDef
          have reach := objsAhead.reach e (by simp)
          have objStart : obj.1 = max e.base start := by rw [objDef]
          have covers : e.base ≤ start := by omega
          have atStart : max e.base start = start := by omega
          simp only [objDef, atStart, if_true]
          set offset := ((start - e.base) +ᵥ e.ptr).offset with offsetDef
          have small : 0 ≤ offset % blockSectors ∧ offset % blockSectors < blockSectors :=
            ⟨Int.emod_nonneg _ (by decide), Int.emod_lt_of_pos _ (by decide)⟩
          set sectors := min (min e.limit stop) buf.1 - start with sectorsDef
          set count := min (offset - offset % blockSectors + blockSectors) (offset + sectors) - offset
            with countDef
          have counts : 0 < count ∧ start + count ≤ e.limit ∧ start + count ≤ stop ∧
              start + count ≤ buf.1 := by omega
          -- the iterator moves on when the extent is used up
          have nextAhead : Ahead (start + count)
              (if start + count = e.limit then restObjs else e :: restObjs) := by
            split
            · rename_i used
              rw [used]
              exact objsAhead.tail
            · refine objsAhead.later ?_
              intro other member
              rcases List.mem_cons.mp member with rfl | inRest
              · omega
              · have := objsAhead.tail.reach other inRest
                omega
          have bufsNext : Ahead (start + count) bufs :=
            bufsAhead.reach_next ⟨0⟩ stop (by omega) (by rw [← bufDef]; omega)
          have nextOffsets : ∀ other ∈ (if start + count = e.limit then restObjs else e :: restObjs),
              0 ≤ other.ptr.offset := by
            intro other member
            split at member
            · exact offsets other (by simp [member])
            · exact offsets other member
          obtain ⟨pieces, plan, fitting, rest⟩ :=
            ih (by omega : (stop - (start + count)).toNat < fuel) bufsNext nextAhead nextOffsets
          have nonneg : 0 ≤ offset := by
            have := offsets e (by simp)
            rw [offsetDef, vadd_offset]
            omega
          have aligned : (offset - offset % blockSectors) % blockSectors = 0 := by
            simp only [blockSectors]
            omega
          have low : 0 ≤ offset - offset % blockSectors := by
            simp only [blockSectors]
            omega
          refine ⟨.fetch ((start - e.base) +ᵥ e.ptr).obj (offset - offset % blockSectors)
            (offset % blockSectors) count :: pieces, by rw [plan]; rfl,
            ⟨by omega, by omega, ⟨low, aligned, by omega, by omega⟩, ?_⟩, ?_⟩
          · rwa [sub_sub]
          refine fill_cons
            (fun x => designated mem fetch zero (get bufs x) (get (e :: restObjs) x))
            (by omega : start ≤ start + count) (by simp [Piece.fill]) ?_ ?_
          · intro k inside
            have noBuf := bufsAhead.get_none ⟨0⟩ stop (by omega : start ≤ start + k)
              (by rw [← bufDef]; omega)
            rw [noBuf, objsAhead.get_head covers (by omega : start ≤ start + k) (by omega)]
            simp only [Piece.fill, designated]
            rw [List.getElem?_map, List.getElem?_range (by omega), Option.map_some]
            congr 2
            rw [vadd_offset, ← offsetDef]
            omega
          · intro k inside
            rw [rest k inside]
            congr 2
            split
            · rename_i used
              rw [get_cons_of_limit_le _ (by omega)]
            · rfl

/-- A lookup at `start` is exact: the key fits its bit-field, or no extent reaches it. -/
def Searchable {P : Type*} [AddAction ℤ P] [Stored P] (m : Extmap P) (start : ℤ) : Prop :=
  KeyOf P start ∨ ∀ e ∈ m.extents, e.limit ≤ start

theorem bufmap_searchable {m : Bufmap} (ends : ∀ e ∈ m.extents, e.limit ≤ 2 ^ 35) (start : ℕ) :
    Searchable m start := by
  by_cases bound : start < 2 ^ 35
  · exact .inl (bufmap_key (by omega) (by omega))
  · exact .inr fun e member => (ends e member).trans (by omega)

theorem objmap_searchable {m : Objmap} (sound : Sound m) (start : ℕ) : Searchable m start := by
  by_cases bound : start < 2 ^ 35
  · exact .inl (objmap_key (by omega) (by omega))
  · exact .inr fun e member => (sound.within e member).limit.trans (by omega)

theorem scan_ahead {P : Type*} [AddAction ℤ P] [Stored P] {m : Extmap P} (shape : m.Shape 256)
    (ordered : Ordered m.extents) (fits : ∀ e ∈ m.extents, (Stored.layout : Layout P).Fits e)
    {start : ℤ} (searchable : Searchable m start) :
    Ahead start (m.scan Stored.layout start) ∧ (m.scan Stored.layout start).Sublist m.extents ∧
      ∀ x, start ≤ x → get (m.scan Stored.layout start) x = locate m x := by
  have splits : ∃ before, m.extents = before ++ m.scan Stored.layout start ∧
      (∀ e ∈ before, e.limit ≤ start) ∧ ∀ e ∈ m.scan Stored.layout start, start < e.limit := by
    rcases searchable with key | below
    · exact Extmap.scan_splits shape ordered start key
    · rw [Extmap.scan_beyond shape ordered below]
      exact ⟨m.extents, (List.append_nil _).symm, below, by simp⟩
  obtain ⟨before, whole, ended, reach⟩ := splits
  have sublist : (m.scan Stored.layout start).Sublist m.extents := by
    rw [whole]
    exact List.sublist_append_right _ _
  refine ⟨⟨ordered.sublist sublist, fun e member => fits e (sublist.mem member), reach⟩, sublist,
    ?_⟩
  intro x beyond
  rw [locate]
  conv_rhs => rw [whole]
  rw [get_append, get_none_of_limit_le (fun e member => le_trans (ended e member) beyond)]
  rfl

theorem handle_reads_plan {bufmap : Bufmap} {objmap : Objmap} (bufShape : bufmap.Shape 256)
    (bufOrdered : Ordered bufmap.extents)
    (bufFits : ∀ e ∈ bufmap.extents, (Stored.layout : Layout SectorPtr).Fits e)
    (objShape : objmap.Shape 256) (objOrdered : Ordered objmap.extents)
    (objFits : ∀ e ∈ objmap.extents, (Stored.layout : Layout ObjOffset).Fits e)
    (offsets : ∀ e ∈ objmap.extents, 0 ≤ e.ptr.offset) {start : ℕ} (count : ℕ)
    (inBufs : Searchable bufmap start) (inObjs : Searchable objmap start) :
    ∃ pieces, handleReads bufmap objmap start count = some pieces ∧ Fitting count pieces ∧
      ∀ k < count, (pieces.flatMap (Piece.fill mem fetch zero))[k]? = some (designated mem fetch zero
        (locate bufmap ((start : ℤ) + k)) (locate objmap ((start : ℤ) + k))) := by
  obtain ⟨bufsAhead, -, bufs⟩ := scan_ahead bufShape bufOrdered bufFits inBufs
  obtain ⟨objsAhead, sublist, objs⟩ := scan_ahead objShape objOrdered objFits inObjs
  obtain ⟨pieces, plan, fitting, filled⟩ := plan_reads_spec (start + count)
    (by omega : ((start : ℤ) + count - start).toNat < count + 1) bufsAhead objsAhead
    (fun e member => offsets e (sublist.mem member))
  refine ⟨pieces, plan, by rwa [add_sub_cancel_left] at fitting, ?_⟩
  intro k inside
  rw [filled k (by omega), bufs _ (by omega), objs _ (by omega)]

/-- A read is carried out, and returns what the maps designate. -/
theorem handle_reads_spec {B : Bounds SectorPtr} {bufmap : Bufmap} {objmap : Objmap}
    (bounded : Bounded B bufmap) (ends : ∀ e ∈ bufmap.extents, e.limit ≤ 2 ^ 35)
    (sound : Sound objmap) (start count : ℕ) :
    ∃ pieces, handleReads bufmap objmap start count = some pieces ∧
      (pieces.flatMap (Piece.fill mem fetch zero)).take count =
        (List.range count).map fun (i : ℕ) => designated mem fetch zero
          (locate bufmap ((start : ℤ) + i)) (locate objmap ((start : ℤ) + i)) := by
  obtain ⟨pieces, plan, -, filled⟩ := handle_reads_plan bounded.shape bounded.ordered
    (fun e member => B.fits (bounded.within e member)) sound.shape sound.ordered
    (fun e member => (sound.within e member).fits) (fun e member => (sound.within e member).offset)
    count (bufmap_searchable ends start) (objmap_searchable sound start)
  refine ⟨pieces, plan, ?_⟩
  apply List.ext_getElem?
  intro k
  rw [List.getElem?_take, List.getElem?_map]
  by_cases inside : k < count
  · rw [if_pos inside, filled k inside, List.getElem?_range inside, Option.map_some]
  · rw [if_neg inside, List.getElem?_eq_none (by simpa using inside)]
    rfl

end Loop

theorem next_vals_obj (start stop : ℤ) (e : Extent ObjOffset) (rest : List (Extent ObjOffset)) :
    (nextVals ⟨0, 0⟩ start stop (e :: rest)).2.2.obj = e.ptr.obj := by
  simp only [nextVals, Layout.vals]
  split <;> rfl

/-- A part that is fetched is of an object ahead in the map, and within one cache block. -/
theorem plan_reads_fetch (stop : ℤ) {fuel : ℕ} {start : ℤ} {bufs : List (Extent SectorPtr)}
    {objs : List (Extent ObjOffset)} {pieces : List Piece}
    (plan : planReads stop fuel start bufs objs = some pieces) {obj block inBlock count : ℤ}
    (member : .fetch obj block inBlock count ∈ pieces) :
    (∃ e ∈ objs, e.ptr.obj = obj) ∧ block % blockSectors = 0 ∧ 0 ≤ inBlock ∧
      inBlock < blockSectors ∧ inBlock + count ≤ blockSectors := by
  induction fuel generalizing start bufs objs pieces with
  | zero => cases plan
  | succ fuel ih =>
      unfold planReads at plan
      simp only at plan
      split at plan
      · cases plan
        cases member
      split at plan
      · obtain ⟨rest, later, rfl⟩ := Option.map_eq_some_iff.mp plan
        exact ih later ((List.mem_cons.mp member).resolve_left (by simp))
      split at plan
      · obtain ⟨rest, later, rfl⟩ := Option.map_eq_some_iff.mp plan
        obtain ⟨⟨e, inRest, same⟩, within⟩ :=
          ih later ((List.mem_cons.mp member).resolve_left (by simp))
        exact ⟨⟨e, (List.dropWhile_sublist _).mem inRest, same⟩, within⟩
      split at plan
      · cases plan
      rename_i first others notEmpty
      split at plan
      · obtain ⟨rest, later, rfl⟩ := Option.map_eq_some_iff.mp plan
        rcases List.mem_cons.mp member with isHead | inRest
        · obtain ⟨named, rfl, rfl, rfl⟩ := Piece.fetch.injEq .. ▸ isHead
          rw [next_vals_obj] at named
          refine ⟨⟨first, by simp, named.symm⟩, ?_⟩
          simp only [blockSectors]
          omega
        · obtain ⟨⟨e, ahead, same⟩, within⟩ := ih later inRest
          refine ⟨⟨e, ?_, same⟩, within⟩
          split at ahead
          · exact List.mem_cons_of_mem _ ahead
          · exact ahead
      · cases plan

end LsvdRbd.Session
