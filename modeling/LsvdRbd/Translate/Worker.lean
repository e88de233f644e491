import LsvdRbd.Translate.Mapping

/-!
# The worker's three kinds of object

The single worker thread of `translate_impl` gives every batch, garbage
collection request and checkpoint the next sequence number, updates the object
map and the object table, and emits one object. Byte counts that the code keeps
in an `int` are guarded: a run that overflows one has no defined continuation,
and neither has one that fails an assertion.
-/

namespace LsvdRbd.Translate

open Records RunList ExtentMap Format

set_option autoImplicit false

variable {σ : Type*}

structure Maps where
  objmap : Objmap
  info : ObjTable
  totalSectors : ℤ
  totalLive : ℤ

def Maps.empty : Maps := ⟨Extmap.empty, ∅, 0, 0⟩

def entryRanges (entries : List MapEntry) : Ranges := entries.map fun e => (e.lba, e.len)

def dataRanges (extents : List DataMap) : Ranges := extents.map fun d => (d.lba, d.len)

/-- `trim`: unmap a range and charge what it held. -/
def Maps.trim (s : Maps) (base limit : ℤ) : Option Maps :=
  let r := s.objmap.unset base limit
  (chargeAll (s.info, s.totalLive) r.2).map fun acc =>
    { s with objmap := r.1, info := acc.1, totalLive := acc.2 }

section Objects

-- zlib's checksum and the volume's uuid
variable (crc32 : Bytes → ℕ) (uuid : ℕ)

/-- `process_batch`: the entries are mapped in order to the new object, whose
table entry exists while the displaced extents are charged. -/
def processBatch (seq : ℕ) (entries : List MapEntry) (data : List σ) (s : Maps) :
    Option (Maps × Obj σ) :=
  let hdrSectors := hdrSectorsFor entries.length
  let dataSectors := data.length
  if (hdrSectors + dataSectors) * 512 < 2 ^ 31 then
    let r := mapExtents seq hdrSectors (entryRanges entries) s.objmap
    (chargeAll (s.info.insert seq ⟨hdrSectors, dataSectors, dataSectors⟩, s.totalLive) r.2).map
      fun acc =>
        ({ objmap := r.1
           info := acc.1
           totalSectors := s.totalSectors + dataSectors
           totalLive := acc.2 + (acc.1.getD seq default).live },
          ⟨makeObjHdr crc32 uuid seq hdrSectors dataSectors
            (entries.map fun e => .store e.lba e.len) false, data⟩)
  else none

/-- The parts of an entry that the map still gives to the object they were read
from, each with the sectors copied for it. -/
def revalidateEntry (m : Objmap) (e : MapEntry) (input : List σ) : List (ℤ × List σ) :=
  let kept := (m.pieces e.lba (e.lba + e.len)).filter fun piece =>
    decide (piece.2.2.obj = e.obj)
  kept.map fun piece =>
    (piece.1, (input.drop (piece.1 - e.lba).toNat).take (piece.2.1 - piece.1).toNat)

def revalidate (m : Objmap) : List MapEntry → List σ → List (ℤ × List σ)
  | [], _ => []
  | e :: rest, input => revalidateEntry m e input ++ revalidate m rest (input.drop e.len.toNat)

def gcExtents (pieces : List (ℤ × List σ)) : List DataMap :=
  pieces.map fun piece => .store piece.1 piece.2.length

/-- The second half of `write_gc`: the pieces are mapped to the new object, whose
table entry is made after the displaced extents are charged. -/
def updateGc (seq : ℕ) (pieces : List (ℤ × List σ)) (s : Maps) : Option (Maps × Obj σ) :=
  let extents := gcExtents pieces
  let data := pieces.flatMap Prod.snd
  let hdrSectors := hdrSectorsFor extents.length
  let dataSectors := data.length
  if (hdrSectors + dataSectors) * 512 < 2 ^ 31 then
    let r := mapExtents seq hdrSectors (dataRanges extents) s.objmap
    (chargeAll (s.info, s.totalLive) r.2).map fun acc =>
      ({ s with
          objmap := r.1
          info := acc.1.insert seq ⟨hdrSectors, dataSectors, dataSectors⟩
          totalLive := acc.2 },
        ⟨makeObjHdr crc32 uuid seq hdrSectors dataSectors extents true, data⟩)
  else none

/-- `write_gc`: what is left of the request after revalidation is mapped. -/
def writeGc (seq : ℕ) (entries : List MapEntry) (input : List σ) (s : Maps) :
    Option (Maps × Obj σ) :=
  updateGc crc32 uuid seq (revalidate s.objmap entries input) s

def checkpointObject (seq : ℕ) (s : Maps) : Option (Obj σ) :=
  if ckptBytes (ckptObjects s.info) (ckptEntries s.objmap) + 511 < 2 ^ 31 then
    some ⟨serialiseCheckpoint uuid seq (ckptObjects s.info) (ckptEntries s.objmap), []⟩
  else none

end Objects

/-! ## What the maps satisfy -/

/-- Every table key is a `seqnum_t`, and every live count is the number of
sectors that the map gives to the object. -/
structure Maps.Consistent (s : Maps) : Prop where
  sound : Sound s.objmap
  keys : ∀ (o : ℕ) (oi : ObjInfo), s.info[o]? = some oi → o < 2 ^ 31
  exact : ∀ (o : ℕ) (oi : ObjInfo), s.info[o]? = some oi → oi.live = owned o s.objmap.extents

theorem Maps.empty_consistent : Maps.empty.Consistent :=
  ⟨sound_empty, by simp [Maps.empty], by simp [Maps.empty]⟩

structure ProperRequest (entries : List MapEntry) (data : List σ) : Prop where
  ranges : Proper (entryRanges entries)
  length : sectors (entryRanges entries) = data.length

structure Maps.Below (seq : ℕ) (s : Maps) : Prop where
  mapped : ∀ x p, locate s.objmap x = some p → p.obj < seq
  listed : ∀ (o : ℕ) (oi : ObjInfo), s.info[o]? = some oi → o < seq

variable {s : Maps} {seq : ℕ}

theorem Maps.Below.owned (below : s.Below seq) (sound : Sound s.objmap) :
    owned seq s.objmap.extents = 0 := by
  rw [owned_eq_zero_iff sound]
  intro x p found
  have := below.mapped x p found
  omega

theorem Maps.Below.mono {n m : ℕ} (below : s.Below n) (le : n ≤ m) : s.Below m := by
  constructor
  · intro x p found
    have := below.mapped x p found
    omega
  · intro o oi present
    exact lt_of_lt_of_le (below.listed o oi present) le

/-! ## Emitted data objects -/

/-- The object reads back as a data object of the volume whose header takes
`hdrSectors` and whose data is laid out as `ranges` says. -/
def IsDataObject (uuid : ℕ) (obj : Obj σ) (seq hdrSectors : ℕ) (ranges : Ranges) : Prop :=
  ∃ parsed, readDataHdr (some obj) = .ok (some parsed) ∧
    parsed.hdr.type = ObjType.logData.code ∧ parsed.hdr.uuid = uuid ∧ parsed.hdr.seq = seq ∧
    parsed.hdr.hdrSectors = hdrSectors ∧ parsed.hdr.dataSectors = obj.data.length ∧
    dataRanges parsed.dataMap = ranges

theorem hdr_sectors_room (n : ℕ) : 72 + n * 8 ≤ 512 * hdrSectorsFor n := by
  have sizes : CommonHdr.packed.size = 44 ∧ DataHdr.packed.size = 28 := ⟨rfl, rfl⟩
  rw [hdrSectorsFor, sizes.1, sizes.2, divRoundUp]
  omega

theorem store_data_map {lba len : ℤ} (lower : 0 ≤ lba) (upper : lba < 2 ^ 36) (lenLower : 0 ≤ len)
    (lenUpper : len < 2 ^ 28) : DataMap.store lba len = ⟨lba, len⟩ := by
  rw [DataMap.store, unsigned_field_of_range 36 lba lower upper,
    unsigned_field_of_range 28 len lenLower lenUpper]

variable {ranges : Ranges}

theorem stored_ranges (proper : Proper ranges) (small : sectors ranges < 2 ^ 22) :
    dataRanges (ranges.map fun range => .store range.1 range.2) = ranges ∧
      ∀ d ∈ ranges.map fun range => DataMap.store range.1 range.2, d.Fits := by
  induction ranges with
  | nil => exact ⟨rfl, by simp⟩
  | cons range rest ih =>
      obtain ⟨lba, len⟩ := range
      obtain ⟨lbaLower, lenPositive, limit⟩ := proper (lba, len) (by simp)
      have total := proper.tail.sectors_nonneg
      rw [sectors_cons] at small
      simp only at lbaLower lenPositive limit small
      obtain ⟨restSame, restFits⟩ := ih proper.tail (by omega)
      have exact : DataMap.store lba len = ⟨lba, len⟩ :=
        store_data_map lbaLower (by omega) (by omega) (by omega)
      constructor
      · rw [List.map_cons, exact]
        simp only [dataRanges, List.map_cons] at restSame ⊢
        rw [restSame]
      · intro d member
        rcases List.mem_cons.mp member with rfl | inRest
        · change (DataMap.store lba len).Fits
          rw [exact]
          exact ⟨lbaLower, by simp only; omega, by simp only; omega, by simp only; omega⟩
        · exact restFits d inRest

variable {uuid seq : ℕ}

theorem made_object_is_data (crc32 : Bytes → ℕ) (data : List σ) (isGc : Bool)
    (uuidBound : uuid < 2 ^ 128) (seqBound : seq < 2 ^ 32) (proper : Proper ranges)
    (size : (hdrSectorsFor ranges.length + data.length) * 512 < 2 ^ 31)
    (length : sectors ranges = data.length) :
    IsDataObject uuid ⟨makeObjHdr crc32 uuid seq (hdrSectorsFor ranges.length) data.length
      (ranges.map fun range => .store range.1 range.2) isGc, data⟩ seq
      (hdrSectorsFor ranges.length) ranges := by
  obtain ⟨same, fits⟩ := stored_ranges proper (by omega)
  obtain ⟨parsed, read, type, uuidEq, seqEq, hdrEq, dataEq, map⟩ :=
    @read_data_hdr_round_trip σ crc32 uuid seq (hdrSectorsFor ranges.length) data.length
      (ranges.map fun range => .store range.1 range.2) isGc data uuidBound seqBound (by omega)
      (by omega) (by rw [List.length_map]; exact hdr_sectors_room _) fits
  exact ⟨parsed, read, type, uuidEq, seqEq, hdrEq, dataEq, by rw [map, same]⟩

/-- What a step that emits a data object does to the maps: the object is laid
over the map, and reads back with the ranges it was laid over with. -/
structure Emits (uuid seq : ℕ) (s s' : Maps) (obj : Obj σ) (hdrSectors : ℕ) (ranges : Ranges) :
    Prop where
  proper : Proper ranges
  length : sectors ranges = obj.data.length
  header : obj.hdr.length = 512 * hdrSectors
  reach : hdrSectors + sectors ranges ≤ 2 ^ 22
  sound : Sound s'.objmap
  locate_eq : ∀ x, locate s'.objmap x = overlay seq hdrSectors ranges (locate s.objmap) x
  counts : ∀ o : ℤ, owned o s'.objmap.extents ≤
    owned o s.objmap.extents + if (seq : ℤ) = o then sectors ranges else 0
  object : IsDataObject uuid obj seq hdrSectors ranges

variable {entries : List MapEntry} {crc32 : Bytes → ℕ} {s s' : Maps} {obj : Obj σ} {data : List σ}

theorem emits_made (crc32 : Bytes → ℕ) (isGc : Bool) (sound : Sound s.objmap) (proper : Proper ranges)
    (length : sectors ranges = data.length) (uuidBound : uuid < 2 ^ 128) (seqBound : seq < 2 ^ 31)
    (size : (hdrSectorsFor ranges.length + data.length) * 512 < 2 ^ 31)
    (objmap : s'.objmap = (mapExtents seq (hdrSectorsFor ranges.length) ranges s.objmap).1) :
    Emits uuid seq s s' ⟨makeObjHdr crc32 uuid seq (hdrSectorsFor ranges.length) data.length
      (ranges.map fun range => .store range.1 range.2) isGc, data⟩ (hdrSectorsFor ranges.length)
      ranges := by
  obtain ⟨mapSound, mapLocate, lost, mass⟩ := map_extents_spec seq (hdrSectorsFor ranges.length)
    sound proper (by omega) (by omega) (by omega) (by omega)
  rw [← objmap] at mapSound mapLocate mass
  refine ⟨proper, length, ?_, by omega, mapSound, mapLocate, ?_,
    made_object_is_data crc32 data isGc uuidBound (by omega) proper size length⟩
  · exact make_obj_hdr_length _ _ _ _ _ _ _ (by rw [List.length_map]; exact hdr_sectors_room _)
  · intro o
    have := mass o
    have := owned_nonneg o fun d member => (lost d member).2.le
    omega

theorem process_batch_cases (run : processBatch crc32 uuid seq entries data s = some (s', obj)) :
    (hdrSectorsFor entries.length + data.length) * 512 < 2 ^ 31 ∧
      (∃ acc, chargeAll (s.info.insert seq ⟨hdrSectorsFor entries.length, data.length,
          data.length⟩, s.totalLive)
          (mapExtents seq (hdrSectorsFor entries.length) (entryRanges entries) s.objmap).2 =
            some acc ∧ s'.info = acc.1) ∧
      s'.objmap =
        (mapExtents seq (hdrSectorsFor entries.length) (entryRanges entries) s.objmap).1 ∧
      obj = ⟨makeObjHdr crc32 uuid seq (hdrSectorsFor entries.length) data.length
        (entries.map fun e => .store e.lba e.len) false, data⟩ := by
  unfold processBatch at run
  simp only at run
  split at run
  case isFalse => cases run
  case isTrue size =>
      obtain ⟨acc, charged, result⟩ := Option.map_eq_some_iff.mp run
      cases result
      exact ⟨size, ⟨acc, charged, rfl⟩, rfl, rfl⟩

theorem process_batch_emits (sound : Sound s.objmap) (request : ProperRequest entries data)
    (uuidBound : uuid < 2 ^ 128) (seqBound : seq < 2 ^ 31)
    (run : processBatch crc32 uuid seq entries data s = some (s', obj)) :
    Emits uuid seq s s' obj (hdrSectorsFor entries.length) (entryRanges entries) ∧
      obj.data = data := by
  obtain ⟨size, -, objmap, rfl⟩ := process_batch_cases run
  have count : (entryRanges entries).length = entries.length := List.length_map _
  rw [← count] at size objmap ⊢
  have made := emits_made crc32 false sound request.ranges request.length uuidBound seqBound size
    objmap
  rw [entryRanges, List.map_map] at made
  exact ⟨made, rfl⟩

/-! ## Revalidated requests -/

def pieceRanges (pieces : List (ℤ × List σ)) : Ranges :=
  pieces.map fun piece => (piece.1, (piece.2.length : ℤ))

theorem sectors_piece_ranges (pieces : List (ℤ × List σ)) :
    sectors (pieceRanges pieces) = (pieces.flatMap Prod.snd).length := by
  induction pieces with
  | nil => rfl
  | cons piece rest ih =>
      change sectors ((piece.1, (piece.2.length : ℤ)) :: pieceRanges rest) = _
      rw [sectors_cons, ih, List.flatMap_cons, List.length_append]
      push_cast
      rfl

variable {pieces : List (ℤ × List σ)}

theorem last_index_piece {x i : ℤ} (found : lastIndex (pieceRanges pieces) x = some i) :
    ∃ piece ∈ pieces, piece.1 ≤ x ∧ x < piece.1 + piece.2.length ∧
      (pieces.flatMap Prod.snd)[i.toNat]? = piece.2[(x - piece.1).toNat]? := by
  induction pieces generalizing i with
  | nil => cases found
  | cons piece rest ih =>
      change lastIndex ((piece.1, (piece.2.length : ℤ)) :: pieceRanges rest) x = some i at found
      rw [lastIndex] at found
      cases later : lastIndex (pieceRanges rest) x with
      | some j =>
          rw [later] at found
          obtain rfl : (piece.2.length : ℤ) + j = i := Option.some.inj found
          obtain ⟨other, member, lower, upper, same⟩ := ih later
          have jLower : 0 ≤ j := last_index_nonneg (by grind [pieceRanges]) later
          refine ⟨other, by simp [member], lower, upper, ?_⟩
          rw [List.flatMap_cons, List.getElem?_append_right (by omega), ← same]
          congr 1
          omega
      | none =>
          rw [later] at found
          simp only at found
          split at found
          · rename_i inside
            cases found
            refine ⟨piece, by simp, inside.1, inside.2, ?_⟩
            rw [List.flatMap_cons, List.getElem?_append_left (by omega)]
          · cases found

variable {input : List σ} {m : Objmap} {e : MapEntry}

/-- The pieces of one entry lie inside it, are not empty and hold the sectors
that were read for their addresses; together they cover what the map still gives
to the object of the entry. -/
theorem revalidate_entry_spec (sound : Sound m) (lower : 0 ≤ e.lba) (positive : 0 < e.len)
    (upper : e.lba + e.len ≤ 2 ^ 35) (enough : e.len ≤ input.length) :
    (∀ piece ∈ revalidateEntry m e input, e.lba ≤ piece.1 ∧ 0 < piece.2.length ∧
      piece.1 + piece.2.length ≤ e.lba + e.len ∧
      ∀ x, piece.1 ≤ x → x < piece.1 + piece.2.length →
        piece.2[(x - piece.1).toNat]? = input[(x - e.lba).toNat]?) ∧
      ∀ x, (∃ piece ∈ revalidateEntry m e input, piece.1 ≤ x ∧ x < piece.1 + piece.2.length) ↔
        e.lba ≤ x ∧ x < e.lba + e.len ∧ ∃ p, locate m x = some p ∧ p.obj = e.obj := by
  have enumerates := sound.pieces_enumerates e.lba (e.lba + e.len) (objmap_key lower (by omega))
  have inside := enumerates.proper (by omega)
  -- the sectors taken for a piece are all there
  have taken : ∀ piece ∈ m.pieces e.lba (e.lba + e.len),
      (((input.drop (piece.1 - e.lba).toNat).take (piece.2.1 - piece.1).toNat).length : ℤ) =
        piece.2.1 - piece.1 := by
    intro piece member
    have := inside piece member
    rw [List.length_take, List.length_drop]
    omega
  constructor
  · intro piece member
    obtain ⟨source, kept, rfl⟩ := List.mem_map.mp member
    have inRanges := (List.mem_filter.mp kept).1
    have length := taken source inRanges
    have bounds := inside source inRanges
    refine ⟨bounds.1, by simp only; omega, by simp only; omega, ?_⟩
    intro x low high
    simp only at low high ⊢
    rw [List.getElem?_take_of_lt (by omega), List.getElem?_drop]
    congr 1
    omega
  · intro x
    constructor
    · rintro ⟨piece, member, low, high⟩
      obtain ⟨source, kept, rfl⟩ := List.mem_map.mp member
      obtain ⟨inRanges, sameObj⟩ := List.mem_filter.mp kept
      have length := taken source inRanges
      simp only at low high
      obtain ⟨xLower, xUpper, found⟩ := (enumerates.exact x _).mpr
        ⟨source, inRanges, low, by omega, rfl⟩
      exact ⟨xLower, xUpper, _, found, by simpa using sameObj⟩
    · rintro ⟨xLower, xUpper, p, found, sameObj⟩
      obtain ⟨source, inRanges, low, high, rfl⟩ :=
        (enumerates.exact x p).mp ⟨xLower, xUpper, found⟩
      have length := taken source inRanges
      refine ⟨_, List.mem_map.mpr ⟨source, List.mem_filter.mpr ⟨inRanges, by simpa using sameObj⟩,
        rfl⟩, low, by simp only; omega⟩

@[simp] theorem entry_ranges_cons (e : MapEntry) (rest : List MapEntry) :
    entryRanges (e :: rest) = (e.lba, e.len) :: entryRanges rest := rfl

@[simp] theorem entry_ranges_append (left right : List MapEntry) :
    entryRanges (left ++ right) = entryRanges left ++ entryRanges right := List.map_append

theorem Proper.append {left right : Ranges} (proper : Proper (left ++ right)) :
    Proper left ∧ Proper right :=
  ⟨fun range member => proper range (by simp [member]),
    fun range member => proper range (by simp [member])⟩

private theorem drop_entries {before : List MapEntry} (positive : 0 < e.len)
    (proper : Proper (entryRanges before)) (input : List σ) :
    (input.drop e.len.toNat).drop (sectors (entryRanges before)).toNat =
      input.drop (sectors (entryRanges (e :: before))).toNat := by
  have total := proper.sectors_nonneg
  rw [List.drop_drop, entry_ranges_cons, sectors_cons]
  congr 1
  simp only
  omega

theorem mem_revalidate_iff (proper : Proper (entryRanges entries)) (piece : ℤ × List σ) :
    piece ∈ revalidate m entries input ↔ ∃ before e after, entries = before ++ e :: after ∧
      piece ∈ revalidateEntry m e (input.drop (sectors (entryRanges before)).toNat) := by
  induction entries generalizing input with
  | nil => simp [revalidate]
  | cons e rest ih =>
      have positive : 0 < e.len := (proper (e.lba, e.len) (by simp)).2.1
      have tail : Proper (entryRanges rest) := proper.tail
      rw [revalidate, List.mem_append, ih tail]
      constructor
      · rintro (first | ⟨before, other, after, rfl, member⟩)
        · exact ⟨[], e, rest, rfl, by simpa [entryRanges] using first⟩
        · rw [entry_ranges_append] at tail
          exact ⟨e :: before, other, after, rfl,
            drop_entries positive tail.append.1 input ▸ member⟩
      · rintro ⟨before, other, after, split, member⟩
        cases before with
        | nil =>
            obtain ⟨rfl, rfl⟩ := List.cons.inj split
            exact .inl (by simpa [entryRanges] using member)
        | cons first before =>
            obtain ⟨rfl, rfl⟩ := List.cons.inj split
            change Proper (entryRanges (before ++ other :: after)) at tail
            rw [entry_ranges_append] at tail
            exact .inr ⟨before, other, after, rfl,
              (drop_entries positive tail.append.1 input).symm ▸ member⟩

theorem ProperRequest.entry {before after : List MapEntry}
    (request : ProperRequest (before ++ e :: after) input) :
    0 ≤ e.lba ∧ 0 < e.len ∧ e.lba + e.len ≤ 2 ^ 35 ∧ 0 ≤ sectors (entryRanges before) ∧
      e.len ≤ (input.drop (sectors (entryRanges before)).toNat).length := by
  obtain ⟨ranges, length⟩ := request
  rw [entry_ranges_append] at ranges length
  obtain ⟨beforeProper, rest⟩ := ranges.append
  have here := rest (e.lba, e.len) (by simp)
  have beforeTotal := beforeProper.sectors_nonneg
  have afterProper : Proper (entryRanges after) := rest.tail
  have afterTotal := afterProper.sectors_nonneg
  rw [sectors_append, entry_ranges_cons, sectors_cons] at length
  simp only at here length
  refine ⟨here.1, here.2.1, here.2.2, beforeTotal, ?_⟩
  rw [List.length_drop]
  omega

theorem ProperRequest.head {rest : List MapEntry} (request : ProperRequest (e :: rest) input) :
    0 ≤ e.lba ∧ 0 < e.len ∧ e.lba + e.len ≤ 2 ^ 35 ∧ e.len ≤ input.length := by
  have first : ProperRequest ([] ++ e :: rest) input := request
  obtain ⟨lower, positive, upper, -, enough⟩ := first.entry
  simp only [entryRanges, List.map_nil, sectors_nil, Int.toNat_zero, List.drop_zero] at enough
  exact ⟨lower, positive, upper, enough⟩

theorem ProperRequest.tail {rest : List MapEntry} (request : ProperRequest (e :: rest) input) :
    ProperRequest rest (input.drop e.len.toNat) := by
  obtain ⟨-, positive, -, enough⟩ := request.head
  refine ⟨request.ranges.tail, ?_⟩
  have length := request.length
  rw [entry_ranges_cons, sectors_cons] at length
  simp only at length
  rw [List.length_drop]
  omega

theorem piece_ranges_proper (sound : Sound m) (request : ProperRequest entries input) :
    Proper (pieceRanges (revalidate m entries input)) := by
  intro range member
  obtain ⟨piece, inPieces, rfl⟩ := List.mem_map.mp member
  obtain ⟨before, e, after, rfl, inEntry⟩ := (mem_revalidate_iff request.ranges piece).mp inPieces
  obtain ⟨lower, positive, upper, -, enough⟩ := request.entry
  obtain ⟨start, filled, stop, -⟩ :=
    (revalidate_entry_spec sound lower positive upper enough).1 piece inEntry
  simp only
  omega

theorem revalidate_entry_apart (sound : Sound m) (lower : 0 ≤ e.lba)
    (upper : e.lba + e.len ≤ 2 ^ 35) (positive : 0 < e.len) (input : List σ) :
    Apart (pieceRanges (revalidateEntry m e input)) := by
  have enumerates := sound.pieces_enumerates e.lba (e.lba + e.len) (objmap_key lower (by omega))
  have inside := enumerates.proper (by omega)
  rw [Apart, pieceRanges, revalidateEntry, List.map_map, List.pairwise_map]
  refine (List.Pairwise.filter _ enumerates.increasing).imp_of_mem ?_
  intro left right inLeft _ before
  have := inside left (List.mem_filter.mp inLeft).1
  left
  simp only [Function.comp_apply, List.length_take, List.length_drop]
  omega

theorem piece_ranges_apart (sound : Sound m) (request : ProperRequest entries input)
    (apart : Apart (entryRanges entries)) :
    Apart (pieceRanges (revalidate m entries input)) := by
  induction entries generalizing input with
  | nil => exact List.Pairwise.nil
  | cons e rest ih =>
      obtain ⟨lower, positive, upper, enough⟩ := request.head
      obtain ⟨away, restApart⟩ := List.pairwise_cons.mp apart
      have restRequest := request.tail
      have pieces := (revalidate_entry_spec sound lower positive upper enough).1
      rw [revalidate, pieceRanges, List.map_append]
      refine List.pairwise_append.mpr ⟨revalidate_entry_apart sound lower upper positive input,
        ih restRequest restApart, ?_⟩
      · intro left leftMember right rightMember
        obtain ⟨piece, inEntry, rfl⟩ := List.mem_map.mp leftMember
        obtain ⟨other, inRest, rfl⟩ := List.mem_map.mp rightMember
        obtain ⟨before, f, after, rfl, inOther⟩ :=
          (mem_revalidate_iff restRequest.ranges other).mp inRest
        obtain ⟨fLower, fPositive, fUpper, -, fEnough⟩ := restRequest.entry
        obtain ⟨start, -, stop, -⟩ := pieces piece inEntry
        obtain ⟨otherStart, -, otherStop, -⟩ :=
          (revalidate_entry_spec sound fLower fPositive fUpper fEnough).1 other inOther
        have entriesApart := away (f.lba, f.len) (by simp)
        simp only at entriesApart ⊢
        omega

/-- A request writes an address exactly if the map still gives it to the object
of an entry that covers it. -/
theorem revalidate_covers (sound : Sound m) (request : ProperRequest entries input) (x : ℤ) :
    lastIndex (pieceRanges (revalidate m entries input)) x = none ↔
      ∀ e ∈ entries, e.lba ≤ x → x < e.lba + e.len → ∀ p, locate m x = some p → p.obj ≠ e.obj := by
  rw [last_index_eq_none_iff]
  constructor
  · intro uncovered e member low high p found sameObj
    obtain ⟨before, after, rfl⟩ := List.append_of_mem member
    obtain ⟨lower, positive, upper, -, enough⟩ := request.entry
    obtain ⟨piece, inEntry, pieceLow, pieceHigh⟩ :=
      ((revalidate_entry_spec sound lower positive upper enough).2 x).mpr
        ⟨low, high, p, found, sameObj⟩
    exact uncovered _ (List.mem_map.mpr ⟨piece, (mem_revalidate_iff request.ranges piece).mpr
      ⟨before, e, after, rfl, inEntry⟩, rfl⟩) ⟨pieceLow, pieceHigh⟩
  · rintro moved range member ⟨low, high⟩
    obtain ⟨piece, inPieces, rfl⟩ := List.mem_map.mp member
    obtain ⟨before, e, after, rfl, inEntry⟩ := (mem_revalidate_iff request.ranges piece).mp inPieces
    obtain ⟨lower, positive, upper, -, enough⟩ := request.entry
    obtain ⟨eLow, eHigh, p, found, sameObj⟩ :=
      ((revalidate_entry_spec sound lower positive upper enough).2 x).mp
        ⟨piece, inEntry, low, high⟩
    exact moved e (by simp) eLow eHigh p found sameObj

/-- The sector written for an address is the one the request has for it in an
entry whose object still holds the address. -/
theorem revalidate_sector (sound : Sound m) (request : ProperRequest entries input) {x i : ℤ}
    (written : lastIndex (pieceRanges (revalidate m entries input)) x = some i) :
    ∃ before e after p, entries = before ++ e :: after ∧ e.lba ≤ x ∧ x < e.lba + e.len ∧
      locate m x = some p ∧ p.obj = e.obj ∧
      ((revalidate m entries input).flatMap Prod.snd)[i.toNat]? =
        input[(sectors (entryRanges before) + (x - e.lba)).toNat]? := by
  obtain ⟨piece, inPieces, low, high, sector⟩ := last_index_piece written
  obtain ⟨before, e, after, rfl, inEntry⟩ := (mem_revalidate_iff request.ranges piece).mp inPieces
  obtain ⟨lower, positive, upper, total, enough⟩ := request.entry
  have spec := revalidate_entry_spec sound lower positive upper enough
  obtain ⟨eLow, eHigh, p, found, sameObj⟩ := (spec.2 x).mp ⟨piece, inEntry, low, high⟩
  refine ⟨before, e, after, p, rfl, eLow, eHigh, found, sameObj, ?_⟩
  rw [sector, (spec.1 piece inEntry).2.2.2 x low high, List.getElem?_drop]
  congr 1
  omega

theorem gc_extents_eq (proper : Proper (pieceRanges pieces))
    (small : sectors (pieceRanges pieces) < 2 ^ 22) :
    gcExtents pieces = (pieceRanges pieces).map (fun range => .store range.1 range.2) ∧
      dataRanges (gcExtents pieces) = pieceRanges pieces := by
  have extents : gcExtents pieces =
      (pieceRanges pieces).map fun range => .store range.1 range.2 := by
    simp [gcExtents, pieceRanges]
  exact ⟨extents, extents ▸ (stored_ranges proper small).1⟩

theorem update_gc_cases (proper : Proper (pieceRanges pieces))
    (run : updateGc crc32 uuid seq pieces s = some (s', obj)) :
    (hdrSectorsFor pieces.length + (pieces.flatMap Prod.snd).length) * 512 < 2 ^ 31 ∧
      (∃ acc, chargeAll (s.info, s.totalLive)
          (mapExtents seq (hdrSectorsFor pieces.length) (pieceRanges pieces) s.objmap).2 =
            some acc ∧
        s'.info = acc.1.insert seq ⟨hdrSectorsFor pieces.length, (pieces.flatMap Prod.snd).length,
          (pieces.flatMap Prod.snd).length⟩) ∧
      s'.objmap = (mapExtents seq (hdrSectorsFor pieces.length) (pieceRanges pieces) s.objmap).1 ∧
      obj = ⟨makeObjHdr crc32 uuid seq (hdrSectorsFor pieces.length)
        (pieces.flatMap Prod.snd).length (gcExtents pieces) true, pieces.flatMap Prod.snd⟩ := by
  have length := sectors_piece_ranges pieces
  unfold updateGc at run
  have extentsLength : (gcExtents pieces).length = pieces.length := by simp [gcExtents]
  simp only [extentsLength] at run
  split at run
  case isFalse => cases run
  case isTrue size =>
      obtain ⟨acc, charged, result⟩ := Option.map_eq_some_iff.mp run
      cases result
      have same := (gc_extents_eq proper (by omega)).2
      rw [same] at charged
      exact ⟨size, ⟨acc, charged, rfl⟩, by simp only [same], rfl⟩

theorem update_gc_emits (sound : Sound s.objmap) (proper : Proper (pieceRanges pieces))
    (uuidBound : uuid < 2 ^ 128) (seqBound : seq < 2 ^ 31)
    (run : updateGc crc32 uuid seq pieces s = some (s', obj)) :
    Emits uuid seq s s' obj (hdrSectorsFor pieces.length) (pieceRanges pieces) ∧
      obj.data = pieces.flatMap Prod.snd := by
  obtain ⟨size, -, objmap, rfl⟩ := update_gc_cases proper run
  have length := sectors_piece_ranges pieces
  have count : (pieceRanges pieces).length = pieces.length := List.length_map _
  rw [(gc_extents_eq proper (by omega)).1, ← count]
  rw [← count] at size objmap
  exact ⟨emits_made crc32 true sound proper length uuidBound seqBound size objmap, rfl⟩

theorem write_gc_emits (sound : Sound s.objmap) (request : ProperRequest entries input)
    (uuidBound : uuid < 2 ^ 128) (seqBound : seq < 2 ^ 31)
    (run : writeGc crc32 uuid seq entries input s = some (s', obj)) :
    Emits uuid seq s s' obj (hdrSectorsFor (revalidate s.objmap entries input).length)
        (pieceRanges (revalidate s.objmap entries input)) ∧
      obj.data = (revalidate s.objmap entries input).flatMap Prod.snd :=
  update_gc_emits sound (piece_ranges_proper sound request) uuidBound seqBound run

/-! ## Live counts -/

theorem charge_all_exact (info : ObjTable) (total : ℤ) (sound : Sound m)
    {deleted : List (Extent ObjOffset)} (within : ∀ d ∈ deleted, Within d ∧ 0 ≤ d.len)
    (counts : ∀ (o : ℕ) (oi : ObjInfo), info[o]? = some oi →
      oi.live = owned o m.extents + owned o deleted) :
    ∃ acc, chargeAll (info, total) deleted = some acc ∧
      ∀ o : ℕ, acc.1[o]? = (info[o]?).map fun oi => { oi with live := owned o m.extents } := by
  obtain ⟨info', total', run, table⟩ := charge_all_spec info total within (by
    intro o oi present
    have := counts o oi present
    have : 0 ≤ owned o m.extents :=
      owned_nonneg o fun e member => (sound.ordered.positive e member).le
    omega)
  refine ⟨(info', total'), run, ?_⟩
  intro o
  rw [table o]
  cases present : info[o]? with
  | none => rfl
  | some oi => simp [counts o oi present]

structure Maps.Next (seq hdrSectors dataSectors : ℕ) (s s' : Maps) : Prop where
  consistent : s'.Consistent
  below : s'.Below (seq + 1)
  table : ∀ o : ℕ, s'.info[o]? =
    ((s.info.insert seq ⟨hdrSectors, dataSectors, dataSectors⟩)[o]?).map fun oi =>
      { oi with live := owned o s'.objmap.extents }

theorem Maps.next_of_table {hdrSectors dataSectors : ℕ} (below : s.Below seq) (seqBound : seq < 2 ^ 31)
    (sound : Sound s'.objmap)
    (laid : ∀ x, locate s'.objmap x = overlay seq hdrSectors ranges (locate s.objmap) x)
    (table : ∀ o : ℕ, s'.info[o]? =
      ((s.info.insert seq ⟨hdrSectors, dataSectors, dataSectors⟩)[o]?).map fun oi =>
        { oi with live := owned o s'.objmap.extents }) : s.Next seq hdrSectors dataSectors s' := by
  have listed : ∀ (o : ℕ) (oi : ObjInfo), s'.info[o]? = some oi → o < seq + 1 := by
    intro o oi present
    rw [table o, table_insert] at present
    split at present
    · omega
    · obtain ⟨old, oldPresent, -⟩ := Option.map_eq_some_iff.mp present
      have := below.listed o old oldPresent
      omega
  refine ⟨⟨sound, ?_, ?_⟩, ⟨below_overlay below.mapped laid, listed⟩, table⟩
  · intro o oi present
    have := listed o oi present
    omega
  · intro o oi present
    rw [table o] at present
    obtain ⟨old, -, rfl⟩ := Option.map_eq_some_iff.mp present
    rfl

/-- A batch within the size limit is processed: no assertion fails, and the
counts stay exact. -/
theorem process_batch_defined (crc32 : Bytes → ℕ) (uuid : ℕ) (consistent : s.Consistent)
    (below : s.Below seq) (request : ProperRequest entries data) (seqBound : seq < 2 ^ 31)
    (size : (hdrSectorsFor entries.length + data.length) * 512 < 2 ^ 31) :
    ∃ s' obj, processBatch crc32 uuid seq entries data s = some (s', obj) ∧
      s.Next seq (hdrSectorsFor entries.length) data.length s' := by
  have length := request.length
  obtain ⟨mapSound, mapLocate, lost, mass⟩ := map_extents_spec seq
    (hdrSectorsFor entries.length) consistent.sound request.ranges (by omega) (by omega)
    (by omega) (by omega)
  set r := mapExtents seq (hdrSectorsFor entries.length) (entryRanges entries) s.objmap with rDef
  set info := s.info.insert seq ⟨hdrSectorsFor entries.length, data.length, data.length⟩ with infoDef
  obtain ⟨acc, charged, table⟩ := charge_all_exact info s.totalLive mapSound
    (fun d member => ⟨(lost d member).1, (lost d member).2.le⟩) (by
      intro o oi present
      have balance := mass o
      rw [infoDef, table_insert] at present
      split at present
      · rename_i same
        subst same
        rw [if_pos rfl, below.owned consistent.sound] at balance
        rw [← Option.some.inj present]
        simp only
        omega
      · have count := consistent.exact o oi present
        rw [if_neg (by omega)] at balance
        omega)
  simp only [processBatch, if_pos size, ← rDef, ← infoDef, charged, Option.map_some,
    Option.some.injEq, Prod.mk.injEq]
  exact ⟨_, _, ⟨rfl, rfl⟩, Maps.next_of_table below seqBound mapSound mapLocate table⟩

theorem update_gc_defined (crc32 : Bytes → ℕ) (uuid : ℕ) (consistent : s.Consistent)
    (below : s.Below seq) (proper : Proper (pieceRanges pieces))
    (apart : Apart (pieceRanges pieces)) (seqBound : seq < 2 ^ 31)
    (size : (hdrSectorsFor pieces.length + (pieces.flatMap Prod.snd).length) * 512 < 2 ^ 31) :
    ∃ s' obj, updateGc crc32 uuid seq pieces s = some (s', obj) ∧
      s.Next seq (hdrSectorsFor pieces.length) (pieces.flatMap Prod.snd).length s' := by
  have length := sectors_piece_ranges pieces
  have same := (gc_extents_eq proper (by omega)).2
  have extentsLength : (gcExtents pieces).length = pieces.length := by simp [gcExtents]
  obtain ⟨mapSound, mapLocate, lost, mass⟩ := map_extents_spec seq
    (hdrSectorsFor pieces.length) consistent.sound proper (by omega) (by omega)
    (by omega) (by omega)
  set r := mapExtents seq (hdrSectorsFor pieces.length) (pieceRanges pieces) s.objmap with rDef
  obtain ⟨acc, charged, table⟩ := charge_all_exact s.info s.totalLive mapSound
    (fun d member => ⟨(lost d member).1, (lost d member).2.le⟩) (by
      intro o oi present
      have balance := mass o
      have count := consistent.exact o oi present
      have := below.listed o oi present
      rw [if_neg (by omega)] at balance
      omega)
  have own : owned seq r.2 = 0 :=
    (map_extents_own_iff consistent.sound proper (by omega) (by omega) (by omega) (by omega)).mpr
      ⟨fun range _ x p _ _ found => by
        have := below.mapped x p found
        omega, apart⟩
  have ownMass := mass seq
  rw [if_pos rfl, below.owned consistent.sound, own] at ownMass
  simp only [updateGc, extentsLength, if_pos size, same, ← rDef, charged,
    Option.map_some, Option.some.injEq, Prod.mk.injEq]
  refine ⟨_, _, ⟨rfl, rfl⟩, Maps.next_of_table below seqBound mapSound mapLocate ?_⟩
  intro o
  rw [table_insert, table_insert, table o]
  by_cases here : seq = o
  · subst here
    simp only [if_true, Option.map_some, Option.some.injEq, ObjInfo.mk.injEq, true_and]
    omega
  · simp only [if_neg here]

theorem process_batch_next (consistent : s.Consistent) (below : s.Below seq)
    (request : ProperRequest entries data) (seqBound : seq < 2 ^ 31)
    (run : processBatch crc32 uuid seq entries data s = some (s', obj)) :
    s.Next seq (hdrSectorsFor entries.length) data.length s' := by
  obtain ⟨_, _, same, next⟩ := process_batch_defined crc32 uuid consistent below request seqBound
    (process_batch_cases run).1
  cases run.symm.trans same
  exact next

theorem update_gc_next (consistent : s.Consistent) (below : s.Below seq)
    (proper : Proper (pieceRanges pieces)) (apart : Apart (pieceRanges pieces))
    (seqBound : seq < 2 ^ 31) (run : updateGc crc32 uuid seq pieces s = some (s', obj)) :
    s.Next seq (hdrSectorsFor pieces.length) (pieces.flatMap Prod.snd).length s' := by
  obtain ⟨_, _, same, next⟩ := update_gc_defined crc32 uuid consistent below proper apart seqBound
    (update_gc_cases proper run).1
  cases run.symm.trans same
  exact next

theorem write_gc_next (consistent : s.Consistent) (below : s.Below seq)
    (request : ProperRequest entries input) (apart : Apart (entryRanges entries))
    (seqBound : seq < 2 ^ 31) (run : writeGc crc32 uuid seq entries input s = some (s', obj)) :
    s.Next seq (hdrSectorsFor (revalidate s.objmap entries input).length)
      ((revalidate s.objmap entries input).flatMap Prod.snd).length s' :=
  update_gc_next consistent below (piece_ranges_proper consistent.sound request)
    (piece_ranges_apart consistent.sound request apart) seqBound run

theorem trim_defined {base limit : ℤ} (consistent : s.Consistent) (below : s.Below seq)
    (lower : 0 ≤ base) (order : base ≤ limit) (upper : base < 2 ^ 35) :
    ∃ s', s.trim base limit = some s' ∧ s'.Consistent ∧ s'.Below seq ∧
      (∀ x, locate s'.objmap x =
        if base ≤ x ∧ x < limit then none else locate s.objmap x) ∧
      ∀ o : ℕ, s'.info[o]? =
        (s.info[o]?).map fun oi => { oi with live := owned o s'.objmap.extents } := by
  obtain ⟨sound, extents, lost⟩ := consistent.sound.unset order (objmap_key lower (by omega))
  have located := consistent.sound.locate_unset order (objmap_key lower (by omega))
  obtain ⟨acc, charged, table⟩ := charge_all_exact s.info s.totalLive sound
    (consistent.sound.unset_displaced order (objmap_key lower (by omega))) (by
      intro o oi present
      rw [consistent.exact o oi present, extents, lost]
      exact (owned_cut order consistent.sound.ordered o).symm)
  have old : ∀ (o : ℕ) (oi : ObjInfo), acc.1[o]? = some oi →
      (∃ before : ObjInfo, s.info[o]? = some before) ∧
        oi.live = owned o (s.objmap.unset base limit).1.extents := by
    intro o oi present
    rw [table o] at present
    obtain ⟨before, found, rfl⟩ := Option.map_eq_some_iff.mp present
    exact ⟨⟨before, found⟩, rfl⟩
  simp only [Maps.trim, charged, Option.map_some, Option.some.injEq]
  refine ⟨_, rfl, ⟨sound, ?_, fun o oi present => (old o oi present).2⟩, ⟨?_, ?_⟩, located, table⟩
  · intro o oi present
    obtain ⟨⟨before, found⟩, -⟩ := old o oi present
    exact consistent.keys o before found
  · intro x p found
    rw [located] at found
    split at found
    · cases found
    · exact below.mapped x p found
  · intro o oi present
    obtain ⟨⟨before, found⟩, -⟩ := old o oi present
    exact below.listed o before found

/-! ## Sizes -/

/-- Every sector lies within the size that the table has for its object, no object
has more live sectors than data, and 32 bits hold the sizes. -/
structure Maps.Measured (s : Maps) : Prop where
  inside : ∀ (x : ℤ) (p : ObjOffset) (oi : ObjInfo), locate s.objmap x = some p →
    s.info[p.obj.toNat]? = some oi → oi.hdr ≤ p.offset ∧ p.offset < oi.hdr + oi.data
  filled : ∀ (o : ℕ) (oi : ObjInfo), s.info[o]? = some oi → oi.live ≤ oi.data
  sizes : ∀ (o : ℕ) (oi : ObjInfo), s.info[o]? = some oi → 0 ≤ oi.hdr ∧ oi.hdr < 2 ^ 32 ∧
    oi.data < 2 ^ 32

theorem Maps.empty_measured : Maps.empty.Measured :=
  ⟨by simp [Maps.empty], by simp [Maps.empty], by simp [Maps.empty]⟩

theorem Maps.Measured.erased (measured : s.Measured) (objmap : s'.objmap = s.objmap)
    (info : ∀ (o : ℕ) (oi : ObjInfo), s'.info[o]? = some oi → s.info[o]? = some oi) :
    s'.Measured := by
  refine ⟨?_, fun o oi present => measured.filled o oi (info o oi present),
    fun o oi present => measured.sizes o oi (info o oi present)⟩
  intro x p oi found present
  rw [objmap] at found
  exact measured.inside x p oi found (info _ oi present)

theorem Maps.Measured.unmapped (measured : s.Measured) (consistent : s.Consistent)
    (sound : Sound s'.objmap)
    (located : ∀ x p, locate s'.objmap x = some p → locate s.objmap x = some p)
    (table : ∀ o : ℕ, s'.info[o]? =
      (s.info[o]?).map fun oi => { oi with live := owned o s'.objmap.extents }) : s'.Measured := by
  refine ⟨?_, ?_, ?_⟩
  · intro x p oi found present
    rw [table] at present
    obtain ⟨old, before, rfl⟩ := Option.map_eq_some_iff.mp present
    exact measured.inside x p old (located x p found) before
  · intro o oi present
    rw [table] at present
    obtain ⟨old, before, rfl⟩ := Option.map_eq_some_iff.mp present
    have fewer := owned_le_of_locate consistent.sound sound (fun x p found same =>
      ⟨p, located x p found, same⟩ : ∀ x p, locate s'.objmap x = some p → p.obj = (o : ℤ) → _)
    have := measured.filled o old before
    have := consistent.exact o old before
    simp only
    omega
  · intro o oi present
    rw [table] at present
    obtain ⟨old, before, rfl⟩ := Option.map_eq_some_iff.mp present
    exact measured.sizes o old before

theorem Maps.Measured.emitted {hdrSectors : ℕ} (measured : s.Measured) (consistent : s.Consistent)
    (below : s.Below seq) (emits : Emits uuid seq s s' obj hdrSectors ranges)
    (next : s.Next seq hdrSectors obj.data.length s') : s'.Measured := by
  have length := emits.length
  refine ⟨?_, ?_, ?_⟩
  · intro x p oi found present
    have laid := emits.locate_eq x
    rw [found, overlay] at laid
    rw [next.table, table_insert] at present
    split at laid
    · rename_i i index
      have bounds := last_index_bounds emits.proper index
      cases laid
      rw [if_pos (by simp)] at present
      cases present
      simp only
      omega
    · have old := below.mapped x p laid.symm
      have bounds := consistent.sound.bounds laid.symm
      rw [if_neg (by omega)] at present
      obtain ⟨entry, before, rfl⟩ := Option.map_eq_some_iff.mp present
      exact measured.inside x p entry laid.symm before
  · intro o oi present
    have gained := emits.counts o
    rw [next.table, table_insert] at present
    split at present
    · rename_i same
      subst same
      rw [if_pos rfl, below.owned consistent.sound] at gained
      cases present
      simp only
      omega
    · rw [if_neg (by omega)] at gained
      obtain ⟨entry, before, rfl⟩ := Option.map_eq_some_iff.mp present
      have := measured.filled o entry before
      have := consistent.exact o entry before
      simp only
      omega
  · intro o oi present
    rw [next.table, table_insert] at present
    split at present
    · have := emits.reach
      cases present
      simp only
      omega
    · obtain ⟨entry, before, rfl⟩ := Option.map_eq_some_iff.mp present
      exact measured.sizes o entry before

end LsvdRbd.Translate
