import LsvdRbd.Format.DataObject
import LsvdRbd.ExtentMap.Map

/-!
# Checkpoint objects

`write_checkpoint` lists the object table and the extents of the object map
behind a header; `read_checkpoint` reads both lists back. The map entries take
another encoding than the extents of a data object: signed fields, with the
object number and the offset.
-/

namespace LsvdRbd.Format

open Records ExtentMap

set_option autoImplicit false

variable {σ : Type*}

/-- `data_obj_info`. -/
structure ObjInfo where
  hdr : ℤ
  data : ℤ
  live : ℤ
  deriving DecidableEq, Repr

instance : Inhabited ObjInfo := ⟨⟨0, 0, 0⟩⟩

abbrev ObjTable := Std.ExtTreeMap ℕ ObjInfo

variable {β : Type*}

theorem table_insert (table : Std.ExtTreeMap ℕ β) (k j : ℕ) (v : β) :
    (table.insert k v)[j]? = if k = j then some v else table[j]? := by
  simp [Std.ExtTreeMap.getElem?_insert]

theorem table_erase (table : Std.ExtTreeMap ℕ β) (k j : ℕ) :
    (table.erase k)[j]? = if k = j then none else table[j]? := by
  simp [Std.ExtTreeMap.getElem?_erase]

theorem table_of_erase {table : Std.ExtTreeMap ℕ β} {k j : ℕ} {v : β}
    (present : (table.erase k)[j]? = some v) : table[j]? = some v := by
  rw [table_erase] at present
  split at present
  · cases present
  · exact present

theorem table_erase_all (keys : List ℕ) (table : Std.ExtTreeMap ℕ β) (j : ℕ) :
    (keys.foldl (fun table k => table.erase k) table)[j]? =
      if j ∈ keys then none else table[j]? := by
  induction keys generalizing table with
  | nil => simp
  | cons first rest ih =>
      rw [List.foldl_cons, ih, table_erase]
      by_cases later : j ∈ rest
      · simp [later]
      · by_cases same : first = j
        · simp [same]
        · simp [later, same, Ne.symm same]

def ckptEntries (objmap : Extmap ObjOffset) : List MapEntry :=
  objmap.extents.map fun e => .store e.base e.len e.ptr.obj e.ptr.offset

/-- The object table as checkpoint records; the counters are cut to 32 bits. -/
def ckptObjects (info : ObjTable) : List CkptObj :=
  info.toList.map fun (seq, oi) =>
    ⟨seq % 2 ^ 32, (unsignedField 32 oi.hdr).toNat, (unsignedField 32 oi.data).toNat,
      (unsignedField 32 oi.live).toNat⟩

def ckptBytes (objects : List CkptObj) (entries : List MapEntry) : ℕ :=
  CommonHdr.packed.size + CkptHdr.packed.size + entries.length * 16 + objects.length * 16

def ckptCommon (uuid seq : ℕ) (objects : List CkptObj) (entries : List MapEntry) : CommonHdr :=
  ⟨lsvdMagic, 1, uuid, ObjType.checkpoint.code, seq, divRoundUp (ckptBytes objects entries) 512,
    0, 0⟩

def ckptHdr (objects : List CkptObj) (entries : List MapEntry) : CkptHdr :=
  let o1 := CommonHdr.packed.size + CkptHdr.packed.size
  let o2 := o1 + objects.length * 16
  ⟨0, 0, 0, o1, o2 - o1, 0, 0, o2, entries.length * 16⟩

/-- The buffer `write_checkpoint` fills. -/
def serialiseCheckpoint (uuid seq : ℕ) (objects : List CkptObj) (entries : List MapEntry) :
    Bytes :=
  CommonHdr.packed.encode (ckptCommon uuid seq objects entries) ++
    (CkptHdr.packed.encode (ckptHdr objects entries) ++
      objects.flatMap CkptObj.packed.encode ++ entries.flatMap MapEntry.encode ++
      List.replicate (divRoundUp (ckptBytes objects entries) 512 * 512 -
        ckptBytes objects entries) 0)

/-- `parsed_checkpoint`, without the lists that are always empty. -/
structure ParsedCheckpoint where
  hdr : CommonHdr
  objects : List CkptObj
  dmap : List MapEntry
  deriving DecidableEq, Repr

def readCheckpoint (obj : Option (Obj σ)) : Except Fault (Option ParsedCheckpoint) := do
  match ← fetchObjectHeader obj with
  | none => return none
  | some buf =>
      let hdr := CommonHdr.packed.decode buf
      if hdr.type ≠ ObjType.checkpoint.code then return none
      let ckptHdr := CkptHdr.packed.decode (buf.drop CommonHdr.packed.size)
      return some ⟨hdr,
        decodeArray 16 CkptObj.packed.decode buf ckptHdr.objsOffset ckptHdr.objsLen,
        decodeArray 16 MapEntry.decode buf ckptHdr.mapOffset ckptHdr.mapLen⟩

theorem serialise_checkpoint_length (uuid seq : ℕ) (objects : List CkptObj)
    (entries : List MapEntry) :
    (serialiseCheckpoint uuid seq objects entries).length =
      512 * divRoundUp (ckptBytes objects entries) 512 := by
  have sizes : CommonHdr.packed.size = 44 ∧ CkptHdr.packed.size = 40 := ⟨rfl, rfl⟩
  have objSize : ∀ o, (CkptObj.packed.encode o).length = 16 := Packed.encode_length _
  have total : ckptBytes objects entries = 84 + entries.length * 16 + objects.length * 16 := by
    simp [ckptBytes, sizes.1, sizes.2]
  simp only [serialiseCheckpoint, List.length_append, Packed.encode_length, List.length_replicate,
    encode_array_length objSize, encode_array_length MapEntry.encode_length, sizes.1, sizes.2,
    total]
  unfold divRoundUp
  omega

variable {entries : List MapEntry} {objects : List CkptObj}

theorem ckpt_sectors_bounds (size : ckptBytes objects entries < 2 ^ 31) :
    divRoundUp (ckptBytes objects entries) 512 < 2 ^ 23 ∧
      0 < divRoundUp (ckptBytes objects entries) 512 := by
  have sizes : CommonHdr.packed.size = 44 ∧ CkptHdr.packed.size = 40 := ⟨rfl, rfl⟩
  have total : ckptBytes objects entries = 84 + entries.length * 16 + objects.length * 16 := by
    simp [ckptBytes, sizes.1, sizes.2]
  rw [divRoundUp]
  omega

variable {uuid seq : ℕ}

theorem ckpt_common_fits (uuidBound : uuid < 2 ^ 128) (seqBound : seq < 2 ^ 32)
    (size : ckptBytes objects entries < 2 ^ 31) :
    CommonHdr.packed.Fits (ckptCommon uuid seq objects entries) := by
  obtain ⟨sectorsBound, positive⟩ := ckpt_sectors_bounds size
  simp only [Packed.Fits, CommonHdr.packed, ckptCommon, List.zip_cons_cons, List.forall_mem_cons]
  norm_num [lsvdMagic, ObjType.code]
  omega

theorem fetch_checkpoint (uuidBound : uuid < 2 ^ 128) (seqBound : seq < 2 ^ 32)
    (size : ckptBytes objects entries < 2 ^ 31) :
    fetchObjectHeader (some (⟨serialiseCheckpoint uuid seq objects entries, []⟩ : Obj σ)) =
        .ok (some (serialiseCheckpoint uuid seq objects entries ++ List.replicate
          (4096 - (serialiseCheckpoint uuid seq objects entries).length) 0)) ∧
      ∀ tail, CommonHdr.packed.decode (serialiseCheckpoint uuid seq objects entries ++ tail) =
        ckptCommon uuid seq objects entries := by
  have fits := ckpt_common_fits uuidBound seqBound size
  obtain ⟨sectorsBound, positive⟩ := ckpt_sectors_bounds size
  constructor
  · exact fetch_object_header_eq (σ := σ)
      ⟨serialiseCheckpoint uuid seq objects entries, []⟩ rfl fits rfl rfl
      (serialise_checkpoint_length uuid seq objects entries) positive sectorsBound
  · intro tail
    rw [serialiseCheckpoint, List.append_assoc]
    exact Packed.decode_encode _ fits _

theorem read_data_hdr_checkpoint (uuidBound : uuid < 2 ^ 128) (seqBound : seq < 2 ^ 32)
    (size : ckptBytes objects entries < 2 ^ 31) :
    readDataHdr (some (⟨serialiseCheckpoint uuid seq objects entries, []⟩ : Obj σ)) = .ok none := by
  obtain ⟨fetched, common⟩ := fetch_checkpoint (σ := σ) uuidBound seqBound size
  rw [readDataHdr, fetched]
  change (if _ then _ else _) = _
  rw [common, if_pos (by simp [ckptCommon, ObjType.code])]
  rfl

theorem ckpt_hdr_eq (objects : List CkptObj) (entries : List MapEntry) :
    ckptHdr objects entries = ⟨0, 0, 0, 84, objects.length * 16, 0, 0, 84 + objects.length * 16,
      entries.length * 16⟩ := by
  have sizes : CommonHdr.packed.size = 44 ∧ CkptHdr.packed.size = 40 := ⟨rfl, rfl⟩
  simp [ckptHdr, sizes.1, sizes.2]

theorem ckpt_hdr_fits (size : ckptBytes objects entries < 2 ^ 31) :
    CkptHdr.packed.Fits (ckptHdr objects entries) := by
  have sizes : CommonHdr.packed.size = 44 ∧ CkptHdr.packed.size = 40 := ⟨rfl, rfl⟩
  rw [ckptBytes, sizes.1, sizes.2] at size
  simp only [ckpt_hdr_eq, Packed.Fits, CkptHdr.packed, List.zip_cons_cons, List.forall_mem_cons]
  norm_num
  omega

/-- Reading a checkpoint gives back its object records and map entries. -/
theorem read_checkpoint_round_trip (uuidBound : uuid < 2 ^ 128) (seqBound : seq < 2 ^ 32)
    (size : ckptBytes objects entries < 2 ^ 31) (objectsFit : ∀ o ∈ objects, CkptObj.packed.Fits o)
    (stored : ∀ e ∈ entries, e.Stored) :
    ∃ parsed, readCheckpoint (some (⟨serialiseCheckpoint uuid seq objects entries, []⟩ : Obj σ)) =
        .ok (some parsed) ∧
      parsed.hdr.uuid = uuid ∧ parsed.objects = objects ∧ parsed.dmap = entries := by
  obtain ⟨fetched, common⟩ := fetch_checkpoint (σ := σ) uuidBound seqBound size
  have sizes : CommonHdr.packed.size = 44 ∧ CkptHdr.packed.size = 40 := ⟨rfl, rfl⟩
  have objSize : ∀ o, (CkptObj.packed.encode o).length = 16 := Packed.encode_length _
  have hdr := ckpt_hdr_eq objects entries
  have hdrFits := ckpt_hdr_fits size
  have commonHere := common (List.replicate
    (4096 - (serialiseCheckpoint uuid seq objects entries).length) 0)
  set pad := List.replicate (4096 - (serialiseCheckpoint uuid seq objects entries).length)
    (0 : UInt8)
  set front := CommonHdr.packed.encode (ckptCommon uuid seq objects entries) with frontDef
  set second := CkptHdr.packed.encode (ckptHdr objects entries) with secondDef
  -- the buffer, cut at the two arrays
  obtain ⟨tail, buffer⟩ : ∃ tail, serialiseCheckpoint uuid seq objects entries ++ pad =
      front ++ second ++ objects.flatMap CkptObj.packed.encode ++
        (entries.flatMap MapEntry.encode ++ tail) :=
    ⟨List.replicate (divRoundUp (ckptBytes objects entries) 512 * 512 -
      ckptBytes objects entries) 0 ++ pad, by
        rw [serialiseCheckpoint, ← frontDef, ← secondDef]
        simp only [List.append_assoc]⟩
  rw [buffer] at fetched commonHere
  have frontLength : front.length = 44 := Packed.encode_length _ _
  have decoded : CkptHdr.packed.decode ((front ++ second ++
      objects.flatMap CkptObj.packed.encode ++ (entries.flatMap MapEntry.encode ++ tail)).drop
        CommonHdr.packed.size) = ckptHdr objects entries := by
    rw [List.append_assoc, List.append_assoc, List.drop_left' (frontLength.trans sizes.1.symm)]
    exact Packed.decode_encode _ hdrFits _
  have headers : (front ++ second).length = 84 := by
    rw [List.length_append, frontLength, secondDef, Packed.encode_length, sizes.2]
  have objectArray := decode_array CkptObj.packed.decode (by norm_num) objSize
    (front ++ second) (entries.flatMap MapEntry.encode ++ tail) objects (by
      intro o member
      have := Packed.decode_encode _ (objectsFit o member) []
      rwa [List.append_nil] at this)
  have middle : (front ++ second ++ objects.flatMap CkptObj.packed.encode).length =
      84 + objects.length * 16 := by
    rw [List.length_append, headers, encode_array_length objSize]
  have entryArray := decode_array MapEntry.decode (by norm_num) MapEntry.encode_length
    (front ++ second ++ objects.flatMap CkptObj.packed.encode) tail entries
    (fun e member => MapEntry.decode_encode (stored e member))
  rw [headers] at objectArray
  rw [middle, List.append_assoc _ (entries.flatMap _)] at entryArray
  refine ⟨⟨ckptCommon uuid seq objects entries, objects, entries⟩, ?_, rfl, rfl, rfl⟩
  rw [readCheckpoint, fetched]
  change (if _ then _ else _) = _
  rw [commonHere, if_neg (by simp [ckptCommon]), decoded, hdr]
  simp only
  rw [objectArray, entryArray]
  rfl

theorem ckpt_objects_fit (info : ObjTable) : ∀ o ∈ ckptObjects info, CkptObj.packed.Fits o := by
  intro o member
  obtain ⟨⟨seq, oi⟩, -, rfl⟩ := List.mem_map.mp member
  have cut : ∀ v : ℤ, (unsignedField 32 v).toNat < 2 ^ 32 := by
    intro v
    unfold unsignedField
    omega
  simp only [Packed.Fits, CkptObj.packed, List.zip_cons_cons, List.forall_mem_cons]
  exact ⟨Nat.mod_lt _ (by norm_num), cut _, cut _, cut _, by simp⟩

theorem ckpt_entries_stored (m : Extmap ObjOffset) : ∀ e ∈ ckptEntries m, e.Stored := by
  intro entry member
  obtain ⟨e, -, rfl⟩ := List.mem_map.mp member
  exact MapEntry.store_stored _ _ _ _

end LsvdRbd.Format
