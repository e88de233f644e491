import LsvdRbd.Format.Checkpoint
import LsvdRbd.Format.Superblock

/-!
# The clone tool

`mk_clone` writes the two objects of a clone: a checkpoint with the map of the base's
last one and without its object records, and a superblock that names the base. The
readers are the ones of every other image. The tool counts a zero byte after the name
that the reader does not step over, and it writes the checkpoint without padding.
-/

namespace LsvdRbd.Format

open Records ExtentMap

set_option autoImplicit false

variable {σ : Type*}

/-! ## Reading the base -/

/-- With `--rados`, a name is split into a pool and an object at its only slash. -/
def named (rados : Bool) (name : Bytes) : Bool := !rados || name.count 47 == 1

/-- `read_obj`: a pool is asked for 8192 bytes first, and for the whole header if that
is longer. -/
def readObj (rados : Bool) (obj : Bytes) : Option Bytes :=
  if rados then
    let first := obj.take 8192
    if first.length < CommonHdr.packed.size then none
    else
      let len := 512 * (CommonHdr.packed.decode first).hdrSectors
      if first.length < len then some (obj.take len) else some first
  else some obj

/-- The number of the last checkpoint. As a `c_int` it must not be negative: no object
has such a number in its name. -/
def lastCheckpoint (obj : Bytes) : Option ℕ :=
  let sh := SuperHdr.packed.decode (obj.drop CommonHdr.packed.size)
  let ckpts := slice obj sh.ckptsOffset sh.ckptsLen
  match (decodeArray 4 decodeNat ckpts 0 ckpts.length).getLast? with
  | none => none
  | some word => if word < 2 ^ 31 then some word else none

/-! ## Writing the clone -/

def cloneCheckpoint (uu seq : ℕ) (ckptObj : Bytes) : Bytes :=
  let h := CommonHdr.packed.decode ckptObj
  let ch := CkptHdr.packed.decode (ckptObj.drop CommonHdr.packed.size)
  let map := slice ckptObj ch.mapOffset ch.mapLen
  let start := CommonHdr.packed.size + CkptHdr.packed.size
  CommonHdr.packed.encode
      { h with seq := seq + 1, uuid := uu, hdrSectors := (start + 4 + map.length + 511) / 512 } ++
    CkptHdr.packed.encode { ch with
      cacheSeq := 0
      ckptsOffset := start
      ckptsLen := 4
      objsLen := 0
      deletesLen := 0
      mapOffset := start + 4
      mapLen := map.length } ++
    encodeNat 4 (seq + 1) ++ map

/-- The superblock of the clone: its checkpoint, and the base with its name. The length
counts one byte more than the record and the name. -/
def cloneSuperblock (old : Bytes) (uu seq baseUuid volSize : ℕ) : Bytes :=
  let offsetCkpt := CommonHdr.packed.size + SuperHdr.packed.size
  let data := CommonHdr.packed.encode
        ⟨lsvdMagic, 1, uu, ObjType.superblock.code, 0, 8, 0, 0⟩ ++
      SuperHdr.packed.encode
        ⟨volSize, offsetCkpt, 4, offsetCkpt + 4, CloneInfo.packed.size + old.length + 1, 0, 0⟩ ++
      encodeNat 4 (seq + 1) ++ CloneInfo.packed.encode ⟨baseUuid, seq, old.length⟩ ++ old
  data ++ List.replicate (4096 - data.length) 0

structure Clone where
  super : Bytes
  number : ℕ
  ckpt : Bytes
  deriving DecidableEq, Repr

/-- `mk_clone`; nothing stands for an exception. -/
def mkClone (rados : Bool) (old new : Bytes) (uu : ℕ) (super : Bytes) (numbered : ℕ → Option Bytes) :
    Option Clone :=
  if named rados old ∧ named rados new then
    (readObj rados super).bind fun obj =>
      if obj.length < CommonHdr.packed.size + SuperHdr.packed.size then none
      else
        let h := CommonHdr.packed.decode obj
        let sh := SuperHdr.packed.decode (obj.drop CommonHdr.packed.size)
        (lastCheckpoint obj).bind fun seq =>
          ((numbered seq).bind (readObj rados)).bind fun ckptObj =>
            if ckptObj.length < CommonHdr.packed.size + CkptHdr.packed.size then none
            else some ⟨cloneSuperblock old uu seq h.uuid sh.volSize, seq + 1,
              cloneCheckpoint uu seq ckptObj⟩
  else none

/-! ## The superblock of a clone -/

section Superblock

variable {old : Bytes} {uu seq baseUuid volSize : ℕ}

theorem clone_superblock_eq (old : Bytes) (uu seq baseUuid volSize : ℕ) :
    ∃ k, cloneSuperblock old uu seq baseUuid volSize =
      CommonHdr.packed.encode ⟨lsvdMagic, 1, uu, ObjType.superblock.code, 0, 8, 0, 0⟩ ++
        SuperHdr.packed.encode ⟨volSize, 76, 4, 80, 22 + old.length, 0, 0⟩ ++
        encodeNat 4 (seq + 1) ++ CloneInfo.packed.encode ⟨baseUuid, seq, old.length⟩ ++ old ++
        List.replicate k 0 := by
  have sizes : CommonHdr.packed.size = 44 ∧ SuperHdr.packed.size = 32 ∧ CloneInfo.packed.size = 21 :=
    ⟨rfl, rfl, rfl⟩
  have counted : 21 + old.length + 1 = 22 + old.length := by omega
  unfold cloneSuperblock
  simp only [sizes.1, sizes.2.1, sizes.2.2, counted]
  exact ⟨_, rfl⟩

theorem clone_info_zeros (k : ℕ) :
    CloneInfo.packed.decode (List.replicate k 0) = ⟨0, 0, 0⟩ := by
  simp [CloneInfo.packed, Packed.decode, decodeFields, decode_nat_zeros]

/-- The reader finds the record with its name, and then one more in the zero bytes. -/
theorem clone_records_eq {front : Bytes} (frontLength : front.length = 80) {c : CloneInfo}
    (fits : CloneInfo.packed.Fits c) (named : c.nameLen = old.length) (k : ℕ) :
    cloneRecords (front ++ CloneInfo.packed.encode c ++ old ++ List.replicate k 0)
      (22 + old.length) 80 (80 + (22 + old.length)) = [(c, old), (⟨0, 0, 0⟩, [])] := by
  have size : CloneInfo.packed.size = 21 := rfl
  have infoLength : (CloneInfo.packed.encode c).length = 21 := Packed.encode_length _ c
  set buf := front ++ CloneInfo.packed.encode c ++ old ++ List.replicate k 0 with bufDef
  have first : CloneInfo.packed.decode (buf.drop 80) = c := by
    rw [bufDef, List.append_assoc, List.append_assoc, List.drop_left' frontLength]
    exact Packed.decode_encode _ fits _
  have name : slice buf (80 + 21) c.nameLen = old := by
    have start : (front ++ CloneInfo.packed.encode c).length = 80 + 21 := by
      rw [List.length_append, frontLength, infoLength]
    rw [slice, bufDef, List.append_assoc, List.drop_left' start, List.take_left' named.symm]
  have second : CloneInfo.packed.decode (buf.drop (80 + 21 + c.nameLen)) = ⟨0, 0, 0⟩ := by
    have start : (front ++ CloneInfo.packed.encode c ++ old).length = 80 + 21 + c.nameLen := by
      rw [List.length_append, List.length_append, frontLength, infoLength, named]
    rw [bufDef, List.drop_left' start]
    exact clone_info_zeros k
  rw [show 22 + old.length = (19 + old.length) + 3 by omega]
  rw [cloneRecords, if_pos (by omega), size, first]
  simp only [name]
  rw [cloneRecords, if_pos (by omega), size, second]
  simp only [add_zero]
  rw [cloneRecords, if_neg (by omega)]
  simp [slice]

theorem read_clone_superblock (short : old.length ≤ 255) (uuBound : uu < 2 ^ 128)
    (seqBound : seq < 2 ^ 31) (baseBound : baseUuid < 2 ^ 128) (sizeBound : volSize < 2 ^ 64) :
    readSuperblock (some (cloneSuperblock old uu seq baseUuid volSize)) =
      .ok ⟨volSize * 512 % 2 ^ 64, uu, [seq + 1], [⟨old, seq, seq + 1⟩, ⟨[], 0, 1⟩]⟩ := by
  have sizes : CommonHdr.packed.size = 44 ∧ SuperHdr.packed.size = 32 := ⟨rfl, rfl⟩
  obtain ⟨k, cut⟩ := clone_superblock_eq old uu seq baseUuid volSize
  set common : CommonHdr := ⟨lsvdMagic, 1, uu, ObjType.superblock.code, 0, 8, 0, 0⟩ with commonDef
  set hdr : SuperHdr := ⟨volSize, 76, 4, 80, 22 + old.length, 0, 0⟩ with hdrDef
  set info : CloneInfo := ⟨baseUuid, seq, old.length⟩ with infoDef
  have commonFits : CommonHdr.packed.Fits common := by
    simp only [Packed.Fits, CommonHdr.packed, commonDef, List.zip_cons_cons, List.forall_mem_cons]
    norm_num [lsvdMagic, ObjType.code]
    omega
  have hdrFits : SuperHdr.packed.Fits hdr := by
    simp only [Packed.Fits, SuperHdr.packed, hdrDef, List.zip_cons_cons, List.forall_mem_cons]
    norm_num
    omega
  have infoFits : CloneInfo.packed.Fits info := by
    simp only [Packed.Fits, CloneInfo.packed, infoDef, List.zip_cons_cons, List.forall_mem_cons]
    norm_num
    omega
  have headers : (CommonHdr.packed.encode common ++ SuperHdr.packed.encode hdr).length = 76 := by
    rw [List.length_append, Packed.encode_length, Packed.encode_length, sizes.1, sizes.2]
  have front : (CommonHdr.packed.encode common ++ SuperHdr.packed.encode hdr ++
      encodeNat 4 (seq + 1)).length = 80 := by
    rw [List.length_append, headers, encode_nat_length]
  set buf := cloneSuperblock old uu seq baseUuid volSize
  have first : CommonHdr.packed.decode buf = common := by
    rw [cut]
    simp only [List.append_assoc]
    exact Packed.decode_encode _ commonFits _
  have second : SuperHdr.packed.decode (buf.drop 44) = hdr := by
    rw [cut]
    simp only [List.append_assoc]
    exact decode_second _ hdrFits _
  have ckpts : decodeArray 4 decodeNat buf 76 4 = [seq + 1] := by
    have array := decode_array decodeNat (by norm_num) (encode_nat_length 4)
      (CommonHdr.packed.encode common ++ SuperHdr.packed.encode hdr)
      (CloneInfo.packed.encode info ++ (old ++ List.replicate k 0)) [seq + 1] (by
        intro c member
        obtain rfl := List.mem_singleton.mp member
        exact decode_encode_nat 4 _ (by norm_num; omega))
    rw [headers] at array
    rw [cut]
    simpa only [List.append_assoc, List.flatMap_cons, List.flatMap_nil, List.append_nil,
      List.nil_append, List.length_singleton, one_mul] using array
  have clones : cloneRecords buf (22 + old.length) 80 (80 + (22 + old.length)) =
      [(info, old), (⟨0, 0, 0⟩, [])] := by
    rw [cut]
    exact clone_records_eq front infoFits rfl k
  have parsed : parseSuperblock buf = some ⟨volSize * 512 % 2 ^ 64, [seq + 1],
      [(info, old), (⟨0, 0, 0⟩, [])], uu⟩ := by
    unfold parseSuperblock
    rw [sizes.1, second, first]
    simp only [commonDef, hdrDef, ne_eq, not_true_eq_false, if_false, ckpts, clones]
  simp only [readSuperblock, Option.bind_some, parsed, List.map_cons, List.map_nil, cloneBase, infoDef]
  rw [Nat.mod_eq_of_lt (by omega : seq + 1 < 2 ^ 32)]
  rfl

end Superblock

/-! ## The checkpoint of a clone -/

section Checkpoint

variable {uuid seq uu : ℕ} {objects : List CkptObj} {entries : List MapEntry}

def cloneCommon (uu seq : ℕ) (entries : List MapEntry) : CommonHdr :=
  ⟨lsvdMagic, 1, uu, ObjType.checkpoint.code, seq + 1, (599 + entries.length * 16) / 512, 0, 0⟩

def cloneHdr (entries : List MapEntry) : CkptHdr :=
  ⟨0, 84, 4, 84, 0, 0, 0, 88, entries.length * 16⟩

theorem clone_checkpoint_eq (uu : ℕ) (uuidBound : uuid < 2 ^ 128) (seqBound : seq < 2 ^ 32)
    (size : ckptBytes objects entries < 2 ^ 31) :
    cloneCheckpoint uu seq (serialiseCheckpoint uuid seq objects entries) =
      CommonHdr.packed.encode (cloneCommon uu seq entries) ++
        (CkptHdr.packed.encode (cloneHdr entries) ++ encodeNat 4 (seq + 1)) ++
        entries.flatMap MapEntry.encode := by
  have sizes : CommonHdr.packed.size = 44 ∧ CkptHdr.packed.size = 40 := ⟨rfl, rfl⟩
  have objSize : ∀ o, (CkptObj.packed.encode o).length = 16 := Packed.encode_length _
  have common := (fetch_checkpoint (σ := ℕ) uuidBound seqBound size).2 []
  rw [List.append_nil] at common
  have second : CkptHdr.packed.decode ((serialiseCheckpoint uuid seq objects entries).drop 44) =
      ckptHdr objects entries := by
    rw [serialiseCheckpoint, List.drop_left' ((Packed.encode_length _ _).trans sizes.1)]
    simp only [List.append_assoc]
    exact Packed.decode_encode _ (ckpt_hdr_fits size) _
  have map : slice (serialiseCheckpoint uuid seq objects entries) (84 + objects.length * 16)
      (entries.length * 16) = entries.flatMap MapEntry.encode := by
    have start : (CommonHdr.packed.encode (ckptCommon uuid seq objects entries) ++
        (CkptHdr.packed.encode (ckptHdr objects entries) ++
          objects.flatMap CkptObj.packed.encode)).length = 84 + objects.length * 16 := by
      simp only [List.length_append, Packed.encode_length, encode_array_length objSize, sizes.1,
        sizes.2]
      omega
    rw [slice, serialiseCheckpoint]
    simp only [← List.append_assoc] at start ⊢
    rw [List.append_assoc, List.drop_left' start,
      List.take_left' (encode_array_length MapEntry.encode_length entries)]
  have mapLength := encode_array_length MapEntry.encode_length entries
  unfold cloneCheckpoint
  rw [sizes.1, sizes.2, common, second, ckpt_hdr_eq]
  simp only [map, mapLength]
  rw [show 44 + 40 + 4 + entries.length * 16 + 511 = 599 + entries.length * 16 by omega]
  simp only [List.append_assoc]
  rfl

theorem clone_common_fits (uuBound : uu < 2 ^ 128) (seqBound : seq < 2 ^ 31)
    (few : entries.length * 16 < 2 ^ 31) : CommonHdr.packed.Fits (cloneCommon uu seq entries) := by
  simp only [Packed.Fits, CommonHdr.packed, cloneCommon, List.zip_cons_cons, List.forall_mem_cons]
  norm_num [lsvdMagic, ObjType.code]
  omega

/-- A checkpoint of fewer than 512 bytes is refused as too short. One of more than 4096
bytes is not whole sectors, as the reader expects it. What is between is read back. -/
theorem read_clone_checkpoint_iff (uuidBound : uuid < 2 ^ 128) (uuBound : uu < 2 ^ 128)
    (seqBound : seq < 2 ^ 31) (size : ckptBytes objects entries < 2 ^ 31)
    (stored : ∀ e ∈ entries, e.Stored) :
    (∃ parsed, readCheckpoint (some (⟨cloneCheckpoint uu seq
        (serialiseCheckpoint uuid seq objects entries), []⟩ : Obj σ)) = .ok (some parsed) ∧
      parsed.objects = [] ∧ parsed.dmap = entries) ↔
    27 ≤ entries.length ∧ entries.length ≤ 250 := by
  have sizes : CommonHdr.packed.size = 44 ∧ CkptHdr.packed.size = 40 := ⟨rfl, rfl⟩
  have few : entries.length * 16 < 2 ^ 31 := by
    rw [ckptBytes, sizes.1, sizes.2] at size
    omega
  have commonFits : CommonHdr.packed.Fits (cloneCommon uu seq entries) :=
    clone_common_fits uuBound seqBound few
  have hdrFits : CkptHdr.packed.Fits (cloneHdr entries) := by
    simp only [Packed.Fits, CkptHdr.packed, cloneHdr, List.zip_cons_cons, List.forall_mem_cons]
    norm_num
    omega
  have cut := clone_checkpoint_eq uu uuidBound (by omega : seq < 2 ^ 32) size
  generalize cloneCheckpoint uu seq (serialiseCheckpoint uuid seq objects entries) = ckpt at cut ⊢
  set front := CommonHdr.packed.encode (cloneCommon uu seq entries) with frontDef
  set second := CkptHdr.packed.encode (cloneHdr entries) with secondDef
  have frontLength : front.length = 44 := Packed.encode_length _ _
  have secondLength : second.length = 40 := Packed.encode_length _ _
  have length : ckpt.length = 88 + entries.length * 16 := by
    simp only [cut, List.length_append, frontLength, secondLength, encode_nat_length,
      encode_array_length MapEntry.encode_length]
  have whole : (⟨ckpt, []⟩ : Obj σ).size = 88 + entries.length * 16 := by
    simp [Obj.size, length]
  -- the first 4096 bytes begin with the common header
  have common : CommonHdr.packed.decode (ckpt.take 4096 ++
      List.replicate (4096 - (ckpt.take 4096).length) 0) = cloneCommon uu seq entries := by
    rw [cut, List.append_assoc, List.take_append, List.take_of_length_le (by omega),
      List.append_assoc]
    exact Packed.decode_encode _ commonFits _
  have sectors : (cloneCommon uu seq entries).hdrSectors = (599 + entries.length * 16) / 512 := rfl
  constructor
  · rintro ⟨parsed, read, -⟩
    by_contra outside
    unfold readCheckpoint fetchObjectHeader at read
    simp only [common, whole, sectors] at read
    by_cases short : entries.length < 27
    · rw [if_pos (by omega)] at read
      cases read
    · rw [if_neg (by omega), if_neg (by simp [cloneCommon]), if_neg (by omega),
        if_pos (by omega)] at read
      cases read
  · rintro ⟨least, most⟩
    have fetched : fetchObjectHeader (some (⟨ckpt, []⟩ : Obj σ)) =
        .ok (some (ckpt ++ List.replicate (4096 - ckpt.length) 0)) := by
      unfold fetchObjectHeader
      simp only [common, whole, sectors]
      rw [if_neg (by omega), if_neg (by simp [cloneCommon]), if_pos (by omega),
        List.take_of_length_le (by omega)]
    rw [List.take_of_length_le (by omega)] at common
    generalize List.replicate (4096 - ckpt.length) (0 : UInt8) = pad at common fetched
    have decoded : CkptHdr.packed.decode ((ckpt ++ pad).drop CommonHdr.packed.size) =
        cloneHdr entries := by
      rw [cut]
      simp only [List.append_assoc]
      rw [List.drop_left' (frontLength.trans sizes.1.symm)]
      exact Packed.decode_encode _ hdrFits _
    have start : (front ++ (second ++ encodeNat 4 (seq + 1))).length = 88 := by
      simp only [List.length_append, frontLength, secondLength, encode_nat_length]
    have array := decode_array MapEntry.decode (by norm_num) MapEntry.encode_length
      (front ++ (second ++ encodeNat 4 (seq + 1))) pad entries
      (fun e member => MapEntry.decode_encode (stored e member))
    rw [start, ← cut] at array
    refine ⟨⟨cloneCommon uu seq entries, [], entries⟩, ?_, rfl, rfl⟩
    rw [readCheckpoint, fetched]
    change (if _ then _ else _) = _
    rw [common, if_neg (by simp [cloneCommon]), decoded]
    simp only [cloneHdr]
    rw [array]
    rfl

end Checkpoint

/-! ## Clones of an image -/

theorem read_obj_keeps (rados : Bool) {h : CommonHdr} (fits : CommonHdr.packed.Fits h)
    (body rest : Bytes) (counted : 44 + body.length ≤ 512 * h.hdrSectors) :
    ∃ rest', rest' <+: rest ∧ readObj rados (CommonHdr.packed.encode h ++ body ++ rest) =
      some (CommonHdr.packed.encode h ++ body ++ rest') := by
  have length : (CommonHdr.packed.encode h).length = 44 := Packed.encode_length _ h
  have hdrSize : CommonHdr.packed.size = 44 := rfl
  have cut : ∀ n, 44 + body.length ≤ n → (CommonHdr.packed.encode h ++ body ++ rest).take n =
      CommonHdr.packed.encode h ++ body ++ rest.take (n - (44 + body.length)) := by
    intro n long
    have front : (CommonHdr.packed.encode h ++ body).length = 44 + body.length := by
      rw [List.length_append, length]
    rw [List.take_append, List.take_of_length_le (by omega), front]
  cases rados with
  | false => exact ⟨rest, List.prefix_rfl, rfl⟩
  | true =>
      set obj := CommonHdr.packed.encode h ++ body ++ rest with objDef
      have objLength : obj.length = 44 + body.length + rest.length := by
        rw [objDef, List.length_append, List.length_append, length]
      have parsed : CommonHdr.packed.decode (obj.take 8192) = h := by
        rw [objDef, List.append_assoc, List.take_append, List.take_of_length_le (by omega)]
        exact Packed.decode_encode _ fits _
      unfold readObj
      simp only [if_true, parsed, hdrSize, List.length_take]
      rw [if_neg (by omega)]
      split
      · exact ⟨_, List.take_prefix _ _, congrArg some (cut _ counted)⟩
      · exact ⟨_, List.take_prefix _ _, congrArg some (cut _ (by omega))⟩

section Base

variable {buf super : Bytes} {ckpts : List ℕ} {uuid volSize seq : ℕ}

theorem read_base_superblock (rados : Bool) (reused : Reused buf) (numbers : ∀ c ∈ ckpts, c < 2 ^ 32)
    (uuidBound : uuid < 2 ^ 128) (sizeBound : volSize < 2 ^ 64)
    (last : ckpts.getLast? = some seq) (seqBound : seq < 2 ^ 31)
    (written : serialiseSuperblock buf ckpts [] uuid volSize = some super) :
    ∃ obj, readObj rados super = some obj ∧ 76 ≤ obj.length ∧ lastCheckpoint obj = some seq ∧
      (CommonHdr.packed.decode obj).uuid = uuid ∧
      (SuperHdr.packed.decode (obj.drop 44)).volSize = volSize / 512 := by
  have sizes : CommonHdr.packed.size = 44 ∧ SuperHdr.packed.size = 32 := ⟨rfl, rfl⟩
  have few := (serialise_superblock_defined written).2
  obtain ⟨rest, k, sectors, ⟨sectorsBound, counted⟩, same⟩ :=
    serialise_superblock_plain buf ckpts uuid volSize few
  rw [reused.clones_len k] at same
  cases written.symm.trans same
  set common : CommonHdr :=
    ⟨lsvdMagic, 1, uuid, ObjType.superblock.code, 0, sectors, 0, 0⟩ with commonDef
  have commonFits : CommonHdr.packed.Fits common := by
    simp only [Packed.Fits, CommonHdr.packed, commonDef, List.zip_cons_cons, List.forall_mem_cons]
    norm_num [lsvdMagic, ObjType.code]
    omega
  have arrayLength : (ckpts.flatMap (encodeNat 4)).length = ckpts.length * 4 :=
    encode_array_length (encode_nat_length 4) ckpts
  set hdr := SuperHdr.packed.encode (plainHdr ckpts 0 volSize) with hdrDef
  have hdrLength : hdr.length = 32 := Packed.encode_length _ _
  obtain ⟨rest', -, read⟩ := read_obj_keeps rados commonFits (hdr ++ ckpts.flatMap (encodeNat 4)) rest
    (by rw [List.length_append, hdrLength, arrayLength]; simp only [commonDef]; omega)
  simp only [← List.append_assoc] at read
  set obj := CommonHdr.packed.encode common ++ hdr ++ ckpts.flatMap (encodeNat 4) ++ rest' with objDef
  have headers : (CommonHdr.packed.encode common ++ hdr).length = 76 := by
    rw [List.length_append, Packed.encode_length, hdrLength, sizes.1]
  have first : CommonHdr.packed.decode obj = common := by
    rw [objDef, List.append_assoc, List.append_assoc]
    exact Packed.decode_encode _ commonFits _
  have second : SuperHdr.packed.decode (obj.drop 44) = plainHdr ckpts 0 volSize := by
    rw [objDef, List.append_assoc, List.append_assoc]
    exact decode_second _ (plain_hdr_fits sizeBound few) _
  have found : lastCheckpoint obj = some seq := by
    have array : slice obj 76 (ckpts.length * 4) = ckpts.flatMap (encodeNat 4) := by
      rw [slice, objDef, List.append_assoc, List.drop_left' headers, List.take_left' arrayLength]
    have decoded := decode_array decodeNat (by norm_num) (encode_nat_length 4) [] [] ckpts (by
      intro c member
      exact decode_encode_nat 4 c (by have := numbers c member; norm_num; omega))
    simp only [List.nil_append, List.append_nil, List.length_nil] at decoded
    unfold lastCheckpoint
    rw [sizes.1, second]
    simp only [plainHdr, array, arrayLength, decoded, last, if_pos seqBound]
  refine ⟨obj, read, ?_, found, by rw [first], by rw [second]; rfl⟩
  rw [objDef, List.length_append, List.length_append, headers]
  omega

end Base

/-- What a clone should be: one base with its name and last object, one checkpoint of
its own with the base's map and no object records. -/
def OpensAsClone (old : Bytes) (seq : ℕ) (entries : List MapEntry) (clone : Clone) : Prop :=
  (∃ sb, readSuperblock (some clone.super) = .ok sb ∧ sb.ckpts = [seq + 1] ∧
    sb.clones.map (fun c => (c.name, c.lastSeq)) = [(old, seq)]) ∧
  ∃ parsed, readCheckpoint (some (⟨clone.ckpt, []⟩ : Obj σ)) = .ok (some parsed) ∧
    parsed.objects = [] ∧ parsed.dmap = entries

/-- `mk_clone` completes for every image with a checkpoint. Its superblock has the one
checkpoint and always two clone bases, the second without a name; so no clone is what it
should be. Its checkpoint is read back exactly if the map has 27 to 250 entries. -/
theorem clone_never_opens (rados : Bool) {buf super : Bytes} (reused : Reused buf)
    {ckpts : List ℕ} (numbers : ∀ c ∈ ckpts, c < 2 ^ 32) {uuid volSize seq uu : ℕ}
    (uuidBound : uuid < 2 ^ 128) (sizeBound : volSize < 2 ^ 64) (uuBound : uu < 2 ^ 128)
    (last : ckpts.getLast? = some seq) (seqBound : seq < 2 ^ 31)
    (written : serialiseSuperblock buf ckpts [] uuid volSize = some super)
    {objects : List CkptObj} {entries : List MapEntry} (size : ckptBytes objects entries < 2 ^ 31)
    (stored : ∀ e ∈ entries, e.Stored) {numbered : ℕ → Option Bytes}
    (checkpoint : numbered seq = some (serialiseCheckpoint uuid seq objects entries))
    {old new : Bytes} (short : old.length ≤ 255) (names : named rados old ∧ named rados new) :
    ∃ clone, mkClone rados old new uu super numbered = some clone ∧ clone.number = seq + 1 ∧
      (∃ sb, readSuperblock (some clone.super) = .ok sb ∧ sb.ckpts = [seq + 1] ∧
        sb.clones = [⟨old, seq, seq + 1⟩, ⟨[], 0, 1⟩]) ∧
      ((∃ parsed, readCheckpoint (some (⟨clone.ckpt, []⟩ : Obj σ)) = .ok (some parsed) ∧
        parsed.objects = [] ∧ parsed.dmap = entries) ↔ 27 ≤ entries.length ∧ entries.length ≤ 250) ∧
      ¬OpensAsClone (σ := σ) old seq entries clone := by
  have sizes : CommonHdr.packed.size = 44 ∧ SuperHdr.packed.size = 32 ∧ CkptHdr.packed.size = 40 :=
    ⟨rfl, rfl, rfl⟩
  obtain ⟨obj, read, long, found, baseUuid, baseSize⟩ :=
    read_base_superblock rados reused numbers uuidBound sizeBound last seqBound written
  -- the worker's checkpoint is as long as its header says
  have whole : readObj rados (serialiseCheckpoint uuid seq objects entries) =
      some (serialiseCheckpoint uuid seq objects entries) := by
    have fits := ckpt_common_fits uuidBound (by omega : seq < 2 ^ 32) size
    have length := serialise_checkpoint_length uuid seq objects entries
    rw [serialiseCheckpoint, List.length_append, Packed.encode_length, sizes.1] at length
    obtain ⟨rest, isPrefix, kept⟩ := read_obj_keeps rados fits _ [] length.le
    rw [List.prefix_nil.mp isPrefix, List.append_nil] at kept
    rw [serialiseCheckpoint]
    exact kept
  have ckptLong : ¬(serialiseCheckpoint uuid seq objects entries).length < 44 + 40 := by
    rw [serialiseCheckpoint, List.length_append, List.length_append, List.length_append,
      List.length_append, Packed.encode_length, Packed.encode_length, sizes.1, sizes.2.2]
    omega
  have sb := read_clone_superblock short uuBound seqBound uuidBound
    (by omega : volSize / 512 < 2 ^ 64)
  refine ⟨⟨cloneSuperblock old uu seq uuid (volSize / 512), seq + 1,
    cloneCheckpoint uu seq (serialiseCheckpoint uuid seq objects entries)⟩, ?_, rfl,
    ⟨_, sb, rfl, rfl⟩, read_clone_checkpoint_iff uuidBound uuBound seqBound size stored, ?_⟩
  · rw [mkClone, if_pos names, read, Option.bind_some, sizes.1, sizes.2.1, sizes.2.2,
      if_neg (by omega)]
    simp only [found, Option.bind_some, checkpoint, whole, if_neg ckptLong, baseUuid, baseSize]
  · rintro ⟨⟨other, readOther, -, one⟩, -⟩
    obtain rfl := Except.ok.inj (sb.symm.trans readOther)
    simp at one

def stripes (n : ℕ) : List MapEntry :=
  (List.range n).map fun i : ℕ => .store (16 * (i : ℤ)) 8 1 (8 * (i : ℤ))

def stripedBase (n : ℕ) (seq : ℕ) : Option Bytes :=
  if seq = 3 then some (serialiseCheckpoint 7 3 [⟨1, 9, 8 * n, 8 * n⟩] (stripes n)) else none

theorem stripes_length (n : ℕ) : (stripes n).length = n := by
  rw [stripes, List.length_map, List.length_range]

theorem stripes_stored (n : ℕ) : ∀ e ∈ stripes n, e.Stored := by
  intro e member
  obtain ⟨i, -, rfl⟩ := List.mem_map.mp member
  exact MapEntry.store_stored _ _ _ _

theorem striped_bytes (objects : List CkptObj) (n : ℕ) :
    ckptBytes objects (stripes n) = 84 + n * 16 + objects.length * 16 := by
  rw [ckptBytes, stripes_length]
  rfl

/-- A clone of a map of 100 extents, in files, and of 300, in a pool. -/
theorem clone_never_opens_striped : ∃ super first second,
    serialiseSuperblock (List.replicate 4096 0) [3] [] 7 1024 = some super ∧
      mkClone false [98] [99] 9 super (stripedBase 100) = some first ∧
      mkClone true [97, 47, 98] [97, 47, 99] 9 super (stripedBase 300) = some second ∧
      (∃ parsed, readCheckpoint (some (⟨first.ckpt, []⟩ : Obj ℕ)) = .ok (some parsed) ∧
        parsed.dmap = stripes 100) ∧
      (¬∃ parsed, readCheckpoint (some (⟨second.ckpt, []⟩ : Obj ℕ)) = .ok (some parsed) ∧
        parsed.objects = [] ∧ parsed.dmap = stripes 300) ∧
      ¬OpensAsClone (σ := ℕ) [98] 3 (stripes 100) first ∧
      ¬OpensAsClone (σ := ℕ) [97, 47, 98] 3 (stripes 300) second := by
  obtain ⟨super, written, -⟩ := @plain_superblock_reads_back _ (.fresh 4096) [3] (by simp) 7 1024
    (by norm_num) (by norm_num) (by norm_num)
  obtain ⟨first, madeFirst, -, -, read, closedFirst⟩ := @clone_never_opens ℕ false _ _ (.fresh 4096)
    [3] (by simp) 7 1024 3 9 (by norm_num) (by norm_num) (by norm_num) rfl (by norm_num) written
    [⟨1, 9, 800, 800⟩] (stripes 100) (by rw [striped_bytes]; decide) (stripes_stored 100)
    (stripedBase 100) rfl [98] [99] (by simp) (by decide)
  obtain ⟨second, madeSecond, -, -, unread, closedSecond⟩ := @clone_never_opens ℕ true _ _
    (.fresh 4096) [3] (by simp) 7 1024 3 9 (by norm_num) (by norm_num) (by norm_num) rfl
    (by norm_num) written [⟨1, 9, 2400, 2400⟩] (stripes 300) (by rw [striped_bytes]; decide)
    (stripes_stored 300) (stripedBase 300) rfl [97, 47, 98] [97, 47, 99] (by simp) (by decide)
  rw [stripes_length] at read unread
  obtain ⟨parsed, same, -, map⟩ := read.mpr (by norm_num)
  exact ⟨super, first, second, written, madeFirst, madeSecond, ⟨parsed, same, map⟩,
    fun reads => absurd (unread.mp reads) (by norm_num), closedFirst, closedSecond⟩

def emptyBase (n : ℕ) : Option Bytes :=
  if n = 3 then some (serialiseCheckpoint 7 3 [] []) else none

/-- The clone of that image has a second base without a name, and its checkpoint is too
short to be read. -/
theorem clone_of_empty_base : ∃ super clone sb,
    serialiseSuperblock (List.replicate 4096 0) [3] [] 7 1024 = some super ∧
      mkClone false [98] [99] 9 super emptyBase = some clone ∧
      readSuperblock (some clone.super) = .ok sb ∧ sb.clones = [⟨[98], 3, 4⟩, ⟨[], 0, 1⟩] ∧
      readCheckpoint (some (⟨clone.ckpt, []⟩ : Obj ℕ)) = .error .shortRead := by
  obtain ⟨super, written, held⟩ := (Option.any_eq_true _ _).mp (by decide +kernel :
    (serialiseSuperblock (List.replicate 4096 0) [3] [] 7 1024).any (fun super =>
      (mkClone false [98] [99] 9 super emptyBase).any (fun clone =>
        (match readSuperblock (some clone.super) with
        | .ok sb => decide (sb.clones = [⟨[98], 3, 4⟩, ⟨[], 0, 1⟩])
        | .error _ => false) &&
        (match readCheckpoint (some (⟨clone.ckpt, []⟩ : Obj ℕ)) with
        | .error .shortRead => true
        | _ => false))) = true)
  obtain ⟨clone, made, reads⟩ := (Option.any_eq_true _ _).mp held
  obtain ⟨bases, ckpt⟩ := (Bool.and_eq_true _ _).mp reads
  split at bases
  · next sb read =>
      split at ckpt
      · next short =>
          exact ⟨super, clone, sb, written, made, read, of_decide_eq_true bases, short⟩
      · cases ckpt
  · cases bases

end LsvdRbd.Format
