import LsvdRbd.Format.Objects

/-!
# Data objects on the wire

`make_obj_hdr` writes a header whose length depends on the number of extents;
`read_data_hdr` fetches 4096 bytes first and the rest only if the header says
that there is more. The round trip holds for headers of every length.
-/

namespace LsvdRbd.Format

open Records ExtentMap

set_option autoImplicit false

variable {σ : Type*}

/-- The header sectors of a data object with `n` extents: whole pages. -/
def hdrSectorsFor (n : ℕ) : ℕ :=
  divRoundUp (CommonHdr.packed.size + DataHdr.packed.size + n * 8) 4096 * 8

section MakeObjHdr

-- zlib's `crc32`; no reader of a header looks at the field it fills
variable (crc32 : Bytes → ℕ)

def makeObjHdr (uuid seq hdrSectors dataSectors : ℕ) (extents : List DataMap) (isGc : Bool) :
    Bytes :=
  let mapOffset := CommonHdr.packed.size + DataHdr.packed.size
  let mapLen := extents.length * 8
  let h : CommonHdr := ⟨lsvdMagic, 1, uuid, ObjType.logData.code, seq, hdrSectors, dataSectors, 0⟩
  let dh : DataHdr := ⟨0, 0, 0, mapOffset, mapLen, if isGc then 1 else 0⟩
  let body := DataHdr.packed.encode dh ++ extents.flatMap DataMap.encode ++
    List.replicate (512 * hdrSectors - (mapOffset + mapLen)) 0
  let crc := crc32 (CommonHdr.packed.encode h ++ body) % 2 ^ 32
  CommonHdr.packed.encode { h with crc := crc } ++ body

theorem make_obj_hdr_length (uuid seq hdrSectors dataSectors : ℕ) (extents : List DataMap)
    (isGc : Bool) (room : 72 + extents.length * 8 ≤ 512 * hdrSectors) :
    (makeObjHdr crc32 uuid seq hdrSectors dataSectors extents isGc).length = 512 * hdrSectors := by
  have sizes : CommonHdr.packed.size = 44 ∧ DataHdr.packed.size = 28 := ⟨rfl, rfl⟩
  simp only [makeObjHdr, List.length_append, Packed.encode_length, List.length_replicate,
    encode_array_length DataMap.encode_length, sizes.1, sizes.2]
  omega

end MakeObjHdr

/-- `fetch_object_header`: 4096 bytes, or as many as the header says. A missing
object gives nothing; the buffer starts out zeroed. -/
def fetchObjectHeader (obj : Option (Obj σ)) : Except Fault (Option Bytes) :=
  match obj with
  | none => .ok none
  | some obj =>
      let buf := obj.hdr.take 4096 ++ List.replicate (4096 - (obj.hdr.take 4096).length) 0
      let h := CommonHdr.packed.decode buf
      if min obj.size 4096 < 512 then .error .shortRead
      else if h.magic ≠ lsvdMagic ∨ h.version ≠ 1 then .ok none
      else if h.hdrSectors ≤ 8 then .ok (some buf)
      else
        let len := h.hdrSectors * 512 % 2 ^ 32
        if min obj.size len ≠ len then .ok none
        else .ok (some (obj.hdr.take len ++ buf.drop len))

/-- `parsed_data_hdr`, without the list of cleaned objects that nothing reads. -/
structure ParsedDataHdr where
  hdr : CommonHdr
  dataHdr : DataHdr
  dataMap : List DataMap
  deriving DecidableEq, Repr

def readDataHdr (obj : Option (Obj σ)) : Except Fault (Option ParsedDataHdr) := do
  match ← fetchObjectHeader obj with
  | none => return none
  | some buf =>
      let hdr := CommonHdr.packed.decode buf
      if hdr.type ≠ ObjType.logData.code then return none
      let dataHdr := DataHdr.packed.decode (buf.drop CommonHdr.packed.size)
      return some ⟨hdr, dataHdr, decodeArray 8 DataMap.decode buf dataHdr.dataMapOffset
        dataHdr.dataMapLen⟩

theorem fetch_object_header_eq (obj : Obj σ) {h : CommonHdr} {rest : Bytes}
    (start : obj.hdr = CommonHdr.packed.encode h ++ rest) (fits : CommonHdr.packed.Fits h)
    (magic : h.magic = lsvdMagic) (version : h.version = 1)
    (length : obj.hdr.length = 512 * h.hdrSectors) (positive : 0 < h.hdrSectors)
    (bound : h.hdrSectors < 2 ^ 23) :
    fetchObjectHeader (some obj) =
      .ok (some (obj.hdr ++ List.replicate (4096 - obj.hdr.length) 0)) := by
  have prefixSize : (CommonHdr.packed.encode h).length = 44 := Packed.encode_length _ h
  have takeStart : ∃ tail, obj.hdr.take 4096 ++
      List.replicate (4096 - (obj.hdr.take 4096).length) 0 = CommonHdr.packed.encode h ++ tail := by
    refine ⟨rest.take (4096 - 44) ++ List.replicate (4096 - (obj.hdr.take 4096).length) 0, ?_⟩
    have cut : obj.hdr.take 4096 = CommonHdr.packed.encode h ++ rest.take (4096 - 44) := by
      rw [start, List.take_append, prefixSize,
        List.take_of_length_le (by rw [prefixSize]; omega)]
    rw [cut, List.append_assoc]
  obtain ⟨tail, bufStart⟩ := takeStart
  have parsed : CommonHdr.packed.decode (obj.hdr.take 4096 ++
      List.replicate (4096 - (obj.hdr.take 4096).length) 0) = h := by
    rw [bufStart]
    exact Packed.decode_encode _ fits tail
  have enough : ¬min obj.size 4096 < 512 := by
    unfold Obj.size
    omega
  unfold fetchObjectHeader
  simp only [parsed, magic, version, enough, if_false, ne_eq, not_true, or_self]
  by_cases short : h.hdrSectors ≤ 8
  · rw [if_pos short, List.take_of_length_le (by omega)]
  · have len : h.hdrSectors * 512 % 2 ^ 32 = obj.hdr.length := by omega
    have whole : min obj.size obj.hdr.length = obj.hdr.length := by
      unfold Obj.size
      omega
    rw [if_neg short, len, if_neg (by simpa using whole), List.take_length]
    congr 3
    rw [show 4096 - obj.hdr.length = 0 by omega]
    simp
    omega

/-- Reading a data object gives back the header fields and the extents that
`make_obj_hdr` was called with. -/
theorem read_data_hdr_round_trip (crc32 : Bytes → ℕ) {uuid seq hdrSectors dataSectors : ℕ}
    {extents : List DataMap} {isGc : Bool} (data : List σ) (uuidBound : uuid < 2 ^ 128)
    (seqBound : seq < 2 ^ 32) (hdrBound : hdrSectors < 2 ^ 23) (dataBound : dataSectors < 2 ^ 32)
    (room : 72 + extents.length * 8 ≤ 512 * hdrSectors) (fits : ∀ d ∈ extents, d.Fits) :
    ∃ parsed, readDataHdr (some ⟨makeObjHdr crc32 uuid seq hdrSectors dataSectors extents isGc,
        data⟩) = .ok (some parsed) ∧
      parsed.hdr.type = ObjType.logData.code ∧ parsed.hdr.uuid = uuid ∧ parsed.hdr.seq = seq ∧
      parsed.hdr.hdrSectors = hdrSectors ∧ parsed.hdr.dataSectors = dataSectors ∧
      parsed.dataMap = extents := by
  have sizes : CommonHdr.packed.size = 44 ∧ DataHdr.packed.size = 28 := ⟨rfl, rfl⟩
  set dh : DataHdr := ⟨0, 0, 0, 72, extents.length * 8, if isGc then 1 else 0⟩ with dhDef
  set pad : Bytes := List.replicate (512 * hdrSectors - (72 + extents.length * 8)) 0
  obtain ⟨crc, crcBound, bytes⟩ : ∃ crc < 2 ^ 32,
      makeObjHdr crc32 uuid seq hdrSectors dataSectors extents isGc =
        CommonHdr.packed.encode ⟨lsvdMagic, 1, uuid, ObjType.logData.code, seq, hdrSectors,
          dataSectors, crc⟩ ++ (DataHdr.packed.encode dh ++ extents.flatMap DataMap.encode ++ pad) :=
    ⟨_, Nat.mod_lt _ (by norm_num), rfl⟩
  set h : CommonHdr :=
    ⟨lsvdMagic, 1, uuid, ObjType.logData.code, seq, hdrSectors, dataSectors, crc⟩ with hDef
  have hFits : CommonHdr.packed.Fits h := by
    simp only [Packed.Fits, CommonHdr.packed, hDef, List.zip_cons_cons, List.forall_mem_cons]
    norm_num [lsvdMagic, ObjType.code]
    omega
  have dhFits : DataHdr.packed.Fits dh := by
    simp only [Packed.Fits, DataHdr.packed, dhDef, List.zip_cons_cons, List.forall_mem_cons]
    norm_num
    refine ⟨by omega, ?_⟩
    split <;> norm_num
  have length := make_obj_hdr_length crc32 uuid seq hdrSectors dataSectors extents isGc room
  have fetched := fetch_object_header_eq (⟨makeObjHdr crc32 uuid seq hdrSectors dataSectors
    extents isGc, data⟩) bytes hFits rfl rfl length (by simp only [hDef]; omega) hdrBound
  set tail : Bytes := pad ++ List.replicate (4096 -
    (makeObjHdr crc32 uuid seq hdrSectors dataSectors extents isGc).length) 0
  have buffer : makeObjHdr crc32 uuid seq hdrSectors dataSectors extents isGc ++
      List.replicate (4096 -
        (makeObjHdr crc32 uuid seq hdrSectors dataSectors extents isGc).length) 0 =
      CommonHdr.packed.encode h ++ DataHdr.packed.encode dh ++
        extents.flatMap DataMap.encode ++ tail := by
    conv_lhs => rw [bytes]
    simp only [List.append_assoc, tail, bytes]
  have common : CommonHdr.packed.decode (CommonHdr.packed.encode h ++ DataHdr.packed.encode dh ++
      extents.flatMap DataMap.encode ++ tail) = h := by
    rw [List.append_assoc, List.append_assoc]
    exact Packed.decode_encode _ hFits _
  have second : DataHdr.packed.decode ((CommonHdr.packed.encode h ++ DataHdr.packed.encode dh ++
      extents.flatMap DataMap.encode ++ tail).drop CommonHdr.packed.size) = dh := by
    rw [List.append_assoc, List.append_assoc, List.drop_left' (Packed.encode_length _ h)]
    exact Packed.decode_encode _ dhFits _
  have front : (CommonHdr.packed.encode h ++ DataHdr.packed.encode dh).length = 72 := by
    simp [Packed.encode_length, sizes.1, sizes.2]
  have array := decode_array DataMap.decode (by norm_num) DataMap.encode_length
    (CommonHdr.packed.encode h ++ DataHdr.packed.encode dh) tail extents
    (fun d member => DataMap.decode_encode (fits d member))
  rw [front] at array
  refine ⟨⟨h, dh, extents⟩, ?_, rfl, rfl, rfl, rfl, rfl, rfl⟩
  rw [readDataHdr, fetched]
  simp only [buffer]
  change (if _ then _ else _) = _
  rw [common, if_neg (by simp [hDef]), second]
  simp only [dhDef] at array ⊢
  rw [array]
  rfl

end LsvdRbd.Format
