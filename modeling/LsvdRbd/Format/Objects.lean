import LsvdRbd.Lib.Records
import LsvdRbd.ExtentMap.Layout

/-!
# Backend objects

The packed structures of `objects.h`, the header that `make_obj_hdr` writes in
front of a data object, and the readers of `objects.cc`. An object is its
header bytes followed by data sectors; every object the program writes has a
header of at least 4096 bytes or no data at all, so reads of the header never
reach into the data.
-/

namespace LsvdRbd.Format

open Records ExtentMap

set_option autoImplicit false

/-- What the readers of `objects.cc` throw. -/
inductive Fault
  | shortRead
  | noSuperblock
  | noCheckpoint
  | negativeLive
  deriving DecidableEq, Repr

inductive ObjType
  | superblock
  | logData
  | checkpoint
  deriving DecidableEq, Repr

def ObjType.code : ObjType → ℕ
  | superblock => 1
  | logData => 2
  | checkpoint => 3

def lsvdMagic : ℕ := 0x4456534c

def divRoundUp (n m : ℕ) : ℕ := (n + m - 1) / m

/-- An object in the backend: header bytes, then data sectors. -/
structure Obj (σ : Type*) where
  hdr : Bytes
  data : List σ
  deriving DecidableEq, Repr

def Obj.size {σ : Type*} (obj : Obj σ) : ℕ := obj.hdr.length + 512 * obj.data.length

/-! ## Packed structures -/

/-- `common_obj_hdr`; the uuid is one 128-bit number. -/
structure CommonHdr where
  magic : ℕ
  version : ℕ
  uuid : ℕ
  type : ℕ
  seq : ℕ
  hdrSectors : ℕ
  dataSectors : ℕ
  crc : ℕ
  deriving DecidableEq, Repr

def CommonHdr.packed : Packed CommonHdr where
  widths := [4, 4, 16, 4, 4, 4, 4, 4]
  fields h := [h.magic, h.version, h.uuid, h.type, h.seq, h.hdrSectors, h.dataSectors, h.crc]
  build f := ⟨f.getD 0 0, f.getD 1 0, f.getD 2 0, f.getD 3 0, f.getD 4 0, f.getD 5 0, f.getD 6 0,
    f.getD 7 0⟩
  arity _ := rfl
  build_fields _ := rfl

structure DataHdr where
  cacheSeq : ℕ
  objsCleanedOffset : ℕ
  objsCleanedLen : ℕ
  dataMapOffset : ℕ
  dataMapLen : ℕ
  isGc : ℕ
  deriving DecidableEq, Repr

def DataHdr.packed : Packed DataHdr where
  widths := [8, 4, 4, 4, 4, 4]
  fields h := [h.cacheSeq, h.objsCleanedOffset, h.objsCleanedLen, h.dataMapOffset, h.dataMapLen,
    h.isGc]
  build f := ⟨f.getD 0 0, f.getD 1 0, f.getD 2 0, f.getD 3 0, f.getD 4 0, f.getD 5 0⟩
  arity _ := rfl
  build_fields _ := rfl

structure CkptHdr where
  cacheSeq : ℕ
  ckptsOffset : ℕ
  ckptsLen : ℕ
  objsOffset : ℕ
  objsLen : ℕ
  deletesOffset : ℕ
  deletesLen : ℕ
  mapOffset : ℕ
  mapLen : ℕ
  deriving DecidableEq, Repr

def CkptHdr.packed : Packed CkptHdr where
  widths := [8, 4, 4, 4, 4, 4, 4, 4, 4]
  fields h := [h.cacheSeq, h.ckptsOffset, h.ckptsLen, h.objsOffset, h.objsLen, h.deletesOffset,
    h.deletesLen, h.mapOffset, h.mapLen]
  build f := ⟨f.getD 0 0, f.getD 1 0, f.getD 2 0, f.getD 3 0, f.getD 4 0, f.getD 5 0, f.getD 6 0,
    f.getD 7 0, f.getD 8 0⟩
  arity _ := rfl
  build_fields _ := rfl

structure CkptObj where
  seq : ℕ
  hdrSectors : ℕ
  dataSectors : ℕ
  liveSectors : ℕ
  deriving DecidableEq, Repr

def CkptObj.packed : Packed CkptObj where
  widths := [4, 4, 4, 4]
  fields o := [o.seq, o.hdrSectors, o.dataSectors, o.liveSectors]
  build f := ⟨f.getD 0 0, f.getD 1 0, f.getD 2 0, f.getD 3 0⟩
  arity _ := rfl
  build_fields _ := rfl

/-- `data_map`: an address of 36 bits and a length of 28, both unsigned, in one
64-bit word. -/
structure DataMap where
  lba : ℤ
  len : ℤ
  deriving DecidableEq, Repr

namespace DataMap

def store (lba len : ℤ) : DataMap := ⟨unsignedField 36 lba, unsignedField 28 len⟩

def encode (d : DataMap) : Bytes := encodeNat 8 (d.lba.toNat + d.len.toNat * 2 ^ 36)

def decode (bytes : Bytes) : DataMap :=
  let word := decodeNat bytes
  ⟨(word % 2 ^ 36 : ℕ), (word / 2 ^ 36 : ℕ)⟩

structure Fits (d : DataMap) : Prop where
  lbaLower : 0 ≤ d.lba
  lbaUpper : d.lba < 2 ^ 36
  lenLower : 0 ≤ d.len
  lenUpper : d.len < 2 ^ 28

theorem encode_length (d : DataMap) : d.encode.length = 8 := encode_nat_length _ _

theorem decode_encode {d : DataMap} (fits : d.Fits) : decode d.encode = d := by
  obtain ⟨lba, len⟩ := d
  obtain ⟨lbaLower, lbaUpper, lenLower, lenUpper⟩ := fits
  obtain ⟨lba, rfl⟩ := Int.eq_ofNat_of_zero_le lbaLower
  obtain ⟨len, rfl⟩ := Int.eq_ofNat_of_zero_le lenLower
  simp only at lbaUpper lenUpper
  have word : decodeNat (encodeNat 8 (lba + len * 2 ^ 36)) = lba + len * 2 ^ 36 :=
    decode_encode_nat 8 _ (by norm_num; omega)
  have low : (lba + len * 2 ^ 36) % 2 ^ 36 = lba := by omega
  have high : (lba + len * 2 ^ 36) / 2 ^ 36 = len := by omega
  simp only [decode, encode, Int.toNat_natCast, word, low, high]

end DataMap

/-- `ckpt_mapentry`: an address of 36 bits and a length of 28, both signed, and
a 32-bit object number and offset. The same structure lists the extents of a
request in `translate_req`. -/
structure MapEntry where
  lba : ℤ
  len : ℤ
  obj : ℤ
  offset : ℤ
  deriving DecidableEq, Repr

namespace MapEntry

def store (lba len obj offset : ℤ) : MapEntry :=
  ⟨signedField 36 lba, signedField 28 len, signedField 32 obj, signedField 32 offset⟩

def encode (e : MapEntry) : Bytes :=
  encodeNat 8 ((unsignedField 36 e.lba).toNat + (unsignedField 28 e.len).toNat * 2 ^ 36) ++
    encodeNat 4 (unsignedField 32 e.obj).toNat ++ encodeNat 4 (unsignedField 32 e.offset).toNat

def decode (bytes : Bytes) : MapEntry :=
  let word := decodeNat (bytes.take 8)
  store (word % 2 ^ 36 : ℕ) (word / 2 ^ 36 : ℕ) (decodeNat ((bytes.drop 8).take 4))
    (decodeNat ((bytes.drop 12).take 4))

structure Fits (e : MapEntry) : Prop where
  lbaLower : 0 ≤ e.lba
  lbaUpper : e.lba < 2 ^ 35
  lenLower : 0 ≤ e.len
  lenUpper : e.len < 2 ^ 27
  objLower : 0 ≤ e.obj
  objUpper : e.obj < 2 ^ 31
  offsetLower : 0 ≤ e.offset
  offsetUpper : e.offset < 2 ^ 31

theorem encode_length (e : MapEntry) : e.encode.length = 16 := by
  simp [encode]

theorem Fits.store_eq {lba len obj offset : ℤ} (fits : Fits ⟨lba, len, obj, offset⟩) :
    store lba len obj offset = ⟨lba, len, obj, offset⟩ := by
  obtain ⟨lbaLower, lbaUpper, lenLower, lenUpper, objLower, objUpper, offLower, offUpper⟩ := fits
  simp only at *
  unfold store
  rw [signed_field_of_range 35 lba (by omega) lbaUpper,
    signed_field_of_range 27 len (by omega) lenUpper,
    signed_field_of_range 31 obj (by omega) objUpper,
    signed_field_of_range 31 offset (by omega) offUpper]

def Stored (e : MapEntry) : Prop := store e.lba e.len e.obj e.offset = e

theorem store_stored (lba len obj offset : ℤ) : (store lba len obj offset).Stored := by
  simp [Stored, store, signedField]

theorem decode_encode {e : MapEntry} (stored : e.Stored) : decode e.encode = e := by
  obtain ⟨lba, len, obj, offset⟩ := e
  have field : ∀ (bits : ℕ) (value : ℤ), ((unsignedField bits value).toNat : ℤ) = value % 2 ^ bits ∧
      (unsignedField bits value).toNat < 2 ^ bits := by
    intro bits value
    have positive : (0 : ℤ) < 2 ^ bits := by positivity
    have lower : 0 ≤ value % 2 ^ bits := Int.emod_nonneg _ positive.ne'
    have upper : value % 2 ^ bits < 2 ^ bits := Int.emod_lt_of_pos _ positive
    refine ⟨Int.toNat_of_nonneg lower, ?_⟩
    zify
    rw [unsignedField, Int.toNat_of_nonneg lower]
    exact upper
  obtain ⟨lbaField, lbaUpper⟩ := field 36 lba
  obtain ⟨lenField, lenUpper⟩ := field 28 len
  obtain ⟨objField, objUpper⟩ := field 32 obj
  obtain ⟨offField, offUpper⟩ := field 32 offset
  simp only [encode, decode]
  generalize (unsignedField 36 lba).toNat = lbaBits at *
  generalize (unsignedField 28 len).toNat = lenBits at *
  generalize (unsignedField 32 obj).toNat = objBits at *
  generalize (unsignedField 32 offset).toNat = offBits at *
  rw [List.append_assoc, List.take_left' (by simp), List.drop_left' (by simp),
    List.take_left' (by simp), ← List.append_assoc, List.drop_left' (by simp),
    List.take_of_length_le (by simp), decode_encode_nat 8 _ (by norm_num; omega),
    decode_encode_nat 4 _ (by norm_num; omega), decode_encode_nat 4 _ (by norm_num; omega),
    show (lbaBits + lenBits * 2 ^ 36) % 2 ^ 36 = lbaBits by omega,
    show (lbaBits + lenBits * 2 ^ 36) / 2 ^ 36 = lenBits by omega, lbaField, lenField, objField,
    offField, ← stored]
  simp only [store, signedField, MapEntry.mk.injEq]
  have cut : ∀ (bits : ℕ) (value : ℤ),
      (value % 2 ^ bits).bmod (2 ^ bits) = value.bmod (2 ^ bits) := by
    intro bits value
    have := @Int.emod_bmod value (2 ^ bits)
    push_cast at this
    exact this
  exact ⟨cut 36 lba, cut 28 len, cut 32 obj, cut 32 offset⟩

end MapEntry

end LsvdRbd.Format
