import LsvdRbd.Format.DataObject

/-!
# The superblock

`serialise_superblock` writes the checkpoint numbers and the clone bases of an
image into a buffer that `translate_impl` uses again for every checkpoint; the
bytes it does not write are those of the last time. `read_superblock` walks the
records by the lengths it finds in them.
-/

namespace LsvdRbd.Format

open Records

set_option autoImplicit false

structure SuperHdr where
  volSize : ℕ
  ckptsOffset : ℕ
  ckptsLen : ℕ
  clonesOffset : ℕ
  clonesLen : ℕ
  snapsOffset : ℕ
  snapsLen : ℕ
  deriving DecidableEq, Repr

def SuperHdr.packed : Packed SuperHdr where
  widths := [8, 4, 4, 4, 4, 4, 4]
  fields h := [h.volSize, h.ckptsOffset, h.ckptsLen, h.clonesOffset, h.clonesLen, h.snapsOffset,
    h.snapsLen]
  build f := ⟨f.getD 0 0, f.getD 1 0, f.getD 2 0, f.getD 3 0, f.getD 4 0, f.getD 5 0, f.getD 6 0⟩
  arity _ := rfl
  build_fields _ := rfl

/-- The part of `clone_info` before the name. -/
structure CloneInfo where
  uuid : ℕ
  lastSeq : ℕ
  nameLen : ℕ
  deriving DecidableEq, Repr

def CloneInfo.packed : Packed CloneInfo where
  widths := [16, 4, 1]
  fields c := [c.uuid, c.lastSeq, c.nameLen]
  build f := ⟨f.getD 0 0, f.getD 1 0, f.getD 2 0⟩
  arity _ := rfl
  build_fields _ := rfl

structure CloneBase where
  name : Bytes
  lastSeq : ℕ
  firstSeq : ℕ
  deriving DecidableEq, Repr

/-! ## Writing -/

def storeAt (buf : Bytes) (start : ℕ) (bytes : Bytes) : Bytes :=
  buf.take start ++ bytes ++ buf.drop (start + bytes.length)

def roundUp (n m : ℕ) : ℕ := m * divRoundUp n m

/-- The source of the `uuid_copy` into a clone record: the code passes a null
pointer, which `uuid_copy` reads from. -/
def cloneUuid : Option ℕ := none

/-- One clone record, at a position of the buffer; the length is added to what
`clones_len` held before. -/
def serialiseClone (acc : Bytes × ℕ × ℕ) (c : CloneBase) : Option (Bytes × ℕ × ℕ) :=
  let padded := roundUp c.name.length 8
  let recordLen := CloneInfo.packed.size + padded
  cloneUuid.map fun uuid =>
    (storeAt acc.1 acc.2.1 (CloneInfo.packed.encode ⟨uuid, c.lastSeq, padded % 256⟩ ++ c.name ++
        List.replicate (padded - c.name.length) 0),
      acc.2.1 + recordLen, (acc.2.2 + recordLen) % 2 ^ 32)

def superblockBytes (ckpts : List ℕ) (clones : List CloneBase) : ℕ :=
  max (CommonHdr.packed.size + SuperHdr.packed.size + ckpts.length * 4 +
    (clones.map fun c => CloneInfo.packed.size + roundUp c.name.length 8).sum) 8

/-- `serialise_superblock`; a size that overflows the `int` of `round_up` has no
defined continuation. -/
def serialiseSuperblock (buf : Bytes) (ckpts : List ℕ) (clones : List CloneBase)
    (uuid volSize : ℕ) : Option Bytes :=
  if superblockBytes ckpts clones + 511 < 2 ^ 31 then
    let size := roundUp (superblockBytes ckpts clones) 512
    let grown := buf ++ List.replicate (size - buf.length) 0
    let hdr := SuperHdr.packed.decode (grown.drop CommonHdr.packed.size)
    let first := CommonHdr.packed.size + SuperHdr.packed.size
    let common : CommonHdr :=
      ⟨lsvdMagic, 1, uuid, ObjType.superblock.code, 0, size / 512, 0, 0⟩
    let start := storeAt grown 0 (CommonHdr.packed.encode common)
    (clones.foldlM serialiseClone (start, first, hdr.clonesLen)).map fun acc =>
      let hdr : SuperHdr :=
        ⟨volSize / 512, acc.2.1, ckpts.length * 4, first, acc.2.2, 0, 0⟩
      storeAt (storeAt acc.1 acc.2.1 (ckpts.flatMap (encodeNat 4))) CommonHdr.packed.size
        (SuperHdr.packed.encode hdr)
  else none

/-! ## Reading -/

/-- `deserialise_ptrs_with_len<clone_info>`: each record with its name. A round
goes on by at least one byte, so as many rounds as bytes are enough. -/
def cloneRecords (buf : Bytes) : ℕ → ℕ → ℕ → List (CloneInfo × Bytes)
  | 0, _, _ => []
  | fuel + 1, pos, stop =>
      if pos < stop then
        let c := CloneInfo.packed.decode (buf.drop pos)
        (c, slice buf (pos + CloneInfo.packed.size) c.nameLen) ::
          cloneRecords buf fuel (pos + CloneInfo.packed.size + c.nameLen) stop
      else []

/-- `parsed_superblock`, without the snapshots that nothing reads. -/
structure ParsedSuperblock where
  volSize : ℕ
  ckpts : List ℕ
  clones : List (CloneInfo × Bytes)
  uuid : ℕ
  deriving DecidableEq, Repr

/-- `object_reader::read_superblock`. -/
def parseSuperblock (buf : Bytes) : Option ParsedSuperblock :=
  let hdr := CommonHdr.packed.decode buf
  if hdr.magic ≠ lsvdMagic then none
  else if hdr.version ≠ 1 then none
  else if hdr.type ≠ ObjType.superblock.code then none
  else
    let shdr := SuperHdr.packed.decode (buf.drop CommonHdr.packed.size)
    some ⟨shdr.volSize * 512 % 2 ^ 64,
      decodeArray 4 decodeNat buf shdr.ckptsOffset shdr.ckptsLen,
      cloneRecords buf shdr.clonesLen shdr.clonesOffset (shdr.clonesOffset + shdr.clonesLen),
      hdr.uuid⟩

def cloneBase (c : CloneInfo × Bytes) : CloneBase := ⟨c.2, c.1.lastSeq, (c.1.lastSeq + 1) % 2 ^ 32⟩

structure Superblock where
  size : ℕ
  uuid : ℕ
  ckpts : List ℕ
  clones : List CloneBase
  deriving DecidableEq, Repr

def readSuperblock (obj : Option Bytes) : Except Fault Superblock :=
  match obj.bind parseSuperblock with
  | none => .error .noSuperblock
  | some parsed => .ok ⟨parsed.volSize, parsed.uuid, parsed.ckpts, parsed.clones.map cloneBase⟩

/-! ## Buffers that are used again -/

/-- A fresh buffer, or what earlier calls have left in one. -/
inductive Reused : Bytes → Prop
  | fresh (n : ℕ) : Reused (List.replicate n 0)
  | again {buf buf' : Bytes} {ckpts : List ℕ} {clones : List CloneBase} {uuid volSize : ℕ}
      (reused : Reused buf) (bound : volSize < 2 ^ 64)
      (written : serialiseSuperblock buf ckpts clones uuid volSize = some buf') : Reused buf'

theorem decode_nat_zeros (n : ℕ) : decodeNat (List.replicate n 0) = 0 := by
  induction n with
  | zero => rfl
  | succ n ih => simp [List.replicate_succ, decodeNat, ih]

theorem store_at_eq {before middle after bytes : Bytes} (length : bytes.length = middle.length) :
    storeAt (before ++ middle ++ after) before.length bytes = before ++ bytes ++ after := by
  rw [storeAt, length, ← List.length_append, List.drop_left, List.append_assoc before,
    List.take_left]

/-- A record for a clone is never completed. -/
theorem serialise_clones_eq (acc : Bytes × ℕ × ℕ) (clones : List CloneBase) :
    clones.foldlM serialiseClone acc = if clones = [] then some acc else none := by
  cases clones with
  | nil => rfl
  | cons c rest => rfl

def plainHdr (ckpts : List ℕ) (clonesLen volSize : ℕ) : SuperHdr :=
  ⟨volSize / 512, 76, ckpts.length * 4, 76, clonesLen, 0, 0⟩

private theorem cut_front (buf : Bytes) (n : ℕ) (long : 76 + n ≤ buf.length) :
    ∃ one two three rest : Bytes, buf = one ++ two ++ three ++ rest ∧
      one.length = 44 ∧ two.length = 32 ∧ three.length = n := by
  refine ⟨buf.take 44, (buf.drop 44).take 32, (buf.drop 76).take n, buf.drop (76 + n), ?_, ?_, ?_,
    ?_⟩
  · rw [← List.drop_drop, List.append_assoc, List.take_append_drop, show 76 = 44 + 32 by rfl,
      ← List.drop_drop, List.append_assoc, List.take_append_drop, List.take_append_drop]
  · rw [List.length_take]
    omega
  · rw [List.length_take, List.length_drop]
    omega
  · rw [List.length_take, List.length_drop]
    omega

private theorem store_front {buf common second array : Bytes} (commonLength : common.length = 44)
    (secondLength : second.length = 32) (long : 76 + array.length ≤ buf.length) :
    ∃ rest, storeAt (storeAt (storeAt buf 0 common) 76 array) 44 second =
      common ++ second ++ array ++ rest := by
  obtain ⟨one, two, three, rest, rfl, oneLength, twoLength, threeLength⟩ :=
    cut_front buf array.length long
  refine ⟨rest, ?_⟩
  have first : storeAt (one ++ two ++ three ++ rest) 0 common = common ++ two ++ three ++ rest := by
    rw [List.append_assoc, List.append_assoc]
    exact (@store_at_eq [] _ _ _ (commonLength.trans oneLength.symm)).trans (by simp)
  have place : (common ++ two).length = 76 := by
    rw [List.length_append, commonLength, twoLength]
  have middle : storeAt (common ++ two ++ three ++ rest) 76 array = common ++ two ++ array ++ rest := by
    rw [← place]
    exact store_at_eq threeLength.symm
  rw [first, middle, List.append_assoc (common ++ two), ← commonLength]
  exact (store_at_eq (secondLength.trans twoLength.symm)).trans (by simp)

theorem superblock_bytes_plain (ckpts : List ℕ) :
    superblockBytes ckpts [] = 76 + ckpts.length * 4 := by
  have sizes : CommonHdr.packed.size = 44 ∧ SuperHdr.packed.size = 32 := ⟨rfl, rfl⟩
  simp only [superblockBytes, sizes.1, sizes.2, List.map_nil, List.sum_nil]
  omega

theorem serialise_superblock_clones (buf : Bytes) (ckpts : List ℕ) (clones : List CloneBase)
    (uuid volSize : ℕ) (some_clone : clones ≠ []) :
    serialiseSuperblock buf ckpts clones uuid volSize = none := by
  unfold serialiseSuperblock
  simp only [serialise_clones_eq, if_neg some_clone, Option.map_none, ite_self]

/-- Without clones the two headers and the checkpoint numbers stand in front of
what was in the buffer; `clones_len` is what it was. -/
theorem serialise_superblock_plain (buf : Bytes) (ckpts : List ℕ) (uuid volSize : ℕ)
    (fits : 76 + ckpts.length * 4 + 511 < 2 ^ 31) :
    ∃ (rest : Bytes) (k sectors : ℕ), (sectors < 2 ^ 32 ∧ 76 + ckpts.length * 4 ≤ 512 * sectors) ∧
      serialiseSuperblock buf ckpts [] uuid volSize = some (CommonHdr.packed.encode
          ⟨lsvdMagic, 1, uuid, ObjType.superblock.code, 0, sectors, 0, 0⟩ ++
        SuperHdr.packed.encode (plainHdr ckpts
          (SuperHdr.packed.decode ((buf ++ List.replicate k 0).drop 44)).clonesLen volSize) ++
        ckpts.flatMap (encodeNat 4) ++ rest) := by
  set size := roundUp (76 + ckpts.length * 4) 512 with sizeDef
  have enough : 76 + ckpts.length * 4 ≤ size ∧ size < 2 ^ 31 ∧ 512 * (size / 512) = size := by
    rw [sizeDef, roundUp, divRoundUp]
    omega
  set grown := buf ++ List.replicate (size - buf.length) 0 with grownDef
  have arrayLength : (ckpts.flatMap (encodeNat 4)).length = ckpts.length * 4 :=
    encode_array_length (encode_nat_length 4) ckpts
  have long : 76 + (ckpts.flatMap (encodeNat 4)).length ≤ grown.length := by
    rw [grownDef, List.length_append, List.length_replicate, arrayLength]
    omega
  obtain ⟨rest, stored⟩ := store_front
    (CommonHdr.packed.encode_length
      ⟨lsvdMagic, 1, uuid, ObjType.superblock.code, 0, size / 512, 0, 0⟩)
    (SuperHdr.packed.encode_length
      (plainHdr ckpts (SuperHdr.packed.decode (grown.drop 44)).clonesLen volSize)) long
  refine ⟨rest, size - buf.length, size / 512, by omega, ?_⟩
  rw [← grownDef, ← stored]
  unfold serialiseSuperblock
  rw [superblock_bytes_plain, if_pos fits, ← sizeDef]
  rfl

theorem plain_hdr_fits {ckpts : List ℕ} {volSize : ℕ} (bound : volSize < 2 ^ 64)
    (fits : 76 + ckpts.length * 4 + 511 < 2 ^ 31) :
    SuperHdr.packed.Fits (plainHdr ckpts 0 volSize) := by
  simp only [Packed.Fits, SuperHdr.packed, plainHdr, List.zip_cons_cons, List.forall_mem_cons]
  norm_num
  omega

theorem decode_second (common : CommonHdr) {hdr : SuperHdr} (fits : SuperHdr.packed.Fits hdr)
    (rest : Bytes) : SuperHdr.packed.decode
      ((CommonHdr.packed.encode common ++ (SuperHdr.packed.encode hdr ++ rest)).drop 44) = hdr := by
  have length : (CommonHdr.packed.encode common).length = 44 := Packed.encode_length _ _
  rw [List.drop_left' length]
  exact Packed.decode_encode _ fits _

theorem serialise_superblock_defined {buf buf' : Bytes} {ckpts : List ℕ} {clones : List CloneBase}
    {uuid volSize : ℕ} (written : serialiseSuperblock buf ckpts clones uuid volSize = some buf') :
    clones = [] ∧ 76 + ckpts.length * 4 + 511 < 2 ^ 31 := by
  have noClones : clones = [] := by
    by_contra some_clone
    rw [serialise_superblock_clones _ _ _ _ _ some_clone] at written
    cases written
  subst noClones
  refine ⟨rfl, ?_⟩
  by_contra large
  unfold serialiseSuperblock at written
  rw [superblock_bytes_plain, if_neg large] at written
  cases written

/-- However often a buffer was used, `clones_len` is still zero in it. -/
theorem Reused.clones_len {buf : Bytes} (reused : Reused buf) (k : ℕ) :
    (SuperHdr.packed.decode ((buf ++ List.replicate k 0).drop 44)).clonesLen = 0 := by
  induction reused generalizing k with
  | fresh n =>
      rw [List.replicate_append_replicate]
      simp [SuperHdr.packed, Packed.decode, decodeFields, decode_nat_zeros]
  | again reused bound written ih =>
      rename_i buf buf' ckpts clones uuid volSize
      obtain ⟨rfl, fits⟩ := serialise_superblock_defined written
      obtain ⟨rest, j, sectors, -, same⟩ := serialise_superblock_plain buf ckpts uuid volSize fits
      cases written.symm.trans same
      rw [ih j]
      simp only [List.append_assoc]
      rw [decode_second _ (plain_hdr_fits bound fits)]
      rfl

theorem plain_superblock_reads_back {buf : Bytes} (reused : Reused buf) {ckpts : List ℕ}
    (numbers : ∀ c ∈ ckpts, c < 2 ^ 32) {uuid volSize : ℕ} (uuidBound : uuid < 2 ^ 128)
    (sizeBound : volSize < 2 ^ 64) (fits : 76 + ckpts.length * 4 + 511 < 2 ^ 31) :
    ∃ buf', serialiseSuperblock buf ckpts [] uuid volSize = some buf' ∧
      readSuperblock (some buf') = .ok ⟨volSize / 512 * 512, uuid, ckpts, []⟩ := by
  obtain ⟨rest, k, sectors, ⟨sectorsBound, -⟩, written⟩ :=
    serialise_superblock_plain buf ckpts uuid volSize fits
  rw [reused.clones_len k] at written
  set common : CommonHdr :=
    ⟨lsvdMagic, 1, uuid, ObjType.superblock.code, 0, sectors, 0, 0⟩ with commonDef
  have commonFits : CommonHdr.packed.Fits common := by
    simp only [Packed.Fits, CommonHdr.packed, commonDef, List.zip_cons_cons,
      List.forall_mem_cons]
    norm_num [lsvdMagic, ObjType.code]
    omega
  set buf' := CommonHdr.packed.encode common ++
    SuperHdr.packed.encode (plainHdr ckpts 0 volSize) ++ ckpts.flatMap (encodeNat 4) ++ rest
    with bufDef
  have first : CommonHdr.packed.decode buf' = common := by
    rw [bufDef, List.append_assoc, List.append_assoc]
    exact Packed.decode_encode _ commonFits _
  have second : SuperHdr.packed.decode (buf'.drop 44) = plainHdr ckpts 0 volSize := by
    rw [bufDef, List.append_assoc, List.append_assoc]
    exact decode_second _ (plain_hdr_fits sizeBound fits) _
  have array : decodeArray 4 decodeNat buf' 76 (ckpts.length * 4) = ckpts := by
    have length : (CommonHdr.packed.encode common ++
        SuperHdr.packed.encode (plainHdr ckpts 0 volSize)).length = 76 := by
      rw [List.length_append, Packed.encode_length, Packed.encode_length]
      rfl
    rw [bufDef, ← length]
    refine decode_array decodeNat (by norm_num) (encode_nat_length 4) _ rest ckpts ?_
    intro c member
    exact decode_encode_nat 4 c (by have := numbers c member; norm_num; omega)
  have parsed : parseSuperblock buf' = some ⟨volSize / 512 * 512, ckpts, [], uuid⟩ := by
    have sizes : CommonHdr.packed.size = 44 := rfl
    unfold parseSuperblock
    rw [sizes, second, first]
    simp only [commonDef, ne_eq, not_true_eq_false, if_false, plainHdr, array, cloneRecords]
    rw [show volSize / 512 * 512 % 2 ^ 64 = volSize / 512 * 512 by omega]
  refine ⟨buf', written, ?_⟩
  simp only [readSuperblock, Option.bind_some, parsed, List.map_nil]

/-- A superblock goes through the buffer and back, however often the buffer was
used before, exactly if the image has no clone base and fewer than `2^29`
checkpoints, as many as the sizes can count. -/
theorem superblock_reads_back_iff {buf : Bytes} (reused : Reused buf) {ckpts : List ℕ}
    (numbers : ∀ c ∈ ckpts, c < 2 ^ 32) (clones : List CloneBase) {uuid volSize : ℕ}
    (uuidBound : uuid < 2 ^ 128) (sizeBound : volSize < 2 ^ 64) (whole : volSize % 512 = 0) :
    (∃ buf' sb, serialiseSuperblock buf ckpts clones uuid volSize = some buf' ∧
      readSuperblock (some buf') = .ok sb ∧ sb.ckpts = ckpts ∧
      sb.clones.map (fun c => (c.name, c.lastSeq)) = clones.map (fun c => (c.name, c.lastSeq)) ∧
      sb.uuid = uuid ∧ sb.size = volSize) ↔
    clones = [] ∧ 76 + ckpts.length * 4 + 511 < 2 ^ 31 := by
  constructor
  · rintro ⟨buf', sb, written, -⟩
    exact serialise_superblock_defined written
  · rintro ⟨rfl, fits⟩
    obtain ⟨buf', written, read⟩ :=
      plain_superblock_reads_back reused numbers uuidBound sizeBound fits
    exact ⟨buf', _, written, read, rfl, rfl, rfl, Nat.div_mul_cancel (Nat.dvd_of_mod_eq_zero whole)⟩

/-- Two checkpoints of one image, written into the same buffer. -/
theorem superblock_reads_back_second_time : ∃ once twice sb,
    serialiseSuperblock (List.replicate 4096 0) [3] [] 7 1024 = some once ∧
      serialiseSuperblock once [3, 5] [] 7 1024 = some twice ∧
      readSuperblock (some twice) = .ok sb ∧ sb.ckpts = [3, 5] ∧ sb.size = 1024 := by
  obtain ⟨rest, k, sectors, -, once⟩ :=
    serialise_superblock_plain (List.replicate 4096 0) [3] 7 1024 (by decide)
  have reused := Reused.again (.fresh 4096) (by decide) once
  obtain ⟨twice, sb, written, read, ckpts, -, -, size⟩ :=
    (@superblock_reads_back_iff _ reused [3, 5] (by decide) [] 7 1024 (by decide) (by decide)
      (by decide)).mpr ⟨rfl, by decide⟩
  exact ⟨_, twice, sb, once, written, read, ckpts, size⟩

/-- An image with one clone base: its superblock is never written. -/
theorem superblock_of_clone_undefined :
    serialiseSuperblock (List.replicate 4096 0) [3] [⟨[98, 97, 115, 101], 2, 3⟩] 7 1024 = none := by
  decide +kernel

end LsvdRbd.Format
