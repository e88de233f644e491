import Mathlib.Tactic

/-!
# Little-endian records in byte buffers

Fixed-width numbers, records made of such numbers, and arrays of equal-sized
records at an offset of a buffer, with the round trips that a reader of such a
buffer needs.
-/

namespace Records

set_option autoImplicit false

abbrev Bytes := List UInt8

/-- The low `width` bytes of a number, least significant first. -/
def encodeNat : ℕ → ℕ → Bytes
  | 0, _ => []
  | width + 1, value => UInt8.ofNat value :: encodeNat width (value / 256)

def decodeNat : Bytes → ℕ
  | [] => 0
  | byte :: rest => byte.toNat + 256 * decodeNat rest

@[simp] theorem encode_nat_length (width value : ℕ) : (encodeNat width value).length = width := by
  induction width generalizing value with
  | zero => rfl
  | succ width ih => simp [encodeNat, ih]

theorem decode_encode_nat (width value : ℕ) (bound : value < 256 ^ width) :
    decodeNat (encodeNat width value) = value := by
  induction width generalizing value with
  | zero =>
      have : value = 0 := by simpa using bound
      simp [encodeNat, decodeNat, this]
  | succ width ih =>
      have high : value / 256 < 256 ^ width := by
        apply Nat.div_lt_of_lt_mul
        rw [pow_succ] at bound
        omega
      simp only [encodeNat, decodeNat, ih _ high, UInt8.toNat_ofNat']
      have := Nat.mod_add_div value 256
      omega

/-! ## Records -/

def encodeFields (fields : List (ℕ × ℕ)) : Bytes :=
  fields.flatMap fun field => encodeNat field.1 field.2

def decodeFields : List ℕ → Bytes → List ℕ
  | [], _ => []
  | width :: rest, bytes => decodeNat (bytes.take width) :: decodeFields rest (bytes.drop width)

theorem encode_fields_length (fields : List (ℕ × ℕ)) :
    (encodeFields fields).length = (fields.map Prod.fst).sum := by
  induction fields with
  | nil => rfl
  | cons field rest ih =>
      simp only [encodeFields, List.flatMap_cons, List.length_append, encode_nat_length,
        List.map_cons, List.sum_cons] at *
      rw [ih]

theorem decode_encode_fields (fields : List (ℕ × ℕ)) (rest : Bytes)
    (bounds : ∀ field ∈ fields, field.2 < 256 ^ field.1) :
    decodeFields (fields.map Prod.fst) (encodeFields fields ++ rest) = fields.map Prod.snd := by
  induction fields with
  | nil => rfl
  | cons field others ih =>
      have whole : encodeFields (field :: others) ++ rest =
          encodeNat field.1 field.2 ++ (encodeFields others ++ rest) := by
        simp [encodeFields]
      have first := decode_encode_nat field.1 field.2 (bounds field (by simp))
      rw [whole]
      simp only [List.map_cons, decodeFields]
      rw [List.take_left' (by simp), List.drop_left' (by simp), first,
        ih fun other member => bounds other (by simp [member])]

/-- A packed structure: its field widths and the numbers stored in them. -/
structure Packed (α : Type*) where
  widths : List ℕ
  fields : α → List ℕ
  build : List ℕ → α
  arity : ∀ record, (fields record).length = widths.length
  build_fields : ∀ record, build (fields record) = record

namespace Packed

variable {α : Type*} (p : Packed α)

def size : ℕ := p.widths.sum

def encode (record : α) : Bytes := encodeFields (p.widths.zip (p.fields record))

def decode (bytes : Bytes) : α := p.build (decodeFields p.widths bytes)

def Fits (record : α) : Prop :=
  ∀ field ∈ p.widths.zip (p.fields record), field.2 < 256 ^ field.1

theorem encode_length (record : α) : (p.encode record).length = p.size := by
  rw [encode, encode_fields_length, List.map_fst_zip (p.arity record).ge]
  rfl

theorem decode_encode {record : α} (fits : p.Fits record) (rest : Bytes) :
    p.decode (p.encode record ++ rest) = record := by
  have parsed := decode_encode_fields (p.widths.zip (p.fields record)) rest fits
  rw [List.map_fst_zip (p.arity record).ge, List.map_snd_zip (p.arity record).le] at parsed
  rw [decode, encode, parsed, p.build_fields]

end Packed

/-! ## Arrays of records -/

def slice (bytes : Bytes) (offset len : ℕ) : Bytes := (bytes.drop offset).take len

/-- The `len / size` records of a given size from `offset` on. -/
def decodeArray {α : Type*} (size : ℕ) (decode : Bytes → α) (bytes : Bytes) (offset len : ℕ) :
    List α :=
  (List.range (len / size)).map fun i => decode (slice bytes (offset + i * size) size)

theorem encode_array_length {α : Type*} {size : ℕ} {encode : α → Bytes}
    (sized : ∀ record, (encode record).length = size) (records : List α) :
    (records.flatMap encode).length = records.length * size := by
  induction records with
  | nil => simp
  | cons record rest ih =>
      rw [List.flatMap_cons, List.length_append, sized, ih, List.length_cons]
      ring

private theorem slice_array {α : Type*} {size : ℕ} {encode : α → Bytes}
    (sized : ∀ record, (encode record).length = size) (front rest : Bytes) (records : List α)
    (i : ℕ) (record : α) (present : records[i]? = some record) :
    slice (front ++ records.flatMap encode ++ rest) (front.length + i * size) size =
      encode record := by
  obtain ⟨bound, rfl⟩ := List.getElem?_eq_some_iff.mp present
  have split : records.flatMap encode =
      (records.take i).flatMap encode ++
        (encode records[i] ++ (records.drop (i + 1)).flatMap encode) := by
    conv_lhs => rw [← List.take_append_drop i records, List.flatMap_append,
      List.drop_eq_getElem_cons bound, List.flatMap_cons]
  have skipped : ((records.take i).flatMap encode).length = i * size := by
    rw [encode_array_length sized, List.length_take, min_eq_left bound.le]
  rw [split, slice]
  rw [show front ++ ((records.take i).flatMap encode ++
      (encode records[i] ++ (records.drop (i + 1)).flatMap encode)) ++ rest =
      (front ++ (records.take i).flatMap encode) ++
        (encode records[i] ++ ((records.drop (i + 1)).flatMap encode ++ rest)) by simp]
  rw [List.drop_left' (by simp [skipped]), List.take_left' (sized _)]

theorem decode_array {α : Type*} {size : ℕ} {encode : α → Bytes} (decode : Bytes → α)
    (positive : 0 < size) (sized : ∀ record, (encode record).length = size)
    (front rest : Bytes) (records : List α)
    (roundTrip : ∀ record ∈ records, decode (encode record) = record) :
    decodeArray size decode (front ++ records.flatMap encode ++ rest) front.length
      (records.length * size) = records := by
  apply List.ext_getElem?
  intro i
  rw [decodeArray, Nat.mul_div_cancel _ positive]
  by_cases bound : i < records.length
  · have present : records[i]? = some records[i] := List.getElem?_eq_getElem bound
    rw [present, List.getElem?_map, List.getElem?_range bound, Option.map_some,
      slice_array sized front rest records i _ present, roundTrip _ (List.getElem_mem bound)]
  · rw [List.getElem?_eq_none (by simpa using bound), List.getElem?_eq_none (by simpa using bound)]

end Records
