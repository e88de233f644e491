import LsvdRbd.ExtentMap.Displaced
import LsvdRbd.Session.Reads
import LsvdRbd.Session.Smartiov

/-!
# The destination of a read

`handle_reads` cuts the caller's buffers along the parts of the read: it zeroes some of
the bytes, copies others from a batch buffer, and hands the rest in slices to the read
cache. Every byte belongs to one part, so the parts can complete in any order.
-/

namespace LsvdRbd.Session

open Records RunList ExtentMap Format Translate Recovery Scatter

set_option autoImplicit false

def cacheChunkSize : ℤ := 65536

/-! ## Cutting the destination -/

/-- The slice for a part, at the running offset. `zero` has no assertion; a slice for
the cache must meet those of `make_read_req`. -/
def Piece.place (iovs : Smartiov) (off : ℕ) (piece : Piece) : Option Smartiov :=
  match piece with
  | .zero count => some (cut iovs off (512 * count.toNat))
  | .copy _ count => iovs.slice off (off + 512 * count.toNat)
  | .fetch _ block inBlock count => (iovs.slice off (off + 512 * count.toNat)).bind fun dest =>
      if block * 512 % cacheChunkSize = 0 ∧ inBlock * 512 + size dest ≤ cacheChunkSize then some dest
      else none

def placeReads (iovs : Smartiov) : ℕ → List Piece → Option (List (Piece × Smartiov))
  | _, [] => some []
  | off, piece :: rest => (piece.place iovs off).bind fun dest =>
      (placeReads iovs (off + 512 * piece.count.toNat) rest).map ((piece, dest) :: ·)

/-- `handle_reads` with a destination of whole sectors. -/
def readInto (bufmap : Bufmap) (objmap : Objmap) (start : ℕ) (iovs : Smartiov) :
    Option (List (Piece × Smartiov)) :=
  (handleReads bufmap objmap start (size iovs / 512)).bind (placeReads iovs 0)

section Bytes

-- the batch buffers, and the bytes of the objects
variable (heap : ℤ → UInt8) (object : ℤ → ℕ → UInt8)

/-- What a part does to the memory once it has completed. A slice that the cache was
asked for is taken to be filled with the object's bytes. -/
def perform (part : Piece × Smartiov) (mem : ℕ → UInt8) : ℕ → UInt8 :=
  match part.1 with
  | .zero _ => part.2.clear mem
  | .copy ptr _ => part.2.copyIn heap ptr.buf mem
  | .fetch obj block inBlock _ =>
      fill part.2 (fun i => object obj ((block * 512 + inBlock * 512).toNat + i)) mem

def byteAt (buf : Option SectorPtr) (obj : Option ObjOffset) (j : ℕ) : UInt8 :=
  match buf, obj with
  | some ptr, _ => heap (ptr.buf + j)
  | none, some p => object p.obj (p.offset.toNat * 512 + j)
  | none, none => 0

def Piece.source : Piece → ℕ → UInt8
  | .zero _, _ => 0
  | .copy ptr _, i => heap (ptr.buf + i)
  | .fetch obj block inBlock _, i => object obj ((block * 512 + inBlock * 512).toNat + i)

theorem perform_eq (part : Piece × Smartiov) (mem : ℕ → UInt8) :
    perform heap object part mem = fill part.2 (part.1.source heap object) mem := by
  obtain ⟨piece, dest⟩ := part
  cases piece with
  | zero count => exact Smartiov.clear_eq dest mem
  | copy ptr count => exact Smartiov.copy_in_eq heap dest ptr.buf mem
  | fetch obj block inBlock count => rfl

end Bytes

/-! ## Sectors and bytes -/

def block {β : Type*} (width : ℕ) (g : ℕ → β) : List β := (List.range width).map g

theorem block_length {β : Type*} (width : ℕ) (g : ℕ → β) : (block width g).length = width := by
  rw [block, List.length_map, List.length_range]

theorem block_get {β : Type*} {width j : ℕ} (inside : j < width) (g : ℕ → β) :
    (block width g)[j]? = some (g j) := by
  rw [block, List.getElem?_map, List.getElem?_range inside, Option.map_some]

theorem block_blocks {β : Type*} (width n : ℕ) (g : ℕ → β) :
    block (width * n) g = (List.range n).flatMap fun k => block width fun j => g (width * k + j) := by
  induction n with
  | zero => rfl
  | succ n ih =>
      rw [block] at ih
      rw [block, Nat.mul_succ, List.range_add, List.map_append, ih, List.range_succ (n := n),
        List.flatMap_append, List.map_map, List.flatMap_singleton]
      rfl

theorem get_flat_map {α β : Type*} {width : ℕ} {f : α → List β}
    (sized : ∀ x, (f x).length = width) (l : List α) {k j : ℕ} (inside : j < width) :
    (l.flatMap f)[width * k + j]? = l[k]?.bind fun x => (f x)[j]? := by
  induction l generalizing k with
  | nil => simp
  | cons x rest ih =>
      rw [List.flatMap_cons, List.getElem?_append, sized]
      cases k with
      | zero => simp [inside]
      | succ k =>
          have next : width * (k + 1) + j - width = width * k + j := by
            rw [Nat.mul_succ]
            omega
          rw [if_neg (by rw [Nat.mul_succ]; omega), next, ih]
          rfl

section Sectors

variable (heap : ℤ → UInt8) (object : ℤ → ℕ → UInt8)

def heapSector (ptr : SectorPtr) : Option (ℕ → UInt8) := some fun j => heap (ptr.buf + j)

def objectSector (obj offset : ℤ) : Option (ℕ → UInt8) :=
  some fun j => object obj (offset.toNat * 512 + j)

def sectorBytes (sector : Option (ℕ → UInt8)) : List UInt8 := block 512 (sector.getD fun _ => 0)

theorem sector_bytes_length (sector : Option (ℕ → UInt8)) : (sectorBytes sector).length = 512 :=
  block_length _ _

def Piece.bytes (piece : Piece) : List UInt8 :=
  block (512 * piece.count.toNat) (piece.source heap object)

theorem designated_bytes (buf : Option SectorPtr) (obj : Option ObjOffset) :
    designated (heapSector heap) (objectSector object) (fun _ => 0) buf obj =
      some (byteAt heap object buf obj) := by
  cases buf with
  | some ptr => rfl
  | none =>
      cases obj with
      | some p => rfl
      | none => rfl

theorem piece_bytes_eq {n : ℤ} {piece : Piece} {rest : List Piece}
    (fitting : Fitting n (piece :: rest)) : piece.bytes heap object =
      (piece.fill (heapSector heap) (objectSector object) fun _ => 0).flatMap sectorBytes := by
  rw [Piece.bytes, block_blocks]
  cases piece with
  | zero count =>
      have sectors : List.replicate count.toNat (some fun _ : ℕ => (0 : UInt8)) =
          (List.range count.toNat).map fun _ => some fun _ => 0 := by
        rw [List.map_const', List.length_range]
      rw [Piece.fill, sectors, List.flatMap_map]
      exact List.flatMap_congr fun k _ => rfl
  | copy ptr count =>
      rw [Piece.fill, List.flatMap_map]
      refine List.flatMap_congr fun k _ => congrArg (block 512) ?_
      funext j
      rw [Piece.source, heapSector, Option.getD_some, vadd_buf]
      congr 1
      push_cast
      ring
  | fetch obj low inBlock count =>
      obtain ⟨-, -, ⟨lower, -, positive, -⟩, -⟩ := fitting
      rw [Piece.fill, List.flatMap_map]
      refine List.flatMap_congr fun k _ => congrArg (block 512) ?_
      funext j
      rw [Piece.source, objectSector, Option.getD_some]
      congr 1
      omega

theorem pieces_bytes_eq {n : ℤ} {pieces : List Piece} (fitting : Fitting n pieces) :
    pieces.flatMap (Piece.bytes heap object) = (pieces.flatMap
      (Piece.fill (heapSector heap) (objectSector object) fun _ => 0)).flatMap sectorBytes := by
  induction pieces generalizing n with
  | nil => rfl
  | cons piece rest ih =>
      have restFits : ∃ m, Fitting m rest := by
        cases piece with
        | zero count => exact ⟨_, fitting.2⟩
        | copy ptr count => exact ⟨_, fitting.2.2⟩
        | fetch obj block inBlock count => exact ⟨_, fitting.2.2.2⟩
      obtain ⟨m, restFitting⟩ := restFits
      rw [List.flatMap_cons, List.flatMap_cons, List.flatMap_append, ih restFitting,
        piece_bytes_eq heap object fitting]

end Sectors

/-! ## The parts of a destination -/

def Accepted (part : Piece × Smartiov) : Prop :=
  match part.1 with
  | .zero _ => True
  | .copy _ _ => True
  | .fetch _ low inBlock _ =>
      low * 512 % cacheChunkSize = 0 ∧ inBlock * 512 + size part.2 ≤ cacheChunkSize

section Place

variable {iovs : Smartiov} {off len : ℕ} {n : ℤ} {piece : Piece} {rest : List Piece}

theorem place_eq (fitting : Fitting n (piece :: rest)) (left : (size iovs : ℤ) - off = 512 * n) :
    piece.place iovs off = some (cut iovs off (512 * piece.count.toNat)) ∧
      Accepted (piece, cut iovs off (512 * piece.count.toNat)) ∧ 0 < piece.count ∧
      Fitting (n - piece.count) rest := by
  cases piece with
  | zero count => exact ⟨rfl, trivial, fitting.1, fitting.2⟩
  | copy ptr count =>
      obtain ⟨positive, few, later⟩ := fitting
      exact ⟨slice_eq (by omega), trivial, positive, later⟩
  | fetch obj low inBlock count =>
      obtain ⟨positive, few, ⟨lower, aligned, inside, whole⟩, later⟩ := fitting
      have room : off + 512 * count.toNat ≤ size iovs := by omega
      have accepted : low * 512 % cacheChunkSize = 0 ∧
          inBlock * 512 + size (cut iovs off (512 * count.toNat)) ≤ cacheChunkSize := by
        rw [cut_size room]
        simp only [cacheChunkSize, blockSectors] at aligned whole ⊢
        omega
      refine ⟨?_, accepted, positive, later⟩
      change (iovs.slice off (off + 512 * count.toNat)).bind _ = _
      rw [slice_eq room, Option.bind_some, if_pos accepted]
      rfl

end Place

/-- The parts take up the destination byte after byte, each with its own bytes. -/
theorem place_reads_spec (heap : ℤ → UInt8) (object : ℤ → ℕ → UInt8) {iovs : Smartiov} {off : ℕ}
    {n : ℤ} {pieces : List Piece} (fitting : Fitting n pieces)
    (left : (size iovs : ℤ) - off = 512 * n) :
    ∃ parts, placeReads iovs off pieces = some parts ∧ (∀ part ∈ parts, Accepted part) ∧
      (parts.flatMap fun part => addresses part.2) = (addresses iovs).drop off ∧
      ∀ p a, (addresses iovs)[off + p]? = some a → ∃ part ∈ parts, ∃ i,
        (addresses part.2)[i]? = some a ∧
        (pieces.flatMap (Piece.bytes heap object))[p]? = some (part.1.source heap object i) := by
  have length := addresses_length iovs
  induction pieces generalizing off n with
  | nil =>
      rw [Fitting] at fitting
      have nothing : (addresses iovs).drop off = [] := List.drop_of_length_le (by omega)
      refine ⟨[], rfl, by simp, nothing.symm, ?_⟩
      intro p a isAt
      have := (List.getElem?_eq_some_iff.mp isAt).1
      omega
  | cons piece rest ih =>
      obtain ⟨placed, accepted, positive, later⟩ := place_eq fitting left
      obtain ⟨parts, rests, restAccepted, covered, found⟩ :=
        @ih (off + 512 * piece.count.toNat) _ later (by push_cast; omega)
      have taken := cut_addresses iovs off (512 * piece.count.toNat)
      refine ⟨(piece, cut iovs off (512 * piece.count.toNat)) :: parts, ?_, ?_, ?_, ?_⟩
      · rw [placeReads, placed, Option.bind_some, rests, Option.map_some]
      · exact List.forall_mem_cons.mpr ⟨accepted, restAccepted⟩
      · rw [List.flatMap_cons, covered, taken, ← List.drop_drop, List.take_append_drop]
      · intro p a isAt
        have bytes : (piece.bytes heap object).length = 512 * piece.count.toNat := block_length _ _
        rw [List.flatMap_cons, List.getElem?_append, bytes]
        by_cases here : p < 512 * piece.count.toNat
        · refine ⟨_, List.mem_cons_self, p, ?_, ?_⟩
          · rw [taken, List.getElem?_take, if_pos here, List.getElem?_drop, isAt]
          · rw [if_pos here]
            exact block_get here _
        · have further : off + p =
              off + 512 * piece.count.toNat + (p - 512 * piece.count.toNat) := by omega
          rw [further] at isAt
          obtain ⟨part, member, i, there, byte⟩ := found _ _ isAt
          exact ⟨part, List.mem_cons_of_mem _ member, i, there, by rw [if_neg here, byte]⟩

/-- Reading any range of whole sectors into any buffers of that size, from well-formed
maps: the loop ends without a failed assertion, each byte of the destination belongs to
one part, and when the parts have completed, in any order, byte `j` of sector `k` is the
one that the maps designate. -/
theorem reads_fill_destination {bufmap : Bufmap} {objmap : Objmap}
    (bufs : bufmap.WellFormed fun e => BufmapStored e ∧ IntSteps e)
    (objs : objmap.WellFormed fun e => ObjmapStored e ∧ 0 ≤ e.ptr.offset) {start count : ℕ}
    {iovs : Smartiov} (whole : size iovs = 512 * count)
    (heap : ℤ → UInt8) (object : ℤ → ℕ → UInt8) :
    ∃ parts, readInto bufmap objmap start iovs = some parts ∧ (∀ part ∈ parts, Accepted part) ∧
      (parts.flatMap fun part => addresses part.2) = addresses iovs ∧
      ((addresses iovs).Nodup → ∀ order : List (Piece × Smartiov), order.Perm parts →
        ∀ (mem : ℕ → UInt8) (k j a : ℕ), k < count → j < 512 →
        (addresses iovs)[512 * k + j]? = some a →
          order.foldl (fun mem part => perform heap object part mem) mem a =
            byteAt heap object (locate bufmap ((start : ℤ) + k)) (locate objmap ((start : ℤ) + k)) j) := by
  have bufFits : ∀ e ∈ bufmap.extents, (Stored.layout : Layout SectorPtr).Fits e := by
    intro e member
    obtain ⟨stored, steps⟩ := bufs.stored e member
    unfold IntSteps at steps
    exact Layout.lba2buf_fits stored.base stored.limit (by omega)
  -- no extent reaches a key that does not fit its bit-field
  have inBufs : Searchable bufmap start := by
    by_cases bound : start < 2 ^ 38
    · exact Or.inl (bufmap_key (by omega) (by exact_mod_cast bound))
    · exact Or.inr fun e member => le_trans (bufs.stored e member).1.limit (by omega)
  have inObjs : Searchable objmap start := by
    by_cases bound : start < 2 ^ 37
    · exact Or.inl (objmap_key (by omega) (by exact_mod_cast bound))
    · exact Or.inr fun e member => le_trans (objs.stored e member).1.limit (by omega)
  obtain ⟨pieces, plan, fitting, filled⟩ := @handle_reads_plan (ℕ → UInt8) (heapSector heap)
    (objectSector object) (fun _ => 0) _ _ bufs.shape bufs.ordered bufFits objs.shape objs.ordered
    (fun e member => (objs.stored e member).1.fits) (fun e member => (objs.stored e member).2) _ count
    inBufs inObjs
  obtain ⟨parts, placed, accepted, covered, found⟩ := place_reads_spec heap object fitting
    (by rw [whole]; push_cast; omega : (size iovs : ℤ) - (0 : ℕ) = 512 * count)
  rw [List.drop_zero] at covered
  refine ⟨parts, ?_, accepted, covered, ?_⟩
  · rw [readInto, whole, Nat.mul_div_cancel_left _ (by norm_num), plan, Option.bind_some, placed]
  · intro distinct order permuted mem k j a inRange inSector isAt
    rw [← Nat.zero_add (512 * k + j)] at isAt
    obtain ⟨part, member, i, there, byte⟩ := found _ _ isAt
    have jobs : order.foldl (fun mem part => perform heap object part mem) mem =
        fillAll (order.map fun part => (part.2, part.1.source heap object)) mem := by
      rw [fillAll, List.foldl_map]
      simp only [perform_eq]
    have apart : ((order.map fun part => (part.2, part.1.source heap object)).flatMap
        fun job => addresses job.1).Nodup := by
      rw [List.flatMap_map, (permuted.flatMap_right _).nodup_iff, covered]
      exact distinct
    rw [jobs, fill_all_at apart (List.mem_map_of_mem (permuted.mem_iff.mpr member)) there]
    rw [pieces_bytes_eq heap object fitting, get_flat_map sector_bytes_length _ inSector,
      filled k inRange, Option.bind_some, designated_bytes, sectorBytes, block_get inSector] at byte
    exact (Option.some.inj byte).symm

def mixedObjs : Objmap := ⟨[[⟨0, 2, ⟨1, 8⟩⟩]], [2], 1⟩

def mixedBufs : Bufmap := ⟨[[⟨1, 1, ⟨4096⟩⟩]], [2], 1⟩

def splitBuffers : Smartiov := [⟨0, 700⟩, ⟨5000, 836⟩]

theorem split_buffers_addresses :
    addresses splitBuffers = List.range' 0 700 ++ List.range' 5000 836 := by
  rw [splitBuffers, addresses_cons, addresses_cons, addresses_nil, List.append_nil]
  rfl

theorem reads_fill_destination_mixed : ∃ parts final,
    readInto mixedBufs mixedObjs 0 splitBuffers = some parts ∧
      final = parts.foldl (fun mem part => perform (fun _ => 7) (fun _ _ => 9) part mem) (fun _ => 1) ∧
      final 100 = 9 ∧ final 5000 = 7 ∧ final 5835 = 0 := by
  have bufs : mixedBufs.WellFormed fun e => BufmapStored e ∧ IntSteps e :=
    ⟨⟨by simp [mixedBufs], by decide, rfl, by simp [mixedBufs], by simp [mixedBufs]⟩,
      ⟨by decide, by decide⟩, by unfold IntSteps; decide⟩
  have objs : mixedObjs.WellFormed fun e => ObjmapStored e ∧ 0 ≤ e.ptr.offset :=
    ⟨⟨by simp [mixedObjs], by decide, rfl, by simp [mixedObjs], by simp [mixedObjs]⟩,
      ⟨by decide, by decide⟩, by decide⟩
  obtain ⟨parts, read, -, -, filled⟩ := @reads_fill_destination mixedBufs mixedObjs bufs objs 0 3
    splitBuffers rfl (fun _ => 7) (fun _ _ => 9)
  rw [split_buffers_addresses] at filled
  have distinct : (List.range' 0 700 ++ List.range' 5000 836).Nodup := by
    refine List.nodup_append.mpr ⟨List.nodup_range', List.nodup_range', ?_⟩
    intro a first b second
    rw [List.mem_range'_1] at first second
    omega
  have sector := filled distinct parts (.refl _) (fun _ => 1)
  refine ⟨parts, _, read, rfl, ?_, ?_, ?_⟩
  · refine (sector 0 100 100 (by norm_num) (by norm_num) ?_).trans (by decide)
    rw [List.getElem?_append_left (by simp), List.getElem?_range' (by norm_num)]
  · refine (sector 1 188 5000 (by norm_num) (by norm_num) ?_).trans (by decide)
    rw [List.getElem?_append_right (by simp), List.getElem?_range' (by simp), List.length_range']
  · refine (sector 2 511 5835 (by norm_num) (by norm_num) ?_).trans (by decide)
    rw [List.getElem?_append_right (by simp), List.getElem?_range' (by simp), List.length_range']

/-- From a buffer of four gigabytes a sector in its middle is copied from a wrong
address. -/
theorem read_pointer_overflows :
    fourGigabytes.WellFormed BufmapStored ∧
    locate fourGigabytes (2 ^ 22) = some ⟨2 ^ 40 + 2 ^ 31⟩ ∧
    readInto fourGigabytes Extmap.empty (2 ^ 22) [⟨0, 512⟩] =
      some [(.copy ⟨2 ^ 40 - 2 ^ 31⟩ 1, [⟨0, 512⟩])] := by
  refine ⟨⟨⟨by simp [fourGigabytes], by decide, rfl, by simp [fourGigabytes],
    by simp [fourGigabytes]⟩, ⟨by decide, by decide⟩, by decide⟩, by decide +kernel,
    by decide +kernel⟩

end LsvdRbd.Session
