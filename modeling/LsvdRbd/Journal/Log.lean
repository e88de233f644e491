import LsvdRbd.ExtentMap.Layout
import LsvdRbd.Format.Objects
import LsvdRbd.Lib.Machine
import LsvdRbd.Lib.RingLog

/-!
# The write journal

`init_wcache` lays the journal out in a file, and `write_cache_impl` writes records to
it in a ring of pages: a header page and the data of one chunk. A record that does not
fit before the end of the ring goes to its start, after a pad record that covers the
rest.
-/

namespace LsvdRbd.Journal

open ExtentMap Format Machine RingLog

set_option autoImplicit false

/-- A conversion to `int` or `page_t`. -/
def toInt (value : ℤ) : ℤ := signedField 32 value

theorem to_int_of_range {value : ℤ} (lower : -2 ^ 31 ≤ value) (upper : value < 2 ^ 31) :
    toInt value = value :=
  signed_field_of_range 31 value lower upper

theorem to_int_bounds (value : ℤ) : -2 ^ 31 ≤ toInt value ∧ toInt value < 2 ^ 31 := by
  simp only [toInt, signedField, Int.bmod_eq_emod]
  split <;> omega

theorem to_int_natCast (n : ℕ) :
    toInt n = n ∧ n < 2 ^ 31 ∨ toInt n + 2 ^ 32 ≤ n ∧ 2 ^ 31 ≤ n := by
  by_cases small : n < 2 ^ 31
  · exact Or.inl ⟨to_int_of_range (by omega) (by omega), small⟩
  · refine Or.inr ⟨?_, Nat.le_of_not_lt small⟩
    rw [toInt, signedField, Int.bmod_eq_emod]
    split
    · omega
    · omega

def divRoundUpInt (n m : ℤ) : ℤ := (toInt (toInt n + toInt m - 1)).tdiv (toInt m)

theorem div_round_up_int_eq {n m : ℤ} (lower : 0 ≤ n) (positive : 0 < m)
    (upper : n + m < 2 ^ 31) : divRoundUpInt n m = (n + m - 1) / m := by
  have first : toInt n = n := to_int_of_range (by omega) (by omega)
  have second : toInt m = m := to_int_of_range (by omega) (by omega)
  have sum : toInt (n + m - 1) = n + m - 1 := to_int_of_range (by omega) (by omega)
  rw [divRoundUpInt, first, second, sum, Int.tdiv_eq_ediv_of_nonneg (by omega)]

theorem succ_le_tdiv_iff {k s d : ℤ} (nonneg : 0 ≤ k) (positive : 0 < d) :
    k + 1 ≤ s.tdiv d ↔ (k + 1) * d ≤ s := by
  rcases Int.lt_or_le s 0 with negative | dividend
  · have quotient := Int.tdiv_nonneg (show 0 ≤ -s by omega) positive.le
    have product := Int.mul_pos (show 0 < k + 1 by omega) positive
    rw [Int.neg_tdiv] at quotient
    omega
  · rw [Int.tdiv_eq_ediv_of_nonneg dividend, Int.le_ediv_iff_mul_le positive]

theorem succ_le_div_round_up_int_iff {n m k : ℤ} (nonneg : 0 ≤ k) (divides : toInt m ≠ 0) :
    k + 1 ≤ divRoundUpInt n m ↔
      0 < toInt m ∧ k * toInt m < toInt n ∧ toInt n + toInt m ≤ 2 ^ 31 ∨
        toInt m < 0 ∧ k * -toInt m + toInt n ≤ 1 ∧ -2 ^ 31 < toInt n + toInt m := by
  have first := to_int_bounds n
  have second := to_int_bounds m
  rw [divRoundUpInt]
  generalize toInt n = a at first
  generalize toInt m = d at second divides
  have wrapped : toInt (a + d - 1) = a + d - 1 ∧ -2 ^ 31 ≤ a + d - 1 ∧ a + d - 1 < 2 ^ 31 ∨
      toInt (a + d - 1) = a + d - 1 - 2 ^ 32 ∧ 2 ^ 31 ≤ a + d - 1 ∨
      toInt (a + d - 1) = a + d - 1 + 2 ^ 32 ∧ a + d - 1 < -2 ^ 31 ∧ -2 ^ 32 ≤ a + d - 1 ∨
      toInt (a + d - 1) = -1 ∧ a = -2 ^ 31 ∧ d = -2 ^ 31 := by
    simp only [toInt, signedField, Int.bmod_eq_emod]
    split <;> omega
  generalize toInt (a + d - 1) = s at wrapped
  rcases Int.lt_or_gt_of_ne divides with negative | positive
  · have product := Int.mul_nonneg nonneg (show 0 ≤ -d by omega)
    have quotient : s.tdiv d = (-s).tdiv (-d) := by rw [Int.neg_tdiv, Int.tdiv_neg, neg_neg]
    rw [quotient, succ_le_tdiv_iff nonneg (by omega), add_mul, one_mul]
    omega
  · have product := Int.mul_nonneg nonneg positive.le
    rw [succ_le_tdiv_iff nonneg positive, add_mul, one_mul]
    omega

theorem div_round_up_of_pos {n m : ℕ} (some_left : 0 < n) (positive : 0 < m) :
    divRoundUp n m = (n - 1) / m + 1 := by
  rw [divRoundUp, ← Nat.add_div_right _ positive]
  congr 1
  omega

theorem lt_div_round_up_iff {i n m : ℕ} (positive : 0 < m) : i < divRoundUp n m ↔ i * m < n := by
  rw [divRoundUp, ← Nat.succ_le_iff, Nat.le_div_iff_mul_le positive, Nat.succ_mul]
  omega

/-! ## The layout -/

structure Super where
  clean : Bool
  seq : ℕ
  base : ℤ
  limit : ℤ
deriving DecidableEq

/-- The superblock that `init_wcache` writes, and the pages of the file. -/
def initWcache (cacheSize : ℕ) : Super × ℤ :=
  let totalPages := toInt (cacheSize / 4096 : ℕ)
  let contentPages := totalPages - 2
  let map := divRoundUpInt contentPages 256
  let len := divRoundUpInt contentPages 512
  let metaPages := 2 * (map + len)
  let dataPages := contentPages - metaPages
  (⟨true, 1, 1 + metaPages, 1 + metaPages + dataPages⟩, totalPages)

/-- The journal of a file that is not too large for an `int` lies after the two header
pages and inside the file. -/
theorem init_wcache_layout {cacheSize : ℕ} (small : cacheSize < 2 ^ 31)
    (room : 8 ≤ (initWcache cacheSize).1.limit - (initWcache cacheSize).1.base) :
    5 ≤ (initWcache cacheSize).1.base ∧
      (initWcache cacheSize).1.limit < (initWcache cacheSize).2 ∧
      (initWcache cacheSize).2 = (cacheSize / 4096 : ℕ) ∧
      (initWcache cacheSize).2 < 2 ^ 19 := by
  have total : toInt (cacheSize / 4096 : ℕ) = (cacheSize / 4096 : ℕ) :=
    to_int_of_range (by omega) (by omega)
  have pages : cacheSize / 4096 < 2 ^ 19 := by omega
  simp only [initWcache, total] at room ⊢
  generalize cacheSize / 4096 = k at pages room
  by_cases content : 2 < k
  · rw [div_round_up_int_eq (by omega) (by omega) (by omega),
      div_round_up_int_eq (by omega) (by omega) (by omega)] at room ⊢
    refine ⟨?_, ?_, trivial, ?_⟩
    · omega
    · omega
    · omega
  · -- fewer than three pages leave no room
    interval_cases k
    all_goals
      revert room
      decide

/-! ## Records -/

inductive RecordType
  | data
  | pad
deriving DecidableEq

structure Header where
  type : RecordType
  len : ℤ
  seq : ℕ
  prev : ℤ
  /-- Address and sectors of each `j_extent`. -/
  extents : List (ℕ × ℕ)
deriving DecidableEq

/-- One write to the device: a header, the page it goes to and the bytes written. -/
structure Record where
  header : Header
  page : ℤ
  bytes : ℕ
deriving DecidableEq

def Record.pages (r : Record) : ℕ := divRoundUp r.bytes 4096

/-- The bookkeeping of `write_cache_impl` for the journal. -/
structure Wlog where
  base : ℤ
  limit : ℤ
  sequence : ℕ
  previousHdr : ℤ
  nextAlloc : ℤ
deriving DecidableEq

inductive Assertion
  | positive
  | inRange
deriving DecidableEq

/-- What `allocate` hands out; the pages of the pad count its header. -/
structure Allocation where
  start : ℤ
  pad : ℤ
  nPad : ℤ
  prev : ℤ

namespace Wlog

/-- The constructor; `roll_log_forward` does nothing. -/
def openLog (super : Super) : Wlog :=
  ⟨super.base, super.limit, if super.clean then super.seq else 1, 0, super.base⟩

def take (n : ℤ) (j : Wlog) : Wlog :=
  { j with
    previousHdr := j.nextAlloc
    nextAlloc := if j.nextAlloc + n = j.limit then j.base else j.nextAlloc + n }

def allocate (n : ℤ) (j : Wlog) : Except Assertion (Allocation × Wlog) :=
  if n ≤ 0 then .error .positive
  else if ¬(j.base ≤ j.nextAlloc ∧ j.nextAlloc < j.limit) then .error .inRange
  else if j.limit - j.nextAlloc < n then
    .ok (⟨j.base, j.nextAlloc, j.limit - j.nextAlloc, j.previousHdr⟩,
      { j with nextAlloc := j.base }.take n)
  else .ok (⟨j.nextAlloc, 0, 0, j.previousHdr⟩, j.take n)

def mkHeader (type : RecordType) (blks prev : ℤ) (extents : List (ℕ × ℕ)) (j : Wlog) :
    Header × Wlog :=
  (⟨type, blks, j.sequence, prev, extents⟩, { j with sequence := j.sequence + 1 })

/-- The records of `wcache_write_req`, the pad first; here `nPad` does not count the
header page. -/
def records (lba bytes : ℕ) (nPages page nPad pad prev : ℤ) (j : Wlog) :
    List Record × Wlog :=
  let extents := [(lba % 2 ^ 40, bytes / 512 % 2 ^ 24)]
  if pad ≠ 0 then
    let (padHdr, j) := j.mkHeader .pad (nPad + 1) prev []
    let (hdr, j) := j.mkHeader .data (1 + nPages) pad extents
    ([⟨padHdr, pad, 4096 * (1 + nPad.toNat)⟩, ⟨hdr, page, 4096 + bytes⟩], j)
  else
    let (hdr, j) := j.mkHeader .data (1 + nPages) prev extents
    ([⟨hdr, page, 4096 + bytes⟩], j)

def writev (lba bytes : ℕ) (j : Wlog) : Except Assertion (List Record × Wlog) :=
  let pages := divRoundUpInt bytes 4096
  (j.allocate (pages + 1)).map fun (got, j) =>
    j.records lba bytes pages got.start (got.nPad - 1) got.pad got.prev

/-! ## What a call appends -/

/-- One record more: it takes the next pages and the next number, and points back to
the record before it. -/
structure Appended (j : Wlog) (r : Record) (j' : Wlog) : Prop where
  page : r.page = j.nextAlloc
  prev : r.header.prev = j.previousHdr
  seq : r.header.seq = j.sequence
  len : r.header.len = r.pages
  filled : 0 < r.pages
  inside : r.page + r.pages ≤ j.limit
  next : j' = { j with
    sequence := j.sequence + 1
    previousHdr := r.page
    nextAlloc := if r.page + r.pages = j.limit then j.base else r.page + r.pages }

inductive Appends : Wlog → List Record → Wlog → Prop
  | nil (j : Wlog) : Appends j [] j
  | cons {j mid j' : Wlog} {r : Record} {rest : List Record} (first : Appended j r mid)
      (later : Appends mid rest j') : Appends j (r :: rest) j'

theorem Appends.append {j mid j' : Wlog} {front back : List Record}
    (first : Appends j front mid) (later : Appends mid back j') :
    Appends j (front ++ back) j' := by
  induction first with
  | nil j => exact later
  | cons one rest ih => exact .cons one (ih later)

/-- The next page to be taken is one of the ring, which starts after page 0. -/
structure Ok (j : Wlog) : Prop where
  base : 1 ≤ j.base
  lower : j.base ≤ j.nextAlloc
  upper : j.nextAlloc < j.limit

variable {j j' : Wlog} {r : Record} {recs : List Record}

theorem Appended.ok (appended : Appended j r j') (ok : j.Ok) : j'.Ok := by
  obtain ⟨base, lower, upper⟩ := ok
  obtain ⟨page, -, -, -, filled, inside, rfl⟩ := appended
  refine ⟨base, ?_, ?_⟩
  · dsimp only
    split <;> omega
  · dsimp only
    split <;> omega

theorem Appended.same (appended : Appended j r j') : j'.base = j.base ∧ j'.limit = j.limit := by
  rw [appended.next]
  exact ⟨rfl, rfl⟩

theorem Appends.ok (appends : Appends j recs j') (ok : j.Ok) : j'.Ok := by
  induction appends with
  | nil j => exact ok
  | cons first later ih => exact ih (first.ok ok)

theorem Appends.same (appends : Appends j recs j') : j'.base = j.base ∧ j'.limit = j.limit := by
  induction appends with
  | nil j => exact ⟨rfl, rfl⟩
  | cons first later ih => exact ⟨ih.1.trans first.same.1, ih.2.trans first.same.2⟩

theorem record_pages (header : Header) (page : ℤ) (bytes : ℕ) :
    (⟨header, page, 4096 + bytes⟩ : Record).pages = 1 + divRoundUp bytes 4096 := by
  simp only [Record.pages, divRoundUp]
  omega

theorem div_round_up_bytes {bytes : ℕ} (small : bytes + 4096 < 2 ^ 31) :
    divRoundUpInt bytes 4096 = divRoundUp bytes 4096 := by
  rw [div_round_up_int_eq (by omega) (by omega) (by omega), divRoundUp]
  omega

variable {lba bytes : ℕ}

theorem writev_fits (ok : j.Ok) (small : bytes + 4096 < 2 ^ 31)
    (fits : divRoundUp bytes 4096 + 1 ≤ j.limit - j.nextAlloc) :
    j.writev lba bytes = .ok
      ([⟨⟨.data, 1 + divRoundUp bytes 4096, j.sequence, j.previousHdr,
        [(lba % 2 ^ 40, bytes / 512 % 2 ^ 24)]⟩, j.nextAlloc, 4096 + bytes⟩],
      { j.take (divRoundUp bytes 4096 + 1) with sequence := j.sequence + 1 }) := by
  have := ok.lower
  have := ok.upper
  rw [writev, div_round_up_bytes small, allocate, if_neg (by omega), if_neg (by omega),
    if_neg (by omega)]
  rfl

theorem writev_pads (ok : j.Ok) (small : bytes + 4096 < 2 ^ 31)
    (short : j.limit - j.nextAlloc < divRoundUp bytes 4096 + 1) :
    j.writev lba bytes = .ok
      ([⟨⟨.pad, j.limit - j.nextAlloc - 1 + 1, j.sequence, j.previousHdr, []⟩, j.nextAlloc,
          4096 * (1 + (j.limit - j.nextAlloc - 1).toNat)⟩,
        ⟨⟨.data, 1 + divRoundUp bytes 4096, j.sequence + 1, j.nextAlloc,
          [(lba % 2 ^ 40, bytes / 512 % 2 ^ 24)]⟩, j.base, 4096 + bytes⟩],
      { { j with nextAlloc := j.base }.take (divRoundUp bytes 4096 + 1) with
        sequence := j.sequence + 1 + 1 }) := by
  have := ok.base
  have := ok.lower
  have := ok.upper
  rw [writev, div_round_up_bytes small, allocate, if_neg (by omega), if_neg (by omega),
    if_pos short]
  have padded : j.nextAlloc ≠ 0 := by omega
  simp only [Except.map, records, if_pos padded]
  rfl

theorem appended_data {bytes : ℕ} (extents : List (ℕ × ℕ))
    (fits : divRoundUp bytes 4096 + 1 ≤ j.limit - j.nextAlloc) :
    Appended j ⟨⟨.data, 1 + divRoundUp bytes 4096, j.sequence, j.previousHdr, extents⟩,
        j.nextAlloc, 4096 + bytes⟩
      { j.take (divRoundUp bytes 4096 + 1) with sequence := j.sequence + 1 } := by
  refine ⟨rfl, rfl, rfl, ?_, ?_, ?_, ?_⟩
  · rw [record_pages]
    push_cast
    rfl
  · rw [record_pages]
    omega
  · rw [record_pages]
    push_cast
    omega
  · rw [record_pages]
    push_cast
    simp only [take, add_comm]

theorem appended_pad (upper : j.nextAlloc < j.limit) :
    Appended j ⟨⟨.pad, j.limit - j.nextAlloc - 1 + 1, j.sequence, j.previousHdr, []⟩,
        j.nextAlloc, 4096 * (1 + (j.limit - j.nextAlloc - 1).toNat)⟩
      ⟨j.base, j.limit, j.sequence + 1, j.nextAlloc, j.base⟩ := by
  have covered : (4096 * (1 + (j.limit - j.nextAlloc - 1).toNat) + 4096 - 1) / 4096 =
      (j.limit - j.nextAlloc).toNat := by omega
  refine ⟨rfl, rfl, rfl, ?_, ?_, ?_, ?_⟩
  all_goals simp only [Record.pages, divRoundUp, covered]
  · omega
  · omega
  · omega
  · rw [if_pos (by omega)]

/-- A chunk that fits the ring is written without a failed assertion: one record, or a
pad to the end of the ring and a record at its start. -/
theorem writev_appends (lba : ℕ) {bytes : ℕ} (ok : j.Ok) (small : bytes + 4096 < 2 ^ 31)
    (fits : divRoundUp bytes 4096 + 1 ≤ j.limit - j.base) :
    ∃ recs j', j.writev lba bytes = .ok (recs, j') ∧ Appends j recs j' := by
  rcases Int.lt_or_le (j.limit - j.nextAlloc) (divRoundUp bytes 4096 + 1) with short | room
  · exact ⟨_, _, writev_pads ok small short,
      .cons (appended_pad ok.upper) (.cons (appended_data _ fits) (.nil _))⟩
  · exact ⟨_, _, writev_fits ok small room, .cons (appended_data _ room) (.nil _)⟩

theorem allocate_sequence {n : ℤ} {got : Allocation} (allocated : j.allocate n = .ok (got, j')) :
    j'.sequence = j.sequence := by
  unfold allocate at allocated
  split at allocated
  · cases allocated
  · split at allocated
    · cases allocated
    · split at allocated
      · cases allocated
        rfl
      · cases allocated
        rfl

theorem records_sequence (lba bytes : ℕ) (nPages page nPad pad prev : ℤ) (j : Wlog) :
    j.sequence < (j.records lba bytes nPages page nPad pad prev).2.sequence := by
  unfold records
  split
  · show j.sequence < j.sequence + 1 + 1
    omega
  · show j.sequence < j.sequence + 1
    omega

theorem writev_sequence {recs : List Record} (written : j.writev lba bytes = .ok (recs, j')) :
    j.sequence < j'.sequence := by
  unfold writev at written
  dsimp only at written
  cases allocated : j.allocate (divRoundUpInt bytes 4096 + 1) with
  | error failed =>
      rw [allocated] at written
      cases written
  | ok result =>
      rw [allocated] at written
      have later := records_sequence lba bytes (divRoundUpInt bytes 4096) result.1.start
        (result.1.nPad - 1) result.1.pad result.1.prev result.2
      rw [allocate_sequence allocated] at later
      have same := congrArg (fun r => r.2.sequence) (Except.ok.inj written)
      exact later.trans_eq same

/-! ## The chain of records -/

/-- The records of a journal in the order they were placed: numbers and back links go on
from record to record, and each record starts where the one before it ended. -/
structure Chain (first : ℕ) (base limit : ℤ) (log : List Record) : Prop where
  numbered : ∀ (i : ℕ) (r : Record), log[i]? = some r → r.header.seq = first + i
  covered : ∀ r ∈ log, r.header.len = r.pages
  inside : ∀ r ∈ log, base ≤ r.page ∧ r.page + r.pages ≤ limit
  headed : ∀ r : Record, log[0]? = some r → r.header.prev = 0 ∧ r.page = base
  linked : ∀ (i : ℕ) (a b : Record), log[i]? = some a → log[i + 1]? = some b →
    b.header.prev = a.page ∧
      b.page = if a.page + a.pages = limit then base else a.page + a.pages

theorem Appends.numbered (appends : Appends j recs j') {i : ℕ} (found : recs[i]? = some r) :
    r.header.seq = j.sequence + i := by
  induction appends generalizing i with
  | nil j => simp at found
  | cons first later ih =>
      cases i with
      | zero =>
          cases found
          exact first.seq
      | succ i =>
          have next := ih found
          simp only [first.next] at next
          omega

theorem Appends.inside (appends : Appends j recs j') (ok : j.Ok) (member : r ∈ recs) :
    r.header.len = r.pages ∧ j.base ≤ r.page ∧ r.page + r.pages ≤ j.limit := by
  induction appends with
  | nil j => cases member
  | cons first later ih =>
      rcases List.mem_cons.mp member with rfl | rest
      · refine ⟨first.len, ?_, first.inside⟩
        rw [first.page]
        exact ok.lower
      · have inside := ih (first.ok ok) rest
        rwa [first.same.1, first.same.2] at inside

theorem Appends.headed (appends : Appends j recs j') (found : recs[0]? = some r) :
    r.header.prev = j.previousHdr ∧ r.page = j.nextAlloc := by
  cases appends with
  | nil => simp at found
  | cons first later =>
      cases found
      exact ⟨first.prev, first.page⟩

theorem Appends.linked (appends : Appends j recs j') {i : ℕ} {a b : Record}
    (before : recs[i]? = some a) (after : recs[i + 1]? = some b) :
    b.header.prev = a.page ∧
      b.page = if a.page + a.pages = j.limit then j.base else a.page + a.pages := by
  induction appends generalizing i with
  | nil j => simp at before
  | cons first later ih =>
      cases i with
      | zero =>
          cases before
          obtain ⟨prev, page⟩ := later.headed after
          rw [first.next] at prev page
          exact ⟨prev, page⟩
      | succ i =>
          have linked := ih before after
          rwa [first.same.1, first.same.2] at linked

theorem Appends.chain {super : Super} (appends : Appends (openLog super) recs j)
    (ok : (openLog super).Ok) :
    Chain (openLog super).sequence super.base super.limit recs where
  numbered := fun _ _ found => appends.numbered found
  covered := fun _ member => (appends.inside ok member).1
  inside := fun _ member => (appends.inside ok member).2
  headed := fun _ found => appends.headed found
  linked := fun _ _ _ before after => appends.linked before after

end Wlog

end LsvdRbd.Journal
