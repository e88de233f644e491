import LsvdRbd.Translate.Worker

/-!
# Where headers and data are placed

A batch is collected in a buffer that is allocated for `backend_obj_bytes` of
data and a reserve in front of them; `process_batch` builds the header just
before the data, as long as the number of writes makes it. `write_gc` does the
same with a buffer of its own. Positions are counted in bytes from the start of
the buffer.
-/

namespace LsvdRbd.Translate

open Records RunList ExtentMap Format

set_option autoImplicit false

/-! ## Batches -/

/-- `max_hdr_bytes` of a `REQ_PUT`: one map entry for every 2048 bytes, and the
sum narrowed to an `int`. -/
def maxHdrBytes (objBytes : ℕ) : ℤ := signedField 32 (1024 + (objBytes / 2048 : ℕ) * 8)

def batchBytes (objBytes : ℕ) : ℤ := (objBytes + maxHdrBytes objBytes) % 2 ^ 64

/-- The buffer of a `REQ_PUT`: what was allocated, where its data begin, the
sectors of every write, and the byte ranges that `copy_out` has filled. -/
structure BatchBuf where
  size : ℤ
  dataPtr : ℤ
  len : ℕ
  max : ℕ
  writes : List ℕ
  copied : List (ℤ × ℤ)

namespace BatchBuf

def new (objBytes : ℕ) : BatchBuf where
  size := batchBytes objBytes
  dataPtr := maxHdrBytes objBytes
  len := 0
  max := objBytes
  writes := []
  copied := []

def append (b : BatchBuf) (n : ℕ) : BatchBuf :=
  { b with
    copied := b.copied ++ [(b.dataPtr + b.len, b.dataPtr + b.len + 512 * n)]
    writes := b.writes ++ [n]
    len := b.len + 512 * n }

def room (b : BatchBuf) (n : ℕ) : Bool := decide ((b.len + 512 * n) % 2 ^ 64 ≤ b.max)

/-- `hdr_ptr` of `process_batch`; sizes that overflow an `int` give none. -/
def hdrPtr (b : BatchBuf) : Option ℤ :=
  if 72 + 8 * b.writes.length + 4095 < 2 ^ 31 then
    some (b.dataPtr - 512 * hdrSectorsFor b.writes.length)
  else none

def DataInside (b : BatchBuf) : Prop := ∀ range ∈ b.copied, 0 ≤ range.1 ∧ range.2 ≤ b.size

def HdrInside (b : BatchBuf) : Prop := ∃ ptr, b.hdrPtr = some ptr ∧ 0 ≤ ptr

end BatchBuf

inductive Feed
  | write (sectors : ℕ)
  | roll
  deriving DecidableEq

structure Feeder where
  queue : List BatchBuf
  current : BatchBuf

namespace Feeder

def batches (f : Feeder) : List BatchBuf := f.queue ++ [f.current]

/-- `writev`: a write for which there is no room starts a new batch, whose room
is not looked at. -/
def step (objBytes : ℕ) (f : Feeder) : Feed → Feeder
  | .write n =>
      if f.current.room n then { f with current := f.current.append n }
      else ⟨f.queue ++ [f.current], (BatchBuf.new objBytes).append n⟩
  | .roll =>
      if 0 < f.current.len then ⟨f.queue ++ [f.current], BatchBuf.new objBytes⟩ else f

end Feeder

def feed (objBytes : ℕ) (events : List Feed) : Feeder :=
  events.foldl (Feeder.step objBytes) ⟨[], BatchBuf.new objBytes⟩

/-- How the writes fall into batches: each one joins the batch before it if the
bytes still fit. -/
def groups (objBytes : ℕ) : List ℕ → List Feed → List (List ℕ)
  | group, [] => [group]
  | group, .write n :: rest =>
      if 512 * (group.sum + n) ≤ objBytes then groups objBytes (group ++ [n]) rest
      else group :: groups objBytes [n] rest
  | group, .roll :: rest =>
      if 0 < group.sum then group :: groups objBytes [] rest else groups objBytes group rest

/-- The reserve holds the header of this many writes, in whole pages. -/
def HdrFits (reserve : ℤ) (n : ℕ) : Prop :=
  72 + 8 * n + 4095 < 2 ^ 31 ∧ (4096 * divRoundUp (72 + 8 * n) 4096 : ℕ) ≤ reserve

instance (reserve : ℤ) (n : ℕ) : Decidable (HdrFits reserve n) :=
  inferInstanceAs (Decidable (_ ∧ _))

theorem hdr_sectors_eq (n : ℕ) : 512 * hdrSectorsFor n = 4096 * divRoundUp (72 + 8 * n) 4096 := by
  have sizes : CommonHdr.packed.size = 44 ∧ DataHdr.packed.size = 28 := ⟨rfl, rfl⟩
  rw [hdrSectorsFor, sizes.1, sizes.2, show 44 + 28 + n * 8 = 72 + 8 * n by ring]
  ring

structure Holds (objBytes : ℕ) (b : BatchBuf) (group : List ℕ) : Prop where
  size : b.size = batchBytes objBytes
  dataPtr : b.dataPtr = maxHdrBytes objBytes
  max : b.max = objBytes
  writes : b.writes = group
  len : b.len = 512 * group.sum
  copied : ∀ stop, (∀ range ∈ b.copied, range.2 ≤ stop) ↔
    (group ≠ [] → b.dataPtr + 512 * group.sum ≤ stop)
  start : ∀ range ∈ b.copied, b.dataPtr ≤ range.1
  unused : group = [] → b.copied = []

theorem Holds.new (objBytes : ℕ) : Holds objBytes (BatchBuf.new objBytes) [] := by
  constructor <;> simp [BatchBuf.new]

theorem Holds.append {objBytes : ℕ} {b : BatchBuf} {group : List ℕ} (holds : Holds objBytes b group)
    (n : ℕ) : Holds objBytes (b.append n) (group ++ [n]) := by
  have len := holds.len
  have sum : (group ++ [n]).sum = group.sum + n := by simp
  refine ⟨?_, ?_, ?_, ?_, ?_, ?_, ?_, ?_⟩
  · rw [BatchBuf.append, holds.size]
  · rw [BatchBuf.append, holds.dataPtr]
  · rw [BatchBuf.append, holds.max]
  · rw [BatchBuf.append, holds.writes]
  · change b.len + 512 * n = _
    rw [sum]
    omega
  · intro stop
    have earlier := holds.copied stop
    simp only [BatchBuf.append, List.forall_mem_append, List.forall_mem_singleton, earlier, sum, len]
    push_cast
    constructor
    · rintro ⟨-, last⟩ -
      omega
    · intro bound
      have := bound (by simp)
      exact ⟨fun _ => by omega, by omega⟩
  · simp only [BatchBuf.append, List.forall_mem_append, List.forall_mem_singleton]
    exact ⟨holds.start, by omega⟩
  · simp

/-- A batch stays in its buffer exactly if its bytes and its header fit. -/
theorem Holds.inside_iff {objBytes : ℕ} {b : BatchBuf} {group : List ℕ}
    (holds : Holds objBytes b group) (allocated : objBytes + maxHdrBytes objBytes < 2 ^ 63)
    (some_write : group ≠ []) :
    b.DataInside ∧ b.HdrInside ↔
      512 * group.sum ≤ objBytes ∧ HdrFits (maxHdrBytes objBytes) group.length := by
  have header : b.HdrInside ↔ HdrFits (maxHdrBytes objBytes) group.length := by
    have region : (512 * hdrSectorsFor group.length : ℤ) =
        (4096 * divRoundUp (72 + 8 * group.length) 4096 : ℕ) := by
      exact_mod_cast hdr_sectors_eq group.length
    unfold BatchBuf.HdrInside BatchBuf.hdrPtr HdrFits
    rw [holds.writes, holds.dataPtr, region]
    split
    · next small =>
        simp only [Option.some.injEq, exists_eq_left', small, true_and]
        omega
    · next large =>
        constructor
        · rintro ⟨ptr, none, -⟩
          cases none
        · rintro ⟨small, -⟩
          exact absurd small large
  rw [header]
  refine and_congr_left fun fits => ?_
  have reserve : 0 ≤ maxHdrBytes objBytes := by
    have := fits.2
    omega
  have size : b.size = objBytes + maxHdrBytes objBytes := by
    rw [holds.size, batchBytes]
    omega
  have stops := holds.copied b.size
  unfold BatchBuf.DataInside
  constructor
  · intro inside
    have := stops.mp (fun range member => (inside range member).2) some_write
    rw [holds.dataPtr] at this
    omega
  · intro bytes range member
    have begins := holds.start range member
    rw [holds.dataPtr] at begins
    refine ⟨by omega, stops.mpr (fun _ => ?_) range member⟩
    rw [holds.dataPtr]
    omega

theorem Holds.room_iff {objBytes : ℕ} {b : BatchBuf} {group : List ℕ}
    (holds : Holds objBytes b group) {n : ℕ} (small : 512 * group.sum + 512 * n < 2 ^ 64) :
    b.room n = true ↔ 512 * (group.sum + n) ≤ objBytes := by
  rw [BatchBuf.room, decide_eq_true_iff, holds.len, holds.max, Nat.mod_eq_of_lt small, mul_add]

theorem fold_groups {objBytes : ℕ} (objSmall : objBytes < 2 ^ 63 + 2 ^ 31) (events : List Feed)
    (small : ∀ n, .write n ∈ events → 512 * n < 2 ^ 62) (f : Feeder) {group : List ℕ}
    (holds : Holds objBytes f.current group)
    (bound : 512 * group.sum ≤ objBytes ∨ 512 * group.sum < 2 ^ 62) :
    ∃ pairs : List (BatchBuf × List ℕ),
      (events.foldl (Feeder.step objBytes) f).batches = f.queue ++ pairs.map Prod.fst ∧
        groups objBytes group events = pairs.map Prod.snd ∧
        ∀ pair ∈ pairs, Holds objBytes pair.1 pair.2 := by
  induction events generalizing f group with
  | nil => exact ⟨[(f.current, group)], rfl, rfl, by simpa using holds⟩
  | cons event events ih =>
      have later : ∀ n, .write n ∈ events → 512 * n < 2 ^ 62 :=
        fun n member => small n (by simp [member])
      cases event with
      | write n =>
          have here := small n (by simp)
          have room := holds.room_iff (n := n) (by omega)
          rw [List.foldl_cons, groups]
          by_cases fits : 512 * (group.sum + n) ≤ objBytes
          · have taken : f.step objBytes (.write n) = { f with current := f.current.append n } :=
              if_pos (room.mpr fits)
            rw [if_pos fits, taken]
            refine ih later _ (holds.append n) (.inl ?_)
            rw [List.sum_append, List.sum_singleton]
            exact fits
          · have started : f.step objBytes (.write n) =
                ⟨f.queue ++ [f.current], (BatchBuf.new objBytes).append n⟩ :=
              if_neg (fun yes => fits (room.mp yes))
            rw [if_neg fits, started]
            obtain ⟨pairs, batches, same, all⟩ := ih later
              ⟨f.queue ++ [f.current], (BatchBuf.new objBytes).append n⟩
              ((Holds.new objBytes).append n) (.inr (by simpa using here))
            exact ⟨(f.current, group) :: pairs, by simp [batches], congrArg (group :: ·) same,
              List.forall_mem_cons.mpr ⟨holds, all⟩⟩
      | roll =>
          rw [List.foldl_cons, groups]
          have len := holds.len
          by_cases filled : 0 < group.sum
          · have queued : f.step objBytes .roll =
                ⟨f.queue ++ [f.current], BatchBuf.new objBytes⟩ := if_pos (by omega)
            rw [if_pos filled, queued]
            obtain ⟨pairs, batches, same, all⟩ := ih later
              ⟨f.queue ++ [f.current], BatchBuf.new objBytes⟩ (Holds.new objBytes)
              (.inr (by simp))
            exact ⟨(f.current, group) :: pairs, by simp [batches], congrArg (group :: ·) same,
              List.forall_mem_cons.mpr ⟨holds, all⟩⟩
          · have kept : f.step objBytes .roll = f := if_neg (by omega)
            rw [if_neg filled, kept]
            exact ih later f holds bound

theorem groups_sum_le {objBytes : ℕ} (events : List Feed)
    (each : ∀ n, .write n ∈ events → 512 * n ≤ objBytes) {group : List ℕ}
    (start : 512 * group.sum ≤ objBytes) :
    ∀ g ∈ groups objBytes group events, 512 * g.sum ≤ objBytes := by
  induction events generalizing group with
  | nil => simpa [groups] using start
  | cons event events ih =>
      have later : ∀ n, .write n ∈ events → 512 * n ≤ objBytes :=
        fun n member => each n (by simp [member])
      cases event with
      | write n =>
          rw [groups]
          split
          · next fits => exact ih later (by rwa [List.sum_append, List.sum_singleton])
          · rw [List.forall_mem_cons]
            exact ⟨start, ih later (by simpa using each n (by simp))⟩
      | roll =>
          rw [groups]
          split
          · rw [List.forall_mem_cons]
            exact ⟨start, ih later (by simp)⟩
          · exact ih later start

theorem mem_groups (objBytes : ℕ) (events : List Feed) (group : List ℕ) {n : ℕ}
    (member : n ∈ group ∨ .write n ∈ events) : ∃ g ∈ groups objBytes group events, n ∈ g := by
  induction events generalizing group with
  | nil =>
      simp only [List.not_mem_nil, or_false] at member
      exact ⟨group, by simp [groups], member⟩
  | cons event events ih =>
      cases event with
      | write k =>
          simp only [List.mem_cons, Feed.write.injEq] at member
          rw [groups]
          split
          · refine ih (group ++ [k]) ?_
            simp only [List.mem_append, List.mem_singleton]
            tauto
          · rcases member with inGroup | isFirst | inRest
            · exact ⟨group, by simp, inGroup⟩
            · obtain ⟨g, inGroups, found⟩ := ih [k] (.inl (by simp [isFirst]))
              exact ⟨g, by simp [inGroups], found⟩
            · obtain ⟨g, inGroups, found⟩ := ih [k] (.inr inRest)
              exact ⟨g, by simp [inGroups], found⟩
      | roll =>
          simp only [List.mem_cons, reduceCtorEq, false_or] at member
          rw [groups]
          split
          · rcases member with inGroup | inRest
            · exact ⟨group, by simp, inGroup⟩
            · obtain ⟨g, inGroups, found⟩ := ih [] (.inr inRest)
              exact ⟨g, by simp [inGroups], found⟩
          · exact ih group member

/-! ## Garbage collection objects -/

def gcMaxHdrBytes (objBytes : ℕ) : ℤ := signedField 32 (72 + (objBytes / 2048 : ℕ) * 8)

def gcMaxHdrSectors (objBytes : ℕ) : ℤ := (gcMaxHdrBytes objBytes + 511).tdiv 512

/-- Where `write_gc` builds the header of an object with `n` extents, in a buffer
for the sectors requested; sizes that overflow an `int` give none. -/
def gcHdrPtr (objBytes requested n : ℕ) : Option ℤ :=
  if gcMaxHdrBytes objBytes + 511 < 2 ^ 31 ∧
      (gcMaxHdrSectors objBytes + requested) * 512 < 2 ^ 31 ∧ 72 + 8 * n + 4095 < 2 ^ 31 then
    some (gcMaxHdrSectors objBytes * 512 - 512 * hdrSectorsFor n)
  else none

def GcHdrInside (objBytes requested n : ℕ) : Prop :=
  ∃ ptr, gcHdrPtr objBytes requested n = some ptr ∧ 0 ≤ ptr

theorem gc_hdr_inside_iff (objBytes requested n : ℕ) :
    GcHdrInside objBytes requested n ↔
      gcMaxHdrBytes objBytes + 511 < 2 ^ 31 ∧
        (gcMaxHdrSectors objBytes + requested) * 512 < 2 ^ 31 ∧
        HdrFits (gcMaxHdrSectors objBytes * 512) n := by
  have region : (512 * hdrSectorsFor n : ℤ) = (4096 * divRoundUp (72 + 8 * n) 4096 : ℕ) := by
    exact_mod_cast hdr_sectors_eq n
  unfold GcHdrInside gcHdrPtr HdrFits
  rw [region]
  split
  · next small =>
      simp only [Option.some.injEq, exists_eq_left', small, true_and]
      omega
  · next large =>
      constructor
      · rintro ⟨ptr, none, -⟩
        cases none
      · rintro ⟨first, second, third, -⟩
        exact absurd ⟨first, second, third⟩ large

/-! ## Exactly when everything fits -/

/-- All data and headers lie in their buffers exactly if no write is larger than
an object, no batch takes in more writes than the reserve has room for, and no
garbage collection request leaves more extents than its reserve has room for. -/
theorem headers_and_data_fit_iff {σ : Type*} (objBytes chunkBytes : ℕ)
    (allocated : objBytes + maxHdrBytes objBytes < 2 ^ 63) :
    (∀ events : List Feed,
      (∀ n, .write n ∈ events → 0 < n ∧ 512 * n ≤ chunkBytes ∧ 512 * n < 2 ^ 62) →
      ((∀ b ∈ (feed objBytes events).batches, b.DataInside ∧ (b.writes ≠ [] → b.HdrInside)) ↔
        (∀ n, .write n ∈ events → 512 * n ≤ objBytes) ∧
          ∀ g ∈ groups objBytes [] events, g ≠ [] → HdrFits (maxHdrBytes objBytes) g.length)) ∧
    ∀ (m : Objmap) (entries : List MapEntry) (input : List σ),
      GcHdrInside objBytes (sectors (entryRanges entries)).toNat
          (gcExtents (revalidate m entries input)).length ↔
        gcMaxHdrBytes objBytes + 511 < 2 ^ 31 ∧
          (gcMaxHdrSectors objBytes + (sectors (entryRanges entries)).toNat) * 512 < 2 ^ 31 ∧
          HdrFits (gcMaxHdrSectors objBytes * 512) (gcExtents (revalidate m entries input)).length := by
  refine ⟨?_, fun m entries input => gc_hdr_inside_iff _ _ _⟩
  intro events writes
  have lower : -2 ^ 31 ≤ maxHdrBytes objBytes := by
    unfold maxHdrBytes signedField
    have := Int.le_bmod (x := 1024 + ((objBytes / 2048 : ℕ) : ℤ) * 8) (m := 2 ^ 32) (by norm_num)
    norm_num at this ⊢
    omega
  obtain ⟨pairs, batches, same, all⟩ := fold_groups (by omega) events
    (fun n member => (writes n member).2.2) ⟨[], BatchBuf.new objBytes⟩ (Holds.new objBytes)
    (.inr (by simp))
  rw [feed, batches, same, List.nil_append, List.forall_mem_map, List.forall_mem_map]
  constructor
  · intro inside
    have fits : ∀ pair ∈ pairs, pair.2 ≠ [] →
        512 * pair.2.sum ≤ objBytes ∧ HdrFits (maxHdrBytes objBytes) pair.2.length := by
      intro pair member some_write
      have both := inside pair member
      exact ((all pair member).inside_iff allocated some_write).mp
        ⟨both.1, both.2 (by rw [(all pair member).writes]; exact some_write)⟩
    refine ⟨?_, fun pair member some_write => (fits pair member some_write).2⟩
    intro n member
    obtain ⟨g, inGroups, found⟩ := mem_groups objBytes events [] (.inr member)
    rw [same] at inGroups
    obtain ⟨pair, inPairs, rfl⟩ := List.mem_map.mp inGroups
    have bytes := (fits pair inPairs (List.ne_nil_of_mem found)).1
    have := List.single_le_sum (fun _ _ => Nat.zero_le _) n found
    omega
  · rintro ⟨each, headers⟩ pair member
    have holds := all pair member
    by_cases none : pair.2 = []
    · refine ⟨?_, fun some_write => absurd (holds.writes.trans none) some_write⟩
      unfold BatchBuf.DataInside
      rw [holds.unused none]
      simp
    · have bytes := groups_sum_le events each (by simp) pair.2
        (same ▸ List.mem_map_of_mem member : pair.2 ∈ groups objBytes [] events)
      have both := (holds.inside_iff allocated none).mpr ⟨bytes, headers pair member none⟩
      exact ⟨both.1, fun _ => both.2⟩

/-- Two batches and a garbage collection request with the default sizes. -/
theorem headers_and_data_fit_default :
    (∀ b ∈ (feed (2 ^ 23) [.write 8, .write 16, .roll, .write 1]).batches,
      b.DataInside ∧ (b.writes ≠ [] → b.HdrInside)) ∧
    GcHdrInside (2 ^ 23) 4 (gcExtents (revalidate (mapExtents 1 8 [(0, 4)] Extmap.empty).1
      [⟨0, 4, 1, 8⟩] ['a', 'b', 'c', 'd'])).length := by
  have allocated : (((2 ^ 23 : ℕ) : ℤ)) + maxHdrBytes (2 ^ 23) < 2 ^ 63 := by decide
  constructor
  · refine ((@headers_and_data_fit_iff Char (2 ^ 23) (2 ^ 21) allocated).1 _ ?_).mpr
      ⟨?_, by decide⟩
    · intro n member
      simp only [List.mem_cons, Feed.write.injEq, reduceCtorEq, List.not_mem_nil, or_false,
        false_or] at member
      omega
    · intro n member
      simp only [List.mem_cons, Feed.write.injEq, reduceCtorEq, List.not_mem_nil, or_false,
        false_or] at member
      omega
  · exact ((headers_and_data_fit_iff (2 ^ 23) (2 ^ 21) allocated).2 _ [⟨0, 4, 1, 8⟩] _).mpr
      (by decide +kernel)

theorem groups_of_room {objBytes : ℕ} (writes : List ℕ) {group : List ℕ}
    (fits : 512 * (group.sum + writes.sum) ≤ objBytes) :
    groups objBytes group (writes.map .write) = [group ++ writes] := by
  induction writes generalizing group with
  | nil => simp [groups]
  | cons n rest ih =>
      rw [List.sum_cons] at fits
      have sum : (group ++ [n]).sum = group.sum + n := by simp
      rw [List.map_cons, groups, if_pos (by omega), ih (by rw [sum]; omega)]
      simp

/-- With the default sizes, `room` admits 4088 writes of one sector to a batch;
their header begins 3072 bytes before the buffer. As many extents that survive
in a request put its header before `gc_buf`. -/
theorem header_before_buffer :
    (∃ b ∈ (feed (2 ^ 23) ((List.replicate 4088 1).map .write)).batches,
      b.hdrPtr = some (-3072) ∧ ¬b.HdrInside) ∧
      gcHdrPtr (2 ^ 23) 4088 4088 = some (-3584) ∧ ¬GcHdrInside (2 ^ 23) 4088 4088 := by
  have alone : groups (2 ^ 23) [] ((List.replicate 4088 1).map .write) =
      [List.replicate 4088 1] := by
    rw [groups_of_room]
    · rfl
    · rw [List.sum_replicate]
      norm_num
  have small : ∀ n, .write n ∈ (List.replicate 4088 1).map Feed.write → 512 * n < 2 ^ 62 := by
    intro n member
    obtain ⟨k, inList, same⟩ := List.mem_map.mp member
    rw [List.eq_of_mem_replicate inList] at same
    obtain rfl := Feed.write.inj same
    norm_num
  obtain ⟨pairs, batches, same, all⟩ := @fold_groups (2 ^ 23) (by norm_num)
    ((List.replicate 4088 1).map .write) small ⟨[], BatchBuf.new (2 ^ 23)⟩ [] (Holds.new _)
    (.inr (by simp))
  rw [alone] at same
  obtain ⟨pair, rfl⟩ : ∃ pair, pairs = [pair] := by
    rw [← List.length_eq_one_iff, ← List.length_map Prod.snd, ← same]
    rfl
  have group : List.replicate 4088 1 = pair.2 := (List.cons.inj same).1
  have holds := all pair (by simp)
  have placed : pair.1.hdrPtr = some (-3072) := by
    unfold BatchBuf.hdrPtr
    rw [holds.writes, ← group, List.length_replicate, holds.dataPtr]
    decide +kernel
  refine ⟨⟨pair.1, ?_, placed, ?_⟩, by decide +kernel, ?_⟩
  · rw [feed, batches]
    simp
  · rintro ⟨ptr, found, inside⟩
    rw [placed] at found
    cases found
    omega
  · rw [gc_hdr_inside_iff]
    decide +kernel

end LsvdRbd.Translate
