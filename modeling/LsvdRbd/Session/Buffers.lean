import LsvdRbd.ExtentMap.Displaced
import LsvdRbd.Session.Collector

/-!
# The buffer map and the blocks it points into

Every extent of the buffer map lies in the block of one request. Blocks keep a
distance, so that extents of two blocks are never merged and `notify` removes
exactly what points into its own block.
-/

namespace LsvdRbd.Session

open Records RunList ExtentMap Format Translate Recovery

set_option autoImplicit false

variable {σ : Type*}

def Distant (cap a b : ℤ) : Prop := a + cap < b ∨ b + cap < a

instance (cap : ℤ) : Std.Symm (Distant cap) := ⟨fun _ _ => Or.symm⟩

structure InBlock (cap : ℤ) (bases : List ℤ) (e : Extent SectorPtr) : Prop where
  lower : 0 ≤ e.base
  upper : e.limit ≤ 2 ^ 35
  length : 0 ≤ e.len
  block : ∃ b ∈ bases, b ≤ e.ptr.buf ∧ e.ptr.buf + e.len * 512 ≤ b + cap

/-- The blocks of a session: distant, and of less than `2^31` bytes. -/
structure Blocks (cap : ℤ) (bases : List ℤ) : Prop where
  small : cap < 2 ^ 31
  distant : bases.Pairwise (Distant cap)

variable {bases : List ℤ} {cap : ℤ}

theorem Blocks.eq_of_meet (blocks : Blocks cap bases) {a b q : ℤ} (inA : a ∈ bases)
    (inB : b ∈ bases) (aLow : a ≤ q) (aHigh : q ≤ a + cap) (bLow : b ≤ q) (bHigh : q ≤ b + cap) :
    a = b := by
  by_contra different
  have apart := blocks.distant.forall inA inB different
  unfold Distant at apart
  omega

variable {b l : ℤ}

theorem InBlock.slice {e : Extent SectorPtr} (inside : InBlock cap bases e) (start : e.base ≤ b)
    (order : b ≤ l) (stop : l ≤ e.limit) :
    InBlock cap bases (e.slice b l) := by
  obtain ⟨lower, upper, length, base, member, first, last⟩ := inside
  have limit : e.limit = e.base + e.len := rfl
  refine ⟨by rw [slice_base]; omega, by rw [slice_limit]; omega, by rw [slice_len]; omega,
    base, member, ?_, ?_⟩
  · rw [slice_ptr, vadd_buf]
    omega
  · rw [slice_ptr, vadd_buf, slice_len]
    omega

theorem InBlock.join (blocks : Blocks cap bases) {left right : Extent SectorPtr}
    (leftInside : InBlock cap bases left) (rightInside : InBlock cap bases right)
    (joins : Joins left right) :
    InBlock cap bases (left.join right) := by
  obtain ⟨leftLower, -, leftLength, a, leftMember, leftFirst, leftLast⟩ := leftInside
  obtain ⟨-, rightUpper, rightLength, b, rightMember, rightFirst, rightLast⟩ := rightInside
  have meet := congrArg SectorPtr.buf joins.2
  rw [vadd_buf] at meet
  have same : a = b := blocks.eq_of_meet leftMember rightMember
    (by omega : a ≤ right.ptr.buf) (by omega) (by omega) (by omega)
  subst same
  exact ⟨leftLower, by rw [join_limit joins]; exact rightUpper,
    by simp only [Run.join]; omega, a, leftMember, leftFirst,
    by simp only [Run.join]; omega⟩

theorem InBlock.fits (blocks : Blocks cap bases) {e : Extent SectorPtr}
    (inside : InBlock cap bases e) : Layout.lba2buf.Fits e := by
  obtain ⟨lower, upper, length, b, -, first, last⟩ := inside
  have := blocks.small
  exact Layout.lba2buf_fits lower (by omega) (by omega)

def bufBounds {cap : ℤ} {bases : List ℤ} (blocks : Blocks cap bases) : Bounds SectorPtr where
  holds := InBlock cap bases
  slice inside start order stop := inside.slice start order stop
  join left right joins := left.join blocks right joins
  fits inside := inside.fits blocks

theorem bufmap_key {x : ℤ} (lower : 0 ≤ x) (upper : x < 2 ^ 38) : KeyOf SectorPtr x :=
  unsigned_field_of_range 38 x lower upper

section Pointers

variable {cap : ℤ} {bases : List ℤ} {blocks : Blocks cap bases} {m : Bufmap}

theorem located_in_block (bounded : Bounded (bufBounds blocks) m) {x : ℤ} {p : SectorPtr}
    (found : locate m x = some p) :
    0 ≤ x ∧ x < 2 ^ 35 ∧ ∃ b ∈ bases, b ≤ p.buf ∧ p.buf + 512 ≤ b + cap := by
  obtain ⟨e, member, ⟨start, stop⟩, rfl⟩ := (bounded.locate_eq_some_iff x p).mp found
  obtain ⟨lower, upper, -, b, inBases, first, last⟩ := bounded.within e member
  have limit : e.limit = e.base + e.len := rfl
  refine ⟨by omega, by omega, b, inBases, ?_, ?_⟩
  · rw [vadd_buf]
    omega
  · rw [vadd_buf]
    omega

theorem next_in_block (bounded : Bounded (bufBounds blocks) m) {a : ℤ} (member : a ∈ bases)
    {x : ℤ} {p : SectorPtr} (here : locate m x = some p)
    (next : locate m (x + 1) = some ((1 : ℤ) +ᵥ p)) :
    a ≤ p.buf ∧ p.buf < a + cap ↔
      a ≤ ((1 : ℤ) +ᵥ p).buf ∧ ((1 : ℤ) +ᵥ p).buf < a + cap := by
  obtain ⟨-, -, b, inBases, first, last⟩ := located_in_block bounded here
  obtain ⟨-, -, c, nextInBases, nextFirst, nextLast⟩ := located_in_block bounded next
  rw [vadd_buf] at nextFirst nextLast ⊢
  -- the end of the first sector is the start of the second
  have same : b = c := blocks.eq_of_meet inBases nextInBases (by omega : b ≤ p.buf + 1 * 512)
    (by omega) nextFirst (by omega)
  constructor
  · rintro ⟨low, high⟩
    have := blocks.eq_of_meet inBases member first (by omega) low high.le
    omega
  · rintro ⟨low, high⟩
    have := blocks.eq_of_meet nextInBases member nextFirst (by omega) low high.le
    omega

/-- A stretch of the map with running pointers is in one block or not at all. -/
theorem stretch_in_block (bounded : Bounded (bufBounds blocks) m) {a : ℤ} (member : a ∈ bases)
    {ptr : SectorPtr} (stretch : ∀ x, b ≤ x → x < l → locate m x = some ((x - b) +ᵥ ptr)) (n : ℕ)
    (inside : b + n < l) :
    a ≤ ptr.buf ∧ ptr.buf < a + cap ↔
      a ≤ ((n : ℤ) +ᵥ ptr).buf ∧ ((n : ℤ) +ᵥ ptr).buf < a + cap := by
  induction n with
  | zero => simp
  | succ n ih =>
      have here := stretch (b + n) (by omega) (by push_cast at inside; omega)
      have next := stretch (b + n + 1) (by omega) (by push_cast at inside; omega)
      rw [show b + n - b = (n : ℤ) by omega] at here
      rw [show b + n + 1 - b = 1 + (n : ℤ) by omega, add_vadd] at next
      rw [ih (by push_cast at inside; omega), next_in_block bounded member here next,
        show ((n + 1 : ℕ) : ℤ) = 1 + n by push_cast; ring, add_vadd]

end Pointers

/-! ## Completion of a request -/

section Completion

variable {Q : Extent SectorPtr → Prop}
  (slices : ∀ {e : Extent SectorPtr} {b l : ℤ}, Q e → e.base ≤ b → b ≤ l → l ≤ e.limit →
    Q (e.slice b l))
  (fits : ∀ {e : Extent SectorPtr}, Q e → Layout.lba2buf.Fits e)
include slices fits

theorem unset_spec {m : Bufmap} (wellFormed : m.WellFormed Q) (order : b ≤ l)
    (key : KeyOf SectorPtr b) :
    (m.unset b l).1.WellFormed Q ∧
      ∀ x, locate (m.unset b l).1 x = if b ≤ x ∧ x < l then none else locate m x := by
  obtain ⟨cut, shape, -⟩ := Extmap.trim_spec (by omega) wellFormed.shape wellFormed.ordered
    order (fun e member => fits (wellFormed.stored e member)) key
  have extents : (m.unset b l).1.extents = cutOut b l m.extents := cut
  refine ⟨⟨shape, extents ▸ ordered_cut_out order wellFormed.ordered, ?_⟩, ?_⟩
  · rw [extents]
    apply cut_out_all _ wellFormed.ordered.positive wellFormed.stored
    intro run b l stored start order stop
    exact slices stored start order.le stop
  · intro x
    rw [locate, extents]
    exact get_cut_out order m.extents x

theorem unset_all (pieces : List (ℤ × ℤ × SectorPtr)) {m : Bufmap} (wellFormed : m.WellFormed Q)
    (proper : ∀ piece ∈ pieces, piece.1 ≤ piece.2.1 ∧ KeyOf SectorPtr piece.1) :
    (pieces.foldl (fun m piece => (m.unset piece.1 piece.2.1).1) m).WellFormed Q ∧
      ∀ x, locate (pieces.foldl (fun m piece => (m.unset piece.1 piece.2.1).1) m) x =
        if ∃ piece ∈ pieces, piece.1 ≤ x ∧ x < piece.2.1 then none else locate m x := by
  induction pieces generalizing m with
  | nil => exact ⟨wellFormed, by simp⟩
  | cons piece rest ih =>
      obtain ⟨order, key⟩ := proper piece (by simp)
      obtain ⟨pieceWellFormed, pieceLocate⟩ := unset_spec slices fits wellFormed order key
      obtain ⟨restWellFormed, restLocate⟩ := ih pieceWellFormed
        (fun other member => proper other (by simp [member]))
      refine ⟨restWellFormed, ?_⟩
      intro x
      rw [List.foldl_cons, restLocate, pieceLocate]
      by_cases later : ∃ other ∈ rest, other.1 ≤ x ∧ x < other.2.1
      · obtain ⟨other, member, inside⟩ := later
        rw [if_pos ⟨other, member, inside⟩, if_pos ⟨other, by simp [member], inside⟩]
      · by_cases here : piece.1 ≤ x ∧ x < piece.2.1
        · rw [if_neg later, if_pos here, if_pos ⟨piece, by simp, here⟩]
        · have nowhere : ¬∃ other ∈ piece :: rest, other.1 ≤ x ∧ x < other.2.1 := by
            rintro ⟨other, member, inside⟩
            rcases List.mem_cons.mp member with rfl | inRest
            · exact here inside
            · exact later ⟨other, inRest, inside⟩
          rw [if_neg later, if_neg here, if_neg nowhere]

omit slices in
theorem piece_spec {m : Bufmap} (wellFormed : m.WellFormed Q) (order : b ≤ l)
    (key : KeyOf SectorPtr b) {piece : ℤ × ℤ × SectorPtr} (member : piece ∈ m.pieces b l) :
    (b ≤ piece.1 ∧ piece.1 ≤ piece.2.1 ∧ piece.2.1 ≤ l) ∧ KeyOf SectorPtr piece.1 ∧
      ∃ e ∈ m.extents, e.base ≤ piece.1 ∧ piece.2.1 ≤ e.limit ∧ piece.1 < e.limit ∧
        piece.2.2 = (piece.1 - e.base) +ᵥ e.ptr := by
  obtain ⟨e, inMap, reach, below, rfl⟩ := Extmap.mem_ranges wellFormed.shape wellFormed.ordered
    (fun e inMap => fits (wellFormed.stored e inMap)) key member
  have := wellFormed.ordered.nonempty e inMap
  refine ⟨⟨by simp only; omega, by simp only; omega, by simp only; omega⟩, ?_, e, inMap,
    by simp only; omega, by simp only; omega, by simp only; omega, rfl⟩
  -- the piece starts at the entry or at the extent, and both are keys
  rcases le_total e.base b with inner | outer
  · rw [max_eq_right inner]
    exact key
  · rw [max_eq_left outer]
    have start := (fits (wellFormed.stored e inMap)).base 0 le_rfl
      (wellFormed.ordered.positive e inMap)
    rwa [add_zero] at start

end Completion

/-- No extent reaches both into the request's own buffer and out of it. -/
def Request.Unmixed (env : Env) (r : Request σ) (m : Bufmap) : Prop :=
  ∀ e ∈ m.extents, ∀ k, 0 ≤ k → k < e.len → r.holds env (k +ᵥ e.ptr) = r.holds env e.ptr

variable {r : Request σ}

/-- `notify` removes an address exactly if an entry of the request covers it and
it still points into the request's own buffer. -/
theorem forget_unmixed (env : Env) {Q : Extent SectorPtr → Prop}
    (slices : ∀ {e : Extent SectorPtr} {b l : ℤ}, Q e → e.base ≤ b → b ≤ l → l ≤ e.limit →
      Q (e.slice b l))
    (fits : ∀ {e : Extent SectorPtr}, Q e → Layout.lba2buf.Fits e) {m : Bufmap}
    (wellFormed : m.WellFormed Q) (unmixed : r.Unmixed env m)
    (keys : ∀ e ∈ r.entries, KeyOf SectorPtr e.lba ∧ 0 ≤ e.len) :
    (r.forget env m).WellFormed Q ∧
      ∀ x, locate (r.forget env m) x = (locate m x).filter fun p =>
        !((lastIndex (entryRanges r.entries) x).isSome && r.holds env p) := by
  have pieces : ∀ e ∈ r.entries,
      Extmap.Enumerates (locate m) e.lba (e.lba + e.len) (m.pieces e.lba (e.lba + e.len)) := by
    intro e inEntries
    exact Extmap.ranges_enumerates wellFormed.shape wellFormed.ordered
      (fun e inMap => fits (wellFormed.stored e inMap)) _ _ (keys e inEntries).1
  have spec : ∀ e ∈ r.entries, ∀ piece ∈ m.pieces e.lba (e.lba + e.len),
      (e.lba ≤ piece.1 ∧ piece.1 ≤ piece.2.1 ∧ piece.2.1 ≤ e.lba + e.len) ∧
        KeyOf SectorPtr piece.1 ∧
        ∃ run ∈ m.extents, run.base ≤ piece.1 ∧ piece.2.1 ≤ run.limit ∧ piece.1 < run.limit ∧
          piece.2.2 = (piece.1 - run.base) +ᵥ run.ptr := by
    intro e inEntries piece inPieces
    exact piece_spec fits wellFormed (by have := (keys e inEntries).2; omega)
      (keys e inEntries).1 inPieces
  -- one buffer holds a whole piece
  have uniform : ∀ e ∈ r.entries, ∀ piece ∈ m.pieces e.lba (e.lba + e.len), ∀ x, piece.1 ≤ x →
      x < piece.2.1 → r.holds env piece.2.2 = r.holds env ((x - piece.1) +ᵥ piece.2.2) := by
    intro e inEntries piece inPieces x low high
    obtain ⟨-, -, run, inMap, start, stop, inner, ptr⟩ := spec e inEntries piece inPieces
    have limit : run.limit = run.base + run.len := rfl
    rw [ptr, vadd_vadd, unmixed run inMap _ (by omega) (by omega),
      unmixed run inMap _ (by omega) (by omega)]
  obtain ⟨unsetWellFormed, unsetLocate⟩ := unset_all slices fits (r.stale env m) wellFormed (by
    intro piece inStale
    obtain ⟨e, inEntries, inPieces⟩ := List.mem_flatMap.mp inStale
    obtain ⟨inside, key, -⟩ := spec e inEntries piece (List.mem_filter.mp inPieces).1
    exact ⟨inside.2.1, key⟩)
  refine ⟨unsetWellFormed, ?_⟩
  intro x
  refine (unsetLocate x).trans ?_
  cases found : locate m x with
  | none => simp
  | some p =>
      have covered : (∃ piece ∈ r.stale env m, piece.1 ≤ x ∧ x < piece.2.1) ↔
          (lastIndex (entryRanges r.entries) x).isSome ∧ r.holds env p = true := by
        rw [Option.isSome_iff_ne_none, ne_eq, last_index_eq_none_iff]
        push Not
        constructor
        · rintro ⟨piece, inStale, low, high⟩
          obtain ⟨e, inEntries, inPieces⟩ := List.mem_flatMap.mp inStale
          obtain ⟨inPieces, holds⟩ := List.mem_filter.mp inPieces
          have inside := (spec e inEntries piece inPieces).1
          have located := (((pieces e inEntries).exact x _).mpr
            ⟨piece, inPieces, low, high, rfl⟩).2.2
          rw [found] at located
          refine ⟨⟨(e.lba, e.len), List.mem_map.mpr ⟨e, inEntries, rfl⟩, by simp only; omega,
            by simp only; omega⟩, ?_⟩
          rw [Option.some.inj located, ← uniform e inEntries piece inPieces x low high]
          exact holds
        · rintro ⟨⟨range, inRanges, low, high⟩, holds⟩
          obtain ⟨e, inEntries, rfl⟩ := List.mem_map.mp inRanges
          obtain ⟨piece, inPieces, pieceLow, pieceHigh, same⟩ :=
            ((pieces e inEntries).exact x p).mp ⟨low, high, found⟩
          refine ⟨piece, List.mem_flatMap.mpr ⟨e, inEntries, List.mem_filter.mpr
            ⟨inPieces, ?_⟩⟩, pieceLow, pieceHigh⟩
          rw [uniform e inEntries piece inPieces x pieceLow pieceHigh, ← same]
          exact holds
      by_cases removed : (lastIndex (entryRanges r.entries) x).isSome ∧ r.holds env p = true
      · rw [if_pos (covered.mpr removed), Option.filter_some]
        simp [removed.1, removed.2]
      · rw [if_neg (fun stale => removed (covered.mp stale)), Option.filter_some, if_pos]
        rw [← Bool.and_eq_true, Bool.not_eq_true] at removed
        rw [removed]
        rfl

theorem unmixed_of_bounded (env : Env) {blocks : Blocks env.objBytes bases} {m : Bufmap}
    (bounded : Bounded (bufBounds blocks) m) (member : r.base ∈ bases) : r.Unmixed env m := by
  intro e inMap k lower upper
  have limit : e.limit = e.base + e.len := rfl
  have stretch : ∀ y, e.base ≤ y → y < e.limit → locate m y = some ((y - e.base) +ᵥ e.ptr) :=
    fun y low high => (bounded.locate_eq_some_iff y _).mpr ⟨e, inMap, ⟨low, high⟩, rfl⟩
  have same := stretch_in_block bounded member stretch k.toNat (by omega)
  rw [Int.toNat_of_nonneg lower] at same
  simp only [Request.holds, decide_eq_decide]
  exact same.symm

theorem forget_spec (env : Env) {blocks : Blocks env.objBytes bases} {m : Bufmap}
    (bounded : Bounded (bufBounds blocks) m) (member : r.base ∈ bases)
    (proper : Proper (entryRanges r.entries)) :
    Bounded (bufBounds blocks) (r.forget env m) ∧
      ∀ x, locate (r.forget env m) x = (locate m x).filter fun p =>
        !((lastIndex (entryRanges r.entries) x).isSome && r.holds env p) := by
  have keys : ∀ e ∈ r.entries, KeyOf SectorPtr e.lba ∧ 0 ≤ e.len := by
    intro e inEntries
    have range := proper (e.lba, e.len) (List.mem_map.mpr ⟨e, inEntries, rfl⟩)
    simp only at range
    exact ⟨bufmap_key (by omega) (by omega), by omega⟩
  obtain ⟨after, located⟩ := forget_unmixed env (bufBounds blocks).slice (bufBounds blocks).fits
    ⟨bounded.shape, bounded.ordered, bounded.within⟩ (unmixed_of_bounded env bounded member) keys
  exact ⟨⟨after.shape, after.ordered, after.stored⟩, located⟩

/-- What the completion of a batch leaves: no extent points into its buffer, and
an address that pointed elsewhere still does. -/
structure Request.Forgotten (env : Env) (r : Request σ) (m after : Bufmap) : Prop where
  gone : ∀ e ∈ after.extents, ∀ k, 0 ≤ k → k < e.len → r.holds env (k +ᵥ e.ptr) = false
  kept : ∀ x p, locate m x = some p → r.holds env p = false → locate after x = some p

/-- A batch that completes removes its own buffer from the map and nothing else,
whatever its entries are, as long as pointer steps stay within `int`. -/
theorem notify_removes_own_buffer (env : Env) (r : Request σ) (m : Bufmap)
    (wellFormed : m.WellFormed fun e => BufmapStored e ∧ IntSteps e)
    (keys : ∀ e ∈ r.entries, BufmapKey e.lba ∧ 0 ≤ e.len) (unmixed : r.Unmixed env m)
    (covered : ∀ x p, locate m x = some p → r.holds env p = true →
      ∃ e ∈ r.entries, e.lba ≤ x ∧ x < e.lba + e.len) :
    r.Forgotten env m (r.forget env m) := by
  have fits : ∀ e ∈ m.extents, Layout.lba2buf.Fits e := by
    intro e inMap
    obtain ⟨stored, steps⟩ := wellFormed.stored e inMap
    unfold IntSteps at steps
    exact Layout.lba2buf_fits stored.base stored.limit (by omega)
  obtain ⟨after, located⟩ := forget_unmixed env
    (fun fits start _ stop => Layout.Fits.slice fits start stop) (fun fits => fits)
    ⟨wellFormed.shape, wellFormed.ordered, fits⟩ unmixed
    (fun e inEntries => ⟨bufmap_key (keys e inEntries).1.1 (keys e inEntries).1.2,
      (keys e inEntries).2⟩)
  constructor
  · intro e inAfter k lower upper
    have limit : e.limit = e.base + e.len := rfl
    have here := (get_eq_some_iff after.ordered (e.base + k) (k +ᵥ e.ptr)).mpr
      ⟨e, inAfter, ⟨by omega, by omega⟩, by rw [add_sub_cancel_left]⟩
    rw [← locate, located, Option.filter_eq_some_iff] at here
    obtain ⟨before, spared⟩ := here
    by_contra held
    rw [Bool.not_eq_false] at held
    obtain ⟨entry, inEntries, start, stop⟩ := covered _ _ before held
    have reached : (lastIndex (entryRanges r.entries) (e.base + k)).isSome = true := by
      rw [Option.isSome_iff_ne_none, ne_eq, last_index_eq_none_iff]
      push Not
      exact ⟨(entry.lba, entry.len), List.mem_map.mpr ⟨entry, inEntries, rfl⟩, start, stop⟩
    rw [reached, held] at spared
    exact absurd spared (by decide)
  · intro x p here elsewhere
    rw [located, here, Option.filter_some, elsewhere, Bool.and_false, if_pos]
    rfl

def overwrittenBatch : Request Unit :=
  ⟨40960, [.store 0 4 0 0, .store 2 2 0 0], List.replicate 6 ()⟩

def overwrittenBufs : Bufmap :=
  ⟨[[⟨0, 2, ⟨40960⟩⟩, ⟨2, 1, ⟨1638400⟩⟩, ⟨3, 1, ⟨43520⟩⟩]], [4], 3⟩

theorem notify_removes_own_buffer_overwritten :
    overwrittenBatch.Forgotten ⟨fun _ => 0, 7, 786432, 50⟩ overwrittenBufs
        (overwrittenBatch.forget ⟨fun _ => 0, 7, 786432, 50⟩ overwrittenBufs) ∧
      (overwrittenBatch.forget ⟨fun _ => 0, 7, 786432, 50⟩ overwrittenBufs).extents =
        [⟨2, 1, ⟨1638400⟩⟩] := by
  refine ⟨notify_removes_own_buffer _ _ _ ⟨?_, ⟨by decide, by decide⟩, ?_⟩ (by decide) ?_ ?_,
    by decide +kernel⟩
  · exact ⟨by simp [overwrittenBufs], by decide, rfl, by simp [overwrittenBufs],
      by simp [overwrittenBufs]⟩
  · unfold IntSteps
    decide
  · intro e inMap k lower upper
    have cases : e = ⟨0, 2, ⟨40960⟩⟩ ∨ e = ⟨2, 1, ⟨1638400⟩⟩ ∨ e = ⟨3, 1, ⟨43520⟩⟩ := by
      simpa [overwrittenBufs, Extmap.extents] using inMap
    rw [Bool.eq_iff_iff, Request.holds_iff, Request.holds_iff, vadd_buf]
    rcases cases with rfl | rfl | rfl
    · simp only [overwrittenBatch] at upper ⊢
      omega
    · simp only [overwrittenBatch] at upper ⊢
      omega
    · simp only [overwrittenBatch] at upper ⊢
      omega
  · intro x p found held
    obtain ⟨e, inMap, ⟨start, stop⟩, -⟩ :=
      (get_eq_some_iff (⟨by decide, by decide⟩ : Ordered overwrittenBufs.extents) x p).mp found
    have within : ∀ e ∈ overwrittenBufs.extents, 0 ≤ e.base ∧ e.limit ≤ 4 := by decide
    have := within e inMap
    exact ⟨⟨0, 4, 0, 0⟩, by decide, by simp only; omega, by simp only; omega⟩

def otherBuffer : Bufmap := ⟨[[⟨0, 2 ^ 23, ⟨2 ^ 40 + 2 ^ 33 + 2 ^ 26⟩⟩]], [2 ^ 23], 1⟩

def eightGigabytes : Env := ⟨fun _ => 0, 7, 2 ^ 33, 50⟩

def middleBatch : Request Unit := ⟨2 ^ 40, [.store (2 ^ 22) 8 0 0], List.replicate 8 ()⟩

/-- Every field holds the extent and none of its pointers is to the batch's own
buffer, but the one of the middle is computed from an `int` that overflows; the
completion of the batch removes it. -/
theorem notify_removes_other_buffer :
    otherBuffer.WellFormed BufmapStored ∧
      (∀ e ∈ middleBatch.entries, BufmapKey e.lba ∧ 0 ≤ e.len) ∧
      (∀ e ∈ otherBuffer.extents, ∀ k, 0 ≤ k → k < e.len →
        middleBatch.holds eightGigabytes (k +ᵥ e.ptr) = false) ∧
      locate otherBuffer (2 ^ 22) = some ⟨2 ^ 40 + 2 ^ 33 + 2 ^ 26 + 2 ^ 31⟩ ∧
      locate (middleBatch.forget eightGigabytes otherBuffer) (2 ^ 22) = none ∧
      ¬middleBatch.Forgotten eightGigabytes otherBuffer
        (middleBatch.forget eightGigabytes otherBuffer) := by
  have elsewhere : ∀ e ∈ otherBuffer.extents, ∀ k, 0 ≤ k → k < e.len →
      middleBatch.holds eightGigabytes (k +ᵥ e.ptr) = false := by
    intro e inMap k lower upper
    have only : e = ⟨0, 2 ^ 23, ⟨2 ^ 40 + 2 ^ 33 + 2 ^ 26⟩⟩ := by
      simpa [otherBuffer, Extmap.extents] using inMap
    rw [Bool.eq_false_iff, ne_eq, Request.holds_iff, vadd_buf, only]
    simp only [middleBatch, eightGigabytes]
    omega
  have held : locate otherBuffer (2 ^ 22) = some ⟨2 ^ 40 + 2 ^ 33 + 2 ^ 26 + 2 ^ 31⟩ := by
    decide +kernel
  have lost : locate (middleBatch.forget eightGigabytes otherBuffer) (2 ^ 22) = none := by
    decide +kernel
  refine ⟨⟨?_, ⟨by decide, by decide⟩, by decide⟩, by decide, elsewhere, held, lost, ?_⟩
  · exact ⟨by simp [otherBuffer], by decide, rfl, by simp [otherBuffer], by simp [otherBuffer]⟩
  · intro forgotten
    have := forgotten.kept _ _ held (by decide)
    rw [lost] at this
    exact absurd this (by decide)

/-! ## What a session keeps of its buffers -/

structure Request.Ok (env : Env) (r : Request σ) : Prop where
  proper : ProperRequest r.entries r.data
  fits : 512 * r.data.length ≤ env.objBytes

/-- Every pointer of the buffer map is to a block of a request that has an entry
for its address. -/
structure Buffered (env : Env) (buffers : List (Request σ)) (m : Bufmap) : Prop where
  proper : ∀ r ∈ buffers, r.Ok env
  blocks : Blocks env.objBytes (buffers.map Request.base)
  bounded : Bounded (bufBounds blocks) m
  covered : ∀ r ∈ buffers, ∀ x p, locate m x = some p → r.holds env p = true →
    (lastIndex (entryRanges r.entries) x).isSome

namespace Buffered

variable {env : Env} {buffers : List (Request σ)} {m : Bufmap}

theorem holds_sector (ok : r.Ok env) {i : ℤ} (lower : 0 ≤ i) (upper : i < r.data.length) :
    r.holds env ⟨r.base + 512 * i⟩ = true := by
  have := ok.fits
  rw [Request.holds_iff]
  simp only
  omega

theorem holds_unique (buffered : Buffered env buffers m) {r other : Request σ}
    (inBuffers : r ∈ buffers) (otherIn : other ∈ buffers) {p : SectorPtr}
    (here : r.holds env p = true) (there : other.holds env p = true) : r.base = other.base := by
  rw [Request.holds_iff] at here there
  exact buffered.blocks.eq_of_meet (List.mem_map_of_mem inBuffers) (List.mem_map_of_mem otherIn)
    here.1 here.2.le there.1 there.2.le

theorem add (buffered : Buffered env buffers m) {addr : ℤ}
    (clear : ∀ r ∈ buffers, r.Clear env addr) :
    Buffered env (buffers ++ [⟨addr, [], []⟩]) m := by
  have room : 0 ≤ Request.headroom env - 1024 := by
    unfold Request.headroom
    omega
  have blocks : Blocks env.objBytes ((buffers ++ [(⟨addr, [], []⟩ : Request σ)]).map Request.base) := by
    refine ⟨buffered.blocks.small, ?_⟩
    rw [List.map_append, List.pairwise_append]
    refine ⟨buffered.blocks.distant, List.pairwise_singleton _ _, ?_⟩
    intro a inA b inB
    obtain ⟨r, inBuffers, rfl⟩ := List.mem_map.mp inA
    have away := clear r inBuffers
    obtain rfl := List.mem_singleton.mp inB
    unfold Request.Clear at away
    simp only [Distant]
    omega
  refine ⟨?_, blocks, buffered.bounded.imp ?_, ?_⟩
  · intro r member
    rcases List.mem_append.mp member with old | new
    · exact buffered.proper r old
    · rw [List.mem_singleton.mp new]
      exact ⟨⟨by simp [Proper, entryRanges], rfl⟩, by simp⟩
  · rintro e - ⟨lower, upper, length, b, inBases, inside⟩
    exact ⟨lower, upper, length, b, by rw [List.map_append]; simp [inBases], inside⟩
  · intro r member x p found holds
    rcases List.mem_append.mp member with old | new
    · exact buffered.covered r old x p found holds
    · -- nothing points into the new block yet
      obtain ⟨-, -, b, inBases, low, high⟩ := located_in_block buffered.bounded found
      obtain ⟨other, inBuffers, rfl⟩ := List.mem_map.mp inBases
      have away := clear other inBuffers
      rw [List.mem_singleton.mp new] at holds
      rw [Request.holds_iff] at holds
      unfold Request.Clear at away
      simp only at holds
      omega

theorem store_entry {lba len : ℕ} (positive : 0 < len) (bound : lba + len ≤ 2 ^ 35)
    (small : len < 2 ^ 22) :
    MapEntry.store lba len 0 0 = ⟨lba, len, 0, 0⟩ := by
  rw [MapEntry.store, signed_field_of_range 35 _ (by omega) (by omega),
    signed_field_of_range 27 _ (by omega) (by omega), signed_field_of_range 31 0 (by omega)
    (by omega)]

theorem append {front : List (Request σ)} (buffered : Buffered env (front ++ [r]) m) {lba : ℕ}
    {data : List σ} (nonempty : 0 < data.length) (room : r.room env data.length = true)
    (bound : lba + data.length ≤ 2 ^ 35) :
    Buffered env (front ++ [r.append lba data]) (m.set lba (lba + data.length) ⟨r.tail⟩).1 ∧
      (∀ x, locate (m.set lba (lba + data.length) ⟨r.tail⟩).1 x =
        if lba ≤ x ∧ x < lba + data.length then some ⟨r.tail + 512 * (x - lba)⟩
        else locate m x) ∧
      entryRanges (r.append lba data).entries =
        entryRanges r.entries ++ [((lba : ℤ), (data.length : ℤ))] := by
  have ok := buffered.proper r (by simp)
  have small := buffered.blocks.small
  simp only [Request.room, decide_eq_true_eq] at room
  have ranges : entryRanges (r.append lba data).entries =
      entryRanges r.entries ++ [((lba : ℤ), (data.length : ℤ))] := by
    simp only [Request.append, entry_ranges_append, store_entry nonempty bound (by omega)]
    rfl
  have bases : (front ++ [r.append lba data]).map Request.base =
      (front ++ [r]).map Request.base := by simp [Request.append]
  have new : InBlock env.objBytes ((front ++ [r]).map Request.base)
      ⟨lba, lba + data.length - lba, ⟨r.tail⟩⟩ := by
    refine ⟨by simp, by simp only [Run.limit]; omega, by simp only; omega, r.base, by simp, ?_, ?_⟩
    · simp only [Request.tail]
      omega
    · simp only [Request.tail]
      omega
  have order : (lba : ℤ) < lba + data.length := by omega
  have located : ∀ x, locate (m.set lba (lba + data.length) ⟨r.tail⟩).1 x =
      if lba ≤ x ∧ x < lba + data.length then some ⟨r.tail + 512 * (x - lba)⟩
      else locate m x := by
    intro x
    rw [buffered.bounded.locate_set order new]
    split
    · refine congrArg some (SectorPtr.ext ?_)
      rw [vadd_buf]
      ring
    · rfl
  refine ⟨⟨?_, bases ▸ buffered.blocks, ?_, ?_⟩, located, ranges⟩
  · intro other member
    rcases List.mem_append.mp member with old | last
    · exact buffered.proper other (by simp [old])
    · rw [List.mem_singleton.mp last]
      refine ⟨⟨?_, ?_⟩, ?_⟩
      · rw [ranges]
        intro range inRanges
        rcases List.mem_append.mp inRanges with old | here
        · exact ok.proper.ranges range old
        · rw [List.mem_singleton.mp here]
          simp only
          omega
      · have length := ok.proper.length
        rw [ranges, sectors_append, sectors_cons, sectors_nil, length]
        simp [Request.append]
      · simp only [Request.append, List.length_append]
        omega
  · exact (buffered.bounded.set order new).1.imp fun e _ inside => by
      obtain ⟨lower, upper, length, block⟩ := inside
      exact ⟨lower, upper, length, by rw [bases]; exact block⟩
  · intro other member x p found holds
    rw [located] at found
    rcases List.mem_append.mp member with old | last
    · split at found
      · -- the new pointers are in the block of `r`
        rename_i inside
        cases found
        have here : r.holds env ⟨r.tail + 512 * (x - lba)⟩ = true := by
          rw [Request.holds_iff]
          simp only [Request.tail]
          omega
        have same := buffered.holds_unique (by simp) (List.mem_append_left _ old) here holds
        have apart := buffered.blocks.distant
        rw [List.map_append, List.pairwise_append] at apart
        have := apart.2.2 other.base (List.mem_map_of_mem old) r.base (by simp)
        unfold Distant at this
        omega
      · exact buffered.covered other (by simp [old]) x p found holds
    · obtain rfl := List.mem_singleton.mp last
      rw [ranges, last_index_append]
      split at found
      · rename_i inside
        simp [lastIndex, inside.1, inside.2]
      · have old := buffered.covered r (by simp) x p found holds
        rw [Option.isSome_or, old, Bool.or_true]

theorem release (buffered : Buffered env buffers m) (inBuffers : r ∈ buffers)
    {rest : List (Request σ)} (sublist : rest.Sublist buffers)
    (others : ∀ other ∈ buffers, other.base ≠ r.base → other ∈ rest) :
    Buffered env rest (r.forget env m) := by
  obtain ⟨forgotten, located⟩ := forget_spec env buffered.bounded (List.mem_map_of_mem inBuffers)
    (buffered.proper r inBuffers).proper.ranges
  have blocks : Blocks env.objBytes (rest.map Request.base) :=
    ⟨buffered.blocks.small, buffered.blocks.distant.sublist (sublist.map _)⟩
  -- no pointer into the block is left
  have gone : ∀ x p, locate (r.forget env m) x = some p → r.holds env p = false := by
    intro x p found
    rw [located] at found
    obtain ⟨before, stays⟩ := Option.filter_eq_some_iff.mp found
    by_contra holds
    rw [Bool.not_eq_false] at holds
    have covered := buffered.covered r inBuffers x p before holds
    simp [covered, holds] at stays
  refine ⟨fun other member => buffered.proper other (sublist.mem member), blocks,
    forgotten.imp ?_, ?_⟩
  · rintro e member ⟨lower, upper, length, b, inBases, low, high⟩
    have positive := forgotten.ordered.positive e member
    obtain ⟨other, otherIn, rfl⟩ := List.mem_map.mp inBases
    refine ⟨lower, upper, length, other.base, List.mem_map_of_mem (others other otherIn ?_), low,
      high⟩
    intro same
    have first : locate (r.forget env m) e.base = some ((e.base - e.base) +ᵥ e.ptr) :=
      (forgotten.locate_eq_some_iff _ _).mpr
        ⟨e, member, ⟨le_refl _, by unfold Run.limit; omega⟩, rfl⟩
    rw [sub_self, zero_vadd] at first
    have := gone _ _ first
    rw [← Bool.not_eq_true, Request.holds_iff] at this
    omega
  · intro other member x p found holds
    rw [located] at found
    exact buffered.covered other (sublist.mem member) x p (Option.filter_eq_some_iff.mp found).1
      holds

end Buffered

end LsvdRbd.Session
