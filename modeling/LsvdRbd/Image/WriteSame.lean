import LsvdRbd.Journal.Log
import LsvdRbd.Lib.Scatter

/-!
# Write-same

`rbd_aio_writesame` makes an array of `iovec`s that all point to the pattern. The size
of the array is a quotient of `int`s; the loop that fills it counts in `size_t`.
-/

namespace LsvdRbd.Image

open Format Journal Scatter

set_option autoImplicit false

/-- The loop: `n` is the size of the array, and a store beyond its end is an error. A
pattern of no bytes would never end. -/
def fillIovs (n : ℤ) (buf dataLen len : ℕ) (iov : List Span) : Option (List Span) :=
  if len = 0 then some iov
  else if dataLen = 0 then none
  else if iov.length < n then
    let bytes := min len dataLen
    fillIovs n buf dataLen (len - bytes) (iov ++ [⟨buf, bytes⟩])
  else none
termination_by len
decreasing_by omega

/-- The array's size: dividing by zero traps, and so does the least `int` divided by `-1`. -/
def arraySize (len dataLen : ℕ) : Option ℤ :=
  if toInt dataLen = 0 ∨ toInt dataLen = -1 ∧ toInt (toInt len + toInt dataLen - 1) = -2 ^ 31 then
    none
  else some (divRoundUpInt len dataLen)

def writesame (len buf dataLen : ℕ) : Option (List Span) :=
  (arraySize len dataLen).bind fun n => fillIovs n buf dataLen len []

def writeZeroes (len zeropage : ℕ) : Option (List Span) := writesame len zeropage 4096

def repeated (buf dataLen len : ℕ) : List ℕ := (List.range len).map fun i => buf + i % dataLen

/-- Each round takes the first bytes of the pattern, and leaves the pattern repeated. -/
theorem repeated_step (buf dataLen len : ℕ) :
    repeated buf dataLen len = List.range' buf (min len dataLen) ++
      repeated buf dataLen (len - min len dataLen) := by
  rcases Nat.le_total len dataLen with short | whole
  · rw [Nat.min_eq_left short, Nat.sub_self, repeated, repeated, List.range'_eq_map_range,
      List.range_zero, List.map_nil, List.append_nil]
    refine List.map_congr_left fun i member => ?_
    rw [Nat.mod_eq_of_lt (Nat.lt_of_lt_of_le (List.mem_range.mp member) short)]
  · obtain ⟨more, rfl⟩ := Nat.exists_eq_add_of_le whole
    rw [Nat.min_eq_right whole, Nat.add_sub_cancel_left, repeated, repeated, List.range_add,
      List.map_append, List.map_map, List.range'_eq_map_range]
    congr 1
    · refine List.map_congr_left fun i member => ?_
      rw [Nat.mod_eq_of_lt (List.mem_range.mp member)]
    · refine List.map_congr_left fun i _ => ?_
      rw [Function.comp_apply, Nat.add_mod_left]

variable {len dataLen : ℕ}

theorem div_round_up_step (left : 0 < len) (pattern : 0 < dataLen) :
    divRoundUp len dataLen = divRoundUp (len - min len dataLen) dataLen + 1 := by
  rw [divRoundUp, divRoundUp]
  rcases Nat.le_total len dataLen with short | whole
  · have one : (len + dataLen - 1) / dataLen = 1 := by
      rw [Nat.div_eq_iff pattern]
      omega
    rw [one, Nat.min_eq_left short, Nat.sub_self, Nat.zero_add,
      Nat.div_eq_of_lt (show dataLen - 1 < dataLen by omega)]
  · rw [Nat.min_eq_right whole, ← Nat.add_div_right _ pattern]
    congr 1
    omega

theorem div_round_up_zero {dataLen : ℕ} (pattern : 0 < dataLen) : divRoundUp 0 dataLen = 0 :=
  Nat.div_eq_of_lt (by omega)

theorem fill_iovs_spec (n : ℤ) (buf : ℕ) {dataLen : ℕ} (pattern : 0 < dataLen) (len : ℕ)
    (iov : List Span) (room : iov.length + divRoundUp len dataLen ≤ n) :
    ∃ filled, fillIovs n buf dataLen len iov = some (iov ++ filled) ∧
      filled.length = divRoundUp len dataLen ∧ addresses filled = repeated buf dataLen len := by
  induction len using Nat.strong_induction_on generalizing iov with
  | _ len ih =>
      rw [fillIovs]
      split
      next finished =>
        subst finished
        exact ⟨[], by rw [List.append_nil], (div_round_up_zero pattern).symm, rfl⟩
      next left =>
        have step := div_round_up_step (Nat.pos_of_ne_zero left) pattern
        rw [if_neg (by omega), if_pos (by omega)]
        obtain ⟨filled, rest, count, shown⟩ := ih (len - min len dataLen) (by omega)
          (iov ++ [⟨buf, min len dataLen⟩]) (by
            rw [List.length_append, List.length_singleton]
            omega)
        refine ⟨⟨buf, min len dataLen⟩ :: filled, ?_, ?_, ?_⟩
        · rw [rest, List.append_assoc, List.singleton_append]
        · rw [List.length_cons, count, step]
        · rw [addresses_cons, shown, repeated_step buf dataLen len, Span.addresses]

theorem fill_iovs_overflow (n : ℤ) (buf : ℕ) {dataLen : ℕ} (pattern : 0 < dataLen) {len : ℕ}
    (left : 0 < len) (iov : List Span) (full : n < iov.length + divRoundUp len dataLen) :
    fillIovs n buf dataLen len iov = none := by
  induction len using Nat.strong_induction_on generalizing iov with
  | _ len ih =>
      have step := div_round_up_step left pattern
      rw [fillIovs, if_neg (by omega), if_neg (by omega)]
      split
      next stored =>
        -- the last round would have had its place
        have more : 0 < len - min len dataLen := by
          by_contra last
          rw [show len - min len dataLen = 0 by omega, div_round_up_zero pattern] at step
          omega
        refine ih _ (by omega) more _ ?_
        rw [List.length_append, List.length_singleton]
        omega
      next full => rfl

/-! ## The size of the array -/

/-- The lengths for which the array is large enough. Below 2 GiB the sum of the two has to
fit an `int`. For a longer pattern only the `int`s count that the lengths are cut to: with
`(len - 1) / dataLen` rounds before the last one, their sum must not wrap and must be that
many patterns long. -/
def ArrayCovers (len dataLen : ℕ) : Prop :=
  dataLen < 2 ^ 31 ∧ len + dataLen ≤ 2 ^ 31 ∨
    2 ^ 31 ≤ dataLen ∧
      (0 < toInt dataLen ∧ ((len - 1) / dataLen : ℕ) * toInt dataLen < toInt len ∧
          toInt len + toInt dataLen ≤ 2 ^ 31 ∨
        toInt dataLen < 0 ∧ ((len - 1) / dataLen : ℕ) * -toInt dataLen + toInt len ≤ 1 ∧
          -2 ^ 31 < toInt len + toInt dataLen ∧ ¬(toInt dataLen = -1 ∧ toInt len = 2 - 2 ^ 31))

instance (len dataLen : ℕ) : Decidable (ArrayCovers len dataLen) :=
  inferInstanceAs (Decidable (_ ∨ _))

theorem small_pattern_iff (pattern : 0 < dataLen) (small : dataLen < 2 ^ 31) :
    ((len - 1) / dataLen : ℕ) * (dataLen : ℤ) < toInt len ∧ toInt len + dataLen ≤ 2 ^ 31 ↔
      0 < len ∧ len + dataLen ≤ 2 ^ 31 := by
  have rounds := Nat.div_add_mod (len - 1) dataLen
  have last := Nat.mod_lt (len - 1) pattern
  have product : (((len - 1) / dataLen : ℕ) : ℤ) * dataLen =
      (dataLen * ((len - 1) / dataLen) : ℕ) := by
    push_cast
    ring
  rw [product]
  rcases to_int_natCast len with ⟨exact, below⟩ | ⟨wrapped, above⟩
  · rw [exact]
    omega
  · omega

theorem array_covers_iff (left : 0 < len) (pattern : 0 < dataLen) :
    ArrayCovers len dataLen ↔ ∃ n ∈ arraySize len dataLen, divRoundUp len dataLen ≤ n := by
  have wraps : toInt dataLen = -1 →
      (toInt (toInt len + toInt dataLen - 1) = -2 ^ 31 ↔ toInt len = 2 - 2 ^ 31) := by
    intro least
    have bounds := to_int_bounds len
    rw [least]
    generalize toInt len = a at bounds
    simp only [toInt, ExtentMap.signedField, Int.bmod_eq_emod]
    split <;> omega
  have size : (∃ n ∈ arraySize len dataLen, (divRoundUp len dataLen : ℤ) ≤ n) ↔
      toInt dataLen ≠ 0 ∧ ¬(toInt dataLen = -1 ∧ toInt len = 2 - 2 ^ 31) ∧
        (divRoundUp len dataLen : ℤ) ≤ divRoundUpInt len dataLen := by
    rw [arraySize]
    split
    next trapped =>
      simp only [Option.mem_def, reduceCtorEq, false_and, exists_false, false_iff]
      omega
    next divides =>
      simp only [Option.mem_def, Option.some.injEq, exists_eq_left']
      omega
  rw [size, div_round_up_of_pos left pattern, ArrayCovers]
  by_cases zero : toInt dataLen = 0
  · have large : ¬dataLen < 2 ^ 31 := by
      intro small
      rw [to_int_of_range (by omega) (by omega)] at zero
      omega
    omega
  · rw [Nat.cast_add_one, succ_le_div_round_up_int_iff (Int.natCast_nonneg _) zero]
    by_cases small : dataLen < 2 ^ 31
    · have exact_pattern : toInt dataLen = dataLen := to_int_of_range (by omega) (by omega)
      have below := @small_pattern_iff len dataLen pattern small
      rw [exact_pattern]
      omega
    · omega

/-- The call passes on the repeated pattern, through no more `iovec`s than there are. -/
theorem writesame_repeats_iff (buf : ℕ) {len dataLen : ℕ} (left : 0 < len)
    (pattern : 0 < dataLen) :
    (∃ iov, writesame len buf dataLen = some iov ∧ iov.length ≤ divRoundUpInt len dataLen ∧
      addresses iov = repeated buf dataLen len) ↔ ArrayCovers len dataLen := by
  rw [array_covers_iff left pattern]
  constructor
  · rintro ⟨iov, made, -, -⟩
    obtain ⟨n, size, filled⟩ := Option.bind_eq_some_iff.mp made
    refine ⟨n, size, ?_⟩
    by_contra few
    rw [fill_iovs_overflow _ buf pattern left [] (by simpa using few)] at filled
    cases filled
  · rintro ⟨n, size, enough⟩
    obtain ⟨filled, made, count, shown⟩ := fill_iovs_spec n buf pattern len [] (by simpa using enough)
    have quotient : n = divRoundUpInt len dataLen :=
      (Option.some.inj (Option.ite_none_left_eq_some.mp size).2).symm
    refine ⟨filled, ?_, by omega, shown⟩
    rw [writesame, size, Option.bind_some, made, List.nil_append]

/-- A pattern of three bytes, and zeroes. -/
theorem writesame_repeats_small :
    (∃ iov, writesame 7 100 3 = some iov ∧ addresses iov = [100, 101, 102, 100, 101, 102, 100]) ∧
      ∃ iov, writeZeroes (2 ^ 30) 100 = some iov ∧ addresses iov = repeated 100 4096 (2 ^ 30) := by
  obtain ⟨first, made, -, shown⟩ :=
    (writesame_repeats_iff 100 (by decide : 0 < 7) (by decide : 0 < 3)).mpr
      (.inl ⟨by decide, by decide⟩)
  obtain ⟨second, zeroed, -, same⟩ :=
    (writesame_repeats_iff 100 (by decide : 0 < 2 ^ 30) (by decide : 0 < 4096)).mpr
      (.inl ⟨by decide, by decide⟩)
  exact ⟨⟨first, made, shown.trans (by decide)⟩, second, zeroed, same⟩

/-- Zeroes for 2 GiB: the array has a negative size. -/
theorem write_zeroes_overflows :
    divRoundUpInt (2 ^ 31) 4096 < 0 ∧ writeZeroes (2 ^ 31) 8192 = none := by
  have size : divRoundUpInt (2 ^ 31) 4096 < 0 := by decide
  refine ⟨size, ?_⟩
  rw [writeZeroes, writesame, arraySize, if_neg (by decide), Option.bind_some]
  refine fill_iovs_overflow _ 8192 (by decide) (by decide) [] ?_
  exact Int.lt_of_lt_of_le size (by omega)

end LsvdRbd.Image
