import LsvdRbd.Lib.Scatter

/-!
# Buffers in pieces

A `smartiov` is a vector of pieces of memory. Its loops walk over the pieces with an
offset and a length that shrink, or with a pointer into a flat buffer that moves along;
they act as if the pieces were one buffer.
-/

namespace LsvdRbd.Session

open Scatter

set_option autoImplicit false

abbrev Smartiov := List Span

namespace Smartiov

/-- `slice`, with its assertion. -/
def slice (iovs : Smartiov) (off limit : ℕ) : Option Smartiov :=
  if limit ≤ size iovs then some (cut iovs off (limit - off)) else none

def clear (iovs : Smartiov) (mem : ℕ → UInt8) : ℕ → UInt8 :=
  iovs.foldl (fun mem v => write mem v fun _ => 0) mem

def zeroFrom : Smartiov → ℕ → ℕ → (ℕ → UInt8) → ℕ → UInt8
  | [], _, _, mem => mem
  | v :: rest, off, len, mem =>
      if len = 0 then mem
      else if v.len < off then zeroFrom rest (off - v.len) len mem
      else
        let n := min len (v.len - off)
        zeroFrom rest 0 (len - n) (write mem ⟨v.base + off, n⟩ fun _ => 0)

def zero (iovs : Smartiov) (off limit : ℕ) : (ℕ → UInt8) → ℕ → UInt8 :=
  iovs.zeroFrom off (limit - off)

/-- `copy_in`: the source pointer moves along. -/
def copyIn (heap : ℤ → UInt8) : Smartiov → ℤ → (ℕ → UInt8) → ℕ → UInt8
  | [], _, mem => mem
  | v :: rest, buf, mem => copyIn heap rest (buf + v.len) (write mem v fun i => heap (buf + i))

def copyInLoop (heap : ℤ → UInt8) : Smartiov → ℤ → ℕ → (ℕ → UInt8) → ℕ → UInt8
  | [], _, _, mem => mem
  | v :: rest, buf, remaining, mem =>
      let toCopy := min remaining v.len
      let mem := write mem ⟨v.base, toCopy⟩ fun i => heap (buf + i)
      if remaining - toCopy = 0 then mem
      else copyInLoop heap rest (buf + v.len) (remaining - toCopy) mem

def copyInLimit (heap : ℤ → UInt8) (iovs : Smartiov) (buf : ℤ) (limit : ℕ) (mem : ℕ → UInt8) :
    ℕ → UInt8 :=
  if limit = 0 then mem else copyInLoop heap iovs buf limit mem

/-- `copy_out`, to the flat buffer at `buf`. -/
def copyOut (mem : ℕ → UInt8) : Smartiov → ℤ → (ℤ → UInt8) → ℤ → UInt8
  | [], _, heap => heap
  | v :: rest, buf, heap => copyOut mem rest (buf + v.len) fun p =>
      if buf ≤ p ∧ p < buf + v.len then mem (v.base + (p - buf).toNat) else heap p

/-! ## The loops as stores through parts -/

theorem clear_eq (iovs : Smartiov) (mem : ℕ → UInt8) : iovs.clear mem = fill iovs (fun _ => 0) mem := by
  induction iovs generalizing mem with
  | nil => rfl
  | cons v rest ih => exact ih _

theorem zero_from_eq (iovs : Smartiov) (off len : ℕ) (mem : ℕ → UInt8) :
    iovs.zeroFrom off len mem = fill (cut iovs off len) (fun _ => 0) mem := by
  induction iovs generalizing off len mem with
  | nil => rfl
  | cons v rest ih =>
      rw [zeroFrom, cut]
      split
      · rfl
      · split
        · exact ih _ _ _
        · exact ih _ _ _

theorem copy_in_eq (heap : ℤ → UInt8) (iovs : Smartiov) (buf : ℤ) (mem : ℕ → UInt8) :
    copyIn heap iovs buf mem = fill iovs (fun i => heap (buf + i)) mem := by
  induction iovs generalizing buf mem with
  | nil => rfl
  | cons v rest ih =>
      rw [copyIn, fill, ih]
      congr 1
      funext i
      congr 1
      push_cast
      ring

theorem copy_in_loop_eq (heap : ℤ → UInt8) (iovs : Smartiov) (buf : ℤ) {limit : ℕ}
    (positive : 0 < limit) (mem : ℕ → UInt8) :
    copyInLoop heap iovs buf limit mem = fill (cut iovs 0 limit) (fun i => heap (buf + i)) mem := by
  induction iovs generalizing buf limit mem with
  | nil => rfl
  | cons v rest ih =>
      have parts : cut (v :: rest) 0 limit =
          ⟨v.base, min limit v.len⟩ :: cut rest 0 (limit - min limit v.len) := by
        rw [cut, if_neg (by omega), if_neg (by omega)]
        rfl
      rw [parts, copyInLoop, fill]
      dsimp only
      split
      next finished =>
        rw [finished]
        cases rest with
        | nil => rfl
        | cons next others => rfl
      next more =>
        -- the piece was copied as a whole, so the source has moved by what was copied
        rw [ih _ (by omega), show min limit v.len = v.len by omega]
        congr 1
        funext i
        congr 1
        push_cast
        ring

theorem copy_in_limit_eq (heap : ℤ → UInt8) (iovs : Smartiov) (buf : ℤ) (limit : ℕ)
    (mem : ℕ → UInt8) :
    copyInLimit heap iovs buf limit mem =
      fill (cut iovs 0 limit) (fun i => heap (buf + i)) mem := by
  rw [copyInLimit]
  split
  next none =>
    subst none
    cases iovs with
    | nil => rfl
    | cons v rest => rfl
  next some => exact copy_in_loop_eq heap iovs buf (Nat.pos_of_ne_zero some) mem

theorem copy_out_outside (mem : ℕ → UInt8) {iovs : Smartiov} {buf p : ℤ} (heap : ℤ → UInt8)
    (outside : p < buf ∨ buf + size iovs ≤ p) : copyOut mem iovs buf heap p = heap p := by
  induction iovs generalizing buf heap with
  | nil => rfl
  | cons v rest ih =>
      have total : size (v :: rest) = v.len + size rest := List.sum_cons
      rw [total] at outside
      push_cast at outside
      rw [copyOut, ih _ (by omega), if_neg (by omega)]

theorem copy_out_inside (mem : ℕ → UInt8) {iovs : Smartiov} {i a : ℕ}
    (isAt : (addresses iovs)[i]? = some a) (buf : ℤ) (heap : ℤ → UInt8) :
    copyOut mem iovs buf heap (buf + i) = mem a := by
  induction iovs generalizing i buf heap with
  | nil => simp at isAt
  | cons v rest ih =>
      rw [addresses_cons, List.getElem?_append, span_addresses_length] at isAt
      rw [copyOut]
      split at isAt
      next inside =>
        rw [copy_out_outside mem _ (by omega), if_pos (by omega)]
        rw [Span.addresses, List.getElem?_range' inside] at isAt
        have place : v.base + 1 * i = a := Option.some.inj isAt
        congr 1
        omega
      next beyond =>
        have later := ih isAt (buf + v.len) fun p =>
          if buf ≤ p ∧ p < buf + v.len then mem (v.base + (p - buf).toNat) else heap p
        rw [← later]
        congr 1
        omega

end Smartiov

/-! ## One flat buffer -/

section Slices

variable {iovs : Smartiov} {off len limit : ℕ}

theorem slice_eq (inside : off + len ≤ size iovs) :
    iovs.slice off (off + len) = some (cut iovs off len) := by
  rw [Smartiov.slice, if_pos inside, Nat.add_sub_cancel_left]

theorem cut_size (inside : off + len ≤ size iovs) : size (cut iovs off len) = len := by
  rw [← addresses_length, cut_addresses, List.length_take, List.length_drop, addresses_length]
  omega

theorem slice_addresses (ordered : off ≤ limit) (inside : limit ≤ size iovs) :
    ∃ part, iovs.slice off limit = some part ∧
      addresses part = ((addresses iovs).drop off).take (limit - off) ∧
      size part = limit - off := by
  obtain ⟨len, rfl⟩ := Nat.exists_eq_add_of_le ordered
  rw [Nat.add_sub_cancel_left]
  exact ⟨_, slice_eq inside, cut_addresses iovs off len, cut_size inside⟩

theorem slice_slice {part : Smartiov} {first last : ℕ} (ordered : off ≤ limit)
    (inside : limit ≤ size iovs) (sliced : iovs.slice off limit = some part)
    (within : first ≤ last) (fits : last ≤ limit - off) :
    ∃ inner whole, part.slice first last = some inner ∧
      iovs.slice (off + first) (off + last) = some whole ∧ addresses inner = addresses whole := by
  obtain ⟨same, found, shown, length⟩ := slice_addresses ordered inside
  cases sliced.symm.trans found
  obtain ⟨inner, innerSliced, innerShown, -⟩ := slice_addresses within (length ▸ fits)
  obtain ⟨whole, wholeSliced, wholeShown, -⟩ :=
    slice_addresses (Nat.add_le_add_left within off) (show off + last ≤ size iovs by omega)
  refine ⟨inner, whole, innerSliced, wholeSliced, ?_⟩
  rw [innerShown, wholeShown, shown, List.drop_take, List.drop_drop, List.take_take]
  congr 1
  omega

theorem zero_at (distinct : (addresses iovs).Nodup) (off limit : ℕ) (mem : ℕ → UInt8) (a : ℕ) :
    iovs.zero off limit mem a =
      if a ∈ ((addresses iovs).drop off).take (limit - off) then 0 else mem a := by
  rw [Smartiov.zero, Smartiov.zero_from_eq, ← cut_addresses]
  split
  next member =>
    obtain ⟨i, isAt⟩ := List.mem_iff_getElem?.mp member
    refine fill_at ?_ isAt _ _
    rw [cut_addresses]
    exact distinct.drop.take
  next outside => exact fill_elsewhere outside _ _

theorem copy_in_limit_spec (distinct : (addresses iovs).Nodup) (heap : ℤ → UInt8) (buf : ℤ)
    (limit : ℕ) (mem : ℕ → UInt8) :
    (∀ i a, i < limit → (addresses iovs)[i]? = some a →
        iovs.copyInLimit heap buf limit mem a = heap (buf + i)) ∧
      ∀ a, a ∉ (addresses iovs).take limit → iovs.copyInLimit heap buf limit mem a = mem a := by
  have parts := cut_addresses iovs 0 limit
  rw [List.drop_zero] at parts
  rw [Smartiov.copy_in_limit_eq]
  constructor
  · intro i a covered isAt
    refine fill_at ?_ ?_ _ _
    · rw [parts]
      exact distinct.take
    · rw [parts, List.getElem?_take_of_lt covered, isAt]
  · intro a outside
    exact fill_elsewhere (parts ▸ outside) _ _

theorem copy_out_copy_in (distinct : (addresses iovs).Nodup) (heap : ℤ → UInt8) (buf : ℤ)
    (mem : ℕ → UInt8) (dest : ℤ) (out : ℤ → UInt8) (p : ℤ) :
    iovs.copyOut (iovs.copyIn heap buf mem) dest out p =
      if dest ≤ p ∧ p < dest + size iovs then heap (buf + (p - dest)) else out p := by
  split
  next inside =>
    obtain ⟨i, place⟩ := Int.eq_ofNat_of_zero_le (Int.sub_nonneg.mpr inside.1)
    have isAt := List.getElem?_eq_getElem (show i < (addresses iovs).length by
      rw [addresses_length]
      omega)
    rw [show p = dest + i by omega, Smartiov.copy_out_inside _ isAt, Smartiov.copy_in_eq,
      fill_at distinct isAt, add_sub_cancel_left]
  next outside => exact Smartiov.copy_out_outside _ _ (by omega)

/-- The operations act on the pieces as on one buffer of `size iovs` bytes. -/
theorem smartiov_acts_flat {iovs : Smartiov} (disjoint : (addresses iovs).Nodup) {off limit : ℕ}
    (ordered : off ≤ limit) (inside : limit ≤ size iovs) :
    (∃ part, iovs.slice off limit = some part ∧
        addresses part = ((addresses iovs).drop off).take (limit - off) ∧
        ∀ first last, first ≤ last → last ≤ limit - off →
          ∃ inner whole, part.slice first last = some inner ∧
            iovs.slice (off + first) (off + last) = some whole ∧
            addresses inner = addresses whole) ∧
      (∀ mem a, iovs.zero off limit mem a =
        if a ∈ ((addresses iovs).drop off).take (limit - off) then 0 else mem a) ∧
      (∀ heap buf mem dest out p, iovs.copyOut (iovs.copyIn heap buf mem) dest out p =
        if dest ≤ p ∧ p < dest + size iovs then heap (buf + (p - dest)) else out p) ∧
      ∀ heap buf n mem,
        (∀ i a, i < n → (addresses iovs)[i]? = some a →
          iovs.copyInLimit heap buf n mem a = heap (buf + i)) ∧
        ∀ a, a ∉ (addresses iovs).take n → iovs.copyInLimit heap buf n mem a = mem a := by
  obtain ⟨part, sliced, shown, -⟩ := slice_addresses ordered inside
  refine ⟨⟨part, sliced, shown, ?_⟩, zero_at disjoint off limit, copy_out_copy_in disjoint,
    copy_in_limit_spec disjoint⟩
  intro first last within fits
  exact slice_slice ordered inside sliced within fits

/-- The slice of `test1`. -/
example : Smartiov.slice [⟨0, 117⟩, ⟨117, 204⟩, ⟨321, 412⟩, ⟨733, 267⟩] 200 500 =
    some [⟨200, 121⟩, ⟨321, 179⟩] := by decide

def mixedPieces : Smartiov := [⟨10, 3⟩, ⟨7, 0⟩, ⟨5, 2⟩, ⟨20, 4⟩]

theorem smartiov_acts_flat_mixed :
    ∃ part, mixedPieces.slice 3 7 = some part ∧ addresses part = [5, 6, 20, 21] := by
  have disjoint : (addresses mixedPieces).Nodup := by decide
  obtain ⟨part, sliced, shown, -⟩ :=
    (smartiov_acts_flat disjoint (by decide : 3 ≤ 7) (by decide)).1
  exact ⟨part, sliced, shown.trans (by decide)⟩

end Slices

end LsvdRbd.Session
