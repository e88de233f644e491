import LsvdRbd.Journal.Log

/-!
# The file of the write log

`init_wcache` writes two header pages and sets the length of the file. Page counts are
32-bit numbers and the length is their product in an `int`, so that the file that it
leaves is the one it describes only for some sizes.
-/

namespace LsvdRbd.Journal

open ExtentMap

set_option autoImplicit false

inductive Page
  | hdr (len : ℤ)
  | super (s : Super)
  | other
deriving DecidableEq

structure Calls where
  pwrite : Option ℕ+
  ftruncate : Option ℕ+

def resize (pages : ℕ) (file : List Page) : List Page :=
  (file ++ List.replicate pages Page.other).take pages

/-- `init_wcache` on a file: its result, and the file afterwards. The system refuses a
length below zero with `EINVAL`. -/
def initWcacheFile (calls : Calls) (cacheSize : ℕ) (file : List Page) : ℤ × List Page :=
  let (super, totalPages) := initWcache cacheSize
  match calls.pwrite with
  | some errno => (-errno, file)
  | none =>
      let file := .hdr totalPages :: .super super :: file.drop 2
      match calls.ftruncate with
      | some errno => (-errno, file)
      | none =>
          let length := toInt (4096 * totalPages)
          if length < 0 then (-22, file) else (0, resize (length / 4096).toNat file)

/-- `open_wlog` and the constructor of `write_cache_impl`: both header pages are read. -/
def openWlog (file : List Page) : Option Wlog :=
  match file with
  | .hdr _ :: .super super :: _ => some (.openLog super)
  | _ => none

/-- A file of the size asked for that can be opened and has every page of its log. -/
structure Usable (cacheSize : ℕ) (file : List Page) : Prop where
  length : file.length = cacheSize / 4096
  hdr : file[0]? = some (.hdr (cacheSize / 4096 : ℕ))
  opens : ∃ j, openWlog file = some j ∧ 1 < j.base ∧ j.base < j.limit ∧
    j.limit ≤ (cacheSize / 4096 : ℕ)

theorem resize_length (pages : ℕ) (file : List Page) : (resize pages file).length = pages := by
  simp [resize]

theorem truncated_length (n : ℕ) :
    (toInt (4096 * toInt n) < 0 ↔ 2 ^ 19 ≤ n % 2 ^ 20) ∧
      (0 ≤ toInt (4096 * toInt n) → toInt (4096 * toInt n) = 4096 * (n % 2 ^ 20 : ℕ)) := by
  simp only [toInt, signedField, Int.bmod_eq_emod]
  constructor
  · split <;> split <;> omega
  · split <;> split <;> omega

/-- With working calls the result is negative for lengths that wrap to a negative `int`;
for the others the file has the pages of the wrapped length. -/
theorem init_wcache_file_eq (cacheSize : ℕ) (file : List Page) :
    initWcacheFile ⟨none, none⟩ cacheSize file =
      if 2 ^ 19 ≤ cacheSize / 4096 % 2 ^ 20 then
        (-22, .hdr (initWcache cacheSize).2 :: .super (initWcache cacheSize).1 :: file.drop 2)
      else
        (0, resize (cacheSize / 4096 % 2 ^ 20)
          (.hdr (initWcache cacheSize).2 :: .super (initWcache cacheSize).1 :: file.drop 2)) := by
  obtain ⟨negative, exact_length⟩ := truncated_length (cacheSize / 4096)
  have total : (initWcache cacheSize).2 = toInt (cacheSize / 4096 : ℕ) := by
    simp only [initWcache]
  dsimp only [initWcacheFile]
  rw [total]
  by_cases wraps : 2 ^ 19 ≤ cacheSize / 4096 % 2 ^ 20
  · rw [if_pos wraps, if_pos (negative.mpr wraps)]
  · have whole := exact_length (Int.not_lt.mp (mt negative.mp wraps))
    rw [if_neg wraps, if_neg (mt negative.mp wraps), whole,
      Int.mul_ediv_cancel_left _ (by decide), Int.toNat_natCast]

theorem init_wcache_file_cases (calls : Calls) (cacheSize : ℕ) (file : List Page) :
    (initWcacheFile calls cacheSize file).1 < 0 ∨
      initWcacheFile calls cacheSize file = initWcacheFile ⟨none, none⟩ cacheSize file := by
  obtain ⟨pwrite, ftruncate⟩ := calls
  cases pwrite with
  | some errno =>
      have := errno.pos
      exact Or.inl (by simp only [initWcacheFile]; omega)
  | none =>
      cases ftruncate with
      | some errno =>
          have := errno.pos
          exact Or.inl (by simp only [initWcacheFile]; omega)
      | none => exact Or.inr rfl

/-- Seven pages are the least that leave a page for data. -/
theorem init_wcache_room {cacheSize : ℕ} (small : cacheSize / 4096 < 2 ^ 19) :
    (1 < (initWcache cacheSize).1.base ∧
        (initWcache cacheSize).1.base < (initWcache cacheSize).1.limit ∧
        (initWcache cacheSize).1.limit ≤ (cacheSize / 4096 : ℕ)) ↔ 7 ≤ cacheSize / 4096 := by
  have total : toInt (cacheSize / 4096 : ℕ) = (cacheSize / 4096 : ℕ) :=
    to_int_of_range (by omega) (by omega)
  simp only [initWcache, total]
  generalize cacheSize / 4096 = k at small
  by_cases content : 2 < k
  · rw [div_round_up_int_eq (by omega) (by omega) (by omega),
      div_round_up_int_eq (by omega) (by omega) (by omega)]
    omega
  · interval_cases k <;> decide

theorem open_wlog_resize {pages : ℕ} {super : Super} {len : ℤ} {rest : List Page} :
    openWlog (resize pages (.hdr len :: .super super :: rest)) =
      if 2 ≤ pages then some (.openLog super) else none := by
  match pages with
  | 0 => rfl
  | 1 => rfl
  | pages + 2 =>
      rw [if_pos (by omega)]
      rfl

/-- `init_wcache` is right about a size: it fails with a negative result, or it leaves a
log that can be used. -/
def Settles (cacheSize : ℕ) : Prop :=
  ∀ (calls : Calls) (file : List Page), (initWcacheFile calls cacheSize file).1 < 0 ∨
    (initWcacheFile calls cacheSize file).1 = 0 ∧
      Usable cacheSize (initWcacheFile calls cacheSize file).2

/-- The sizes for which that is so: the length wraps to a negative number, or the file is
below 2 GiB and has at least seven pages. -/
theorem init_wcache_settles_iff (cacheSize : ℕ) :
    Settles cacheSize ↔ 2 ^ 19 ≤ cacheSize / 4096 % 2 ^ 20 ∨
      7 ≤ cacheSize / 4096 ∧ cacheSize / 4096 < 2 ^ 19 := by
  constructor
  · intro settles
    by_cases wraps : 2 ^ 19 ≤ cacheSize / 4096 % 2 ^ 20
    · exact Or.inl wraps
    · refine Or.inr ?_
      have usable := settles ⟨none, none⟩ []
      rw [init_wcache_file_eq, if_neg wraps] at usable
      obtain ⟨-, length, -, j, opened, layout⟩ := usable.resolve_left (Int.lt_irrefl 0)
      have small : cacheSize / 4096 < 2 ^ 19 := by
        rw [resize_length] at length
        omega
      rw [Nat.mod_eq_of_lt (by omega), open_wlog_resize] at opened
      obtain ⟨-, result⟩ := Option.ite_none_right_eq_some.mp opened
      obtain rfl := Option.some.inj result
      exact ⟨(init_wcache_room small).mp layout, small⟩
  · intro sizes calls file
    rcases init_wcache_file_cases calls cacheSize file with failed | same
    · exact Or.inl failed
    · rw [same, init_wcache_file_eq]
      split
      next wraps => exact Or.inl (show (-22 : ℤ) < 0 by decide)
      next whole =>
        obtain ⟨atLeast, small⟩ := sizes.resolve_left whole
        have layout := (init_wcache_room small).mpr atLeast
        rw [Nat.mod_eq_of_lt (by omega)]
        have total : (initWcache cacheSize).2 = (cacheSize / 4096 : ℕ) := by
          simp only [initWcache]
          exact to_int_of_range (by omega) (by omega)
        refine Or.inr ⟨rfl, resize_length _ _, ?_, _,
          open_wlog_resize.trans (if_pos (by omega)), layout⟩
        rw [resize, List.getElem?_take_of_lt (by omega), total]
        rfl

/-- A log of eight pages, and a size that is refused. -/
theorem init_wcache_settles_small : Settles 32768 ∧ Settles (2 ^ 31) :=
  ⟨(init_wcache_settles_iff _).mpr (by decide), (init_wcache_settles_iff _).mpr (by decide)⟩

/-- Six pages have no room for data, and of 5 GiB only one is left. -/
theorem init_wcache_unusable :
    (initWcacheFile ⟨none, none⟩ 24576 []).1 = 0 ∧
      (initWcache 24576).1.base = (initWcache 24576).1.limit ∧
      (initWcacheFile ⟨none, none⟩ (5 * 2 ^ 30) []).1 = 0 ∧
      (initWcacheFile ⟨none, none⟩ (5 * 2 ^ 30) []).2.length = 2 ^ 18 := by
  rw [init_wcache_file_eq, init_wcache_file_eq, if_neg (by decide), if_neg (by decide)]
  exact ⟨rfl, by decide, rfl, resize_length _ _⟩

end LsvdRbd.Journal
