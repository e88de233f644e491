import Mathlib.Tactic

/-!
# Scattered buffers

A buffer made of spans of memory is the list of the addresses of its bytes. A part of
it is again such a list, and bytes can be stored through it. Stores through parts that
do not meet can be done in any order.
-/

namespace Scatter

set_option autoImplicit false

variable {β : Type*}

structure Span where
  base : ℕ
  len : ℕ
  deriving DecidableEq, Repr

def Span.addresses (s : Span) : List ℕ := List.range' s.base s.len

def addresses (spans : List Span) : List ℕ := spans.flatMap Span.addresses

def size (spans : List Span) : ℕ := (spans.map Span.len).sum

@[simp] theorem addresses_nil : addresses [] = [] := rfl

@[simp] theorem addresses_cons (s : Span) (rest : List Span) :
    addresses (s :: rest) = s.addresses ++ addresses rest := rfl

@[simp] theorem span_addresses_length (s : Span) : s.addresses.length = s.len :=
  List.length_range'

theorem mem_span_addresses {s : Span} {a : ℕ} :
    a ∈ s.addresses ↔ s.base ≤ a ∧ a < s.base + s.len := by
  simp [Span.addresses]

theorem addresses_length (spans : List Span) : (addresses spans).length = size spans := by
  induction spans with
  | nil => rfl
  | cons s rest ih => simp [ih, size]

/-! ## Parts -/

/-- The part of `len` bytes from `off` on. A span that `off` just passes leaves an empty
span behind. -/
def cut : List Span → ℕ → ℕ → List Span
  | [], _, _ => []
  | s :: rest, off, len =>
      if len = 0 then []
      else if s.len < off then cut rest (off - s.len) len
      else
        let n := min len (s.len - off)
        ⟨s.base + off, n⟩ :: cut rest 0 (len - n)

theorem cut_addresses (spans : List Span) (off len : ℕ) :
    addresses (cut spans off len) = ((addresses spans).drop off).take len := by
  induction spans generalizing off len with
  | nil => simp [cut]
  | cons s rest ih =>
      have head : s.addresses.length = s.len := span_addresses_length s
      rw [cut]
      split
      · next none => simp [none]
      · split
        · next past =>
            have dropped : s.addresses.drop off = [] := List.drop_of_length_le (by omega)
            rw [ih, addresses_cons, List.drop_append, dropped, head, List.nil_append]
        · next inside =>
            have first : (⟨s.base + off, min len (s.len - off)⟩ : Span).addresses =
                (s.addresses.drop off).take len := by
              rw [Span.addresses, Span.addresses, List.drop_range', mul_one]
              exact List.ext_getElem (by simp) (by simp)
            rw [addresses_cons, ih, first, addresses_cons, List.drop_append, head,
              show off - s.len = 0 by omega, List.drop_zero, List.take_append, List.length_drop,
              head]
            congr 2
            omega

/-! ## Stores -/

def write (mem : ℕ → β) (s : Span) (src : ℕ → β) : ℕ → β := fun a =>
  if s.base ≤ a ∧ a < s.base + s.len then src (a - s.base) else mem a

def fill : List Span → (ℕ → β) → (ℕ → β) → ℕ → β
  | [], _, mem => mem
  | s :: rest, src, mem => fill rest (fun i => src (s.len + i)) (write mem s src)

theorem fill_elsewhere {spans : List Span} {a : ℕ} (outside : a ∉ addresses spans)
    (src mem : ℕ → β) : fill spans src mem a = mem a := by
  induction spans generalizing src mem with
  | nil => rfl
  | cons s rest ih =>
      rw [addresses_cons, List.mem_append, not_or, mem_span_addresses] at outside
      rw [fill, ih outside.2, write, if_neg outside.1]

theorem fill_at {spans : List Span} (distinct : (addresses spans).Nodup) {i a : ℕ}
    (isAt : (addresses spans)[i]? = some a) (src mem : ℕ → β) : fill spans src mem a = src i := by
  induction spans generalizing i src mem with
  | nil => simp at isAt
  | cons s rest ih =>
      rw [addresses_cons] at distinct isAt
      rw [List.getElem?_append, span_addresses_length] at isAt
      obtain ⟨-, restDistinct, apart⟩ := List.nodup_append.mp distinct
      rw [fill]
      split at isAt
      · next inside =>
          have member : a ∈ s.addresses := List.mem_of_getElem? isAt
          have outside : a ∉ addresses rest := fun later => apart a member a later rfl
          rw [Span.addresses, List.getElem?_range' inside] at isAt
          have place : s.base + 1 * i = a := Option.some.inj isAt
          rw [fill_elsewhere outside, write, if_pos (mem_span_addresses.mp member)]
          congr 1
          omega
      · next beyond =>
          rw [ih restDistinct isAt]
          congr 1
          omega

def fillAll (jobs : List (List Span × (ℕ → β))) (mem : ℕ → β) : ℕ → β :=
  jobs.foldl (fun mem job => fill job.1 job.2 mem) mem

theorem fill_all_elsewhere {jobs : List (List Span × (ℕ → β))} {a : ℕ}
    (outside : ∀ job ∈ jobs, a ∉ addresses job.1) (mem : ℕ → β) : fillAll jobs mem a = mem a := by
  induction jobs generalizing mem with
  | nil => rfl
  | cons job rest ih =>
      have later := ih (fun other member => outside other (by simp [member])) (fill job.1 job.2 mem)
      exact later.trans (fill_elsewhere (outside job (by simp)) _ _)

/-- Of parts that do not meet, each address gets the byte of its own part. -/
theorem fill_all_at {jobs : List (List Span × (ℕ → β))}
    (distinct : (jobs.flatMap fun job => addresses job.1).Nodup) {job : List Span × (ℕ → β)}
    (member : job ∈ jobs) {i a : ℕ} (isAt : (addresses job.1)[i]? = some a) (mem : ℕ → β) :
    fillAll jobs mem a = job.2 i := by
  induction jobs generalizing mem with
  | nil => cases member
  | cons first rest ih =>
      rw [List.flatMap_cons] at distinct
      obtain ⟨firstDistinct, restDistinct, apart⟩ := List.nodup_append.mp distinct
      rcases List.mem_cons.mp member with rfl | later
      · have outside : ∀ other ∈ rest, a ∉ addresses other.1 := by
          intro other inRest there
          exact apart a (List.mem_of_getElem? isAt) a
            (List.mem_flatMap.mpr ⟨other, inRest, there⟩) rfl
        exact (fill_all_elsewhere outside _).trans (fill_at firstDistinct isAt _ _)
      · exact ih restDistinct later _

end Scatter
