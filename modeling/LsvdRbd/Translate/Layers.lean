import LsvdRbd.Format.Superblock

/-!
# Clone layers

A clone shares the older objects of the image it was made from: the base `c`
holds the objects up to `c.last_seq`, and its own bases the older ones of those.
`prefix` gives the name under which an object is stored. It looks for the first
base with `first_seq` at most the number, but `read_superblock` sets `first_seq`
to the number after the last one of the base.
-/

namespace LsvdRbd.Translate

open Records Format

set_option autoImplicit false

/-- `translate_impl::prefix`; nothing stands for the assertion that fails at its
end. -/
def translatePrefix (name : Bytes) (clones : List CloneBase) (seq : ℕ) : Option Bytes :=
  match clones with
  | [] => some name
  | front :: _ =>
      if front.lastSeq < seq then some name
      else (clones.find? fun c => decide (c.firstSeq ≤ seq)).map CloneBase.name

/-- The image that wrote an object: each base has the objects up to its last
number that its own bases do not have. -/
def writtenBy (name : Bytes) : List CloneBase → ℕ → Bytes
  | [], _ => name
  | c :: rest, seq => if c.lastSeq < seq then name else writtenBy c.name rest seq

structure Chain (clones : List CloneBase) : Prop where
  numbers : ∀ c ∈ clones, c.lastSeq < 2 ^ 32
  loaded : ∀ c ∈ clones, c.firstSeq = (c.lastSeq + 1) % 2 ^ 32
  decreasing : clones.Pairwise fun upper lower => lower.lastSeq < upper.lastSeq

theorem decode_nat_lt (bytes : Bytes) : decodeNat bytes < 256 ^ bytes.length := by
  induction bytes with
  | nil => simp [decodeNat]
  | cons byte rest ih =>
      have := byte.toNat_lt
      rw [decodeNat, List.length_cons, pow_succ]
      omega

theorem clone_records_last_seq {buf : Bytes} {fuel pos stop : ℕ} :
    ∀ r ∈ cloneRecords buf fuel pos stop, r.1.lastSeq < 2 ^ 32 := by
  induction fuel generalizing pos with
  | zero => simp [cloneRecords]
  | succ fuel ih =>
      intro r member
      rw [cloneRecords] at member
      split at member
      · rcases List.mem_cons.mp member with rfl | later
        · have field := decode_nat_lt (((buf.drop pos).drop 16).take 4)
          have length : (((buf.drop pos).drop 16).take 4).length ≤ 4 := by
            rw [List.length_take]
            exact min_le_left _ _
          exact lt_of_lt_of_le field (Nat.pow_le_pow_right (by norm_num) length)
        · exact ih r later
      · cases member

theorem chain_of_superblock {obj : Option Bytes} {sb : Superblock}
    (read : readSuperblock obj = .ok sb)
    (decreasing : sb.clones.Pairwise fun upper lower => lower.lastSeq < upper.lastSeq) :
    Chain sb.clones := by
  unfold readSuperblock at read
  split at read
  · cases read
  · rename_i parsed found
    cases read
    refine ⟨?_, ?_, decreasing⟩
    · intro c member
      obtain ⟨r, inRecords, rfl⟩ := List.mem_map.mp member
      obtain ⟨buf, -, parse⟩ := Option.bind_eq_some_iff.mp found
      unfold parseSuperblock at parse
      simp only [Option.ite_none_left_eq_some, Option.some.injEq] at parse
      obtain ⟨-, -, -, rfl⟩ := parse
      exact clone_records_last_seq r inRecords
    · intro c member
      obtain ⟨r, -, rfl⟩ := List.mem_map.mp member
      rfl

theorem Chain.tail {c : CloneBase} {rest : List CloneBase} (chain : Chain (c :: rest)) :
    Chain rest :=
  ⟨fun other member => chain.numbers other (by simp [member]),
    fun other member => chain.loaded other (by simp [member]),
    (List.pairwise_cons.mp chain.decreasing).2⟩

theorem written_by_between {name : Bytes} {clones : List CloneBase} (chain : Chain clones)
    {seq i : ℕ} {c : CloneBase} (here : clones[i]? = some c) (upper : seq ≤ c.lastSeq)
    (lower : ∀ next ∈ clones[i + 1]?, next.lastSeq < seq) : writtenBy name clones seq = c.name := by
  induction clones generalizing name i with
  | nil => cases here
  | cons first rest ih =>
      have above := (List.pairwise_cons.mp chain.decreasing).1
      cases i with
      | zero =>
          obtain rfl : first = c := by simpa using here
          rw [writtenBy, if_neg (by omega)]
          cases rest with
          | nil => rfl
          | cons next others =>
              have := lower next (by simp)
              rw [writtenBy, if_pos this]
      | succ i =>
          rw [List.getElem?_cons_succ] at here
          have := above c (List.mem_of_getElem? here)
          rw [writtenBy, if_neg (by omega)]
          exact ih chain.tail here (by simpa using lower)

/-- Below a base that holds the number, the search finds the base after the right
one, if there is one. -/
private theorem search_below {prev : CloneBase} {rest : List CloneBase}
    (chain : Chain (prev :: rest)) (last : prev.lastSeq + 1 < 2 ^ 32) {seq : ℕ}
    (held : seq ≤ prev.lastSeq) :
    (rest.find? fun c => decide (c.firstSeq ≤ seq)).map CloneBase.name =
        some (writtenBy prev.name rest seq) ↔
      ∃ i upper lower, (prev :: rest)[i]? = some upper ∧ (prev :: rest)[i + 1]? = some lower ∧
        lower.lastSeq < seq ∧ seq ≤ upper.lastSeq ∧ lower.name = upper.name := by
  induction rest generalizing prev with
  | nil => simp
  | cons c rest ih =>
      have above := (List.pairwise_cons.mp chain.decreasing).1
      have below := (List.pairwise_cons.mp chain.tail.decreasing).1
      have next := above c (by simp)
      have first : c.firstSeq = c.lastSeq + 1 := by
        rw [chain.loaded c (by simp), Nat.mod_eq_of_lt (by omega)]
      rw [List.find?_cons, writtenBy]
      by_cases past : c.lastSeq < seq
      · rw [if_pos past, first]
        simp only [show decide (c.lastSeq + 1 ≤ seq) = true from decide_eq_true past,
          Option.map_some, Option.some.injEq]
        constructor
        · intro same
          exact ⟨0, prev, c, rfl, rfl, past, held, same⟩
        · rintro ⟨i, upper, lower, hereUpper, hereLower, low, high, same⟩
          cases i with
          | zero =>
              obtain rfl : prev = upper := by simpa using hereUpper
              obtain rfl : c = lower := by simpa using hereLower
              exact same
          | succ i =>
              -- a later base has smaller numbers only
              rw [List.getElem?_cons_succ] at hereUpper
              rcases List.mem_cons.mp (List.mem_of_getElem? hereUpper) with rfl | later
              · omega
              · have := below upper later
                omega
      · rw [if_neg past, first]
        simp only [show decide (c.lastSeq + 1 ≤ seq) = false from decide_eq_false past]
        rw [ih chain.tail (by omega) (by omega)]
        constructor
        · rintro ⟨i, upper, lower, hereUpper, hereLower, rest⟩
          exact ⟨i + 1, upper, lower, hereUpper, hereLower, rest⟩
        · rintro ⟨i, upper, lower, hereUpper, hereLower, low, high, same⟩
          cases i with
          | zero =>
              obtain rfl : c = lower := by simpa using hereLower
              exact absurd low past
          | succ i => exact ⟨i, upper, lower, hereUpper, hereLower, low, high, same⟩

private theorem names_layer_iff {name : Bytes} {clones : List CloneBase} (chain : Chain clones)
    (seq : ℕ) :
    translatePrefix name clones seq = some (writtenBy name clones seq) ↔
      (∀ front ∈ clones.head?, front.lastSeq < seq) ∨
      (∃ front ∈ clones.head?, front.lastSeq + 1 = 2 ^ 32 ∧
        writtenBy name clones seq = front.name) ∨
      (∀ front ∈ clones.head?, front.lastSeq + 1 < 2 ^ 32) ∧
        ∃ i upper lower, clones[i]? = some upper ∧ clones[i + 1]? = some lower ∧
          lower.lastSeq < seq ∧ seq ≤ upper.lastSeq ∧ lower.name = upper.name := by
  cases clones with
  | nil => simp [translatePrefix, writtenBy]
  | cons front rest =>
      have bound := chain.numbers front (by simp)
      have loaded := chain.loaded front (by simp)
      simp only [List.head?_cons, Option.mem_def, Option.some.injEq, forall_eq', exists_eq_left']
      rw [translatePrefix]
      by_cases own : front.lastSeq < seq
      · rw [if_pos own, writtenBy, if_pos own]
        exact ⟨fun _ => .inl own, fun _ => rfl⟩
      · rw [if_neg own, List.find?_cons]
        simp only [own, false_or]
        by_cases wraps : front.lastSeq + 1 = 2 ^ 32
        · have zero : front.firstSeq = 0 := by rw [loaded, wraps, Nat.mod_self]
          rw [zero]
          simp only [Nat.zero_le, decide_true, Option.map_some, Option.some.injEq, wraps, true_and,
            lt_irrefl, false_and, or_false]
          exact eq_comm
        · have first : front.firstSeq = front.lastSeq + 1 := by
            rw [loaded, Nat.mod_eq_of_lt (by omega)]
          have below : front.lastSeq + 1 < 2 ^ 32 := by omega
          rw [first, writtenBy, if_neg own]
          simp only [show decide (front.lastSeq + 1 ≤ seq) = false from decide_eq_false own, wraps,
            false_and, false_or, below, true_and]
          exact search_below chain below (by omega)

/-- For the bases that a superblock gives, `prefix` names the layer that wrote the
object exactly if that is the image itself, or by accident: the first base goes
up to the last number there is, which makes its `first_seq` zero, and its name is
the right one; or the right base and the one after it have the same name. -/
theorem prefix_names_layer_iff {obj : Option Bytes} {sb : Superblock} (name : Bytes)
    (read : readSuperblock obj = .ok sb)
    (decreasing : sb.clones.Pairwise fun upper lower => lower.lastSeq < upper.lastSeq) (seq : ℕ) :
    translatePrefix name sb.clones seq = some (writtenBy name sb.clones seq) ↔
      (∀ front ∈ sb.clones.head?, front.lastSeq < seq) ∨
      (∃ front ∈ sb.clones.head?, front.lastSeq + 1 = 2 ^ 32 ∧
        writtenBy name sb.clones seq = front.name) ∨
      (∀ front ∈ sb.clones.head?, front.lastSeq + 1 < 2 ^ 32) ∧
        ∃ i upper lower, sb.clones[i]? = some upper ∧ sb.clones[i + 1]? = some lower ∧
          lower.lastSeq < seq ∧ seq ≤ upper.lastSeq ∧ lower.name = upper.name :=
  names_layer_iff (chain_of_superblock read decreasing) seq

def layeredSuperblock : Bytes :=
  CommonHdr.packed.encode ⟨lsvdMagic, 1, 7, ObjType.superblock.code, 0, 1, 0, 0⟩ ++
    SuperHdr.packed.encode ⟨2, 120, 0, 76, 44, 0, 0⟩ ++
    CloneInfo.packed.encode ⟨0, 20, 1⟩ ++ [98] ++ CloneInfo.packed.encode ⟨0, 10, 1⟩ ++ [97]

theorem layered_superblock_read : readSuperblock (some layeredSuperblock) =
    .ok ⟨1024, 7, [], [⟨[98], 20, 21⟩, ⟨[97], 10, 11⟩]⟩ := by
  have parsed : parseSuperblock layeredSuperblock =
      some ⟨1024, [], [(⟨0, 20, 1⟩, [98]), (⟨0, 10, 1⟩, [97])], 7⟩ := by
    decide +kernel
  rw [readSuperblock, Option.bind_some, parsed]
  rfl

theorem prefix_names_layer_own :
    translatePrefix [99] [⟨[98], 20, 21⟩, ⟨[97], 10, 11⟩] 25 =
      some (writtenBy [99] [⟨[98], 20, 21⟩, ⟨[97], 10, 11⟩] 25) :=
  (prefix_names_layer_iff [99] layered_superblock_read (by decide) 25).mpr
    (.inl (by simp))

/-- Object 15 was written by `b` and is looked for under the name of `a`; object 5
was written by `a`, and its name fails the assertion. -/
theorem prefix_skips_layer :
    (∃ obj sb, readSuperblock obj = .ok sb ∧
      sb.clones = [⟨[98], 20, 21⟩, ⟨[97], 10, 11⟩]) ∧
    translatePrefix [99] [⟨[98], 20, 21⟩, ⟨[97], 10, 11⟩] 15 = some [97] ∧
    writtenBy [99] [⟨[98], 20, 21⟩, ⟨[97], 10, 11⟩] 15 = [98] ∧
    translatePrefix [99] [⟨[98], 20, 21⟩, ⟨[97], 10, 11⟩] 5 = none ∧
    writtenBy [99] [⟨[98], 20, 21⟩, ⟨[97], 10, 11⟩] 5 = [97] :=
  ⟨⟨_, _, layered_superblock_read, rfl⟩, by decide, by decide, by decide, by decide⟩

end LsvdRbd.Translate
