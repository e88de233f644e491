import LsvdRbd.Session.Cleaning

/-!
# The temporary file of the collector

`do_gc` copies the objects it cleans to a file one after the other and reads the live
extents back from there. Sizes and places are counted in sectors, but the number of
bytes to write and the place to read from are products in `int`.
-/

namespace LsvdRbd.Session

open Records RunList ExtentMap Format Translate Recovery

set_option autoImplicit false

variable {β : Type*}

/-- The file, by sectors, with `file_map` and the sector where the next object goes. -/
structure GcFile (β : Type*) where
  sectors : List β
  fileMap : ℤ → ℤ
  offset : ℤ

namespace GcFile

def empty : GcFile β := ⟨[], fun _ => 0, 0⟩

/-- `sectors * 512` in the call of `write`. -/
def writeCount (content : List β) : ℤ := signedField 32 (signedField 32 content.length * 512)

/-- One round of the loop over `objs_to_clean`: a negative count is a `size_t` beyond
any buffer, `write` fails and the collector throws. -/
def copy (s : GcFile β) (obj : ℤ) (content : List β) : Option (GcFile β) :=
  if writeCount content < 0 then none
  else some {
    sectors := s.sectors ++ content.take (writeCount content / 512).toNat
    fileMap := Function.update s.fileMap obj (signedField 32 s.offset)
    offset := s.offset + signedField 32 content.length }

def copyAll (s : GcFile β) : List (ℤ × List β) → Option (GcFile β)
  | [] => some s
  | (obj, content) :: rest => (s.copy obj content).bind fun t => t.copyAll rest

def load (objs : List (ℤ × List β)) : Option (GcFile β) := empty.copyAll objs

/-- `file_sector`: an `int` and a 28-bit field are added as `int`. -/
def fileSector (s : GcFile β) (ptr : ObjOffset) : ℤ :=
  signedField 32 (s.fileMap ptr.obj + ptr.offset)

/-- `file_sector * 512`, the last argument of `pread`. -/
def byteOffset (s : GcFile β) (ptr : ObjOffset) : ℤ := signedField 32 (s.fileSector ptr * 512)

/-- The `pread` of one extent and the assertions around it; `pread` refuses a negative
offset and stops at the end of the file. -/
def pread (s : GcFile β) (e : Extent ObjOffset) : Option (List β) :=
  if s.fileSector e.ptr + e.len ≤ s.offset ∧ 0 ≤ s.byteOffset e.ptr then
    let data := (s.sectors.drop (s.byteOffset e.ptr / 512).toNat).take e.len.toNat
    if data.length = e.len.toNat then some data else none
  else none

end GcFile

def place : List (ℤ × List β) → ℤ → ℤ
  | [], _ => 0
  | (o, content) :: rest, obj => if o = obj then 0 else content.length + place rest obj

def InObject (objs : List (ℤ × List β)) (e : Extent ObjOffset) (content : List β) : Prop :=
  (e.ptr.obj, content) ∈ objs ∧ 0 ≤ e.ptr.offset ∧ 0 ≤ e.len ∧
    e.ptr.offset + e.len ≤ content.length

/-! ## Copying -/

namespace GcFile

theorem write_count_lt (content : List β) : writeCount content < 2 ^ 31 := by
  unfold writeCount signedField
  have := Int.bmod_lt (x := (Int.bmod content.length (2 ^ 32) * 512)) (m := 2 ^ 32) (by decide)
  omega

theorem write_count_eq {content : List β} (fits : content.length * 512 < 2 ^ 31) :
    writeCount content = content.length * 512 ∧
      signedField 32 content.length = content.length := by
  have length : signedField 32 content.length = content.length :=
    signed_field_of_range 31 _ (by omega) (by omega)
  refine ⟨?_, length⟩
  rw [writeCount, length]
  exact signed_field_of_range 31 _ (by omega) (by omega)

theorem copy_all_sectors {objs : List (ℤ × List β)} {s t : GcFile β}
    (copied : s.copyAll objs = some t) :
    t.sectors = s.sectors ++
      objs.flatMap fun o => o.2.take (writeCount o.2 / 512).toNat := by
  induction objs generalizing s with
  | nil =>
      rw [copyAll, Option.some.injEq] at copied
      simp [copied]
  | cons first rest ih =>
      obtain ⟨obj, content⟩ := first
      rw [copyAll, copy] at copied
      split at copied
      · cases copied
      · have later := ih copied
        rw [later, List.flatMap_cons, List.append_assoc]

/-- An object that is shorter than two gigabytes is written as a whole, and `file_map` has
the sector where it begins, as an `int`. -/
theorem copy_fits (s : GcFile β) (obj : ℤ) {content : List β}
    (fits : content.length * 512 < 2 ^ 31) :
    s.copy obj content = some ⟨s.sectors ++ content,
      Function.update s.fileMap obj (signedField 32 s.offset), s.offset + content.length⟩ := by
  obtain ⟨count, length⟩ := write_count_eq fits
  have whole : (writeCount content / 512).toNat = content.length := by
    rw [count]
    omega
  rw [copy, if_neg (by rw [count]; omega), whole, List.take_length, length]

theorem copy_all_fits {objs : List (ℤ × List β)}
    (fits : ∀ o ∈ objs, o.2.length * 512 < 2 ^ 31) (distinct : (objs.map Prod.fst).Nodup)
    (s : GcFile β) :
    ∃ t, s.copyAll objs = some t ∧ t.sectors = s.sectors ++ objs.flatMap Prod.snd ∧
      t.offset = s.offset + (objs.flatMap Prod.snd).length ∧
      (∀ obj ∈ objs.map Prod.fst, t.fileMap obj = signedField 32 (s.offset + place objs obj)) ∧
      ∀ obj, obj ∉ objs.map Prod.fst → t.fileMap obj = s.fileMap obj := by
  induction objs generalizing s with
  | nil => exact ⟨s, rfl, by simp, by simp, by simp, by simp⟩
  | cons first rest ih =>
      obtain ⟨obj, content⟩ := first
      rw [List.map_cons, List.nodup_cons] at distinct
      obtain ⟨t, copied, sectors, offset, listed, others⟩ := ih
        (fun o member => fits o (by simp [member])) distinct.2 ⟨s.sectors ++ content,
          Function.update s.fileMap obj (signedField 32 s.offset), s.offset + content.length⟩
      refine ⟨t, ?_, ?_, ?_, ?_, ?_⟩
      · rw [copyAll, copy_fits s obj (fits (obj, content) (by simp)), Option.bind_some]
        exact copied
      · rw [sectors, List.flatMap_cons, List.append_assoc]
      · rw [offset, List.flatMap_cons, List.length_append]
        push_cast
        ring
      · intro other member
        rw [place]
        by_cases here : obj = other
        · subst here
          rw [others obj distinct.1, if_pos rfl, add_zero]
          exact Function.update_self ..
        · have inRest : other ∈ rest.map Prod.fst := by
            rcases List.mem_cons.mp member with rfl | inRest
            · exact absurd rfl here
            · exact inRest
          rw [listed other inRest, if_neg here, add_assoc]
      · intro other absent
        rw [List.map_cons, List.mem_cons, not_or] at absent
        rw [others other absent.2]
        exact Function.update_of_ne absent.1 ..

end GcFile

/-! ## Reading -/

variable {objs : List (ℤ × List β)}

theorem place_spec (distinct : (objs.map Prod.fst).Nodup) {obj : ℤ} {content : List β}
    (member : (obj, content) ∈ objs) :
    ∃ before after, objs.flatMap Prod.snd = before ++ (content ++ after) ∧
      (before.length : ℤ) = place objs obj := by
  induction objs with
  | nil => cases member
  | cons first rest ih =>
      obtain ⟨other, sectors⟩ := first
      rw [List.map_cons, List.nodup_cons] at distinct
      rw [List.flatMap_cons]
      rcases List.mem_cons.mp member with same | inRest
      · cases same
        exact ⟨[], rest.flatMap Prod.snd, by simp, by simp [place]⟩
      · obtain ⟨before, after, whole, length⟩ := ih distinct.2 inRest
        have differs : other ≠ obj := by
          rintro rfl
          exact distinct.1 (List.mem_map.mpr ⟨_, inRest, rfl⟩)
        refine ⟨sectors ++ before, after, by rw [whole, List.append_assoc], ?_⟩
        rw [place, if_neg differs, List.length_append, ← length]
        push_cast
        rfl

/-- What `do_gc` relies on: the file has the objects in full; every live extent is read
from where it is in the file, without overflow, inside the file, and what is read are the
sectors that the extent has in its object. -/
structure AddressedExactly (objs : List (ℤ × List β)) (live : List (Extent ObjOffset)) (s : GcFile β) :
    Prop where
  whole : s.sectors = objs.flatMap Prod.snd
  exact : ∀ e ∈ live, s.fileMap e.ptr.obj = place objs e.ptr.obj ∧
    s.byteOffset e.ptr = 512 * (s.fileMap e.ptr.obj + e.ptr.offset)
  inside : ∀ e ∈ live, 0 ≤ s.byteOffset e.ptr ∧
    s.byteOffset e.ptr + 512 * e.len ≤ 512 * s.sectors.length
  data : ∀ e ∈ live, ∀ content, InObject objs e content →
    s.pread e = some ((content.drop e.ptr.offset.toNat).take e.len.toNat)

theorem written_whole
    (whole : (objs.flatMap fun o => o.2.take (GcFile.writeCount o.2 / 512).toNat) =
      objs.flatMap Prod.snd) :
    ∀ o ∈ objs, o.2.length * 512 < 2 ^ 31 := by
  have shorter : ∀ rest : List (ℤ × List β),
      (rest.flatMap fun o => o.2.take (GcFile.writeCount o.2 / 512).toNat).length ≤
        (rest.flatMap Prod.snd).length := by
    intro rest
    induction rest with
    | nil => simp
    | cons first rest ih =>
        simp only [List.flatMap_cons, List.length_append, List.length_take]
        omega
  induction objs with
  | nil => simp
  | cons first rest ih =>
      have lengths := congrArg List.length whole
      simp only [List.flatMap_cons, List.length_append, List.length_take] at lengths
      have restShorter := shorter rest
      have all : first.2.length ≤ (GcFile.writeCount first.2 / 512).toNat := by omega
      have restWhole := (List.append_inj whole (by rw [List.length_take]; omega)).2
      intro o member
      rcases List.mem_cons.mp member with rfl | inRest
      · have := GcFile.write_count_lt o.2
        omega
      · exact ih restWhole o inRest

/-- The live extents are read back exactly if and only if every object is shorter than two
gigabytes and every live extent begins below two gigabytes in the file. -/
theorem gc_addressing_exact_iff (objs : List (ℤ × List β)) (distinct : (objs.map Prod.fst).Nodup)
    (live : List (Extent ObjOffset)) (inObjects : ∀ e ∈ live, ∃ content, InObject objs e content) :
    (∃ s, GcFile.load objs = some s ∧ AddressedExactly objs live s) ↔
      (∀ o ∈ objs, o.2.length * 512 < 2 ^ 31) ∧
        ∀ e ∈ live, 512 * (place objs e.ptr.obj + e.ptr.offset) < 2 ^ 31 := by
  constructor
  · rintro ⟨s, loaded, reads⟩
    have written := GcFile.copy_all_sectors loaded
    rw [reads.whole, GcFile.empty, List.nil_append] at written
    refine ⟨written_whole written.symm, ?_⟩
    intro e member
    obtain ⟨map, offset⟩ := reads.exact e member
    rw [← map, ← offset]
    unfold GcFile.byteOffset signedField
    have := Int.bmod_lt (x := s.fileSector e.ptr * 512) (m := 2 ^ 32) (by decide)
    omega
  · rintro ⟨fits, below⟩
    obtain ⟨s, loaded, sectors, offset, map, -⟩ := GcFile.copy_all_fits fits distinct GcFile.empty
    simp only [GcFile.empty, List.nil_append, zero_add] at sectors offset map
    -- the products of every live extent stay within `int`
    have exact : ∀ e ∈ live, s.fileMap e.ptr.obj = place objs e.ptr.obj ∧
        s.fileSector e.ptr = place objs e.ptr.obj + e.ptr.offset ∧
        s.byteOffset e.ptr = 512 * (place objs e.ptr.obj + e.ptr.offset) := by
      intro e member
      obtain ⟨content, inMap, lower, -, -⟩ := inObjects e member
      obtain ⟨before, -, -, length⟩ := place_spec distinct inMap
      have start := below e member
      have placed : s.fileMap e.ptr.obj = place objs e.ptr.obj := by
        rw [map e.ptr.obj (List.mem_map.mpr ⟨_, inMap, rfl⟩)]
        exact signed_field_of_range 31 _ (by omega) (by omega)
      have sector : s.fileSector e.ptr = place objs e.ptr.obj + e.ptr.offset := by
        rw [GcFile.fileSector, placed]
        exact signed_field_of_range 31 _ (by omega) (by omega)
      refine ⟨placed, sector, ?_⟩
      rw [GcFile.byteOffset, sector, mul_comm]
      exact signed_field_of_range 31 _ (by omega) (by omega)
    refine ⟨s, loaded, sectors, ?_, ?_, ?_⟩
    · intro e member
      obtain ⟨placed, -, bytes⟩ := exact e member
      exact ⟨placed, by rw [bytes, placed]⟩
    · intro e member
      obtain ⟨content, inMap, lower, length, upper⟩ := inObjects e member
      obtain ⟨before, after, whole, placeLength⟩ := place_spec distinct inMap
      rw [(exact e member).2.2, sectors, whole]
      simp only [List.length_append]
      omega
    · intro e member content inObject
      obtain ⟨inMap, lower, length, upper⟩ := inObject
      obtain ⟨before, after, whole, placeLength⟩ := place_spec distinct inMap
      obtain ⟨-, sector, bytes⟩ := exact e member
      have total : s.offset = before.length + (content.length + after.length) := by
        rw [offset, whole]
        simp
      have start : (s.byteOffset e.ptr / 512).toNat = before.length + e.ptr.offset.toNat := by
        rw [bytes]
        omega
      have part : (s.sectors.drop (s.byteOffset e.ptr / 512).toNat).take e.len.toNat =
          (content.drop e.ptr.offset.toNat).take e.len.toNat := by
        rw [start, sectors, whole, ← List.drop_drop, List.drop_left,
          List.drop_append_of_le_length (by omega),
          List.take_append_of_le_length (by rw [List.length_drop]; omega)]
      rw [GcFile.pread, if_pos ⟨by rw [sector, total]; omega, by rw [bytes]; omega⟩]
      simp only [part]
      rw [if_pos (by rw [List.length_take, List.length_drop]; omega)]

/-- Objects of less than two gigabytes together, and in particular `33` objects of at most
`127100` sectors each, are always read back. -/
theorem addresses_fit_of_total (distinct : (objs.map Prod.fst).Nodup)
    (total : (objs.flatMap Prod.snd).length * 512 < 2 ^ 31) {live : List (Extent ObjOffset)}
    (inObjects : ∀ e ∈ live, ∃ content, InObject objs e content) :
    (∀ o ∈ objs, o.2.length * 512 < 2 ^ 31) ∧
      ∀ e ∈ live, 512 * (place objs e.ptr.obj + e.ptr.offset) < 2 ^ 31 := by
  constructor
  · intro o member
    obtain ⟨before, after, whole, -⟩ := place_spec distinct (show (o.1, o.2) ∈ objs from member)
    have part : o.2.length ≤ (objs.flatMap Prod.snd).length := by
      rw [whole, List.length_append, List.length_append]
      omega
    exact lt_of_le_of_lt (Nat.mul_le_mul_right 512 part) total
  · intro e member
    obtain ⟨content, inMap, -, length, upper⟩ := inObjects e member
    obtain ⟨before, after, whole, placeLength⟩ := place_spec distinct inMap
    have part : place objs e.ptr.obj + content.length ≤ (objs.flatMap Prod.snd).length := by
      rw [whole, List.length_append, List.length_append]
      omega
    omega

def smallVictims : List (ℤ × List ℕ) :=
  [(4, [0, 0, 0, 0, 0, 0, 0, 0, 41, 42]), (2, [0, 0, 0, 0, 21, 22])]

def smallLive : List (Extent ObjOffset) :=
  [⟨0, 1, ⟨2, 5⟩⟩, ⟨7, 2, ⟨4, 8⟩⟩, ⟨100, 1, ⟨2, 4⟩⟩]

theorem gc_addressing_exact_small :
    (∃ s, GcFile.load smallVictims = some s ∧ AddressedExactly smallVictims smallLive s) ∧
      (GcFile.load smallVictims).map (fun s => smallLive.map s.pread) =
        some [some [22], some [41, 42], some [21]] := by
  have inObjects : ∀ e ∈ smallLive, ∃ o ∈ smallVictims, e.ptr.obj = o.1 ∧ 0 ≤ e.ptr.offset ∧
      0 ≤ e.len ∧ e.ptr.offset + e.len ≤ o.2.length := by
    decide +kernel
  have contents : ∀ e ∈ smallLive, ∃ content, InObject smallVictims e content := by
    intro e member
    obtain ⟨⟨obj, content⟩, inVictims, rfl, inside⟩ := inObjects e member
    exact ⟨content, inVictims, inside⟩
  exact ⟨(gc_addressing_exact_iff smallVictims (by decide) smallLive contents).mpr
    (addresses_fit_of_total (by decide) (by decide) contents), by decide +kernel⟩

def fullObject : List Unit := List.replicate (2 ^ 17 + 8) ()

theorem full_object_length : fullObject.length = 2 ^ 17 + 8 := List.length_replicate

def largeVictims : List (ℤ × List Unit) :=
  ((List.range 33).map fun (i : ℕ) => (i : ℤ) + 1).map fun o => (o, fullObject)

def lastExtent : Extent ObjOffset := ⟨0, 8, ⟨33, 8⟩⟩

theorem place_same (content : List β) (objs : List ℤ) (obj : ℤ) :
    place (objs.map fun o => (o, content)) obj =
      if obj ∈ objs then (objs.idxOf obj * content.length : ℕ)
      else (objs.length * content.length : ℕ) := by
  induction objs with
  | nil => simp [place]
  | cons first rest ih =>
      rw [List.map_cons, place, ih]
      by_cases here : first = obj
      · simp [here]
      · by_cases later : obj ∈ rest
        · rw [if_neg here, if_pos later, if_pos (by simp [later]), List.idxOf_cons_ne _ here]
          push_cast
          ring
        · rw [if_neg here, if_neg later, if_neg (by simp [later, Ne.symm here]), List.length_cons]
          push_cast
          ring

/-- The objects are copied in full, but the place of an extent in the last one is computed
in an `int` that overflows; `pread` gets a negative offset and fails. -/
theorem gc_read_offset_overflows :
    largeVictims.length = 33 ∧ InObject largeVictims lastExtent fullObject ∧
      (∃ s, GcFile.load largeVictims = some s ∧ s.sectors = largeVictims.flatMap Prod.snd ∧
        s.fileMap 33 = 2 ^ 22 + 2 ^ 8 ∧ s.byteOffset lastExtent.ptr = 2 ^ 17 + 2 ^ 12 - 2 ^ 31 ∧
        s.pread lastExtent = none) ∧
      ¬∃ s, GcFile.load largeVictims = some s ∧
        AddressedExactly largeVictims [lastExtent] s := by
  have keys : largeVictims.map Prod.fst = (List.range 33).map fun (i : ℕ) => (i : ℤ) + 1 := by
    rw [largeVictims, List.map_map]
    exact List.map_id _
  have start : place largeVictims 33 = 2 ^ 22 + 2 ^ 8 := by
    rw [largeVictims, place_same, full_object_length]
    decide
  have fits : ∀ o ∈ largeVictims, o.2.length * 512 < 2 ^ 31 := by
    intro o member
    obtain ⟨i, -, rfl⟩ := List.mem_map.mp member
    rw [full_object_length]
    norm_num
  have member : ((33 : ℤ), fullObject) ∈ largeVictims :=
    List.mem_map.mpr ⟨33, by decide, rfl⟩
  obtain ⟨s, loaded, sectors, -, map, -⟩ :=
    GcFile.copy_all_fits fits (by rw [keys]; decide) GcFile.empty
  rw [GcFile.empty, List.nil_append] at sectors
  have placed : s.fileMap 33 = 2 ^ 22 + 2 ^ 8 := by
    rw [map 33 (List.mem_map.mpr ⟨_, member, rfl⟩), start]
    decide
  have bytes : s.byteOffset lastExtent.ptr = 2 ^ 17 + 2 ^ 12 - 2 ^ 31 := by
    rw [GcFile.byteOffset, GcFile.fileSector, lastExtent, placed]
    decide
  have refused : s.pread lastExtent = none := by
    rw [GcFile.pread, if_neg]
    rintro ⟨-, nonneg⟩
    rw [bytes] at nonneg
    exact absurd nonneg (by decide)
  have inside : InObject largeVictims lastExtent fullObject :=
    ⟨member, by decide, by decide, by rw [full_object_length]; decide⟩
  refine ⟨by rw [largeVictims]; simp, inside, ⟨s, loaded, sectors, placed, bytes, refused⟩, ?_⟩
  rintro ⟨t, loadedAgain, exact⟩
  cases loaded.symm.trans loadedAgain
  have read := exact.data lastExtent (by simp) _ inside
  rw [refused] at read
  cases read

/-! ## The file of a session -/

section Session

variable {σ : Type*}

def victims (store : Store σ) (buf : ℕ → ℕ → σ) (objs : List (ℕ × ℕ)) : List (ℤ × List σ) :=
  objs.map fun entry => ((entry.1 : ℤ), (List.range entry.2).map (copied store buf entry.1))

theorem temp_file_eq (store : Store σ) (buf : ℕ → ℕ → σ) (objs : List (ℕ × ℕ)) :
    tempFile store buf objs = (victims store buf objs).flatMap Prod.snd := by
  rw [tempFile, victims, List.flatMap_map]

theorem file_map_eq (store : Store σ) (buf : ℕ → ℕ → σ) {objs : List (ℕ × ℕ)} {obj : ℤ}
    {content : List σ}
    (member : (obj, content) ∈ victims store buf objs) :
    ∃ k : ℕ, fileMap objs obj = some k ∧ (k : ℤ) = place (victims store buf objs) obj := by
  induction objs with
  | nil => cases member
  | cons first rest ih =>
      obtain ⟨o, n⟩ := first
      by_cases here : (o : ℤ) = obj
      · exact ⟨0, by simp [fileMap, here], by simp [victims, place, here]⟩
      · obtain ⟨k, found, same⟩ := ih (by
          rcases List.mem_cons.mp member with first | inRest
          · exact absurd (congrArg Prod.fst first).symm here
          · exact inRest)
        refine ⟨n + k, by rw [fileMap, if_neg here, found]; rfl, ?_⟩
        rw [victims, List.map_cons, place, if_neg here]
        simp only [List.length_map, List.length_range]
        rw [← victims, ← same]
        push_cast
        rfl

theorem read_extent_eq (store : Store σ) (buf : ℕ → ℕ → σ) {objs : List (ℕ × ℕ)}
    (distinct : ((victims store buf objs).map Prod.fst).Nodup) {live : List (Extent ObjOffset)}
    {s : GcFile σ} (exact : AddressedExactly (victims store buf objs) live s)
    {e : Extent ObjOffset} (member : e ∈ live) {content : List σ}
    (inObject : InObject (victims store buf objs) e content) :
    readExtent (tempFile store buf objs) objs e =
      (s.pread e).map fun data => (e, data) := by
  obtain ⟨inVictims, lower, length, upper⟩ := inObject
  obtain ⟨before, after, whole, placeLength⟩ := place_spec distinct inVictims
  obtain ⟨k, found, same⟩ := file_map_eq store buf inVictims
  have start : k = before.length := by omega
  have size : ((content.drop e.ptr.offset.toNat).take e.len.toNat).length = e.len.toNat := by
    rw [List.length_take, List.length_drop]
    omega
  -- sector by sector, the place in the file is the place in the object
  have sectors : (List.range e.len.toNat).mapM
      (fun i => (tempFile store buf objs)[k + e.ptr.offset.toNat + i]?) =
        some ((content.drop e.ptr.offset.toNat).take e.len.toNat) := by
    refine Machine.map_m_eq_some_iff.mpr (List.forall₂_iff_get.mpr ⟨by rw [List.length_range, size], ?_⟩)
    intro i inRange inPart
    have inside : i < e.len.toNat := by rwa [size] at inPart
    simp only [List.get_eq_getElem, List.getElem_range]
    rw [← List.getElem?_eq_getElem inPart, List.getElem?_take_of_lt inside, List.getElem?_drop,
      temp_file_eq, whole, start, List.getElem?_append_right (by omega),
      List.getElem?_append_left (by omega)]
    congr 1
    omega
  rw [exact.data e member content ⟨inVictims, lower, length, upper⟩, readExtent, found,
    Option.getD_some, sectors]

end Session

end LsvdRbd.Session
