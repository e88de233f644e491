import LsvdRbd.ExtentMap.Canonical
import LsvdRbd.Recovery.Replay

/-!
# Checkpoints read back

Reading a checkpoint into an empty image gives the map and the table that it was
written from. The map is rebuilt by updates that merge neighbours, and the extents
of a map are the ones that no update would have merged.
-/

namespace LsvdRbd.Recovery

open Records RunList ExtentMap Format Translate

set_option autoImplicit false

variable {σ : Type*}

/-! ## The table -/

theorem load_objects {objects : List CkptObj} (distinct : (objects.map CkptObj.seq).Nodup)
    (info : ObjTable) (n : ℕ) (oi : ObjInfo) :
    (objects.foldl loadObject info)[n]? = some oi ↔
      (∃ o ∈ objects, o.seq = n ∧ (⟨o.hdrSectors, o.dataSectors, o.liveSectors⟩ : ObjInfo) = oi) ∨
        (∀ o ∈ objects, o.seq ≠ n) ∧ info[n]? = some oi := by
  induction objects generalizing info with
  | nil => simp
  | cons first rest ih =>
      rw [List.map_cons, List.nodup_cons] at distinct
      obtain ⟨fresh, restDistinct⟩ := distinct
      have elsewhere : ∀ o ∈ rest, o.seq ≠ first.seq := by
        intro o member same
        exact fresh (same ▸ List.mem_map_of_mem member)
      rw [List.foldl_cons, ih restDistinct, loadObject, table_insert]
      by_cases here : first.seq = n
      · subst here
        have none : ¬∃ o ∈ rest, o.seq = first.seq ∧
            (⟨o.hdrSectors, o.dataSectors, o.liveSectors⟩ : ObjInfo) = oi := by
          rintro ⟨o, member, same, -⟩
          exact elsewhere o member same
        simp only [none, if_true, Option.some.injEq, false_or, List.mem_cons]
        constructor
        · rintro ⟨-, same⟩
          exact .inl ⟨first, .inl rfl, rfl, same⟩
        · rintro (⟨o, rfl | later, same, value⟩ | ⟨nowhere, -⟩)
          · exact ⟨elsewhere, value⟩
          · exact absurd same (elsewhere o later)
          · exact absurd rfl (nowhere first (.inl rfl))
      · simp only [here, if_false, List.mem_cons, exists_eq_or_imp, false_and, false_or,
          forall_eq_or_imp, ne_eq, not_false_eq_true, true_and]

structure TableFits (info : ObjTable) : Prop where
  keys : ∀ (o : ℕ) (oi : ObjInfo), info[o]? = some oi → o < 2 ^ 32
  lower : ∀ (o : ℕ) (oi : ObjInfo), info[o]? = some oi → 0 ≤ oi.hdr ∧ 0 ≤ oi.data ∧ 0 ≤ oi.live
  upper : ∀ (o : ℕ) (oi : ObjInfo), info[o]? = some oi →
    oi.hdr < 2 ^ 32 ∧ oi.data < 2 ^ 32 ∧ oi.live < 2 ^ 32

theorem TableFits.record {info : ObjTable} (fits : TableFits info) {o : ℕ} {oi : ObjInfo}
    (present : info[o]? = some oi) :
    o % 2 ^ 32 = o ∧ (⟨(unsignedField 32 oi.hdr).toNat, (unsignedField 32 oi.data).toNat,
      (unsignedField 32 oi.live).toNat⟩ : ObjInfo) = oi := by
  obtain ⟨hdrLower, dataLower, liveLower⟩ := fits.lower o oi present
  obtain ⟨hdrUpper, dataUpper, liveUpper⟩ := fits.upper o oi present
  refine ⟨Nat.mod_eq_of_lt (fits.keys o oi present), ?_⟩
  obtain ⟨hdr, data, live⟩ := oi
  simp only at *
  rw [unsigned_field_of_range 32 hdr hdrLower hdrUpper,
    unsigned_field_of_range 32 data dataLower dataUpper,
    unsigned_field_of_range 32 live liveLower liveUpper]
  simp only [ObjInfo.mk.injEq]
  omega

theorem load_table {info : ObjTable} (fits : TableFits info) :
    (ckptObjects info).foldl loadObject ∅ = info := by
  have member : ∀ o oi, (o, oi) ∈ info.toList ↔ info[o]? = some oi := fun _ _ =>
    Std.ExtTreeMap.mem_toList_iff_getElem?_eq_some
  have numbers : (ckptObjects info).map CkptObj.seq = info.toList.map Prod.fst := by
    rw [ckptObjects, List.map_map]
    refine List.map_congr_left ?_
    rintro ⟨o, oi⟩ inTable
    exact (fits.record ((member o oi).mp inTable)).1
  have distinct : ((ckptObjects info).map CkptObj.seq).Nodup := by
    rw [numbers, List.Nodup, List.pairwise_map]
    refine Std.ExtTreeMap.distinct_keys_toList.imp ?_
    intro left right different same
    exact different (Std.compare_eq_iff_eq.mpr same)
  apply Std.ExtTreeMap.ext_getElem?
  intro n
  apply Option.ext
  intro oi
  rw [load_objects distinct]
  constructor
  · rintro (⟨o, inRecords, rfl, value⟩ | ⟨-, absent⟩)
    · obtain ⟨⟨k, entry⟩, inTable, rfl⟩ := List.mem_map.mp inRecords
      obtain ⟨key, exact⟩ := fits.record ((member k entry).mp inTable)
      simp only at value ⊢
      rw [key, ← value, exact]
      exact (member k entry).mp inTable
    · simp at absent
  · intro present
    obtain ⟨key, exact⟩ := fits.record present
    exact .inl ⟨_, List.mem_map_of_mem ((member n oi).mpr present), key, exact⟩

theorem table_fits {maps : Maps} (consistent : maps.Consistent) (measured : maps.Measured) :
    TableFits maps.info := by
  have lives : ∀ (o : ℕ) (oi : ObjInfo), maps.info[o]? = some oi → 0 ≤ oi.live := by
    intro o oi present
    rw [consistent.exact o oi present]
    exact owned_nonneg _ fun e member => (consistent.sound.ordered.positive e member).le
  refine ⟨?_, ?_, ?_⟩
  · intro o oi present
    have := consistent.keys o oi present
    omega
  · intro o oi present
    have := lives o oi present
    have := measured.filled o oi present
    have := measured.sizes o oi present
    omega
  · intro o oi present
    have := measured.filled o oi present
    have := measured.sizes o oi present
    omega

/-! ## The map -/

/-- What the extents of an object map are like: they are in order, no update would have
merged two neighbours, and offsets have the 28 bits that the map has for them. Addresses,
lengths and object numbers are bounded. -/
structure Storable (runs : List (Extent ObjOffset)) : Prop where
  ordered : Ordered runs
  separate : runs.IsChain fun left right => Layout.lba2obj.adjacent left right = false
  offsets : ∀ e ∈ runs, -2 ^ 27 ≤ e.ptr.offset ∧ e.ptr.offset < 2 ^ 27
  addresses : ∀ e ∈ runs, 0 ≤ e.base ∧ e.base < 2 ^ 35
  lengths : ∀ e ∈ runs, e.len < 2 ^ 23
  objects : ∀ e ∈ runs, 0 ≤ e.ptr.obj ∧ e.ptr.obj < 2 ^ 31

def entryOf (e : Extent ObjOffset) : MapEntry := ⟨e.base, e.len, e.ptr.obj, e.ptr.offset⟩

variable {runs : List (Extent ObjOffset)}

theorem Storable.entry (storable : Storable runs) {e : Extent ObjOffset} (member : e ∈ runs) :
    MapEntry.store e.base e.len e.ptr.obj e.ptr.offset = entryOf e ∧
      Layout.lba2obj.extent e.base e.len e.ptr = e := by
  have positive := storable.ordered.positive e member
  have offset := storable.offsets e member
  have address := storable.addresses e member
  have length := storable.lengths e member
  have object := storable.objects e member
  constructor
  · rw [MapEntry.store, entryOf, signed_field_of_range 35 e.base (by omega) (by omega),
      signed_field_of_range 27 e.len (by omega) (by omega),
      signed_field_of_range 31 e.ptr.obj (by omega) (by omega),
      signed_field_of_range 31 e.ptr.offset (by omega) (by omega)]
  · refine Run.ext ?_ ?_ (ObjOffset.ext ?_ ?_)
    · exact signed_field_of_range 37 e.base (by omega) (by omega)
    · exact signed_field_of_range 23 e.len (by omega) (by omega)
    · exact signed_field_of_range 35 e.ptr.obj (by omega) (by omega)
    · exact signed_field_of_range 27 e.ptr.offset (by omega) (by omega)

theorem load_behind
    (stored : ∀ e ∈ runs, Layout.lba2obj.extent e.base e.len e.ptr = e) {m : Objmap}
    (shape : m.Shape 256) (ordered : Ordered (m.extents ++ runs))
    (separate : (m.extents ++ runs).IsChain fun left right =>
      Layout.lba2obj.adjacent left right = false) :
    ((runs.map entryOf).foldl loadEntry m).extents = m.extents ++ runs := by
  induction runs generalizing m with
  | nil => simp
  | cons e rest ih =>
      obtain ⟨before, -, between⟩ := (ordered_append _ _).mp ordered
      have same : Layout.lba2obj.extent e.base (e.base + e.len - e.base) e.ptr = e := by
        rw [add_sub_cancel_left]
        exact stored e (by simp)
      have apart : ∀ last ∈ m.extents.getLast?, Layout.lba2obj.adjacent last e = false :=
        fun last member => (List.isChain_append.mp separate).2.2 last member e (by simp)
      obtain ⟨extents, larger⟩ := Extmap.update_beyond (l := e.base + e.len) (by omega) shape before
        e.ptr (fun other member => between other member e (by simp)) (same.symm ▸ apart)
      rw [same] at extents
      have loaded : (loadEntry m (entryOf e)).extents = m.extents ++ [e] := extents
      rw [List.append_cons, ← loaded] at ordered separate ⊢
      exact ih (fun other member => stored other (by simp [member])) larger ordered separate

theorem load_extents (storable : Storable runs) :
    ((runs.map entryOf).foldl loadEntry Extmap.empty).extents = runs :=
  load_behind (fun _ member => (storable.entry member).2) (Extmap.empty_shape 256)
    storable.ordered storable.separate

def stripes (n : ℕ) : List (Extent ObjOffset) :=
  (List.range n).map fun i : ℕ => ⟨16 * i, 8, ⟨i + 1, 8⟩⟩

theorem stripes_storable {n : ℕ} (few : n < 2 ^ 31) : Storable (stripes n) := by
  have later : (stripes n).Pairwise fun left right => left.limit < right.base := by
    rw [stripes, List.pairwise_map]
    refine List.pairwise_lt_range.imp ?_
    intro i j before
    simp only [Run.limit]
    omega
  have each : ∀ e ∈ stripes n, e.ptr.offset = 8 ∧ e.len = 8 ∧ 0 ≤ e.base ∧ e.base < 2 ^ 35 ∧
      0 ≤ e.ptr.obj ∧ e.ptr.obj < 2 ^ 31 := by
    intro e member
    obtain ⟨i, inside, rfl⟩ := List.mem_map.mp member
    have := List.mem_range.mp inside
    simp only [true_and]
    omega
  refine ⟨⟨?_, later.imp le_of_lt⟩, (later.imp ?_).isChain, ?_, ?_, ?_, ?_⟩
  · intro e member
    have := each e member
    omega
  · intro left right apart
    exact decide_eq_false fun meet => absurd meet.1 apart.ne
  all_goals
    intro e member
    have := each e member
    omega

def striped (n : ℕ) : Maps :=
  ⟨((stripes n).map entryOf).foldl loadEntry Extmap.empty,
    [⟨1, 8, 8, 8⟩, ⟨2, 8, 16, 8⟩].foldl loadObject ∅, 24, 16⟩

theorem striped_extents {n : ℕ} (few : n < 2 ^ 31) : (striped n).objmap.extents = stripes n :=
  load_extents (stripes_storable few)

theorem striped_bytes {n : ℕ} (few : n < 2 ^ 31) :
    ckptBytes (ckptObjects (striped n).info) (ckptEntries (striped n).objmap) =
      84 + n * 16 + 2 * 16 := by
  have objects : (ckptObjects (striped n).info).length = 2 := rfl
  rw [ckptBytes, objects, ckptEntries, List.length_map, striped_extents few, stripes,
    List.length_map, List.length_range]
  rfl

def plugged : List (Op ObjOffset) :=
  [.update 0 2 ⟨1, 8⟩, .update 4 8 ⟨1, 12⟩, .update 2 4 ⟨1, 10⟩, .update 8 9 ⟨2, 8⟩]

end LsvdRbd.Recovery
