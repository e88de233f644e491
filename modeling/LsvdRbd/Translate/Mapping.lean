import LsvdRbd.ExtentMap.Objmap
import LsvdRbd.Format.Checkpoint

/-!
# Mapping one object

`process_batch`, `write_gc` and `apply_log` each run the same loop over the
extents of an object: map every extent to the object at a running sector
offset, and collect what that displaces. The displaced extents are then charged
to the live counts of the objects they belonged to.
-/

namespace LsvdRbd.Translate

open RunList ExtentMap Format

set_option autoImplicit false

abbrev Ranges := List (ℤ × ℤ)

/-- Map the ranges to object `seq`, from sector `offset` on. -/
def mapExtents (seq : ℤ) (offset : ℤ) (ranges : Ranges) (m : Objmap) :
    Objmap × List (Extent ObjOffset) :=
  match ranges with
  | [] => (m, [])
  | (lba, len) :: rest =>
      let r := m.set lba (lba + len) ⟨seq, offset⟩
      let next := mapExtents seq (offset + len) rest r.1
      (next.1, r.2 ++ next.2)

def sectors (ranges : Ranges) : ℤ := (ranges.map Prod.snd).sum

@[simp] theorem sectors_nil : sectors [] = 0 := rfl

@[simp] theorem sectors_cons (range : ℤ × ℤ) (rest : Ranges) :
    sectors (range :: rest) = range.2 + sectors rest := by
  simp [sectors]

@[simp] theorem sectors_append (left right : Ranges) :
    sectors (left ++ right) = sectors left + sectors right := by
  simp [sectors]

/-- The position, counted from the first range, of the last copy of `x`. -/
def lastIndex : Ranges → ℤ → Option ℤ
  | [], _ => none
  | (lba, len) :: rest, x =>
      match lastIndex rest x with
      | some i => some (len + i)
      | none => if lba ≤ x ∧ x < lba + len then some (x - lba) else none

def Proper (ranges : Ranges) : Prop :=
  ∀ range ∈ ranges, 0 ≤ range.1 ∧ 0 < range.2 ∧ range.1 + range.2 ≤ 2 ^ 35

theorem Proper.tail {range : ℤ × ℤ} {rest : Ranges} (proper : Proper (range :: rest)) :
    Proper rest := fun other member => proper other (by simp [member])

variable {ranges : Ranges}

theorem Proper.sectors_nonneg (proper : Proper ranges) : 0 ≤ sectors ranges := by
  induction ranges with
  | nil => simp
  | cons range rest ih =>
      have := (proper range (by simp)).2.1
      have := ih proper.tail
      rw [sectors_cons]
      omega

theorem last_index_bounds (proper : Proper ranges) {x i : ℤ} (found : lastIndex ranges x = some i) :
    0 ≤ i ∧ i < sectors ranges ∧ 0 ≤ x ∧ x < 2 ^ 35 := by
  induction ranges generalizing i with
  | nil => cases found
  | cons range rest ih =>
      obtain ⟨lba, len⟩ := range
      obtain ⟨lbaLower, lenPositive, limit⟩ := proper (lba, len) (by simp)
      have total := proper.tail.sectors_nonneg
      rw [lastIndex] at found
      rw [sectors_cons]
      simp only at lbaLower lenPositive limit ⊢
      cases later : lastIndex rest x with
      | some j =>
          rw [later] at found
          have := ih proper.tail later
          have : len + j = i := Option.some.inj found
          omega
      | none =>
          rw [later] at found
          simp only at found
          split at found
          · have : x - lba = i := Option.some.inj found
            omega
          · cases found

theorem last_index_nonneg (lengths : ∀ range ∈ ranges, 0 ≤ range.2) {x i : ℤ}
    (found : lastIndex ranges x = some i) : 0 ≤ i := by
  induction ranges generalizing i with
  | nil => cases found
  | cons range rest ih =>
      obtain ⟨lba, len⟩ := range
      have lenNonneg : 0 ≤ len := lengths (lba, len) (by simp)
      rw [lastIndex] at found
      cases later : lastIndex rest x with
      | some j =>
          rw [later] at found
          have := ih (fun other member => lengths other (by simp [member])) later
          have : len + j = i := Option.some.inj found
          omega
      | none =>
          rw [later] at found
          simp only at found
          split at found
          · have : x - lba = i := Option.some.inj found
            omega
          · cases found

theorem last_index_eq_none_iff (x : ℤ) :
    lastIndex ranges x = none ↔ ∀ range ∈ ranges, ¬(range.1 ≤ x ∧ x < range.1 + range.2) := by
  induction ranges with
  | nil => simp [lastIndex]
  | cons range rest ih =>
      obtain ⟨lba, len⟩ := range
      rw [lastIndex, List.forall_mem_cons, ← ih]
      cases lastIndex rest x with
      | some i => simp
      | none => simp

theorem last_index_append (left right : Ranges) (x : ℤ) :
    lastIndex (left ++ right) x =
      ((lastIndex right x).map (sectors left + ·)).or (lastIndex left x) := by
  induction left with
  | nil => cases found : lastIndex right x <;> simp [lastIndex, found]
  | cons range rest ih =>
      obtain ⟨lba, len⟩ := range
      rw [List.cons_append, lastIndex, ih]
      cases lastIndex right x with
      | some i => simp [add_assoc]
      | none => simp [lastIndex]

theorem last_index_ge (before : Ranges) {after : Ranges} {lba len x : ℤ} (lengths : Proper after)
    (low : lba ≤ x) (high : x < lba + len) :
    ∃ i, lastIndex (before ++ (lba, len) :: after) x = some i ∧
      sectors before + (x - lba) ≤ i := by
  rw [last_index_append, lastIndex]
  cases later : lastIndex after x with
  | some i =>
      have := last_index_bounds lengths later
      exact ⟨sectors before + (len + i), rfl, by omega⟩
  | none => exact ⟨sectors before + (x - lba), by simp [low, high], le_refl _⟩

def overlay (seq offset : ℤ) (ranges : Ranges) (f : ℤ → Option ObjOffset) (x : ℤ) :
    Option ObjOffset :=
  match lastIndex ranges x with
  | some i => some ⟨seq, offset + i⟩
  | none => f x

private theorem first_within {seq offset lba len : ℤ} {rest : Ranges}
    (proper : Proper ((lba, len) :: rest)) (seqLower : 0 ≤ seq) (seqUpper : seq < 2 ^ 31)
    (offsetLower : 0 ≤ offset) (reach : offset + sectors ((lba, len) :: rest) ≤ 2 ^ 22) :
    lba < lba + len ∧ Within ⟨lba, lba + len - lba, ⟨seq, offset⟩⟩ ∧ 0 ≤ offset + len ∧
      offset + len + sectors rest ≤ 2 ^ 22 := by
  obtain ⟨lbaLower, lenPositive, limit⟩ := proper (lba, len) (by simp)
  have total := proper.tail.sectors_nonneg
  rw [sectors_cons] at reach
  simp only at lbaLower lenPositive limit reach
  exact ⟨by omega, ⟨lbaLower, by simp only [Run.limit]; omega, seqLower, seqUpper, offsetLower,
    by simp only; omega⟩, by omega, by omega⟩

variable {m : Objmap}

/-- What the loop does: the object is laid over the map, and the displaced
extents, all nonempty and within the bounds, account for the change of the
total length mapped to each object. -/
theorem map_extents_spec (seq offset : ℤ) (sound : Sound m) (proper : Proper ranges)
    (seqLower : 0 ≤ seq) (seqUpper : seq < 2 ^ 31) (offsetLower : 0 ≤ offset)
    (reach : offset + sectors ranges ≤ 2 ^ 22) :
    Sound (mapExtents seq offset ranges m).1 ∧
      (∀ x, locate (mapExtents seq offset ranges m).1 x =
        overlay seq offset ranges (locate m) x) ∧
      (∀ d ∈ (mapExtents seq offset ranges m).2, Within d ∧ 0 < d.len) ∧
      ∀ o, owned o (mapExtents seq offset ranges m).1.extents +
          owned o (mapExtents seq offset ranges m).2 =
        owned o m.extents +
          if seq = o then sectors ranges else 0 := by
  induction ranges generalizing offset m with
  | nil => exact ⟨sound, fun _ => rfl, by simp [mapExtents], by simp [mapExtents]⟩
  | cons range rest ih =>
      obtain ⟨lba, len⟩ := range
      obtain ⟨order, new, nextLower, nextReach⟩ :=
        first_within proper seqLower seqUpper offsetLower reach
      obtain ⟨setSound, extents, lost⟩ := sound.set order new
      obtain ⟨restSound, restLocate, restLost, restMass⟩ :=
        ih (offset + len) setSound proper.tail nextLower nextReach
      refine ⟨restSound, ?_, ?_, ?_⟩
      · intro x
        change locate (mapExtents seq (offset + len) rest
          (m.set lba (lba + len) ⟨seq, offset⟩).1).1 x = _
        rw [restLocate, overlay, overlay, lastIndex]
        cases later : lastIndex rest x with
        | some i =>
            simp only [Option.some.injEq, ObjOffset.mk.injEq, true_and]
            ring
        | none =>
            simp only
            rw [sound.locate_set order new]
            split
            · simp only [Option.some.injEq]
              exact ObjOffset.ext rfl rfl
            · rfl
      · intro d member
        simp only [mapExtents, List.mem_append] at member
        rcases member with first | later
        · obtain ⟨⟨within, -⟩, positive, -⟩ := sound.displaced order new d first
          exact ⟨within, positive⟩
        · exact restLost d later
      · intro o
        have first := owned_overwrite sound.ordered order ⟨seq, offset⟩ o
        have later := restMass o
        rw [extents] at later
        simp only [mapExtents, owned_append, lost, sectors_cons]
        simp only [add_sub_cancel_left] at first
        split_ifs at * <;> omega

theorem below_overlay {seq hdrSectors : ℕ} {m m' : Objmap}
    (mapped : ∀ x p, locate m x = some p → p.obj < (seq : ℤ))
    (laid : ∀ x, locate m' x = overlay seq hdrSectors ranges (locate m) x) :
    ∀ x p, locate m' x = some p → p.obj < ((seq + 1 : ℕ) : ℤ) := by
  intro x p found
  rw [laid, overlay] at found
  split at found
  · rw [← Option.some.inj found]
    simp
  · have := mapped x p found
    omega

theorem map_extents_lost {seq offset : ℤ} (sound : Sound m) (proper : Proper ranges)
    (seqLower : 0 ≤ seq) (seqUpper : seq < 2 ^ 31) (offsetLower : 0 ≤ offset)
    (reach : offset + sectors ranges ≤ 2 ^ 22) {d : Extent ObjOffset}
    (member : d ∈ (mapExtents seq offset ranges m).2) (other : d.ptr.obj ≠ seq) :
    ∃ x p, locate m x = some p ∧ p.obj = d.ptr.obj := by
  obtain ⟨sound', -, lost, counts⟩ :=
    map_extents_spec seq offset sound proper seqLower seqUpper offsetLower reach
  by_contra unmapped
  push Not at unmapped
  have before := (owned_eq_zero_iff sound d.ptr.obj).mpr unmapped
  have after : 0 ≤ owned d.ptr.obj (mapExtents seq offset ranges m).1.extents :=
    owned_nonneg _ fun e inMap => (sound'.ordered.positive e inMap).le
  have lengths : ∀ e ∈ (mapExtents seq offset ranges m).2, 0 ≤ e.len :=
    fun e inLost => (lost e inLost).2.le
  have taken := owned_nonneg d.ptr.obj lengths
  have balance := counts d.ptr.obj
  rw [if_neg other.symm, before] at balance
  exact (owned_eq_zero_iff_forall lengths).mp (by omega) d member (lost d member).2 rfl

def Apart (ranges : Ranges) : Prop :=
  ranges.Pairwise fun left right => left.1 + left.2 ≤ right.1 ∨ right.1 + right.2 ≤ left.1

/-- Nothing is displaced exactly if the ranges were unmapped and do not meet. -/
theorem map_extents_displaced_eq_nil_iff (seq offset : ℤ) (sound : Sound m) (proper : Proper ranges)
    (seqLower : 0 ≤ seq) (seqUpper : seq < 2 ^ 31) (offsetLower : 0 ≤ offset)
    (reach : offset + sectors ranges ≤ 2 ^ 22) :
    (mapExtents seq offset ranges m).2 = [] ↔
      (∀ range ∈ ranges, ∀ x, range.1 ≤ x → x < range.1 + range.2 → locate m x = none) ∧
        Apart ranges := by
  induction ranges generalizing offset m with
  | nil => simp [mapExtents, Apart]
  | cons range rest ih =>
      obtain ⟨lba, len⟩ := range
      obtain ⟨order, new, nextLower, nextReach⟩ :=
        first_within proper seqLower seqUpper offsetLower reach
      have setSound := (sound.set order new).1
      have restProper := proper.tail
      rw [mapExtents, List.append_eq_nil_iff, sound.displaced_eq_nil_iff order new,
        ih (offset + len) setSound restProper nextLower nextReach, Apart, Apart, List.pairwise_cons]
      constructor
      · rintro ⟨first, later, apart⟩
        -- an address of a later range is mapped neither before nor by this range
        have outside : ∀ other ∈ rest, ∀ x, other.1 ≤ x → x < other.1 + other.2 →
            ¬(lba ≤ x ∧ x < lba + len) ∧ locate m x = none := by
          intro other member x low high
          have unmapped := later other member x low high
          rw [sound.locate_set order new] at unmapped
          split at unmapped
          · cases unmapped
          · exact ⟨by assumption, unmapped⟩
        refine ⟨?_, ?_, apart⟩
        · intro other member
          rcases List.mem_cons.mp member with rfl | inRest
          · exact first
          · exact fun x low high => (outside other inRest x low high).2
        · intro other member
          have := (restProper other member).2.1
          have atStart := (outside other member (max lba other.1))
          simp only
          omega
      · rintro ⟨unmapped, apart, restApart⟩
        refine ⟨unmapped (lba, len) (by simp), ?_, restApart⟩
        intro other member x low high
        have away := apart other member
        simp only at away
        rw [sound.locate_set order new, if_neg (by omega)]
        exact unmapped other (by simp [member]) x low high

theorem map_extents_own_iff {seq offset : ℤ} (sound : Sound m) (proper : Proper ranges)
    (seqLower : 0 ≤ seq) (seqUpper : seq < 2 ^ 31) (offsetLower : 0 ≤ offset)
    (reach : offset + sectors ranges ≤ 2 ^ 22) :
    owned seq (mapExtents seq offset ranges m).2 = 0 ↔
      (∀ range ∈ ranges, ∀ x p, range.1 ≤ x → x < range.1 + range.2 →
        locate m x = some p → p.obj ≠ seq) ∧ Apart ranges := by
  induction ranges generalizing offset m with
  | nil => simp [mapExtents, Apart]
  | cons range rest ih =>
      obtain ⟨lba, len⟩ := range
      obtain ⟨order, new, nextLower, nextReach⟩ :=
        first_within proper seqLower seqUpper offsetLower reach
      obtain ⟨setSound, -, lost⟩ := sound.set order new
      have displaced := sound.displaced order new
      have restLost := (map_extents_spec seq (offset + len) setSound proper.tail seqLower seqUpper
        nextLower nextReach).2.2.1
      have firstNonneg : 0 ≤ owned seq (m.set lba (lba + len) ⟨seq, offset⟩).2 :=
        owned_nonneg seq fun d member => (displaced d member).2.1.le
      have restNonneg : 0 ≤ owned seq (mapExtents seq (offset + len) rest
          (m.set lba (lba + len) ⟨seq, offset⟩).1).2 :=
        owned_nonneg seq fun d member => (restLost d member).2.le
      have both : owned seq (mapExtents seq offset ((lba, len) :: rest) m).2 = 0 ↔
          owned seq (m.set lba (lba + len) ⟨seq, offset⟩).2 = 0 ∧
            owned seq (mapExtents seq (offset + len) rest
              (m.set lba (lba + len) ⟨seq, offset⟩).1).2 = 0 := by
        rw [mapExtents, owned_append]
        omega
      have first : owned seq (m.set lba (lba + len) ⟨seq, offset⟩).2 = 0 ↔
          ∀ x p, lba ≤ x → x < lba + len → locate m x = some p → p.obj ≠ seq := by
        rw [lost, owned_cut_in_eq_zero_iff order.le sound]
      rw [both, first, ih setSound proper.tail nextLower nextReach, Apart, Apart,
        List.pairwise_cons]
      constructor
      · rintro ⟨here, later, apart⟩
        refine ⟨?_, ?_, apart⟩
        · intro other member
          rcases List.mem_cons.mp member with rfl | inRest
          · exact here
          · intro x p low high found
            by_cases covered : lba ≤ x ∧ x < lba + len
            · exact here x p covered.1 covered.2 found
            · refine later other inRest x p low high ?_
              rw [sound.locate_set order new, if_neg covered]
              exact found
        · -- an address of both ranges would be mapped to the object by the first one
          intro other member
          have positive := (proper.tail other member).2.1
          by_contra meet
          simp only at meet
          refine later other member (max lba other.1)
            ((max lba other.1 - lba) +ᵥ (⟨seq, offset⟩ : ObjOffset)) (by omega) (by omega) ?_ rfl
          rw [sound.locate_set order new, if_pos (by omega)]
      · rintro ⟨others, away, apart⟩
        refine ⟨others (lba, len) (by simp), ?_, apart⟩
        intro other member x p low high found
        have apartHere := away other member
        simp only at apartHere
        rw [sound.locate_set order new, if_neg (by omega)] at found
        exact others other (by simp [member]) x p low high found

/-! ## Charging what was displaced -/

/-- The key `object_info[ptr.obj]` uses: the object number as a `seqnum_t`. -/
def infoKey (p : ObjOffset) : ℕ := (unsignedField 32 p.obj).toNat

theorem info_key_of_bounds {p : ObjOffset} (lower : 0 ≤ p.obj) (upper : p.obj < 2 ^ 31) :
    (infoKey p : ℤ) = p.obj := by
  rw [infoKey, unsigned_field_of_range 32 _ lower (by omega), Int.toNat_of_nonneg lower]

/-- One displaced extent is taken off the live count of its object and off the
total; objects of a clone base are not in the table and are skipped. The
assertion that the count stays non-negative stops the program. -/
def charge (acc : ObjTable × ℤ) (d : Extent ObjOffset) : Option (ObjTable × ℤ) :=
  match acc.1[infoKey d.ptr]? with
  | none => some acc
  | some oi =>
      if oi.live - d.len < 0 then none
      else some (acc.1.insert (infoKey d.ptr) { oi with live := oi.live - d.len }, acc.2 - d.len)

def chargeAll (acc : ObjTable × ℤ) (deleted : List (Extent ObjOffset)) :
    Option (ObjTable × ℤ) :=
  deleted.foldlM charge acc

variable {deleted : List (Extent ObjOffset)}

theorem charge_all_spec (info : ObjTable) (total : ℤ) (within : ∀ d ∈ deleted, Within d ∧ 0 ≤ d.len)
    (enough : ∀ (o : ℕ) (oi : ObjInfo), info[o]? = some oi → owned o deleted ≤ oi.live) :
    ∃ info' total', chargeAll (info, total) deleted = some (info', total') ∧
      ∀ o : ℕ, info'[o]? = (info[o]?).map fun oi =>
        { oi with live := oi.live - owned o deleted } := by
  induction deleted generalizing info total with
  | nil =>
      refine ⟨info, total, rfl, ?_⟩
      intro o
      cases info[o]? <;> simp
  | cons d rest ih =>
      obtain ⟨dWithin, dLength⟩ := within d (by simp)
      have key := info_key_of_bounds dWithin.objLower dWithin.objUpper
      have restNonneg : ∀ o : ℤ, 0 ≤ owned o rest :=
        fun o => owned_nonneg o fun run member => (within run (by simp [member])).2
      have restWithin : ∀ other ∈ rest, Within other ∧ 0 ≤ other.len :=
        fun other member => within other (by simp [member])
      simp only [owned_cons] at enough
      cases found : info[infoKey d.ptr]? with
      | none =>
          have stay : charge (info, total) d = some (info, total) := by
            simp only [charge, found]
          obtain ⟨info', total', run, table⟩ := ih info total restWithin (by
            intro o oi present
            have := enough o oi present
            split_ifs at this <;> omega)
          refine ⟨info', total', ?_, ?_⟩
          · simpa [chargeAll, List.foldlM_cons, stay] using run
          · intro o
            rw [table o]
            by_cases same : d.ptr.obj = o
            · have : o = infoKey d.ptr := by omega
              rw [this, found]
              rfl
            · simp [same]
      | some oi =>
          have room := enough _ oi found
          rw [if_pos key.symm] at room
          have restHere := restNonneg (infoKey d.ptr)
          have taken : charge (info, total) d = some
              (info.insert (infoKey d.ptr) { oi with live := oi.live - d.len }, total - d.len) := by
            simp only [charge, found]
            rw [if_neg (by omega)]
          obtain ⟨info', total', run, table⟩ := ih
            (info.insert (infoKey d.ptr) { oi with live := oi.live - d.len }) (total - d.len)
            restWithin (by
              intro o other present
              rw [table_insert] at present
              by_cases same : infoKey d.ptr = o
              · subst same
                rw [if_pos rfl] at present
                rw [← Option.some.inj present]
                simp only
                omega
              · rw [if_neg same] at present
                have bound := enough o other present
                rwa [if_neg (by omega), zero_add] at bound)
          refine ⟨info', total', ?_, ?_⟩
          · simpa [chargeAll, List.foldlM_cons, taken] using run
          · intro o
            rw [table o, table_insert]
            by_cases same : infoKey d.ptr = o
            · subst same
              simp only [found, if_true, Option.map_some, owned_cons, key]
              congr 2
              ring
            · have : ¬d.ptr.obj = o := by omega
              simp [same, this]

theorem charge_cases {acc next : ObjTable × ℤ} {d : Extent ObjOffset}
    (charged : charge acc d = some next) :
    (acc.1[infoKey d.ptr]? = none ∧ next = acc) ∨
      ∃ oi, acc.1[infoKey d.ptr]? = some oi ∧ 0 ≤ oi.live - d.len ∧
        next = (acc.1.insert (infoKey d.ptr) { oi with live := oi.live - d.len }, acc.2 - d.len) := by
  unfold charge at charged
  split at charged
  · next absent => exact .inl ⟨absent, (Option.some.inj charged).symm⟩
  · next oi found =>
      split at charged
      · cases charged
      · exact .inr ⟨oi, found, by omega, (Option.some.inj charged).symm⟩

theorem charge_all_table (info : ObjTable) (total : ℤ) (within : ∀ d ∈ deleted, Within d)
    {acc : ObjTable × ℤ} (charged : chargeAll (info, total) deleted = some acc) (o : ℕ) :
    acc.1[o]? = (info[o]?).map fun oi => { oi with live := oi.live - owned o deleted } := by
  induction deleted generalizing info total with
  | nil =>
      cases charged
      simp
  | cons d rest ih =>
      obtain ⟨next, first, later⟩ := Option.bind_eq_some_iff.mp charged
      have dWithin := within d (by simp)
      have key := info_key_of_bounds dWithin.objLower dWithin.objUpper
      rw [ih next.1 next.2 (fun other member => within other (by simp [member])) later]
      rcases charge_cases first with ⟨absent, rfl⟩ | ⟨oi, found, -, rfl⟩
      · by_cases same : infoKey d.ptr = o
        · subst same
          simp [absent]
        · have differ : ¬d.ptr.obj = o := by omega
          simp [differ]
      · rw [table_insert]
        by_cases same : infoKey d.ptr = o
        · subst same
          simp only [if_true, found, Option.map_some, owned_cons, key]
          congr 2
          ring
        · have differ : ¬d.ptr.obj = o := by omega
          simp [same, differ]

theorem charge_all_keys (info : ObjTable) (total : ℤ) {acc : ObjTable × ℤ}
    (charged : chargeAll (info, total) deleted = some acc) {o : ℕ} {oi : ObjInfo}
    (present : acc.1[o]? = some oi) : ∃ old : ObjInfo, info[o]? = some old := by
  induction deleted generalizing info total with
  | nil =>
      cases charged
      exact ⟨oi, present⟩
  | cons d rest ih =>
      obtain ⟨next, first, later⟩ := Option.bind_eq_some_iff.mp charged
      obtain ⟨old, found⟩ := ih next.1 next.2 later
      rcases charge_cases first with ⟨-, rfl⟩ | ⟨oi', here, -, rfl⟩
      · exact ⟨old, found⟩
      · rw [table_insert] at found
        split at found
        · next same => exact ⟨oi', same ▸ here⟩
        · exact ⟨old, found⟩

end LsvdRbd.Translate
