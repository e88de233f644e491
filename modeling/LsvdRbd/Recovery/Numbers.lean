import LsvdRbd.ExtentMap.Pointers
import LsvdRbd.Recovery.Replay

/-!
# The numbers that the maps use

The table and the map refer to objects by number. The worker adds the number of the
object it makes and no other, a checkpoint is read back with the numbers that it
was written with, and a replay adds the numbers of the objects it applies. None of
this depends on the addresses, which may overflow their fields.
-/

namespace LsvdRbd.Recovery

open Records RunList ExtentMap Format Translate

set_option autoImplicit false

variable {σ : Type*} {Q R : ℕ → Prop}

def Numbered (Q : ℕ → Prop) (p : ObjOffset) : Prop := ∃ n : ℕ, n < 2 ^ 31 ∧ p.obj = n ∧ Q n

theorem Numbered.key {p : ObjOffset} (numbered : Numbered Q p) : Q (infoKey p) := by
  obtain ⟨n, bound, obj, holds⟩ := numbered
  have key : (infoKey p : ℤ) = p.obj := info_key_of_bounds (by omega) (by omega)
  obtain rfl : n = infoKey p := by omega
  exact holds

theorem lba2obj_keeps (Q : ℕ → Prop) : Layout.lba2obj.Keeps (Numbered Q) where
  ptr := by
    rintro p ⟨n, bound, obj, holds⟩
    refine ⟨n, bound, ?_, holds⟩
    change signedField 36 p.obj = n
    rw [obj]
    exact signed_field_of_range 35 n (by omega) (by omega)
  add := by
    rintro p offset ⟨n, bound, obj, holds⟩
    exact ⟨n, bound, obj, holds⟩

structure Names (Q : ℕ → Prop) (m : Objmap) (info : ObjTable) : Prop where
  mapped : m.Pointing (Numbered Q)
  listed : ∀ (o : ℕ) (oi : ObjInfo), info[o]? = some oi → Q o

variable {info : ObjTable}

theorem Names.imp {m : Objmap} (names : Names Q m info) (weaker : ∀ n, Q n → R n) :
    Names R m info := by
  refine ⟨?_, fun o oi present => weaker o (names.listed o oi present)⟩
  intro list inMap e inList
  obtain ⟨n, bound, obj, holds⟩ := names.mapped list inMap e inList
  exact ⟨n, bound, obj, weaker n holds⟩

theorem names_empty (Q : ℕ → Prop) : Names Q Extmap.empty ∅ where
  mapped := by
    intro list inMap
    cases inMap
  listed := by simp

/-! ## One object -/

theorem map_extents_pointing {seq : ℕ} (bound : seq < 2 ^ 31) (holds : Q seq) (offset : ℤ)
    (ranges : Ranges) {m : Objmap} (pointing : m.Pointing (Numbered Q)) :
    (mapExtents seq offset ranges m).1.Pointing (Numbered Q) ∧
      ∀ d ∈ (mapExtents seq offset ranges m).2, Numbered Q d.ptr := by
  induction ranges generalizing offset m with
  | nil => exact ⟨pointing, by simp [mapExtents]⟩
  | cons range rest ih =>
      obtain ⟨lba, len⟩ := range
      have new : Numbered Q (⟨seq, offset⟩ : ObjOffset) := ⟨seq, bound, rfl, holds⟩
      obtain ⟨set, displaced⟩ :=
        pointing.set (lba2obj_keeps Q) lba (lba + len) new
      obtain ⟨final, later⟩ := ih (offset + len) set
      refine ⟨final, ?_⟩
      intro d member
      rcases List.mem_append.mp member with first | next
      · exact displaced d first
      · exact later d next

theorem charge_all_listed {info info' : ObjTable} {total total' : ℤ}
    {deleted : List (Extent ObjOffset)}
    (charged : chargeAll (info, total) deleted = some (info', total'))
    (listed : ∀ (o : ℕ) (oi : ObjInfo), info[o]? = some oi → Q o) :
    ∀ (o : ℕ) (oi : ObjInfo), info'[o]? = some oi → Q o := by
  intro o oi present
  obtain ⟨old, found⟩ := charge_all_keys info total charged present
  exact listed o old found

theorem insert_listed {seq : ℕ} (holds : Q seq) (entry : ObjInfo)
    (listed : ∀ (o : ℕ) (oi : ObjInfo), info[o]? = some oi → Q o) :
    ∀ (o : ℕ) (oi : ObjInfo), (info.insert seq entry)[o]? = some oi → Q o := by
  intro o oi present
  rw [table_insert] at present
  split at present
  · next same => exact same ▸ holds
  · exact listed o oi present

/-! ## What the worker does -/

section Worker

variable {crc32 : Bytes → ℕ} {uuid seq : ℕ} {s s' : Maps} {obj : Obj σ}

theorem Names.process_batch (names : Names Q s.objmap s.info) (bound : seq < 2 ^ 31)
    (holds : Q seq) {entries : List MapEntry} {data : List σ}
    (done : processBatch crc32 uuid seq entries data s = some (s', obj)) :
    Names Q s'.objmap s'.info := by
  unfold processBatch at done
  dsimp only at done
  split at done
  · obtain ⟨⟨info, total⟩, charged, result⟩ := Option.map_eq_some_iff.mp done
    cases result
    exact ⟨(map_extents_pointing bound holds _ _ names.mapped).1,
      charge_all_listed charged (insert_listed holds _ names.listed)⟩
  · cases done

theorem Names.write_gc (names : Names Q s.objmap s.info) (bound : seq < 2 ^ 31) (holds : Q seq)
    {entries : List MapEntry} {input : List σ}
    (done : writeGc crc32 uuid seq entries input s = some (s', obj)) :
    Names Q s'.objmap s'.info := by
  unfold writeGc updateGc at done
  dsimp only at done
  split at done
  · obtain ⟨⟨info, total⟩, charged, result⟩ := Option.map_eq_some_iff.mp done
    cases result
    exact ⟨(map_extents_pointing bound holds _ _ names.mapped).1,
      insert_listed holds _ (charge_all_listed charged names.listed)⟩
  · cases done

theorem Names.trim (names : Names Q s.objmap s.info) {base limit : ℤ}
    (done : s.trim base limit = some s') : Names Q s'.objmap s'.info := by
  obtain ⟨⟨info, total⟩, charged, rfl⟩ := Option.map_eq_some_iff.mp done
  exact ⟨(names.mapped.unset (lba2obj_keeps Q) base limit).1,
    charge_all_listed charged names.listed⟩

end Worker

/-! ## What recovery does -/

theorem load_entries_pointing {entries : List MapEntry}
    (numbered : ∀ e ∈ entries, Numbered Q ⟨e.obj, e.offset⟩) {m : Objmap}
    (pointing : m.Pointing (Numbered Q)) : (entries.foldl loadEntry m).Pointing (Numbered Q) := by
  induction entries generalizing m with
  | nil => exact pointing
  | cons e rest ih =>
      apply ih fun other member => numbered other (by simp [member])
      exact (pointing.set (lba2obj_keeps Q) e.lba (e.lba + e.len)
        (numbered e (by simp))).1

theorem load_objects_listed {objects : List CkptObj} (holds : ∀ o ∈ objects, Q o.seq)
    (listed : ∀ (o : ℕ) (oi : ObjInfo), info[o]? = some oi → Q o) :
    ∀ (o : ℕ) (oi : ObjInfo), (objects.foldl loadObject info)[o]? = some oi → Q o := by
  induction objects generalizing info with
  | nil => exact listed
  | cons first rest ih =>
      apply ih fun other member => holds other (by simp [member])
      exact insert_listed (holds first (by simp)) _ listed

theorem Names.load {uuid seq : ℕ} {s : Maps} {obj : Obj σ} {image : Image} {ckpts : List ℕ}
    (names : Names Q s.objmap s.info) (small : ∀ n, Q n → n < 2 ^ 32) (uuidBound : uuid < 2 ^ 128)
    (seqBound : seq < 2 ^ 32) (written : checkpointObject uuid seq s = some obj)
    (loaded : readFromCheckpoint (some obj) ⟨Extmap.empty, ∅, ckpts⟩ = .ok image) :
    Names Q image.objmap image.info ∧ image.ckpts = ckpts := by
  rw [read_from_checkpoint_object uuidBound seqBound written ckpts] at loaded
  cases loaded
  refine ⟨⟨load_entries_pointing ?_ (names_empty Q).mapped,
    load_objects_listed ?_ (names_empty Q).listed⟩, rfl⟩
  · intro entry member
    obtain ⟨e, inMap, rfl⟩ := List.mem_map.mp member
    obtain ⟨n, bound, number, holds⟩ := names.mapped.extents e inMap
    refine ⟨n, bound, ?_, holds⟩
    change signedField 32 e.ptr.obj = n
    rw [number]
    exact signed_field_of_range 31 n (by omega) (by omega)
  · intro record member
    obtain ⟨⟨o, oi⟩, inTable, rfl⟩ := List.mem_map.mp member
    have holds := names.listed o oi (Std.ExtTreeMap.mem_toList_iff_getElem?_eq_some.mp inTable)
    change Q (o % 2 ^ 32)
    rwa [Nat.mod_eq_of_lt (small o holds)]

theorem charge_replayed_listed {deleted : List (Extent ObjOffset)}
    (numbered : ∀ d ∈ deleted, Numbered Q d.ptr) {info info' : ObjTable}
    (charged : deleted.foldlM chargeReplayed info = .ok info')
    (listed : ∀ (o : ℕ) (oi : ObjInfo), info[o]? = some oi → Q o) :
    ∀ (o : ℕ) (oi : ObjInfo), info'[o]? = some oi → Q o := by
  induction deleted generalizing info with
  | nil =>
      cases charged
      exact listed
  | cons d rest ih =>
      rw [List.foldlM_cons] at charged
      cases first : chargeReplayed info d with
      | error fault =>
          rw [first] at charged
          cases charged
      | ok next =>
          rw [first] at charged
          apply ih (fun other member => numbered other (by simp [member])) charged
          unfold chargeReplayed at first
          dsimp only at first
          split at first
          · cases first
          · cases first
            exact insert_listed (numbered d (by simp)).key _ listed

theorem Names.apply_log {seq : ℕ} {obj : Option (Obj σ)} {s s' : Image}
    (names : Names Q s.objmap s.info) (bound : seq < 2 ^ 31) (holds : Q seq)
    (applied : applyLog obj seq s = .ok (some s')) :
    Names Q s'.objmap s'.info ∧ s'.ckpts = s.ckpts := by
  rcases apply_log_cases applied with ⟨-, none⟩ | ⟨parsed, info, -, charged, same⟩
  · cases none
  · cases same
    obtain ⟨pointing, displaced⟩ :=
      map_extents_pointing bound holds parsed.hdr.hdrSectors (dataRanges parsed.dataMap) names.mapped
    exact ⟨⟨pointing, charge_replayed_listed displaced charged
      (insert_listed holds _ names.listed)⟩, rfl⟩

end LsvdRbd.Recovery
