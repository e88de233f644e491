import LsvdRbd.Recovery.Intact
import LsvdRbd.Session.Contiguous
import LsvdRbd.Session.Timeline

/-!
# The maps at each number

The object under a number takes the maps from one state to the next. What a crash
leaves is the newest checkpoint and some of the objects after it, so what recovery
rebuilds is the map at one of the numbers since then. Each of these maps has one of the
volumes of the session, from the number on at which the last flush returned.
-/

namespace LsvdRbd.Session

open Records RunList ExtentMap Format Translate Recovery

set_option autoImplicit false

variable {σ : Type*} {env : Env}

def Holds (zero : σ) (objects : ℕ → Option (Obj σ)) (f : ℤ → Option ObjOffset) (x : ℤ)
    (value : σ) : Prop :=
  match f x with
  | some p => ∃ obj, objects p.obj.toNat = some obj ∧ dataSector obj p.offset = some value
  | none => value = zero

theorem Holds.of_objects {zero value : σ} {objects objects' : ℕ → Option (Obj σ)}
    {f : ℤ → Option ObjOffset} {x : ℤ} (holds : Holds zero objects f x value)
    (same : ∀ p, f x = some p → objects' p.obj.toNat = objects p.obj.toNat) :
    Holds zero objects' f x value := by
  unfold Holds at holds ⊢
  split
  · next p found =>
      rw [found] at holds
      rw [same p found]
      exact holds
  · next unmapped =>
      rw [unmapped] at holds
      exact holds

def Layer (uuid n : ℕ) (obj : Obj σ) (f g : ℤ → Option ObjOffset) : Prop :=
  ∃ hdrSectors ranges, WellMade uuid n obj hdrSectors ranges ∧
    ∀ x, g x = overlay n hdrSectors ranges f x

theorem Layer.laysOver {uuid n : ℕ} {obj : Obj σ} {f g : ℤ → Option ObjOffset}
    (layer : Layer uuid n obj f g) : LaysOver uuid (some obj) n f g := by
  obtain ⟨hdrSectors, ranges, made, laid⟩ := layer
  exact ⟨obj, hdrSectors, ranges, rfl, made.object, made.proper, made.reach, laid⟩

/-- For each number the map that its object found and the volume that this map has; the
volume of the present maps; and the number that came next when the last flush
returned. -/
structure Trail where
  mark : ℕ
  view : ℕ → ℤ → Option ObjOffset
  time : ℕ → ℕ
  floor : ℕ

def Trail.advance (t : Trail) (next mark : ℕ) (g : ℤ → Option ObjOffset) : Trail :=
  ⟨mark, Function.update t.view next g, Function.update t.time next mark, t.floor⟩

namespace Tx

variable {s s' : Tx σ} {zero : σ} {uuid : ℕ} {since since' : List (ℤ → σ)} {t : Trail}

def base (s : Tx σ) : ℕ := s.super.getLast?.getD 0

def Imaged (uuid : ℕ) (view : ℕ → ℤ → Option ObjOffset) (s : Tx σ) (c : ℕ) (obj : Obj σ) : Prop :=
  c < s.curSeq ∧ ∃ maps : Maps, checkpointObject uuid c maps = some obj ∧ maps.Intact c ∧
    ∀ x, locate maps.objmap x = view (c + 1) x

/-- What takes the map of a number to that of the next one. -/
def Link (uuid : ℕ) (view : ℕ → ℤ → Option ObjOffset) (s : Tx σ) (n : ℕ) : Prop :=
  (∃ k, s.ckpting = some k ∧ k.seq = n ∧ view (n + 1) = view n) ∨
    s.DataNumber n ∧ ∃ obj, s.object n = some obj ∧ Layer uuid n obj (view n) (view (n + 1))

structure Linked (uuid : ℕ) (zero : σ) (since : List (ℤ → σ)) (t : Trail) (s : Tx σ) : Prop where
  started : s.base < s.curSeq
  now : ∀ x, t.view s.curSeq x = locate s.maps.objmap x
  mark : t.time s.curSeq = t.mark
  floor : t.floor ≤ s.curSeq
  flying : ∀ put ∈ s.inflight, t.floor ≤ put.seq ∧ s.base < put.seq ∧ s.store[put.seq]? = none
  writing : ∀ k, s.ckpting = some k → s.inflight = [] ∧ t.floor ≤ k.seq ∧
    (k.stage = .object → s.store[k.seq]? = none)
  links : ∀ n, s.base < n → n < s.curSeq → s.Link uuid t.view n
  data : ∀ n, s.base < n → n ≤ s.curSeq → ∀ x p, t.view n x = some p →
    0 ≤ p.obj ∧ p.obj.toNat < n ∧ s.DataNumber p.obj.toNat
  contents : ∀ n, s.base < n → t.floor ≤ n → n ≤ s.curSeq → ∃ v, since[t.time n]? = some v ∧
    ∀ x, Holds zero s.object (t.view n) x (v x)
  origin : s.super = [] → ∀ x, t.view 1 x = none
  saved : s.Backed (Imaged uuid t.view)

theorem Linked.quiet (linked : s.Linked uuid zero since t) (curSeq : s'.curSeq = s.curSeq)
    (objmap : s'.maps.objmap = s.maps.objmap) (base : s.base ≤ s'.base)
    (started : s'.base < s'.curSeq) (origin : s'.super = [] → s.super = [])
    (flying : ∀ put ∈ s'.inflight, put ∈ s.inflight ∧ s'.base < put.seq ∧
      s'.store[put.seq]? = none)
    (writing : ∀ k, s'.ckpting = some k → s'.inflight = [] ∧ t.floor ≤ k.seq ∧
      (k.stage = .object → s'.store[k.seq]? = none))
    (begun : ∀ k, s.ckpting = some k → s'.base < k.seq → ∃ k', s'.ckpting = some k' ∧ k'.seq = k.seq)
    (objects : ∀ n, s.DataNumber n → s'.object n = s.object n)
    (numbers : ∀ n, s.DataNumber n → s'.DataNumber n)
    (grows : ∀ (i : ℕ) (v : ℤ → σ), since[i]? = some v → since'[i]? = some v)
    (saved : s'.Backed (Imaged uuid t.view)) : s'.Linked uuid zero since' t where
  started := started
  now := by
    rw [curSeq, objmap]
    exact linked.now
  mark := by rw [curSeq]; exact linked.mark
  floor := by rw [curSeq]; exact linked.floor
  flying := by
    intro put member
    obtain ⟨before, after, absent⟩ := flying put member
    exact ⟨(linked.flying put before).1, after, absent⟩
  writing := writing
  links := by
    intro n after before
    rcases linked.links n (by omega) (by omega) with ⟨k, busy, seq, same⟩ | ⟨isData, obj, object, layer⟩
    · obtain ⟨k', busy', seq'⟩ := begun k busy (by omega)
      exact .inl ⟨k', busy', by omega, same⟩
    · exact .inr ⟨numbers n isData, obj, by rw [objects n isData]; exact object, layer⟩
  data := by
    intro n after before x p found
    obtain ⟨lower, earlier, isData⟩ := linked.data n (by omega) (by omega) x p found
    exact ⟨lower, earlier, numbers _ isData⟩
  contents := by
    intro n after high before
    obtain ⟨v, found, holds⟩ := linked.contents n (by omega) high (by omega)
    refine ⟨v, grows _ v found, ?_⟩
    intro x
    refine (holds x).of_objects ?_
    intro p mapped
    exact objects _ (linked.data n (by omega) (by omega) x p mapped).2.2
  origin := fun none => linked.origin (origin none)
  saved := saved

theorem Linked.advance (linked : s.Linked uuid zero since t) {mark : ℕ}
    {g : ℤ → Option ObjOffset} (curSeq : s'.curSeq = s.curSeq + 1) (super : s'.super = s.super)
    (free : s.ckpting = none) (map : ∀ x, g x = locate s'.maps.objmap x)
    (store : s'.store = s.store) (early : s.store[s.curSeq]? = none)
    (flying : ∀ put ∈ s'.inflight, put ∈ s.inflight ∨ put.seq = s.curSeq)
    (writing : ∀ k, s'.ckpting = some k → s'.inflight = [] ∧ k.seq = s.curSeq)
    (objects : ∀ n, s.DataNumber n → s'.object n = s.object n)
    (numbers : ∀ n, s.DataNumber n → s'.DataNumber n)
    (link : (∃ k, s'.ckpting = some k ∧ k.seq = s.curSeq ∧ g = t.view s.curSeq) ∨
      s'.DataNumber s.curSeq ∧ ∃ obj, s'.object s.curSeq = some obj ∧
        Layer uuid s.curSeq obj (t.view s.curSeq) g)
    (data : ∀ x p, g x = some p → t.view s.curSeq x = some p ∨
      p.obj = s.curSeq ∧ s'.DataNumber s.curSeq)
    (content : ∃ v, since[mark]? = some v ∧ ∀ x, Holds zero s'.object g x (v x))
    (saved : s'.Backed (Imaged uuid (t.advance (s.curSeq + 1) mark g).view)) :
    s'.Linked uuid zero since (t.advance (s.curSeq + 1) mark g) := by
  have base : s'.base = s.base := by rw [Tx.base, Tx.base, super]
  have started := linked.started
  have floor := linked.floor
  have views : ∀ n ≤ s.curSeq, (t.advance (s.curSeq + 1) mark g).view n = t.view n :=
    fun n before => Function.update_of_ne (by omega) _ _
  have newView : (t.advance (s.curSeq + 1) mark g).view (s.curSeq + 1) = g :=
    Function.update_self _ _ _
  have times : ∀ n ≤ s.curSeq, (t.advance (s.curSeq + 1) mark g).time n = t.time n :=
    fun n before => Function.update_of_ne (by omega) _ _
  have newTime : (t.advance (s.curSeq + 1) mark g).time (s.curSeq + 1) = mark :=
    Function.update_self _ _ _
  refine ⟨by omega, ?_, ?_, ?_, ?_, ?_, ?_, ?_, ?_, ?_, saved⟩
  · rw [curSeq, newView]
    exact map
  · rw [curSeq, newTime]
    rfl
  · exact floor.trans (by omega)
  · intro put member
    rw [base, store]
    rcases flying put member with old | new
    · exact linked.flying put old
    · rw [new]
      exact ⟨floor, started, early⟩
  · intro k busy
    obtain ⟨empty, seq⟩ := writing k busy
    rw [store, seq]
    exact ⟨empty, floor, fun _ => early⟩
  · intro n after before
    rw [base] at after
    unfold Link
    by_cases new : n = s.curSeq
    · subst new
      rw [newView, views _ (le_refl _)]
      exact link
    · rw [views n (by omega), views (n + 1) (by omega)]
      rcases linked.links n after (by omega) with ⟨k, busy, -⟩ | ⟨isData, obj, object, layer⟩
      · rw [free] at busy
        cases busy
      · exact .inr ⟨numbers n isData, obj, by rw [objects n isData]; exact object, layer⟩
  · intro n after before x p found
    rw [base] at after
    by_cases new : n = s.curSeq + 1
    · rw [new, newView] at found
      rcases data x p found with old | ⟨obj, isData⟩
      · obtain ⟨lower, earlier, isData⟩ := linked.data s.curSeq started (le_refl _) x p old
        exact ⟨lower, by omega, numbers _ isData⟩
      · rw [obj, Int.toNat_natCast]
        exact ⟨by omega, by omega, isData⟩
    · rw [views n (by omega)] at found
      obtain ⟨lower, earlier, isData⟩ := linked.data n after (by omega) x p found
      exact ⟨lower, earlier, numbers _ isData⟩
  · intro n after high before
    rw [base] at after
    by_cases new : n = s.curSeq + 1
    · rw [new, newView, newTime]
      exact content
    · rw [views n (by omega), times n (by omega)]
      obtain ⟨v, found, holds⟩ := linked.contents n after high (by omega)
      refine ⟨v, found, ?_⟩
      intro x
      refine (holds x).of_objects ?_
      intro p mapped
      exact objects _ (linked.data n after (by omega) x p mapped).2.2
  · intro none
    rw [views 1 (by omega)]
    exact linked.origin (super ▸ none)

end Tx

end LsvdRbd.Session
