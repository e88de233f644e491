import LsvdRbd.Session.Coherence

/-!
# Writes larger than a chunk

`write_request::run` passes its data to the translation layer in chunks of
`wlog_chunk_bytes`, and other requests may pass theirs in between. As long as no two
requests that overlap are under way at the same time, reads see the requests as if each had
been made at once, in the order in which they were started.
-/

namespace LsvdRbd.Image

open Machine Session

set_option autoImplicit false

variable {σ : Type*} {env : Env} {max : ℕ}

/-! ## The loop -/

/-- A `write_request` that has room, in sectors; `offset` is `s_offset`. -/
structure Ongoing (σ : Type*) where
  lba : ℕ
  data : List σ
  offset : ℕ
deriving DecidableEq

namespace Ongoing

def underWay (w : Ongoing σ) : Bool := decide (w.offset < w.data.length)

def chunk (max : ℕ) (w : Ongoing σ) : List σ := (w.data.drop w.offset).take max

def passed (w : Ongoing σ) : List σ := w.data.take w.offset

def Apart (w w' : Ongoing σ) : Prop :=
  w.lba + w.data.length ≤ w'.lba ∨ w'.lba + w'.data.length ≤ w.lba

instance (w w' : Ongoing σ) : Decidable (w.Apart w') := inferInstanceAs (Decidable (_ ∨ _))

end Ongoing

structure Host (σ : Type*) where
  tx : Tx σ
  writes : List (Ongoing σ)

inductive HostEvent (σ : Type*)
  | start (lba : ℕ) (data : List σ)
  | chunk (i : ℕ) (addr : ℤ)
  | act (a : Action σ)

def quiet : Action σ → Bool
  | .writev _ _ _ => false
  | _ => true

namespace Host

def step (env : Env) (max : ℕ) (h : Host σ) : HostEvent σ → Option (Host σ)
  | .start lba data => some { h with writes := h.writes ++ [⟨lba, data, 0⟩] }
  | .chunk i addr =>
      match h.writes[i]? with
      | some w =>
          if w.underWay then
            (Session.step env h.tx (.writev (w.lba + w.offset) (w.chunk max) addr)).map fun tx =>
              ⟨tx, h.writes.set i { w with offset := w.offset + max }⟩
          else none
      | none => none
  | .act a =>
      if quiet a then (Session.step env h.tx a).map fun tx => { h with tx := tx } else none

/-- A request starts below `2^35` while no other that it overlaps is under way, and nothing
is trimmed or moved. -/
def Allowed (h : Host σ) : HostEvent σ → Prop
  | .start lba data => lba + data.length ≤ 2 ^ 35 ∧
      ∀ w ∈ h.writes, w.underWay = true → w.Apart ⟨lba, data, 0⟩
  | .chunk _ _ => True
  | .act a => PlainInRange h.tx a

instance (h : Host σ) (e : HostEvent σ) : Decidable (h.Allowed e) := by
  cases e <;> unfold Allowed <;> infer_instance

/-- What the volume holds: the requests in the order of their start, each as far as it has
passed its data. -/
def volume (v : ℤ → σ) (writes : List (Ongoing σ)) : ℤ → σ :=
  writes.foldl (fun v w => writeVolume v w.lba w.passed) v

end Host

/-! ## Writes to a volume -/

theorem write_volume_apart (v : ℤ → σ) {lba lba' : ℕ} {data data' : List σ}
    (apart : lba + data.length ≤ lba' ∨ lba' + data'.length ≤ lba) :
    writeVolume (writeVolume v lba data) lba' data' =
      writeVolume (writeVolume v lba' data') lba data := by
  funext x
  by_cases here : (lba : ℤ) ≤ x ∧ x < lba + data.length
  · have outside : ¬((lba' : ℤ) ≤ x ∧ x < lba' + data'.length) := by omega
    rw [write_volume_outside _ outside]
    apply Option.some.inj
    rw [← write_volume_inside _ here.1 here.2, ← write_volume_inside _ here.1 here.2]
  · rw [write_volume_outside _ here]
    by_cases there : (lba' : ℤ) ≤ x ∧ x < lba' + data'.length
    · apply Option.some.inj
      rw [← write_volume_inside _ there.1 there.2, ← write_volume_inside _ there.1 there.2]
    · rw [write_volume_outside _ there, write_volume_outside _ there, write_volume_outside _ here]

theorem write_volume_take (v : ℤ → σ) (lba k n : ℕ) (data : List σ) :
    writeVolume (writeVolume v lba (data.take k)) (lba + k) ((data.drop k).take n) =
      writeVolume v lba (data.take (k + n)) := by
  funext x
  simp only [writeVolume, List.getElem?_take, List.getElem?_drop]
  by_cases low : (lba : ℤ) ≤ x
  · by_cases second : ((lba + k : ℕ) : ℤ) ≤ x
    · have index : k + (x - ((lba + k : ℕ) : ℤ)).toNat = (x - lba).toNat := by omega
      have behind : ¬(x - lba).toNat < k := by omega
      have bound : (x - ((lba + k : ℕ) : ℤ)).toNat < n ↔ (x - lba).toNat < k + n := by omega
      simp only [if_pos low, if_pos second, index, if_neg behind, bound, Option.getD_none]
    · have first : (x - lba).toNat < k := by omega
      have whole : (x - lba).toNat < k + n := by omega
      rw [if_neg second, if_pos low, if_pos first, if_pos low, if_pos whole]
  · have second : ¬((lba + k : ℕ) : ℤ) ≤ x := by omega
    rw [if_neg second, if_neg low, if_neg low]

/-- A write that is made after others it does not overlap might have been made before them. -/
theorem volume_write (v : ℤ → σ) {lba : ℕ} {data : List σ} {writes : List (Ongoing σ)}
    (apart : ∀ w ∈ writes, lba + data.length ≤ w.lba ∨ w.lba + w.passed.length ≤ lba) :
    Host.volume (writeVolume v lba data) writes = writeVolume (Host.volume v writes) lba data := by
  induction writes generalizing v with
  | nil => rfl
  | cons w writes ih =>
      have first := apart w (List.mem_cons_self)
      have rest := ih (writeVolume v w.lba w.passed) fun other member =>
        apart other (List.mem_cons_of_mem _ member)
      rw [Host.volume, List.foldl_cons, write_volume_apart v first]
      exact rest

namespace Host

variable {zero : σ} {v : ℤ → σ} {h h' : Host σ} {e : HostEvent σ}

/-- The next chunk of a request, while those started after it keep off its range. -/
theorem volume_chunk {front back : List (Ongoing σ)} {w : Ongoing σ} (max : ℕ)
    (apart : ∀ w' ∈ back, w.Apart w') (inside : w.offset < w.data.length) :
    writeVolume (volume v (front ++ w :: back)) (w.lba + w.offset) (w.chunk max) =
      volume v (front ++ { w with offset := w.offset + max } :: back) := by
  have keepOff : ∀ w' ∈ back,
      w.lba + w.offset + (w.chunk max).length ≤ w'.lba ∨
        w'.lba + w'.passed.length ≤ w.lba + w.offset := by
    intro w' member
    have short : (w.chunk max).length ≤ w.data.length - w.offset := by
      simp [Ongoing.chunk]
    have passed : w'.passed.length ≤ w'.data.length := by simp [Ongoing.passed]
    rcases apart w' member with before | after
    · left
      omega
    · right
      omega
  have split : ∀ w : Ongoing σ, volume v (front ++ w :: back) =
      volume (writeVolume (volume v front) w.lba w.passed) back := by
    intro w
    rw [volume, List.foldl_append, List.foldl_cons]
    rfl
  rw [split, split, ← volume_write _ keepOff]
  apply congrArg fun v => volume v back
  exact write_volume_take _ _ _ _ _

structure Ok (env : Env) (zero : σ) (v : ℤ → σ) (h : Host σ) : Prop where
  good : h.tx.Good env zero (volume v h.writes)
  noGc : h.tx.NoGc
  apart : h.writes.Pairwise fun w w' => w.underWay = true → w.Apart w'
  inRange : ∀ w ∈ h.writes, w.lba + w.data.length ≤ 2 ^ 35

theorem Ok.start (ok : h.Ok env zero v) {lba : ℕ} {data : List σ}
    (allowed : h.Allowed (.start lba data)) :
    Ok env zero v { h with writes := h.writes ++ [⟨lba, data, 0⟩] } := by
  refine ⟨?_, ok.noGc, ?_, ?_⟩
  · have nothing : volume v (h.writes ++ [⟨lba, data, 0⟩]) = volume v h.writes := by
      funext x
      simp [volume, Ongoing.passed, writeVolume]
    rw [nothing]
    exact ok.good
  · refine List.pairwise_append.mpr ⟨ok.apart, List.pairwise_singleton _ _, ?_⟩
    intro w member w' new
    rw [List.mem_singleton.mp new]
    exact allowed.2 w member
  · intro w member
    rcases List.mem_append.mp member with old | new
    · exact ok.inRange w old
    · rw [List.mem_singleton.mp new]
      exact allowed.1

theorem Ok.session (ok : h.Ok env zero v) (envOk : env.Ok) {a : Action σ} {tx : Tx σ}
    (stepped : Session.step env h.tx a = some tx) (allowed : PlainInRange h.tx a) :
    tx.Good env zero (record (volume v h.writes) a) ∧ tx.NoGc := by
  obtain ⟨inRange, plain⟩ := allowed
  refine ⟨ok.good.step envOk stepped inRange ?_ ?_ ?_, (Tx.step_cases stepped).noGc plain ok.noGc⟩
  · rintro base limit rfl
    exact plain
  · intro isWork entries data rest head
    have isGc := ok.noGc.queued _ (by rw [head]; exact List.mem_cons_self)
    cases isGc
  · intro o deleted
    cases a with
    | gcReap o => exact plain.elim
    | gcDelete => exact plain.elim
    | _ => cases deleted

theorem Ok.chunk (ok : h.Ok env zero v) (envOk : env.Ok) {i : ℕ} {addr : ℤ}
    (stepped : h.step env max (.chunk i addr) = some h') : h'.Ok env zero v := by
  simp only [step] at stepped
  split at stepped
  · next w found =>
      split at stepped
      · next underWay =>
          obtain ⟨tx, written, rfl⟩ := Option.map_eq_some_iff.mp stepped
          have inside : w.offset < w.data.length := of_decide_eq_true underWay
          obtain ⟨position, isW⟩ := List.getElem?_eq_some_iff.mp found
          have split : h.writes = h.writes.take i ++ w :: h.writes.drop (i + 1) := by
            rw [← isW, List.getElem_cons_drop, List.take_append_drop]
          have range := ok.inRange w (List.mem_of_getElem? found)
          have short : (w.chunk max).length ≤ w.data.length - w.offset := by
            simp [Ongoing.chunk]
          obtain ⟨good, noGc⟩ := ok.session envOk written ⟨by
            show w.lba + w.offset + (w.chunk max).length ≤ 2 ^ 35
            omega, trivial⟩
          have pairs := ok.apart
          rw [split] at pairs
          obtain ⟨front, rest, across⟩ := List.pairwise_append.mp pairs
          obtain ⟨after, back⟩ := List.pairwise_cons.mp rest
          refine ⟨?_, noGc, ?_, ?_⟩
          · have shown : record (volume v h.writes) (.writev (w.lba + w.offset) (w.chunk max) addr) =
                volume v (h.writes.set i { w with offset := w.offset + max }) := by
              rw [List.set_eq_take_append_cons_drop, if_pos position,
                ← volume_chunk max (fun w' member => after w' member underWay) inside, ← split]
              rfl
            rw [← shown]
            exact good
          · rw [List.set_eq_take_append_cons_drop, if_pos position]
            refine List.pairwise_append.mpr ⟨front, List.pairwise_cons.mpr ⟨?_, back⟩, ?_⟩
            · exact fun w' member _ => after w' member underWay
            · intro w' member w'' later
              rcases List.mem_cons.mp later with rfl | inBack
              · exact across w' member w List.mem_cons_self
              · exact across w' member w'' (List.mem_cons_of_mem _ inBack)
          · intro w' member
            rcases List.mem_or_eq_of_mem_set member with old | rfl
            · exact ok.inRange w' old
            · exact range
      · cases stepped
  · cases stepped

theorem Ok.step (ok : h.Ok env zero v) (envOk : env.Ok) (allowed : h.Allowed e)
    (stepped : h.step env max e = some h') : h'.Ok env zero v := by
  cases e with
  | start lba data =>
      cases stepped
      exact ok.start allowed
  | chunk i addr => exact ok.chunk envOk stepped
  | act a =>
      simp only [Host.step, Option.ite_none_right_eq_some] at stepped
      obtain ⟨noWrite, acted⟩ := stepped
      obtain ⟨tx, taken, rfl⟩ := Option.map_eq_some_iff.mp acted
      obtain ⟨good, noGc⟩ := ok.session envOk taken allowed
      refine ⟨?_, noGc, ok.apart, ok.inRange⟩
      cases a with
      | writev lba data addr => cases noWrite
      | _ => exact good

end Host

-- Two requests to the same range at the same time leave a mixture of both.
example : (run (Host.step smallEnv 1) ⟨Tx.create 1000000, []⟩
    [.start 8 [1, 1], .start 8 [2, 2], .chunk 0 0, .chunk 1 0, .chunk 1 0, .chunk 0 0]).map
      (fun h => h.tx.read smallEnv 0 8 2) = some (some [some 2, some 1]) := by
  decide +kernel

end LsvdRbd.Image
