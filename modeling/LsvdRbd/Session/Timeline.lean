import LsvdRbd.Session.Coherence

/-!
# What a session owes after a crash

Each host write makes a new volume. A flush that returns makes the volume at its call
durable: after a crash the image may come back with that volume or a later one, but
with no earlier one. The maps, and the maps with each of the waiting batches added,
hold one of the volumes since then.
-/

namespace LsvdRbd.Session

open Records RunList ExtentMap Format Translate Recovery

set_option autoImplicit false

variable {σ : Type*} {env : Env}

/-- The volumes since the last flush that returned, oldest first, with the present one
apart; and for each flush that waits how many volumes are older than the one at its
call. -/
structure Pledge (σ : Type*) where
  past : List (ℤ → σ)
  now : ℤ → σ
  asked : List ℕ

namespace Pledge

/-- The volumes that an image may come back with. -/
def since (p : Pledge σ) : List (ℤ → σ) := p.past ++ [p.now]

def fulfil (p : Pledge σ) : Pledge σ :=
  match p.asked with
  | [] => p
  | first :: rest => ⟨p.past.drop first, p.now, rest.map (· - first)⟩

def act (p : Pledge σ) (s s' : Tx σ) : Action σ → Pledge σ
  | .writev lba data _ => ⟨p.past ++ [p.now], writeVolume p.now lba data, p.asked⟩
  | .flush _ _ => { p with asked := p.asked ++ [p.past.length] }
  | .work => if s'.returned = s.returned then p else p.fulfil
  | _ => p

theorem fulfil_now (p : Pledge σ) : p.fulfil.now = p.now := by
  unfold fulfil
  split <;> rfl

theorem act_now (p : Pledge σ) (s s' : Tx σ) (a : Action σ) :
    (p.act s s' a).now = record p.now a := by
  cases a with
  | work =>
      change (if s'.returned = s.returned then p else p.fulfil).now = p.now
      split
      · rfl
      · exact p.fulfil_now
  | _ => rfl

end Pledge

/-! ## The waiting batches -/

def writes (requests : List (Request σ)) : ℕ := (requests.map fun r => r.entries.length).sum

@[simp] theorem writes_nil : writes ([] : List (Request σ)) = 0 := rfl

@[simp] theorem writes_cons (r : Request σ) (rest : List (Request σ)) :
    writes (r :: rest) = r.entries.length + writes rest := by
  simp [writes]

@[simp] theorem writes_append (older newer : List (Request σ)) :
    writes (older ++ newer) = writes older + writes newer := by
  simp [writes]

/-- For each flush in the queue, how many writes come before it, if `mark` come before
the queue. -/
def points : ℕ → List (Work σ) → List ℕ
  | _, [] => []
  | mark, .put r :: rest => points (mark + r.entries.length) rest
  | mark, .flush _ :: rest => mark :: points mark rest
  | mark, .gc _ _ :: rest => points mark rest
  | mark, .ckpt _ :: rest => points mark rest

theorem points_append (mark : ℕ) (queue : List (Work σ)) (item : Work σ) :
    points mark (queue ++ [item]) =
      points mark queue ++ points (mark + writes (queue.filterMap Work.request)) [item] := by
  induction queue generalizing mark with
  | nil => rfl
  | cons first rest ih =>
      cases first with
      | put r =>
          have onward := ih (mark + r.entries.length)
          simp only [List.cons_append, points, onward, List.filterMap_cons, Work.request,
            writes_cons, add_assoc]
      | flush tag => simp only [List.cons_append, points, ih, List.filterMap_cons, Work.request]
      | gc entries data => simp only [List.cons_append, points, ih, List.filterMap_cons, Work.request]
      | ckpt byGc => simp only [List.cons_append, points, ih, List.filterMap_cons, Work.request]

theorem points_sub (mark more : ℕ) (queue : List (Work σ)) :
    (points (mark + more) queue).map (· - mark) = points more queue := by
  induction queue generalizing more with
  | nil => rfl
  | cons first rest ih =>
      cases first with
      | put r =>
          have onward := ih (more + r.entries.length)
          simp only [points, add_assoc, onward]
      | flush tag => simp only [points, List.map_cons, ih, Nat.add_sub_cancel_left]
      | gc entries data => exact ih more
      | ckpt byGc => exact ih more

namespace Tx

variable {s s' mid : Tx σ} {zero : σ}

/-! ## The invariant -/

/-- The maps have the volume `mark`, and so many more with the first waiting batches as
these hold writes. -/
structure Timed (zero : σ) (since : List (ℤ → σ)) (mark : ℕ) (s : Tx σ) : Prop where
  length : since.length = mark + writes s.pending + 1
  shown : ∀ front, front <+: s.pending → ∃ v, since[mark + writes front]? = some v ∧
    ∀ x, s.ShowsAfter zero front x (v x)

theorem ShowsAfter.of_same {requests : List (Request σ)} {x : ℤ} {value : σ}
    (shows : s.ShowsAfter zero requests x value) (objmap : s'.maps.objmap = s.maps.objmap)
    (objects : ∀ x p, locate s.maps.objmap x = some p →
      s'.object p.obj.toNat = s.object p.obj.toNat) : s'.ShowsAfter zero requests x value := by
  unfold ShowsAfter Designates at shows ⊢
  rw [objmap]
  split
  · next place found =>
      rw [found] at shows
      exact shows
  · next none =>
      rw [none] at shows
      split
      · next p found =>
          rw [found] at shows
          rw [objects x p found]
          exact shows
      · next unmapped =>
          rw [unmapped] at shows
          exact shows

theorem Opened.timed {v : ℤ → σ} (opened : Opened zero v s) : s.Timed zero [v] 0 := by
  have pending : s.pending = [s.current] := by simp [Tx.pending, opened.queue]
  have nothing : ∀ front, front <+: s.pending → writes front = 0 ∧ ∀ x, latest front x = none := by
    intro front isFront
    rw [pending] at isFront
    rcases List.prefix_cons_iff.mp isFront with rfl | ⟨rest, rfl, isRest⟩
    · exact ⟨rfl, fun _ => rfl⟩
    · obtain rfl := List.prefix_nil.mp isRest
      simp [opened.current.1, latest, entryRanges, lastIndex]
  refine ⟨by rw [(nothing _ (List.prefix_refl _)).1]; rfl, ?_⟩
  intro front isFront
  obtain ⟨none, unseen⟩ := nothing front isFront
  refine ⟨v, by rw [none]; rfl, ?_⟩
  intro x
  unfold ShowsAfter
  rw [unseen]
  exact opened.content x

section Kept

variable {since : List (ℤ → σ)} {mark : ℕ}

theorem Timed.of_same (timed : s.Timed zero since mark) (pending : s'.pending = s.pending)
    (objmap : s'.maps.objmap = s.maps.objmap)
    (objects : ∀ x p, locate s.maps.objmap x = some p →
      s'.object p.obj.toNat = s.object p.obj.toNat) : s'.Timed zero since mark := by
  refine ⟨by rw [pending]; exact timed.length, ?_⟩
  intro front isFront
  rw [pending] at isFront
  obtain ⟨v, found, shows⟩ := timed.shown front isFront
  exact ⟨v, found, fun x => (shows x).of_same objmap objects⟩

theorem Rolled.timed (rolled : Rolled env s mid) (timed : s.Timed zero since mark) :
    mid.Timed zero since mark := by
  cases rolled with
  | same => exact timed
  | queued addr clear =>
      have pending : ({ s with queue := s.queue ++ [.put s.current], current := ⟨addr, [], []⟩ } :
          Tx σ).pending = s.pending ++ [⟨addr, [], []⟩] := by
        simp [Tx.pending, Work.request, List.filterMap_append]
      refine ⟨?_, ?_⟩
      · rw [pending, writes_append]
        exact timed.length
      · intro front isFront
        rw [pending, List.prefix_concat_iff] at isFront
        rcases isFront with rfl | older
        · obtain ⟨v, found, shows⟩ := timed.shown s.pending (List.prefix_refl _)
          refine ⟨v, by rw [writes_append]; exact found, ?_⟩
          intro x
          have same : latest (s.pending ++ [(⟨addr, [], []⟩ : Request σ)]) x = latest s.pending x := by
            simp [latest_append, latest, entryRanges, lastIndex]
          unfold ShowsAfter
          rw [same]
          exact shows x
        · exact timed.shown front older

theorem Rolled.points_eq (rolled : Rolled env s mid) :
    points mark mid.queue = points mark s.queue := by
  cases rolled with
  | same => rfl
  | queued addr clear => exact (points_append mark s.queue _).trans (List.append_nil _)

theorem timed_append {v : ℤ → σ} {lba : ℕ} {data : List σ} (timed : s.Timed zero since mark)
    (coherent : Coherent zero v { s with
      current := s.current.append lba data
      bufmap := (s.bufmap.set lba (lba + data.length) ⟨s.current.tail⟩).1 }) :
    Timed zero (since ++ [v]) mark { s with
      current := s.current.append lba data
      bufmap := (s.bufmap.set lba (lba + data.length) ⟨s.current.tail⟩).1 } := by
  have length := timed.length
  rw [Tx.pending, writes_append, writes_cons, writes_nil] at length
  have total : writes (s.queue.filterMap Work.request ++ [s.current.append lba data]) =
      writes (s.queue.filterMap Work.request) + s.current.entries.length + 1 := by
    simp [Request.append, add_assoc]
  refine ⟨?_, ?_⟩
  · change _ = mark + writes (s.queue.filterMap Work.request ++ [s.current.append lba data]) + 1
    rw [total, List.length_append, List.length_singleton]
    omega
  · intro front isFront
    rcases List.prefix_concat_iff.mp isFront with rfl | older
    · refine ⟨v, ?_, coherent.shown⟩
      rw [total, List.getElem?_append_right (by omega)]
      simp only [List.getElem?_singleton]
      rw [if_pos (by omega)]
    · obtain ⟨w, found, shows⟩ := timed.shown front (older.trans (List.prefix_append _ _))
      exact ⟨w, List.getElem?_append_left (List.getElem?_eq_some_iff.mp found).1 ▸ found,
        fun x => (shows x).of_same rfl fun _ _ _ => rfl⟩

theorem timed_send {r : Request σ} {rest : List (Work σ)} {maps : Maps} {obj : Obj σ}
    (timed : s.Timed zero since mark) (ok : s.Ok env) (envOk : env.Ok) (bound : s.curSeq < 2 ^ 31)
    (head : s.queue = .put r :: rest)
    (done : processBatch env.crc32 env.uuid s.curSeq r.entries r.data s.maps = some (maps, obj)) :
    (s.send rest (some r) maps obj).Timed zero since (mark + r.entries.length) := by
  have pending : s.pending = r :: (s.send rest (some r) maps obj).pending := by
    simp [Tx.pending, head, Work.request, send]
  have inBuffers : r ∈ s.buffers := by simp [buffers, pending]
  obtain ⟨emits, data⟩ := process_batch_emits ok.consistent.sound
    (ok.buffered.proper r inBuffers).proper envOk.uuid bound done
  refine ⟨?_, ?_⟩
  · have length := timed.length
    rw [pending, writes_cons] at length
    omega
  · intro front isFront
    obtain ⟨v, found, shows⟩ := timed.shown (r :: front)
      (by rw [pending]; exact List.prefix_cons_inj r |>.mpr isFront)
    refine ⟨v, by rw [writes_cons] at found; rw [add_assoc]; exact found, ?_⟩
    intro x
    change (s.send rest (Work.put r).request maps obj).ShowsAfter zero front x (v x)
    refine shows_send ok emits ?_ ?_ (shows x)
    · intro y
      simp [Work.place, Work.request, Function.comp_def]
    · intro other request
      rw [← Option.some.inj request, data]

theorem Timed.drop (timed : s.Timed zero since mark) : s.Timed zero (since.drop mark) 0 := by
  refine ⟨?_, ?_⟩
  · rw [List.length_drop, timed.length]
    omega
  · intro front isFront
    obtain ⟨v, found, shows⟩ := timed.shown front isFront
    refine ⟨v, ?_, shows⟩
    rw [List.getElem?_drop, zero_add]
    exact found

end Kept

end Tx

end LsvdRbd.Session
