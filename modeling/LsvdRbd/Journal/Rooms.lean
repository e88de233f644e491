import LsvdRbd.Journal.Locks
import LsvdRbd.Journal.Requests

/-!
# The counters of the room

The writes are modelled with their records and the end of a chunk as one step, and without
the records but with a step for each lock that the end of a chunk takes. Every run of the
first is one of the second, with the same counters, in which `flush` is not called.
-/

namespace LsvdRbd.Journal

open Ledger Machine

set_option autoImplicit false

/-- The counters agree. `slot` and `place` give the positions of the requests and of the
chunks; a chunk is at the device as long as one of its writes is in flight. -/
structure Mirrors (slot place : ℕ → ℕ) (s : Writers) (c : Closing) : Prop where
  outside : c.flush = .outside
  window : c.maxWritePages = s.maxWritePages
  total : c.totalWritePages = s.totalWritePages
  outstanding : c.outstandingWrites = s.outstandingWrites
  requests : ∀ id q, s.requests id = some q → ∃ released,
    c.requests[slot id]? = some ⟨roomPages q.sectors, q.left.length, q.nReq, released⟩
  apart : ∀ id other, (s.requests id).isSome = true → (s.requests other).isSome = true →
    slot id = slot other → id = other
  owned : ∀ f ∈ s.flights, (s.requests f.owner).isSome = true
  atDevice : ∀ f ∈ s.flights, c.chunks[place f.made]? = some ⟨slot f.owner, .device⟩
  distinct : ∀ f ∈ s.flights, ∀ g ∈ s.flights, place f.made = place g.made → f.made = g.made
  numbered : ∀ f ∈ s.flights, f.made < s.wlog.sequence

/-- An `int` holds the sum that `run` divides by the sectors of a chunk. -/
def Sized (maxSectors : ℕ) : Event → Prop
  | .reserve _ _ sectors => sectors + maxSectors < 2 ^ 31
  | _ => True

theorem launch_owner {owner made start : ℕ} {recs : List Record} {f : Flight}
    (member : f ∈ launch owner made start recs) : f.owner = owner ∧ f.made = made := by
  induction recs generalizing start with
  | nil => cases member
  | cons r rest ih =>
      rcases List.mem_cons.mp member with rfl | later
      · exact ⟨rfl, rfl⟩
      · exact ih later

def Closing.ending (c : ℕ) (nReq : ℤ) : List LockEvent :=
  .device c :: .notify c :: if 1 < nReq then [.count c] else [.release c, .count c]

theorem Closing.run_ending {s : Closing} {c owner : ℕ} {q : Reserved}
    (outside : s.flush = .outside) (found : s.chunks[c]? = some ⟨owner, .device⟩)
    (owned : s.requests[owner]? = some q) (passed : q.left = 0) :
    ∃ released, run Closing.step s (ending c q.nReq) = some { s with
      totalWritePages :=
        if 1 < q.nReq then s.totalWritePages else s.totalWritePages - q.pages
      outstandingWrites := s.outstandingWrites - 1
      requests := s.requests.set owner ⟨q.pages, q.left, q.nReq - 1, released⟩
      chunks := s.chunks.set c ⟨owner, .gone⟩ } := by
  have placed (chunk : Chunk) : (s.chunks.set c chunk)[c]? = some chunk := by
    rw [set_lookup found, if_pos rfl]
  have kept (r : Reserved) : (s.requests.set owner r)[owner]? = some r := by
    rw [set_lookup owned, if_pos rfl]
  by_cases several : 1 < q.nReq
  · refine ⟨q.released, ?_⟩
    simp [ending, run_cons, Closing.step, device, notify, count, setChunk, found, owned, passed,
      placed, outside, several, FlushPhase.holdsM]
  · refine ⟨true, ?_⟩
    simp [ending, run_cons, Closing.step, device, notify, release, count, setChunk, found, owned,
      passed, placed, kept, outside, several, FlushPhase.holdsM, FlushPhase.holdsM2]

theorem chunks_counted {maxSectors sectors : ℕ} (lba : ℕ) (divides : toInt maxSectors ≠ 0)
    (sized : sectors + maxSectors < 2 ^ 31) :
    divRoundUpInt sectors maxSectors = (chunks maxSectors lba sectors).length := by
  have positive : maxSectors ≠ 0 := by
    rintro rfl
    exact divides (by decide)
  rw [div_round_up_int_eq (by omega) (by omega) (by omega), chunks, List.length_map,
    List.length_range, Format.divRoundUp]
  push_cast [show 1 ≤ sectors + maxSectors by omega]
  rfl

namespace Mirrors

variable {slot place : ℕ → ℕ} {s s' : Writers} {c : Closing} {maxSectors : ℕ}

theorem reserve {id lba sectors : ℕ} (mirrors : Mirrors slot place s c)
    (sized : sectors + maxSectors < 2 ^ 31)
    (reserved : s.reserve maxSectors id lba sectors = some s') :
    ∃ slot' c', run Closing.step c
      [.reserve (sectors / 8) (chunks maxSectors lba sectors).length] = some c' ∧
        Mirrors slot' place s' c' := by
  simp only [Writers.reserve, Option.ite_none_right_eq_some, Option.some.injEq] at reserved
  obtain ⟨⟨divides, absent, room⟩, rfl⟩ := reserved
  have pages : roomPages sectors = (sectors / 8 : ℕ) := to_int_of_range (by omega) (by omega)
  have fits : c.totalWritePages + (sectors / 8 : ℕ) ≤ c.maxWritePages := by
    rw [mirrors.total, mirrors.window, ← pages]
    exact room
  have others (other : ℕ) (here : (s.requests other).isSome = true) : other ≠ id := by
    rintro rfl
    rw [Option.isNone_iff_eq_none.mp absent] at here
    cases here
  have before (other : ℕ) (here : (s.requests other).isSome = true) :
      slot other < c.requests.length := by
    obtain ⟨q, found⟩ := Option.isSome_iff_exists.mp here
    obtain ⟨released, at_slot⟩ := mirrors.requests other q found
    exact (List.getElem?_eq_some_iff.mp at_slot).1
  have moved : c.step (.reserve (sectors / 8) (chunks maxSectors lba sectors).length) = some { c with
      totalWritePages := c.totalWritePages + (sectors / 8 : ℕ)
      requests := c.requests ++ [⟨(sectors / 8 : ℕ), (chunks maxSectors lba sectors).length,
        (chunks maxSectors lba sectors).length, false⟩] } :=
    if_pos ⟨by rw [mirrors.outside]; rfl, fits⟩
  refine ⟨Function.update slot id c.requests.length, _,
    (run_cons_eq_some _).mpr ⟨_, moved, rfl⟩, ?_⟩
  refine ⟨mirrors.outside, mirrors.window, ?_, mirrors.outstanding, ?_, ?_, ?_, ?_,
    mirrors.distinct, mirrors.numbered⟩
  · simp only [mirrors.total, pages]
  · intro other q found
    rw [add_lookup]
    rcases Writers.request_cases found with ⟨rfl, rfl⟩ | old
    · refine ⟨false, ?_⟩
      rw [Function.update_self, if_pos rfl, pages, chunks_counted lba divides sized]
    · have here := Option.isSome_iff_exists.mpr ⟨q, old⟩
      rw [Function.update_of_ne (others other here), if_neg (before other here).ne]
      exact mirrors.requests other q old
  · intro first second inFirst inSecond same
    dsimp only at inFirst inSecond
    by_cases one : first = id <;> by_cases two : second = id
    · rw [one, two]
    · rw [Function.update_of_ne two] at inSecond
      rw [one, Function.update_self, Function.update_of_ne two] at same
      exact absurd same.symm (before second inSecond).ne
    · rw [Function.update_of_ne one] at inFirst
      rw [two, Function.update_self, Function.update_of_ne one] at same
      exact absurd same (before first inFirst).ne
    · rw [Function.update_of_ne one] at inFirst
      rw [Function.update_of_ne two] at inSecond
      rw [Function.update_of_ne one, Function.update_of_ne two] at same
      exact mirrors.apart first second inFirst inSecond same
  · intro f member
    show (Function.update s.requests id _ f.owner).isSome = true
    rw [Function.update_of_ne (others f.owner (mirrors.owned f member))]
    exact mirrors.owned f member
  · intro f member
    rw [Function.update_of_ne (others f.owner (mirrors.owned f member))]
    exact mirrors.atDevice f member

theorem updated {id : ℕ} {q : Request} (mirrors : Mirrors slot place s c)
    (found : s.requests id = some q) (new : Request) (released : Bool) :
    ∀ other p, Function.update s.requests id (some new) other = some p → ∃ released',
      (c.requests.set (slot id)
        ⟨roomPages new.sectors, new.left.length, new.nReq, released⟩)[slot other]? =
          some ⟨roomPages p.sectors, p.left.length, p.nReq, released'⟩ := by
  intro other p at_other
  obtain ⟨before, at_slot⟩ := mirrors.requests id q found
  rw [set_lookup at_slot]
  by_cases same : other = id
  · rw [same, Function.update_self] at at_other
    cases at_other
    exact ⟨released, by rw [same, if_pos rfl]⟩
  · rw [Function.update_of_ne same] at at_other
    have apart : slot other ≠ slot id := fun equal => same
      (mirrors.apart other id (by rw [at_other]; rfl) (by rw [found]; rfl) equal)
    rw [if_neg apart]
    exact mirrors.requests other p at_other

theorem known_updated {id : ℕ} {q : Request} (found : s.requests id = some q) (new : Request)
    (other : ℕ) : (Function.update s.requests id (some new) other).isSome =
      (s.requests other).isSome := by
  by_cases same : other = id
  · rw [same, Function.update_self, found]
    rfl
  · rw [Function.update_of_ne same]

theorem writev {id : ℕ} (mirrors : Mirrors slot place s c)
    (stepped : step maxSectors s (.writev id) = some s') :
    ∃ place' c', run Closing.step c [.writev (slot id)] = some c' ∧
      Mirrors slot place' s' c' := by
  cases Writers.step_cases stepped with
  | @writev _ lba sectors rest q recs wlog found left written =>
      obtain ⟨released, at_slot⟩ := mirrors.requests id q found
      have new := Wlog.writev_sequence written
      have older (f : Flight) (member : f ∈ s.flights) : f.made ≠ wlog.sequence - 1 := by
        have := mirrors.numbered f member
        omega
      have placed (f : Flight) (member : f ∈ s.flights) : place f.made < c.chunks.length :=
        (List.getElem?_eq_some_iff.mp (mirrors.atDevice f member)).1
      have known := known_updated found { q with left := rest }
      have moved : c.step (.writev (slot id)) = some { c with
          outstandingWrites := c.outstandingWrites + 1
          requests := c.requests.set (slot id) ⟨roomPages q.sectors, rest.length, q.nReq, released⟩
          chunks := c.chunks ++ [⟨slot id, .device⟩] } := by
        simp [Closing.step, Closing.writev, at_slot, mirrors.outside, FlushPhase.holdsM, left]
      refine ⟨Function.update place (wlog.sequence - 1) c.chunks.length, _,
        (run_cons_eq_some _).mpr ⟨_, moved, rfl⟩, ?_⟩
      refine ⟨mirrors.outside, mirrors.window, mirrors.total, ?_,
        mirrors.updated found { q with left := rest } released, ?_, ?_, ?_, ?_, ?_⟩
      · simp only [mirrors.outstanding]
      · exact fun first second one two => mirrors.apart first second ((known first).symm.trans one)
          ((known second).symm.trans two)
      · intro f member
        rcases List.mem_append.mp member with old | launched
        · exact (known f.owner).trans (mirrors.owned f old)
        · rw [(launch_owner launched).1]
          exact (known id).trans (by rw [found]; rfl)
      · intro f member
        rw [add_lookup]
        rcases List.mem_append.mp member with old | launched
        · rw [Function.update_of_ne (older f old), if_neg (placed f old).ne]
          exact mirrors.atDevice f old
        · obtain ⟨owner, made⟩ := launch_owner launched
          rw [made, owner, Function.update_self, if_pos rfl]
      · intro f inF g inG same
        rcases List.mem_append.mp inF with oldF | newF <;>
          rcases List.mem_append.mp inG with oldG | newG
        · rw [Function.update_of_ne (older f oldF), Function.update_of_ne (older g oldG)] at same
          exact mirrors.distinct f oldF g oldG same
        · rw [(launch_owner newG).2, Function.update_self,
            Function.update_of_ne (older f oldF)] at same
          exact absurd same (placed f oldF).ne
        · rw [(launch_owner newF).2, Function.update_self,
            Function.update_of_ne (older g oldG)] at same
          exact absurd same.symm (placed g oldG).ne
        · rw [(launch_owner newF).2, (launch_owner newG).2]
      · intro f member
        show f.made < wlog.sequence
        rcases List.mem_append.mp member with old | launched
        · exact (mirrors.numbered f old).trans new
        · rw [(launch_owner launched).2]
          omega

theorem filtered {keep : Flight → Bool} (mirrors : Mirrors slot place s c) :
    Mirrors slot place { s with flights := s.flights.filter keep } c :=
  { mirrors with
    owned := fun f member => mirrors.owned f (List.mem_of_mem_filter member)
    atDevice := fun f member => mirrors.atDevice f (List.mem_of_mem_filter member)
    distinct := fun f inF g inG => mirrors.distinct f (List.mem_of_mem_filter inF) g
      (List.mem_of_mem_filter inG)
    numbered := fun f member => mirrors.numbered f (List.mem_of_mem_filter member) }

theorem chunkDone {id made : ℕ} {q : Request} (mirrors : Mirrors slot place s c)
    (found : s.requests id = some q) (passed : q.left.length = 0)
    (held : c.chunks[place made]? = some ⟨slot id, .device⟩)
    (last : ∀ f ∈ s.flights, place f.made ≠ place made) :
    ∃ c', run Closing.step c (Closing.ending (place made) q.nReq) = some c' ∧
      Mirrors slot place (s.chunkDone id q) c' := by
  obtain ⟨released, at_slot⟩ := mirrors.requests id q found
  obtain ⟨after, ended⟩ := Closing.run_ending mirrors.outside held at_slot passed
  dsimp only at ended
  refine ⟨_, ended, ?_⟩
  have known := known_updated found { q with nReq := q.nReq - 1 }
  refine ⟨mirrors.outside, mirrors.window, ?_, ?_, ?_, ?_, ?_, ?_, mirrors.distinct,
    mirrors.numbered⟩
  · simp only [Writers.chunkDone, mirrors.total]
  · simp only [Writers.chunkDone, mirrors.outstanding]
  · intro other p at_other
    exact mirrors.updated found { q with nReq := q.nReq - 1 } after other p at_other
  · intro first second one two
    exact mirrors.apart first second ((known first).symm.trans one) ((known second).symm.trans two)
  · exact fun f member => (known f.owner).trans (mirrors.owned f member)
  · intro f member
    rw [set_lookup held, if_neg (last f member)]
    exact mirrors.atDevice f member

theorem done {seq : ℕ} (mirrors : Mirrors slot place s c) (completed : s.done seq = some s') :
    ∃ moves c', run Closing.step c moves = some c' ∧ Mirrors slot place s' c' := by
  unfold Writers.done at completed
  split at completed
  · cases completed
  · next f found =>
      have member := List.mem_of_find?_eq_some found
      split at completed
      · cases completed
      · next q owned =>
          split at completed
          · next passed =>
              dsimp only at completed
              split at completed
              · cases completed
                exact ⟨[], c, rfl, mirrors.filtered⟩
              · next only =>
                  cases completed
                  obtain ⟨c', ended, after⟩ := mirrors.filtered.chunkDone owned passed
                    (mirrors.atDevice f member) (by
                      intro g inside same
                      refine only (List.any_eq_true.mpr ⟨g, inside, ?_⟩)
                      rw [mirrors.distinct g (List.mem_of_mem_filter inside) f member same,
                        decide_eq_true_iff])
                  exact ⟨_, c', ended, after⟩
          · cases completed

end Mirrors

theorem mirrors_step {s s' : Writers} {c : Closing} {maxSectors : ℕ} {event : Event}
    (mirrored : ∃ slot place, Mirrors slot place s c) (sized : Sized maxSectors event)
    (stepped : step maxSectors s event = some s') :
    ∃ moves c', run Closing.step c moves = some c' ∧ ∃ slot place, Mirrors slot place s' c' := by
  obtain ⟨slot, place, mirrors⟩ := mirrored
  cases event with
  | reserve id lba sectors =>
      obtain ⟨slot', c', moved, after⟩ := mirrors.reserve sized stepped
      exact ⟨_, c', moved, slot', place, after⟩
  | writev id =>
      obtain ⟨place', c', moved, after⟩ := mirrors.writev stepped
      exact ⟨_, c', moved, slot, place', after⟩
  | done seq =>
      obtain ⟨moves, c', moved, after⟩ := mirrors.done stepped
      exact ⟨moves, c', moved, slot, place, after⟩

theorem start_mirrors (super : Super) :
    Mirrors id id (.start super) (.start (Writers.start super).maxWritePages) := by
  constructor <;> simp [Writers.start, Closing.start]

theorem Mirrors.unreleased {slot place : ℕ → ℕ} {s : Writers} {c : Closing}
    (mirrors : Mirrors slot place s c) (counted : c.Counted) {f : Flight} (member : f ∈ s.flights) :
    ∃ q, s.requests f.owner = some q ∧ 0 < q.nReq := by
  obtain ⟨q, found⟩ := Option.isSome_iff_exists.mp (mirrors.owned f member)
  obtain ⟨released, at_slot⟩ := mirrors.requests f.owner q found
  refine ⟨q, found, ?_⟩
  have sum := (counted.fits _ _ at_slot).counted
  have pending := List.countP_pos_iff.mpr ⟨_, List.mem_of_getElem? (mirrors.atDevice f member),
    show Closing.Chunk.pendingOf (slot f.owner) ⟨slot f.owner, .device⟩ = true by
      simp [Closing.Chunk.pendingOf, ChunkPhase.pending]⟩
  simp only at sum
  omega

/-- Every run of the writes is one of the locks in which `flush` is not called, and the
counters are the same. In it no room is released while a write of the request is in flight. -/
theorem rooms_agree {super : Super} {maxSectors : ℕ} {events : List Event} {t : Writers}
    (sized : ∀ event ∈ events, Sized maxSectors event)
    (ran : run (step maxSectors) (.start super) events = some t) :
    (∃ moves c, run Closing.step (.start (Writers.start super).maxWritePages) moves = some c ∧
      c.flush = .outside ∧ c.totalWritePages = t.totalWritePages ∧
      c.outstandingWrites = t.outstandingWrites) ∧
    ∀ f ∈ t.flights, ∃ q, t.requests f.owner = some q ∧ 0 < q.nReq := by
  obtain ⟨moves, c, moved, slot, place, mirrors⟩ := follow_along (fun _ _ _ _ => mirrors_step)
    ⟨id, id, start_mirrors super⟩ (along_of_forall sized _) ran
  have counted : c.Counted := invariant_run (fun _ _ _ counted stepped => counted.step stepped)
    (Closing.start_open _).counted moved
  refine ⟨⟨moves, c, moved, mirrors.outside, mirrors.total, mirrors.outstanding⟩, ?_⟩
  exact fun f member => mirrors.unreleased counted member

end LsvdRbd.Journal
