import LsvdRbd.Journal.Requests

/-!
# Records in flight

`reserve_room` admits requests by their whole data pages. Headers, pads and the last
page of a chunk are not counted, and a request is released when it completes, whatever
still is in flight before it. The pages handed out since the oldest write in flight
decide whether a new record meets it.
-/

namespace LsvdRbd.Journal

open ExtentMap Format Machine RingLog

set_option autoImplicit false

def Wlog.need (bytes : ℕ) (j : Wlog) : ℕ :=
  if j.limit - j.nextAlloc < divRoundUp bytes 4096 + 1 then
    (j.limit - j.nextAlloc).toNat + (divRoundUp bytes 4096 + 1)
  else divRoundUp bytes 4096 + 1

def Wlog.ring (j : Wlog) : ℕ := (j.limit - j.base).toNat

def Flight.Clear (f g : Flight) : Prop :=
  f.record.page + f.record.pages ≤ g.record.page ∨
    g.record.page + g.record.pages ≤ f.record.page

def Writers.nextChunk (id : ℕ) (s : Writers) : Option (ℕ × ℕ) :=
  (s.requests id).bind fun q => q.left.head?

/-- The pages handed out since the oldest write in flight, with those of this call, are
no more than the journal has; and an `int` holds the bytes of the chunk. -/
def Spares (s : Writers) : Event → Prop
  | .writev id => ∀ c ∈ s.nextChunk id, 512 * c.2 + 4096 < 2 ^ 31 ∧
      s.wlog.need (512 * c.2) ≤ s.wlog.ring ∧
      ∀ f ∈ s.flights, pagesOf s.log + s.wlog.need (512 * c.2) ≤ f.span.start + s.wlog.ring
  | _ => True

instance (f g : Flight) : Decidable (f.Clear g) := inferInstanceAs (Decidable (_ ∨ _))

instance (s : Writers) (event : Event) : Decidable (Spares s event) := by
  unfold Spares
  split <;> infer_instance

/-! ## Where the records of a call lie -/

/-- The record lies where its span says. -/
structure Flight.Laid (base : ℤ) (size : ℕ) (f : Flight) : Prop where
  len : f.span.len = f.record.pages
  filled : 0 < f.span.len
  page : f.record.page = base + f.span.slot size
  unbroken : f.span.Unbroken size

theorem Flight.Laid.clear_iff {base : ℤ} {size : ℕ} {f g : Flight} (first : f.Laid base size)
    (second : g.Laid base size) : f.Clear g ↔ f.span.Apart size g.span := by
  rw [Flight.Clear, Span.Apart, first.page, second.page, ← first.len, ← second.len]
  omega

variable {owner made start size : ℕ} {base : ℤ} {recs : List Record} {j j' : Wlog}

theorem launch_span {g : Flight} (member : g ∈ launch owner made start recs) :
    start ≤ g.span.start ∧ g.span.stop ≤ start + pagesOf recs := by
  induction recs generalizing start with
  | nil => cases member
  | cons r rest ih =>
      rw [pages_of_cons]
      rcases List.mem_cons.mp member with rfl | later
      · exact ⟨le_refl _, by simp [Span.stop]⟩
      · have := ih later
        omega

theorem launch_ordered : (launch owner made start recs).Pairwise fun f g =>
    f.span.stop ≤ g.span.start := by
  induction recs generalizing start with
  | nil => exact .nil
  | cons r rest ih =>
      refine .cons ?_ ih
      intro g member
      exact (launch_span member).1

theorem Wlog.Ok.ring_eq (ok : j.Ok) : (j.ring : ℤ) = j.limit - j.base := by
  have := ok.lower
  have := ok.upper
  rw [Wlog.ring]
  omega

theorem launch_laid (owner made : ℕ) (appends : j.Appends recs j') (ok : j.Ok)
    (next : j.nextAlloc = j.base + (start % j.ring : ℕ)) :
    (∀ g ∈ launch owner made start recs, g.Laid j.base j.ring) ∧
      j'.nextAlloc = j.base + ((start + pagesOf recs) % j.ring : ℕ) := by
  induction appends generalizing start with
  | nil j => exact ⟨by simp [launch], by simpa using next⟩
  | @cons j mid j' r rest first later ih =>
      obtain ⟨sameBase, sameLimit⟩ := first.same
      have ring : mid.ring = j.ring := by rw [Wlog.ring, sameBase, sameLimit, Wlog.ring]
      have page : r.page = j.base + (start % j.ring : ℕ) := first.page.trans next
      have inside := first.inside
      have whole := ok.ring_eq
      have laid : (⟨r, owner, made, ⟨start, r.pages⟩⟩ : Flight).Laid j.base j.ring := by
        refine ⟨rfl, first.filled, page, ?_⟩
        show start % j.ring + r.pages ≤ j.ring
        omega
      have after : mid.nextAlloc = mid.base + ((start + r.pages) % mid.ring : ℕ) := by
        have turned : (start + r.pages) % j.ring = if start % j.ring + r.pages = j.ring then 0
            else start % j.ring + r.pages := Span.stop_mod laid.unbroken
        rw [ring, sameBase, turned, first.next]
        dsimp only
        split <;> split <;> omega
      have rest := ih (first.ok ok) after
      rw [sameBase, ring] at rest
      refine ⟨?_, ?_⟩
      · intro g member
        rcases List.mem_cons.mp member with rfl | inRest
        · exact laid
        · exact rest.1 g inRest
      · rw [rest.2, pages_of_cons, Nat.add_assoc]

theorem writev_need {lba bytes : ℕ} (ok : j.Ok) (small : bytes + 4096 < 2 ^ 31)
    (written : j.writev lba bytes = .ok (recs, j')) : pagesOf recs = j.need bytes := by
  have := ok.upper
  rcases Int.lt_or_le (j.limit - j.nextAlloc) (divRoundUp bytes 4096 + 1) with short | room
  · rw [Wlog.writev_pads ok small short] at written
    cases written
    rw [Wlog.need, if_pos short, pages_of_cons, pages_of_cons, pages_of_nil, Wlog.record_pages]
    simp only [Record.pages, divRoundUp]
    omega
  · rw [Wlog.writev_fits ok small room] at written
    cases written
    rw [Wlog.need, if_neg (by omega), pages_of_cons, pages_of_nil, Wlog.record_pages]
    omega

theorem writev_need_appends {lba bytes : ℕ} (ok : j.Ok) (small : bytes + 4096 < 2 ^ 31)
    (need : j.need bytes ≤ j.ring) (written : j.writev lba bytes = .ok (recs, j')) :
    j.Appends recs j' := by
  have whole := ok.ring_eq
  have fits : (divRoundUp bytes 4096 + 1 : ℤ) ≤ j.limit - j.base := by
    unfold Wlog.need at need
    split at need <;> omega
  obtain ⟨recs', wlog, returned, appends⟩ := Wlog.writev_appends lba ok small fits
  obtain ⟨rfl, rfl⟩ : recs' = recs ∧ wlog = j' := by simpa [returned] using written
  exact appends

/-! ## The flights along a run -/

/-- The writes in flight lie in the order of their positions, and no more than the ring
has been handed out since the oldest of them. -/
structure Writers.Spread (s : Writers) : Prop where
  ok : s.wlog.Ok
  next : s.wlog.nextAlloc = s.wlog.base + (pagesOf s.log % s.wlog.ring : ℕ)
  laid : ∀ f ∈ s.flights, f.Laid s.wlog.base s.wlog.ring
  placed : ∀ f ∈ s.flights, f.span.stop ≤ pagesOf s.log
  ordered : s.flights.Pairwise fun f g => f.span.stop ≤ g.span.start
  within : ∀ f ∈ s.flights, pagesOf s.log ≤ f.span.start + s.wlog.ring

namespace Writers.Spread

variable {s s' : Writers} {maxSectors : ℕ}

theorem clear (spread : s.Spread) : s.flights.Pairwise Flight.Clear := by
  have positive : 0 < s.wlog.ring := by
    have := spread.ok.ring_eq
    have := spread.ok.lower
    have := spread.ok.upper
    omega
  refine spread.ordered.imp_of_mem ?_
  intro f g inF inG before
  have first := spread.laid f inF
  have second := spread.laid g inG
  have := spread.placed g inG
  have := spread.within f inF
  exact (first.clear_iff second).mpr
    (Span.apart_of_within positive second.filled before (by omega))

theorem step (spread : s.Spread) {event : Event} (spares : Spares s event)
    (stepped : step maxSectors s event = some s') : s'.Spread := by
  obtain ⟨ok, next, laid, placed, ordered, within⟩ := spread
  cases step_cases stepped with
  | reserve room => exact ⟨ok, next, laid, placed, ordered, within⟩
  | @writev id lba sectors rest q recs wlog found left written =>
      obtain ⟨small, need, free⟩ := spares (lba, sectors) (by simp [nextChunk, found, left])
      have appends := writev_need_appends ok small need written
      have taken := writev_need ok small written
      obtain ⟨sameBase, sameLimit⟩ := appends.same
      have ring : wlog.ring = s.wlog.ring := by rw [Wlog.ring, sameBase, sameLimit, Wlog.ring]
      have launched := launch_laid id (wlog.sequence - 1) appends ok next
      refine ⟨appends.ok ok, ?_, ?_, ?_, ?_, ?_⟩
      · show wlog.nextAlloc = wlog.base + (pagesOf (s.log ++ recs) % wlog.ring : ℕ)
        rw [sameBase, ring, pages_of_append]
        exact launched.2
      · intro f member
        show f.Laid wlog.base wlog.ring
        rw [sameBase, ring]
        rcases List.mem_append.mp member with old | new
        · exact laid f old
        · exact launched.1 f new
      · intro f member
        show f.span.stop ≤ pagesOf (s.log ++ recs)
        rw [pages_of_append]
        rcases List.mem_append.mp member with old | new
        · have := placed f old
          omega
        · exact (launch_span new).2
      · refine List.pairwise_append.mpr ⟨ordered, launch_ordered, ?_⟩
        intro f old g new
        have := placed f old
        have := (launch_span new).1
        omega
      · intro f member
        show pagesOf (s.log ++ recs) ≤ f.span.start + wlog.ring
        rw [pages_of_append, ring, taken]
        rcases List.mem_append.mp member with old | new
        · exact free f old
        · have := (launch_span new).1
          omega
  | done kept =>
      exact ⟨ok, next, fun f member => laid f (List.mem_of_mem_filter member),
        fun f member => placed f (List.mem_of_mem_filter member),
        ordered.sublist List.filter_sublist,
        fun f member => within f (List.mem_of_mem_filter member)⟩

/-- What is handed out beyond one length of the ring meets the write it started from. -/
theorem launch_meets {f : Flight} (positive : 0 < size) (laid : f.Laid base size)
    (each : ∀ g ∈ launch owner made start recs, g.Laid base size) (later : f.span.stop ≤ start)
    (near : start ≤ f.span.start + size) (beyond : f.span.start + size < start + pagesOf recs) :
    ∃ g ∈ launch owner made start recs, ¬ f.Clear g := by
  induction recs generalizing start with
  | nil =>
      rw [pages_of_nil] at beyond
      omega
  | cons r rest ih =>
      rw [pages_of_cons] at beyond
      by_cases here : f.span.start + size < start + r.pages
      · have first := each ⟨r, owner, made, ⟨start, r.pages⟩⟩ List.mem_cons_self
        refine ⟨_, List.mem_cons_self, ?_⟩
        rw [laid.clear_iff first]
        exact Span.meet_of_beyond positive laid.filled first.unbroken later near here
      · obtain ⟨g, member, meets⟩ := @ih (start + r.pages)
          (fun g member => each g (List.mem_cons_of_mem _ member)) (by omega) (by omega) (by omega)
        exact ⟨g, List.mem_cons_of_mem _ member, meets⟩

theorem meets (spread : s.Spread) {id : ℕ} {c : ℕ × ℕ} (chunk : s.nextChunk id = some c)
    (small : 512 * c.2 + 4096 < 2 ^ 31)
    (fits : divRoundUp (512 * c.2) 4096 + 1 ≤ s.wlog.ring)
    (stepped : Journal.step maxSectors s (.writev id) = some s')
    (clear : s'.flights.Pairwise Flight.Clear) : Spares s (.writev id) := by
  have ok := spread.ok
  have whole := ok.ring_eq
  cases step_cases stepped with
  | @writev _ lba sectors rest q recs wlog found left written =>
      obtain rfl : (lba, sectors) = c := by simpa [nextChunk, found, left] using chunk
      obtain ⟨recs', wlog', returned, appends⟩ :=
        Wlog.writev_appends lba ok small (by omega)
      obtain ⟨rfl, rfl⟩ : recs' = recs ∧ wlog' = wlog := by simpa [returned] using written
      have taken := writev_need ok small written
      have laid := (launch_laid id (wlog'.sequence - 1) appends ok spread.next).1
      obtain ⟨-, own, across⟩ := List.pairwise_append.mp clear
      intro c' same
      cases chunk.symm.trans same
      rw [← taken]
      refine ⟨small, ?_, ?_⟩
      · -- a pad is in flight with the record behind it
        by_contra excess
        cases appends with
        | nil => simp at excess
        | cons first later =>
            rw [pages_of_cons] at excess
            obtain ⟨apart, -⟩ := List.pairwise_cons.mp own
            have pad := laid _ List.mem_cons_self
            obtain ⟨g, member, meets⟩ := launch_meets (by omega) pad
              (fun g member => laid g (List.mem_cons_of_mem _ member)) (le_refl _)
              (by have := pad.unbroken; simp only [Span.Unbroken] at this ⊢; omega)
              (by simp only; omega)
            exact meets (apart g member)
      · intro f member
        by_contra excess
        obtain ⟨g, inNew, meets⟩ := launch_meets (by omega) (spread.laid f member) laid
          (spread.placed f member) (spread.within f member) (by omega)
        exact meets (across f member g inNew)

end Writers.Spread

theorem Writers.start_spread {super : Super} (base : 1 ≤ super.base)
    (room : super.base < super.limit) : (Writers.start super).Spread where
  ok := ⟨base, le_refl _, room⟩
  next := by simp [start, Wlog.openLog]
  laid := by simp [start]
  placed := by simp [start]
  ordered := .nil
  within := by simp [start]

/-- In every run in which no call hands out more pages than the journal has since the
oldest write in flight, the writes in flight are to different pages in every state
reached; and a call that does so makes two of them meet. -/
theorem flights_stay_apart {super : Super} {maxSectors : ℕ} {events : List Event} {t : Writers}
    (base : 1 ≤ super.base) (room : super.base < super.limit)
    (along : Along (step maxSectors) Spares (.start super) events)
    (ran : run (step maxSectors) (.start super) events = some t) :
    t.flights.Pairwise Flight.Clear ∧
    ∀ id c u, t.nextChunk id = some c → 512 * c.2 + 4096 < 2 ^ 31 →
      divRoundUp (512 * c.2) 4096 + 1 ≤ t.wlog.ring → step maxSectors t (.writev id) = some u →
        (u.flights.Pairwise Flight.Clear ↔ Spares t (.writev id)) := by
  have spread : t.Spread := invariant_along
    (fun _ _ _ spread spares stepped => spread.step spares stepped)
    (Writers.start_spread base room) along ran
  refine ⟨spread.clear, ?_⟩
  intro id c u chunk small fits stepped
  constructor
  · exact spread.meets chunk small fits stepped
  · intro spares
    exact (spread.step spares stepped).clear

def releasedInTime : List Event :=
  [.reserve 0 0 8, .writev 0, .reserve 1 8 8, .writev 1, .done 1, .reserve 2 16 8, .writev 2,
    .reserve 3 24 8, .writev 3, .reserve 4 32 8]

theorem flights_stay_apart_released : ∃ t u : Writers,
    run (step 64) (.start (initWcache smallFile).1) releasedInTime = some t ∧
      step 64 t (.writev 4) = some u ∧ u.flights.length = 4 ∧
      u.flights.Pairwise Flight.Clear := by
  obtain ⟨t, ran, held⟩ := (Option.any_eq_true _ _).mp
    (by decide +kernel : (run (step 64) (.start (initWcache smallFile).1) releasedInTime).any
      (fun t => decide (t.nextChunk 4 = some (32, 8) ∧ t.wlog.ring = 8 ∧ Spares t (.writev 4) ∧
        (step 64 t (.writev 4)).any fun u => decide (u.flights.length = 4))) = true)
  obtain ⟨chunk, ring, spares, stepped⟩ := of_decide_eq_true held
  obtain ⟨u, stepped, four⟩ := (Option.any_eq_true _ _).mp stepped
  exact ⟨t, u, ran, stepped, of_decide_eq_true four,
    ((flights_stay_apart (by decide +kernel) (by decide +kernel) (by decide +kernel) ran).2 4
      (32, 8) u chunk (by decide) (by rw [ring]; decide) stepped).mpr spares⟩

/-- On a journal of eight pages, five requests of one page each are within the window of
six but take ten pages with their headers. And while one request is in flight, others
that come and go after it bring the journal round to it. -/
theorem flights_meet :
    (run (step 64) (.start (initWcache smallFile).1) [.reserve 0 0 8, .writev 0, .reserve 1 8 8,
      .writev 1, .reserve 2 16 8, .writev 2, .reserve 3 24 8, .writev 3, .reserve 4 32 8,
      .writev 4]).any (fun t => decide (t.totalWritePages = 5 ∧ t.maxWritePages = 6 ∧
        ¬ t.flights.Pairwise Flight.Clear)) = true ∧
    (run (step 64) (.start (initWcache smallFile).1) [.reserve 0 0 8, .writev 0, .reserve 1 8 8,
      .writev 1, .done 2, .reserve 2 16 8, .writev 2, .done 3, .reserve 3 24 8, .writev 3, .done 4,
      .reserve 4 32 8, .writev 4]).any (fun t => decide (t.totalWritePages = 2 ∧
        t.flights.length = 2 ∧ ¬ t.flights.Pairwise Flight.Clear)) = true := by
  constructor <;> decide +kernel

end LsvdRbd.Journal
