import LsvdRbd.Journal.Log

/-!
# Writes in the journal

`write_request::run` waits for room, passes the request to `writev` chunk by chunk and
starts the writes to the device, which complete in any order. The requests of all
threads interleave; what runs under a lock is one step.
-/

namespace LsvdRbd.Journal

open ExtentMap Format Machine RingLog

set_option autoImplicit false

def chunks (max lba size : ℕ) : List (ℕ × ℕ) :=
  (List.range (divRoundUp size max)).map fun i => (lba + i * max, min (size - i * max) max)

theorem chunk_le {max lba size : ℕ} {c : ℕ × ℕ} (member : c ∈ chunks max lba size) :
    c.2 ≤ size := by
  obtain ⟨i, -, rfl⟩ := List.mem_map.mp member
  show min (size - i * max) max ≤ size
  omega

/-- A request after `reserve_room`: what `run` has still to pass to `writev`, and
`n_req`. -/
structure Request where
  sectors : ℕ
  left : List (ℕ × ℕ)
  nReq : ℤ

/-- A device write that has not completed. `made` is the number of the data record, which
names the `wcache_write_req`; `span` says which of all the pages handed out are its own. -/
structure Flight where
  record : Record
  owner : ℕ
  made : ℕ
  span : Span

structure Writers where
  wlog : Wlog
  maxWritePages : ℤ
  totalWritePages : ℤ
  outstandingWrites : ℤ
  requests : ℕ → Option Request
  flights : List Flight
  /-- Every record placed so far. -/
  log : List Record

/-- The pages that `reserve_room` and `release_room` count. -/
def roomPages (sectors : ℕ) : ℤ := toInt (sectors / 8 : ℕ)

def pagesOf (recs : List Record) : ℕ := (recs.map Record.pages).sum

@[simp] theorem pages_of_nil : pagesOf [] = 0 := rfl

theorem pages_of_cons (r : Record) (recs : List Record) :
    pagesOf (r :: recs) = r.pages + pagesOf recs := List.sum_cons

theorem pages_of_append (front back : List Record) :
    pagesOf (front ++ back) = pagesOf front + pagesOf back := by
  simp [pagesOf]

def launch (owner made : ℕ) : ℕ → List Record → List Flight
  | _, [] => []
  | start, r :: rest =>
      ⟨r, owner, made, ⟨start, r.pages⟩⟩ :: launch owner made (start + r.pages) rest

namespace Writers

def start (super : Super) : Writers :=
  ⟨.openLog super, (super.limit - super.base).tdiv 2 + (super.limit - super.base).tdiv 4, 0, 0,
    fun _ => none, [], []⟩

/-- `reserve_room` once there is room, and the start of `run`. -/
def reserve (maxSectors id lba sectors : ℕ) (s : Writers) : Option Writers :=
  if toInt maxSectors ≠ 0 ∧ (s.requests id).isNone ∧
      s.totalWritePages + roomPages sectors ≤ s.maxWritePages then
    some { s with
      totalWritePages := s.totalWritePages + roomPages sectors
      requests := Function.update s.requests id (some
        ⟨sectors, chunks maxSectors lba sectors, divRoundUpInt sectors maxSectors⟩) }
  else none

def writev (id : ℕ) (s : Writers) : Option (Except Assertion Writers) :=
  match s.requests id with
  | none => none
  | some q =>
      match q.left with
      | [] => none
      | (lba, sectors) :: rest =>
          some ((s.wlog.writev lba (512 * sectors)).map fun (recs, wlog) => { s with
            wlog := wlog
            outstandingWrites := s.outstandingWrites + 1
            requests := Function.update s.requests id (some { q with left := rest })
            flights := s.flights ++ launch id (wlog.sequence - 1) (pagesOf s.log) recs
            log := s.log ++ recs })

/-- All writes of a chunk have completed: `notify` of the request, `release_room` after
its last chunk, and the end of the chunk's own `notify`. -/
def chunkDone (id : ℕ) (q : Request) (s : Writers) : Writers :=
  { s with
    totalWritePages :=
      if 1 < q.nReq then s.totalWritePages else s.totalWritePages - roomPages q.sectors
    outstandingWrites := s.outstandingWrites - 1
    requests := Function.update s.requests id (some { q with nReq := q.nReq - 1 }) }

/-- A write to the device completes; `run` has started it after the last chunk. -/
def done (seq : ℕ) (s : Writers) : Option Writers :=
  match s.flights.find? fun f => decide (f.record.header.seq = seq) with
  | none => none
  | some f =>
      match s.requests f.owner with
      | none => none
      | some q =>
          if q.left.length = 0 then
            let s := { s with
              flights := s.flights.filter fun other => decide (other.record.header.seq ≠ seq) }
            if s.flights.any fun other => decide (other.made = f.made) then some s
            else some (s.chunkDone f.owner q)
          else none

end Writers

inductive Event
  | reserve (id lba sectors : ℕ)
  | writev (id : ℕ)
  | done (seq : ℕ)

def step (maxSectors : ℕ) (s : Writers) : Event → Option Writers
  | .reserve id lba sectors => s.reserve maxSectors id lba sectors
  | .writev id => (s.writev id).bind Except.toOption
  | .done seq => s.done seq

/-! ## What one step can do -/

namespace Writers

variable {maxSectors : ℕ} {s s' : Writers}

theorem request_cases {requests : ℕ → Option Request} {id other : ℕ} {new q : Request}
    (found : Function.update requests id (some new) other = some q) :
    other = id ∧ q = new ∨ requests other = some q := by
  by_cases same : other = id
  · rw [same, Function.update_self] at found
    exact .inl ⟨same, (Option.some.inj found).symm⟩
  · rw [Function.update_of_ne same] at found
    exact .inr found

inductive Stepped (maxSectors : ℕ) (s : Writers) : Event → Writers → Prop
  | reserve {id lba sectors : ℕ}
      (room : s.totalWritePages + roomPages sectors ≤ s.maxWritePages) :
      Stepped maxSectors s (.reserve id lba sectors) { s with
        totalWritePages := s.totalWritePages + roomPages sectors
        requests := Function.update s.requests id (some
          ⟨sectors, chunks maxSectors lba sectors, divRoundUpInt sectors maxSectors⟩) }
  | writev {id lba sectors : ℕ} {rest : List (ℕ × ℕ)} {q : Request} {recs : List Record}
      {wlog : Wlog} (found : s.requests id = some q) (left : q.left = (lba, sectors) :: rest)
      (written : s.wlog.writev lba (512 * sectors) = .ok (recs, wlog)) :
      Stepped maxSectors s (.writev id) { s with
        wlog := wlog
        outstandingWrites := s.outstandingWrites + 1
        requests := Function.update s.requests id (some { q with left := rest })
        flights := s.flights ++ launch id (wlog.sequence - 1) (pagesOf s.log) recs
        log := s.log ++ recs }
  | done {seq : ℕ} {requests : ℕ → Option Request} {total outstanding : ℤ}
      (kept : ∀ id q, requests id = some q →
        ∃ before, s.requests id = some before ∧ q.left = before.left ∧
          q.sectors = before.sectors) :
      Stepped maxSectors s (.done seq) { s with
        totalWritePages := total
        outstandingWrites := outstanding
        requests := requests
        flights := s.flights.filter fun other => decide (other.record.header.seq ≠ seq) }

theorem writev_cases {id : ℕ} (stepped : (s.writev id).bind Except.toOption = some s') :
    Stepped maxSectors s (.writev id) s' := by
  unfold writev at stepped
  split at stepped
  · cases stepped
  · next q found =>
      split at stepped
      · cases stepped
      · next lba sectors rest left =>
          cases written : s.wlog.writev lba (512 * sectors) with
          | error failed =>
              rw [written] at stepped
              cases stepped
          | ok result =>
              rw [written] at stepped
              cases stepped
              exact .writev found left written

theorem done_cases {seq : ℕ} (stepped : s.done seq = some s') :
    Stepped maxSectors s (.done seq) s' := by
  unfold done at stepped
  split at stepped
  · cases stepped
  · next f found =>
      split at stepped
      · cases stepped
      · next q owned =>
          split at stepped
          · dsimp only at stepped
            split at stepped
            · cases stepped
              exact .done fun id q same => ⟨q, same, rfl, rfl⟩
            · cases stepped
              refine .done ?_
              intro id q' same
              rcases request_cases same with ⟨rfl, rfl⟩ | before
              · exact ⟨q, owned, rfl, rfl⟩
              · exact ⟨q', before, rfl, rfl⟩
          · cases stepped

theorem step_cases {event : Event} (stepped : step maxSectors s event = some s') :
    Stepped maxSectors s event s' := by
  cases event with
  | reserve id lba sectors =>
      simp only [step, reserve] at stepped
      split at stepped
      · next admitted =>
          cases stepped
          exact .reserve admitted.2.2
      · cases stepped
  | writev id => exact writev_cases stepped
  | done seq => exact done_cases stepped

/-! ## The chain along a run -/

/-- What has been placed is a sequence of records from the start of the journal, and what
is still to be placed is within the bound on a request. -/
structure Placed (super : Super) (bound : ℕ) (s : Writers) : Prop where
  appends : (Wlog.openLog super).Appends s.log s.wlog
  bounded : ∀ id q, s.requests id = some q → ∀ c ∈ q.left, c.2 / 8 ≤ bound

theorem chunk_fits {sectors bound : ℕ} (bounded : sectors / 8 ≤ bound) (small : bound + 2 ≤ 2 ^ 19) :
    512 * sectors + 4096 < 2 ^ 31 ∧ divRoundUp (512 * sectors) 4096 + 1 ≤ bound + 2 := by
  rw [divRoundUp]
  omega

variable {super : Super} {bound : ℕ}

theorem Placed.writev (placed : s.Placed super bound) (ok : (Wlog.openLog super).Ok)
    (small : bound + 2 ≤ 2 ^ 19) (room : bound + 2 ≤ super.limit - super.base)
    {id lba sectors : ℕ} {rest : List (ℕ × ℕ)} {q : Request} (found : s.requests id = some q)
    (left : q.left = (lba, sectors) :: rest) :
    ∃ recs wlog, s.wlog.writev lba (512 * sectors) = .ok (recs, wlog) ∧
      s.wlog.Appends recs wlog := by
  have fits := chunk_fits
    (show sectors / 8 ≤ bound from placed.bounded id q found (lba, sectors) (by simp [left])) small
  obtain ⟨base, limit⟩ := placed.appends.same
  refine Wlog.writev_appends _ (placed.appends.ok ok) fits.1 ?_
  rw [base, limit]
  show _ ≤ super.limit - super.base
  omega

theorem Placed.step (placed : s.Placed super bound) (ok : (Wlog.openLog super).Ok)
    (small : bound + 2 ≤ 2 ^ 19) (room : bound + 2 ≤ super.limit - super.base) {event : Event}
    (admitted : ∀ id lba sectors, event = .reserve id lba sectors → sectors / 8 ≤ bound)
    (stepped : step maxSectors s event = some s') : s'.Placed super bound := by
  cases step_cases stepped with
  | @reserve id lba sectors room =>
      refine ⟨placed.appends, ?_⟩
      intro other q found c member
      rcases request_cases found with ⟨-, rfl⟩ | before
      · have whole := admitted id lba sectors rfl
        have := chunk_le member
        omega
      · exact placed.bounded other q before c member
  | @writev id lba sectors rest q recs wlog found left written =>
      obtain ⟨recs', wlog', returned, appends⟩ := placed.writev ok small room found left
      obtain ⟨rfl, rfl⟩ : recs' = recs ∧ wlog' = wlog := by simpa [returned] using written
      refine ⟨placed.appends.append appends, ?_⟩
      intro other q' at_other c member
      rcases request_cases at_other with ⟨-, rfl⟩ | before
      · exact placed.bounded id q found c (by simp [left, show c ∈ rest from member])
      · exact placed.bounded other q' before c member
  | done kept =>
      refine ⟨placed.appends, ?_⟩
      intro id q found c member
      obtain ⟨before, was, left, -⟩ := kept id q found
      exact placed.bounded id before was c (left ▸ member)

theorem start_placed (super : Super) (bound : ℕ) : (start super).Placed super bound :=
  ⟨.nil _, by simp [start]⟩

end Writers

/-- In every run of writes on a journal that `init_wcache` has laid out with at least
eight pages, in which each request is within the window, no assertion of `allocate` fails
and the records form one chain inside the journal. -/
theorem journal_is_chain {cacheSize maxSectors : ℕ} {events : List Event} {t : Writers}
    (small : cacheSize < 2 ^ 31)
    (room : 8 ≤ (initWcache cacheSize).1.limit - (initWcache cacheSize).1.base)
    (admitted : ∀ id lba sectors, Event.reserve id lba sectors ∈ events →
      ((sectors / 8 : ℕ) : ℤ) ≤
        ((initWcache cacheSize).1.limit - (initWcache cacheSize).1.base) / 2 +
          ((initWcache cacheSize).1.limit - (initWcache cacheSize).1.base) / 4)
    (ran : run (step maxSectors) (.start (initWcache cacheSize).1) events = some t) :
    (∀ id, ∀ result ∈ t.writev id, ∃ u, result = .ok u) ∧
    Wlog.Chain 1 (initWcache cacheSize).1.base (initWcache cacheSize).1.limit t.log ∧
    ∀ r ∈ t.log, 2 ≤ r.page ∧ r.page + r.pages ≤ (initWcache cacheSize).2 := by
  obtain ⟨base, limit, -, pages⟩ := init_wcache_layout small room
  generalize made : initWcache cacheSize = file at *
  obtain ⟨super, total⟩ := file
  dsimp only at *
  obtain ⟨bound, window⟩ := Int.eq_ofNat_of_zero_le
    (show 0 ≤ (super.limit - super.base) / 2 + (super.limit - super.base) / 4 by omega)
  have ok : (Wlog.openLog super).Ok := ⟨by simp [Wlog.openLog]; omega, le_refl _, by
    simp [Wlog.openLog]; omega⟩
  have first : (Wlog.openLog super).sequence = 1 := by
    have : super = (initWcache cacheSize).1 := by rw [made]
    rw [this]
    rfl
  have along : Along (step maxSectors)
      (fun _ event => ∀ id lba sectors, event = .reserve id lba sectors → sectors / 8 ≤ bound)
      (.start super) events := by
    refine along_of_forall (fun event member id lba sectors same => ?_) _
    have := admitted id lba sectors (same ▸ member)
    omega
  have placed : t.Placed super bound := invariant_along
    (fun _ _ _ placed allowed stepped => placed.step ok (by omega) (by omega) allowed stepped)
    (Writers.start_placed super bound) along ran
  have chain := placed.appends.chain ok
  refine ⟨?_, first ▸ chain, ?_⟩
  · intro id result returned
    unfold Writers.writev at returned
    split at returned
    · cases returned
    · next q found =>
        split at returned
        · cases returned
        · next lba sectors rest left =>
            obtain ⟨recs, wlog, written, -⟩ := placed.writev ok (by omega) (by omega) found left
            rw [written] at returned
            exact ⟨_, (Option.some.inj returned).symm⟩
  · intro r member
    have inside := chain.inside r member
    omega

def smallFile : ℕ := 14 * 4096

def wrappingWrites : List Event :=
  [.reserve 0 0 32, .writev 0, .writev 0, .reserve 1 64 16, .writev 1]

theorem journal_is_chain_wrapping : ∃ t : Writers,
    run (step 16) (.start (initWcache smallFile).1) wrappingWrites = some t ∧
      t.log.map (fun r => (r.page, r.header.len, r.header.seq, r.header.prev)) =
        [(5, 3, 1, 0), (8, 3, 2, 5), (11, 2, 3, 8), (5, 3, 4, 11)] ∧
      Wlog.Chain 1 (initWcache smallFile).1.base (initWcache smallFile).1.limit t.log := by
  obtain ⟨t, ran, held⟩ := (Option.any_eq_true _ _).mp
    (by decide +kernel : (run (step 16) (.start (initWcache smallFile).1) wrappingWrites).any
      (fun t => decide
        (t.log.map (fun r => (r.page, r.header.len, r.header.seq, r.header.prev)) =
          [(5, 3, 1, 0), (8, 3, 2, 5), (11, 2, 3, 8), (5, 3, 4, 11)])) = true)
  have admitted : ∀ id lba sectors, Event.reserve id lba sectors ∈ wrappingWrites →
      ((sectors / 8 : ℕ) : ℤ) ≤
        ((initWcache smallFile).1.limit - (initWcache smallFile).1.base) / 2 +
          ((initWcache smallFile).1.limit - (initWcache smallFile).1.base) / 4 := by
    rw [show (initWcache smallFile).1.limit - (initWcache smallFile).1.base = 8 by decide +kernel]
    intro id lba sectors member
    simp only [wrappingWrites, List.mem_cons, Event.reserve.injEq, reduceCtorEq, List.not_mem_nil,
      or_false, false_or] at member
    omega
  exact ⟨t, ran, of_decide_eq_true held,
    (journal_is_chain (by decide) (by decide +kernel) admitted ran).2.1⟩

end LsvdRbd.Journal
