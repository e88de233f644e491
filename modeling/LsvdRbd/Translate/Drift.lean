import LsvdRbd.Translate.Sections

/-!
# Drift of the live counts

Between the map section of `write_gc` and its table entry the map has a number that the
table does not list. A trim that runs in this window takes the sectors of the new object
for those of a clone base and skips them; the entry, made with the full count, then
exceeds what is mapped for good. This module accounts for every sector skipped.
-/

namespace LsvdRbd.Translate

open RunList ExtentMap Format Machine

set_option autoImplicit false

variable {σ : Type*}

/-! ## Live counts -/

def Shared.entry (s : Shared σ) (o : ℕ) : Option ObjInfo :=
  (s.maps.info[o]?).or (s.doing.pending o)

/-- How far the live count of an entry exceeds what is mapped to the object and what of it
is still to be charged. -/
def Shared.surplus (s : Shared σ) (o : ℕ) : Option ℤ :=
  (s.entry o).map fun oi =>
    oi.live - owned o s.maps.objmap.extents - owned o s.doing.displaced

/-- The displaced extents that a step charges, and the table that it finds them in. -/
def Shared.charges (s : Shared σ) : Turn σ → ObjTable × List (Extent ObjOffset)
  | .trim base limit => (s.maps.info, (s.maps.objmap.unset base limit).2)
  | .batch entries data =>
      (batchTable s.nextSeq entries data s.maps.info, batchLost s.nextSeq entries s.maps.objmap)
  | .charge => (s.maps.info, s.doing.displaced.take 1)
  | _ => (s.maps.info, [])

def Shared.skipped (s : Shared σ) (turn : Turn σ) (o : ℕ) : ℤ :=
  owned o ((s.charges turn).2.filter fun d => ((s.charges turn).1[infoKey d.ptr]?).isNone)

/-- A step skips sectors of an own object as if they were of a clone base. -/
def Shared.Skips (lastBase : ℕ) (s : Shared σ) (turn : Turn σ) : Prop :=
  ∃ o, lastBase < o ∧ s.skipped turn o ≠ 0

/-- A trim spares the sectors of the object that waits for its entry. -/
def Shared.Spares (s : Shared σ) : Turn σ → Prop
  | .trim base limit => ∀ o x p, s.doing.unentered = some o → base ≤ x → x < limit →
      locate s.maps.objmap x = some p → p.obj ≠ (o : ℤ)
  | _ => True

theorem owned_unlisted (info : ObjTable) {lost : List (Extent ObjOffset)}
    (within : ∀ d ∈ lost, Within d) (o : ℕ) :
    owned o (lost.filter fun d => (info[infoKey d.ptr]?).isNone) =
      if (info[o]?).isSome then 0 else owned o lost := by
  induction lost with
  | nil => simp
  | cons d rest ih =>
      have bounds := within d (by simp)
      have key := info_key_of_bounds bounds.objLower bounds.objUpper
      have later := ih fun other member => within other (by simp [member])
      rw [List.filter_cons, owned_cons]
      by_cases same : d.ptr.obj = o
      · rw [(by omega : infoKey d.ptr = o)]
        cases found : info[o]? with
        | none => simp [same, found] at later ⊢; exact later
        | some oi => simp [found] at later ⊢; exact later
      · rw [if_neg same, zero_add, ← later]
        split
        · rw [owned_cons, if_neg same, zero_add]
        · rfl

section Surplus

variable {lastBase : ℕ} {s t : Shared σ} {turn : Turn σ} {o : ℕ}

theorem Shared.surplus_listed {oi : ObjInfo} (present : s.maps.info[o]? = some oi) :
    s.surplus o = some (oi.live - owned o s.maps.objmap.extents - owned o s.doing.displaced) := by
  rw [surplus, entry, present]
  rfl

theorem Shared.surplus_unlisted (absent : s.maps.info[o]? = none) :
    s.surplus o = (s.doing.pending o).map fun oi =>
      oi.live - owned o s.maps.objmap.extents - owned o s.doing.displaced := by
  rw [surplus, entry, absent, Option.none_or]

theorem Shared.Linked.charges_within (linked : s.Linked lastBase) (proper : turn.Proper)
    (bound : s.nextSeq < 2 ^ 31) (stepped : Stepped s turn t) :
    ∀ d ∈ (s.charges turn).2, Within d ∧ 0 ≤ d.len := by
  unfold Shared.Linked at linked
  cases stepped with
  | trim done =>
      obtain ⟨lower, order, upper⟩ := proper
      exact linked.sound.unset_displaced order (objmap_key lower (by omega))
  | batch done =>
      obtain ⟨-, lost, -⟩ := Maps.batch_section_spec linked.sound proper bound done
      exact fun d member => ⟨(lost d member).1.1, (lost d member).1.2.le⟩
  | charge done =>
      intro d member
      have inLeft := linked.ready.within d (List.mem_of_mem_take member)
      exact ⟨inLeft.1, inLeft.2.le⟩
  | count => simp [charges]
  | gc => simp [charges]
  | lookup => simp [charges]
  | map done => simp [charges]
  | enter => simp [charges]
  | ckpt => simp [charges]

theorem Shared.Linked.skipped_eq (linked : s.Linked lastBase) (proper : turn.Proper)
    (bound : s.nextSeq < 2 ^ 31) (stepped : Stepped s turn t) (o : ℕ) :
    0 ≤ s.skipped turn o ∧ s.skipped turn o =
      if ((s.charges turn).1[o]?).isSome then 0 else owned o (s.charges turn).2 := by
  have within := linked.charges_within proper bound stepped
  have same := owned_unlisted (s.charges turn).1 (fun d member => (within d member).1) o
  refine ⟨?_, same⟩
  rw [skipped, same]
  split
  · exact le_refl _
  · exact owned_nonneg _ fun d member => (within d member).2

/-- Nothing is skipped of an object that is listed, or that nothing was displaced of. -/
theorem Shared.Linked.skipped_listed (linked : s.Linked lastBase) (proper : turn.Proper)
    (bound : s.nextSeq < 2 ^ 31) (stepped : Stepped s turn t)
    (listed : (s.maps.info[o]?).isSome) : s.skipped turn o = 0 := by
  rw [(linked.skipped_eq proper bound stepped o).2, if_pos]
  cases turn with
  | batch entries data =>
      rw [charges, batchTable, table_insert]
      split
      · rfl
      · exact listed
  | trim base limit => exact listed
  | count => exact listed
  | gc entries input => exact listed
  | lookup => exact listed
  | map => exact listed
  | charge => exact listed
  | enter => exact listed
  | ckpt => exact listed

/-- Of an own object only a trim skips sectors, and only while the object waits for its
entry. -/
theorem Shared.Linked.skipped_own (linked : s.Linked lastBase) (proper : turn.Proper)
    (bound : s.nextSeq < 2 ^ 31) (stepped : Stepped s turn t) (own : lastBase < o) :
    s.skipped turn o = match turn with
      | .trim base limit =>
          if s.doing.unentered = some o then owned o (s.maps.objmap.unset base limit).2 else 0
      | _ => 0 := by
  by_cases listed : (s.maps.info[o]?).isSome
  · rw [linked.skipped_listed proper bound stepped listed]
    unfold Shared.Linked at linked
    cases stepped with
    | @trim maps maps' n doing base limit done =>
        cases doing with
        | charging seq left oi =>
            have differ : ¬some seq = some o := by
              intro same
              rw [← Option.some.inj same] at listed
              rw [linked.ready.fresh] at listed
              cases listed
            exact (if_neg differ).symm
        | idle => rfl
        | counting seq dataSectors => rfl
        | reading seq left input pieces => rfl
    | batch done => rfl
    | charge done => rfl
    | count => rfl
    | gc => rfl
    | lookup => rfl
    | map done => rfl
    | enter => rfl
    | ckpt => rfl
  · have within := linked.charges_within proper bound stepped
    rw [(linked.skipped_eq proper bound stepped o).2]
    unfold Shared.Linked at linked
    -- an own number in the map that is not listed is the one that waits
    have waits : ∀ x p, locate s.maps.objmap x = some p → p.obj = o → s.doing.unentered = some o := by
      intro x p found same
      have key := linked.key found
      rcases linked.listed x p found (by omega) with there | waits
      · rw [Maps.Lists, (by omega : infoKey p = o)] at there
        exact absurd there listed
      · rw [waits, (by omega : infoKey p = o)]
    have none : ∀ {lost : List (Extent ObjOffset)}, (∀ d ∈ lost, 0 ≤ d.len) →
        (∀ d ∈ lost, d.ptr.obj ≠ o) → owned o lost = 0 :=
      fun lengths others => (owned_eq_zero_iff_forall lengths).mpr fun d member _ => others d member
    cases stepped with
    | @trim maps maps' n doing base limit done =>
        dsimp only at linked waits listed
        obtain ⟨lower, order, upper⟩ := proper
        rw [charges, if_neg listed]
        dsimp only
        split
        · rfl
        · next idle =>
            rw [(linked.sound.unset order (objmap_key lower (by omega))).2.2,
              owned_cut_in_eq_zero_iff order linked.sound]
            exact fun x p _ _ found same => idle (waits x p found same)
    | @batch maps maps' n entries data done =>
        dsimp only at linked waits listed bound
        obtain ⟨-, lost, -⟩ := Maps.batch_section_spec linked.sound proper bound done
        rw [charges, batchTable, table_insert]
        by_cases new : n = o
        · rw [if_pos new]
          rfl
        · rw [if_neg new, if_neg listed]
          refine none (fun d member => (within d member).2) ?_
          intro d member same
          rcases (lost d member).2 with here | ⟨x, p, found, there⟩
          · omega
          · cases waits x p found (by omega)
    | @charge maps maps' n seq d rest oi done =>
        dsimp only at linked waits listed
        rw [charges, if_neg listed]
        refine none (fun d member => (within d member).2) ?_
        intro d member same
        have inLeft := List.mem_of_mem_take member
        have bounds := (linked.ready.within d inLeft).1
        have key := info_key_of_bounds bounds.objLower bounds.objUpper
        have there := linked.ready.listed d inLeft (by omega)
        rw [Maps.Lists, (by omega : infoKey d.ptr = o)] at there
        exact absurd there listed
    | count => simp [charges]
    | gc => simp [charges]
    | lookup => simp [charges]
    | map done => simp [charges]
    | enter => simp [charges]
    | ckpt => simp [charges]

/-- A step skips nothing of the volume's own objects exactly if it spares the one that
waits. -/
theorem Shared.Linked.spares_iff (linked : s.Linked lastBase) (proper : turn.Proper)
    (bound : s.nextSeq < 2 ^ 31) (stepped : Stepped s turn t) :
    s.Spares turn ↔ ¬s.Skips lastBase turn := by
  have skipped := fun o (own : lastBase < o) => linked.skipped_own proper bound stepped own
  unfold Shared.Linked at linked
  rw [Skips]
  push Not
  cases turn with
  | trim base limit =>
      obtain ⟨lower, order, upper⟩ := proper
      have lost : ∀ o : ℕ, owned o (s.maps.objmap.unset base limit).2 = 0 ↔ ∀ x p, base ≤ x →
          x < limit → locate s.maps.objmap x = some p → p.obj ≠ o := by
        intro o
        rw [(linked.sound.unset order (objmap_key lower (by omega))).2.2]
        exact owned_cut_in_eq_zero_iff order linked.sound o
      constructor
      · intro spares o own
        rw [skipped o own]
        dsimp only
        split
        · next waits => exact (lost o).mpr fun x p low high found => spares o x p waits low high found
        · rfl
      · intro nothing o x p waits low high found
        have own : lastBase < o := by
          obtain ⟨maps, n, doing⟩ := s
          cases doing with
          | charging seq left oi => exact Option.some.inj waits ▸ linked.ready.own
          | idle => cases waits
          | counting seq dataSectors => cases waits
          | reading seq left input pieces => cases waits
        have none := nothing o own
        rw [skipped o own] at none
        dsimp only at none
        rw [if_pos waits] at none
        exact (lost o).mp none x p low high found
  | batch entries data => exact ⟨fun _ => skipped, fun _ => trivial⟩
  | count => exact ⟨fun _ => skipped, fun _ => trivial⟩
  | gc entries input => exact ⟨fun _ => skipped, fun _ => trivial⟩
  | lookup => exact ⟨fun _ => skipped, fun _ => trivial⟩
  | map => exact ⟨fun _ => skipped, fun _ => trivial⟩
  | charge => exact ⟨fun _ => skipped, fun _ => trivial⟩
  | enter => exact ⟨fun _ => skipped, fun _ => trivial⟩
  | ckpt => exact ⟨fun _ => skipped, fun _ => trivial⟩

theorem Shared.surplus_unchanged (same : t.surplus o = s.surplus o) (none : s.skipped turn o = 0) :
    (∀ n, s.surplus o = some n → t.surplus o = some (n + s.skipped turn o)) ∧
      (s.surplus o = .none → t.surplus o = .none ∨ t.surplus o = some 0) := by
  rw [same, none]
  exact ⟨fun n found => by rw [found, add_zero], Or.inl⟩

/-- The surplus of an entry grows by what a step skips of the object; a new entry has
none. -/
theorem Shared.Linked.surplus_step (linked : s.Linked lastBase) (proper : turn.Proper)
    (bound : s.nextSeq < 2 ^ 31) (stepped : Stepped s turn t) (o : ℕ) :
    (∀ n, s.surplus o = some n → t.surplus o = some (n + s.skipped turn o)) ∧
      (s.surplus o = none → t.surplus o = none ∨ t.surplus o = some 0) := by
  have listedSkip := fun listed => @Shared.Linked.skipped_listed _ _ _ _ _ o linked proper bound
    stepped listed
  have ownSkip := fun own => @Shared.Linked.skipped_own _ _ _ _ _ o linked proper bound stepped own
  unfold Shared.Linked at linked
  cases stepped with
  | @trim maps maps' n doing base limit done =>
      dsimp only at linked
      obtain ⟨lower, order, upper⟩ := proper
      obtain ⟨-, -, counts, table⟩ := Maps.trim_spec linked.sound lower order upper done
      have balance := counts o
      have after := table o
      cases found : maps.info[o]? with
      | some oi =>
          rw [found] at after
          refine surplus_unchanged ?_ (listedSkip (by simp [found]))
          rw [surplus_listed after, surplus_listed found]
          congr 1
          dsimp only
          omega
      | none =>
          rw [found] at after
          rw [surplus_unlisted found, surplus_unlisted after]
          dsimp only
          cases doing with
          | charging seq left oi =>
              by_cases waits : seq = o
              · have skipped := (ownSkip (waits ▸ linked.ready.own)).trans
                  (if_pos (congrArg some waits))
                rw [Doing.pending, if_pos waits, Option.map_some, Option.map_some, skipped]
                refine ⟨?_, by rintro ⟨⟩⟩
                intro m same
                rw [← Option.some.inj same]
                congr 1
                dsimp only
                omega
              · rw [Doing.pending, if_neg waits]
                exact ⟨by rintro _ ⟨⟩, Or.inl⟩
          | idle => exact ⟨by rintro _ ⟨⟩, Or.inl⟩
          | counting seq dataSectors => exact ⟨by rintro _ ⟨⟩, Or.inl⟩
          | reading seq left input pieces => exact ⟨by rintro _ ⟨⟩, Or.inl⟩
  | @batch maps maps' n entries data done =>
      dsimp only at linked bound
      obtain ⟨-, -, counts, table⟩ := Maps.batch_section_spec linked.sound proper bound done
      have balance := counts o
      have after := table o
      rw [batchTable, table_insert] at after
      by_cases new : n = o
      · -- the number was not in use
        have unused : maps.info[o]? = none := by
          rw [Option.eq_none_iff_forall_ne_some]
          intro oi present
          have := linked.below.listed o oi present
          omega
        subst new
        rw [if_pos rfl, linked.below.owned linked.sound] at balance
        rw [if_pos rfl, Option.map_some] at after
        refine ⟨?_, fun _ => Or.inr ?_⟩
        · rw [surplus_unlisted unused]
          rintro _ ⟨⟩
        · rw [surplus_listed after]
          congr 1
          dsimp only [Doing.displaced, owned_nil]
          omega
      · rw [if_neg (by exact_mod_cast new)] at balance
        rw [if_neg new] at after
        cases found : maps.info[o]? with
        | some oi =>
            rw [found] at after
            refine surplus_unchanged ?_ (listedSkip (by simp [found]))
            rw [surplus_listed after, surplus_listed found]
            congr 1
            dsimp only [Doing.displaced, owned_nil]
            omega
        | none =>
            rw [found] at after
            rw [surplus_unlisted found, surplus_unlisted after]
            exact ⟨by rintro _ ⟨⟩, Or.inl⟩
  | count => exact surplus_unchanged rfl rfl
  | gc => exact surplus_unchanged rfl rfl
  | lookup => exact surplus_unchanged rfl rfl
  | @map maps maps' n seq input pieces lost done =>
      dsimp only at linked
      obtain ⟨number, own, small, below, -, ranges, apart⟩ := linked.ready
      rw [entryRanges, List.map_nil, List.append_nil] at apart
      obtain ⟨⟨-, info, -⟩, -, counts⟩ :=
        Maps.gc_section_spec linked.sound below ranges apart small done
      have balance := counts o
      cases found : maps.info[o]? with
      | some oi =>
          have differ : ¬(seq : ℤ) = o := by
            have := below.listed o oi found
            omega
          rw [if_neg differ] at balance
          refine surplus_unchanged ?_ rfl
          rw [surplus_listed (info ▸ found), surplus_listed found]
          congr 1
          dsimp only [Doing.displaced, owned_nil]
          omega
      | none =>
          rw [surplus_unlisted found, surplus_unlisted (info ▸ found)]
          refine ⟨by rintro _ ⟨⟩, fun _ => ?_⟩
          by_cases new : seq = o
          · subst new
            rw [if_pos rfl, below.owned linked.sound] at balance
            rw [Doing.pending, if_pos rfl, Option.map_some]
            refine Or.inr (congrArg some ?_)
            dsimp only [Doing.displaced]
            omega
          · rw [Doing.pending, if_neg new]
            exact Or.inl rfl
  | @charge maps maps' n seq d rest oi done =>
      dsimp only at linked
      obtain ⟨-, own, -, within, others, -⟩ := linked.ready
      obtain ⟨objmap, table⟩ := Maps.charge_one_spec (within d (by simp)).1 done
      have after := table o
      cases found : maps.info[o]? with
      | some other =>
          rw [found] at after
          refine surplus_unchanged ?_ (listedSkip (by simp [found]))
          rw [surplus_listed after, surplus_listed found, objmap]
          congr 1
          dsimp only [Doing.displaced]
          rw [owned_cons, owned_cons, owned_nil]
          omega
      | none =>
          rw [found] at after
          rw [surplus_unlisted found, surplus_unlisted after, objmap]
          by_cases waits : seq = o
          · subst waits
            rw [ownSkip own]
            simp only [Doing.displaced, owned_cons, if_neg (others d (by simp)), zero_add, add_zero]
            exact ⟨fun n same => same, Or.inl⟩
          · dsimp only [Doing.pending]
            rw [if_neg waits]
            exact ⟨by rintro _ ⟨⟩, Or.inl⟩
  | @enter maps n seq oi =>
      dsimp only at linked
      refine surplus_unchanged ?_ rfl
      unfold surplus entry
      dsimp only [Maps.enter, Doing.pending, Doing.displaced]
      rw [table_insert, Option.or_none]
      split
      · next same => rw [← same, linked.ready.fresh, Option.none_or]
      · rw [Option.or_none]
  | ckpt => exact surplus_unchanged rfl rfl

end Surplus

/-! ## Whole runs -/

/-- An idle worker, exact counts, and every own number in the map listed. -/
structure Shared.Settled (lastBase : ℕ) (s : Shared σ) : Prop where
  idle : s.doing = .idle
  consistent : s.maps.Consistent
  below : s.maps.Below s.nextSeq
  own : lastBase < s.nextSeq
  listed : s.Listed lastBase

def Shared.Exact (s : Shared σ) : Prop := ∀ o n, s.surplus o = some n → n = 0

def Shared.Drifted (s : Shared σ) : Prop := ∃ o n, s.surplus o = some n ∧ 0 < n

/-- What every step keeps: no entry has less than is mapped and still to be charged. -/
structure Shared.Covered (lastBase : ℕ) (s : Shared σ) : Prop where
  linked : s.Linked lastBase
  nonneg : ∀ o n, s.surplus o = some n → 0 ≤ n

section Runs

variable {lastBase : ℕ} {s t : Shared σ} {turn : Turn σ} {turns : List (Turn σ)}

theorem Stepped.next_seq_le (stepped : Stepped s turn t) : t.nextSeq ≤ s.nextSeq + 1 := by
  cases stepped <;> simp

theorem numbered_along (proper : ∀ turn ∈ turns, turn.Proper)
    (numbers : s.nextSeq + turns.length ≤ 2 ^ 31) :
    Along Shared.step (fun s turn => turn.Proper ∧ s.nextSeq < 2 ^ 31) s turns := by
  induction turns generalizing s with
  | nil => trivial
  | cons turn turns ih =>
      rw [List.length_cons] at numbers
      refine ⟨⟨proper turn (by simp), by omega⟩, ?_⟩
      intro next took
      have := (Shared.stepped took).next_seq_le
      exact ih (fun other member => proper other (by simp [member])) (by omega)

theorem Shared.Covered.step (covered : s.Covered lastBase) (proper : turn.Proper)
    (bound : s.nextSeq < 2 ^ 31) (stepped : Stepped s turn t) : t.Covered lastBase := by
  refine ⟨covered.linked.step proper bound stepped, ?_⟩
  intro o n after
  obtain ⟨grown, new⟩ := covered.linked.surplus_step proper bound stepped o
  cases before : s.surplus o with
  | some m =>
      rw [grown m before] at after
      have := covered.nonneg o m before
      have := (covered.linked.skipped_eq proper bound stepped o).1
      have := Option.some.inj after
      omega
  | none =>
      rcases new before with none | zero
      · rw [none] at after
        cases after
      · rw [zero] at after
        exact (Option.some.inj after).le

theorem Shared.Linked.skipped_entry (linked : s.Linked lastBase) (proper : turn.Proper)
    (bound : s.nextSeq < 2 ^ 31) (stepped : Stepped s turn t) {o : ℕ} {n : ℤ}
    (present : s.surplus o = some n) (skips : s.skipped turn o ≠ 0) : lastBase < o := by
  have unlisted : s.maps.info[o]? = none := by
    by_contra listed
    exact skips (linked.skipped_listed proper bound stepped (Option.isSome_iff_ne_none.mpr listed))
  rw [surplus_unlisted unlisted] at present
  obtain ⟨oi, pending, -⟩ := Option.map_eq_some_iff.mp present
  obtain ⟨maps, next, doing⟩ := s
  unfold Shared.Linked at linked
  cases doing with
  | charging seq left entry =>
      dsimp only [Doing.pending] at pending
      split at pending
      · next same => exact same ▸ linked.ready.own
      · cases pending
  | idle => cases pending
  | counting seq dataSectors => cases pending
  | reading seq left input pieces => cases pending

theorem Shared.Exact.step (exact : s.Exact) (linked : s.Linked lastBase) (proper : turn.Proper)
    (bound : s.nextSeq < 2 ^ 31) (spares : s.Spares turn) (stepped : Stepped s turn t) :
    t.Exact := by
  intro o n after
  obtain ⟨grown, new⟩ := linked.surplus_step proper bound stepped o
  cases before : s.surplus o with
  | some m =>
      have kept : s.skipped turn o = 0 := by
        by_contra skips
        exact (linked.spares_iff proper bound stepped).mp spares
          ⟨o, linked.skipped_entry proper bound stepped before skips, skips⟩
      rw [grown m before, exact o m before, kept] at after
      exact (Option.some.inj after).symm
  | none =>
      rcases new before with none | zero
      · rw [none] at after
        cases after
      · rw [zero] at after
        exact (Option.some.inj after).symm

theorem Shared.Linked.entry_of_skips (linked : s.Linked lastBase) (proper : turn.Proper)
    (bound : s.nextSeq < 2 ^ 31) (stepped : Stepped s turn t) {o : ℕ} (own : lastBase < o)
    (skips : s.skipped turn o ≠ 0) : ∃ n, s.surplus o = some n := by
  have listed : ¬(s.maps.info[o]?).isSome := fun listed =>
    skips (linked.skipped_listed proper bound stepped listed)
  rw [Option.not_isSome_iff_eq_none] at listed
  rw [linked.skipped_own proper bound stepped own] at skips
  rw [surplus_unlisted listed]
  obtain ⟨maps, next, doing⟩ := s
  cases turn with
  | trim base limit =>
      dsimp only at skips
      split at skips
      · next waits =>
          cases doing with
          | charging seq left oi =>
              dsimp only [Doing.pending]
              rw [if_pos (Option.some.inj waits)]
              exact ⟨_, rfl⟩
          | idle => cases waits
          | counting seq dataSectors => cases waits
          | reading seq left input pieces => cases waits
      · exact absurd rfl skips
  | batch entries data => exact absurd rfl skips
  | count => exact absurd rfl skips
  | gc entries input => exact absurd rfl skips
  | lookup => exact absurd rfl skips
  | map => exact absurd rfl skips
  | charge => exact absurd rfl skips
  | enter => exact absurd rfl skips
  | ckpt => exact absurd rfl skips

theorem Shared.Covered.drifts (covered : s.Covered lastBase) (proper : turn.Proper)
    (bound : s.nextSeq < 2 ^ 31) (stepped : Stepped s turn t)
    (broken : ¬s.Spares turn ∨ s.Drifted) : t.Drifted := by
  have linked := covered.linked
  rcases broken with unspared | ⟨o, n, present, positive⟩
  · rw [linked.spares_iff proper bound stepped, not_not] at unspared
    obtain ⟨o, own, skips⟩ := unspared
    obtain ⟨n, present⟩ := linked.entry_of_skips proper bound stepped own skips
    have := covered.nonneg o n present
    have := (linked.skipped_eq proper bound stepped o).1
    exact ⟨o, _, (linked.surplus_step proper bound stepped o).1 n present, by omega⟩
  · have := (linked.skipped_eq proper bound stepped o).1
    exact ⟨o, _, (linked.surplus_step proper bound stepped o).1 n present, by omega⟩

theorem Shared.Settled.covered (settled : s.Settled lastBase) :
    s.Covered lastBase ∧ s.Exact := by
  obtain ⟨maps, n, doing⟩ := s
  obtain ⟨idle, consistent, below, own, listed⟩ := settled
  obtain rfl : doing = .idle := idle
  have exact : Shared.Exact (⟨maps, n, .idle⟩ : Shared σ) := by
    intro o surplus present
    cases found : maps.info[o]? with
    | some oi =>
        rw [surplus_listed found, consistent.exact o oi found] at present
        simpa [Doing.displaced] using (Option.some.inj present).symm
    | none =>
        rw [surplus_unlisted found] at present
        cases present
  refine ⟨⟨⟨consistent.sound, below, own, ?_, trivial⟩, fun o m present => (exact o m present).ge⟩,
    exact⟩
  intro x p found isOwn
  exact Or.inl (listed x p found isOwn)

theorem Shared.Settled.run_covered (start : s.Settled lastBase)
    (proper : ∀ turn ∈ turns, turn.Proper) (numbers : s.nextSeq + turns.length ≤ 2 ^ 31)
    (ran : run Shared.step s turns = some t) : t.Covered lastBase :=
  invariant_along (fun _ _ _ covered allowed took => covered.step allowed.1 allowed.2 (stepped took))
    start.covered.1 (numbered_along proper numbers) ran

/-- In every state of a run, the own numbers in the map are listed exactly if no object
that `write_gc` has still to enter has sectors mapped to it. No step skips an own extent
exactly if every trim spares the object that waits for its entry, and once the worker is
idle no live count exceeds what is mapped exactly in those runs; it then equals it. -/
theorem map_and_table_agree (start : s.Settled lastBase) (proper : ∀ turn ∈ turns, turn.Proper)
    (numbers : s.nextSeq + turns.length ≤ 2 ^ 31) (ran : run Shared.step s turns = some t) :
    (t.Listed lastBase ↔ ¬t.Exposed) ∧
      (Along Shared.step Shared.Spares s turns ↔
        Along Shared.step (fun s turn => ¬s.Skips lastBase turn) s turns) ∧
      (t.doing = .idle → (Along Shared.step Shared.Spares s turns ↔
        ∀ (o : ℕ) (oi : ObjInfo), t.maps.info[o]? = some oi →
          oi.live ≤ {x : ℤ | ∃ p, locate t.maps.objmap x = some p ∧ p.obj = o}.ncard)) := by
  have along := numbered_along proper numbers
  obtain ⟨covered, exact⟩ := start.covered
  have covers : ∀ (s : Shared σ) turn next, s.Covered lastBase →
      turn.Proper ∧ s.nextSeq < 2 ^ 31 → s.step turn = some next → next.Covered lastBase :=
    fun s turn next covered allowed took => covered.step allowed.1 allowed.2 (Shared.stepped took)
  have final := start.run_covered proper numbers ran
  refine ⟨final.linked.listed_iff, ?_, ?_⟩
  · refine along_iff covers ?_ covered along ran
    intro s turn next covered allowed took
    exact covered.linked.spares_iff allowed.1 allowed.2 (Shared.stepped took)
  · intro idle
    have surplus : ∀ (o : ℕ) (oi : ObjInfo), t.maps.info[o]? = some oi → t.surplus o =
        some (oi.live - {x : ℤ | ∃ p, locate t.maps.objmap x = some p ∧ p.obj = o}.ncard) := by
      intro o oi present
      rw [Shared.surplus_listed present, idle, ← (owned_eq_ncard final.linked.sound o).1]
      simp [Doing.displaced]
    constructor
    · intro spared o oi present
      have keeps : ∀ (s : Shared σ) turn next, s.Covered lastBase ∧ s.Exact →
          (turn.Proper ∧ s.nextSeq < 2 ^ 31) ∧ s.Spares turn → s.step turn = some next →
            next.Covered lastBase ∧ next.Exact :=
        fun s turn next both allowed took => ⟨covers s turn next both.1 allowed.1 took,
          both.2.step both.1.linked allowed.1.1 allowed.1.2 allowed.2 (Shared.stepped took)⟩
      have exactly := invariant_along keeps ⟨covered, exact⟩ (along.and spared) ran
      have := exactly.2 o _ (surplus o oi present)
      omega
    · intro bounded
      by_contra unspared
      have drifted : t.Drifted := by
        refine marked_of_not_along covers ?_ covered along ran (Or.inl unspared)
        intro s turn next covered allowed took broken
        exact covered.drifts allowed.1 allowed.2 (Shared.stepped took) broken
      obtain ⟨o, n, present, positive⟩ := drifted
      cases found : t.maps.info[o]? with
      | some oi =>
          rw [surplus o oi found] at present
          have := bounded o oi found
          have := Option.some.inj present
          omega
      | none =>
          rw [Shared.surplus_unlisted found, idle] at present
          cases present

end Runs

theorem empty_settled : Shared.Settled 0 (⟨Maps.empty, 1, .idle⟩ : Shared ℕ) :=
  ⟨rfl, Maps.empty_consistent,
    ⟨by simp [Maps.empty, locate, Extmap.empty, Extmap.extents], by simp [Maps.empty]⟩, by decide,
    by simp [Shared.Listed, Maps.empty, locate, Extmap.empty, Extmap.extents]⟩

def sparingTurns : List (Turn ℕ) :=
  [.batch [⟨0, 4, 0, 0⟩] [1, 2, 3, 4], .count, .gc [⟨0, 2, 1, 8⟩] [1, 2], .lookup, .map,
    .trim 2 3, .charge, .enter]

theorem sparing_turns_proper : ∀ turn ∈ sparingTurns, turn.Proper := by
  simp only [sparingTurns, List.forall_mem_cons, Turn.Proper]
  refine ⟨⟨?_, rfl⟩, trivial, ⟨⟨?_, rfl⟩, ?_⟩, trivial, trivial, by decide, trivial, trivial, by simp⟩
  · unfold Proper
    decide
  · unfold Proper
    decide
  · unfold Apart
    decide

theorem map_and_table_agree_sparing : ∃ t,
    run Shared.step ⟨Maps.empty, 1, .idle⟩ sparingTurns = some t ∧ t.Listed 0 ∧
      ∀ (o : ℕ) (oi : ObjInfo), t.maps.info[o]? = some oi →
        oi.live ≤ {x : ℤ | ∃ p, locate t.maps.objmap x = some p ∧ p.obj = o}.ncard := by
  obtain ⟨t, ran, isIdle⟩ := Option.map_eq_some_iff.mp (by decide +kernel :
    (run Shared.step ⟨Maps.empty, 1, .idle⟩ sparingTurns).map
      (fun t => t.doing.isIdle) = some true)
  have idle : t.doing = .idle := Doing.is_idle_iff.mp isIdle
  obtain ⟨listed, -, counts⟩ :=
    map_and_table_agree empty_settled sparing_turns_proper (by decide) ran
  refine ⟨t, ran, ?_, ?_⟩
  · rw [listed]
    rintro ⟨o, x, p, waits, -⟩
    rw [idle] at waits
    cases waits
  · rw [← counts idle]
    -- before the trim the new object is number 2, and sector 2 is still in object 1
    obtain ⟨mid, before, seen⟩ := Option.map_eq_some_iff.mp (by decide +kernel :
      (run Shared.step ⟨Maps.empty, 1, .idle⟩ (sparingTurns.take 5)).map
        (fun t => (t.doing.unentered, locate t.maps.objmap 2)) = some (some 2, some ⟨1, 10⟩))
    obtain ⟨unentered, located⟩ := Prod.mk.inj seen
    rw [← List.take_append_drop 5 sparingTurns, along_append]
    refine ⟨⟨trivial, fun _ _ => ⟨trivial, fun _ _ => ⟨trivial, fun _ _ => ⟨trivial, fun _ _ =>
      ⟨trivial, fun _ _ => trivial⟩⟩⟩⟩⟩, ?_⟩
    intro reached same
    cases before.symm.trans same
    refine ⟨?_, fun _ _ => ⟨trivial, fun _ _ => ⟨trivial, fun _ _ => trivial⟩⟩⟩
    intro o x p waits low high found
    obtain rfl : x = 2 := by omega
    rw [unentered] at waits
    rw [located] at found
    rw [← Option.some.inj waits, ← Option.some.inj found]
    decide

def movingTurns : List (Turn ℕ) :=
  [.batch [⟨0, 2, 0, 0⟩] [1, 2], .count, .gc [⟨0, 2, 1, 8⟩] [1, 2], .lookup, .map]

def trimmingTurns : List (Turn ℕ) := [.trim 0 1, .charge, .enter]

theorem moving_turns_proper : ∀ turn ∈ movingTurns ++ trimmingTurns, turn.Proper := by
  simp only [movingTurns, trimmingTurns, List.cons_append, List.nil_append, List.forall_mem_cons,
    Turn.Proper]
  refine ⟨⟨?_, rfl⟩, trivial, ⟨⟨?_, rfl⟩, ?_⟩, trivial, trivial, by decide, trivial, trivial, by simp⟩
  · unfold Proper
    decide
  · unfold Proper
    decide
  · unfold Apart
    decide

/-- Before the trim the map has a number that is not listed; the trim skips its sector,
and the object is left with two live sectors and one that is mapped. -/
theorem trim_skips_moved_sector : ∃ mid t,
    run Shared.step ⟨Maps.empty, 1, .idle⟩ movingTurns = some mid ∧ ¬mid.Listed 0 ∧
      mid.Skips 0 (.trim 0 1) ∧ run Shared.step mid trimmingTurns = some t ∧ t.doing = .idle ∧
      t.maps.info[2]? = some ⟨8, 2, 2⟩ ∧
      {x : ℤ | ∃ p, locate t.maps.objmap x = some p ∧ p.obj = (2 : ℕ)}.ncard = 1 := by
  obtain ⟨mid, moved, seen⟩ := Option.map_eq_some_iff.mp (by decide +kernel :
    (run Shared.step ⟨Maps.empty, 1, .idle⟩ movingTurns).map (fun mid =>
      (locate mid.maps.objmap 0, mid.maps.info[2]?, mid.skipped (.trim 0 1) 2)) =
        some (some ⟨2, 8⟩, none, 1))
  obtain ⟨located, seen⟩ := Prod.mk.inj seen
  obtain ⟨unlisted, skipped⟩ := Prod.mk.inj seen
  obtain ⟨t, ran, left⟩ := Option.map_eq_some_iff.mp (by decide +kernel :
    (run Shared.step ⟨Maps.empty, 1, .idle⟩ (movingTurns ++ trimmingTurns)).map (fun t =>
      (t.doing.isIdle, t.maps.info[2]?,
        owned 2 t.maps.objmap.extents)) = some (true, some ⟨8, 2, 2⟩, 1))
  obtain ⟨isIdle, left⟩ := Prod.mk.inj left
  obtain ⟨entry, mapped⟩ := Prod.mk.inj left
  have sound := (empty_settled.run_covered moving_turns_proper (by decide) ran).linked.sound
  obtain ⟨between, same, trimmed⟩ := (run_append_eq_some _).mp ran
  cases moved.symm.trans same
  refine ⟨mid, t, moved, ?_, ⟨2, by decide, by rw [skipped]; decide⟩, trimmed, ?_, entry, ?_⟩
  · intro listed
    have present := listed 0 ⟨2, 8⟩ located (by decide)
    rw [Maps.Lists, (by decide : infoKey ⟨2, 8⟩ = 2), unlisted] at present
    cases present
  · exact Doing.is_idle_iff.mp isIdle
  · have count := (owned_eq_ncard sound (2 : ℕ)).1
    rw [Nat.cast_ofNat, mapped] at count
    exact_mod_cast count.symm

end LsvdRbd.Translate
