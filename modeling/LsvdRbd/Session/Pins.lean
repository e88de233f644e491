import LsvdRbd.Session.Coherence

/-!
# Objects that are being read

`object_read_start` and `object_read_end` keep `obj_read_refcount`, and `do_gc` asks it
under `m` before it deletes an object. The first read is entered with the count zero, the
last is expected to find the count one, and what a cycle passes over is erased from the
object table all the same.
-/

namespace LsvdRbd.Session

open Machine

set_option autoImplicit false

variable {σ : Type*} {env : Env}

/-- A session with its pins. `reads` are the started reads that have not ended. -/
structure Pins (σ : Type*) where
  tx : Tx σ
  /-- `obj_read_refcount`. -/
  refcount : ℕ → Option ℤ
  reads : List ℕ
  /-- The objects that a cycle found without an entry and goes on to delete. -/
  cleared : List ℕ
  /-- The objects that a cycle found with one and passed over. -/
  skipped : List ℕ
  /-- The objects that were deleted while a read had not ended. -/
  torn : List ℕ

inductive PinEvent (σ : Type*)
  | act (a : Action σ)
  | readStart (o : ℕ)
  | readEnd (o : ℕ)
  | check (o : ℕ)

def Gc.candidates : Gc σ → List ℕ
  | .reaping _ _ left => left
  | .deleting (o :: _) => [o]
  | _ => []

def Gc.pass (o : ℕ) : Gc σ → Gc σ
  | .reaping maxObj dead left => .reaping maxObj dead (left.erase o)
  | .deleting (_ :: rest) => .deleting rest
  | phase => phase

/-- `object_read_start`. -/
def pin (o : ℕ) (refcount : ℕ → Option ℤ) : ℕ → Option ℤ :=
  match refcount o with
  | none => Function.update refcount o (some 0)
  | some n => Function.update refcount o (some (n + 1))

/-- `object_read_end`; the lookup enters a zero if there is nothing. -/
def unpin (o : ℕ) (refcount : ℕ → Option ℤ) : ℕ → Option ℤ :=
  let i := (refcount o).getD 0
  if i = 1 then Function.update refcount o none else Function.update refcount o (some (i - 1))

namespace Pins

def start (tx : Tx σ) : Pins σ := ⟨tx, fun _ => none, [], [], [], []⟩

variable (env) in
def step (s : Pins σ) : PinEvent σ → Option (Pins σ)
  | .act a =>
      if ∀ o ∈ s.tx.deletes a, o ∈ s.cleared then
        (Session.step env s.tx a).map fun tx => { s with
          tx := tx
          cleared := s.cleared.filter fun o => decide (o ∉ s.tx.deletes a)
          torn := (s.tx.deletes a).filter (fun o => decide (o ∈ s.reads)) ++ s.torn }
      else none
  | .readStart o => some { s with refcount := pin o s.refcount, reads := o :: s.reads }
  | .readEnd o =>
      if o ∈ s.reads then
        some { s with refcount := unpin o s.refcount, reads := s.reads.erase o }
      else none
  | .check o =>
      if o ∈ s.tx.gc.candidates ∧ o ∉ s.cleared then
        match s.refcount o with
        | none => some { s with cleared := o :: s.cleared }
        | some _ => some { s with
            tx := { s.tx with gc := s.tx.gc.pass o }
            skipped := o :: s.skipped }
      else none

/-- There is an entry exactly for the objects with a read that has not ended. -/
def Exact (s : Pins σ) : Prop := ∀ o, (s.refcount o).isSome = true ↔ o ∈ s.reads

/-- What was passed over is still in the object table. -/
def Retained (s : Pins σ) : Prop := ∀ o ∈ s.skipped, (s.tx.maps.info[o]?).isSome = true

/-- A read ends only while two others of the object have not. -/
def Nested (s : Pins σ) : PinEvent σ → Prop
  | .readEnd o => 3 ≤ s.reads.count o
  | _ => True

/-- No read starts between the check of an object and its deletion. -/
def Unraced (s : Pins σ) : PinEvent σ → Prop
  | .readStart o => o ∉ s.cleared
  | _ => True

def Unpinned (s : Pins σ) : PinEvent σ → Prop
  | .check o => s.refcount o = none
  | _ => True

instance (s : Pins σ) (e : PinEvent σ) : Decidable (s.Nested e) := by
  cases e <;> unfold Nested <;> infer_instance

instance (s : Pins σ) (e : PinEvent σ) : Decidable (s.Unraced e) := by
  cases e <;> unfold Unraced <;> infer_instance

instance (s : Pins σ) (e : PinEvent σ) : Decidable (s.Unpinned e) := by
  cases e <;> unfold Unpinned <;> infer_instance

/-! ## The count -/

def Tally (s : Pins σ) : Prop :=
  ∀ o, s.refcount o = if s.reads.count o = 0 then none else some ((s.reads.count o : ℤ) - 1)

variable {s t : Pins σ}

theorem Tally.exact (tally : s.Tally) : s.Exact := by
  intro o
  rw [tally o, ← List.count_pos_iff]
  split
  · next none => simp [none]
  · next some => simpa using Nat.pos_of_ne_zero some

theorem Tally.readStart (tally : s.Tally) (o : ℕ) :
    ({ s with refcount := pin o s.refcount, reads := o :: s.reads } : Pins σ).Tally := by
  intro other
  have before := tally o
  have pinned : pin o s.refcount = Function.update s.refcount o (some (s.reads.count o : ℤ)) := by
    by_cases none : s.reads.count o = 0
    · rw [if_pos none] at before
      simp [pin, before, none]
    · rw [if_neg none] at before
      simp [pin, before]
  simp only [pinned]
  by_cases same : other = o
  · subst same
    rw [Function.update_self, List.count_cons_self, if_neg (by omega)]
    simp
  · rw [List.count_cons_of_ne (Ne.symm same), Function.update_of_ne same]
    exact tally other

theorem Tally.readEnd (tally : s.Tally) {o : ℕ} (three : 3 ≤ s.reads.count o) :
    ({ s with refcount := unpin o s.refcount, reads := s.reads.erase o } : Pins σ).Tally := by
  intro other
  have before := tally o
  rw [if_neg (by omega)] at before
  simp only [unpin, before, Option.getD_some]
  rw [if_neg (by omega)]
  by_cases same : other = o
  · subst same
    rw [Function.update_self, List.count_erase_self, if_neg (by omega)]
    congr 1
    omega
  · rw [Function.update_of_ne same, List.count_erase_of_ne same]
    exact tally other

variable {e : PinEvent σ}

theorem Tally.step (tally : s.Tally) (nested : s.Nested e) (stepped : s.step env e = some t) :
    t.Tally := by
  cases e with
  | act a =>
      simp only [Pins.step, Option.ite_none_right_eq_some] at stepped
      obtain ⟨-, moved⟩ := stepped
      obtain ⟨tx, -, rfl⟩ := Option.map_eq_some_iff.mp moved
      exact tally
  | readStart o =>
      cases stepped
      exact tally.readStart o
  | readEnd o =>
      simp only [Pins.step, Option.ite_none_right_eq_some, Option.some.injEq] at stepped
      obtain ⟨-, rfl⟩ := stepped
      exact tally.readEnd nested
  | check o =>
      simp only [Pins.step, Option.ite_none_right_eq_some] at stepped
      obtain ⟨-, checked⟩ := stepped
      split at checked <;> obtain rfl := Option.some.inj checked <;> exact tally

/-- With one read the entry stays, with two it goes too early. -/
theorem Tally.readEnd_exact_iff {o : ℕ} (tally : s.Tally) (stepped : s.step env (.readEnd o) = some t) :
    t.Exact ↔ 3 ≤ s.reads.count o := by
  simp only [Pins.step, Option.ite_none_right_eq_some, Option.some.injEq] at stepped
  obtain ⟨reading, rfl⟩ := stepped
  constructor
  · intro exact_after
    have here := exact_after o
    have before := tally o
    have positive := List.count_pos_iff.mpr reading
    rw [if_neg (by omega)] at before
    rw [← List.count_pos_iff, List.count_erase_self] at here
    simp only [unpin, before, Option.getD_some] at here
    by_contra few
    split at here
    · rw [Function.update_self] at here
      simp only [Option.isSome_none, Bool.false_eq_true, false_iff] at here
      omega
    · rw [Function.update_self] at here
      simp only [Option.isSome_some, true_iff] at here
      omega
  · exact fun three => (tally.readEnd three).exact

/-! ## Deletions -/

structure Parted (s : Pins σ) : Prop where
  tally : s.Tally
  unread : ∀ o ∈ s.cleared, o ∉ s.reads
  untorn : s.torn = []

theorem Parted.step (parted : s.Parted) (nested : s.Nested e) (unraced : s.Unraced e)
    (stepped : s.step env e = some t) : t.Parted := by
  have tally := parted.tally.step nested stepped
  cases e with
  | act a =>
      simp only [Pins.step, Option.ite_none_right_eq_some] at stepped
      obtain ⟨cleared, moved⟩ := stepped
      obtain ⟨tx, -, rfl⟩ := Option.map_eq_some_iff.mp moved
      refine ⟨tally, fun o member => parted.unread o (List.mem_filter.mp member).1, ?_⟩
      simp only [parted.untorn, List.append_nil, List.filter_eq_nil_iff, decide_eq_true_eq]
      exact fun o deleted => parted.unread o (cleared o deleted)
  | readStart o =>
      cases stepped
      refine ⟨tally, ?_, parted.untorn⟩
      intro other member
      rw [List.mem_cons, not_or]
      refine ⟨?_, parted.unread other member⟩
      rintro rfl
      exact unraced member
  | readEnd o =>
      simp only [Pins.step, Option.ite_none_right_eq_some, Option.some.injEq] at stepped
      obtain ⟨-, rfl⟩ := stepped
      exact ⟨tally, fun other member reading =>
        parted.unread other member (List.mem_of_mem_erase reading), parted.untorn⟩
  | check o =>
      simp only [Pins.step, Option.ite_none_right_eq_some] at stepped
      obtain ⟨-, checked⟩ := stepped
      split at checked
      · next free =>
          cases checked
          refine ⟨tally, ?_, parted.untorn⟩
          intro other member
          rcases List.mem_cons.mp member with rfl | before
          · intro reading
            rw [← parted.tally.exact other, free] at reading
            cases reading
          · exact parted.unread other before
      · cases checked
        exact ⟨tally, parted.unread, parted.untorn⟩

theorem unpinned_step (none : s.skipped = []) (unpinned : s.Unpinned e)
    (stepped : s.step env e = some t) : t.skipped = [] := by
  cases e with
  | act a =>
      simp only [Pins.step, Option.ite_none_right_eq_some] at stepped
      obtain ⟨-, moved⟩ := stepped
      obtain ⟨tx, -, rfl⟩ := Option.map_eq_some_iff.mp moved
      exact none
  | readStart o =>
      cases stepped
      exact none
  | readEnd o =>
      simp only [Pins.step, Option.ite_none_right_eq_some, Option.some.injEq] at stepped
      obtain ⟨-, rfl⟩ := stepped
      exact none
  | check o =>
      simp only [Pins.step, Option.ite_none_right_eq_some] at stepped
      obtain ⟨-, checked⟩ := stepped
      rw [show s.refcount o = Option.none from unpinned] at checked
      cases checked
      exact none

/-- A cycle erases the table entries of all objects that it found dead, and of all that it
has cleaned, whether it deletes them or not. -/
theorem cycle_erases {a : Action σ} {o : ℕ} (stepped : s.step env (.act a) = some t)
    (taken : (a = .gcErase ∧ ∃ maxObj dead, s.tx.gc = .reaping maxObj dead [] ∧ o ∈ dead) ∨
      a = .gcDone ∧ ∃ objs, s.tx.gc = .sending objs [] ∧ o ∈ objs.map Prod.fst) :
    t.tx.maps.info[o]? = none := by
  simp only [Pins.step, Option.ite_none_right_eq_some] at stepped
  obtain ⟨-, moved⟩ := stepped
  obtain ⟨tx, done, rfl⟩ := Option.map_eq_some_iff.mp moved
  rcases taken with ⟨rfl, maxObj, dead, phase, member⟩ | ⟨rfl, objs, phase, member⟩
  · simp only [Session.step, Tx.gcErase, phase] at done
    cases done
    rw [Tx.forget_info, if_pos member]
  · simp only [Session.step, Tx.gcDone, phase, Option.ite_none_right_eq_some] at done
    obtain ⟨-, same⟩ := done
    cases same
    rw [Tx.forget_info, if_pos member]

end Pins

/-- In every run in which a read ends only while two others of its object have not, there
is an entry exactly for the objects that are read, and an end keeps this only then. If in
addition no read starts between the check of an object and its deletion, no object is
deleted while it is read. What is passed over is retained if nothing is: a cycle erases the
table entries of all objects that it takes up. -/
theorem pins_hold {tx : Tx σ} {events : List (PinEvent σ)} {t : Pins σ}
    (ran : run (Pins.step env) (.start tx) events = some t) :
    (Along (Pins.step env) Pins.Nested (.start tx) events → t.Exact ∧
      ∀ o u, t.step env (.readEnd o) = some u → (u.Exact ↔ 3 ≤ t.reads.count o)) ∧
    (Along (Pins.step env) (fun s e => s.Nested e ∧ s.Unraced e) (.start tx) events →
      t.torn = []) ∧
    (Along (Pins.step env) Pins.Unpinned (.start tx) events → t.Retained) ∧
    ∀ a u o, t.step env (.act a) = some u →
      ((a = .gcErase ∧ ∃ maxObj dead, t.tx.gc = .reaping maxObj dead [] ∧ o ∈ dead) ∨
        a = .gcDone ∧ ∃ objs, t.tx.gc = .sending objs [] ∧ o ∈ objs.map Prod.fst) →
      u.tx.maps.info[o]? = none := by
  have begun : (Pins.start tx).Tally := fun o => by simp [Pins.start]
  refine ⟨?_, ?_, ?_, fun a u o stepped taken => Pins.cycle_erases stepped taken⟩
  · intro nested
    have tally : t.Tally := invariant_along
      (fun _ _ _ tally nested stepped => tally.step nested stepped) begun nested ran
    exact ⟨tally.exact, fun o u ended => tally.readEnd_exact_iff ended⟩
  · intro allowed
    have parted : t.Parted := invariant_along
      (fun _ _ _ parted allowed stepped => parted.step allowed.1 allowed.2 stepped)
      ⟨begun, by simp [Pins.start], rfl⟩ allowed ran
    exact parted.untorn
  · intro unpinned
    have none : t.skipped = [] := invariant_along
      (fun _ _ _ none unpinned stepped => Pins.unpinned_step none unpinned stepped) rfl unpinned
      ran
    simp [Pins.Retained, none]

def deadFound (between : List (PinEvent ℕ)) : List (PinEvent ℕ) :=
  [.act (.writev 8 [2] 0), .act (.flushThread 5000000), .act .work, .act (.complete 1),
    .act (.writev 8 [3] 0), .act (.flushThread 9000000), .act .work, .act (.complete 2)] ++ between ++
    [.act .gcStart, .act .gcDead, .check 1]

/-- Object 2 is read three times when the cycle deletes object 1. -/
theorem pins_hold_elsewhere : ∃ t,
    run (Pins.step smallEnv) (.start (Tx.create 1000000))
      (deadFound [.readStart 2, .readStart 2, .readStart 2, .readEnd 2] ++
        [.act (.gcReap 1), .act .gcErase]) = some t ∧
      t.reads = [2, 2] ∧ t.refcount 2 = some 1 ∧ t.tx.store.contains 1 = false ∧
      t.Exact ∧ t.torn = [] ∧ t.Retained := by
  obtain ⟨t, ran, held⟩ := (Option.any_eq_true _ _).mp
    (by decide +kernel : (run (Pins.step smallEnv) (.start (Tx.create 1000000))
      (deadFound [.readStart 2, .readStart 2, .readStart 2, .readEnd 2] ++
        [.act (.gcReap 1), .act .gcErase])).any (fun t => decide (t.reads = [2, 2] ∧
          t.refcount 2 = some 1 ∧ t.tx.store.contains 1 = false)) = true)
  obtain ⟨reads, count, gone⟩ := of_decide_eq_true held
  obtain ⟨entries, deletions, skips, -⟩ := pins_hold ran
  exact ⟨t, ran, reads, count, gone, (entries (by decide +kernel)).1,
    deletions (by decide +kernel), skips (by decide +kernel)⟩

/-- One read leaves an entry behind. Of two reads the first to end takes the entry away, and
the object is deleted under the other. An object that is passed over loses its table entry,
so that the next cycle, after the read, does not find it. -/
theorem pins_fail :
    (run (Pins.step smallEnv) (.start (Tx.create 1000000 : Tx ℕ)) [.readStart 1, .readEnd 1]).map
      (fun t => (t.refcount 1, t.reads)) = some (some (-1), []) ∧
    (run (Pins.step smallEnv) (.start (Tx.create 1000000))
      (deadFound [.readStart 1, .readStart 1, .readEnd 1] ++ [.act (.gcReap 1)])).map
      (fun t => (t.refcount 1, t.reads, t.torn)) = some (none, [1], [1]) ∧
    (run (Pins.step smallEnv) (.start (Tx.create 1000000)) (deadFound [.readStart 1] ++
      [.act .gcErase, .act .gcBound, .act (.gcSelect []), .readEnd 1, .act .gcStart,
        .act .gcDead])).map (fun t => (t.skipped, t.tx.maps.info[1]?.isSome, t.tx.store.contains 1,
          t.tx.gc.candidates)) = some ([1], false, true, []) := by
  refine ⟨?_, ?_, ?_⟩ <;> decide +kernel

end LsvdRbd.Session
