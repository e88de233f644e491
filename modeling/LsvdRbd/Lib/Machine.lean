import Mathlib.Tactic

/-!
# Runs of a partial step function

A machine is a step function that may have no continuation. `run` carries out a
list of actions; `Along` says that every action of a run meets a condition on the
state it is taken in. Invariants are proved for one step and hold at the end of
every run whose actions meet the condition.
-/

namespace LsvdRbd.Machine

set_option autoImplicit false

variable {S A : Type*} (step : S → A → Option S)

/-- Carry out the actions from the left. -/
def run (s : S) (acts : List A) : Option S := acts.foldlM step s

@[simp] theorem run_nil (s : S) : run step s [] = some s := rfl

theorem run_cons (s : S) (a : A) (acts : List A) :
    run step s (a :: acts) = (step s a).bind fun next => run step next acts := rfl

theorem run_cons_eq_some {s t : S} {a : A} {acts : List A} :
    run step s (a :: acts) = some t ↔ ∃ next, step s a = some next ∧ run step next acts = some t :=
  by rw [run_cons, Option.bind_eq_some_iff]

theorem run_append_eq_some {s t : S} {front back : List A} :
    run step s (front ++ back) = some t ↔
      ∃ mid, run step s front = some mid ∧ run step mid back = some t := by
  rw [run, List.foldlM_append]
  exact Option.bind_eq_some_iff

/-- Every action of the run meets the condition in the state it is taken in. -/
def Along (allowed : S → A → Prop) : S → List A → Prop
  | _, [] => True
  | s, a :: acts => allowed s a ∧ ∀ next, step s a = some next → Along allowed next acts

instance decidableAlong (allowed : S → A → Prop) [∀ s a, Decidable (allowed s a)] :
    ∀ s acts, Decidable (Along step allowed s acts)
  | _, [] => .isTrue trivial
  | s, a :: acts =>
      match found : step s a with
      | none => decidable_of_iff (allowed s a) (by simp [Along, found])
      | some next =>
          have := decidableAlong allowed next acts
          decidable_of_iff (allowed s a ∧ Along step allowed next acts) (by simp [Along, found])

theorem along_append {allowed : S → A → Prop} {s : S} {front back : List A} :
    Along step allowed s (front ++ back) ↔ Along step allowed s front ∧
      ∀ mid, run step s front = some mid → Along step allowed mid back := by
  induction front generalizing s with
  | nil => simp [Along]
  | cons a front ih =>
      simp only [List.cons_append, Along, ih, run_cons_eq_some]
      grind

variable {step}

theorem along_of_forall {P : A → Prop} {acts : List A} (each : ∀ a ∈ acts, P a) (s : S) :
    Along step (fun _ a => P a) s acts := by
  induction acts generalizing s with
  | nil => trivial
  | cons a acts ih =>
      exact ⟨each a (by simp), fun next _ => ih (fun other member => each other (by simp [member])) next⟩

theorem Along.and_forall {allowed : S → A → Prop} {P : A → Prop} {s : S} {acts : List A}
    (along : Along step allowed s acts) (each : ∀ a ∈ acts, P a) :
    Along step (fun s a => allowed s a ∧ P a) s acts := by
  induction acts generalizing s with
  | nil => trivial
  | cons a acts ih =>
      refine ⟨⟨along.1, each a (by simp)⟩, ?_⟩
      intro next stepped
      exact ih (along.2 next stepped) fun other member => each other (by simp [member])

theorem Along.imp {first second : S → A → Prop} {s : S} {acts : List A}
    (weaker : ∀ s a, first s a → second s a) (along : Along step first s acts) :
    Along step second s acts := by
  induction acts generalizing s with
  | nil => trivial
  | cons a acts ih => exact ⟨weaker s a along.1, fun next stepped => ih (along.2 next stepped)⟩

theorem Along.and {first second : S → A → Prop} {s : S} {acts : List A}
    (along : Along step first s acts) (also : Along step second s acts) :
    Along step (fun s a => first s a ∧ second s a) s acts := by
  induction acts generalizing s with
  | nil => trivial
  | cons a acts ih =>
      exact ⟨⟨along.1, also.1⟩, fun next stepped => ih (along.2 next stepped) (also.2 next stepped)⟩

/-- What every allowed step keeps holds after every allowed run. -/
theorem invariant_along {inv : S → Prop} {allowed : S → A → Prop}
    (keeps : ∀ s a next, inv s → allowed s a → step s a = some next → inv next)
    {s t : S} {acts : List A} (start : inv s) (along : Along step allowed s acts)
    (ran : run step s acts = some t) : inv t := by
  induction acts generalizing s with
  | nil =>
      cases ran
      exact start
  | cons a acts ih =>
      obtain ⟨next, stepped, rest⟩ := (run_cons_eq_some step).mp ran
      exact ih (keeps s a next start along.1 stepped) (along.2 next stepped) rest

theorem along_iff {inv : S → Prop} {allowed first second : S → A → Prop}
    (keeps : ∀ s a next, inv s → allowed s a → step s a = some next → inv next)
    (agree : ∀ s a next, inv s → allowed s a → step s a = some next → (first s a ↔ second s a))
    {s t : S} {acts : List A} (start : inv s) (along : Along step allowed s acts)
    (ran : run step s acts = some t) : Along step first s acts ↔ Along step second s acts := by
  induction acts generalizing s with
  | nil => exact Iff.rfl
  | cons a acts ih =>
      obtain ⟨mid, stepped, rest⟩ := (run_cons_eq_some step).mp ran
      have later := ih (keeps s a mid start along.1 stepped) (along.2 mid stepped) rest
      simp only [Along, agree s a mid start along.1 stepped, stepped, Option.some.injEq,
        forall_eq', later]

/-- A mark that every action keeps and that an action leaves when it breaks a condition. -/
theorem marked_of_not_along {inv marked : S → Prop} {allowed kept : S → A → Prop}
    (keeps : ∀ s a next, inv s → allowed s a → step s a = some next → inv next)
    (marks : ∀ s a next, inv s → allowed s a → step s a = some next →
      ¬kept s a ∨ marked s → marked next)
    {s t : S} {acts : List A} (start : inv s) (along : Along step allowed s acts)
    (ran : run step s acts = some t) (broken : ¬Along step kept s acts ∨ marked s) : marked t := by
  induction acts generalizing s with
  | nil =>
      cases ran
      exact broken.resolve_left (not_not_intro trivial)
  | cons a acts ih =>
      obtain ⟨mid, stepped, rest⟩ := (run_cons_eq_some step).mp ran
      refine ih (keeps s a mid start along.1 stepped) (along.2 mid stepped) rest ?_
      by_cases here : kept s a ∧ ¬marked s
      · refine Or.inl fun later => ?_
        refine (broken.resolve_right here.2) ⟨here.1, ?_⟩
        intro next other
        exact Option.some.inj (stepped.symm.trans other) ▸ later
      · refine Or.inr (marks s a mid start along.1 stepped ?_)
        rwa [not_and_or, not_not] at here

theorem tracked_along {X : Type*} {inv : X → S → Prop} {next : X → A → X}
    {allowed : S → A → Prop}
    (keeps : ∀ x s a t, inv x s → allowed s a → step s a = some t → inv (next x a) t)
    {x : X} {s t : S} {acts : List A} (start : inv x s) (along : Along step allowed s acts)
    (ran : run step s acts = some t) : inv (acts.foldl next x) t := by
  induction acts generalizing x s with
  | nil =>
      cases ran
      exact start
  | cons a acts ih =>
      obtain ⟨mid, stepped, rest⟩ := (run_cons_eq_some step).mp ran
      exact ih (keeps x s a mid start along.1 stepped) (along.2 mid stepped) rest

theorem run_length_le {inv : S → Prop} {measure : S → ℕ}
    (keeps : ∀ s a next, inv s → step s a = some next → inv next ∧ measure next < measure s)
    {s t : S} {acts : List A} (start : inv s) (ran : run step s acts = some t) :
    acts.length ≤ measure s := by
  induction acts generalizing s with
  | nil => exact Nat.zero_le _
  | cons a acts ih =>
      obtain ⟨next, stepped, rest⟩ := (run_cons_eq_some step).mp ran
      obtain ⟨kept, lower⟩ := keeps s a next start stepped
      have := ih kept rest
      rw [List.length_cons]
      omega

/-- Where every step lowers a measure, some run cannot go on. -/
theorem exists_stuck {inv : S → Prop} {measure : S → ℕ}
    (keeps : ∀ s a next, inv s → step s a = some next → inv next ∧ measure next < measure s)
    {s : S} (start : inv s) : ∃ acts t, run step s acts = some t ∧ ∀ a, step t a = none := by
  induction bound : measure s using Nat.strong_induction_on generalizing s with
  | _ n ih =>
      by_cases stuck : ∀ a, step s a = none
      · exact ⟨[], s, rfl, stuck⟩
      · obtain ⟨a, goes⟩ := not_forall.mp stuck
        obtain ⟨next, stepped⟩ := Option.ne_none_iff_exists'.mp goes
        obtain ⟨kept, lower⟩ := keeps s a next start stepped
        obtain ⟨acts, t, ran, rest⟩ := ih (measure next) (bound ▸ lower) kept rfl
        exact ⟨a :: acts, t, (run_cons_eq_some step).mpr ⟨next, stepped, ran⟩, rest⟩

theorem invariant_run {inv : S → Prop} (keeps : ∀ s a next, inv s → step s a = some next → inv next)
    {s t : S} {acts : List A} (start : inv s) (ran : run step s acts = some t) : inv t := by
  induction acts generalizing s with
  | nil =>
      cases ran
      exact start
  | cons a acts ih =>
      obtain ⟨next, stepped, rest⟩ := (run_cons_eq_some step).mp ran
      exact ih (keeps s a next start stepped) rest

/-- A machine that can follow every allowed step with steps of its own follows every allowed
run. -/
theorem follow_along {T B : Type*} {other : T → B → Option T} {rel : S → T → Prop}
    {allowed : S → A → Prop}
    (follows : ∀ s x a next, rel s x → allowed s a → step s a = some next →
      ∃ moves y, run other x moves = some y ∧ rel next y)
    {s t : S} {x : T} {acts : List A} (start : rel s x) (along : Along step allowed s acts)
    (ran : run step s acts = some t) : ∃ moves y, run other x moves = some y ∧ rel t y := by
  induction acts generalizing s x with
  | nil =>
      cases ran
      exact ⟨[], x, rfl, start⟩
  | cons a acts ih =>
      obtain ⟨next, stepped, rest⟩ := (run_cons_eq_some step).mp ran
      obtain ⟨front, mid, moved, related⟩ := follows s x a next start along.1 stepped
      obtain ⟨back, y, finished, last⟩ := ih related (along.2 next stepped) rest
      exact ⟨front ++ back, y, (run_append_eq_some other).mpr ⟨mid, moved, finished⟩, last⟩

/-! ## A partial function on every element of a list -/

theorem map_m_eq_some_iff {α β : Type*} {f : α → Option β} {inputs : List α} {outputs : List β} :
    inputs.mapM f = some outputs ↔ List.Forall₂ (fun a b => f a = some b) inputs outputs := by
  induction inputs generalizing outputs with
  | nil =>
      rw [List.mapM_nil, List.forall₂_nil_left_iff]
      exact ⟨fun same => (Option.some.inj same).symm, fun same => congrArg some same.symm⟩
  | cons a rest ih =>
      simp only [List.mapM_cons, Option.bind_eq_bind, Option.bind_eq_some_iff, Option.pure_def,
        Option.some.injEq, List.forall₂_cons_left_iff, ih]
      constructor
      · rintro ⟨b, first, later, others, rfl⟩
        exact ⟨b, later, first, others, rfl⟩
      · rintro ⟨b, later, first, others, rfl⟩
        exact ⟨b, first, later, others, rfl⟩

theorem exists_map_m_iff {α β : Type*} {f : α → Option β} {inputs : List α} :
    (∃ outputs, inputs.mapM f = some outputs) ↔ ∀ a ∈ inputs, (f a).isSome = true := by
  induction inputs with
  | nil => simp
  | cons a rest ih =>
      rw [List.forall_mem_cons, ← ih, Option.isSome_iff_exists]
      simp only [List.mapM_cons, Option.bind_eq_bind, Option.bind_eq_some_iff, Option.pure_def,
        Option.some.injEq]
      constructor
      · rintro ⟨-, b, first, others, later, -⟩
        exact ⟨⟨b, first⟩, others, later⟩
      · rintro ⟨⟨b, first⟩, others, later⟩
        exact ⟨_, b, first, others, later, rfl⟩

end LsvdRbd.Machine
