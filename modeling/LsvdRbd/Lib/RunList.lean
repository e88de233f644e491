import Mathlib.Algebra.Group.Action.Defs
import Mathlib.Algebra.Order.Group.Int
import Mathlib.Data.List.Pairwise
import Mathlib.Tactic

/-!
# Ordered lists of runs as partial functions

A run maps the integers `[base, base + len)` to consecutive locations that
start at `ptr`; the location type only has to let integers translate it. A
list of runs denotes a partial function from integers to locations, and the
ordered, non-overlapping lists are the ones for which every run is visible.
Nothing here depends on how such a list is stored or updated.
-/

namespace RunList

set_option autoImplicit false

variable {P : Type*}

@[ext] structure Run (P : Type*) where
  base : ℤ
  len : ℤ
  ptr : P
  deriving DecidableEq, Repr

def Run.limit (run : Run P) : ℤ := run.base + run.len

def Run.Contains (run : Run P) (x : ℤ) : Prop := run.base ≤ x ∧ x < run.limit

instance (run : Run P) (x : ℤ) : Decidable (run.Contains x) :=
  inferInstanceAs (Decidable (_ ∧ _))

/-- Every run is nonempty and ends before the next one begins. -/
structure Ordered (runs : List (Run P)) : Prop where
  positive : ∀ run ∈ runs, 0 < run.len
  separated : runs.Pairwise fun left right => left.limit ≤ right.base

theorem Ordered.nil : Ordered ([] : List (Run P)) :=
  ⟨by simp, List.Pairwise.nil⟩

theorem Ordered.nonempty {runs : List (Run P)} (ordered : Ordered runs) (run : Run P)
    (member : run ∈ runs) : run.base < run.limit :=
  lt_add_of_pos_right _ (ordered.positive run member)

theorem ordered_append (left right : List (Run P)) :
    Ordered (left ++ right) ↔ Ordered left ∧ Ordered right ∧
      ∀ a ∈ left, ∀ b ∈ right, a.limit ≤ b.base := by
  constructor
  · intro ordered
    have parts := List.pairwise_append.mp ordered.separated
    exact ⟨⟨fun run member => ordered.positive run (by simp [member]), parts.1⟩,
      ⟨fun run member => ordered.positive run (by simp [member]), parts.2.1⟩, parts.2.2⟩
  · rintro ⟨leftOrdered, rightOrdered, between⟩
    refine ⟨?_, List.pairwise_append.mpr
      ⟨leftOrdered.separated, rightOrdered.separated, between⟩⟩
    intro run member
    rcases List.mem_append.mp member with inLeft | inRight
    · exact leftOrdered.positive run inLeft
    · exact rightOrdered.positive run inRight

theorem ordered_cons (run : Run P) (rest : List (Run P)) :
    Ordered (run :: rest) ↔ 0 < run.len ∧ Ordered rest ∧
      ∀ later ∈ rest, run.limit ≤ later.base := by
  constructor
  · intro ordered
    have parts := List.pairwise_cons.mp ordered.separated
    exact ⟨ordered.positive run (by simp),
      ⟨fun later member => ordered.positive later (by simp [member]), parts.2⟩, parts.1⟩
  · rintro ⟨positive, rest, before⟩
    refine ⟨?_, List.pairwise_cons.mpr ⟨before, rest.separated⟩⟩
    intro later member
    rcases List.mem_cons.mp member with rfl | member
    · exact positive
    · exact rest.positive later member

theorem Ordered.sublist {runs part : List (Run P)} (ordered : Ordered runs)
    (inside : part.Sublist runs) : Ordered part :=
  ⟨fun run member => ordered.positive run (inside.mem member), ordered.separated.sublist inside⟩

theorem ordered_singleton (run : Run P) : Ordered [run] ↔ 0 < run.len := by
  simp [ordered_cons, Ordered.nil]

variable {run : Run P} {before after : List (Run P)}

theorem ordered_insert (ordered : Ordered (before ++ after)) (positive : 0 < run.len)
    (left : ∀ other ∈ before, other.limit ≤ run.base)
    (right : ∀ other ∈ after, run.limit ≤ other.base) : Ordered (before ++ run :: after) := by
  obtain ⟨first, second, apart⟩ := (ordered_append _ _).mp ordered
  refine (ordered_append _ _).mpr ⟨first, (ordered_cons _ _).mpr ⟨positive, second, right⟩, ?_⟩
  intro earlier inBefore later member
  rcases List.mem_cons.mp member with rfl | inAfter
  · exact left earlier inBefore
  · exact apart earlier inBefore later inAfter

theorem ordered_replace {old new : Run P} (ordered : Ordered (before ++ old :: after))
    (positive : 0 < new.len) (starts : old.base ≤ new.base) (ends : new.limit ≤ old.limit) :
    Ordered (before ++ new :: after) := by
  obtain ⟨first, second, apart⟩ := (ordered_append _ _).mp ordered
  obtain ⟨-, rest, beyond⟩ := (ordered_cons _ _).mp second
  have without : Ordered (before ++ after) := (ordered_append _ _).mpr
    ⟨first, rest, fun earlier inBefore later inAfter =>
      apart earlier inBefore later (List.mem_cons_of_mem _ inAfter)⟩
  refine ordered_insert without positive ?_ ?_
  · intro earlier inBefore
    exact (apart earlier inBefore old (List.mem_cons_self ..)).trans starts
  · intro later inAfter
    exact ends.trans (beyond later inAfter)

theorem ordered_span {left right whole : Run P}
    (ordered : Ordered (before ++ left :: right :: after)) (starts : whole.base = left.base)
    (ends : whole.limit = right.limit) : Ordered (before ++ whole :: after) := by
  obtain ⟨first, second, apart⟩ := (ordered_append _ _).mp ordered
  obtain ⟨leftPositive, third, leftBefore⟩ := (ordered_cons _ _).mp second
  obtain ⟨rightPositive, rest, rightBefore⟩ := (ordered_cons _ _).mp third
  have meets := leftBefore right (List.mem_cons_self ..)
  have without : Ordered (before ++ after) := (ordered_append _ _).mpr
    ⟨first, rest, fun earlier inBefore later inAfter => apart earlier inBefore later
      (List.mem_cons_of_mem _ (List.mem_cons_of_mem _ inAfter))⟩
  refine ordered_insert without ?_ ?_ ?_
  · unfold Run.limit at meets ends
    omega
  · intro earlier inBefore
    rw [starts]
    exact apart earlier inBefore left (List.mem_cons_self ..)
  · intro later inAfter
    rw [ends]
    exact rightBefore later inAfter

theorem exists_split {α : Type*} (p : α → Prop) [DecidablePred p] (list : List α) :
    ∃ left right, list = left ++ right ∧ (∀ a ∈ left, p a) ∧
      ∀ a rest, right = a :: rest → ¬p a := by
  induction list with
  | nil => exact ⟨[], [], rfl, by simp, by simp⟩
  | cons head tail ih =>
      by_cases holds : p head
      · obtain ⟨left, right, rfl, all, first⟩ := ih
        refine ⟨head :: left, right, rfl, ?_, first⟩
        intro a member
        rcases List.mem_cons.mp member with rfl | member
        · exact holds
        · exact all a member
      · refine ⟨[], head :: tail, rfl, by simp, ?_⟩
        intro a rest same
        rw [← (List.cons.inj same).1]
        exact holds

/-! ## The denoted partial function -/

section Denotation

variable [AddAction ℤ P]

def Run.locate (run : Run P) (x : ℤ) : Option P :=
  if run.Contains x then some ((x - run.base) +ᵥ run.ptr) else none

def get (runs : List (Run P)) (x : ℤ) : Option P :=
  runs.findSome? fun run => run.locate x

@[simp] theorem get_nil (x : ℤ) : get ([] : List (Run P)) x = none := rfl

theorem get_cons (run : Run P) (rest : List (Run P)) (x : ℤ) :
    get (run :: rest) x = (run.locate x).or (get rest x) := by
  simp only [get, List.findSome?_cons]
  cases run.locate x <;> rfl

theorem get_singleton (run : Run P) (x : ℤ) : get [run] x = run.locate x := by
  simp [get_cons]

theorem get_append (left right : List (Run P)) (x : ℤ) :
    get (left ++ right) x = (get left x).or (get right x) := by
  simp [get, List.findSome?_append]

variable {x : ℤ}

theorem locate_of_contains (inside : run.Contains x) :
    run.locate x = some ((x - run.base) +ᵥ run.ptr) := if_pos inside

theorem locate_of_not_contains (outside : ¬run.Contains x) :
    run.locate x = none := if_neg outside

theorem get_eq_none_iff (runs : List (Run P)) (x : ℤ) :
    get runs x = none ↔ ∀ run ∈ runs, ¬run.Contains x := by
  simp only [get, List.findSome?_eq_none_iff, Run.locate]
  constructor
  · intro allNone run member inside
    have := allNone run member
    simp [inside] at this
  · intro outside run member
    simp [outside run member]

theorem get_cons_of_limit_le (rest : List (Run P)) (beyond : run.limit ≤ x) :
    get (run :: rest) x = get rest x := by
  rw [get_cons, locate_of_not_contains (fun inside => by have := inside.2; omega)]
  rfl

variable {runs : List (Run P)}

theorem get_none_of_limit_le (left : ∀ run ∈ runs, run.limit ≤ x) : get runs x = none := by
  rw [get_eq_none_iff]
  intro run member inside
  have := left run member
  have := inside.2
  omega

theorem get_none_of_lt_base (right : ∀ run ∈ runs, x < run.base) : get runs x = none := by
  rw [get_eq_none_iff]
  intro run member inside
  have := right run member
  have := inside.1
  omega

theorem get_of_mem (ordered : Ordered runs) (member : run ∈ runs) (inside : run.Contains x) :
    get runs x = some ((x - run.base) +ᵥ run.ptr) := by
  obtain ⟨before, after, rfl⟩ := List.append_of_mem member
  have split := (ordered_append _ _).mp ordered
  have earlier : get before x = none := by
    apply get_none_of_limit_le
    intro other otherMember
    have := split.2.2 other otherMember run (by simp)
    have := inside.1
    omega
  rw [get_append, earlier, get_cons, locate_of_contains inside]
  rfl

theorem get_eq_some_iff (ordered : Ordered runs) (x : ℤ) (p : P) :
    get runs x = some p ↔
      ∃ run ∈ runs, run.Contains x ∧ p = (x - run.base) +ᵥ run.ptr := by
  constructor
  · intro found
    obtain ⟨run, member, located⟩ := List.exists_of_findSome?_eq_some found
    unfold Run.locate at located
    split at located
    · next inside => exact ⟨run, member, inside, (Option.some.inj located).symm⟩
    · cases located
  · rintro ⟨run, member, inside, rfl⟩
    exact get_of_mem ordered member inside

/-! ## Slices and cuts -/

def Run.slice (run : Run P) (b l : ℤ) : Run P :=
  ⟨b, l - b, (b - run.base) +ᵥ run.ptr⟩

@[simp] theorem slice_base (run : Run P) (b l : ℤ) : (run.slice b l).base = b := rfl

@[simp] theorem slice_len (run : Run P) (b l : ℤ) : (run.slice b l).len = l - b := rfl

@[simp] theorem slice_ptr (run : Run P) (b l : ℤ) :
    (run.slice b l).ptr = (b - run.base) +ᵥ run.ptr := rfl

@[simp] theorem slice_limit (run : Run P) (b l : ℤ) : (run.slice b l).limit = l := by
  simp [Run.limit]

theorem slice_self (run : Run P) : run.slice run.base run.limit = run := by
  ext
  · rfl
  · simp [Run.limit]
  · simp

theorem slice_slice (run : Run P) (b l b' l' : ℤ) :
    (run.slice b l).slice b' l' = run.slice b' l' := by
  ext
  · rfl
  · rfl
  · simp [vadd_vadd]

theorem slice_contains (run : Run P) (b l x : ℤ) :
    (run.slice b l).Contains x ↔ b ≤ x ∧ x < l := by
  simp [Run.Contains]

theorem locate_slice (run : Run P) (b l x : ℤ) (start : run.base ≤ b) (stop : l ≤ run.limit) :
    (run.slice b l).locate x = if b ≤ x ∧ x < l then run.locate x else none := by
  by_cases inside : b ≤ x ∧ x < l
  · rw [if_pos inside, locate_of_contains ((slice_contains run b l x).mpr inside),
      locate_of_contains ⟨by omega, by omega⟩, slice_ptr, slice_base, vadd_vadd]
    congr 2
    ring
  · rw [if_neg inside, locate_of_not_contains]
    rwa [slice_contains]

def Run.outside (b l : ℤ) (run : Run P) : List (Run P) :=
  (if run.base < b then [run.slice run.base (min run.limit b)] else []) ++
    (if l < run.limit then [run.slice (max run.base l) run.limit] else [])

def Run.inside (b l : ℤ) (run : Run P) : List (Run P) :=
  if run.base < l ∧ b < run.limit then [run.slice (max run.base b) (min run.limit l)] else []

variable {b l : ℤ}

theorem mem_outside {run part : Run P} (positive : 0 < run.len) (member : part ∈ run.outside b l) :
    part = run.slice part.base part.limit ∧ run.base ≤ part.base ∧ part.base < part.limit ∧
      part.limit ≤ run.limit ∧ (part.limit ≤ b ∨ l ≤ part.base) := by
  have limit : run.limit = run.base + run.len := rfl
  unfold Run.outside at member
  rcases List.mem_append.mp member with left | right
  · split at left
    · rw [List.mem_singleton.mp left]
      simp only [slice_base, slice_limit]
      refine ⟨trivial, ?_⟩
      omega
    · cases left
  · split at right
    · rw [List.mem_singleton.mp right]
      simp only [slice_base, slice_limit]
      refine ⟨trivial, ?_⟩
      omega
    · cases right

theorem get_outside (order : b ≤ l) (run : Run P) (x : ℤ) :
    get (run.outside b l) x = if b ≤ x ∧ x < l then none else run.locate x := by
  have left : get (if run.base < b then [run.slice run.base (min run.limit b)] else []) x =
      if x < b then run.locate x else none := by
    by_cases starts : run.base < b
    · rw [if_pos starts, get_singleton, locate_slice run _ _ _ (le_refl _) (min_le_left _ _)]
      by_cases below : x < b
      · rw [if_pos below]
        by_cases inside : run.Contains x
        · rw [if_pos ⟨inside.1, lt_min inside.2 below⟩]
        · rw [locate_of_not_contains inside, ite_self]
      · rw [if_neg below, if_neg (by omega)]
    · rw [if_neg starts, get_nil]
      by_cases below : x < b
      · rw [if_pos below, locate_of_not_contains]
        rintro ⟨lower, -⟩
        omega
      · rw [if_neg below]
  have right : get (if l < run.limit then [run.slice (max run.base l) run.limit] else []) x =
      if l ≤ x then run.locate x else none := by
    by_cases ends : l < run.limit
    · rw [if_pos ends, get_singleton, locate_slice run _ _ _ (le_max_left _ _) (le_refl _)]
      by_cases above : l ≤ x
      · rw [if_pos above]
        by_cases inside : run.Contains x
        · rw [if_pos ⟨max_le inside.1 above, inside.2⟩]
        · rw [locate_of_not_contains inside, ite_self]
      · rw [if_neg above, if_neg (by omega)]
    · rw [if_neg ends, get_nil]
      by_cases above : l ≤ x
      · rw [if_pos above, locate_of_not_contains]
        rintro ⟨-, upper⟩
        omega
      · rw [if_neg above]
  rw [Run.outside, get_append, left, right]
  by_cases below : x < b
  · rw [if_pos below, if_neg (by omega), if_neg (by omega), Option.or_none]
  · rw [if_neg below, Option.none_or]
    by_cases above : l ≤ x
    · rw [if_pos above, if_neg (by omega)]
    · rw [if_neg above, if_pos (by omega)]

theorem get_inside (run : Run P) (x : ℤ) :
    get (run.inside b l) x = if b ≤ x ∧ x < l then run.locate x else none := by
  unfold Run.inside
  by_cases meets : run.base < l ∧ b < run.limit
  · rw [if_pos meets, get_singleton,
      locate_slice run _ _ _ (le_max_left _ _) (min_le_left _ _)]
    by_cases inside : run.Contains x
    · have := inside.1
      have := inside.2
      congr 1
      exact propext ⟨by omega, by omega⟩
    · rw [locate_of_not_contains inside, ite_self, ite_self]
  · rw [if_neg meets, get_nil]
    by_cases between : b ≤ x ∧ x < l
    · rw [if_pos between, locate_of_not_contains]
      rintro ⟨lower, upper⟩
      omega
    · rw [if_neg between]

/-- Unmap `[b, l)`. -/
def cutOut (b l : ℤ) (runs : List (Run P)) : List (Run P) := runs.flatMap (Run.outside b l)

def cutIn (b l : ℤ) (runs : List (Run P)) : List (Run P) := runs.flatMap (Run.inside b l)

theorem get_flat_map (f : Run P → List (Run P)) (runs : List (Run P)) (x : ℤ) :
    get (runs.flatMap f) x = runs.findSome? fun run => get (f run) x := by
  induction runs with
  | nil => rfl
  | cons run rest ih =>
      rw [List.flatMap_cons, get_append, ih, List.findSome?_cons]
      cases get (f run) x <;> rfl

theorem get_cut_out (order : b ≤ l) (runs : List (Run P)) (x : ℤ) :
    get (cutOut b l runs) x = if b ≤ x ∧ x < l then none else get runs x := by
  simp only [cutOut, get_flat_map, get_outside order]
  by_cases between : b ≤ x ∧ x < l
  · simp [between]
  · simp [between, get]

theorem get_cut_in (b l : ℤ) (runs : List (Run P)) (x : ℤ) :
    get (cutIn b l runs) x = if b ≤ x ∧ x < l then get runs x else none := by
  simp only [cutIn, get_flat_map, get_inside]
  by_cases between : b ≤ x ∧ x < l
  · simp [between, get]
  · simp [between]

omit [AddAction ℤ P] in
theorem ordered_flat_map {f : Run P → List (Run P)} (ordered : Ordered runs)
    (pieces : ∀ run ∈ runs, Ordered (f run))
    (within : ∀ run ∈ runs, ∀ part ∈ f run, run.base ≤ part.base ∧ part.limit ≤ run.limit) :
    Ordered (runs.flatMap f) := by
  induction runs with
  | nil => exact Ordered.nil
  | cons run rest ih =>
      obtain ⟨-, restOrdered, before⟩ := (ordered_cons _ _).mp ordered
      rw [List.flatMap_cons, ordered_append]
      refine ⟨pieces run (by simp), ?_, ?_⟩
      · exact ih restOrdered (fun other member => pieces other (by simp [member]))
          (fun other member => within other (by simp [member]))
      · intro part inRun other inRest
        obtain ⟨later, inLater, inside⟩ := List.mem_flatMap.mp inRest
        have := (within run (by simp) part inRun).2
        have := (within later (by simp [inLater]) other inside).1
        have := before later inLater
        omega

theorem ordered_outside (order : b ≤ l) (positive : 0 < run.len) :
    Ordered (run.outside b l) := by
  have limit : run.limit = run.base + run.len := rfl
  unfold Run.outside
  rw [ordered_append]
  refine ⟨?_, ?_, ?_⟩
  · split
    · rw [ordered_singleton, slice_len]
      omega
    · exact Ordered.nil
  · split
    · rw [ordered_singleton, slice_len]
      omega
    · exact Ordered.nil
  · intro left inLeft right inRight
    split at inLeft
    · split at inRight
      · rw [List.mem_singleton.mp inLeft, List.mem_singleton.mp inRight, slice_limit, slice_base]
        omega
      · cases inRight
    · cases inLeft

theorem ordered_cut_out (order : b ≤ l) (ordered : Ordered runs) :
    Ordered (cutOut b l runs) := by
  apply ordered_flat_map ordered
  · intro run member
    exact ordered_outside order (ordered.positive run member)
  · intro run member part inside
    have := mem_outside (ordered.positive run member) inside
    exact ⟨this.2.1, this.2.2.2.1⟩

theorem cut_apart (order : b ≤ l) (run : Run P) (positive : 0 < run.len)
    (apart : run.limit ≤ b ∨ l ≤ run.base) : run.outside b l = [run] ∧ run.inside b l = [] := by
  have limit : run.limit = run.base + run.len := rfl
  refine ⟨?_, if_neg (by omega)⟩
  unfold Run.outside
  rcases apart with left | right
  · rw [if_pos (by omega), if_neg (by omega), min_eq_left left, slice_self]
    rfl
  · rw [if_neg (by omega), if_pos (by omega), max_eq_left right, slice_self]
    rfl

/-! The four ways a run can meet `[b, l)`. -/

theorem cut_bisected (order : b ≤ l) (starts : run.base < b) (ends : l < run.limit) :
    run.outside b l = [run.slice run.base b, run.slice l run.limit] ∧
      run.inside b l = [run.slice b l] := by
  unfold Run.outside Run.inside
  rw [if_pos starts, if_pos ends, if_pos (by omega), min_eq_right (by omega),
    max_eq_right (by omega), max_eq_right (by omega), min_eq_right (by omega)]
  exact ⟨rfl, rfl⟩

theorem cut_tail (starts : run.base < b) (reaches : b < run.limit) (ends : run.limit ≤ l) :
    run.outside b l = [run.slice run.base b] ∧ run.inside b l = [run.slice b run.limit] := by
  unfold Run.outside Run.inside
  rw [if_pos starts, if_neg (by omega), if_pos (by omega), min_eq_right (by omega),
    max_eq_right (by omega), min_eq_left (by omega)]
  exact ⟨rfl, rfl⟩

theorem cut_head (starts : b ≤ run.base) (reaches : run.base < l) (ends : l < run.limit) :
    run.outside b l = [run.slice l run.limit] ∧ run.inside b l = [run.slice run.base l] := by
  unfold Run.outside Run.inside
  rw [if_neg (by omega), if_pos ends, if_pos (by omega), max_eq_right (by omega),
    max_eq_left (by omega), min_eq_right (by omega)]
  exact ⟨rfl, rfl⟩

theorem cut_covered (positive : 0 < run.len) (starts : b ≤ run.base) (ends : run.limit ≤ l) :
    run.outside b l = [] ∧ run.inside b l = [run] := by
  have limit : run.limit = run.base + run.len := rfl
  unfold Run.outside Run.inside
  rw [if_neg (by omega), if_neg (by omega), if_pos (by omega), max_eq_left starts,
    min_eq_left ends, slice_self]
  exact ⟨rfl, rfl⟩

theorem cut_of_apart (order : b ≤ l) (positive : ∀ run ∈ runs, 0 < run.len)
    (apart : ∀ run ∈ runs, run.limit ≤ b ∨ l ≤ run.base) :
    cutOut b l runs = runs ∧ cutIn b l runs = [] := by
  induction runs with
  | nil => exact ⟨rfl, rfl⟩
  | cons run rest ih =>
      obtain ⟨outRest, inRest⟩ := ih (fun other member => positive other (by simp [member]))
        (fun other member => apart other (by simp [member]))
      obtain ⟨outRun, inRun⟩ := cut_apart order run (positive run (by simp)) (apart run (by simp))
      constructor
      · rw [cutOut, List.flatMap_cons, outRun]
        exact congrArg (run :: ·) outRest
      · rw [cutIn, List.flatMap_cons, inRun]
        exact inRest

/-! ## Joining neighbours -/

def Joins (left right : Run P) : Prop :=
  left.limit = right.base ∧ left.len +ᵥ left.ptr = right.ptr

def Run.join (left right : Run P) : Run P := ⟨left.base, left.len + right.len, left.ptr⟩

@[simp] theorem join_limit {left right : Run P} (joins : Joins left right) :
    (left.join right).limit = right.limit := by
  have meet := joins.1
  unfold Run.limit at meet
  change left.base + (left.len + right.len) = right.base + right.len
  omega

theorem locate_join {left right : Run P} (joins : Joins left right) (leftPositive : 0 < left.len)
    (rightPositive : 0 < right.len) (x : ℤ) :
    (left.join right).locate x = (left.locate x).or (right.locate x) := by
  have limit := join_limit joins
  have leftLimit : left.limit = left.base + left.len := rfl
  have rightLimit : right.limit = right.base + right.len := rfl
  have meet := joins.1
  by_cases inLeft : left.Contains x
  · have := inLeft.1
    have := inLeft.2
    have whole : (left.join right).Contains x := ⟨by simpa [Run.join], by omega⟩
    rw [locate_of_contains whole, locate_of_contains inLeft]
    rfl
  · rw [locate_of_not_contains inLeft, Option.none_or]
    by_cases inRight : right.Contains x
    · have := inRight.1
      have := inRight.2
      have whole : (left.join right).Contains x := ⟨by simp only [Run.join]; omega, by omega⟩
      rw [locate_of_contains whole, locate_of_contains inRight, ← joins.2, vadd_vadd]
      congr 2
      simp only [Run.join]
      omega
    · rw [locate_of_not_contains inRight, locate_of_not_contains]
      rintro ⟨lower, upper⟩
      rw [limit] at upper
      unfold Run.Contains at inLeft inRight
      have : (left.join right).base = left.base := rfl
      omega

/-- One pair of neighbours is replaced by its join. -/
inductive Merge : List (Run P) → List (Run P) → Prop
  | pair (front back : List (Run P)) (left right : Run P) (joins : Joins left right) :
      Merge (front ++ left :: right :: back) (front ++ left.join right :: back)

abbrev Merges : List (Run P) → List (Run P) → Prop := Relation.ReflTransGen Merge

variable {runs merged : List (Run P)}

theorem Merge.ordered (merge : Merge runs merged) (ordered : Ordered runs) : Ordered merged := by
  obtain ⟨front, back, left, right, joins⟩ := merge
  obtain ⟨frontOrdered, tail, before⟩ := (ordered_append _ _).mp ordered
  obtain ⟨leftPositive, tail, leftBefore⟩ := (ordered_cons _ _).mp tail
  obtain ⟨rightPositive, backOrdered, rightBefore⟩ := (ordered_cons _ _).mp tail
  rw [ordered_append, ordered_cons]
  refine ⟨frontOrdered, ⟨Int.add_pos leftPositive rightPositive, backOrdered, ?_⟩, ?_⟩
  · intro later member
    rw [join_limit joins]
    exact rightBefore later member
  · intro earlier inFront later member
    rcases List.mem_cons.mp member with rfl | inBack
    · exact before earlier inFront left (by simp)
    · exact before earlier inFront later (by simp [inBack])

theorem Merge.get_eq (merge : Merge runs merged) (ordered : Ordered runs) (x : ℤ) :
    get merged x = get runs x := by
  obtain ⟨front, back, left, right, joins⟩ := merge
  have leftPositive := ordered.positive left (by simp)
  have rightPositive := ordered.positive right (by simp)
  simp only [get_append, get_cons, locate_join joins leftPositive rightPositive, Option.or_assoc]

theorem Merge.part (merge : Merge runs merged) (ordered : Ordered runs) :
    ∀ run ∈ runs, ∃ whole ∈ merged,
      run = whole.slice run.base run.limit ∧ whole.base ≤ run.base ∧ run.limit ≤ whole.limit := by
  obtain ⟨front, back, left, right, joins⟩ := merge
  have leftPositive := ordered.positive left (by simp)
  have rightPositive := ordered.positive right (by simp)
  have wholeLimit := join_limit joins
  have meet := joins.1
  intro run member
  have cases : run ∈ front ∨ run = left ∨ run = right ∨ run ∈ back := by simpa using member
  have kept : run ∈ front ∨ run ∈ back → ∃ whole ∈ front ++ left.join right :: back,
      run = whole.slice run.base run.limit ∧ whole.base ≤ run.base ∧ run.limit ≤ whole.limit := by
    intro stays
    exact ⟨run, by simp; tauto, (slice_self run).symm, le_refl _, le_refl _⟩
  rcases cases with inFront | rfl | rfl | inBack
  · exact kept (Or.inl inFront)
  · refine ⟨run.join right, by simp, ?_, le_refl _, ?_⟩
    · refine Run.ext rfl ?_ ?_
      · simp [Run.limit]
      · simp [Run.join]
    · unfold Run.limit at *
      omega
  · refine ⟨left.join run, by simp, ?_, ?_, by omega⟩
    · refine Run.ext rfl ?_ ?_
      · simp [Run.limit]
      · rw [slice_ptr, ← joins.2]
        congr 1
        simp only [Run.join]
        unfold Run.limit at meet
        omega
    · simp only [Run.join]
      unfold Run.limit at *
      omega
  · exact kept (Or.inr inBack)

theorem Merges.ordered (merges : Merges runs merged) (ordered : Ordered runs) : Ordered merged := by
  induction merges with
  | refl => exact ordered
  | tail _ step ih => exact step.ordered ih

theorem Merges.get_eq (merges : Merges runs merged) (ordered : Ordered runs) (x : ℤ) :
    get merged x = get runs x := by
  induction merges with
  | refl => rfl
  | tail earlier step ih => rw [step.get_eq (Merges.ordered earlier ordered), ih]

theorem Merges.part (merges : Merges runs merged) (ordered : Ordered runs) :
    ∀ run ∈ runs, ∃ whole ∈ merged,
      run = whole.slice run.base run.limit ∧ whole.base ≤ run.base ∧ run.limit ≤ whole.limit := by
  induction merges with
  | refl =>
      intro run member
      exact ⟨run, member, (slice_self run).symm, le_refl _, le_refl _⟩
  | tail earlier step ih =>
      intro run member
      obtain ⟨middle, inMiddle, slice, start, stop⟩ := ih run member
      obtain ⟨whole, inWhole, sliceMiddle, startMiddle, stopMiddle⟩ :=
        step.part (Merges.ordered earlier ordered) middle inMiddle
      refine ⟨whole, inWhole, ?_, by omega, by omega⟩
      rw [sliceMiddle, slice_slice] at slice
      exact slice

variable [DecidableEq P]

instance (left right : Run P) : Decidable (Joins left right) :=
  inferInstanceAs (Decidable (_ ∧ _))

/-- The runs before the new one, after it has swallowed the last of them if it
continues that, and the new run as it then is. -/
def glueLeft (before : List (Run P)) (e : Run P) : List (Run P) × Run P :=
  match before.getLast? with
  | some left => if Joins left e then (before.dropLast, left.join e) else (before, e)
  | none => (before, e)

def glueRight (e : Run P) (after : List (Run P)) : List (Run P) :=
  match after with
  | right :: rest => if Joins e right then e.join right :: rest else e :: right :: rest
  | [] => [e]

def glue (before : List (Run P)) (e : Run P) (after : List (Run P)) : List (Run P) :=
  (glueLeft before e).1 ++ glueRight (glueLeft before e).2 after

theorem glue_right_merges (front : List (Run P)) (e : Run P) (after : List (Run P)) :
    Merges (front ++ e :: after) (front ++ glueRight e after) := by
  unfold glueRight
  split
  · next right rest =>
      split
      · next joins => exact Relation.ReflTransGen.single (Merge.pair front rest e right joins)
      · exact Relation.ReflTransGen.refl
  · exact Relation.ReflTransGen.refl

theorem glue_merges (before : List (Run P)) (e : Run P) (after : List (Run P)) :
    Merges (before ++ e :: after) (glue before e after) := by
  have leftMerges : Merges (before ++ e :: after)
      ((glueLeft before e).1 ++ (glueLeft before e).2 :: after) := by
    unfold glueLeft
    rcases List.eq_nil_or_concat' before with rfl | ⟨front, left, rfl⟩
    · exact Relation.ReflTransGen.refl
    · simp only [List.getLast?_append, List.getLast?_singleton, Option.some_or,
        List.dropLast_concat]
      split
      · next joins =>
          have := Merge.pair front after left e joins
          simpa using Relation.ReflTransGen.single this
      · exact Relation.ReflTransGen.refl
  exact leftMerges.trans (glue_right_merges _ _ _)

/-! ## Overwriting -/

/-- Map `[b, l)` to consecutive locations from `ptr` on. -/
def overwrite (b l : ℤ) (ptr : P) (runs : List (Run P)) : List (Run P) :=
  let out := cutOut b l runs
  glue (out.filter fun e => e.limit ≤ b) ⟨b, l - b, ptr⟩ (out.filter fun e => l ≤ e.base)

omit [DecidableEq P] in
theorem cut_out_split (order : b ≤ l) (ordered : Ordered runs) :
    ∃ before after, cutOut b l runs = before ++ after ∧ (∀ e ∈ before, e.limit ≤ b) ∧
      ∀ e ∈ after, l ≤ e.base := by
  have outOrdered := ordered_cut_out order ordered
  have apart : ∀ e ∈ cutOut b l runs, e.limit ≤ b ∨ l ≤ e.base := by
    intro e member
    obtain ⟨run, inRuns, inside⟩ := List.mem_flatMap.mp member
    exact (mem_outside (ordered.positive run inRuns) inside).2.2.2.2
  obtain ⟨before, after, whole, left, first⟩ :=
    exists_split (fun e : Run P => e.limit ≤ b) (cutOut b l runs)
  refine ⟨before, after, whole, left, ?_⟩
  cases after with
  | nil => simp
  | cons head tail =>
      have headRight : l ≤ head.base := (apart head (by simp [whole])).resolve_left (first head tail rfl)
      rw [whole] at outOrdered
      have sorted := (ordered_cons _ _).mp ((ordered_append _ _).mp outOrdered).2.1
      intro e member
      rcases List.mem_cons.mp member with rfl | inTail
      · exact headRight
      · have := sorted.2.2 e inTail
        have : head.limit = head.base + head.len := rfl
        omega

theorem overwrite_eq_glue {runs before after : List (Run P)} (ordered : Ordered runs)
    (order : b < l) (ptr : P) (whole : cutOut b l runs = before ++ after)
    (left : ∀ e ∈ before, e.limit ≤ b) (right : ∀ e ∈ after, l ≤ e.base) :
    overwrite b l ptr runs = glue before ⟨b, l - b, ptr⟩ after ∧
      Ordered (before ++ ⟨b, l - b, ptr⟩ :: after) := by
  have outOrdered := ordered_cut_out order.le ordered
  rw [whole] at outOrdered
  have positive := outOrdered.positive
  obtain ⟨beforeOrdered, afterOrdered, -⟩ := (ordered_append _ _).mp outOrdered
  have newLimit : (⟨b, l - b, ptr⟩ : Run P).limit = l := by simp [Run.limit]
  constructor
  · have keepLeft : ((before ++ after).filter fun e => e.limit ≤ b) = before := by
      rw [List.filter_append, List.filter_eq_self.mpr (by simpa using left),
        List.filter_eq_nil_iff.mpr, List.append_nil]
      intro e member
      have := right e member
      have := positive e (by simp [member])
      have : e.limit = e.base + e.len := rfl
      simp
      omega
    have keepRight : ((before ++ after).filter fun e => l ≤ e.base) = after := by
      rw [List.filter_append, List.filter_eq_nil_iff.mpr,
        List.filter_eq_self.mpr (by simpa using right), List.nil_append]
      intro e member
      have := left e member
      have := positive e (by simp [member])
      have : e.limit = e.base + e.len := rfl
      simp
      omega
    simp only [overwrite, whole, keepLeft, keepRight]
  · rw [ordered_append, ordered_cons]
    refine ⟨beforeOrdered, ⟨by simpa using order, afterOrdered, ?_⟩, ?_⟩
    · intro later member
      rw [newLimit]
      exact right later member
    · intro earlier inBefore later member
      have := left earlier inBefore
      rcases List.mem_cons.mp member with rfl | inAfter
      · exact this
      · have := right later inAfter
        omega

theorem ordered_overwrite (ordered : Ordered runs) (order : b < l) (ptr : P) :
    Ordered (overwrite b l ptr runs) := by
  obtain ⟨before, after, whole, left, right⟩ := cut_out_split order.le ordered
  obtain ⟨same, newOrdered⟩ := overwrite_eq_glue ordered order ptr whole left right
  rw [same]
  exact Merges.ordered (glue_merges _ _ _) newOrdered

/-- After an overwrite, `[b, l)` is mapped from `ptr` on and nothing else has
changed. -/
theorem get_overwrite (ordered : Ordered runs) (order : b < l) (ptr : P) (x : ℤ) :
    get (overwrite b l ptr runs) x =
      if b ≤ x ∧ x < l then some ((x - b) +ᵥ ptr) else get runs x := by
  obtain ⟨before, after, whole, left, right⟩ := cut_out_split order.le ordered
  obtain ⟨same, newOrdered⟩ := overwrite_eq_glue ordered order ptr whole left right
  have contains : (⟨b, l - b, ptr⟩ : Run P).Contains x ↔ b ≤ x ∧ x < l := by
    simp [Run.Contains, Run.limit]
  have rest := get_cut_out order.le runs x
  rw [whole, get_append] at rest
  rw [same, Merges.get_eq (glue_merges _ _ _) newOrdered]
  by_cases inside : b ≤ x ∧ x < l
  · rw [if_pos inside]
    exact get_of_mem newOrdered (by simp) (contains.mpr inside)
  · rw [if_neg inside] at rest ⊢
    rw [get_append, get_cons, locate_of_not_contains (by rwa [contains]), Option.none_or, rest]

/-! ## Properties of every run -/

section Closure

variable {Q : Run P → Prop}
  (slices : ∀ run b l, Q run → run.base ≤ b → b < l → l ≤ run.limit → Q (run.slice b l))

include slices

omit [DecidableEq P] in
theorem cut_out_all (positive : ∀ run ∈ runs, 0 < run.len) (all : ∀ run ∈ runs, Q run) :
    ∀ run ∈ cutOut b l runs, Q run := by
  intro part member
  obtain ⟨run, inRuns, inside⟩ := List.mem_flatMap.mp member
  obtain ⟨slice, start, order, stop, -⟩ := mem_outside (positive run inRuns) inside
  rw [slice]
  exact slices run _ _ (all run inRuns) start order stop

omit [DecidableEq P] in
theorem cut_in_all (order : b < l) (positive : ∀ run ∈ runs, 0 < run.len)
    (all : ∀ run ∈ runs, Q run) :
    ∀ run ∈ cutIn b l runs, Q run ∧ 0 < run.len ∧ b ≤ run.base ∧ run.limit ≤ l := by
  intro part member
  obtain ⟨run, inRuns, inside⟩ := List.mem_flatMap.mp member
  have limit : run.limit = run.base + run.len := rfl
  have := positive run inRuns
  unfold Run.inside at inside
  split at inside
  · next meets =>
      rw [List.mem_singleton.mp inside]
      refine ⟨slices run _ _ (all run inRuns) (le_max_left _ _) (by omega) (min_le_left _ _), ?_⟩
      simp only [slice_len, slice_base, slice_limit]
      omega
  · cases inside

theorem overwrite_all
    (joins : ∀ left right, Q left → Q right → Joins left right → Q (left.join right))
    (ordered : Ordered runs) (order : b < l) (ptr : P) (all : ∀ run ∈ runs, Q run)
    (new : Q ⟨b, l - b, ptr⟩) :
    ∀ run ∈ overwrite b l ptr runs, Q run := by
  obtain ⟨before, after, whole, left, right⟩ := cut_out_split order.le ordered
  obtain ⟨same, -⟩ := overwrite_eq_glue ordered order ptr whole left right
  have start : ∀ run ∈ before ++ ⟨b, l - b, ptr⟩ :: after, Q run := by
    have kept := cut_out_all slices ordered.positive all (b := b) (l := l)
    rw [whole] at kept
    intro run member
    have cases : run ∈ before ∨ run = ⟨b, l - b, ptr⟩ ∨ run ∈ after := by simpa using member
    rcases cases with inBefore | rfl | inAfter
    · exact kept run (by simp [inBefore])
    · exact new
    · exact kept run (by simp [inAfter])
  have closed : ∀ merged, Merges (before ++ ⟨b, l - b, ptr⟩ :: after) merged →
      ∀ run ∈ merged, Q run := by
    intro merged merges
    induction merges with
    | refl => exact start
    | tail _ step ih =>
        obtain ⟨front, back, first, second, joined⟩ := step
        intro run member
        have cases : run ∈ front ∨ run = first.join second ∨ run ∈ back := by simpa using member
        rcases cases with inFront | rfl | inBack
        · exact ih run (by simp [inFront])
        · exact joins first second (ih _ (by simp)) (ih _ (by simp)) joined
        · exact ih run (by simp [inBack])
  rw [same]
  exact closed _ (glue_merges _ _ _)

end Closure

end Denotation

end RunList
