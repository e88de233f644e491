import LsvdRbd.Lib.RunList
import Mathlib.Data.List.Chain
import Mathlib.Data.List.Sort

/-!
# Maximal runs

An ordered list in which no run continues the run before it is determined by
the partial function it denotes: its members are the runs of that function
that cannot be extended on either side. Cutting and overwriting keep such a
list as it is.
-/

namespace RunList

set_option autoImplicit false

variable {P : Type*} [AddAction ℤ P]

/-- No run continues the run before it. -/
def Merged (runs : List (Run P)) : Prop := runs.IsChain fun left right => ¬Joins left right

/-- A nonempty run of the function that cannot be extended on either side. -/
structure Maximal (f : ℤ → Option P) (run : Run P) : Prop where
  positive : 0 < run.len
  inside : ∀ x, run.Contains x → f x = some ((x - run.base) +ᵥ run.ptr)
  left : f (run.base - 1) ≠ some ((-1 : ℤ) +ᵥ run.ptr)
  right : f run.limit ≠ some (run.len +ᵥ run.ptr)

variable {runs : List (Run P)}

theorem get_base (ordered : Ordered runs) {run : Run P} (member : run ∈ runs) :
    get runs run.base = some run.ptr := by
  have positive := ordered.positive run member
  have inside : run.Contains run.base := ⟨le_refl _, by unfold Run.limit; omega⟩
  rw [get_of_mem ordered member inside, sub_self, zero_vadd]

/-- Merged lists, said of the denoted function: it does not go on behind a run. -/
theorem merged_iff (ordered : Ordered runs) :
    Merged runs ↔ ∀ run ∈ runs, get runs run.limit ≠ some (run.len +ᵥ run.ptr) := by
  induction runs with
  | nil => simp [Merged]
  | cons run rest ih =>
      obtain ⟨positive, restOrdered, before⟩ := (ordered_cons _ _).mp ordered
      have here : get (run :: rest) run.limit = get rest run.limit :=
        get_cons_of_limit_le rest (le_refl _)
      have later : ∀ other ∈ rest, get (run :: rest) other.limit = get rest other.limit := by
        intro other member
        have := before other member
        have := restOrdered.nonempty other member
        exact get_cons_of_limit_le rest (by omega)
      have tail : (∀ other ∈ rest, get (run :: rest) other.limit ≠ some (other.len +ᵥ other.ptr)) ↔
          Merged rest := by
        rw [ih restOrdered]
        refine forall₂_congr fun other member => ?_
        rw [later other member]
      rw [List.forall_mem_cons, here, tail]
      cases rest with
      | nil => simp [Merged]
      | cons next others =>
          have joins : get (next :: others) run.limit = some (run.len +ᵥ run.ptr) ↔
              Joins run next := by
            constructor
            · intro found
              -- only the next run can contain the end of this one
              obtain ⟨other, member, inside, same⟩ := (get_eq_some_iff restOrdered _ _).mp found
              have meet : other.base = run.limit :=
                le_antisymm inside.1 (before other member)
              have first : other = next := by
                rcases List.mem_cons.mp member with rfl | inOthers
                · rfl
                · have := ((ordered_cons _ _).mp restOrdered).2.2 other inOthers
                  have := restOrdered.positive next (by simp)
                  have := before next (by simp)
                  have : next.limit = next.base + next.len := rfl
                  omega
              subst first
              rw [meet, sub_self, zero_vadd] at same
              exact ⟨meet.symm, same⟩
            · rintro ⟨meet, same⟩
              rw [meet, same]
              exact get_base restOrdered (by simp)
          unfold Merged
          rw [List.isChain_cons_cons, ne_eq, joins]

/-- The members of a merged list are the maximal runs of what it denotes. -/
theorem mem_iff_maximal (ordered : Ordered runs) (merged : Merged runs) (run : Run P) :
    run ∈ runs ↔ Maximal (get runs) run := by
  have stops := (merged_iff ordered).mp merged
  constructor
  · intro member
    refine ⟨ordered.positive run member, fun x inside => get_of_mem ordered member inside, ?_,
      stops run member⟩
    intro found
    obtain ⟨other, otherMember, inside, same⟩ := (get_eq_some_iff ordered _ _).mp found
    have goesOn : (run.base - other.base) +ᵥ other.ptr = run.ptr := by
      have moved := congrArg (fun p => (1 : ℤ) +ᵥ p) same
      simp only [vadd_vadd] at moved
      rw [show (1 : ℤ) + (run.base - 1 - other.base) = run.base - other.base by ring,
        show (1 : ℤ) + -1 = 0 by ring, zero_vadd] at moved
      exact moved.symm
    have limit : other.limit = other.base + other.len := rfl
    have reach : run.base ≤ other.limit := by
      have := inside.2
      omega
    have notBeyond : ¬run.base < other.limit := by
      intro beyond
      have start := inside.1
      -- the run that contains the base of `run` is `run` itself
      obtain ⟨before, after, rfl⟩ := List.append_of_mem otherMember
      obtain ⟨-, tail, apart⟩ := (ordered_append _ _).mp ordered
      obtain ⟨-, -, after⟩ := (ordered_cons _ _).mp tail
      have := ordered.nonempty run member
      rcases List.mem_append.mp member with inBefore | inTail
      · have := apart run inBefore other (by simp)
        omega
      · rcases List.mem_cons.mp inTail with rfl | inAfter
        · omega
        · have := after run inAfter
          omega
    have meet : run.base = other.limit := by omega
    apply stops other otherMember
    rw [← meet, get_base ordered member, ← goesOn, meet, limit, add_sub_cancel_left]
  · rintro ⟨positive, inside, left, right⟩
    have runLimit : run.limit = run.base + run.len := rfl
    have atBase : get runs run.base = some run.ptr := by
      rw [inside run.base ⟨le_refl _, by omega⟩, sub_self, zero_vadd]
    obtain ⟨other, member, contains, same⟩ := (get_eq_some_iff ordered _ _).mp atBase
    have otherLimit : other.limit = other.base + other.len := rfl
    have shifted : ∀ k : ℤ, k +ᵥ run.ptr = (k + (run.base - other.base)) +ᵥ other.ptr := by
      intro k
      rw [same, vadd_vadd]
    have base : other.base = run.base := by
      by_contra differ
      have lower := contains.1
      have upper := contains.2
      apply left
      rw [get_of_mem ordered member ⟨by omega, by omega⟩, shifted]
      congr 2
      ring
    have stop : other.limit = run.limit := by
      rcases lt_trichotomy other.limit run.limit with below | same | above
      · exfalso
        apply stops other member
        have upper := contains.2
        rw [inside other.limit ⟨by omega, below⟩, shifted]
        congr 2
        omega
      · exact same
      · exfalso
        apply right
        rw [get_of_mem ordered member ⟨by omega, above⟩, shifted]
        congr 2
        omega
    have equal : other = run := by
      refine Run.ext base (by omega) ?_
      rw [same, base, sub_self, zero_vadd]
    exact equal ▸ member

theorem eq_of_get_eq {left right : List (Run P)} (leftOrdered : Ordered left)
    (rightOrdered : Ordered right) (leftMerged : Merged left) (rightMerged : Merged right)
    (same : ∀ x, get left x = get right x) : left = right := by
  have members : ∀ run, run ∈ left ↔ run ∈ right := by
    intro run
    rw [mem_iff_maximal leftOrdered leftMerged, mem_iff_maximal rightOrdered rightMerged,
      funext same]
  have increasing : ∀ {runs : List (Run P)}, Ordered runs →
      runs.Pairwise fun a b => a.base < b.base := by
    intro runs ordered
    refine ordered.separated.imp_of_mem ?_
    intro a b inA _ apart
    have := ordered.positive a inA
    unfold Run.limit at apart
    omega
  have distinct : ∀ {runs : List (Run P)}, Ordered runs → runs.Nodup := by
    intro runs ordered
    refine (increasing ordered).imp ?_
    rintro a b below rfl
    omega
  have permuted : left.Perm right :=
    (List.perm_ext_iff_of_nodup (distinct leftOrdered) (distinct rightOrdered)).mpr members
  refine permuted.eq_of_pairwise ?_ (increasing leftOrdered) (increasing rightOrdered)
  intro a b _ _ ab ba
  omega

/-! ## Cutting and overwriting -/

theorem outside_limit {b l : ℤ} {run part : Run P} (member : part ∈ run.outside b l) :
    part.limit = run.limit ∨ part.limit = b := by
  unfold Run.outside at member
  rcases List.mem_append.mp member with left | right
  · split at left
    · rw [List.mem_singleton.mp left, slice_limit]
      omega
    · cases left
  · split at right
    · rw [List.mem_singleton.mp right, slice_limit]
      exact Or.inl rfl
    · cases right

theorem merged_cut_out {b l : ℤ} (order : b < l) (ordered : Ordered runs) (merged : Merged runs) :
    Merged (cutOut b l runs) := by
  have stops := (merged_iff ordered).mp merged
  rw [merged_iff (ordered_cut_out order.le ordered)]
  intro part member
  obtain ⟨run, inRuns, inside⟩ := List.mem_flatMap.mp member
  obtain ⟨slice, -, -, -, -⟩ := mem_outside (ordered.positive run inRuns) inside
  rw [get_cut_out order.le]
  by_cases within : b ≤ part.limit ∧ part.limit < l
  · rw [if_pos within]
    simp
  · rw [if_neg within]
    have whole : part.limit = run.limit := by
      rcases outside_limit inside with whole | atCut
      · exact whole
      · omega
    have pointer : part.len +ᵥ part.ptr = run.len +ᵥ run.ptr := by
      rw [slice, slice_len, slice_ptr, vadd_vadd, whole]
      congr 1
      unfold Run.limit
      ring
    rw [whole, pointer]
    exact stops run inRuns

variable [DecidableEq P]

theorem merged_glue_right {e : Run P} {after : List (Run P)} (merged : Merged after) :
    Merged (glueRight e after) := by
  unfold glueRight
  split
  · next right rest =>
      split
      · next joins =>
          cases rest with
          | nil => simp [Merged]
          | cons next others =>
              unfold Merged at merged ⊢
              rw [List.isChain_cons_cons] at merged ⊢
              refine ⟨?_, merged.2⟩
              rintro ⟨meet, pointer⟩
              apply merged.1
              refine ⟨(join_limit joins).symm.trans meet, ?_⟩
              rw [← pointer, ← joins.2, vadd_vadd]
              congr 1
              simp only [Run.join]
              ring
      · next apart =>
          unfold Merged at merged ⊢
          rw [List.isChain_cons_cons]
          exact ⟨apart, merged⟩
  · simp [Merged]

theorem head_glue_right {e head : Run P} {after : List (Run P)}
    (first : head ∈ (glueRight e after).head?) : head.base = e.base ∧ head.ptr = e.ptr := by
  unfold glueRight at first
  split at first
  · split at first
    · cases first
      exact ⟨rfl, rfl⟩
    · cases first
      exact ⟨rfl, rfl⟩
  · cases first
    exact ⟨rfl, rfl⟩

theorem merged_glue {before after : List (Run P)} (e : Run P) (leftMerged : Merged before)
    (rightMerged : Merged after) : Merged (glue before e after) := by
  have right : Merged (glueRight (glueLeft before e).2 after) := merged_glue_right rightMerged
  have left : Merged (glueLeft before e).1 ∧
      ∀ last ∈ (glueLeft before e).1.getLast?, ¬Joins last (glueLeft before e).2 := by
    unfold glueLeft
    rcases List.eq_nil_or_concat' before with rfl | ⟨front, last, rfl⟩
    · exact ⟨leftMerged, by simp⟩
    · simp only [List.getLast?_append, List.getLast?_singleton, Option.some_or,
        List.dropLast_concat]
      split
      · next joins =>
          unfold Merged at leftMerged
          rw [List.isChain_append] at leftMerged
          refine ⟨leftMerged.1, ?_⟩
          intro earlier isLast joined
          exact leftMerged.2.2 earlier isLast last (by simp) joined
      · next apart =>
          refine ⟨leftMerged, ?_⟩
          intro earlier isLast
          simp only [List.getLast?_append, List.getLast?_singleton, Option.some_or,
            Option.mem_some_iff] at isLast
          subst isLast
          exact apart
  unfold glue Merged
  rw [List.isChain_append]
  refine ⟨left.1, right, ?_⟩
  intro last isLast head isHead joined
  obtain ⟨base, ptr⟩ := head_glue_right isHead
  exact left.2 last isLast ⟨joined.1.trans base, joined.2.trans ptr⟩

theorem merged_overwrite {b l : ℤ} (ordered : Ordered runs) (order : b < l) (ptr : P)
    (merged : Merged runs) : Merged (overwrite b l ptr runs) := by
  obtain ⟨before, after, whole, left, right⟩ := cut_out_split order.le ordered
  obtain ⟨same, -⟩ := overwrite_eq_glue ordered order ptr whole left right
  have cut := merged_cut_out order ordered merged
  unfold Merged at cut
  rw [whole, List.isChain_append] at cut
  rw [same]
  exact merged_glue _ cut.1 cut.2.1

end RunList
