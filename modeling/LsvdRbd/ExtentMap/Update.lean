import LsvdRbd.ExtentMap.Lookup

/-!
# `_update` on the flattened map

`_update` first unmaps `[base, limit)` in three phases and then puts the new
extent in place. Each phase is followed on the flattened map; as long as the
extents fit their fields the result is `cutOut`, the displaced extents are
`cutIn`, and the final insertion is `glue`.
-/

namespace LsvdRbd.ExtentMap

open RunList

set_option autoImplicit false

variable {P : Type*} [AddAction ℤ P]

namespace Extmap

variable {load : ℕ} {L : Layout P} {m : Extmap P} {it : Iter} {b l : ℤ}
  {before after : List (Extent P)}

/-- What holds between the phases of `_update` on `[b, l)`: the extents before
the iterator are done, and cutting the others still gives the whole result. -/
structure Progress (load : ℕ) (L : Layout P) (b l : ℤ) (runs : List (Extent P)) (c : Cut P)
    (before after : List (Extent P)) : Prop where
  position : At c.map c.it before after
  shape : c.map.Shape load
  ordered : Ordered (before ++ after)
  fits : ∀ e ∈ before ++ after, L.Fits e
  done : ∀ e ∈ before, e.limit ≤ b
  kept : cutOut b l (before ++ after) = cutOut b l runs
  lost : c.del ++ cutIn b l after = cutIn b l runs

private theorem cut_out_append (left right : List (Extent P)) :
    cutOut b l (left ++ right) = cutOut b l left ++ cutOut b l right :=
  List.flatMap_append

private theorem cut_out_cons (e : Extent P) (rest : List (Extent P)) :
    cutOut b l (e :: rest) = e.outside b l ++ cutOut b l rest :=
  List.flatMap_cons

private theorem cut_in_cons (e : Extent P) (rest : List (Extent P)) :
    cutIn b l (e :: rest) = e.inside b l ++ cutIn b l rest :=
  List.flatMap_cons

variable {runs : List (Extent P)}

theorem cut_left_progress (positive : 0 < load) (order : b ≤ l)
    (start : Progress load L b l runs ⟨m, it, []⟩ before after) (reach : ∀ e ∈ after, b < e.limit) :
    ∃ before after, Progress load L b l runs (m.cutLeft load L it b l) before after ∧
      ∀ e ∈ after, b ≤ e.base := by
  obtain ⟨position, shape, ordered, fits, done, kept, lost⟩ := start
  cases after with
  | nil =>
      have unchanged : m.cutLeft load L it b l = ⟨m, it, []⟩ := by
        have noEntry : m.deref it = none := by
          have := position.eq_end
          simp only at this
          rw [this]
          exact deref_end m
        simp [cutLeft, noEntry]
      rw [unchanged]
      exact ⟨before, [], ⟨position, shape, ordered, fits, done, kept, lost⟩, by simp⟩
  | cons e rest =>
      have here : m.deref it = some e := position.deref_eq
      have eFits := fits e (by simp)
      have eReach := reach e (by simp)
      have eLimit : e.limit = e.base + e.len := rfl
      obtain ⟨beforeOrdered, tailOrdered, between⟩ := (ordered_append _ _).mp ordered
      obtain ⟨ePositive, restOrdered, eBefore⟩ := (ordered_cons _ _).mp tailOrdered
      by_cases left : e.base < b
      · have shortened : L.relimit e b = e.slice e.base b :=
          eFits.relimit_eq (by omega) (by omega)
        obtain ⟨stored, storedShape⟩ := position.store_fix shape (e.slice e.base b)
        have doneLeft : ∀ other ∈ before ++ [e.slice e.base b], other.limit ≤ b := by
          intro other member
          rcases List.mem_append.mp member with inBefore | same
          · exact done other inBefore
          · rw [List.mem_singleton.mp same, slice_limit]
        have leftApart := cut_apart order (e.slice e.base b) (by simpa using left)
          (Or.inl (by simp))
        by_cases bisect : l < e.limit
        · -- `e` reaches beyond both ends: a new extent holds its right part
          have cutE := cut_bisected order left bisect
          have old : L.extent b (l - b) (L.add e.ptr (b - e.base)) = e.slice b l :=
            eFits.extent_slice (by omega) (by omega) order (by omega)
          have new : L.extent l (e.limit - l) (L.add e.ptr (l - e.base)) = e.slice l e.limit :=
            eFits.extent_slice (by omega) bisect bisect.le (le_refl _)
          have rightApart := cut_apart order (e.slice l e.limit) (by simpa using bisect)
            (Or.inr (by simp))
          obtain ⟨inserted, insertedShape⟩ := (stored.plus_one storedShape).insert positive
            storedShape (e.slice l e.limit)
          have result : m.cutLeft load L it b l =
              ⟨(((m.store it (e.slice e.base b)).fixMax it.i).insert load
                  (((m.store it (e.slice e.base b)).fixMax it.i).plusOne it)
                  (e.slice l e.limit)).1,
                (((m.store it (e.slice e.base b)).fixMax it.i).insert load
                  (((m.store it (e.slice e.base b)).fixMax it.i).plusOne it)
                  (e.slice l e.limit)).2, [e.slice b l]⟩ := by
            simp only [cutLeft, here, left, bisect, and_self, if_true, shortened, old, new]
          rw [result]
          refine ⟨before ++ [e.slice e.base b], e.slice l e.limit :: rest,
            ⟨inserted, insertedShape, ?_, ?_, doneLeft, ?_, ?_⟩, ?_⟩
          · rw [List.append_assoc]
            have split : Ordered (cutOut b l (before ++ e :: rest)) := ordered_cut_out order ordered
            have restApart := cut_of_apart (b := b) (l := l) order restOrdered.positive
              (fun other member => Or.inr (by have := eBefore other member; omega))
            have beforeApart := cut_of_apart (b := b) (l := l) order beforeOrdered.positive
              (fun other member => Or.inl (done other member))
            rw [cut_out_append, cut_out_cons, cutE.1, restApart.1, beforeApart.1] at split
            exact split
          · intro other member
            have cases : other ∈ before ∨ other = e.slice e.base b ∨ other = e.slice l e.limit ∨
                other ∈ rest := by simpa using member
            rcases cases with inBefore | rfl | rfl | inRest
            · exact fits other (by simp [inBefore])
            · exact eFits.slice (le_refl _) (by omega)
            · exact eFits.slice (by omega) (le_refl _)
            · exact fits other (by simp [inRest])
          · rw [← kept]
            simp only [cut_out_append, cut_out_cons, cutE.1, leftApart.1, rightApart.1]
            simp [cutOut]
          · rw [← lost]
            simp [cut_in_cons, cutE.2, rightApart.2]
          · intro other member
            rcases List.mem_cons.mp member with rfl | inRest
            · exact order
            · have := eBefore other inRest
              omega
        · have cutE := cut_tail (l := l) left eReach (by omega)
          have old : L.extent b (e.limit - b) (L.add e.ptr (b - e.base)) = e.slice b e.limit :=
            eFits.extent_slice (by omega) (by omega) (by omega) (le_refl _)
          have result : m.cutLeft load L it b l =
              ⟨(m.store it (e.slice e.base b)).fixMax it.i,
                ((m.store it (e.slice e.base b)).fixMax it.i).incr it, [e.slice b e.limit]⟩ := by
            simp only [cutLeft, here, left, bisect, and_false, if_false, eReach, and_self,
              if_true, shortened, old]
          rw [result]
          refine ⟨before ++ [e.slice e.base b], rest,
            ⟨stored.incr storedShape, storedShape, ?_, ?_, doneLeft, ?_, ?_⟩, ?_⟩
          · rw [ordered_append, ordered_append, ordered_singleton]
            refine ⟨⟨beforeOrdered, by simpa using left, ?_⟩, restOrdered, ?_⟩
            · intro other inBefore same member
              rw [List.mem_singleton.mp member]
              exact between other inBefore e (by simp)
            · intro other member later inRest
              have := eBefore later inRest
              have := doneLeft other member
              omega
          · intro other member
            have cases : other ∈ before ∨ other = e.slice e.base b ∨ other ∈ rest := by
              simpa using member
            rcases cases with inBefore | rfl | inRest
            · exact fits other (by simp [inBefore])
            · exact eFits.slice (le_refl _) (by omega)
            · exact fits other (by simp [inRest])
          · rw [← kept]
            simp only [cut_out_append, cut_out_cons, cutE.1, leftApart.1]
            simp [cutOut]
          · rw [← lost]
            simp [cut_in_cons, cutE.2]
          · intro other member
            have := eBefore other member
            omega
      · -- nothing of `e` lies below `b`: later extents start above it
        have unchanged : m.cutLeft load L it b l = ⟨m, it, []⟩ := by
          simp [cutLeft, here, left]
        rw [unchanged]
        refine ⟨before, e :: rest, ⟨position, shape, ordered, fits, done, kept, lost⟩, ?_⟩
        intro other member
        rcases List.mem_cons.mp member with rfl | inRest
        · omega
        · have := eBefore other inRest
          omega

theorem erase_progress (large : 2 ≤ load) {c : Cut P} {e : Extent P}
    (here : Progress load L b l runs c before (e :: after)) (starts : b ≤ e.base)
    (ends : e.limit ≤ l) :
    Progress load L b l runs
      ⟨(c.map.erase load c.it).1, (c.map.erase load c.it).2, c.del ++ [e]⟩ before after := by
  obtain ⟨position, shape, ordered, fits, done, kept, lost⟩ := here
  have ePositive := ordered.positive e (by simp)
  have cutE := cut_covered ePositive starts ends
  obtain ⟨erased, erasedShape⟩ := position.erase large shape
  obtain ⟨beforeOrdered, tailOrdered, between⟩ := (ordered_append _ _).mp ordered
  obtain ⟨-, restOrdered, -⟩ := (ordered_cons _ _).mp tailOrdered
  refine ⟨erased, erasedShape, ?_, ?_, done, ?_, ?_⟩
  · rw [ordered_append]
    exact ⟨beforeOrdered, restOrdered,
      fun other inBefore later inRest => between other inBefore later (by simp [inRest])⟩
  · intro other member
    exact fits other (by simp at member ⊢; tauto)
  · rw [← kept, cut_out_append, cut_out_append, cut_out_cons, cutE.1, List.nil_append]
  · rw [← lost, cut_in_cons, cutE.2, List.append_assoc]

theorem erase_covered_progress (large : 2 ≤ load) (fuel : ℕ) {c : Cut P}
    (here : Progress load L b l runs c before after) (enough : after.length ≤ fuel)
    (starts : ∀ e ∈ after, b ≤ e.base) :
    ∃ after', Progress load L b l runs (eraseCovered load b l fuel c) before after' ∧
      (∀ e ∈ after', b ≤ e.base) ∧ ∀ e rest, after' = e :: rest → l < e.limit := by
  induction fuel generalizing c after with
  | zero =>
      have none : after = [] := List.eq_nil_of_length_eq_zero (by omega)
      subst none
      exact ⟨[], here, by simp, by simp⟩
  | succ fuel ih =>
      cases after with
      | nil =>
          have stop : eraseCovered load b l (fuel + 1) c = c := by
            simp [eraseCovered, here.position.eq_end]
          rw [stop]
          exact ⟨[], here, by simp, by simp⟩
      | cons e rest =>
          have found := here.position.deref_eq
          have notEnd := here.position.ne_end
          have eStarts := starts e (by simp)
          by_cases ends : e.limit ≤ l
          · have turn : eraseCovered load b l (fuel + 1) c = eraseCovered load b l fuel
                ⟨(c.map.erase load c.it).1, (c.map.erase load c.it).2, c.del ++ [e]⟩ := by
              rw [eraseCovered, if_neg notEnd]
              simp [found, eStarts, ends]
            rw [turn]
            exact ih (erase_progress large here eStarts ends) (by simpa using enough)
              (fun other member => starts other (by simp [member]))
          · have stop : eraseCovered load b l (fuel + 1) c = c := by
              rw [eraseCovered, if_neg notEnd]
              simp [found, ends]
            rw [stop]
            refine ⟨e :: rest, here, starts, ?_⟩
            intro other others same
            rw [← (List.cons.inj same).1]
            omega

theorem cut_right_progress (order : b ≤ l) {c : Cut P}
    (here : Progress load L b l runs c before after) (starts : ∀ e ∈ after, b ≤ e.base)
    (beyond : ∀ e rest, after = e :: rest → l < e.limit) :
    ∃ after', Progress load L b l runs (cutRight L l c) before after' ∧
      ∀ e ∈ after', l ≤ e.base := by
  cases after with
  | nil =>
      have same : cutRight L l c = c := by simp [cutRight, here.position.eq_end]
      rw [same]
      exact ⟨[], here, by simp⟩
  | cons e rest =>
      obtain ⟨position, shape, ordered, fits, done, kept, lost⟩ := here
      have found := position.deref_eq
      have notEnd := position.ne_end
      have eStarts := starts e (by simp)
      have eBeyond := beyond e rest rfl
      have eFits := fits e (by simp)
      obtain ⟨beforeOrdered, tailOrdered, between⟩ := (ordered_append _ _).mp ordered
      obtain ⟨ePositive, restOrdered, eBefore⟩ := (ordered_cons _ _).mp tailOrdered
      by_cases overlap : e.base < l
      · have cutE := cut_head eStarts overlap eBeyond
        have rebased : L.rebase e l = e.slice l e.limit := eFits.rebase_eq overlap.le eBeyond
        have old : L.extent e.base (l - e.base) e.ptr = e.slice e.base l := by
          have fitsOld := eFits.slice (b := e.base) (l := l) (le_refl _) eBeyond.le
          have := fitsOld.extent_eq (by simpa using overlap)
          simpa using this
        have rightApart := cut_apart (b := b) order (e.slice l e.limit)
          (by simpa using eBeyond) (Or.inr (by simp))
        obtain ⟨stored, storedShape⟩ := position.store_same_limit shape
          (e.slice l e.limit) (by simp)
        have result : cutRight L l c =
            ⟨c.map.store c.it (e.slice l e.limit), c.it, c.del ++ [e.slice e.base l]⟩ := by
          rw [cutRight, if_neg notEnd]
          simp only [found, overlap, if_true, rebased, old]
        rw [result]
        refine ⟨e.slice l e.limit :: rest, ⟨stored, storedShape, ?_, ?_, done, ?_, ?_⟩, ?_⟩
        · rw [ordered_append, ordered_cons]
          refine ⟨beforeOrdered, ⟨by simpa using eBeyond, restOrdered, ?_⟩, ?_⟩
          · intro later member
            rw [slice_limit]
            exact eBefore later member
          · intro earlier inBefore later member
            rcases List.mem_cons.mp member with rfl | inRest
            · have := between earlier inBefore e (by simp)
              rw [slice_base]
              omega
            · exact between earlier inBefore later (by simp [inRest])
        · intro other member
          have cases : other ∈ before ∨ other = e.slice l e.limit ∨ other ∈ rest := by
            simpa using member
          rcases cases with inBefore | rfl | inRest
          · exact fits other (by simp [inBefore])
          · exact eFits.slice overlap.le (le_refl _)
          · exact fits other (by simp [inRest])
        · rw [← kept, cut_out_append, cut_out_append, cut_out_cons, cut_out_cons, cutE.1,
            rightApart.1]
        · rw [← lost, cut_in_cons, cut_in_cons, cutE.2, rightApart.2]
          simp
        · intro other member
          rcases List.mem_cons.mp member with rfl | inRest
          · simp
          · have := eBefore other inRest
            omega
      · have same : cutRight L l c = c := by
          rw [cutRight, if_neg notEnd]
          simp [found, overlap]
        rw [same]
        refine ⟨e :: rest, ⟨position, shape, ordered, fits, done, kept, lost⟩, ?_⟩
        intro other member
        rcases List.mem_cons.mp member with rfl | inRest
        · omega
        · have := eBefore other inRest
          have : e.limit = e.base + e.len := rfl
          omega

/-- The three phases together unmap `[b, l)` and report what they removed. -/
theorem cut_spec (large : 2 ≤ load) (shape : m.Shape load) (ordered : Ordered m.extents)
    (fits : ∀ e ∈ m.extents, L.Fits e) (order : b ≤ l) (stored : L.base b = b) :
    ∃ before after, At (m.cut load L b l).map (m.cut load L b l).it before after ∧
      (m.cut load L b l).map.Shape load ∧ cutOut b l m.extents = before ++ after ∧
      (∀ e ∈ before, e.limit ≤ b) ∧ (∀ e ∈ after, l ≤ e.base) ∧
      (m.cut load L b l).del = cutIn b l m.extents := by
  obtain ⟨before, after, position, lower, upper⟩ :=
    lower_bound_splits (L := L) shape ordered b stored
  have whole := position.extents_eq
  have beforeApart := cut_of_apart (b := b) (l := l) order
    (fun e member => ordered.positive e (by simp [whole, member]))
    (fun e member => Or.inl (lower e member))
  have lostAll : cutIn b l after = cutIn b l m.extents := by
    rw [whole, cutIn, cutIn, List.flatMap_append]
    have := beforeApart.2
    rw [cutIn] at this
    rw [this, List.nil_append]
  by_cases atEnd : m.lowerBound L b = m.endIter
  · have none : after = [] := by
      cases after with
      | nil => rfl
      | cons e rest => exact absurd atEnd position.ne_end
    subst none
    have same : m.cut load L b l = ⟨m, m.lowerBound L b, []⟩ := by
      rw [cut]
      simp only [atEnd, if_true]
    rw [same]
    refine ⟨before, [], position, shape, ?_, lower, by simp, lostAll⟩
    rw [whole, List.append_nil, beforeApart.1]
  · have start : Progress load L b l m.extents ⟨m, m.lowerBound L b, []⟩ before after :=
      ⟨position, shape, whole ▸ ordered, fun e member => fits e (whole ▸ member), lower,
        by rw [whole], by simpa using lostAll⟩
    obtain ⟨before, after, first, starts⟩ := cut_left_progress (by omega) order start upper
    have enough : after.length ≤ (m.cutLeft load L (m.lowerBound L b) b l).map.count := by
      rw [first.shape.count, first.position.extents_eq]
      simp
    obtain ⟨after, second, starts, beyond⟩ :=
      erase_covered_progress large _ first enough starts
    obtain ⟨after, third, right⟩ := cut_right_progress order second starts beyond
    have result : m.cut load L b l = cutRight L l (eraseCovered load b l
        (m.cutLeft load L (m.lowerBound L b) b l).map.count
        (m.cutLeft load L (m.lowerBound L b) b l)) := by
      rw [cut]
      simp only [atEnd, if_false]
    rw [← result] at third
    have apart := cut_of_apart (b := b) (l := l) order third.ordered.positive (by
      intro e member
      rcases List.mem_append.mp member with inBefore | inAfter
      · exact Or.inl (third.done e inBefore)
      · exact Or.inr (right e inAfter))
    have afterApart := cut_of_apart (b := b) (l := l) order
      (fun e member => third.ordered.positive e (by simp [member]))
      (fun e member => Or.inr (right e member))
    refine ⟨before, after, third.position, third.shape, ?_, third.done, right, ?_⟩
    · rw [← third.kept, apart.1]
    · have := third.lost
      rw [afterApart.2, List.append_nil] at this
      exact this

/-! ## Putting the new extent in place -/

private theorem relimit_join {left right : Extent P} (joins : Joins left right)
    (fits : L.Fits (left.join right)) (leftPositive : 0 < left.len)
    (rightPositive : 0 < right.len) : L.relimit left right.limit = left.join right := by
  have meet := joins.1
  unfold Run.limit at meet
  refine Run.ext rfl ?_ rfl
  change L.len (right.base + right.len - left.base) = left.len + right.len
  rw [show right.base + right.len - left.base = left.len + right.len by omega]
  exact fits.len _ (by omega) (le_refl _)

private theorem rebase_join {left right : Extent P} (joins : Joins left right)
    (fits : L.Fits (left.join right)) (leftPositive : 0 < left.len)
    (rightPositive : 0 < right.len) : L.rebase right left.base = left.join right := by
  have meet := joins.1
  unfold Run.limit at meet
  have whole : (left.join right).len = left.len + right.len := rfl
  have base := fits.base 0 (by omega) (by omega)
  have add := fits.add left.len (-left.len) (by omega) (by omega) (by omega) (by omega)
  rw [add_zero] at base
  rw [add_neg_cancel, zero_vadd] at add
  refine Run.ext base ?_ ?_
  · change L.len (right.len - (left.base - right.base)) = left.len + right.len
    rw [show right.len - (left.base - right.base) = left.len + right.len by omega]
    exact fits.len _ (by omega) (le_refl _)
  · change L.add right.ptr (left.base - right.base) = left.ptr
    rw [show left.base - right.base = -left.len by omega, ← joins.2]
    exact add

variable [DecidableEq P]

theorem place_right_spec (large : 2 ≤ load) (shape : m.Shape load) (position : At m it before after)
    {e : Extent P} (ordered : Ordered (before ++ e :: after))
    (fits : ∀ run ∈ before ++ glueRight e after, L.Fits run) (eFits : L.Fits e) :
    let next := if it = m.endIter then none else m.deref it
    (place.placeRight load L it e e.base m next).extents = before ++ glueRight e after ∧
      (place.placeRight load L it e e.base m next).Shape load := by
  intro next
  have ePositive := ordered.positive e (by simp)
  obtain ⟨inserted, insertedShape⟩ := position.insert (by omega) shape e
  cases after with
  | nil =>
      have noNext : next = none := if_pos position.eq_end
      rw [noNext]
      exact ⟨inserted.extents_eq, insertedShape⟩
  | cons right rest =>
      have someNext : next = some right := by
        rw [show next = m.deref it from if_neg position.ne_end, position.deref_eq]
      have rightPositive := ordered.positive right (by simp)
      rw [someNext]
      by_cases joins : Joins e right
      · have joined : glueRight e (right :: rest) = e.join right :: rest := if_pos joins
        rw [joined] at fits ⊢
        have rebased := rebase_join joins (fits _ (by simp)) ePositive rightPositive
        obtain ⟨stored, storedShape⟩ := position.store_same_limit shape
          (e.join right) (join_limit joins)
        have result : place.placeRight load L it e e.base m (some right) =
            m.store it (e.join right) := by
          simp only [place.placeRight, (eFits.adjacent_iff ePositive).mpr joins, if_true, rebased]
        rw [result]
        exact ⟨stored.extents_eq, storedShape⟩
      · have apart : glueRight e (right :: rest) = e :: right :: rest := if_neg joins
        have notAdjacent : L.adjacent e right = false := by
          rw [← Bool.not_eq_true, eFits.adjacent_iff ePositive]
          exact joins
        have result : place.placeRight load L it e e.base m (some right) =
            (m.insert load it e).1 := by
          simp only [place.placeRight, notAdjacent]
          rfl
        rw [result, apart]
        exact ⟨inserted.extents_eq, insertedShape⟩

theorem place_spec (large : 2 ≤ load) (shape : m.Shape load) (position : At m it before after)
    {e : Extent P} (ordered : Ordered (before ++ e :: after))
    (fits : ∀ run ∈ glue before e after, L.Fits run) :
    (m.place load L it e e.base e.limit).extents = glue before e after ∧
      (m.place load L it e e.base e.limit).Shape load := by
  have parts : ∀ run ∈ before ++ e :: after, L.Fits run := by
    intro run member
    obtain ⟨whole, inside, slice, start, stop⟩ :=
      (glue_merges before e after).part ordered run member
    rw [slice]
    exact (fits whole inside).slice start stop
  have eFits := parts e (by simp)
  have ePositive := ordered.positive e (by simp)
  by_cases empty : m.count = 0
  · have none : before ++ after = [] := by
      rw [← position.extents_eq]
      exact List.eq_nil_of_length_eq_zero (by rw [← shape.count, empty])
    obtain ⟨rfl, rfl⟩ := List.append_eq_nil_iff.mp none
    obtain ⟨inserted, insertedShape⟩ := position.insert (by omega) shape e
    have result : m.place load L it e e.base e.limit = (m.insert load it e).1 := by
      rw [place, if_pos empty]
    rw [result]
    exact ⟨inserted.extents_eq, insertedShape⟩
  · rcases List.eq_nil_or_concat' before with rfl | ⟨front, left, rfl⟩
    · have first : it = beginIter := (position.begin_iff shape).mpr rfl
      have result : m.place load L it e e.base e.limit = place.placeRight load L it e e.base m
          (if it = m.endIter then none else m.deref it) := by
        rw [place, if_neg empty]
        simp only [first, if_true]
      rw [result]
      exact place_right_spec large shape position ordered fits eFits
    · have notFirst : it ≠ beginIter := by
        intro first
        simpa using (position.begin_iff shape).mp first
      have previous : m.deref (m.minusOne it) = some left := (position.minus_one shape).deref_eq
      have leftFits := parts left (by simp)
      have leftPositive := ordered.positive left (by simp)
      have adjacentIff : L.adjacent left e = true ↔ Joins left e :=
        leftFits.adjacent_iff leftPositive
      by_cases joins : Joins left e
      · -- merge with the extent before, and perhaps with the one after
        have glued : glueLeft (front ++ [left]) e = (front, left.join e) := by
          simp [glueLeft, joins]
        have whole : glue (front ++ [left]) e after = front ++ glueRight (left.join e) after := by
          rw [glue, glued]
        have joinPositive : 0 < (left.join e).len := Int.add_pos leftPositive ePositive
        have middleOrdered : Ordered (front ++ left.join e :: after) := by
          have merge : Merge (front ++ left :: e :: after) (front ++ left.join e :: after) :=
            Merge.pair front after left e joins
          exact merge.ordered (by simpa using ordered)
        have joinFits : L.Fits (left.join e) := by
          have merges : Merges (front ++ left.join e :: after)
              (front ++ glueRight (left.join e) after) := glue_right_merges front _ after
          obtain ⟨run, inside, slice, start, stop⟩ :=
            merges.part middleOrdered (left.join e) (by simp)
          rw [slice]
          exact (fits run (whole ▸ inside)).slice start stop
        have extended := relimit_join joins joinFits leftPositive ePositive
        obtain ⟨stored, storedShape⟩ := position.store_prev shape (left.join e)
        rw [whole]
        cases after with
        | nil =>
            have noNext : (if it = m.endIter then none else m.deref it) = none :=
              if_pos position.eq_end
            have result : m.place load L it e e.base e.limit =
                (m.store (m.minusOne it) (left.join e)).fixMax (m.minusOne it).i := by
              rw [place, if_neg empty]
              simp only [notFirst, if_false, previous, adjacentIff.mpr joins, if_true, extended,
                noNext]
            rw [result]
            refine ⟨?_, storedShape⟩
            rw [stored.extents_eq]
            simp [glueRight]
        | cons right rest =>
            have rightPositive := ordered.positive right (by simp)
            have adjacentRight : L.adjacent (left.join e) right = true ↔
                Joins (left.join e) right := joinFits.adjacent_iff joinPositive
            have someNext : (if it = m.endIter then none else m.deref it) = some right := by
              rw [if_neg position.ne_end, position.deref_eq]
            have result : m.place load L it e e.base e.limit =
                if L.adjacent (left.join e) right then
                  (((((m.store (m.minusOne it) (left.join e)).fixMax (m.minusOne it).i).store
                    (m.minusOne it) (L.relimit (left.join e) right.limit)).fixMax
                      (m.minusOne it).i).erase load it).1
                else (m.store (m.minusOne it) (left.join e)).fixMax (m.minusOne it).i := by
              rw [place, if_neg empty]
              simp only [notFirst, if_false, previous, adjacentIff.mpr joins, if_true, extended,
                someNext]
            rw [result]
            by_cases closes : Joins (left.join e) right
            · have joined : glueRight (left.join e) (right :: rest) =
                  (left.join e).join right :: rest := if_pos closes
              have relimited := relimit_join closes
                (fits _ (by rw [whole, joined]; simp)) joinPositive rightPositive
              have again := stored.store_prev storedShape ((left.join e).join right)
              rw [minus_one_store m it (left.join e)] at again
              obtain ⟨erased, erasedShape⟩ := again.1.erase large again.2
              rw [if_pos (adjacentRight.mpr closes), relimited, joined]
              refine ⟨?_, erasedShape⟩
              rw [erased.extents_eq]
              simp
            · have apart : glueRight (left.join e) (right :: rest) =
                  left.join e :: right :: rest := if_neg closes
              rw [if_neg (by rw [adjacentRight]; exact closes), apart]
              refine ⟨?_, storedShape⟩
              rw [stored.extents_eq]
              simp
      · have kept : glueLeft (front ++ [left]) e = (front ++ [left], e) := by
          simp [glueLeft, joins]
        have notAdjacent : L.adjacent left e = false := by
          rw [← Bool.not_eq_true, adjacentIff]
          exact joins
        have whole : glue (front ++ [left]) e after = front ++ [left] ++ glueRight e after := by
          rw [glue, kept]
        have result : m.place load L it e e.base e.limit = place.placeRight load L it e e.base m
            (if it = m.endIter then none else m.deref it) := by
          rw [place, if_neg empty]
          simp only [notFirst, if_false, previous, notAdjacent]
          rfl
        rw [result, whole]
        rw [whole] at fits
        exact place_right_spec large shape position ordered fits eFits

/-! ## The whole operations -/

theorem update_spec (large : 2 ≤ load) (shape : m.Shape load) (ordered : Ordered m.extents)
    (order : b < l) (ptr : P) (fits : ∀ e ∈ m.extents, L.Fits e) (stored : L.base b = b)
    (fitsAfter : ∀ e ∈ overwrite b l ptr m.extents, L.Fits e) :
    (m.update load L b l ptr).1.extents = overwrite b l ptr m.extents ∧
      (m.update load L b l ptr).1.Shape load ∧
      (m.update load L b l ptr).2 = cutIn b l m.extents := by
  obtain ⟨before, after, position, cutShape, whole, left, right, lost⟩ :=
    cut_spec large shape ordered fits order.le stored
  have newLimit : (⟨b, l - b, ptr⟩ : Extent P).limit = l := by simp [Run.limit]
  obtain ⟨target, newOrdered⟩ := overwrite_eq_glue ordered order ptr whole left right
  rw [target] at fitsAfter ⊢
  have newFits : L.Fits ⟨b, l - b, ptr⟩ := by
    obtain ⟨run, inside, slice, start, stop⟩ :=
      (glue_merges before ⟨b, l - b, ptr⟩ after).part newOrdered ⟨b, l - b, ptr⟩ (by simp)
    rw [slice]
    exact (fitsAfter run inside).slice start stop
  have new : L.extent b (l - b) ptr = ⟨b, l - b, ptr⟩ := newFits.extent_eq (by simpa using order)
  by_cases empty : m.maxes.length = 0
  · have noLists : m.lists = [] := by
      apply List.eq_nil_of_length_eq_zero
      rw [shape.maxes] at empty
      simpa using empty
    have noRuns : m.extents = [] := by simp [extents, noLists]
    have nothing : before = [] ∧ after = [] := by
      rw [noRuns] at whole
      exact List.append_eq_nil_iff.mp whole.symm
    have start : At m ⟨0, 0⟩ [] [] := Or.inl ⟨noLists, rfl, rfl, rfl⟩
    have inserted := start.insert (by omega) shape (⟨b, l - b, ptr⟩ : Extent P)
    have sameInsert : m.insert load ⟨0, 0⟩ ⟨b, l - b, ptr⟩ =
        (m.first ⟨b, l - b, ptr⟩, beginIter) := by
      rw [insert, if_pos]
      rw [shape.count, noRuns]
      rfl
    rw [sameInsert] at inserted
    have result : m.update load L b l ptr = (m.first ⟨b, l - b, ptr⟩, []) := by
      rw [update, if_pos empty, new]
    rw [result, nothing.1, nothing.2, noRuns]
    exact ⟨inserted.1.extents_eq, inserted.2, rfl⟩
  · have result : m.update load L b l ptr =
        ((m.cut load L b l).map.place load L (m.cut load L b l).it ⟨b, l - b, ptr⟩ b l,
          (m.cut load L b l).del) := by
      rw [update, if_neg empty, new]
    have placed := place_spec large cutShape position newOrdered fitsAfter
    rw [newLimit] at placed
    rw [result]
    exact ⟨placed.1, placed.2, lost⟩

omit [AddAction ℤ P] in
/-- An update behind the last extent, with which it does not merge, appends one extent,
whatever the fields of the others hold. -/
theorem update_beyond (positive : 0 < load) (shape : m.Shape load) (ordered : Ordered m.extents)
    (ptr : P) (beyond : ∀ e ∈ m.extents, e.limit ≤ b)
    (apart : ∀ last ∈ m.extents.getLast?, L.adjacent last (L.extent b (l - b) ptr) = false) :
    (m.update load L b l ptr).1.extents = m.extents ++ [L.extent b (l - b) ptr] ∧
      (m.update load L b l ptr).1.Shape load := by
  have inserted := (at_end m).insert positive shape (L.extent b (l - b) ptr)
  suffices result : (m.update load L b l ptr).1 =
      (m.insert load m.endIter (L.extent b (l - b) ptr)).1 by
    rw [result]
    exact ⟨inserted.1.extents_eq, inserted.2⟩
  rcases List.eq_nil_or_concat' m.extents with none | ⟨before, last, some⟩
  · have empty : m.count = 0 := by rw [shape.count, none, List.length_nil]
    have noMaxes : m.maxes.length = 0 := by
      rw [shape.maxes, List.length_map, List.length_eq_zero_iff]
      by_contra occupied
      obtain ⟨list, member⟩ := List.exists_mem_of_ne_nil _ occupied
      exact shape.nonempty list member (List.flatten_eq_nil_iff.mp none list member)
    rw [update, if_pos noMaxes, insert, if_pos empty]
  · have position : At m m.endIter (before ++ [last]) [] := some ▸ at_end m
    have occupied : m.maxes.length ≠ 0 := by
      intro noMaxes
      rw [shape.maxes, List.length_map, List.length_eq_zero_iff] at noMaxes
      simp [extents, noMaxes] at some
    have found : m.lowerBound L b = m.endIter := by
      refine lower_bound_beyond shape ordered fun list member => ?_
      obtain ⟨front, e, split, limit⟩ := back_limit_mem (shape.nonempty list member)
      rw [← limit]
      exact beyond e (List.mem_flatten.mpr ⟨list, member, by simp [split]⟩)
    have many : m.count ≠ 0 := by
      rw [shape.count, some]
      simp
    have moved : m.endIter ≠ beginIter := by
      intro start
      simpa using (position.begin_iff shape).mp start
    rw [update, if_neg occupied, cut, found, if_pos rfl]
    dsimp only
    rw [place, if_neg many]
    dsimp only
    rw [if_neg moved, (position.minus_one shape).deref_eq, if_pos rfl]
    dsimp only
    rw [apart last (by simp [some])]
    rfl

omit [DecidableEq P] in
theorem trim_spec (large : 2 ≤ load) (shape : m.Shape load) (ordered : Ordered m.extents)
    (order : b ≤ l) (fits : ∀ e ∈ m.extents, L.Fits e) (stored : L.base b = b) :
    (m.trim load L b l).1.extents = cutOut b l m.extents ∧ (m.trim load L b l).1.Shape load ∧
      (m.trim load L b l).2 = cutIn b l m.extents := by
  by_cases occupied : 0 < m.count
  · obtain ⟨before, after, position, cutShape, whole, -, -, lost⟩ :=
      cut_spec large shape ordered fits order stored
    have result : m.trim load L b l = ((m.cut load L b l).map, (m.cut load L b l).del) := by
      rw [trim, if_pos occupied]
    rw [result]
    exact ⟨by rw [whole, position.extents_eq], cutShape, lost⟩
  · have none : m.extents = [] := by
      apply List.eq_nil_of_length_eq_zero
      rw [← shape.count]
      omega
    have result : m.trim load L b l = (m, []) := by rw [trim, if_neg occupied]
    rw [result, none]
    exact ⟨rfl, shape, rfl⟩

end Extmap

end LsvdRbd.ExtentMap
