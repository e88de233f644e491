import Mathlib.Tactic

/-!
# Computations that may stop

A computation checks a condition before each access and stops with an error where it
does not hold. `Yields` says that it stops only with allowed errors and that what it
returns otherwise meets a postcondition; the rules follow the parts of a `do` block.
-/

namespace LsvdRbd.Guarded

set_option autoImplicit false

variable {ε α β : Type} {allowed : ε → Prop}

/-- Stop with an error unless a condition holds. -/
def require (e : ε) (condition : Prop) [Decidable condition] : Except ε Unit :=
  if condition then .ok () else .error e

theorem ok_bind (a : α) (f : α → Except ε β) : ((.ok a : Except ε α) >>= f) = f a := rfl

variable {condition : Prop}

theorem require_bind {e : ε} [Decidable condition] (holds : condition) (f : Unit → Except ε β) :
    (require e condition >>= f) = f () := by
  rw [require, if_pos holds]
  rfl

def Yields (allowed : ε → Prop) (x : Except ε α) (post : α → Prop) : Prop :=
  match x with
  | .ok a => post a
  | .error e => allowed e

theorem Yields.pure {post : α → Prop} {a : α} (holds : post a) :
    Yields allowed (Pure.pure a : Except ε α) post := holds

variable {post : β → Prop}

theorem Yields.bind {x : Except ε α} {f : α → Except ε β} {mid : α → Prop}
    (first : Yields allowed x mid) (next : ∀ a, mid a → Yields allowed (f a) post) :
    Yields allowed (x >>= f) post := by
  cases x with
  | ok a => exact next a first
  | error e => exact first

theorem Yields.mono {x : Except ε α} {post weaker : α → Prop} (yields : Yields allowed x post)
    (implies : ∀ a, post a → weaker a) : Yields allowed x weaker := by
  cases x with
  | ok a => exact implies a yields
  | error e => exact yields

theorem Yields.require {e : ε} [Decidable condition] {f : Unit → Except ε β} (holds : condition)
    (next : Yields allowed (f ()) post) :
    Yields allowed (Guarded.require e condition >>= f) post := by
  rw [require_bind holds]
  exact next

theorem Yields.require_allowed {e : ε} [Decidable condition] {f : Unit → Except ε β}
    (may : allowed e) (next : condition → Yields allowed (f ()) post) :
    Yields allowed (Guarded.require e condition >>= f) post := by
  rw [Guarded.require]
  split
  next holds => exact next holds
  next fails => exact may

end LsvdRbd.Guarded
