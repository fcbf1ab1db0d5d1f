import Mathlib.Logic.Basic

/-!
# Assertions about state actions

What holds of the result and the state after an action, if something holds of
the state before. Actions put together with bind and branches meet what their
parts hand on to each other.
-/

namespace Assertions

universe u

variable {S A B : Type u} {P : S → Prop} {Q : A → S → Prop} {R : B → S → Prop}

def Meets (P : S → Prop) (m : StateM S A) (Q : A → S → Prop) : Prop :=
  ∀ s, P s → Q (m s).1 (m s).2

namespace Meets

theorem pure {a : A} (h : ∀ s, P s → Q a s) : Meets P (pure a : StateM S A) Q := h

theorem bind {m : StateM S A} {k : A → StateM S B} (hm : Meets P m Q)
    (hk : ∀ a, Meets (Q a) (k a) R) : Meets P (m >>= k) R :=
  fun s hs => hk (m s).1 (m s).2 (hm s hs)

theorem ite {c : Prop} [Decidable c] {m m' : StateM S A} (ht : c → Meets P m Q)
    (hf : ¬ c → Meets P m' Q) : Meets P (if c then m else m') Q := by
  by_cases h : c
  · simpa [h] using ht h
  · simpa [h] using hf h

theorem weaken {P' : S → Prop} {Q' : A → S → Prop} {m : StateM S A} (hm : Meets P m Q)
    (hP : ∀ s, P' s → P s) (hQ : ∀ a s, Q a s → Q' a s) : Meets P' m Q' :=
  fun s hs => hQ _ _ (hm s (hP s hs))

end Meets

end Assertions
