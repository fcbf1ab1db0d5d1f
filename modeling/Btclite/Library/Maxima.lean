import Mathlib.Order.Lattice

/-!
# First maxima

Where a function is largest on a list, and where it is so first. A scan that keeps
the best so far, and changes it only for what is better, ends there if anything is
better than what it started with.
-/

namespace Maxima

universe u v

variable {A : Type u} {T : Type v} [LinearOrder T] (f : A → T)

def FirstMax (l : List A) (a : A) : Prop :=
  ∃ before after, l = before ++ a :: after ∧ (∀ b ∈ before, f b < f a) ∧ ∀ b ∈ after, f b ≤ f a

def better (best : T × A) (a : A) : T × A := if best.1 < f a then (f a, a) else best

variable {f} {l : List A} {a : A}

theorem FirstMax.mem (h : FirstMax f l a) : a ∈ l := by
  obtain ⟨before, after, rfl, -, -⟩ := h
  exact List.mem_append_right _ List.mem_cons_self

theorem FirstMax.head (h : ∀ b ∈ l, f b ≤ f a) : FirstMax f (a :: l) a :=
  ⟨[], l, rfl, fun _ hb => absurd hb List.not_mem_nil, h⟩

theorem FirstMax.cons {x : A} (h : FirstMax f l a) (hx : f x < f a) : FirstMax f (x :: l) a := by
  obtain ⟨before, after, rfl, hbefore, hafter⟩ := h
  exact ⟨x :: before, after, rfl, List.forall_mem_cons.mpr ⟨hx, hbefore⟩, hafter⟩

/-- The scan stays where it is, or goes to the first maximum. -/
theorem foldl_better (l : List A) (best : T × A) :
    ((∀ a ∈ l, f a ≤ best.1) ∧ l.foldl (better f) best = best) ∨
      ∃ a, FirstMax f l a ∧ best.1 < f a ∧ l.foldl (better f) best = (f a, a) := by
  induction l generalizing best with
  | nil => exact Or.inl ⟨fun _ ha => absurd ha List.not_mem_nil, rfl⟩
  | cons x l ih =>
    rw [List.foldl_cons, better]
    by_cases hx : best.1 < f x
    · rw [if_pos hx]
      right
      rcases ih (f x, x) with ⟨hall, heq⟩ | ⟨a, ha, hlt, heq⟩
      · exact ⟨x, FirstMax.head hall, hx, heq⟩
      · exact ⟨a, ha.cons hlt, lt_trans hx hlt, heq⟩
    · rw [if_neg hx]
      rcases ih best with ⟨hall, heq⟩ | ⟨a, ha, hlt, heq⟩
      · exact Or.inl ⟨List.forall_mem_cons.mpr ⟨not_lt.mp hx, hall⟩, heq⟩
      · exact Or.inr ⟨a, ha.cons (lt_of_le_of_lt (not_lt.mp hx) hlt), hlt, heq⟩

end Maxima
