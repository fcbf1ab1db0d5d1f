import Mathlib.Data.List.Basic

/-!
# Assignment into storage that is kept

A vector keeps its storage when something shorter than its capacity is assigned
to it: the elements that are there are assigned to, and only those behind them
are made anew. So the vector equals what was assigned exactly if its storage
was too small or the assignment of every such element is right.
-/

namespace Storage

universe u

/-- A vector, and how many elements its storage has room for. -/
structure Stored (A : Type u) where
  elements : List A
  capacity : Nat
  size_le : elements.length ≤ capacity

variable {A : Type u}

/-- `assign` on the elements that both have, then copies of the others. -/
def overwrite (construct : A → A) (assign : A → A → A) (v w : List A) : List A :=
  v.zipWith assign w ++ (w.drop v.length).map construct

theorem overwrite_length (construct : A → A) (assign : A → A → A) (v w : List A) :
    (overwrite construct assign v w).length = w.length := by
  simp only [overwrite, List.length_append, List.length_zipWith, List.length_map,
    List.length_drop]
  omega

theorem overwrite_eq_iff {construct : A → A} {assign : A → A → A}
    (hconstruct : ∀ a, construct a = a) {v w : List A} :
    overwrite construct assign v w = w ↔ ∀ p ∈ v.zip w, assign p.1 p.2 = p.2 := by
  induction v generalizing w with
  | nil =>
    have hmap : w.map construct = w := List.map_id'' hconstruct w
    simp [overwrite, hmap]
  | cons a v ih =>
    cases w with
    | nil => simp [overwrite]
    | cons b w =>
      rw [List.zip_cons_cons, List.forall_mem_cons, ← ih]
      simp [overwrite]

/-- Copy assignment of a vector. -/
def copyAssign (construct : A → A) (assign : A → A → A) (v w : Stored A) : Stored A :=
  if h : v.capacity < w.elements.length then
    { elements := w.elements.map construct
      capacity := w.elements.length
      size_le := Nat.le_of_eq (List.length_map _) }
  else
    { elements := overwrite construct assign v.elements w.elements
      capacity := v.capacity
      size_le := by
        rw [overwrite_length]
        exact Nat.le_of_not_lt h }

theorem copyAssign_eq_iff {construct : A → A} {assign : A → A → A}
    (hconstruct : ∀ a, construct a = a) {v w : Stored A} :
    (copyAssign construct assign v w).elements = w.elements ↔
      v.capacity < w.elements.length ∨
        ∀ p ∈ v.elements.zip w.elements, assign p.1 p.2 = p.2 := by
  by_cases h : v.capacity < w.elements.length
  · rw [copyAssign, dif_pos h]
    exact iff_of_true (List.map_id'' hconstruct w.elements) (Or.inl h)
  · rw [copyAssign, dif_neg h, or_iff_right h]
    exact overwrite_eq_iff hconstruct

end Storage
