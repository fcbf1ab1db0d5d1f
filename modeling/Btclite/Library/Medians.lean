import Mathlib.Data.List.Sort
import Mathlib.Order.Basic

/-!
# Medians

A median of a list has less than half of it on either side. A list of odd
length has one, in the middle of the list when it is sorted, and it is the least
value there is exactly if more than half of the list is.
-/

namespace Medians

universe u v

variable {A : Type u} {K : Type v} [LinearOrder K] (key : A → K)

/-- Fewer than half of the list lie below, and fewer than half above. -/
structure IsMedian (l : List A) (m : A) : Prop where
  mem : m ∈ l
  below : 2 * l.countP (fun a => key a < key m) < l.length
  above : 2 * l.countP (fun a => key m < key a) < l.length

def sorted (l : List A) : List A := l.mergeSort fun a b => key a ≤ key b

theorem sorted_perm (l : List A) : (sorted key l).Perm l := List.mergeSort_perm l _

theorem sorted_pairwise (l : List A) : (sorted key l).Pairwise fun a b => key a ≤ key b := by
  have h : (sorted key l).Pairwise fun a b => decide (key a ≤ key b) = true := by
    apply List.pairwise_mergeSort
    · intro a b c hab hbc
      simp only [decide_eq_true_eq] at hab hbc ⊢
      exact le_trans hab hbc
    · intro a b
      simp only [Bool.or_eq_true, decide_eq_true_eq]
      exact le_total _ _
  exact h.imp of_decide_eq_true

variable {key} {l : List A} {m m' : A}

/-- The middle of the sorted list. -/
theorem middle_isMedian (hodd : l.length % 2 = 1)
    (h : (sorted key l)[l.length / 2]? = some m) : IsMedian key l m := by
  obtain ⟨hlt, hm⟩ := List.getElem?_eq_some_iff.mp h
  have hsplit : (sorted key l).take (l.length / 2) ++ m :: (sorted key l).drop (l.length / 2 + 1) =
      sorted key l := by
    rw [← hm, List.getElem_cons_drop, List.take_append_drop]
  have hsorted := sorted_pairwise key l
  have hlen := (sorted_perm key l).length_eq
  rw [← hsplit, List.pairwise_append, List.pairwise_cons] at hsorted
  obtain ⟨-, ⟨hafter, -⟩, hbefore⟩ := hsorted
  have hcount (p : A → Bool) : l.countP p = ((sorted key l).take (l.length / 2)).countP p +
      (m :: (sorted key l).drop (l.length / 2 + 1)).countP p := by
    rw [← List.countP_append, hsplit, (sorted_perm key l).countP_eq p]
  constructor
  · rw [← (sorted_perm key l).mem_iff]
    exact List.mem_of_getElem? h
  · have hnone : (m :: (sorted key l).drop (l.length / 2 + 1)).countP
        (fun a => key a < key m) = 0 := by
      rw [List.countP_eq_zero]
      intro a ha
      rcases List.mem_cons.mp ha with rfl | ha
      · simp
      · simpa using hafter a ha
    have hfew := List.countP_le_length (p := fun a => decide (key a < key m))
      (l := (sorted key l).take (l.length / 2))
    rw [List.length_take] at hfew
    rw [hcount, hnone]
    omega
  · have hnone : ((sorted key l).take (l.length / 2)).countP (fun a => key m < key a) = 0 := by
      rw [List.countP_eq_zero]
      intro a ha
      simpa using hbefore a ha m (List.mem_cons_self ..)
    have hself : (m :: (sorted key l).drop (l.length / 2 + 1)).countP
        (fun a => decide (key m < key a)) =
        ((sorted key l).drop (l.length / 2 + 1)).countP (fun a => decide (key m < key a)) := by
      simp
    have hfew := List.countP_le_length (p := fun a => decide (key m < key a))
      (l := (sorted key l).drop (l.length / 2 + 1))
    rw [List.length_drop] at hfew
    rw [hcount, hnone, hself]
    omega

/-- Two medians of a list have the same key. -/
theorem IsMedian.key_eq (h : IsMedian key l m) (h' : IsMedian key l m') : key m = key m' := by
  have hall (p q : A → Bool) (hpq : ∀ a, p a = true ∨ q a = true) :
      l.length ≤ l.countP p + l.countP q := by
    have hp := List.length_eq_countP_add_countP p (l := l)
    have hq : l.countP (fun a => ¬ p a = true) ≤ l.countP q := by
      apply List.countP_mono_left
      intro a _ ha
      exact (hpq a).resolve_left (by simpa using ha)
    omega
  rcases lt_trichotomy (key m) (key m') with hlt | heq | hlt
  · have hcover := hall (fun a => decide (key m < key a)) (fun a => decide (key a < key m'))
      fun a => by
        rcases lt_or_ge (key m) (key a) with ha | ha
        · exact Or.inl (by simpa using ha)
        · exact Or.inr (by simpa using lt_of_le_of_lt ha hlt)
    have := h.above
    have := h'.below
    omega
  · exact heq
  · have hcover := hall (fun a => decide (key m' < key a)) (fun a => decide (key a < key m))
      fun a => by
        rcases lt_or_ge (key m') (key a) with ha | ha
        · exact Or.inl (by simpa using ha)
        · exact Or.inr (by simpa using lt_of_le_of_lt ha hlt)
    have := h'.above
    have := h.below
    omega

/-- The median has a least key exactly if more than half of the list has it. -/
theorem IsMedian.least_iff (h : IsMedian key l m) {b : K} (hb : ∀ a, b ≤ key a) :
    key m = b ↔ l.length < 2 * l.countP (fun a => key a = b) := by
  constructor
  · intro hm
    have hrest : l.countP (fun a => decide (key m < key a)) =
        l.countP (fun a => ¬ decide (key a = b) = true) := by
      apply List.countP_congr
      intro a _
      simp only [hm, decide_eq_true_eq]
      exact (hb a).lt_iff_ne'
    have hlen := List.length_eq_countP_add_countP (fun a => decide (key a = b)) (l := l)
    have habove := h.above
    rw [hrest] at habove
    omega
  · intro hmost
    by_contra hm
    have hlow : b < key m := lt_of_le_of_ne (hb m) (Ne.symm hm)
    have hle : l.countP (fun a => decide (key a = b)) ≤
        l.countP (fun a => decide (key a < key m)) := by
      apply List.countP_mono_left
      intro a _ ha
      simp only [decide_eq_true_eq] at ha ⊢
      rw [ha]
      exact hlow
    have hbelow := h.below
    omega

end Medians
