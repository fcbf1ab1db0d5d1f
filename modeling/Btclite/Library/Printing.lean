import Mathlib.Data.List.Basic

/-!
# Printed numbers and separated lists

A number is read off its digits, and the parts of a list off the list joined by
a separator that is in none of them.
-/

namespace Printing

section Digits

variable {b m n : Nat} {c : Char}

theorem digitChar_inj (hm : m < 16) (hn : n < 16) (h : m.digitChar = n.digitChar) : m = n := by
  have hall : ∀ m < 16, ∀ n < 16, Nat.digitChar m = Nat.digitChar n → m = n := by decide
  exact hall m hm n hn h

theorem toDigits_injective (hb : 1 < b) (hb16 : b ≤ 16) : Function.Injective (Nat.toDigits b) := by
  intro m
  induction m using Nat.strongRecOn with
  | ind m ih =>
    intro n h
    have hnil : ∀ k, Nat.toDigits b k ≠ [] := fun k => Nat.toDigits_ne_nil
    by_cases hm : m < b
    · by_cases hn : n < b
      · rw [Nat.toDigits_of_lt_base hm, Nat.toDigits_of_lt_base hn] at h
        exact digitChar_inj (Nat.lt_of_lt_of_le hm hb16) (Nat.lt_of_lt_of_le hn hb16)
          (List.singleton_injective h)
      · rw [Nat.toDigits_of_lt_base hm, Nat.toDigits_of_base_le hb (Nat.le_of_not_lt hn)] at h
        have hlonger : [] ++ [m.digitChar] = Nat.toDigits b (n / b) ++ [(n % b).digitChar] := h
        exact absurd (List.append_inj' hlonger rfl).1.symm (hnil _)
    · have hle := Nat.le_of_not_lt hm
      by_cases hn : n < b
      · rw [Nat.toDigits_of_lt_base hn, Nat.toDigits_of_base_le hb hle] at h
        have hlonger : Nat.toDigits b (m / b) ++ [(m % b).digitChar] = [] ++ [n.digitChar] := h
        exact absurd (List.append_inj' hlonger rfl).1 (hnil _)
      · rw [Nat.toDigits_of_base_le hb hle, Nat.toDigits_of_base_le hb (Nat.le_of_not_lt hn)] at h
        rcases List.append_inj' h rfl with ⟨hdiv, hlast⟩
        have hquot : m / b = n / b :=
          ih (m / b) (Nat.div_lt_self (Nat.lt_of_lt_of_le (Nat.zero_lt_of_lt hb) hle) hb) hdiv
        have hrem : m % b = n % b :=
          digitChar_inj (Nat.lt_of_lt_of_le (Nat.mod_lt m (Nat.zero_lt_of_lt hb)) hb16)
            (Nat.lt_of_lt_of_le (Nat.mod_lt n (Nat.zero_lt_of_lt hb)) hb16)
            (List.singleton_injective hlast)
        rw [← Nat.div_add_mod m b, hquot, hrem, Nat.div_add_mod]

theorem mem_toDigits (hb : 1 < b) (h : c ∈ Nat.toDigits b n) : ∃ d < b, c = d.digitChar := by
  induction n using Nat.strongRecOn with
  | ind n ih =>
    by_cases hn : n < b
    · rw [Nat.toDigits_of_lt_base hn] at h
      exact ⟨n, hn, List.mem_singleton.mp h⟩
    · have hle := Nat.le_of_not_lt hn
      rw [Nat.toDigits_of_base_le hb hle] at h
      rcases List.mem_append.mp h with h | h
      · exact ih (n / b) (Nat.div_lt_self (Nat.lt_of_lt_of_le (Nat.zero_lt_of_lt hb) hle) hb) h
      · exact ⟨n % b, Nat.mod_lt n (Nat.zero_lt_of_lt hb), List.mem_singleton.mp h⟩

end Digits

section Separators

universe u

variable {A : Type u} {sep : A}

theorem intercalate_inj [DecidableEq A] {xs ys : List (List A)}
    (hx : ∀ x ∈ xs, sep ∉ x) (hy : ∀ y ∈ ys, sep ∉ y) (hxs : xs ≠ []) (hys : ys ≠ []) (h : [sep].intercalate xs = [sep].intercalate ys) :
    xs = ys := by
  rw [← List.splitOn_intercalate sep hx hxs, h, List.splitOn_intercalate sep hy hys]

theorem mem_intercalate {c : A} {xs : List (List A)} (h : c ∈ [sep].intercalate xs) :
    c = sep ∨ ∃ x ∈ xs, c ∈ x := by
  induction xs with
  | nil => cases h
  | cons x xs ih =>
    by_cases hxs : xs = []
    · subst hxs
      rw [List.intercalate_singleton] at h
      exact Or.inr ⟨x, List.mem_singleton_self x, h⟩
    · rw [List.intercalate_cons_of_ne_nil hxs, List.append_assoc] at h
      rcases List.mem_append.mp h with h | h
      · exact Or.inr ⟨x, List.mem_cons_self, h⟩
      rcases List.mem_append.mp h with h | h
      · exact Or.inl (List.mem_singleton.mp h)
      rcases ih h with h | ⟨y, hy, hc⟩
      · exact Or.inl h
      · exact Or.inr ⟨y, List.mem_cons_of_mem x hy, hc⟩

/-- What stands behind the last separator is read off too. -/
theorem append_sep_inj [DecidableEq A] {xs ys s t : List A} (hs : sep ∉ s) (ht : sep ∉ t)
    (h : xs ++ sep :: s = ys ++ sep :: t) : xs = ys ∧ s = t := by
  have hsplit := congrArg (List.splitOn sep) h
  rw [List.splitOn_append_cons_self, List.splitOn_append_cons_self, List.splitOn_eq_singleton hs,
    List.splitOn_eq_singleton ht] at hsplit
  have hlast : s = t := List.singleton_injective (List.append_inj' hsplit rfl).2
  exact ⟨List.append_cancel_right (hlast ▸ h), hlast⟩

end Separators

end Printing
