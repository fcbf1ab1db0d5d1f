import Mathlib.Data.List.AList
import Mathlib.Data.List.Count
import Mathlib.Data.List.Perm.Basic

/-!
# Tables

Maps whose insertion leaves a key that is already there as it is, lists that
an element is taken out of by moving the last one into its place, and how many
entries of a list have a property when one of them changes.
-/

namespace Tables

universe u v

section Maps

variable {K : Type u} {V : K → Type v} [DecidableEq K]

def insertNew (k : K) (v : V k) (m : AList V) : AList V := if k ∈ m then m else m.insert k v

variable {k k' : K} {v : V k} {m : AList V}

theorem insertNew_of_mem (h : k ∈ m) : insertNew k v m = m := if_pos h

theorem insertNew_of_notMem (h : k ∉ m) : insertNew k v m = m.insert k v := if_neg h

theorem mem_insertNew : k' ∈ insertNew k v m ↔ k' = k ∨ k' ∈ m := by
  by_cases h : k ∈ m
  · rw [insertNew_of_mem h]
    constructor
    · exact Or.inr
    · rintro (rfl | h')
      · exact h
      · exact h'
  · rw [insertNew_of_notMem h, AList.mem_insert]

theorem lookup_eq_some_mem {a : V k} (h : m.lookup k = some a) : k ∈ m :=
  AList.lookup_isSome.mp (Option.isSome_iff_exists.mpr ⟨a, h⟩)

theorem exists_lookup (h : k ∈ m) : ∃ a, m.lookup k = some a :=
  Option.isSome_iff_exists.mp (AList.lookup_isSome.mpr h)

end Maps

section Lists

variable {A : Type u} [DecidableEq A]

/-- Move the last element over the first one that equals this, and drop the last. -/
def eraseBySwap (a : A) (l : List A) : List A :=
  match l.getLast? with
  | some last => if a ∈ l then (l.set (l.idxOf a) last).dropLast else l
  | none => l

variable {a : A} {l : List A}

theorem eraseBySwap_perm (h : a ∈ l) : (eraseBySwap a l).Perm (l.erase a) := by
  obtain ⟨before, after, rfl, hnot⟩ := List.eq_append_cons_of_mem h
  have hidx : (before ++ a :: after).idxOf a = before.length := by
    rw [List.idxOf_append_of_notMem hnot, List.idxOf_cons_self, Nat.add_zero]
  have herase : (before ++ a :: after).erase a = before ++ after := by
    rw [List.erase_append_right _ hnot, List.erase_cons_head]
  rw [herase]
  rcases List.eq_nil_or_concat after with rfl | ⟨middle, last, rfl⟩
  · have hlast : (before ++ [a]).getLast? = some a := by simp
    rw [eraseBySwap, hlast]
    simp only [if_pos h, hidx, List.set_append_right _ _ (Nat.le_refl _), Nat.sub_self,
      List.set_cons_zero, List.dropLast_concat, List.append_nil]
    exact List.Perm.refl _
  · rw [List.concat_eq_append] at *
    have hlast : (before ++ a :: (middle ++ [last])).getLast? = some last := by
      rw [← List.cons_append, ← List.append_assoc, List.getLast?_concat]
    rw [eraseBySwap, hlast]
    have hset : ((before ++ a :: (middle ++ [last])).set before.length last).dropLast =
        before ++ last :: middle := by
      rw [List.set_append_right _ _ (Nat.le_refl _), Nat.sub_self, List.set_cons_zero]
      have hassoc : before ++ last :: (middle ++ [last]) =
          (before ++ last :: middle) ++ [last] := by
        simp
      rw [hassoc, List.dropLast_concat]
    simp only [if_pos h, hidx, hset]
    exact List.Perm.append_left _ (List.perm_append_singleton last middle).symm

theorem eraseBySwap_of_notMem (h : a ∉ l) : eraseBySwap a l = l := by
  rw [eraseBySwap]
  cases l.getLast? with
  | none => rfl
  | some last => exact if_neg h

/-- Without repetitions, that element is what goes. -/
theorem eraseBySwap_spec (hnodup : l.Nodup) (h : a ∈ l) :
    (eraseBySwap a l).Nodup ∧ ∀ b, b ∈ eraseBySwap a l ↔ b ≠ a ∧ b ∈ l := by
  have hperm := eraseBySwap_perm h
  refine ⟨hperm.nodup_iff.mpr (hnodup.erase a), fun b => ?_⟩
  rw [hperm.mem_iff, hnodup.mem_erase_iff]

end Lists

section Counting

variable {A : Type u} {p : A → Bool} {l : List A} {i : Nat} {a : A}

theorem countP_eraseIdx (h : l[i]? = some a) :
    l.countP p = (l.eraseIdx i).countP p + if p a then 1 else 0 := by
  obtain ⟨hi, rfl⟩ := List.getElem?_eq_some_iff.mp h
  rw [← (List.getElem_cons_eraseIdx_perm hi).countP_eq p, List.countP_cons]

/-- Stated as a sum, so that nothing is lost to the subtraction of `List.countP_set`. -/
theorem countP_set (h : l[i]? = some a) (a' : A) :
    (l.set i a').countP p + (if p a then 1 else 0) = l.countP p + if p a' then 1 else 0 := by
  obtain ⟨hi, rfl⟩ := List.getElem?_eq_some_iff.mp h
  have hnew : (l.set i a')[i]? = some a' := List.getElem?_set_self hi
  have hset := countP_eraseIdx (p := p) hnew
  have hold := countP_eraseIdx (p := p) h
  rw [List.eraseIdx_set_eq] at hset
  omega

theorem count_eraseIdx [BEq A] (h : l[i]? = some a) (b : A) :
    l.count b = (l.eraseIdx i).count b + if a == b then 1 else 0 :=
  countP_eraseIdx h

theorem count_set [BEq A] (h : l[i]? = some a) (a' b : A) :
    (l.set i a').count b + (if a == b then 1 else 0) = l.count b + if a' == b then 1 else 0 :=
  countP_set h a'

end Counting

end Tables
