import Mathlib.Data.List.Basic
import Mathlib.Data.List.Pairwise
import Mathlib.Order.Lattice

/-!
# Sets sorted by a comparator

A set as the list of its elements in the order of a comparator, without
repetitions. An element is inserted before the first one that it comes before,
unless one that it is equivalent to is met first.
-/

namespace SortedSets

universe u v

variable {A : Type u} {less : A → A → Bool}

structure StrictTotal (less : A → A → Bool) : Prop where
  irrefl : ∀ a, less a a = false
  trans : ∀ a b c, less a b = true → less b c = true → less a c = true
  total : ∀ a b, a ≠ b → less a b = true ∨ less b a = true

/-- Comparing by a rank that no two elements share. -/
theorem StrictTotal.of_rank {B : Type v} [LinearOrder B] {rank : A → B}
    (hinj : Function.Injective rank) (h : ∀ a b, less a b = true ↔ rank a < rank b) :
    StrictTotal less where
  irrefl a := by
    rw [← Bool.not_eq_true, h]
    exact lt_irrefl _
  trans a b c hab hbc := (h a c).mpr (lt_trans ((h a b).mp hab) ((h b c).mp hbc))
  total a b hne := by
    rw [h, h]
    exact lt_or_gt_of_ne fun hsame => hne (hinj hsame)

/-- In the order of the comparator. -/
def Sorted (less : A → A → Bool) (l : List A) : Prop := l.Pairwise fun a b => less a b = true

theorem Sorted.nodup (h : StrictTotal less) {l : List A} (hl : Sorted less l) : l.Nodup := by
  refine hl.imp ?_
  rintro a b hless rfl
  rw [h.irrefl] at hless
  cases hless

/-- Comparators that agree on the elements sort them alike. -/
theorem Sorted.congr {less' : A → A → Bool} {l : List A} (hl : Sorted less l)
    (h : ∀ a ∈ l, ∀ b ∈ l, less' a b = less a b) : Sorted less' l := by
  refine hl.imp_of_mem ?_
  intro a b ha hb hless
  rwa [h a ha b hb]

def insertBy (less : A → A → Bool) (a : A) : List A → List A
  | [] => [a]
  | b :: rest =>
    if less a b then a :: b :: rest
    else if less b a then b :: insertBy less a rest
    else b :: rest

theorem mem_insertBy {a b : A} {l : List A} (h : b ∈ insertBy less a l) : b = a ∨ b ∈ l := by
  induction l with
  | nil => exact Or.inl (List.mem_singleton.mp h)
  | cons c rest ih =>
    rw [insertBy] at h
    split_ifs at h
    · exact List.mem_cons.mp h
    · rcases List.mem_cons.mp h with rfl | h
      · exact Or.inr List.mem_cons_self
      · exact (ih h).imp_right (List.mem_cons_of_mem _)
    · exact Or.inr h

theorem Sorted.insertBy (h : StrictTotal less) (a : A) {l : List A} (hl : Sorted less l) :
    Sorted less (SortedSets.insertBy less a l) := by
  induction l with
  | nil => exact List.pairwise_singleton _ _
  | cons b rest ih =>
    obtain ⟨hb, hrest⟩ := List.pairwise_cons.mp hl
    rw [SortedSets.insertBy]
    split_ifs with hab hba
    · refine List.pairwise_cons.mpr ⟨fun c hc => ?_, hl⟩
      rcases List.mem_cons.mp hc with rfl | hc
      · exact hab
      · exact h.trans a b c hab (hb c hc)
    · refine List.pairwise_cons.mpr ⟨fun c hc => ?_, ih hrest⟩
      rcases mem_insertBy hc with rfl | hc
      · exact hba
      · exact hb c hc
    · exact hl

end SortedSets
