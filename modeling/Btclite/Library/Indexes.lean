import Mathlib.Data.Finset.Basic
import Mathlib.Data.Finset.Filter
import Mathlib.Data.List.AList

/-!
# Indexes

An index keeps under a key the set of the places where the key occurs. It has
no empty set: the last place goes together with its key.
-/

namespace Indexes

universe u v

variable {K : Type u} {P : Type v} [DecidableEq K] [DecidableEq P]

/-- What an index holds under a key with these places. -/
def entry (places : Finset P) : Option (Finset P) := if places = ∅ then none else some places

/-- Take a place from the set of a key. -/
def dropPlace (p : P) (k : K) (index : AList fun _ : K => Finset P) : AList fun _ : K => Finset P :=
  match index.lookup k with
  | none => index
  | some places =>
    let places := places.erase p
    if places = ∅ then index.erase k else index.insert k places

variable {p : P} {k k' : K} {places : Finset P} {index : AList fun _ : K => Finset P}

theorem entry_empty : entry (∅ : Finset P) = none := if_pos rfl

theorem entry_eq_some {s : Finset P} : entry places = some s ↔ places = s ∧ s ≠ ∅ := by
  rw [entry]
  split_ifs with h
  · refine iff_of_false (by simp) ?_
    rintro ⟨rfl, hne⟩
    exact hne h
  · rw [Option.some_inj]
    constructor
    · rintro rfl
      exact ⟨rfl, h⟩
    · exact And.left

theorem lookup_dropPlace_self (h : index.lookup k = entry places) :
    (dropPlace p k index).lookup k = entry (places.erase p) := by
  rw [dropPlace]
  by_cases hempty : places = ∅
  · rw [hempty, entry_empty] at h
    rw [h, hempty, Finset.erase_empty, entry_empty]
    exact h
  · rw [entry, if_neg hempty] at h
    rw [h]
    dsimp only
    by_cases hlast : places.erase p = ∅
    · rw [if_pos hlast, hlast, entry_empty, AList.lookup_erase]
    · rw [if_neg hlast, entry, if_neg hlast, AList.lookup_insert]

theorem lookup_dropPlace_of_ne (h : k' ≠ k) :
    (dropPlace p k index).lookup k' = index.lookup k' := by
  rw [dropPlace]
  cases index.lookup k with
  | none => rfl
  | some places =>
    dsimp only
    split_ifs
    · exact AList.lookup_erase_ne h
    · exact AList.lookup_insert_ne h

end Indexes
