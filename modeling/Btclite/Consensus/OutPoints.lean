import Btclite.Consensus.Transactions
import Btclite.Library.SortedSets
import Mathlib.Data.List.Lex
import Mathlib.Data.Prod.Lex

/-!
# The order of outpoints

The comparisons of `OutPoint` begin by comparing the same two outpoints again, so that
none of them returns. The order they are written down for is the lexicographic one, and
would have been a strict total order, as a map needs it.
-/

namespace OutPoints

open Serialize Transactions SortedSets

section Operators

/-- `operator==`. -/
def equal (a b : OutPoint) : Bool := a.prevHash == b.prevHash && a.index == b.index

/-- `operator<` on so many calls. -/
def less : Nat → OutPoint → OutPoint → Option Bool
  | 0, _, _ => none
  | calls + 1, a, b => do
    if ← less calls a b then pure true else pure (equal a b && decide (a.index < b.index))

/-- `operator>` on so many calls. -/
def greater : Nat → OutPoint → OutPoint → Option Bool
  | 0, _, _ => none
  | calls + 1, a, b => do
    if ← greater calls a b then pure true else pure (equal a b && decide (b.index < a.index))

end Operators

section Order

/-- What an outpoint is compared by: its hash first, and then its index. -/
def rank (a : OutPoint) : List Nat ×ₗ Nat := toLex (a.prevHash.data.map BitVec.toNat, a.index.toNat)

/-- The order of outpoints. -/
def before (a b : OutPoint) : Bool := decide (rank a < rank b)

variable {a b : OutPoint}

theorem rank_injective : Function.Injective rank := by
  intro a b h
  obtain ⟨hhash, hindex⟩ := Prod.mk.inj (toLex.injective h)
  have hdata : a.prevHash = b.prevHash :=
    Bytes.ext (List.map_injective_iff.mpr (fun _ _ => BitVec.eq_of_toNat_eq) hhash)
  cases a
  cases b
  exact congrArg₂ OutPoint.mk hdata (BitVec.eq_of_toNat_eq hindex)

theorem before_iff : before a b = true ↔
    a.prevHash.data.map BitVec.toNat < b.prevHash.data.map BitVec.toNat ∨
      a.prevHash = b.prevHash ∧ a.index < b.index := by
  have hhash : a.prevHash.data.map BitVec.toNat = b.prevHash.data.map BitVec.toNat ↔
      a.prevHash = b.prevHash :=
    ⟨fun h => Bytes.ext (List.map_injective_iff.mpr (fun _ _ => BitVec.eq_of_toNat_eq) h),
      fun h => by rw [h]⟩
  rw [before, decide_eq_true_iff, rank, rank, Prod.Lex.toLex_lt_toLex, hhash]
  rfl

theorem before_strictTotal : StrictTotal before :=
  StrictTotal.of_rank rank_injective fun _ _ => decide_eq_true_iff

theorem equal_iff_eq : equal a b = true ↔ a = b := by
  cases a
  cases b
  simp [equal]

/-- It agrees with `operator==`: of two outpoints one comes before the other unless they are
equal. -/
theorem equal_iff_neither : equal a b = true ↔ before a b = false ∧ before b a = false := by
  rw [equal_iff_eq]
  constructor
  · rintro rfl
    exact ⟨before_strictTotal.irrefl a, before_strictTotal.irrefl a⟩
  · rintro ⟨hab, hba⟩
    by_contra hne
    rcases before_strictTotal.total a b hne with h | h
    · rw [hab] at h
      cases h
    · rw [hba] at h
      cases h

end Order

section Comparisons

/-- The comparisons return, and what they return is the order. -/
structure Orders (a b : OutPoint) : Prop where
  less : ∃ calls, less calls a b = some (before a b)
  greater : ∃ calls, greater calls a b = some (before b a)

theorem less_endless (calls : Nat) (a b : OutPoint) : less calls a b = none := by
  induction calls with
  | zero => rfl
  | succ calls ih =>
    rw [less, ih]
    rfl

theorem greater_endless (calls : Nat) (a b : OutPoint) : greater calls a b = none := by
  induction calls with
  | zero => rfl
  | succ calls ih =>
    rw [greater, ih]
    rfl

/-- No two outpoints are ever compared. -/
theorem orders_never (a b : OutPoint) :
    (∀ calls, less calls a b = none ∧ greater calls a b = none) ∧ ¬ Orders a b := by
  refine ⟨fun calls => ⟨less_endless calls a b, greater_endless calls a b⟩, ?_⟩
  rintro ⟨⟨calls, hless⟩, -⟩
  rw [less_endless] at hless
  cases hless

/-- Two outputs of one transaction. -/
theorem outputs_unordered :
    before ⟨Bytes.zero 32, 0⟩ ⟨Bytes.zero 32, 1⟩ = true ∧
      ¬ Orders ⟨Bytes.zero 32, 0⟩ ⟨Bytes.zero 32, 1⟩ := by
  refine ⟨by decide, ?_⟩
  rintro ⟨⟨calls, hless⟩, -⟩
  rw [less_endless] at hless
  cases hless

end Comparisons

end OutPoints
