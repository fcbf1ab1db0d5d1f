import Btclite.Consensus.Transactions
import Mathlib.Algebra.BigOperators.Group.List.Basic

/-!
# Amounts

`OutputsAmount` adds up in 64 bits and checks after each addition. Every sum that it
goes on with is at most the limit, and adding one more value that is at most the limit
carries nothing out of 64 bits.
-/

namespace Amounts

open Serialize Transactions

def kSatoshiPerBitcoin : U64 := 100000000

def kMaxSatoshiAmount : U64 := 21000000 * kSatoshiPerBitcoin

/-- A turn of the loop over the outputs. -/
def addOutput (amount : U64) (output : TxOut) : Except String U64 :=
  let amount := amount + output.value
  if kMaxSatoshiAmount < output.value ∨ kMaxSatoshiAmount < amount then
    .error "OutputsAmount: value out of range"
  else .ok amount

def outputsAmount (t : Transaction) : Except String U64 := t.outputs.foldlM addOutput 0

/-- The sum of the values. -/
def total (outputs : List TxOut) : Nat := (outputs.map fun output => output.value.toNat).sum

/-- Every value and the sum are in range. -/
def InRange (amount : Nat) (outputs : List TxOut) : Prop :=
  (∀ output ∈ outputs, output.value.toNat ≤ kMaxSatoshiAmount.toNat) ∧
    amount + total outputs ≤ kMaxSatoshiAmount.toNat

variable {amount : U64} {output : TxOut} {outputs : List TxOut}

theorem kMaxSatoshiAmount_toNat : kMaxSatoshiAmount.toNat = 2100000000000000 := by decide

theorem total_cons : total (output :: outputs) = output.value.toNat + total outputs :=
  List.sum_cons

/-- An addition that starts in range either stays there or is refused. -/
theorem addOutput_eq (hamount : amount.toNat ≤ kMaxSatoshiAmount.toNat) (output : TxOut) :
    (amount.toNat + output.value.toNat ≤ kMaxSatoshiAmount.toNat ∧
        addOutput amount output = .ok (amount + output.value) ∧
        (amount + output.value).toNat = amount.toNat + output.value.toNat) ∨
      kMaxSatoshiAmount.toNat < amount.toNat + output.value.toNat ∧
        addOutput amount output = .error "OutputsAmount: value out of range" := by
  have hmax := kMaxSatoshiAmount_toNat
  have hsum : (amount + output.value).toNat = (amount.toNat + output.value.toNat) % 2 ^ 64 :=
    BitVec.toNat_add _ _
  by_cases hvalue : kMaxSatoshiAmount < output.value
  · have hlarge := BitVec.lt_def.mp hvalue
    exact Or.inr ⟨by omega, if_pos (Or.inl hvalue)⟩
  · have hsmall := BitVec.le_def.mp (BitVec.not_lt.mp hvalue)
    have hexact : (amount + output.value).toNat = amount.toNat + output.value.toNat := by
      rw [hsum]
      omega
    by_cases hover : kMaxSatoshiAmount < amount + output.value
    · have hlarge := BitVec.lt_def.mp hover
      exact Or.inr ⟨by omega, if_pos (Or.inr hover)⟩
    · have hle := BitVec.le_def.mp (BitVec.not_lt.mp hover)
      exact Or.inl ⟨by omega, if_neg (not_or.mpr ⟨hvalue, hover⟩), hexact⟩

theorem foldlM_addOutput (hamount : amount.toNat ≤ kMaxSatoshiAmount.toNat)
    (outputs : List TxOut) :
    (InRange amount.toNat outputs → ∃ sum, outputs.foldlM addOutput amount = .ok sum ∧
      sum.toNat = amount.toNat + total outputs) ∧
    (¬ InRange amount.toNat outputs →
      outputs.foldlM addOutput amount = .error "OutputsAmount: value out of range") := by
  induction outputs generalizing amount with
  | nil =>
    refine ⟨fun _ => ⟨amount, rfl, rfl⟩, fun h => ?_⟩
    exact absurd ⟨fun output hmem => absurd hmem List.not_mem_nil, hamount⟩ h
  | cons output outputs ih =>
    rw [List.foldlM_cons]
    rcases addOutput_eq hamount output with ⟨hle, hadd, hexact⟩ | ⟨hlarge, hadd⟩
    · have hrest : InRange amount.toNat (output :: outputs) ↔
          InRange (amount + output.value).toNat outputs := by
        rw [InRange, InRange, List.forall_mem_cons, total_cons, hexact, Nat.add_assoc]
        exact and_congr_left fun _ => and_iff_right (by omega)
      rcases ih (hexact.trans_le hle) with ⟨hok, herror⟩
      rw [hadd, hrest, total_cons, ← Nat.add_assoc, ← hexact]
      exact ⟨hok, herror⟩
    · have hout : ¬ InRange amount.toNat (output :: outputs) := by
        rintro ⟨-, hsum⟩
        rw [total_cons] at hsum
        omega
      rw [hadd]
      exact ⟨fun h => absurd h hout, fun _ => rfl⟩

/-- The amount is the sum of the values, or it is out of range, and nothing wraps around. -/
theorem outputsAmount_exact (t : Transaction) :
    (InRange 0 t.outputs → ∃ amount, outputsAmount t = .ok amount ∧
      amount.toNat = total t.outputs) ∧
    (¬ InRange 0 t.outputs →
      outputsAmount t = .error "OutputsAmount: value out of range") := by
  rcases @foldlM_addOutput 0 (Nat.zero_le _) t.outputs with ⟨hok, herror⟩
  refine ⟨fun h => ?_, herror⟩
  obtain ⟨amount, hamount, hsum⟩ := hok h
  exact ⟨amount, hamount, hsum.trans (Nat.zero_add _)⟩

end Amounts
