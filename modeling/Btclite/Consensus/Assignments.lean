import Btclite.Consensus.Transactions
import Btclite.Library.Storage

/-!
# Assignment of transactions and blocks

The assignment operators of the consensus classes, field by field, between
distinct objects. Here an input carries its witness, and a vector its capacity,
on which it depends whether elements are assigned to or made anew.
-/

namespace Assignments

open Endian Serialize Storage
open Transactions (OutPoint Script TxOut BlockHeader)

structure ScriptWitness where
  stack : List (List Byte) := []
deriving DecidableEq

/-- An input with the witness that is not written with it. -/
structure TxIn extends Transactions.TxIn where
  scriptWitness : ScriptWitness := {}
deriving DecidableEq

structure Transaction where
  version : U32
  inputs : Stored TxIn
  outputs : Stored TxOut
  lockTime : U32

structure Block where
  header : BlockHeader
  transactions : Stored Transaction

/-- What the accessors of a transaction give. -/
def Transaction.fields (t : Transaction) : U32 × List TxIn × List TxOut × U32 :=
  (t.version, t.inputs.elements, t.outputs.elements, t.lockTime)

def Block.fields (b : Block) : BlockHeader × List (U32 × List TxIn × List TxOut × U32) :=
  (b.header, b.transactions.elements.map Transaction.fields)

section Operators

def OutPoint.assign (a b : OutPoint) : OutPoint :=
  { a with prevHash := b.prevHash, index := b.index }

def OutPoint.moveAssign (a b : OutPoint) : OutPoint :=
  { a with prevHash := b.prevHash, index := b.index }

def Script.assign (a b : Script) : Script := { a with data := b.data }

def Script.moveAssign (a b : Script) : Script := { a with data := b.data }

def TxOut.copy (o : TxOut) : TxOut where
  value := o.value
  scriptPubKey := o.scriptPubKey

def TxOut.assign (a b : TxOut) : TxOut :=
  { a with value := b.value, scriptPubKey := Script.assign a.scriptPubKey b.scriptPubKey }

def TxOut.moveAssign (a b : TxOut) : TxOut :=
  { a with value := b.value, scriptPubKey := Script.moveAssign a.scriptPubKey b.scriptPubKey }

/-- The copy constructor takes the witness along, which the assignments leave as it is. -/
def TxIn.copy (i : TxIn) : TxIn where
  prevout := i.prevout
  scriptSig := i.scriptSig
  sequenceNo := i.sequenceNo
  scriptWitness := i.scriptWitness

def TxIn.assign (a b : TxIn) : TxIn :=
  { a with
    prevout := OutPoint.assign a.prevout b.prevout
    scriptSig := Script.assign a.scriptSig b.scriptSig
    sequenceNo := b.sequenceNo }

def TxIn.moveAssign (a b : TxIn) : TxIn :=
  { a with
    prevout := OutPoint.moveAssign a.prevout b.prevout
    scriptSig := Script.moveAssign a.scriptSig b.scriptSig
    sequenceNo := b.sequenceNo }

def Transaction.assign (a b : Transaction) : Transaction :=
  { a with
    version := b.version
    inputs := copyAssign TxIn.copy TxIn.assign a.inputs b.inputs
    outputs := copyAssign TxOut.copy TxOut.assign a.outputs b.outputs
    lockTime := b.lockTime }

/-- A vector that is moved hands its storage over. -/
def Transaction.moveAssign (a b : Transaction) : Transaction :=
  { a with
    version := b.version
    inputs := b.inputs
    outputs := b.outputs
    lockTime := b.lockTime }

def BlockHeader.assign (a b : BlockHeader) : BlockHeader :=
  { a with
    version := b.version
    prevBlockHash := b.prevBlockHash
    merkleRootHash := b.merkleRootHash
    time := b.time
    bits := b.bits
    nonce := b.nonce }

def BlockHeader.moveAssign (a b : BlockHeader) : BlockHeader :=
  { a with
    version := b.version
    prevBlockHash := b.prevBlockHash
    merkleRootHash := b.merkleRootHash
    time := b.time
    bits := b.bits
    nonce := b.nonce }

/-- The move assignment of a block, whose body does nothing. Copy assignment is deleted. -/
def Block.moveAssign (a _b : Block) : Block := a

end Operators

section Inputs

theorem TxIn.assign_eq (a b : TxIn) :
    TxIn.assign a b = { b with scriptWitness := a.scriptWitness } :=
  rfl

theorem TxIn.moveAssign_eq (a b : TxIn) :
    TxIn.moveAssign a b = { b with scriptWitness := a.scriptWitness } :=
  rfl

theorem with_witness_eq_iff {w : ScriptWitness} {i : TxIn} :
    { i with scriptWitness := w } = i ↔ w = i.scriptWitness := by
  constructor
  · intro h
    exact congrArg TxIn.scriptWitness h
  · rintro rfl
    rfl

theorem TxIn.assign_eq_iff {a b : TxIn} :
    TxIn.assign a b = b ↔ a.scriptWitness = b.scriptWitness := by
  rw [TxIn.assign_eq, with_witness_eq_iff]

theorem TxIn.moveAssign_eq_iff {a b : TxIn} :
    TxIn.moveAssign a b = b ↔ a.scriptWitness = b.scriptWitness := by
  rw [TxIn.moveAssign_eq, with_witness_eq_iff]

/-- Where the storage of a transaction's inputs is kept, each input in it keeps its witness. -/
theorem Transaction.assign_iff {a b : Transaction} :
    (Transaction.assign a b).fields = b.fields ↔
      a.inputs.capacity < b.inputs.elements.length ∨
        ∀ p ∈ a.inputs.elements.zip b.inputs.elements,
          p.1.scriptWitness = p.2.scriptWitness := by
  have hinputs : (copyAssign TxIn.copy TxIn.assign a.inputs b.inputs).elements =
      b.inputs.elements ↔ _ := copyAssign_eq_iff fun _ => rfl
  have houtputs : (copyAssign TxOut.copy TxOut.assign a.outputs b.outputs).elements =
      b.outputs.elements := (copyAssign_eq_iff fun _ => rfl).mpr (Or.inr fun _ _ => rfl)
  simp only [TxIn.assign_eq_iff] at hinputs
  rw [← hinputs]
  simp [Transaction.fields, Transaction.assign, houtputs]

end Inputs

/-- For every class, when an assignment leaves the destination with the source's fields. -/
theorem assignments_iff (outPoint outPoint' : OutPoint) (txOut txOut' : TxOut)
    (header header' : BlockHeader) (txIn txIn' : TxIn) (transaction transaction' : Transaction)
    (block block' : Block) :
    (OutPoint.assign outPoint outPoint' = outPoint' ∧
        OutPoint.moveAssign outPoint outPoint' = outPoint') ∧
      (TxOut.assign txOut txOut' = txOut' ∧ TxOut.moveAssign txOut txOut' = txOut') ∧
      (BlockHeader.assign header header' = header' ∧
        BlockHeader.moveAssign header header' = header') ∧
      ((TxIn.assign txIn txIn' = txIn' ↔ txIn.scriptWitness = txIn'.scriptWitness) ∧
        (TxIn.moveAssign txIn txIn' = txIn' ↔ txIn.scriptWitness = txIn'.scriptWitness)) ∧
      (((Transaction.assign transaction transaction').fields = transaction'.fields ↔
          transaction.inputs.capacity < transaction'.inputs.elements.length ∨
            ∀ p ∈ transaction.inputs.elements.zip transaction'.inputs.elements,
              p.1.scriptWitness = p.2.scriptWitness) ∧
        (Transaction.moveAssign transaction transaction').fields = transaction'.fields) ∧
      ((Block.moveAssign block block').fields = block'.fields ↔
        block.header = block'.header ∧
          block.transactions.elements.map Transaction.fields =
            block'.transactions.elements.map Transaction.fields) := by
  refine ⟨⟨rfl, rfl⟩, ⟨rfl, rfl⟩, ⟨rfl, rfl⟩, ⟨TxIn.assign_eq_iff, TxIn.moveAssign_eq_iff⟩,
    ⟨Transaction.assign_iff, rfl⟩, ?_⟩
  rw [Block.moveAssign, Block.fields, Block.fields, Prod.mk.injEq]

/-- An input of a null outpoint whose witness is one item of one byte. -/
def witnessed (b : Byte) : TxIn where
  prevout := ⟨Bytes.zero 32, 0⟩
  scriptSig := ⟨[]⟩
  sequenceNo := 0
  scriptWitness := ⟨[[b]]⟩

/-- A transaction of that input alone. -/
def spending (b : Byte) : Transaction where
  version := 1
  inputs := ⟨[witnessed b], 1, Nat.le_refl 1⟩
  outputs := ⟨[], 0, by decide⟩
  lockTime := 0

/-- The witness of the destination stays, also inside a transaction that is copied, and a
block that is assigned to stays as it was. -/
theorem witness_stays :
    (TxIn.assign (witnessed 1) (witnessed 2)).scriptWitness = ⟨[[1]]⟩ ∧
      (TxIn.moveAssign (witnessed 1) (witnessed 2)).scriptWitness = ⟨[[1]]⟩ ∧
      ((Transaction.assign (spending 1) (spending 2)).inputs.elements.map TxIn.scriptWitness =
        [⟨[[1]]⟩]) ∧
      (Block.moveAssign ⟨.cleared, ⟨[], 0, by decide⟩⟩
        ⟨.cleared, ⟨[spending 2], 1, by decide⟩⟩).fields.2 = [] := by
  decide

end Assignments
