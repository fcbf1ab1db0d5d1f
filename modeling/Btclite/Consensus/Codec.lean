import Btclite.Consensus.Transactions
import Btclite.Utility.ZeroedMemory

/-!
# The codec of transactions and blocks

What is written of a transaction, a header or a block is read back, whatever
follows it, and a transaction takes the bytes that `SerializedSize` counts. The
lengths are those that the deserializer admits.
-/

namespace Codec

open Endian Serialize Agreement Canonical CanonicalVectors ZeroedMemory Transactions

section Sizes

/-- `OutPoint::Size`. -/
def outPointSize (o : OutPoint) : Nat := o.prevHash.data.length + 4

def scriptSize (s : Script) : Nat := s.data.length + varIntSize s.data.length

def txInSize (i : TxIn) : Nat := outPointSize i.prevout + scriptSize i.scriptSig + 4

def txOutSize (o : TxOut) : Nat := scriptSize o.scriptPubKey + 8

/-- `Transaction::SerializedSize`. -/
def serializedSize (t : Transaction) : Nat :=
  4 + 4 + varIntSize t.inputs.length + t.inputs.foldl (fun size i => size + txInSize i) 0 +
    varIntSize t.outputs.length + t.outputs.foldl (fun size o => size + txOutSize o) 0

end Sizes

section Limits

/-- No vector or script is longer than a length that is read back. -/
def ScriptAdmitted (s : Script) : Prop := s.data.length ≤ kMaxVardataSize.toNat

instance : DecidablePred ScriptAdmitted :=
  fun s => inferInstanceAs (Decidable (s.data.length ≤ kMaxVardataSize.toNat))

structure TransactionAdmitted (t : Transaction) : Prop where
  inputs : t.inputs.length ≤ kMaxVardataSize.toNat
  scriptSigs : ∀ i ∈ t.inputs, ScriptAdmitted i.scriptSig
  outputs : t.outputs.length ≤ kMaxVardataSize.toNat
  scriptPubKeys : ∀ o ∈ t.outputs, ScriptAdmitted o.scriptPubKey

structure BlockAdmitted (b : Block) : Prop where
  transactions : b.transactions.length ≤ kMaxVardataSize.toNat
  each : ∀ t ∈ b.transactions, TransactionAdmitted t

theorem lt_of_admitted {n : Nat} (h : n ≤ kMaxVardataSize.toNat) : n < 2 ^ 64 := by
  have : kMaxVardataSize.toNat < 2 ^ 64 := by decide
  omega

end Limits

section Formats

theorem outPoint_recovers (o : OutPoint) : Recovers zeroed outPoint o.serialize o :=
  (array_recovers o.prevHash).bind ((word_recovers rfl o.index).last _)

theorem script_recovers {s : Script} (h : ScriptAdmitted s) :
    Recovers zeroed script s.serialize s := by
  rw [Script.serialize, serializeByteVector_eq]
  exact (vector_recovers h fun b _ => word_recovers rfl b).last _

theorem txIn_recovers {i : TxIn} (h : ScriptAdmitted i.scriptSig) :
    Recovers zeroed txIn i.serialize i := by
  rw [TxIn.serialize, List.append_assoc]
  apply (outPoint_recovers i.prevout).bind
  exact (script_recovers h).bind ((word_recovers rfl i.sequenceNo).last _)

theorem txOut_recovers {o : TxOut} (h : ScriptAdmitted o.scriptPubKey) :
    Recovers zeroed txOut o.serialize o :=
  (word_recovers rfl o.value).bind ((script_recovers h).last _)

theorem transaction_recovers {t : Transaction} (h : TransactionAdmitted t) :
    Recovers zeroed transaction t.serialize t := by
  have hinputs := vector_recovers h.inputs fun i hi => txIn_recovers (h.scriptSigs i hi)
  have houtputs := vector_recovers h.outputs fun o ho => txOut_recovers (h.scriptPubKeys o ho)
  rw [Transaction.serialize, List.append_assoc, List.append_assoc]
  apply (word_recovers rfl t.version).bind
  apply hinputs.bind
  exact houtputs.bind ((word_recovers rfl t.lockTime).last _)

theorem blockHeader_recovers (h : BlockHeader) : Recovers zeroed blockHeader h.serialize h := by
  simp only [BlockHeader.serialize, List.append_assoc]
  apply (word_recovers rfl h.version).bind
  apply (array_recovers h.prevBlockHash).bind
  apply (array_recovers h.merkleRootHash).bind
  apply (word_recovers rfl h.time).bind
  exact (word_recovers rfl h.bits).bind ((word_recovers rfl h.nonce).last _)

theorem block_recovers {b : Block} (h : BlockAdmitted b) :
    Recovers zeroed block b.serialize b := by
  apply (blockHeader_recovers b.header).bind
  exact (vector_recovers h.transactions fun t ht => transaction_recovers (h.each t ht)).last _

end Formats

/-- Over zeroed memory, and whatever follows the bytes, `a` is read from them and no more
is read. -/
def ReadsBack {A : Type} (deserialize : Deserializer A) (bytes : List Byte) (a : A) : Prop :=
  ∀ rest returned interrupted, ∃ s',
    deserialize ⟨bytes ++ rest, ⟨fun _ => 0#8, returned⟩, interrupted⟩ = .ok a s' ∧ s'.rest = rest

theorem readsBack_of_recovers {A : Type} {deserialize : Deserializer A} {p : Parser A}
    {write : A → List Byte} {a : A} (h : Agrees view [] deserialize p write)
    (hp : Recovers zeroed p (write a) a) : ReadsBack deserialize (write a) a := by
  intro rest returned interrupted
  obtain ⟨s', hrun, hcur, -⟩ :=
    h.reads (s := ⟨write a ++ rest, ⟨fun _ => 0#8, returned⟩, interrupted⟩) (hp rest)
  exact ⟨s', hrun, congrArg Cursor.rest hcur⟩

section Lengths

theorem foldl_size {A : Type} (size : A → Nat) (v : List A) (n : Nat) :
    v.foldl (fun n a => n + size a) n = n + (v.map size).sum := by
  induction v generalizing n with
  | nil => rfl
  | cons a v ih =>
    rw [List.foldl_cons, ih, List.map_cons, List.sum_cons, Nat.add_assoc]

theorem outPoint_length (o : OutPoint) : o.serialize.length = outPointSize o := by
  simp [OutPoint.serialize, outPointSize, serWriteData]

theorem script_length {s : Script} (h : ScriptAdmitted s) :
    s.serialize.length = scriptSize s := by
  rw [Script.serialize, serializeByteVector, List.length_append,
    serWriteVarInt_size (lt_of_admitted h), scriptSize, Nat.add_comm]

theorem txIn_length {i : TxIn} (h : ScriptAdmitted i.scriptSig) :
    i.serialize.length = txInSize i := by
  rw [TxIn.serialize, List.length_append, List.length_append, outPoint_length, script_length h,
    serWriteData, toLittleEndian_length, txInSize]

theorem txOut_length {o : TxOut} (h : ScriptAdmitted o.scriptPubKey) :
    o.serialize.length = txOutSize o := by
  rw [TxOut.serialize, List.length_append, script_length h, serWriteData, toLittleEndian_length,
    txOutSize, Nat.add_comm]

theorem transaction_length {t : Transaction} (h : TransactionAdmitted t) :
    t.serialize.length = serializedSize t := by
  have hinputs := serializeVector_length txInSize (lt_of_admitted h.inputs)
    fun i hi => txIn_length (h.scriptSigs i hi)
  have houtputs := serializeVector_length txOutSize (lt_of_admitted h.outputs)
    fun o ho => txOut_length (h.scriptPubKeys o ho)
  rw [Transaction.serialize, List.length_append, List.length_append, List.length_append, hinputs,
    houtputs, serializedSize, foldl_size, foldl_size]
  simp only [serWriteData, toLittleEndian_length]
  omega

end Lengths

/-- Transactions, headers and blocks are read back from what is written of them, and a
transaction has a writing of its own, of the size it declares. -/
theorem codec_recovers :
    (∀ t, TransactionAdmitted t → ReadsBack Transaction.deserialize t.serialize t ∧
        t.serialize.length = serializedSize t) ∧
      (∀ h, ReadsBack BlockHeader.deserialize h.serialize h) ∧
      (∀ b, BlockAdmitted b → ReadsBack Block.deserialize b.serialize b) ∧
      ∀ t t', TransactionAdmitted t → TransactionAdmitted t' → t ≠ t' →
        t.serialize ≠ t'.serialize := by
  refine ⟨fun t ht => ⟨?_, transaction_length ht⟩, fun h => ?_, fun b hb => ?_, ?_⟩
  · exact readsBack_of_recovers transaction_agrees (transaction_recovers ht)
  · exact readsBack_of_recovers blockHeader_agrees (blockHeader_recovers h)
  · exact readsBack_of_recovers block_agrees (block_recovers hb)
  · intro t t' ht ht' hne heq
    have hread := transaction_recovers ht
    rw [heq] at hread
    exact hne (hread.unique (transaction_recovers ht'))

/-- One input, one output, and a script of 253 bytes, whose length takes three. -/
def wideTransaction : Transaction where
  version := 1
  inputs := [⟨⟨Bytes.zero 32, 0⟩, ⟨[0x51]⟩, 0xffffffff⟩]
  outputs := [⟨50, ⟨List.replicate 253 0⟩⟩]
  lockTime := 0

theorem wideTransaction_admitted : TransactionAdmitted wideTransaction where
  inputs := by decide
  scriptSigs := by
    intro i hi
    rw [List.mem_singleton.mp hi]
    decide
  outputs := by decide
  scriptPubKeys := by
    intro o ho
    rw [List.mem_singleton.mp ho, ScriptAdmitted, List.length_replicate]
    decide

theorem codec_recovers_wide :
    (ReadsBack Transaction.deserialize wideTransaction.serialize wideTransaction ∧
        wideTransaction.serialize.length = serializedSize wideTransaction) ∧
      ReadsBack Block.deserialize (Block.serialize ⟨.cleared, [wideTransaction]⟩)
        ⟨.cleared, [wideTransaction]⟩ := by
  have hblock : BlockAdmitted ⟨.cleared, [wideTransaction]⟩ := by
    refine ⟨by decide, fun t ht => ?_⟩
    rw [List.mem_singleton.mp ht]
    exact wideTransaction_admitted
  exact ⟨codec_recovers.1 wideTransaction wideTransaction_admitted, codec_recovers.2.2.1 _ hblock⟩

end Codec
