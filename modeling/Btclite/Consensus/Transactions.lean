import Btclite.Utility.CanonicalVectors

/-!
# Transactions and blocks on the wire

`Transaction` and `Block` of the consensus layer, down to the scripts they
hold, with their strict parsers. Witness data and cached hashes are not part of
either encoding.
-/

namespace Transactions

open Endian Serialize Agreement Canonical CanonicalVectors

structure OutPoint where
  prevHash : Hash256
  index : U32
deriving DecidableEq

structure Script where
  data : List Byte
deriving DecidableEq

structure TxIn where
  prevout : OutPoint
  scriptSig : Script
  sequenceNo : U32
deriving DecidableEq

structure TxOut where
  value : U64
  scriptPubKey : Script
deriving DecidableEq

structure Transaction where
  version : U32
  inputs : List TxIn
  outputs : List TxOut
  lockTime : U32
deriving DecidableEq

structure BlockHeader where
  version : U32
  prevBlockHash : Hash256
  merkleRootHash : Hash256
  time : U32
  bits : U32
  nonce : U32
deriving DecidableEq

/-- The header that `Clear` leaves. -/
def BlockHeader.cleared : BlockHeader :=
  ⟨0, Bytes.zero 32, Bytes.zero 32, 0, 0, 0⟩

structure Block where
  header : BlockHeader
  transactions : List Transaction
deriving DecidableEq

section Writing

def OutPoint.serialize (o : OutPoint) : List Byte := o.prevHash.data ++ serWriteData o.index

def Script.serialize (s : Script) : List Byte := serializeByteVector s.data

def TxIn.serialize (i : TxIn) : List Byte :=
  i.prevout.serialize ++ i.scriptSig.serialize ++ serWriteData i.sequenceNo

def TxOut.serialize (o : TxOut) : List Byte := serWriteData o.value ++ o.scriptPubKey.serialize

def Transaction.serialize (t : Transaction) : List Byte :=
  serWriteData t.version ++ serializeVector TxIn.serialize t.inputs ++
    serializeVector TxOut.serialize t.outputs ++ serWriteData t.lockTime

def BlockHeader.serialize (h : BlockHeader) : List Byte :=
  serWriteData h.version ++ h.prevBlockHash.data ++ h.merkleRootHash.data ++
    serWriteData h.time ++ serWriteData h.bits ++ serWriteData h.nonce

def Block.serialize (b : Block) : List Byte :=
  b.header.serialize ++ serializeVector Transaction.serialize b.transactions

end Writing

section Reading

def OutPoint.deserialize : Deserializer OutPoint := do
  let prevHash ← serialRead (deserializeArray 32)
  let index ← serialRead (serReadData 32)
  pure { prevHash, index }

def Script.deserialize : Deserializer Script := do
  let data ← serialRead (deserializeArithmeticVector 8)
  pure { data }

def TxIn.deserialize : Deserializer TxIn := do
  let prevout ← serialRead (deserializeMember OutPoint.deserialize)
  let scriptSig ← serialRead (deserializeMember Script.deserialize)
  let sequenceNo ← serialRead (serReadData 32)
  pure { prevout, scriptSig, sequenceNo }

def TxOut.deserialize : Deserializer TxOut := do
  let value ← serialRead (serReadData 64)
  let scriptPubKey ← serialRead (deserializeMember Script.deserialize)
  pure { value, scriptPubKey }

def Transaction.deserialize : Deserializer Transaction := do
  let version ← serialRead (serReadData 32)
  let inputs ← serialRead (deserializeClassVector (deserializeMember TxIn.deserialize))
  let outputs ← serialRead (deserializeClassVector (deserializeMember TxOut.deserialize))
  let lockTime ← serialRead (serReadData 32)
  pure { version, inputs, outputs, lockTime }

def BlockHeader.deserialize : Deserializer BlockHeader := do
  let version ← serialRead (serReadData 32)
  let prevBlockHash ← serialRead (deserializeArray 32)
  let merkleRootHash ← serialRead (deserializeArray 32)
  let time ← serialRead (serReadData 32)
  let bits ← serialRead (serReadData 32)
  let nonce ← serialRead (serReadData 32)
  pure { version, prevBlockHash, merkleRootHash, time, bits, nonce }

def Block.deserialize : Deserializer Block := do
  let header ← serialRead (deserializeMember BlockHeader.deserialize)
  let transactions ← serialRead
    (deserializeClassVector (deserializeMember Transaction.deserialize))
  pure { header, transactions }

end Reading

section Formats

def outPoint : Parser OutPoint := do
  let prevHash ← array 32
  let index ← word 32
  pure { prevHash, index }

def script : Parser Script := do
  let data ← vector (word 8)
  pure { data }

def txIn : Parser TxIn := do
  let prevout ← outPoint
  let scriptSig ← script
  let sequenceNo ← word 32
  pure { prevout, scriptSig, sequenceNo }

def txOut : Parser TxOut := do
  let value ← word 64
  let scriptPubKey ← script
  pure { value, scriptPubKey }

def transaction : Parser Transaction := do
  let version ← word 32
  let inputs ← vector txIn
  let outputs ← vector txOut
  let lockTime ← word 32
  pure { version, inputs, outputs, lockTime }

def blockHeader : Parser BlockHeader := do
  let version ← word 32
  let prevBlockHash ← array 32
  let merkleRootHash ← array 32
  let time ← word 32
  let bits ← word 32
  let nonce ← word 32
  pure { version, prevBlockHash, merkleRootHash, time, bits, nonce }

def block : Parser Block := do
  let header ← blockHeader
  let transactions ← vector transaction
  pure { header, transactions }

theorem outPoint_agrees : Agrees view [] OutPoint.deserialize outPoint OutPoint.serialize := by
  refine Agrees.bind (array_agrees 32) fun prevHash _ => ?_
  exact Agrees.bind (serReadData_agrees rfl) fun index _ => Agrees.pure rfl

theorem script_agrees : Agrees view [] Script.deserialize script Script.serialize := by
  refine Agrees.bind (deserializeArithmeticVector_agrees rfl) fun data _ => Agrees.pure ?_
  exact serializeByteVector_eq data

theorem txIn_agrees : Agrees view [] TxIn.deserialize txIn TxIn.serialize := by
  refine Agrees.bind (deserializeMember_agrees outPoint_agrees) fun prevout _ => ?_
  refine Agrees.bind (deserializeMember_agrees script_agrees) fun scriptSig _ => ?_
  exact Agrees.bind (serReadData_agrees rfl) fun sequenceNo _ => Agrees.pure rfl

theorem txOut_agrees : Agrees view [] TxOut.deserialize txOut TxOut.serialize := by
  refine Agrees.bind (serReadData_agrees rfl) fun value _ => ?_
  exact Agrees.bind (deserializeMember_agrees script_agrees) fun scriptPubKey _ => Agrees.pure rfl

theorem transaction_agrees :
    Agrees view [] Transaction.deserialize transaction Transaction.serialize := by
  refine Agrees.bind (serReadData_agrees rfl) fun version _ => ?_
  refine Agrees.bind (deserializeClassVector_agrees (deserializeMember_agrees txIn_agrees))
    fun inputs _ => ?_
  refine Agrees.bind (deserializeClassVector_agrees (deserializeMember_agrees txOut_agrees))
    fun outputs _ => ?_
  exact Agrees.bind (serReadData_agrees rfl) fun lockTime _ => Agrees.pure rfl

theorem blockHeader_agrees :
    Agrees view [] BlockHeader.deserialize blockHeader BlockHeader.serialize := by
  refine Agrees.bind (serReadData_agrees rfl) fun version _ => ?_
  refine Agrees.bind (array_agrees 32) fun prevBlockHash _ => ?_
  refine Agrees.bind (array_agrees 32) fun merkleRootHash _ => ?_
  refine Agrees.bind (serReadData_agrees rfl) fun time _ => ?_
  refine Agrees.bind (serReadData_agrees rfl) fun bits _ => ?_
  exact Agrees.bind (serReadData_agrees rfl) fun nonce _ => Agrees.pure rfl

theorem block_agrees : Agrees view [] Block.deserialize block Block.serialize := by
  refine Agrees.bind (deserializeMember_agrees blockHeader_agrees) fun header _ => ?_
  refine Agrees.bind (deserializeClassVector_agrees
    (deserializeMember_agrees transaction_agrees)) fun transactions _ => ?_
  exact Agrees.pure rfl

end Formats

end Transactions
