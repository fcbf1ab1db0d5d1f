import Btclite.Chain.ActiveChain
import Mathlib.Data.Finset.Insert
import Mathlib.Data.List.AList

/-!
# Chain state

`ChainState` of `chain_state.h`: the entries that were allocated, the map from
hashes to them, and what is kept beside them. Pointers are numbers, handed out in
order; where they compare as addresses, the order of the addresses is given.
-/

namespace ChainState

open Endian Serialize Transactions BlockProof Loops BlockIndex ActiveChain

section Status

def kBlockValidTree : U32 := 2

def kBlockValidTransactions : U32 := 3

def kBlockValidMask : U32 := 1 ||| 2 ||| 3 ||| 4 ||| 5

def kBlockHaveData : U32 := 8

def kBlockFailedMask : U32 := 32 ||| 64

/-- `RaiseValidity`, with whether the validity was changed. -/
def raiseValidity {P : Type} (e : Entry P) (upTo : U32) : Except Fault (Bool × Entry P) :=
  if upTo &&& ~~~kBlockValidMask ≠ 0 then .error .assertion
  else if e.status &&& kBlockFailedMask ≠ 0 then .ok (false, e)
  else if e.status &&& kBlockValidMask < upTo then
    .ok (true, { e with status := (e.status &&& ~~~kBlockValidMask) ||| upTo })
  else .ok (false, e)

/-- Validity is all that changes, if anything does. -/
theorem raiseValidity_ok {P : Type} (e : Entry P) {upTo : U32}
    (h : upTo &&& ~~~kBlockValidMask = 0) :
    ∃ changed status, raiseValidity e upTo = .ok (changed, { e with status }) := by
  rw [raiseValidity, if_neg (not_not.mpr h)]
  split_ifs
  · exact ⟨_, _, rfl⟩
  · exact ⟨_, _, rfl⟩
  · exact ⟨_, _, rfl⟩

end Status

structure State where
  block : Nat → Entry Nat := fun _ => { blockHash := Bytes.zero 32 }
  allocated : Nat := 0
  activeChain : Chain Nat := {}
  mapBlockIndex : AList fun _ : Hash256 => Nat := ∅
  setDirtyBlockIndex : Finset Nat := ∅
  setBlockIndexCandidates : List Nat := []
  pindexBestHeader : Option Nat := none
  blockSequenceId : CInt := 1

namespace State

/-- Assign to the members of an entry. -/
def set (s : State) (pindex : Nat) (f : Entry Nat → Entry Nat) : State :=
  { s with block := Function.update s.block pindex (f (s.block pindex)) }

variable {s : State} {p q : Nat} {f g : Entry Nat → Entry Nat}

@[simp] theorem set_block_self : (s.set p f).block p = f (s.block p) := Function.update_self ..

theorem set_block_ne (h : q ≠ p) : (s.set p f).block q = s.block q := Function.update_of_ne h ..

theorem set_set : (s.set p f).set p g = s.set p fun e => g (f e) := by
  simp only [State.set, Function.update_self, Function.update_idem]

theorem set_id (s : State) (p : Nat) : (s.set p fun e => e) = s := by
  simp only [State.set, Function.update_eq_self]

end State

section Headers

/-- What finds an ancestor among entries. -/
abbrev Lookup (P : Type) : Type := (P → Entry P) → P → Nat → Except Fault (Option P)

/-- `BuildSkip`, with what its call of `GetAncestor` comes to as an argument: which of the two
overloads it is, is a matter of its own. -/
def buildSkip {P : Type} [DecidableEq P] (lookup : Lookup P) (block : P → Entry P) (pindex : P) :
    Except Fault (P → Entry P) :=
  match (block pindex).pprev with
  | some pprev => do
    let pskip ← lookup block pprev (toSize (getSkipHeight (block pindex).height))
    pure (Function.update block pindex { block pindex with pskip })
  | none => pure block

variable (lookup : Lookup Nat) (sha256 : List Byte → Hash256)

/-- `BlockHeader::GetHash`. -/
def getHash (header : BlockHeader) : Hash256 := sha256 (sha256 header.serialize).data

/-- The new entry is hung on its predecessor where that is found, itself included. -/
def linkPrev (s : State) (pindexNew : Nat) (prevBlockHash : Hash256) : Except Fault State :=
  match s.mapBlockIndex.lookup prevBlockHash with
  | some pprev =>
    let s := s.set pindexNew fun e => { e with pprev := some pprev }
    let s := s.set pindexNew fun e => { e with height := (s.block pprev).height + 1 }
    (fun block => { s with block }) <$> buildSkip lookup s.block pindexNew
  | none => pure s

/-- The work of the chain that ends in the predecessor. -/
def prevWork (s : State) (pindex : Nat) : U256 :=
  match (s.block pindex).pprev with
  | some pprev => (s.block pprev).chainWork
  | none => 0

/-- Whether there is no best header, or this one has more work. -/
def beatsBest (s : State) (pindex : Nat) : Bool :=
  match s.pindexBestHeader with
  | none => true
  | some best => decide ((s.block best).chainWork < (s.block pindex).chainWork)

/-- The state in which the new entry is there, but not yet linked. -/
def allocate (s : State) (header : BlockHeader) : State :=
  { s with
    allocated := s.allocated + 1
    block := Function.update s.block s.allocated
      { header, blockHash := getHash sha256 header, sequenceId := 0 }
    mapBlockIndex := s.mapBlockIndex.insert (getHash sha256 header) s.allocated }

section Allocation

variable {sha256} {s : State} {header : BlockHeader} {p : Nat}

theorem allocate_block_self : (allocate sha256 s header).block s.allocated =
    { header, blockHash := getHash sha256 header, sequenceId := 0 } := Function.update_self ..

theorem allocate_block_ne (h : p ≠ s.allocated) :
    (allocate sha256 s header).block p = s.block p := Function.update_of_ne h ..

end Allocation

def addToBlockIndex (s : State) (header : BlockHeader) : Except Fault (Nat × State) :=
  match s.mapBlockIndex.lookup (getHash sha256 header) with
  | some pindex => pure (pindex, s)
  | none => do
    let pindexNew := s.allocated
    let s := allocate sha256 s header
    let s ← linkPrev lookup s pindexNew header.prevBlockHash
    let proof ← (getBlockProof header).elim (.error .assertion) .ok
    let s := s.set pindexNew fun e => { e with chainWork := prevWork s pindexNew + proof }
    let (_, entry) ← raiseValidity (s.block pindexNew) kBlockValidTree
    let s := s.set pindexNew fun _ => entry
    let pindexBestHeader := if beatsBest s pindexNew then some pindexNew else s.pindexBestHeader
    let setDirtyBlockIndex := insert pindexNew s.setDirtyBlockIndex
    pure (pindexNew, { s with pindexBestHeader, setDirtyBlockIndex })

/-- One header after another. -/
def addAll (headers : List BlockHeader) : Except Fault State :=
  headers.foldlM (fun s header => Prod.snd <$> addToBlockIndex lookup sha256 s header) {}

end Headers

section Transactions

variable (address : Nat → Nat)

/-- `BlockIndexWorkComparator`. -/
def workComparator (s : State) (pa pb : Nat) : Bool :=
  let a := s.block pa
  let b := s.block pb
  if b.chainWork < a.chainWork then false
  else if a.chainWork < b.chainWork then true
  else if a.sequenceId.slt b.sequenceId then false
  else if b.sequenceId.slt a.sequenceId then true
  else if address pa < address pb then false
  else decide (address pb < address pa)

/-- Insertion into a set ordered by a comparator. -/
def setInsert (less : Nat → Nat → Bool) (pindex : Nat) : List Nat → List Nat
  | [] => [pindex]
  | q :: rest =>
    if less pindex q then pindex :: q :: rest
    else if less q pindex then q :: setInsert less pindex rest
    else q :: rest

def prevChainTxNum (s : State) (pindex : Nat) : U32 :=
  match (s.block pindex).pprev with
  | some pprev => (s.block pprev).chainTxNum
  | none => 0

/-- What is done to the block at the front of the queue. The identifier goes to the block
that was received. -/
def linkFront (s : State) (pindex pindexFront : Nat) : State :=
  let s := s.set pindexFront fun e =>
    { e with chainTxNum := prevChainTxNum s pindexFront + e.txNum }
  let s := s.set pindex fun e => { e with sequenceId := s.blockSequenceId }
  let s := { s with blockSequenceId := s.blockSequenceId + 1 }
  let candidate := match s.activeChain.tip with
    | none => true
    | some tip => !workComparator address s pindexFront tip
  if candidate then
    { s with setBlockIndexCandidates :=
        setInsert (workComparator address s) pindexFront s.setBlockIndexCandidates }
  else s

/-- A turn of the loop over the queue; nothing in it adds to the queue. -/
def receiveTurn (pindex : Nat) : List Nat × State → Except Fault (Turn (List Nat × State) State)
  | ([], s) => .ok (.leave s)
  | (pindexFront :: queue, s) => .ok (.again (queue, linkFront address s pindex pindexFront))

/-- The genesis block, or one whose parent has all its transactions. -/
def prevLinked (s : State) (pindex : Nat) : Bool :=
  match (s.block pindex).pprev with
  | none => true
  | some pprev => (s.block pprev).chainTxNum != 0

/-- What is noted of every block that was received. -/
def markReceived (s : State) (block : Block) (pindex : Nat) : Except Fault State := do
  let s := s.set pindex fun e =>
    { e with
      txNum := BitVec.ofNat 32 block.transactions.length
      chainTxNum := 0
      status := e.status ||| kBlockHaveData }
  let (_, entry) ← raiseValidity (s.block pindex) kBlockValidTransactions
  let s := s.set pindex fun _ => entry
  pure { s with setDirtyBlockIndex := insert pindex s.setDirtyBlockIndex }

def receivedBlockTransactions (s : State) (block : Block) (pindex : Nat) :
    Except Fault (Bool × State) := do
  let s ← markReceived s block pindex
  let s ← if prevLinked s pindex then loop .endless (receiveTurn address pindex) 2 ([pindex], s)
    else pure s
  pure (true, s)

variable {s s' : State} {block : Block} {p : Nat}

/-- What `markReceived` changes and what it leaves. -/
structure Marked (s s' : State) (block : Block) (p : Nat) : Prop where
  same : ∀ q, q ≠ p → s'.block q = s.block q
  pprev : (s'.block p).pprev = (s.block p).pprev
  chainWork : (s'.block p).chainWork = (s.block p).chainWork
  sequenceId : (s'.block p).sequenceId = (s.block p).sequenceId
  txNum : (s'.block p).txNum = BitVec.ofNat 32 block.transactions.length
  chainTxNum : (s'.block p).chainTxNum = 0
  activeChain : s'.activeChain = s.activeChain
  setBlockIndexCandidates : s'.setBlockIndexCandidates = s.setBlockIndexCandidates
  blockSequenceId : s'.blockSequenceId = s.blockSequenceId

theorem markReceived_marked (s : State) (block : Block) (p : Nat) :
    ∃ s', markReceived s block p = .ok s' ∧ Marked s s' block p := by
  have hraise (e : Entry Nat) := raiseValidity_ok e
    (show kBlockValidTransactions &&& ~~~kBlockValidMask = 0 by decide)
  choose changed status hraise using hraise
  simp only [markReceived, State.set_set, State.set_block_self, bind, Except.bind, hraise]
  refine ⟨_, rfl, ?_, ?_, ?_, ?_, ?_, ?_, rfl, rfl, rfl⟩ <;> dsimp only
  · intro q hq
    rw [State.set_block_ne hq]
  all_goals rw [State.set_block_self]

/-- The loop over the queue makes one turn, if any. -/
theorem receivedBlockTransactions_run (hmark : markReceived s block p = .ok s') :
    receivedBlockTransactions address s block p =
      .ok (true, if prevLinked s' p then linkFront address s' p p else s') := by
  rw [receivedBlockTransactions, hmark]
  change (if prevLinked s' p then _ else _) = _
  by_cases hlinked : prevLinked s' p
  · rw [if_pos hlinked, if_pos hlinked]
    rfl
  · rw [if_neg hlinked, if_neg hlinked]
    rfl

end Transactions

end ChainState
