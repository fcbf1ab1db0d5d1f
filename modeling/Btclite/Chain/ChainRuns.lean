import Btclite.Chain.Candidates
import Btclite.Chain.HeaderIndex

/-!
# Runs of the chain state

`LoadGenesisBlock` adds a header, receives its transactions and connects the
entry to the tip. Headers and blocks that come in between touch only what each of
these steps may touch, so the index stays linked and the active chain stays a
branch of it, whatever the order. A block that is new and does not continue the
tip stops the program at the assertion in `ConnectTip`. The lookup of `BuildSkip`
is taken to be the const walk throughout.
-/

namespace ChainRuns

open Endian Serialize Transactions BlockProof Loops BlockIndex ActiveChain ChainState HeaderIndex
  TransactionLinks Candidates SortedSets

section Genesis

variable (sha256 : List Byte → Hash256) (address : Nat → Nat)

def connectTip (s : State) (pindex : Nat) : Except Fault (Bool × State) :=
  if (s.block pindex).pprev ≠ s.activeChain.tip then .error .assertion
  else do
    let activeChain ← s.activeChain.setTip s.block (some pindex)
    pure (true, { s with activeChain })

def loadGenesisBlock (s : State) (genesisBlock : Block) : Except Fault (Bool × State) :=
  if (s.mapBlockIndex.lookup (getHash sha256 genesisBlock.header)).isSome then pure (true, s)
  else do
    let (pindex, s) ← addToBlockIndex getAncestor sha256 s genesisBlock.header
    let (received, s) ← receivedBlockTransactions address s genesisBlock pindex
    if !received then pure (false, s)
    else
      let (connected, s) ← connectTip s pindex
      if !connected then pure (false, s) else pure (true, s)

inductive Act where
  | addToBlockIndex (header : BlockHeader)
  | receivedBlockTransactions (block : Block) (pindex : Nat)
  | loadGenesisBlock (genesisBlock : Block)

def step (s : State) : Act → Except Fault State
  | .addToBlockIndex header => Prod.snd <$> addToBlockIndex getAncestor sha256 s header
  | .receivedBlockTransactions block pindex =>
    Prod.snd <$> receivedBlockTransactions address s block pindex
  | .loadGenesisBlock genesisBlock => Prod.snd <$> loadGenesisBlock sha256 address s genesisBlock

/-- Transactions are received for an entry of the index. -/
def Allowed (s : State) : Act → Prop
  | .receivedBlockTransactions _ pindex => pindex < s.allocated
  | _ => True

/-- The states that any acts lead to from an empty index. -/
abbrev Reachable : State → Prop :=
  Runs.Run (fun s act s' => step sha256 address s act = .ok s') Allowed {}

end Genesis

section Branches

/-- Entries from a root on, each continuing the one before it, and the last of them. -/
inductive Branch (block : Nat → Entry Nat) : List Nat → Option Nat → Prop
  | empty : Branch block [] none
  | grow {line : List Nat} {tip : Option Nat} {p : Nat} (below : Branch block line tip)
      (pprev : (block p).pprev = tip) (height : (block p).height = line.length) :
      Branch block (line ++ [p]) (some p)

variable {block block' : Nat → Entry Nat} {line : List Nat} {tip : Option Nat} {p : Nat}

theorem Branch.congr (h : Branch block line tip)
    (hsame : ∀ p ∈ line, links (block' p) = links (block p)) : Branch block' line tip := by
  induction h with
  | empty => exact .empty
  | grow below pprev height ih =>
    rename_i line tip p
    have hp := links_eq_iff.mp (hsame p (List.mem_append_right _ (List.mem_singleton_self p)))
    refine .grow (ih fun q hq => hsame q (List.mem_append_left _ hq)) ?_ ?_
    · exact hp.2.2.1.trans pprev
    · exact hp.2.2.2.2.trans height

theorem Branch.tip_eq (h : Branch block line tip) : Chain.tip ⟨line.map some⟩ = tip := by
  cases h with
  | empty => rfl
  | grow below => simp [Chain.tip]

theorem Branch.tip_mem (h : Branch block line (some p)) : p ∈ line := by
  cases h with
  | grow below => exact List.mem_append_right _ (List.mem_singleton_self p)

/-- The tip is found where its height says. -/
theorem Branch.getElem?_tip {path : List Nat} (h : Branch block path (some p)) :
    path[(block p).height]? = some p := by
  cases h with
  | grow below pprev height => simp [height]

/-- An entry that continues the tip is put above it, and nothing else is rewritten. -/
theorem Branch.setTip (h : Branch block line tip) (hprev : (block p).pprev = tip)
    (hheight : (block p).height = line.length) :
    Chain.setTip ⟨line.map some⟩ block (some p) = .ok ⟨(line ++ [p]).map some⟩ := by
  have hresize : Chain.resize (line.map some) ((block p).height + 1) = line.map some ++ [none] := by
    rw [Chain.resize, List.take_of_length_le (by simp [hheight]), hheight, List.length_map,
      Nat.add_sub_cancel_left]
    rfl
  have hfirst : Chain.setTipTurn block (some p, line.map some ++ [none]) =
      .ok (.again (tip, (line ++ [p]).map some)) := by
    have hnull : (line.map some ++ [none])[(block p).height]? = some (none : Option Nat) := by
      rw [hheight, ← List.length_map (f := some), List.getElem?_concat_length]
    have hset : (line.map some ++ [none]).set (block p).height (some p) =
        (line ++ [p]).map some := by
      rw [hheight, List.set_append_right _ _ (by simp), List.map_append]
      simp
    simp only [Chain.setTipTurn, hnull, reduceCtorEq, if_false, hset, hprev]
  have hsecond : Chain.setTipTurn block (tip, (line ++ [p]).map some) =
      .ok (.leave ((line ++ [p]).map some)) := by
    cases tip with
    | none => rfl
    | some q =>
      have hq : ((line ++ [p]).map some)[(block q).height]? = some (some q) := by
        rw [List.getElem?_map, List.getElem?_append_left, h.getElem?_tip]
        · rfl
        · exact (List.getElem?_eq_some_iff.mp h.getElem?_tip).1
      simp only [Chain.setTipTurn, hq, if_true]
  rw [Chain.setTip, hresize, loop, hfirst]
  dsimp only
  rw [loop, hsecond]
  rfl

end Branches

section Frames

variable {address : Nat → Nat} {sha256 : List Byte → Hash256} {s s' s'' : State}
  {header : BlockHeader} {block : Block} {p q : Nat}

/-- What the transactions of a block leave as it was in an entry. -/
def settled (e : Entry Nat) :
    (BlockHeader × Hash256 × Option Nat × Option Nat × Nat) × U256 :=
  (links e, e.chainWork)

/-- The index, the best header and the active chain are the same. -/
structure SameIndex (s s' : State) : Prop where
  allocated : s'.allocated = s.allocated
  mapBlockIndex : s'.mapBlockIndex = s.mapBlockIndex
  pindexBestHeader : s'.pindexBestHeader = s.pindexBestHeader
  activeChain : s'.activeChain = s.activeChain
  block : ∀ q, settled (s'.block q) = settled (s.block q)

theorem SameIndex.trans (h : SameIndex s s') (h' : SameIndex s' s'') : SameIndex s s'' where
  allocated := h'.allocated.trans h.allocated
  mapBlockIndex := h'.mapBlockIndex.trans h.mapBlockIndex
  pindexBestHeader := h'.pindexBestHeader.trans h.pindexBestHeader
  activeChain := h'.activeChain.trans h.activeChain
  block q := (h'.block q).trans (h.block q)

theorem settled_set {f : Entry Nat → Entry Nat} (hf : ∀ e, settled (f e) = settled e) (q : Nat) :
    settled ((s.set p f).block q) = settled (s.block q) := by
  by_cases hq : q = p
  · rw [hq, State.set_block_self, hf]
  · rw [State.set_block_ne hq]

/-- An entry of which only the header is there, or its block as well. -/
def Standing (status : U32) : Prop :=
  status = kBlockValidTree ∨ status = kBlockValidTransactions ||| kBlockHaveData

theorem raiseValidity_standing {e : Entry Nat} (h : Standing e.status) :
    ∃ changed, raiseValidity { e with status := e.status ||| kBlockHaveData }
        kBlockValidTransactions =
      .ok (changed, { e with status := kBlockValidTransactions ||| kBlockHaveData }) := by
  rcases h with h | h
  · exact ⟨true, by simp [raiseValidity, h, kBlockValidTransactions, kBlockValidMask,
      kBlockFailedMask, kBlockHaveData, kBlockValidTree]⟩
  · exact ⟨false, by simp [raiseValidity, h, kBlockValidTransactions, kBlockValidMask,
      kBlockFailedMask, kBlockHaveData]⟩

theorem markReceived_standing (h : Standing (s.block p).status) (block : Block) :
    markReceived s block p = .ok
      { s.set p fun e =>
          { e with
            txNum := BitVec.ofNat 32 block.transactions.length
            chainTxNum := 0
            status := kBlockValidTransactions ||| kBlockHaveData } with
        setDirtyBlockIndex := insert p s.setDirtyBlockIndex } := by
  obtain ⟨changed, hraise⟩ := raiseValidity_standing (e :=
    { s.block p with
      txNum := BitVec.ofNat 32 block.transactions.length
      chainTxNum := 0 }) h
  simp only [markReceived, State.set_block_self, hraise, State.set_set, bind, Except.bind]
  rfl

/-- What is done to an entry whose transactions come. -/
structure Receives (s s' : State) (p : Nat) : Prop where
  index : SameIndex s s'
  others : ∀ q ≠ p, s'.block q = s.block q
  status : (s'.block p).status = kBlockValidTransactions ||| kBlockHaveData
  dirty : s'.setDirtyBlockIndex = insert p s.setDirtyBlockIndex
  candidates : ∀ q ∈ s'.setBlockIndexCandidates, q = p ∨ q ∈ s.setBlockIndexCandidates

theorem linkFront_sameIndex (s : State) (p : Nat) : SameIndex s (linkFront address s p p) := by
  have hblock (q : Nat) : settled ((linkFront address s p p).block q) = settled (s.block q) := by
    rw [linkFront_block, settled_set]
    exact fun _ => rfl
  constructor
  case block => exact hblock
  all_goals
    rw [linkFront]
    dsimp only
    split_ifs <;> rfl

theorem linkFront_status (s : State) (p : Nat) :
    ((linkFront address s p p).block p).status = (s.block p).status := by
  rw [linkFront_block, State.set_block_self]

theorem linkFront_block_ne (s : State) (hq : q ≠ p) :
    (linkFront address s p p).block q = s.block q := by
  rw [linkFront_block, State.set_block_ne hq]

theorem linkFront_dirty (s : State) (p : Nat) :
    (linkFront address s p p).setDirtyBlockIndex = s.setDirtyBlockIndex := by
  rw [linkFront]
  dsimp only
  split_ifs <;> rfl

theorem Receives.linkFront (h : Receives s s' p) : Receives s (linkFront address s' p p) p where
  index := h.index.trans (linkFront_sameIndex s' p)
  others q hq := (linkFront_block_ne s' hq).trans (h.others q hq)
  status := (linkFront_status s' p).trans h.status
  dirty := (linkFront_dirty s' p).trans h.dirty
  candidates q hq := by
    have hcandidates : (ChainState.linkFront address s' p p).setBlockIndexCandidates = _ ∨
        (ChainState.linkFront address s' p p).setBlockIndexCandidates = _ :=
      linkFront_candidates s' p
    rcases hcandidates with hsame | hinsert
    · exact h.candidates q (hsame ▸ hq)
    · rw [hinsert] at hq
      rcases mem_insertBy hq with rfl | hq
      · exact Or.inl rfl
      · exact h.candidates q hq

theorem receivedBlockTransactions_receives (address : Nat → Nat)
    (h : Standing (s.block p).status) (block : Block) :
    ∃ s', receivedBlockTransactions address s block p = .ok (true, s') ∧ Receives s s' p := by
  have hmark := markReceived_standing h block
  refine ⟨_, receivedBlockTransactions_run address hmark, ?_⟩
  have hreceives : Receives s
      { s.set p fun e =>
          { e with
            txNum := BitVec.ofNat 32 block.transactions.length
            chainTxNum := 0
            status := kBlockValidTransactions ||| kBlockHaveData } with
        setDirtyBlockIndex := insert p s.setDirtyBlockIndex } p := by
    refine ⟨⟨rfl, rfl, rfl, rfl, ?_⟩, ?_, ?_, rfl, fun q hq => Or.inr hq⟩
    · intro q
      dsimp only
      rw [settled_set]
      exact fun _ => rfl
    · intro q hq
      dsimp only
      rw [State.set_block_ne hq]
    · dsimp only
      rw [State.set_block_self]
  split_ifs
  · exact hreceives.linkFront
  · exact hreceives

/-- What a new header touches besides the index. -/
structure Lists (s s' : State) : Prop where
  activeChain : s'.activeChain = s.activeChain
  candidates : s'.setBlockIndexCandidates = s.setBlockIndexCandidates
  dirty : s'.setDirtyBlockIndex = insert s.allocated s.setDirtyBlockIndex
  status : (s'.block s.allocated).status = kBlockValidTree

theorem raiseValidity_new {e : Entry Nat} (h : e.status = 0) :
    raiseValidity e kBlockValidTree = .ok (true, { e with status := kBlockValidTree }) := by
  simp [raiseValidity, h, kBlockValidMask, kBlockFailedMask, kBlockValidTree]

theorem addToBlockIndex_lists (h : Linked s)
    (hnew : s.mapBlockIndex.lookup (getHash sha256 header) = none) :
    ∃ s', addToBlockIndex getAncestor sha256 s header = .ok (s.allocated, s') ∧
      Added sha256 s s' header ∧ Lists s s' := by
  obtain ⟨s', hadd, hadded⟩ := addToBlockIndex_adds h hnew
  refine ⟨s', hadd, hadded, ?_⟩
  obtain ⟨pprev, pskip, height, hlink, -⟩ := linkPrev_hangs h hnew
  obtain ⟨proof, hproof⟩ := getBlockProof_some header
  have hraise (e : Entry Nat) (he : e.status = 0) := raiseValidity_new he
  rw [addToBlockIndex, hnew] at hadd
  simp only [hlink, hproof, Option.elim, State.set_set, State.set_block_self, bind, Except.bind,
    allocate_block_self] at hadd
  rw [hraise _ rfl] at hadd
  obtain rfl := (Prod.mk.inj (Except.ok.inj hadd)).2
  refine ⟨rfl, rfl, rfl, ?_⟩
  dsimp only
  rw [State.set_block_self]

end Frames

section Soundness

variable (sha256 : List Byte → Hash256)

/-- The index is linked and sorted by hash, every entry is dirty, what has its block is a
candidate at most, and the active chain is a branch of entries that have theirs. -/
structure Sound (s : State) : Prop where
  linked : Linked s
  best : IsBest s
  named : ∀ p < s.allocated, (s.block p).blockHash = getHash sha256 (s.block p).header
  standing : ∀ p < s.allocated, Standing (s.block p).status
  dirty : ∀ p < s.allocated, p ∈ s.setDirtyBlockIndex
  candidates : ∀ p ∈ s.setBlockIndexCandidates, p < s.allocated ∧
    (s.block p).status = kBlockValidTransactions ||| kBlockHaveData
  branch : ∃ line tip, s.activeChain.activeChain = line.map some ∧ Branch s.block line tip ∧
    ∀ p ∈ line, p < s.allocated ∧
      (s.block p).status = kBlockValidTransactions ||| kBlockHaveData

variable {sha256} {address : Nat → Nat} {s s' : State} {header : BlockHeader} {block : Block}
  {p q : Nat} {line : List Nat} {tip : Option Nat}

theorem sound_init : Sound sha256 {} where
  linked := by
    constructor
    · intro k p
      constructor
      · intro hlookup
        cases hlookup
      · rintro ⟨hp, -⟩
        exact absurd hp (Nat.not_lt_zero p)
    all_goals
      intro p hp
      cases hp
  best := rfl
  named p hp := absurd hp (Nat.not_lt_zero p)
  standing p hp := absurd hp (Nat.not_lt_zero p)
  dirty p hp := absurd hp (Nat.not_lt_zero p)
  candidates p hp := absurd hp List.not_mem_nil
  branch := ⟨[], none, rfl, .empty, fun p hp => absurd hp List.not_mem_nil⟩

theorem SameIndex.links (h : SameIndex s s') (q : Nat) :
    links (s'.block q) = links (s.block q) :=
  congrArg Prod.fst (h.block q)

theorem SameIndex.chainWork (h : SameIndex s s') (q : Nat) :
    (s'.block q).chainWork = (s.block q).chainWork :=
  congrArg Prod.snd (h.block q)

theorem SameIndex.linked (h : SameIndex s s') (hs : Linked s) : Linked s' where
  lookup_iff k p := by
    rw [h.mapBlockIndex, h.allocated, (links_eq_iff.mp (h.links p)).2.1]
    exact hs.lookup_iff k p
  hangs p hp := by
    rw [h.allocated] at hp
    exact .congr (fun q hq => hs.hangs q (hq.trans hp)) (fun q _ => h.links q) (hs.hangs p hp)
  works p hp := by
    rw [h.allocated] at hp
    obtain ⟨proof, hproof, hwork⟩ := hs.works p hp
    refine ⟨proof, by rw [(links_eq_iff.mp (h.links p)).1, hproof], ?_⟩
    rw [h.chainWork, hwork, workBefore, workBefore, (links_eq_iff.mp (h.links p)).2.2.1]
    cases (s.block p).pprev with
    | none => rfl
    | some q =>
      dsimp only
      rw [h.chainWork]

theorem SameIndex.isBest (h : SameIndex s s') (hs : IsBest s) : IsBest s' := by
  rw [IsBest, h.pindexBestHeader, h.allocated]
  rw [IsBest] at hs
  cases hbest : s.pindexBestHeader with
  | none =>
    rw [hbest] at hs
    exact hs
  | some best =>
    rw [hbest] at hs
    refine ⟨hs.1, fun p hp => ?_⟩
    rw [h.chainWork, h.chainWork]
    exact hs.2 p hp

theorem Sound.receives (hs : Sound sha256 s) (hp : p < s.allocated) (h : Receives s s' p) :
    Sound sha256 s' := by
  have hstatus : ∀ q, (s.block q).status = kBlockValidTransactions ||| kBlockHaveData →
      (s'.block q).status = kBlockValidTransactions ||| kBlockHaveData := by
    intro q hq
    by_cases hqp : q = p
    · rw [hqp, h.status]
    · rw [h.others q hqp, hq]
  refine ⟨h.index.linked hs.linked, h.index.isBest hs.best, ?_, ?_, ?_, ?_, ?_⟩
  · intro q hq
    rw [h.index.allocated] at hq
    have hlinks := links_eq_iff.mp (h.index.links q)
    rw [hlinks.2.1, hlinks.1]
    exact hs.named q hq
  · intro q hq
    rw [h.index.allocated] at hq
    by_cases hqp : q = p
    · rw [hqp, h.status]
      exact Or.inr rfl
    · rw [h.others q hqp]
      exact hs.standing q hq
  · intro q hq
    rw [h.index.allocated] at hq
    rw [h.dirty]
    exact Finset.mem_insert_of_mem (hs.dirty q hq)
  · intro q hq
    rw [h.index.allocated]
    rcases h.candidates q hq with rfl | hq
    · exact ⟨hp, h.status⟩
    · obtain ⟨hlt, hdata⟩ := hs.candidates q hq
      exact ⟨hlt, hstatus q hdata⟩
  · obtain ⟨line, tip, hline, hbranch, hknown⟩ := hs.branch
    refine ⟨line, tip, ?_, hbranch.congr fun q _ => h.index.links q, fun q hq => ?_⟩
    · rw [h.index.activeChain, hline]
    · rw [h.index.allocated]
      exact ⟨(hknown q hq).1, hstatus q (hknown q hq).2⟩

theorem Sound.adds (hs : Sound sha256 s)
    (hnew : s.mapBlockIndex.lookup (getHash sha256 header) = none)
    (hadded : Added sha256 s s' header) (hlists : Lists s s') : Sound sha256 s' := by
  have hold : ∀ q < s.allocated, s'.block q = s.block q := fun q hq => hadded.same q hq.ne
  have hcases : ∀ q < s'.allocated, q < s.allocated ∨ q = s.allocated := by
    intro q hq
    rw [hadded.allocated] at hq
    omega
  have hlater : s.allocated < s'.allocated := by
    rw [hadded.allocated]
    exact Nat.lt_succ_self _
  refine ⟨hadded.linked hs.linked hnew, hadded.isBest hs.best, ?_, ?_, ?_, ?_, ?_⟩
  · intro q hq
    rcases hcases q hq with hq | rfl
    · rw [hold q hq]
      exact hs.named q hq
    · rw [hadded.hash_new, hadded.header_new]
  · intro q hq
    rcases hcases q hq with hq | rfl
    · rw [hold q hq]
      exact hs.standing q hq
    · exact Or.inl hlists.status
  · intro q hq
    rw [hlists.dirty]
    rcases hcases q hq with hq | rfl
    · exact Finset.mem_insert_of_mem (hs.dirty q hq)
    · exact Finset.mem_insert_self _ _
  · intro q hq
    rw [hlists.candidates] at hq
    obtain ⟨hlt, hdata⟩ := hs.candidates q hq
    rw [hold q hlt]
    exact ⟨hlt.trans hlater, hdata⟩
  · obtain ⟨line, tip, hline, hbranch, hknown⟩ := hs.branch
    refine ⟨line, tip, hlists.activeChain ▸ hline, hbranch.congr fun q hq => ?_, fun q hq => ?_⟩
    · rw [hold q (hknown q hq).1]
    · rw [hold q (hknown q hq).1]
      exact ⟨(hknown q hq).1.trans hlater, (hknown q hq).2⟩

end Soundness

section Loading

variable {sha256 : List Byte → Hash256} {address : Nat → Nat} {s s' s'' : State}
  {header : BlockHeader} {block : Block} {p q : Nat} {line : List Nat} {tip : Option Nat}

/-- What the header of an entry that is new is hung on. -/
theorem pprev_new (hs : Linked s) (hnew : s.mapBlockIndex.lookup (getHash sha256 header) = none)
    (hadded : Added sha256 s s' header) :
    (s'.block s.allocated).pprev =
      if header.prevBlockHash = getHash sha256 header then some s.allocated
      else s.mapBlockIndex.lookup header.prevBlockHash := by
  have hold : ∀ q < s.allocated, (s'.block q).blockHash = (s.block q).blockHash := fun q hq =>
    congrArg Entry.blockHash (hadded.same q hq.ne)
  cases hadded.hangs with
  | child q before hash pprev =>
    rw [hadded.header_new, hold q before] at hash
    have hfound := (hs.lookup_iff _ q).mpr ⟨before, hash⟩
    have hother : header.prevBlockHash ≠ getHash sha256 header := by
      intro hsame
      rw [hsame, hnew] at hfound
      cases hfound
    rw [if_neg hother, hfound, pprev]
  | itself hash others pprev =>
    rw [hadded.header_new, hadded.hash_new] at hash
    rw [if_pos hash.symm, pprev]
  | root hash pprev =>
    rw [hadded.header_new] at hash
    have hother : header.prevBlockHash ≠ getHash sha256 header := fun hsame =>
      hash s.allocated (Nat.le_refl _) (hadded.hash_new.trans hsame.symm)
    rw [if_neg hother, pprev]
    cases hfound : s.mapBlockIndex.lookup header.prevBlockHash with
    | none => rfl
    | some q =>
      obtain ⟨hq, hprev⟩ := (hs.lookup_iff _ q).mp hfound
      exact absurd ((hold q hq).trans hprev) (hash q hq.le)

variable (sha256) in
/-- The parent of a block is the tip, and nowhere to be found while there is no tip. -/
def Continues (s : State) (header : BlockHeader) : Prop :=
  header.prevBlockHash ≠ getHash sha256 header ∧
    s.mapBlockIndex.lookup header.prevBlockHash = s.activeChain.tip

theorem Sound.continues_iff (hs : Sound sha256 s)
    (hnew : s.mapBlockIndex.lookup (getHash sha256 header) = none)
    (hadded : Added sha256 s s' header) :
    (s'.block s.allocated).pprev = s.activeChain.tip ↔ Continues sha256 s header := by
  obtain ⟨line, tip, hline, hbranch, hknown⟩ := hs.branch
  have htip : s.activeChain.tip = tip := by
    rw [show s.activeChain = ⟨line.map some⟩ from congrArg Chain.mk hline, hbranch.tip_eq]
  rw [pprev_new hs.linked hnew hadded, Continues, htip]
  split_ifs with hself
  · refine iff_of_false ?_ fun h => h.1 hself
    rintro rfl
    exact absurd (hknown _ hbranch.tip_mem).1 (Nat.lt_irrefl _)
  · exact ⟨fun h => ⟨hself, h⟩, fun h => h.2⟩

/-- An entry stands one above the one that it continues, and a root at the bottom. -/
theorem height_new (hadded : Added sha256 s s' header) (hbranch : Branch s'.block line tip)
    (hknown : ∀ p ∈ line, p < s.allocated) (hprev : (s'.block s.allocated).pprev = tip) :
    (s'.block s.allocated).height = line.length := by
  cases hadded.hangs with
  | child q before hash pprev height =>
    obtain rfl : some q = tip := pprev.symm.trans hprev
    cases hbranch with
    | grow below _ hheight => rw [height, hheight, List.length_append, List.length_singleton]
  | itself hash others pprev =>
    obtain rfl : some s.allocated = tip := pprev.symm.trans hprev
    exact absurd (hknown _ hbranch.tip_mem) (Nat.lt_irrefl _)
  | root hash pprev height =>
    obtain rfl : none = tip := pprev.symm.trans hprev
    cases hbranch with
    | empty => exact height

theorem connectTip_branch (hline : s.activeChain.activeChain = line.map some)
    (hbranch : Branch s.block line tip) (hprev : (s.block p).pprev = tip)
    (hheight : (s.block p).height = line.length) :
    connectTip s p = .ok (true, { s with activeChain := ⟨(line ++ [p]).map some⟩ }) := by
  have hchain : s.activeChain = ⟨line.map some⟩ := congrArg Chain.mk hline
  rw [connectTip, hchain, hbranch.tip_eq, if_neg (not_not.mpr hprev), hbranch.setTip hprev hheight]
  rfl

theorem Sound.connects (hs : Sound sha256 s) (hbranch : Branch s.block line tip)
    (hknown : ∀ p ∈ line, p < s.allocated ∧
      (s.block p).status = kBlockValidTransactions ||| kBlockHaveData)
    (hp : p < s.allocated)
    (hdata : (s.block p).status = kBlockValidTransactions ||| kBlockHaveData)
    (hprev : (s.block p).pprev = tip) (hheight : (s.block p).height = line.length) :
    Sound sha256 { s with activeChain := ⟨(line ++ [p]).map some⟩ } where
  linked := ⟨hs.linked.lookup_iff, hs.linked.hangs, hs.linked.works⟩
  best := hs.best
  named := hs.named
  standing := hs.standing
  dirty := hs.dirty
  candidates := hs.candidates
  branch := by
    refine ⟨line ++ [p], some p, rfl, .grow hbranch hprev hheight, fun q hq => ?_⟩
    rcases List.mem_append.mp hq with hq | hq
    · exact hknown q hq
    · rw [List.mem_singleton.mp hq]
      exact ⟨hp, hdata⟩

/-- A new block is put into the index, and then it is a matter of the tip. -/
theorem loadGenesisBlock_new (address : Nat → Nat) (hs : Sound sha256 s)
    (hnew : s.mapBlockIndex.lookup (getHash sha256 block.header) = none) :
    ∃ s₁ s₂, Added sha256 s s₁ block.header ∧ Lists s s₁ ∧ Receives s₁ s₂ s.allocated ∧
      Sound sha256 s₂ ∧
      loadGenesisBlock sha256 address s block = connectTip s₂ s.allocated := by
  obtain ⟨s₁, hadd, hadded, hlists⟩ := addToBlockIndex_lists hs.linked hnew
  have hs₁ := hs.adds hnew hadded hlists
  have hallocated : s.allocated < s₁.allocated := by
    rw [hadded.allocated]
    exact Nat.lt_succ_self _
  obtain ⟨s₂, hreceive, hreceives⟩ := receivedBlockTransactions_receives address
    (Or.inl hlists.status) block
  refine ⟨s₁, s₂, hadded, hlists, hreceives, hs₁.receives hallocated hreceives, ?_⟩
  have hunknown : (s.mapBlockIndex.lookup (getHash sha256 block.header)).isSome = false := by
    rw [hnew]
    rfl
  rw [loadGenesisBlock, hunknown]
  simp only [Bool.false_eq_true, if_false, hadd, hreceive, bind, Except.bind, Bool.not_true]
  rcases connectTip s₂ s.allocated with _ | ⟨connected, s₃⟩
  · rfl
  · cases connected <;> rfl

/-- What loading a new block leaves. -/
structure Extends (sha256 : List Byte → Hash256) (s s' : State) (block : Block) : Prop where
  allocated : s'.allocated = s.allocated + 1
  header : (s'.block s.allocated).header = block.header
  mapBlockIndex : s'.mapBlockIndex =
    s.mapBlockIndex.insert (getHash sha256 block.header) s.allocated
  activeChain : s'.activeChain.activeChain = s.activeChain.activeChain ++ [some s.allocated]
  older : ∀ q < s.allocated, s'.block q = s.block q

theorem loadGenesisBlock_continues (address : Nat → Nat) (hs : Sound sha256 s)
    (hnew : s.mapBlockIndex.lookup (getHash sha256 block.header) = none)
    (hcontinues : Continues sha256 s block.header) :
    ∃ s', loadGenesisBlock sha256 address s block = .ok (true, s') ∧ Sound sha256 s' ∧
      Extends sha256 s s' block := by
  obtain ⟨s₁, s₂, hadded, hlists, hreceives, hs₂, hload⟩ :=
    loadGenesisBlock_new address hs hnew
  obtain ⟨line, tip, hline, hbranch, hknown⟩ := hs.branch
  have hbranch₁ : Branch s₁.block line tip :=
    hbranch.congr fun q hq => congrArg links (hadded.same q (hknown q hq).1.ne)
  have hbranch₂ : Branch s₂.block line tip :=
    hbranch₁.congr fun q _ => hreceives.index.links q
  have hline₂ : s₂.activeChain.activeChain = line.map some := by
    rw [hreceives.index.activeChain, hlists.activeChain, hline]
  have htip : s.activeChain.tip = tip := by
    rw [show s.activeChain = ⟨line.map some⟩ from congrArg Chain.mk hline, hbranch.tip_eq]
  have hprev₁ : (s₁.block s.allocated).pprev = tip :=
    ((hs.continues_iff hnew hadded).mpr hcontinues).trans htip
  have hlinks := links_eq_iff.mp (hreceives.index.links s.allocated)
  have hheight := height_new hadded hbranch₁ (fun q hq => (hknown q hq).1) hprev₁
  have hallocated : s₂.allocated = s.allocated + 1 :=
    hreceives.index.allocated.trans hadded.allocated
  rw [hload, connectTip_branch hline₂ hbranch₂ (hlinks.2.2.1.trans hprev₁)
    (hlinks.2.2.2.2.trans hheight)]
  refine ⟨_, rfl, hs₂.connects hbranch₂ ?_ ?_ hreceives.status (hlinks.2.2.1.trans hprev₁)
    (hlinks.2.2.2.2.trans hheight), ?_⟩
  · intro q hq
    obtain ⟨hlt, hdata⟩ := hknown q hq
    refine ⟨by omega, ?_⟩
    rw [hreceives.others q hlt.ne, hadded.same q hlt.ne, hdata]
  · omega
  · refine ⟨hallocated, hlinks.1.trans hadded.header_new, ?_, ?_, ?_⟩
    · exact hreceives.index.mapBlockIndex.trans hadded.mapBlockIndex
    · rw [hline, List.map_append]
      rfl
    · intro q hq
      rw [hreceives.others q hq.ne, hadded.same q hq.ne]

/-- There is no other way to fail than at the assertion. -/
theorem loadGenesisBlock_stops (hs : Sound sha256 s)
    (hnew : s.mapBlockIndex.lookup (getHash sha256 block.header) = none)
    (hstray : ¬ Continues sha256 s block.header) :
    loadGenesisBlock sha256 address s block = .error .assertion := by
  obtain ⟨s₁, s₂, hadded, hlists, hreceives, -, hload⟩ :=
    loadGenesisBlock_new address hs hnew
  have hlinks := links_eq_iff.mp (hreceives.index.links s.allocated)
  have hapart : (s₂.block s.allocated).pprev ≠ s₂.activeChain.tip := by
    rw [hlinks.2.2.1, hreceives.index.activeChain, hlists.activeChain]
    exact fun h => hstray ((hs.continues_iff hnew hadded).mp h)
  rw [hload, connectTip, if_pos hapart]

theorem loadGenesisBlock_known
    (hknown : s.mapBlockIndex.lookup (getHash sha256 block.header) = some p) :
    loadGenesisBlock sha256 address s block = .ok (true, s) := by
  rw [loadGenesisBlock, hknown]
  rfl

/-- What is in the index and on the active chain stays there. -/
structure Grows (s s' : State) : Prop where
  lookup : ∀ k p, s.mapBlockIndex.lookup k = some p → s'.mapBlockIndex.lookup k = some p
  activeChain : s.activeChain.activeChain <+: s'.activeChain.activeChain

theorem Grows.refl (s : State) : Grows s s := ⟨fun _ _ h => h, List.prefix_rfl⟩

theorem Grows.trans (h : Grows s s') (h' : Grows s' s'') : Grows s s'' :=
  ⟨fun k p hp => h'.lookup k p (h.lookup k p hp), h.activeChain.trans h'.activeChain⟩

theorem lookup_insert_new (hnew : s.mapBlockIndex.lookup (getHash sha256 header) = none)
    {k : Hash256} (hp : s.mapBlockIndex.lookup k = some p) :
    (s.mapBlockIndex.insert (getHash sha256 header) s.allocated).lookup k = some p := by
  rw [AList.lookup_insert_ne, hp]
  rintro rfl
  rw [hnew] at hp
  cases hp

/-- Every act keeps the state sound and takes nothing away. -/
theorem Sound.step {act : Act} (hs : Sound sha256 s) (hallowed : Allowed s act)
    (h : step sha256 address s act = .ok s') : Sound sha256 s' ∧ Grows s s' := by
  cases act with
  | addToBlockIndex header =>
    cases hlookup : s.mapBlockIndex.lookup (getHash sha256 header) with
    | some p =>
      rw [ChainRuns.step, addToBlockIndex, hlookup] at h
      obtain rfl : s = s' := Except.ok.inj h
      exact ⟨hs, .refl s⟩
    | none =>
      obtain ⟨s₁, hadd, hadded, hlists⟩ := addToBlockIndex_lists hs.linked hlookup
      rw [ChainRuns.step, hadd] at h
      obtain rfl : s₁ = s' := Except.ok.inj h
      refine ⟨hs.adds hlookup hadded hlists, fun k p hp => ?_, ?_⟩
      · rw [hadded.mapBlockIndex]
        exact lookup_insert_new hlookup hp
      · rw [hlists.activeChain]
  | receivedBlockTransactions block pindex =>
    obtain ⟨s₁, hreceive, hreceives⟩ := receivedBlockTransactions_receives address
      (hs.standing pindex hallowed) block
    rw [ChainRuns.step, hreceive] at h
    obtain rfl : s₁ = s' := Except.ok.inj h
    refine ⟨hs.receives hallowed hreceives, fun k p hp => ?_, ?_⟩
    · rw [hreceives.index.mapBlockIndex, hp]
    · rw [hreceives.index.activeChain]
  | loadGenesisBlock block =>
    rw [ChainRuns.step] at h
    cases hlookup : s.mapBlockIndex.lookup (getHash sha256 block.header) with
    | some p =>
      rw [loadGenesisBlock_known hlookup] at h
      obtain rfl : s = s' := Except.ok.inj h
      exact ⟨hs, .refl s⟩
    | none =>
      by_cases hcontinues : Continues sha256 s block.header
      · obtain ⟨s₁, hload, hs₁, hextends⟩ :=
          loadGenesisBlock_continues address hs hlookup hcontinues
        rw [hload] at h
        obtain rfl : s₁ = s' := Except.ok.inj h
        refine ⟨hs₁, fun k p hp => ?_, ?_⟩
        · rw [hextends.mapBlockIndex]
          exact lookup_insert_new hlookup hp
        · rw [hextends.activeChain]
          exact List.prefix_append _ _
      · rw [loadGenesisBlock_stops hs hlookup hcontinues] at h
        cases h

theorem Sound.run (hs : Sound sha256 s)
    (h : Runs.Run (fun s act s' => ChainRuns.step sha256 address s act = .ok s') Allowed s s') :
    Sound sha256 s' ∧ Grows s s' := by
  refine Runs.Run.preserves (P := fun s' => Sound sha256 s' ∧ Grows s s') ?_ h ⟨hs, .refl s⟩
  rintro s₁ act s₂ ⟨hs₁, hgrows⟩ hallowed hstep
  obtain ⟨hs₂, hgrows'⟩ := hs₁.step hallowed hstep
  exact ⟨hs₂, hgrows.trans hgrows'⟩

/-- Whatever was done before, the state is sound, any header can be added and the transactions
of any entry received. -/
theorem chainState_sound (h : Reachable sha256 address s) :
    Sound sha256 s ∧
      (∀ header, ∃ s', ChainRuns.step sha256 address s (.addToBlockIndex header) = .ok s') ∧
      ∀ block p, p < s.allocated →
        ∃ s', ChainRuns.step sha256 address s (.receivedBlockTransactions block p) = .ok s' := by
  have hs : Sound sha256 s := (sound_init.run h).1
  refine ⟨hs, fun header => ?_, fun block p hp => ?_⟩
  · cases hlookup : s.mapBlockIndex.lookup (getHash sha256 header) with
    | some p => exact ⟨s, by rw [ChainRuns.step, addToBlockIndex, hlookup]; rfl⟩
    | none =>
      obtain ⟨s₁, hadd, -⟩ := addToBlockIndex_lists hs.linked hlookup
      exact ⟨s₁, by rw [ChainRuns.step, hadd]; rfl⟩
  · obtain ⟨s₁, hreceive, -⟩ := receivedBlockTransactions_receives address
      (hs.standing p hp) block
    exact ⟨s₁, by rw [ChainRuns.step, hreceive]; rfl⟩

/-- A block that is there is passed over. One that is new is put on top of the active chain if
it continues the tip, and stops the program if it does not. -/
theorem loadGenesisBlock_exact (h : Reachable sha256 address s) (genesisBlock : Block) :
    (∀ p, s.mapBlockIndex.lookup (getHash sha256 genesisBlock.header) = some p →
      loadGenesisBlock sha256 address s genesisBlock = .ok (true, s)) ∧
    (s.mapBlockIndex.lookup (getHash sha256 genesisBlock.header) = none →
      (Continues sha256 s genesisBlock.header →
        ∃ s', loadGenesisBlock sha256 address s genesisBlock = .ok (true, s') ∧
          Extends sha256 s s' genesisBlock) ∧
      (¬ Continues sha256 s genesisBlock.header →
        loadGenesisBlock sha256 address s genesisBlock = .error .assertion)) := by
  have hs : Sound sha256 s := (sound_init.run h).1
  refine ⟨fun p hp => loadGenesisBlock_known hp, fun hnew => ⟨fun hcontinues => ?_, ?_⟩⟩
  · obtain ⟨s', hload, -, hextends⟩ :=
      loadGenesisBlock_continues address hs hnew hcontinues
    exact ⟨s', hload, hextends⟩
  · exact loadGenesisBlock_stops hs hnew

/-- Once a block is loaded, no later step takes it or anything below it off the active chain,
and loading it again changes nothing. -/
theorem loaded_stays (h : Reachable sha256 address s) {genesisBlock : Block}
    (hload : loadGenesisBlock sha256 address s genesisBlock = .ok (true, s'))
    (hrun : Runs.Run (fun s act s' => ChainRuns.step sha256 address s act = .ok s') Allowed
      s' s'') :
    s'.activeChain.activeChain <+: s''.activeChain.activeChain ∧
      loadGenesisBlock sha256 address s'' genesisBlock = .ok (true, s'') := by
  have hs : Sound sha256 s := (sound_init.run h).1
  have hstep : ChainRuns.step sha256 address s (.loadGenesisBlock genesisBlock) = .ok s' := by
    rw [ChainRuns.step, hload]
    rfl
  have hallowed : Allowed s (.loadGenesisBlock genesisBlock) := trivial
  have hs' : Sound sha256 s' := (hs.step hallowed hstep).1
  obtain ⟨-, hgrows⟩ := hs'.run hrun
  refine ⟨hgrows.activeChain, ?_⟩
  obtain ⟨p, hp⟩ : ∃ p, s'.mapBlockIndex.lookup (getHash sha256 genesisBlock.header) = some p := by
    cases hlookup : s.mapBlockIndex.lookup (getHash sha256 genesisBlock.header) with
    | some p =>
      rw [loadGenesisBlock_known hlookup] at hload
      obtain rfl : s = s' := (Prod.mk.inj (Except.ok.inj hload)).2
      exact ⟨p, hlookup⟩
    | none =>
      by_cases hcontinues : Continues sha256 s genesisBlock.header
      · obtain ⟨s₁, hload₁, -, hextends⟩ :=
          loadGenesisBlock_continues address hs hlookup hcontinues
        rw [hload₁] at hload
        obtain rfl : s₁ = s' := (Prod.mk.inj (Except.ok.inj hload)).2
        exact ⟨s.allocated, by rw [hextends.mapBlockIndex, AList.lookup_insert]⟩
      · rw [loadGenesisBlock_stops hs hlookup hcontinues] at hload
        cases hload
  exact loadGenesisBlock_known (hgrows.lookup _ _ hp)

/-! Where all hashes are the same, an empty index takes one block. -/

theorem coinbase_continues : Continues (fun _ => plainHash 1) {} coinbase.header :=
  ⟨by decide, rfl⟩

theorem coinbase_loads : ∃ s,
    loadGenesisBlock (fun _ => plainHash 1) id {} coinbase = .ok (true, s) ∧
      Sound (fun _ => plainHash 1) s ∧ Extends (fun _ => plainHash 1) {} s coinbase :=
  loadGenesisBlock_continues id sound_init rfl coinbase_continues

theorem chainState_sound_coinbase : ∃ s,
    ChainRuns.step (fun _ => plainHash 1) id {} (.loadGenesisBlock coinbase) = .ok s ∧
      s.activeChain.activeChain = [some 0] ∧ Sound (fun _ => plainHash 1) s := by
  obtain ⟨s, hload, -, hextends⟩ := coinbase_loads
  have hstep : ChainRuns.step (fun _ => plainHash 1) id {} (.loadGenesisBlock coinbase) =
      .ok s := by
    rw [ChainRuns.step, hload]
    rfl
  have hallowed : Allowed {} (.loadGenesisBlock coinbase) := trivial
  exact ⟨s, hstep, hextends.activeChain, (chainState_sound (Runs.Run.single hallowed hstep)).1⟩

theorem loadGenesisBlock_exact_coinbase :
    (∃ s, loadGenesisBlock (fun _ => plainHash 1) id {} coinbase = .ok (true, s) ∧
      Extends (fun _ => plainHash 1) {} s coinbase) ∧
    loadGenesisBlock (fun _ => Bytes.zero 32) id {} coinbase = .error .assertion :=
  ⟨((loadGenesisBlock_exact .refl coinbase).2 rfl).1 coinbase_continues,
    ((loadGenesisBlock_exact .refl coinbase).2 rfl).2 fun h => h.1 rfl⟩

theorem loaded_stays_coinbase : ∃ s s',
    loadGenesisBlock (fun _ => plainHash 1) id {} coinbase = .ok (true, s) ∧
    receivedBlockTransactions id s coinbase 0 = .ok (true, s') ∧
    s.activeChain.activeChain <+: s'.activeChain.activeChain ∧
    loadGenesisBlock (fun _ => plainHash 1) id s' coinbase = .ok (true, s') := by
  obtain ⟨s, hload, hs, hextends⟩ := coinbase_loads
  have hp : 0 < s.allocated := by
    rw [hextends.allocated]
    exact Nat.zero_lt_one
  obtain ⟨s', hreceive, -⟩ := receivedBlockTransactions_receives id
    (hs.standing 0 hp) coinbase
  have hallowed : Allowed s (.receivedBlockTransactions coinbase 0) := hp
  have hstep : ChainRuns.step (fun _ => plainHash 1) id s
      (.receivedBlockTransactions coinbase 0) = .ok s' := by
    rw [ChainRuns.step, hreceive]
    rfl
  exact ⟨s, s', hload, hreceive, loaded_stays .refl hload (Runs.Run.single hallowed hstep)⟩

end Loading

end ChainRuns
