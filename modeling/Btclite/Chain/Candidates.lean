import Btclite.Chain.TransactionLinks
import Btclite.Library.Runs
import Btclite.Library.SortedSets
import Mathlib.Data.Prod.Lex

/-!
# The candidates for the tip

`set_block_index_candidates_` is sorted by the work of the entries and by the
order in which their blocks came. The place in that order is a member of the
entry, and it is set anew when the block comes again, while the entry is in the
set.
-/

namespace Candidates

open Serialize Transactions BlockProof BlockIndex ChainState TransactionLinks Runs SortedSets

variable (address : Nat → Nat)

/-- The first of two entries is the earlier one. -/
def Earlier (s : State) (pa pb : Nat) : Prop :=
  (s.block pa).chainWork < (s.block pb).chainWork ∨
    (s.block pa).chainWork = (s.block pb).chainWork ∧
      ((s.block pb).sequenceId.slt (s.block pa).sequenceId = true ∨
        (s.block pa).sequenceId = (s.block pb).sequenceId ∧ address pb < address pa)

section Comparator

/-- What entries are compared by, the work first. -/
def rank (s : State) (p : Nat) : Nat ×ₗ Int ×ₗ Int :=
  toLex ((s.block p).chainWork.toNat, toLex (-(s.block p).sequenceId.toInt, -(address p : Int)))

variable {address} {s s' : State}

/-- In numbers. -/
theorem earlier_iff (pa pb : Nat) : Earlier address s pa pb ↔
    (s.block pa).chainWork.toNat < (s.block pb).chainWork.toNat ∨
      (s.block pa).chainWork.toNat = (s.block pb).chainWork.toNat ∧
        ((s.block pb).sequenceId.toInt < (s.block pa).sequenceId.toInt ∨
          (s.block pa).sequenceId.toInt = (s.block pb).sequenceId.toInt ∧
            address pb < address pa) := by
  rw [Earlier, BitVec.lt_def, BitVec.slt_iff_toInt_lt, BitVec.toNat_inj, BitVec.toInt_inj]

theorem workComparator_iff (pa pb : Nat) :
    workComparator address s pa pb = true ↔ Earlier address s pa pb := by
  rw [earlier_iff, workComparator]
  simp only [BitVec.lt_def, BitVec.slt_iff_toInt_lt]
  split_ifs with hmore hless hearly hlate haddr
  · exact iff_of_false (by simp) (by omega)
  · exact iff_of_true rfl (by omega)
  · exact iff_of_false (by simp) (by omega)
  · exact iff_of_true rfl (by omega)
  · exact iff_of_false (by simp) (by omega)
  · rw [decide_eq_true_iff]
    omega

theorem earlier_iff_rank (pa pb : Nat) :
    Earlier address s pa pb ↔ rank address s pa < rank address s pb := by
  rw [earlier_iff, rank, rank, Prod.Lex.toLex_lt_toLex, Prod.Lex.toLex_lt_toLex]
  dsimp only
  omega

/-- Entries at different addresses are never equivalent. -/
theorem workComparator_strictTotal (haddress : Function.Injective address) (s : State) :
    StrictTotal (workComparator address s) := by
  have hinj : Function.Injective (rank address s) := by
    intro pa pb hsame
    have haddr := congrArg (fun r => (ofLex (ofLex r).2).2) hsame
    exact haddress (Int.ofNat_inj.mp (neg_injective haddr))
  exact StrictTotal.of_rank hinj fun pa pb =>
    (workComparator_iff pa pb).trans (earlier_iff_rank pa pb)

end Comparator

section Deliveries

/-- What an entry is sorted by, besides where it lies. -/
def key (s : State) (p : Nat) : U256 × CInt := ((s.block p).chainWork, (s.block p).sequenceId)

/-- The candidates are in the order of the comparator. -/
def Ordered (s : State) : Prop := Sorted (workComparator address s) s.setBlockIndexCandidates

/-- The state that `ReceivedBlockTransactions` leaves. -/
def deliver (s : State) (d : Delivery) : State :=
  match receivedBlockTransactions address s d.2 d.1 with
  | .ok (_, s') => s'
  | .error _ => s

/-- A delivery leaves the candidates in order and no key of theirs changed. -/
structure Keeps (s : State) (d : Delivery) : Prop where
  returns : receivedBlockTransactions address s d.2 d.1 = .ok (true, deliver address s d)
  sorted : Ordered address (deliver address s d)
  nodup : (deliver address s d).setBlockIndexCandidates.Nodup
  keys : ∀ p ∈ s.setBlockIndexCandidates, key (deliver address s d) p = key s p

/-- The block is a root, or its parent is another one and has its transactions linked. -/
def Links (s : State) (p : Nat) : Prop :=
  ∀ q, (s.block p).pprev = some q → q ≠ p ∧ (s.block q).chainTxNum ≠ 0

/-- No candidate is linked once more, unless it happens to get the number that it has. -/
def Fresh (s : State) (d : Delivery) : Prop :=
  Links s d.1 → d.1 ∈ s.setBlockIndexCandidates → (s.block d.1).sequenceId = s.blockSequenceId

variable {address} {s s' : State} {d : Delivery} {block : Block} {p : Nat}

theorem prevLinked_iff (h : Marked s s' block p) : prevLinked s' p = true ↔ Links s p := by
  rw [prevLinked, h.pprev]
  cases hprev : (s.block p).pprev with
  | none => simp [Links, hprev]
  | some q =>
    dsimp only
    rw [bne_iff_ne]
    by_cases hself : q = p
    · subst hself
      refine iff_of_false (fun hne => hne h.chainTxNum) fun hlinks => ?_
      exact (hlinks q hprev).1 rfl
    · rw [h.same q hself]
      constructor
      · intro hne r hr
        obtain rfl : q = r := Option.some.inj (hprev.symm.trans hr)
        exact ⟨hself, hne⟩
      · exact fun hlinks => (hlinks q hprev).2

theorem workComparator_congr {pa pb : Nat} (ha : key s' pa = key s pa) (hb : key s' pb = key s pb) :
    workComparator address s' pa pb = workComparator address s pa pb := by
  obtain ⟨hawork, haid⟩ := Prod.mk.inj ha
  obtain ⟨hbwork, hbid⟩ := Prod.mk.inj hb
  simp only [workComparator, hawork, haid, hbwork, hbid]

theorem setInsert_eq (less : Nat → Nat → Bool) (p : Nat) (l : List Nat) :
    setInsert less p l = insertBy less p l := by
  induction l with
  | nil => rfl
  | cons q rest ih => rw [setInsert, insertBy, ih]

/-- What a delivery does to the keys and to the candidates. -/
structure Delivers (address : Nat → Nat) (s : State) (d : Delivery) (s' : State) : Prop where
  others : ∀ q, q ≠ d.1 → key s' q = key s q
  work : (s'.block d.1).chainWork = (s.block d.1).chainWork
  linked : Links s d.1 → (s'.block d.1).sequenceId = s.blockSequenceId
  unlinked : ¬ Links s d.1 → (s'.block d.1).sequenceId = (s.block d.1).sequenceId
  candidates : s'.setBlockIndexCandidates = s.setBlockIndexCandidates ∨
    s'.setBlockIndexCandidates =
      insertBy (workComparator address s') d.1 s.setBlockIndexCandidates

theorem linkFront_candidates (s : State) (p : Nat) :
    (linkFront address s p p).setBlockIndexCandidates = s.setBlockIndexCandidates ∨
      (linkFront address s p p).setBlockIndexCandidates =
        insertBy (workComparator address (linkFront address s p p)) p
          s.setBlockIndexCandidates := by
  rw [linkFront]
  dsimp only
  split_ifs
  · right
    rw [setInsert_eq]
    rfl
  · exact Or.inl rfl

theorem deliver_delivers (address : Nat → Nat) (s : State) (d : Delivery) :
    receivedBlockTransactions address s d.2 d.1 = .ok (true, deliver address s d) ∧
      Delivers address s d (deliver address s d) := by
  obtain ⟨s', hmark, hmarked⟩ := markReceived_marked s d.2 d.1
  have hrun := receivedBlockTransactions_run address hmark
  have hdeliver : deliver address s d =
      if prevLinked s' d.1 then linkFront address s' d.1 d.1 else s' := by
    rw [deliver, hrun]
  rw [hdeliver]
  refine ⟨hrun, ?_⟩
  by_cases hlinked : prevLinked s' d.1 = true
  · have hlinks : Links s d.1 := (prevLinked_iff hmarked).mp hlinked
    rw [if_pos hlinked]
    refine ⟨?_, ?_, ?_, fun h => absurd hlinks h, ?_⟩
    · intro q hq
      rw [key, key, linkFront_block, State.set_block_ne hq, hmarked.same q hq]
    · rw [linkFront_block, State.set_block_self, hmarked.chainWork]
    · intro _
      rw [linkFront_block, State.set_block_self, hmarked.blockSequenceId]
    · rw [← hmarked.setBlockIndexCandidates]
      exact linkFront_candidates s' d.1
  · have hlinks : ¬ Links s d.1 := fun h => hlinked ((prevLinked_iff hmarked).mpr h)
    rw [if_neg hlinked]
    refine ⟨?_, hmarked.chainWork, fun h => absurd h hlinks, fun _ => hmarked.sequenceId, ?_⟩
    · intro q hq
      rw [key, key, hmarked.same q hq]
    · exact Or.inl hmarked.setBlockIndexCandidates

theorem Delivers.keys_iff (h : Delivers address s d s') :
    (∀ p ∈ s.setBlockIndexCandidates, key s' p = key s p) ↔ Fresh s d := by
  constructor
  · intro hkeys hlinks hmem
    rw [← h.linked hlinks]
    exact (Prod.mk.inj (hkeys d.1 hmem)).2.symm
  · intro hfresh p hmem
    by_cases hp : p = d.1
    · subst hp
      apply Prod.ext h.work
      by_cases hlinks : Links s d.1
      · exact (h.linked hlinks).trans (hfresh hlinks hmem).symm
      · exact h.unlinked hlinks
    · exact h.others p hp

/-- With the keys kept, the candidates stay in order. -/
theorem Delivers.ordered (haddress : Function.Injective address) (hs : Ordered address s)
    (h : Delivers address s d s')
    (hkeys : ∀ p ∈ s.setBlockIndexCandidates, key s' p = key s p) : Ordered address s' := by
  have hsorted : Sorted (workComparator address s') s.setBlockIndexCandidates :=
    hs.congr fun a ha b hb => workComparator_congr (hkeys a ha) (hkeys b hb)
  rcases h.candidates with hsame | hinsert
  · rw [Ordered, hsame]
    exact hsorted
  · rw [Ordered, hinsert]
    exact hsorted.insertBy (workComparator_strictTotal haddress s') d.1

theorem keeps_iff (haddress : Function.Injective address) (hs : Ordered address s) :
    Keeps address s d ↔ Fresh s d := by
  obtain ⟨hrun, hdelivers⟩ := deliver_delivers address s d
  constructor
  · exact fun h => hdelivers.keys_iff.mp h.keys
  · intro hfresh
    have hkeys := hdelivers.keys_iff.mpr hfresh
    have hordered := hdelivers.ordered haddress hs hkeys
    exact ⟨hrun, hordered, hordered.nodup (workComparator_strictTotal haddress _), hkeys⟩

/-- The comparator is a strict total order, by work, by who came first and by address, and
the candidates stay in that order under fixed keys exactly in the runs in which no candidate
is linked once more. -/
theorem sorted_iff_fresh (haddress : Function.Injective address) (hs : Ordered address s)
    (deliveries : List Delivery) :
    (∀ s, StrictTotal (workComparator address s)) ∧
      (∀ s pa pb, workComparator address s pa pb = true ↔ Earlier address s pa pb) ∧
      (Throughout (deliver address) (Keeps address) s deliveries ↔
        Throughout (deliver address) Fresh s deliveries) := by
  refine ⟨workComparator_strictTotal haddress, fun s => workComparator_iff, ?_⟩
  refine throughout_congr hs ?_ fun s d h => keeps_iff haddress h
  exact fun s d _ h => h.sorted

/-- Entries of equal work and without parents. -/
def rootsState : State :=
  { block := fun _ => { blockHash := Bytes.zero 32, chainWork := 1 } }

/-- Two of them are delivered, and then the first of them again. -/
def firstAgain : List Delivery := [(0, coinbase), (1, coinbase), (0, coinbase)]

theorem sorted_iff_fresh_roots :
    (∀ s, StrictTotal (workComparator id s)) ∧
      (∀ s pa pb, workComparator id s pa pb = true ↔ Earlier id s pa pb) ∧
      (Throughout (deliver id) (Keeps id) rootsState firstAgain ↔
        Throughout (deliver id) Fresh rootsState firstAgain) :=
  sorted_iff_fresh Function.injective_id (s := rootsState) List.Pairwise.nil firstAgain

/-- The first comes after the second in the set, and then is to come before it. -/
theorem candidate_moved :
    (∀ p, (rootsState.block p).pprev = none) ∧ rootsState.setBlockIndexCandidates = [] ∧
      ((firstAgain.take 2).foldl (deliver id) rootsState).setBlockIndexCandidates = [1, 0] ∧
      workComparator id (firstAgain.foldl (deliver id) rootsState) 0 1 = true ∧
      ¬ Throughout (deliver id) (Keeps id) rootsState firstAgain := by
  have hset : ((firstAgain.take 2).foldl (deliver id) rootsState).setBlockIndexCandidates =
      [1, 0] := by decide +kernel
  have hkey : key ((firstAgain.take 2).foldl (deliver id) rootsState) 0 = (1, 1) := by
    decide +kernel
  have hkey' : key (firstAgain.foldl (deliver id) rootsState) 0 = (1, 3) := by decide +kernel
  refine ⟨fun _ => rfl, rfl, hset, by decide +kernel, ?_⟩
  intro hkeeps
  have hmem : 0 ∈ ((firstAgain.take 2).foldl (deliver id) rootsState).setBlockIndexCandidates := by
    rw [hset]
    decide
  have hlast := throughout_iff_forall.mp hkeeps (firstAgain.take 2) (0, coinbase) (by decide)
  have hkept : key (firstAgain.foldl (deliver id) rootsState) 0 = _ := hlast.keys 0 hmem
  rw [hkey', hkey] at hkept
  exact absurd hkept (by decide)

end Deliveries

end Candidates
