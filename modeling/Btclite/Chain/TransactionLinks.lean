import Btclite.Chain.ChainState
import Btclite.Library.Arrivals

/-!
# Linking transactions

The transaction counts that `ReceivedBlockTransactions` keeps along the chains.
Its queue holds the block that came and nothing else, so a block that came before
its parent is passed over for good, and what is below it as well.
-/

namespace TransactionLinks

open Serialize Transactions Ancestry Arrivals Loops BlockIndex ChainState

section Receiving

variable (address : Nat → Nat) {s s' : State} {block : Block} {p q : Nat}

/-- The count that a block of so many transactions gets. -/
def chainTxNumOf (s : State) (p : Nat) (size : Nat) : U32 :=
  match (s.block p).pprev with
  | none => BitVec.ofNat 32 size
  | some q =>
    if (s.block q).chainTxNum = 0 then 0 else (s.block q).chainTxNum + BitVec.ofNat 32 size

/-- What the transactions of a block change. -/
structure Received (s s' : State) (block : Block) (p : Nat) : Prop where
  same : ∀ q ≠ p, s'.block q = s.block q
  pprev : (s'.block p).pprev = (s.block p).pprev
  txNum : (s'.block p).txNum = BitVec.ofNat 32 block.transactions.length
  chainTxNum : (s'.block p).chainTxNum = chainTxNumOf s p block.transactions.length

theorem linkFront_block (s : State) (p : Nat) :
    (linkFront address s p p).block = (s.set p fun e => { e with
      chainTxNum := prevChainTxNum s p + e.txNum, sequenceId := s.blockSequenceId }).block := by
  rw [linkFront, State.set_set]
  split_ifs <;> rfl

theorem receivedBlockTransactions_ok (s : State) (block : Block) {p : Nat}
    (hself : (s.block p).pprev ≠ some p) :
    ∃ s', receivedBlockTransactions address s block p = .ok (true, s') ∧
      Received s s' block p := by
  rcases markReceived_marked s block p with ⟨s', hmark, hmarked⟩
  have hsame := hmarked.same
  have hpprev := hmarked.pprev
  have htxNum := hmarked.txNum
  refine ⟨_, receivedBlockTransactions_run address hmark, ?_⟩
  by_cases hlinked : prevLinked s' p
  · rw [if_pos hlinked]
    constructor
    · intro q hq
      rw [linkFront_block, State.set_block_ne hq, hsame q hq]
    · rw [linkFront_block, State.set_block_self, hpprev]
    · rw [linkFront_block, State.set_block_self, htxNum]
    · rw [linkFront_block, State.set_block_self]
      dsimp only
      rw [htxNum, chainTxNumOf, prevChainTxNum, hpprev]
      rw [prevLinked, hpprev] at hlinked
      cases hprev : (s.block p).pprev with
      | none => exact BitVec.zero_add _
      | some q =>
        have hq : q ≠ p := fun h => hself (by rw [hprev, h])
        rw [hprev] at hlinked
        dsimp only at hlinked ⊢
        rw [hsame q hq, bne_iff_ne] at hlinked
        rw [if_neg hlinked, hsame q hq]
  · rw [if_neg hlinked]
    refine ⟨hsame, hpprev, htxNum, ?_⟩
    rw [hmarked.chainTxNum, chainTxNumOf]
    rw [prevLinked, hpprev] at hlinked
    cases hprev : (s.block p).pprev with
    | none => simp [hprev] at hlinked
    | some q =>
      have hq : q ≠ p := fun h => hself (by rw [hprev, h])
      rw [hprev] at hlinked
      dsimp only at hlinked ⊢
      rw [hsame q hq, Bool.not_eq_true, bne_eq_false_iff_eq] at hlinked
      rw [if_pos hlinked]

end Receiving

section Deliveries

abbrev Delivery := Nat × Block

/-- One block after another. -/
def deliverAll (address : Nat → Nat) (s : State) (deliveries : List Delivery) :
    Except Fault State :=
  deliveries.foldlM (fun s d => Prod.snd <$> receivedBlockTransactions address s d.2 d.1) s

abbrev order (deliveries : List Delivery) : List Nat := deliveries.map Prod.fst

/-- The number of transactions of an entry, none if its block is not delivered. -/
def sizeIn (deliveries : List Delivery) (p : Nat) : Nat :=
  ((deliveries.lookup p).map fun block => block.transactions.length).getD 0

variable (t : BlockTree Nat)

/-- Summed up over an entry and all its ancestors. -/
def total (size : Nat → Nat) (p : Nat) : Nat := ((t.forest.line p).map size).sum

/-- Every block once, none empty, and no total too large. -/
structure Deliverable (deliveries : List Delivery) : Prop where
  once : (order deliveries).Nodup
  nonempty : ∀ d ∈ deliveries, d.2.transactions ≠ []
  fits : ∀ p, total t (sizeIn deliveries) p < 2 ^ 32

/-- A tree that no transactions were received for. -/
structure Uncounted (s : State) : Prop where
  tree : s.block = t.block
  zero : ∀ p, (s.block p).chainTxNum = 0

/-- The count of an entry is the sum over its line if that is delivered, and 0 if not. -/
def Sums (delivered : List Nat) (s : State) : Prop :=
  ∀ p, (s.block p).chainTxNum.toNat =
    if Complete t.forest delivered p then total t (fun q => (s.block q).txNum.toNat) p else 0

def SumsAlways (address : Nat → Nat) (s : State) (deliveries : List Delivery) : Prop :=
  ∀ done rest, deliveries = done ++ rest →
    ∃ s', deliverAll address s done = .ok s' ∧ Sums t (order done) s'

/-- After either, every entry has the same count. -/
def SameCounts (address : Nat → Nat) (s : State) (deliveries deliveries' : List Delivery) : Prop :=
  ∃ s₁ s₂, deliverAll address s deliveries = .ok s₁ ∧ deliverAll address s deliveries' = .ok s₂ ∧
    ∀ p, (s₁.block p).chainTxNum = (s₂.block p).chainTxNum

variable {t} {address : Nat → Nat} {deliveries deliveries' done rest : List Delivery} {s s' : State}
  {p q : Nat} {block : Block} {size size' : Nat → Nat}

theorem total_root (h : (t.block p).pprev = none) : total t size p = size p := by
  rw [total, Forest.line_root (F := t.forest) h, List.map_singleton, List.sum_singleton]

theorem total_child (h : (t.block p).pprev = some q) :
    total t size p = size p + total t size q := by
  rw [total, Forest.line_child (F := t.forest) h, List.map_cons, List.sum_cons, total]

theorem total_congr (h : ∀ q ∈ t.forest.line p, size q = size' q) :
    total t size p = total t size' p :=
  congrArg List.sum (List.map_congr_left h)

theorem le_total (p : Nat) : size p ≤ total t size p := by
  cases hprev : (t.block p).pprev with
  | none => rw [total_root hprev]
  | some q => rw [total_child hprev]; omega

theorem sizeIn_of_mem (h : (order deliveries).Nodup) (hmem : (p, block) ∈ deliveries) :
    sizeIn deliveries p = block.transactions.length := by
  obtain ⟨before, after, rfl⟩ := List.append_of_mem hmem
  have hlookup : (before ++ (p, block) :: after).lookup p = some block := by
    refine List.lookup_eq_some_iff.mpr ⟨before, after, rfl, fun d hd => ?_⟩
    rw [order, List.map_append, List.map_cons] at h
    have hnot := (List.nodup_middle.mp h).notMem
    rw [bne_iff_ne]
    intro hp
    exact hnot (List.mem_append_left _ (List.mem_map.mpr ⟨d, hd, hp.symm⟩))
  rw [sizeIn, hlookup]
  rfl

theorem sizeIn_of_notMem (h : p ∉ order deliveries) : sizeIn deliveries p = 0 := by
  have hlookup : deliveries.lookup p = none := by
    refine List.lookup_eq_none_iff.mpr fun d hd => ?_
    rw [bne_iff_ne]
    rintro rfl
    exact h (List.mem_map_of_mem hd)
  rw [sizeIn, hlookup]
  rfl

/-- The sizes do not depend on the order. -/
theorem sizeIn_perm (h : (order deliveries).Nodup) (hperm : deliveries.Perm deliveries') :
    sizeIn deliveries' = sizeIn deliveries := by
  funext p
  by_cases hmem : p ∈ order deliveries
  · rcases List.mem_map.mp hmem with ⟨⟨p', block⟩, hd, rfl⟩
    have h' : (order deliveries').Nodup := (hperm.map _).nodup_iff.mp h
    rw [sizeIn_of_mem h hd, sizeIn_of_mem h' (hperm.mem_iff.mp hd)]
  · rw [sizeIn_of_notMem hmem, sizeIn_of_notMem]
    exact fun hmem' => hmem ((hperm.map _).mem_iff.mpr hmem')

theorem Deliverable.perm (h : Deliverable t deliveries) (hperm : deliveries.Perm deliveries') :
    Deliverable t deliveries' where
  once := (hperm.map _).nodup_iff.mp h.once
  nonempty d hd := h.nonempty d (hperm.mem_iff.mpr hd)
  fits p := by
    rw [sizeIn_perm h.once hperm]
    exact h.fits p

theorem Deliverable.sizeIn_pos (h : Deliverable t deliveries) (hmem : p ∈ order deliveries) :
    0 < sizeIn deliveries p := by
  rcases List.mem_map.mp hmem with ⟨⟨p', block⟩, hd, rfl⟩
  rw [sizeIn_of_mem h.once hd]
  exact List.length_pos_iff.mpr (h.nonempty _ hd)

variable (t) in
/-- What the counts are after some of the deliveries: those in turn have theirs. -/
structure Counted (deliveries done : List Delivery) (s : State) : Prop where
  pprev : ∀ p, (s.block p).pprev = (t.block p).pprev
  txNum : ∀ p ∈ order done, (s.block p).txNum.toNat = sizeIn deliveries p
  chainTxNum : ∀ p, (s.block p).chainTxNum.toNat =
    if InTurn t.forest (order done) p then total t (sizeIn deliveries) p else 0

theorem pprev_ne_self (p : Nat) : (t.block p).pprev ≠ some p := by
  intro h
  have := t.height_child p p h
  omega

theorem Counted.step (hds : Deliverable t deliveries)
    (hsplit : deliveries = done ++ (p, block) :: rest) (h : Counted t deliveries done s)
    (hreceived : Received s s' block p) : Counted t deliveries (done ++ [(p, block)]) s' := by
  have horder : order (done ++ [(p, block)]) = order done ++ [p] := List.map_append
  have hnew : p ∉ order done := by
    have honce := hds.once
    rw [hsplit, order, List.map_append, List.map_cons] at honce
    exact fun hmem => (List.nodup_middle.mp honce).notMem (List.mem_append_left _ hmem)
  have hsize : block.transactions.length = sizeIn deliveries p := by
    refine (sizeIn_of_mem hds.once ?_).symm
    rw [hsplit]
    exact List.mem_append_right _ List.mem_cons_self
  have hpos : 0 < sizeIn deliveries p := by
    apply hds.sizeIn_pos
    rw [hsplit, order, List.map_append, List.map_cons]
    exact List.mem_append_right _ List.mem_cons_self
  have hfits : sizeIn deliveries p < 2 ^ 32 := (le_total p).trans_lt (hds.fits p)
  refine ⟨?_, ?_, ?_⟩
  · intro q
    by_cases hq : q = p
    · rw [hq, hreceived.pprev, h.pprev]
    · rw [hreceived.same q hq, h.pprev]
  · intro q hmem
    rw [horder, List.mem_append, List.mem_singleton] at hmem
    by_cases hq : q = p
    · rw [hq, hreceived.txNum, BitVec.toNat_ofNat, hsize, Nat.mod_eq_of_lt hfits]
    · rw [hreceived.same q hq, h.txNum q (hmem.resolve_right hq)]
  · intro q
    rw [horder]
    by_cases hq : q = p
    · subst hq
      rw [hreceived.chainTxNum, chainTxNumOf, h.pprev, hsize]
      cases hprev : (t.block q).pprev with
      | none =>
        have hturn : InTurn t.forest (order done ++ [q]) q :=
          (inTurn_append_self hnew).mpr fun u hu => absurd (hprev.symm.trans hu) (by simp)
        rw [if_pos hturn, total_root hprev]
        exact (BitVec.toNat_ofNat _ _).trans (Nat.mod_eq_of_lt hfits)
      | some u =>
        have hturn : InTurn t.forest (order done ++ [q]) q ↔ InTurn t.forest (order done) u := by
          rw [inTurn_append_self hnew]
          constructor
          · exact fun hall => hall u hprev
          · intro hu v hv
            obtain rfl : u = v := Option.some.inj (hprev.symm.trans hv)
            exact hu
        have hcount := h.chainTxNum u
        dsimp only
        by_cases hu : InTurn t.forest (order done) u
        · rw [if_pos hu] at hcount
          have hne : (s.block u).chainTxNum ≠ 0 := by
            intro hzero
            have humem : u ∈ order deliveries := by
              rw [hsplit, order, List.map_append]
              exact List.mem_append_left _ (hu u (Forest.self_mem_line u)).1
            have := hds.sizeIn_pos humem
            have hle : sizeIn deliveries u ≤ total t (sizeIn deliveries) u := le_total u
            rw [hzero] at hcount
            simp at hcount
            omega
          have hsum := hds.fits q
          rw [total_child hprev] at hsum
          rw [if_neg hne, if_pos (hturn.mpr hu), total_child hprev, BitVec.toNat_add, hcount,
            BitVec.toNat_ofNat, Nat.mod_eq_of_lt hfits, Nat.mod_eq_of_lt (by omega),
            Nat.add_comm]
        · rw [if_neg hu] at hcount
          have hzero : (s.block u).chainTxNum = 0 := BitVec.eq_of_toNat_eq hcount
          rw [if_pos hzero, if_neg (fun h => hu (hturn.mp h))]
          rfl
    · rw [hreceived.same q hq, h.chainTxNum q]
      exact if_congr (inTurn_append_of_ne hnew hq).symm rfl rfl

theorem deliverAll_counted (address : Nat → Nat) (htree : Uncounted t s)
    (hds : Deliverable t deliveries) (hsplit : deliveries = done ++ rest) :
    ∃ s', deliverAll address s done = .ok s' ∧ Counted t deliveries done s' := by
  refine foldlM_total (I := fun done s => Counted t deliveries done s) ?_ ?_
  · rintro earlier ⟨p, block⟩ later s hdone hcounted
    have hself : (s.block p).pprev ≠ some p := by
      rw [hcounted.pprev]
      exact pprev_ne_self p
    rcases receivedBlockTransactions_ok address s block hself with ⟨s', hrun, hreceived⟩
    have hlater : deliveries = earlier ++ (p, block) :: (later ++ rest) := by
      rw [hsplit, hdone, List.append_assoc, List.cons_append]
    exact ⟨s', by rw [hrun]; rfl, hcounted.step hds hlater hreceived⟩
  · refine ⟨fun p => by rw [htree.tree], fun p hp => absurd hp List.not_mem_nil, fun p => ?_⟩
    have hnot : ¬InTurn t.forest (order []) p := fun h =>
      List.not_mem_nil (h p (Forest.self_mem_line p)).1
    rw [htree.zero, if_neg hnot]
    rfl

/-- The sums are right iff every complete line was delivered in turn. -/
theorem Counted.sums_iff (hds : Deliverable t deliveries) (hsplit : deliveries = done ++ rest)
    (h : Counted t deliveries done s) :
    Sums t (order done) s ↔
      ∀ p, Complete t.forest (order done) p → InTurn t.forest (order done) p := by
  have htotal : ∀ p, Complete t.forest (order done) p →
      total t (fun q => (s.block q).txNum.toNat) p = total t (sizeIn deliveries) p := fun p hp =>
    total_congr fun q hq => h.txNum q (hp q hq)
  constructor
  · intro hsums p hp
    by_contra hturn
    have hzero := (hsums p).symm.trans (h.chainTxNum p)
    rw [if_pos hp, if_neg hturn, htotal p hp] at hzero
    have hmem : p ∈ order deliveries := by
      rw [hsplit, order, List.map_append]
      exact List.mem_append_left _ (hp p (Forest.self_mem_line p))
    have := hds.sizeIn_pos hmem
    have hle : sizeIn deliveries p ≤ total t (sizeIn deliveries) p := le_total p
    omega
  · intro hturn p
    rw [h.chainTxNum p]
    by_cases hp : Complete t.forest (order done) p
    · rw [if_pos (hturn p hp), if_pos hp, htotal p hp]
    · rw [if_neg (fun h => hp h.complete), if_neg hp]

theorem ite_zero_eq_iff {a b : Prop} [Decidable a] [Decidable b] {n : Nat}
    (h : a ∨ b → 0 < n) : ((if a then n else 0) = if b then n else 0) ↔ (a ↔ b) := by
  by_cases ha : a
  · have := h (Or.inl ha)
    by_cases hb : b <;> simp [ha, hb]
    omega
  · by_cases hb : b
    · have := h (Or.inr hb)
      simp [ha, hb]
      omega
    · simp [ha, hb]

/-- The counts are right after every delivery iff no block whose whole line is delivered comes
before its parent, and two orders agree iff they bring the same blocks in turn. -/
theorem sumsAlways_iff (address : Nat → Nat) (htree : Uncounted t s)
    (hds : Deliverable t deliveries) :
    (SumsAlways t address s deliveries ↔ Ordered t.forest (order deliveries)) ∧
      ∀ deliveries', deliveries.Perm deliveries' →
        (SameCounts address s deliveries deliveries' ↔
          ∀ p, InTurn t.forest (order deliveries) p ↔ InTurn t.forest (order deliveries') p) := by
  constructor
  · rw [← complete_inTurn_iff]
    constructor
    · intro h delivered rest' hsplit
      rcases List.map_eq_append_iff.mp hsplit with ⟨done, rest, hdone, rfl, -⟩
      rcases deliverAll_counted address htree hds hdone with ⟨s', hrun, hcounted⟩
      rcases h done rest hdone with ⟨s'', hrun', hsums⟩
      obtain rfl : s' = s'' := by simpa [hrun] using hrun'
      exact (hcounted.sums_iff hds hdone).mp hsums
    · intro h done rest hdone
      rcases deliverAll_counted address htree hds hdone with ⟨s', hrun, hcounted⟩
      refine ⟨s', hrun, (hcounted.sums_iff hds hdone).mpr ?_⟩
      exact h (order done) (order rest) (by rw [hdone, order, List.map_append])
  · intro deliveries' hperm
    rcases deliverAll_counted address htree hds (List.append_nil _).symm with ⟨s₁, hrun₁, h₁⟩
    rcases deliverAll_counted address htree (hds.perm hperm) (List.append_nil _).symm with
      ⟨s₂, hrun₂, h₂⟩
    have hcount (p : Nat) : (s₂.block p).chainTxNum.toNat =
        if InTurn t.forest (order deliveries') p then total t (sizeIn deliveries) p else 0 := by
      rw [h₂.chainTxNum, sizeIn_perm hds.once hperm]
    have hpos (p : Nat) (hturn : p ∈ order deliveries) : 0 < total t (sizeIn deliveries) p :=
      (hds.sizeIn_pos hturn).trans_le (le_total p)
    have hsame (p : Nat) : (s₁.block p).chainTxNum = (s₂.block p).chainTxNum ↔
        (InTurn t.forest (order deliveries) p ↔ InTurn t.forest (order deliveries') p) := by
      rw [← BitVec.toNat_inj, h₁.chainTxNum, hcount]
      apply ite_zero_eq_iff
      rintro (h | h)
      · exact hpos p (h p (Forest.self_mem_line p)).1
      · exact hpos p ((hperm.map _).mem_iff.mpr (h p (Forest.self_mem_line p)).1)
    constructor
    · rintro ⟨s₁', s₂', hrun₁', hrun₂', heq⟩ p
      obtain rfl : s₁ = s₁' := by simpa [hrun₁] using hrun₁'
      obtain rfl : s₂ = s₂' := by simpa [hrun₂] using hrun₂'
      exact (hsame p).mp (heq p)
    · intro hturn
      exact ⟨s₁, s₂, hrun₁, hrun₂, fun p => (hsame p).mpr (hturn p)⟩

/-- A root and its child. -/
def pair : BlockTree Nat where
  block p :=
    if p = 1 then { blockHash := plainHash 1, pprev := some 0, height := 1 }
    else { blockHash := Bytes.zero 32 }
  height_child p q h := by
    split_ifs at h with hp
    obtain rfl : 0 = q := by simpa using h
    simp [hp]
  height_root p h := by
    split_ifs at h with hp
    simp [hp]

def pairState : State := { block := pair.block }

def coinbase : Block := ⟨.cleared, [⟨1, [], [], 0⟩]⟩

/-- The child is delivered before its parent. -/
def childFirst : List Delivery := [(1, coinbase), (0, coinbase)]

theorem pair_uncounted : Uncounted pair pairState where
  tree := rfl
  zero p := by
    change (if p = 1 then _ else _ : Entry Nat).chainTxNum = 0
    split_ifs <;> rfl

theorem childFirst_deliverable : Deliverable pair childFirst where
  once := by decide
  nonempty := by decide
  fits p := by
    by_cases hone : p = 1
    · subst hone
      decide
    · have hprev : (pair.block p).pprev = none := by
        change (if p = 1 then _ else _ : Entry Nat).pprev = none
        rw [if_neg hone]
      rw [total_root hprev]
      by_cases hzero : p = 0
      · subst hzero
        decide
      · rw [sizeIn_of_notMem]
        · decide
        · simp [childFirst, hone, hzero]

theorem sumsAlways_childFirst :
    (SumsAlways pair id pairState childFirst ↔ Ordered pair.forest (order childFirst)) ∧
      ∀ deliveries', childFirst.Perm deliveries' →
        (SameCounts id pairState childFirst deliveries' ↔
          ∀ p, InTurn pair.forest (order childFirst) p ↔
            InTurn pair.forest (order deliveries') p) :=
  sumsAlways_iff id pair_uncounted childFirst_deliverable

/-- The child is never counted, and in the other order it is. -/
theorem childFirst_uncounted :
    Deliverable pair childFirst ∧ ¬SumsAlways pair id pairState childFirst ∧
      ¬SameCounts id pairState childFirst childFirst.reverse := by
  have hcount : ((deliverAll id pairState childFirst).toOption.map fun s =>
      ((s.block 1).chainTxNum, (s.block 1).txNum)) = some (0, 1) := by decide +kernel
  have hcount' : ((deliverAll id pairState childFirst.reverse).toOption.map fun s =>
      (s.block 1).chainTxNum) = some 2 := by decide +kernel
  refine ⟨childFirst_deliverable, ?_, ?_⟩
  · intro h
    rcases h childFirst [] (List.append_nil _).symm with ⟨s, hrun, hsums⟩
    rw [hrun] at hcount
    rcases Prod.mk.inj (Option.some.inj hcount) with ⟨hchain, htx⟩
    have hsum := hsums 1
    have hcomplete : Complete pair.forest (order childFirst) 1 := by decide
    have hprev : (pair.block 1).pprev = some 0 := rfl
    rw [hchain, if_pos hcomplete, total_child hprev, htx] at hsum
    simp at hsum
    omega
  · rintro ⟨s₁, s₂, hrun₁, hrun₂, hsame⟩
    rw [hrun₁] at hcount
    rw [hrun₂] at hcount'
    have hzero := (Prod.mk.inj (Option.some.inj hcount)).1
    have htwo : (s₂.block 1).chainTxNum = 2 := Option.some.inj hcount'
    have hboth := hsame 1
    rw [hzero, htwo] at hboth
    exact absurd hboth (by decide)

end Deliveries

end TransactionLinks
