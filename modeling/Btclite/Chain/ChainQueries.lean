import Btclite.Chain.ActiveChain

/-!
# Queries of the active chain

What `chain_state.h` reads off the vector: membership, the successor of a block,
the last block common with a branch, and equality of two chains by their sizes
and tips. All of them go by height. Two are wrong at an edge: `Next` of a block
beside the chain, and the comparison of two chains that are empty.
-/

namespace ChainQueries

open Ancestry Loops BlockIndex ActiveChain

section Model

variable {P : Type} (c : Chain P)

/-- `Height`, which is `size() - 1` as a `uint32_t`. -/
def height : BitVec 32 := (BitVec.ofNat 64 c.activeChain.length - 1).setWidth 32

/-- Where the last entry is looked for. -/
def lastIndex : Nat :=
  if c.activeChain.length = 0 then 2 ^ 64 - 1 else c.activeChain.length - 1

variable (block : P → Entry P)

def next (pindex : P) : Option P := c.getBlockIndex ((block pindex).height + 1)

/-- Where `FindFork` starts to walk: a block above the tip is left for its ancestor there. -/
def findForkStart (pindex : P) : Except Fault (Option P) :=
  if (height c).toNat < (block pindex).height then getAncestor block pindex (height c).toNat
  else .ok (some pindex)

variable [DecidableEq P]

/-- `operator==`. What is right of `&&` is not evaluated for chains of two sizes. -/
def equal (a b : Chain P) : Except Fault Bool :=
  if a.activeChain.length = b.activeChain.length then
    match a.activeChain[lastIndex a]?, b.activeChain[lastIndex b]? with
    | some p, some q => .ok (p == q)
    | _, _ => .error .outOfRange
  else .ok false

/-- A turn of the loop in `FindFork`. -/
def findForkTurn : Option P → Except Fault (Turn (Option P) (Option P))
  | none => .ok (.leave none)
  | some pindex =>
    if c.isExist block pindex then .ok (.leave (some pindex))
    else .ok (.again (block pindex).pprev)

/-- `FindFork`. Every turn lowers the height, so the fuel lasts. -/
def findFork : Option P → Except Fault (Option P)
  | none => .ok none
  | some pindex => do
    let start ← findForkStart c block pindex
    loop .endless (findForkTurn c block) ((block pindex).height + 2) start

end Model

section Entries

variable {P : Type} {t : BlockTree P} {c : Chain P} {tip : Option P} {p : P} {h : Nat}

theorem tip_eq (hrep : Represents t c tip) : c.tip = tip := by
  cases tip with
  | none =>
    have hempty : c.activeChain = [] := hrep
    simp [Chain.tip, hempty]
  | some tip =>
    obtain ⟨hlen, hholds⟩ := hrep
    obtain ⟨q, hq, hanc, hheight⟩ := hholds (t.height tip) (Nat.zero_le _) (Nat.le_refl _)
    obtain rfl : tip = q :=
      Forest.ancestor_unique (F := t.forest) .refl hanc (show t.height tip = _ from hheight.symm)
    rw [Chain.tip, if_pos (by omega), hlen, Nat.add_sub_cancel, hq]
    rfl

/-- No entry is a null pointer. -/
theorem exists_entry (hrep : Represents t c tip) (hlt : h < c.activeChain.length) :
    ∃ q, c.activeChain[h]? = some (some q) ∧ t.height q = h := by
  cases tip with
  | none =>
    have hempty : c.activeChain = [] := hrep
    simp [hempty] at hlt
  | some tip =>
    obtain ⟨hlen, hholds⟩ := hrep
    obtain ⟨q, hq, -, hheight⟩ := hholds h (Nat.zero_le _) (by omega)
    exact ⟨q, hq, hheight⟩

theorem mem_iff (hrep : Represents t c tip) (p : P) :
    some p ∈ c.activeChain ↔ ∃ q, tip = some q ∧ t.forest.Ancestor q p := by
  cases tip with
  | none =>
    have hempty : c.activeChain = [] := hrep
    simp [hempty]
  | some tip =>
    obtain ⟨hlen, hholds⟩ := hrep
    constructor
    · intro hmem
      obtain ⟨h, hh⟩ := List.getElem?_of_mem hmem
      have hlt : h < c.activeChain.length := (List.getElem?_eq_some_iff.mp hh).1
      obtain ⟨q, hq, hanc, -⟩ := hholds h (Nat.zero_le _) (by omega)
      obtain rfl : q = p := by simpa [hq] using hh
      exact ⟨tip, rfl, hanc⟩
    · rintro ⟨_, ⟨⟩, hanc⟩
      have hle : t.height p ≤ t.height tip := Forest.depth_le (F := t.forest) hanc
      obtain ⟨q, hq, hanc', hheight⟩ := hholds (t.height p) (Nat.zero_le _) hle
      obtain rfl : q = p := Forest.ancestor_unique (F := t.forest) hanc' hanc hheight
      exact List.mem_of_getElem? hq

theorem height_toNat (hrep : Represents t c tip) (hfits : c.activeChain.length ≤ 2 ^ 32)
    (htip : tip = some p) : (height c).toNat = t.height p := by
  subst htip
  have hlen : c.activeChain.length = t.height p + 1 := hrep.1
  rw [height, hlen, BitVec.toNat_setWidth, BitVec.ofNat_add]
  have hsub : BitVec.ofNat 64 (t.height p) + BitVec.ofNat 64 1 - 1 =
      BitVec.ofNat 64 (t.height p) := BitVec.add_sub_cancel _ _
  rw [hsub, BitVec.toNat_ofNat]
  omega

end Entries

section Forks

variable {P : Type} {t : BlockTree P} {c : Chain P} {p q : P}

/-- The highest of the ancestors of a block, itself included, that are in the chain. -/
structure IsFork (t : BlockTree P) (c : Chain P) (p q : P) : Prop where
  ancestor : t.forest.Ancestor p q
  mem : some q ∈ c.activeChain
  highest : ∀ r, t.forest.Ancestor p r → some r ∈ c.activeChain → t.height r ≤ t.height q

theorem IsFork.unique {r : P} (h : IsFork t c p q) (h' : IsFork t c p r) : q = r :=
  Forest.ancestor_unique (F := t.forest) h.ancestor h'.ancestor
    (Nat.le_antisymm (h'.highest q h.ancestor h.mem) (h.highest r h'.ancestor h'.mem))

/-- The ancestors of a block that are in the chain are those of a further one. -/
def SameForks (t : BlockTree P) (c : Chain P) (p : P) (start : Option P) : Prop :=
  ∀ r, some r ∈ c.activeChain →
    (t.forest.Ancestor p r ↔ ∃ q, start = some q ∧ t.forest.Ancestor q r)

theorem SameForks.step (h : SameForks t c p (some q)) (hnot : some q ∉ c.activeChain) :
    SameForks t c p (t.block q).pprev := by
  intro r hr
  rw [h r hr]
  constructor
  · rintro ⟨_, ⟨⟩, hanc⟩
    rcases hanc.cases_head with rfl | ⟨u, hu, hanc⟩
    · exact absurd hr hnot
    · exact ⟨u, hu, hanc⟩
  · rintro ⟨u, hu, hanc⟩
    exact ⟨q, rfl, .head hu hanc⟩

/-- What `FindFork` is to return. -/
def Finds (t : BlockTree P) (c : Chain P) (p : P) (found : Option P) : Prop :=
  match found with
  | some q => IsFork t c p q
  | none => ∀ r, t.forest.Ancestor p r → some r ∉ c.activeChain

/-- Where the walk starts, nothing that is in the chain is passed over. -/
theorem findFork_start (hskips : t.Skips) {tip : Option P} (hrep : Represents t c tip)
    (hfits : c.activeChain.length ≤ 2 ^ 32) (p : P) :
    ∃ start, findForkStart c t.block p = .ok start ∧
      SameForks t c p start ∧ ahead t start < t.height p + 2 := by
  by_cases habove : (height c).toNat < (t.block p).height
  · obtain ⟨q, hq, hanc, hheight⟩ := Forest.exists_ancestor (F := t.forest) (v := p)
      (d := (height c).toNat) habove.le
    have hheight' : t.height q = (height c).toNat := hheight
    refine ⟨some q, by rw [findForkStart, if_pos habove, t.getAncestor_eq hskips, hq], ?_, ?_⟩
    · intro r hr
      constructor
      · intro hanc'
        obtain ⟨u, htip, hbelow⟩ := (mem_iff hrep r).mp hr
        have hr' : t.height r ≤ t.height q := by
          rw [hheight', height_toNat hrep hfits htip]
          exact Forest.depth_le (F := t.forest) hbelow
        obtain ⟨w, -, hw, hdepth⟩ := Forest.exists_ancestor (F := t.forest) (v := q)
          (d := t.height r) hr'
        obtain rfl : w = r := Forest.ancestor_unique (F := t.forest) (hanc.trans hw) hanc' hdepth
        exact ⟨q, rfl, hw⟩
      · rintro ⟨_, ⟨⟩, hanc'⟩
        exact hanc.trans hanc'
    · simp only [ahead, hheight']
      exact (Nat.succ_lt_succ habove).trans (Nat.lt_succ_self _)
  · refine ⟨some p, if_neg habove, ?_, Nat.lt_succ_self _⟩
    intro r _
    constructor
    · exact fun hanc => ⟨p, rfl, hanc⟩
    · rintro ⟨_, ⟨⟩, hanc⟩
      exact hanc

variable [DecidableEq P]

theorem isExist_iff_mem {tip : Option P} (hrep : Represents t c tip) (p : P) :
    c.isExist t.block p = true ↔ some p ∈ c.activeChain := by
  rw [isExist_iff hrep, mem_iff hrep]

theorem findFork_loop {tip : Option P} (hrep : Represents t c tip) {start : Option P}
    (hstart : SameForks t c p start) {fuel : Nat} (hfuel : ahead t start < fuel) :
    ∃ found, loop Fault.endless (findForkTurn c t.block) fuel start = .ok found ∧
      Finds t c p found := by
  refine loop_total (I := SameForks t c p) (m := ahead t) ?_ hstart hfuel
  rintro (_ | q) hsame
  · refine Or.inr ⟨none, rfl, fun r hanc hmem => ?_⟩
    obtain ⟨_, ⟨⟩, -⟩ := (hsame r hmem).mp hanc
  · by_cases hmem : some q ∈ c.activeChain
    · right
      refine ⟨some q, ?_, ?_, hmem, ?_⟩
      · rw [findForkTurn, if_pos ((isExist_iff_mem hrep q).mpr hmem)]
      · exact (hsame q hmem).mpr ⟨q, rfl, .refl⟩
      · intro r hanc hr
        obtain ⟨_, ⟨⟩, hbelow⟩ := (hsame r hr).mp hanc
        exact Forest.depth_le (F := t.forest) hbelow
    · left
      refine ⟨(t.block q).pprev, ?_, hsame.step hmem, ?_⟩
      · rw [findForkTurn, if_neg fun h => hmem ((isExist_iff_mem hrep q).mp h)]
      · rw [ahead_pprev]
        exact Nat.lt_succ_self _

/-- `FindFork` returns the highest common block, a null pointer where there is none, and a
block of the chain itself. -/
theorem findFork_finds (hskips : t.Skips) (hreach : Reachable t c)
    (hfits : c.activeChain.length ≤ 2 ^ 32) (p : P) :
    ∃ found, findFork c t.block (some p) = .ok found ∧ Finds t c p found ∧
      (some p ∈ c.activeChain → found = some p) := by
  obtain ⟨tip, hrep⟩ := hreach.represents
  obtain ⟨start, hjump, hsame, hfuel⟩ := findFork_start hskips hrep hfits p
  obtain ⟨found, hrun, hfound⟩ := findFork_loop hrep hsame hfuel
  refine ⟨found, ?_, hfound, fun hmem => ?_⟩
  · simp only [findFork, hjump]
    exact hrun
  · cases found with
    | none => exact absurd hmem (hfound p .refl)
    | some q =>
      have hself : IsFork t c p p :=
        ⟨.refl, hmem, fun r hanc _ => Forest.depth_le (F := t.forest) hanc⟩
      exact congrArg some (IsFork.unique hfound hself)

/-- The chain is that of the longer branch, the block the tip of the other. -/
theorem findFork_finds_fork :
    ∃ found, findFork longer fork.block (some 3) = .ok found ∧
      Finds fork longer 3 found ∧
      (some 3 ∈ longer.activeChain → found = some 3) :=
  findFork_finds fork_skips longer_reachable (by decide) 3

/-- One block on another, with a skip at the height where a `uint32_t` starts again. -/
def longLine : BlockTree Nat where
  block n :=
    { blockHash := plainHash 1
      pprev := if n = 0 then none else some (n - 1)
      pskip := if n = 2 ^ 32 then some 0 else none
      height := n }
  height_child p q h := by
    dsimp only at h
    split_ifs at h with hzero
    obtain rfl : p - 1 = q := Option.some.inj h
    dsimp only
    omega
  height_root p h := by
    dsimp only at h
    split_ifs at h with hzero
    exact hzero

theorem longLine_root (n : Nat) : longLine.forest.Ancestor n 0 := by
  induction n with
  | zero => exact .refl
  | succ n ih =>
    have hparent : longLine.forest.parent (n + 1) = some n := by
      change (if n + 1 = 0 then none else some (n + 1 - 1)) = some n
      rw [if_neg (Nat.succ_ne_zero n), Nat.add_sub_cancel]
    exact .head hparent ih

theorem longLine_skips : longLine.Skips := by
  intro p q hskip
  change (if p = 2 ^ 32 then some 0 else none) = some q at hskip
  split_ifs at hskip with htop
  obtain rfl : 0 = q := Option.some.inj hskip
  subst htop
  exact ⟨longLine_root _, by decide⟩

/-- In a chain of more than 2^32 blocks the tip is above the height that is computed. -/
theorem long_chain_fork_missed :
    longLine.Skips ∧ ∃ c, Reachable longLine c ∧ some (2 ^ 32) ∈ c.activeChain ∧
      findFork c longLine.block (some (2 ^ 32)) = .ok (some 0) ∧
      ¬ ∃ found, findFork c longLine.block (some (2 ^ 32)) = .ok found ∧
        Finds longLine c (2 ^ 32) found ∧
        (some (2 ^ 32) ∈ c.activeChain → found = some (2 ^ 32)) := by
  obtain ⟨c, hset, hrep⟩ := setTip_chain (t := longLine) .refl (some (2 ^ 32))
  have hlen : c.activeChain.length = 2 ^ 32 + 1 := hrep.1
  have htip : some (2 ^ 32) ∈ c.activeChain := (mem_iff hrep _).mpr ⟨_, rfl, .refl⟩
  have hroot : some 0 ∈ c.activeChain := (mem_iff hrep _).mpr ⟨_, rfl, longLine_root _⟩
  have hheight : (height c).toNat = 0 := by
    rw [height, hlen]
    rfl
  have hstart : findForkStart c longLine.block (2 ^ 32) = .ok (some 0) := by
    have hancestor : longLine.forest.ancestor (2 ^ 32) 0 = some 0 :=
      Forest.ancestor_of (longLine_root _)
    rw [findForkStart, hheight, if_pos (by decide), longLine.getAncestor_eq longLine_skips,
      hancestor]
  have hturn : findForkTurn c longLine.block (some 0) = .ok (.leave (some 0)) := by
    rw [findForkTurn, if_pos ((isExist_iff_mem hrep 0).mpr hroot)]
  have hrun : findFork c longLine.block (some (2 ^ 32)) = .ok (some 0) := by
    simp only [findFork, hstart, bind, Except.bind, loop, hturn]
  refine ⟨longLine_skips, c, Runs.Run.single (a := some (2 ^ 32)) trivial hset, htip, hrun, ?_⟩
  rintro ⟨found, hrun', -, hself⟩
  rw [hrun, hself htip] at hrun'
  exact absurd hrun' (by decide)

end Forks

section Successors

variable {P : Type} {t : BlockTree P} {c : Chain P} {p : P}

/-- The block is the current tip or an ancestor of it. -/
def Below (t : BlockTree P) (c : Chain P) (p : P) : Prop :=
  ∃ tip, c.tip = some tip ∧ t.forest.Ancestor tip p

theorem next_eq_none_iff {tip : Option P} (hrep : Represents t c tip) (p : P) :
    next c t.block p = none ↔ c.activeChain.length ≤ t.height p + 1 := by
  rw [next, Chain.getBlockIndex]
  split_ifs with hlen
  · exact iff_of_true rfl hlen
  · obtain ⟨q, hq, -⟩ := exists_entry hrep (Nat.lt_of_not_le hlen)
    rw [hq]
    exact iff_of_false (by simp) hlen

theorem next_of_lt {tip : Option P} (hrep : Represents t c tip)
    (hlt : t.height p + 1 < c.activeChain.length) :
    ∃ q, next c t.block p = some q ∧ some q ∈ c.activeChain ∧ t.height q = t.height p + 1 := by
  obtain ⟨q, hq, hheight⟩ := exists_entry hrep hlt
  refine ⟨q, ?_, List.mem_of_getElem? hq, hheight⟩
  rw [next, Chain.getBlockIndex, if_neg (Nat.not_le_of_lt hlt), hq]
  rfl

variable [DecidableEq P]

/-- Membership and successor of a block are those of the chain. -/
structure Succeeds (t : BlockTree P) (c : Chain P) (p : P) : Prop where
  exist : c.isExist t.block p = true ↔ Below t c p
  inside : some p ∈ c.activeChain → c.tip ≠ some p →
    ∃ q, next c t.block p = some q ∧ some q ∈ c.activeChain ∧ t.height q = t.height p + 1
  outside : some p ∉ c.activeChain ∨ c.tip = some p → next c t.block p = none

/-- `Next` is right for the blocks of the chain and those that are as high as its tip. -/
theorem succeeds_iff (hreach : Reachable t c) (p : P) :
    Succeeds t c p ↔ Below t c p ∨ c.activeChain.length ≤ t.height p + 1 := by
  obtain ⟨tip, hrep⟩ := hreach.represents
  have htip := tip_eq hrep
  have hmem : some p ∈ c.activeChain ↔ Below t c p := by
    rw [mem_iff hrep, Below, htip]
  have hexist : c.isExist t.block p = true ↔ Below t c p := (isExist_iff_mem hrep p).trans hmem
  constructor
  · intro h
    by_cases hbelow : Below t c p
    · exact Or.inl hbelow
    · exact Or.inr ((next_eq_none_iff hrep p).mp (h.outside (Or.inl (mt hmem.mp hbelow))))
  · intro h
    refine ⟨hexist, ?_, ?_⟩
    · intro hin hnot
      obtain ⟨top, htop, hanc⟩ := hmem.mp hin
      rw [htip] at htop
      subst htop
      have hlen : c.activeChain.length = t.height top + 1 := hrep.1
      have hne : t.height top ≠ t.height p := by
        intro hsame
        rw [Forest.ancestor_unique (F := t.forest) .refl hanc hsame] at htip
        exact hnot htip
      have hle : t.height p ≤ t.height top := Forest.depth_le (F := t.forest) hanc
      exact next_of_lt hrep (by omega)
    · intro hout
      apply (next_eq_none_iff hrep p).mpr
      rcases hout with hnot | htop
      · exact h.resolve_left (mt hmem.mpr hnot)
      · rw [htip] at htop
        subst htop
        exact hrep.1.le

theorem succeeds_iff_fork :
    Succeeds fork longer 3 ↔
      Below fork longer 3 ∨
        longer.activeChain.length ≤ fork.height 3 + 1 :=
  succeeds_iff longer_reachable 3

/-- The block beside the chain is given the successor of the one that is in it. -/
theorem next_beside_chain :
    Reachable fork longer ∧ some 3 ∉ longer.activeChain ∧
      next longer fork.block 3 = some 2 ∧
      ¬ Succeeds fork longer 3 := by
  refine ⟨longer_reachable, by decide, by decide, fun h => ?_⟩
  have hnone := h.outside (Or.inl (by decide))
  exact absurd hnone (by decide)

end Successors

section Comparison

variable {P : Type} {t : BlockTree P} {a b : Chain P}

theorem last_eq_tip (c : Chain P) (h : 0 < c.activeChain.length) :
    c.activeChain[lastIndex c]?.join = c.tip := by
  rw [lastIndex, if_neg (by omega), Chain.tip, if_pos h]

/-- A chain is made out by its tip. -/
theorem activeChain_eq {tip : Option P} (ha : Represents t a tip) (hb : Represents t b tip) :
    a.activeChain = b.activeChain := by
  cases tip with
  | none => exact (show a.activeChain = [] from ha).trans (show b.activeChain = [] from hb).symm
  | some tip =>
    obtain ⟨halen, haholds⟩ := ha
    obtain ⟨hblen, hbholds⟩ := hb
    apply List.ext_getElem?
    intro h
    by_cases hle : h ≤ t.height tip
    · obtain ⟨p, hp, hanc, hheight⟩ := haholds h (Nat.zero_le _) hle
      obtain ⟨q, hq, hanc', hheight'⟩ := hbholds h (Nat.zero_le _) hle
      obtain rfl : p = q :=
        Forest.ancestor_unique (F := t.forest) hanc hanc' (hheight.trans hheight'.symm)
      rw [hp, hq]
    · rw [List.getElem?_eq_none (by omega), List.getElem?_eq_none (by omega)]

variable [DecidableEq P]

/-- Two chains compare as their vectors do, and no index is out of range, unless both are
empty. -/
theorem equal_iff (ha : Reachable t a) (hb : Reachable t b) :
    (∃ same, equal a b = .ok same ∧ (same = true ↔ a.activeChain = b.activeChain)) ↔
      ¬ (a.activeChain = [] ∧ b.activeChain = []) := by
  obtain ⟨tip, harep⟩ := ha.represents
  obtain ⟨tip', hbrep⟩ := hb.represents
  constructor
  · rintro ⟨same, hrun, -⟩ ⟨haempty, hbempty⟩
    simp [equal, haempty, hbempty, lastIndex] at hrun
  · intro hnot
    by_cases hlen : a.activeChain.length = b.activeChain.length
    · have hpos : 0 < a.activeChain.length := by
        rw [List.length_pos_iff]
        intro hempty
        refine hnot ⟨hempty, List.length_eq_zero_iff.mp ?_⟩
        rw [← hlen, hempty, List.length_nil]
      obtain ⟨p, hp, -⟩ := exists_entry harep (h := lastIndex a) (by
        rw [lastIndex, if_neg (by omega)]
        omega)
      obtain ⟨q, hq, -⟩ := exists_entry hbrep (h := lastIndex b) (by
        rw [lastIndex, if_neg (by omega)]
        omega)
      have hatip : a.tip = some p := by rw [← last_eq_tip a hpos, hp]; rfl
      have hbtip : b.tip = some q := by rw [← last_eq_tip b (hlen ▸ hpos), hq]; rfl
      refine ⟨some p == some q, by simp only [equal, if_pos hlen, hp, hq], ?_⟩
      rw [beq_iff_eq]
      rw [tip_eq harep] at hatip
      rw [tip_eq hbrep] at hbtip
      constructor
      · intro hsame
        rw [hatip, hsame, ← hbtip] at harep
        exact activeChain_eq harep hbrep
      · intro hsame
        rw [← hatip, ← hbtip, ← tip_eq harep, ← tip_eq hbrep, Chain.tip, Chain.tip, hsame]
    · refine ⟨false, by rw [equal, if_neg hlen], ?_⟩
      refine iff_of_false (by simp) fun hsame => hlen (by rw [hsame])

/-- A chain and its other branch. -/
theorem equal_iff_fork :
    (∃ same, equal longer shorter = .ok same ∧
        (same = true ↔ longer.activeChain = shorter.activeChain)) ↔
      ¬ (longer.activeChain = [] ∧ shorter.activeChain = []) :=
  equal_iff longer_reachable shorter_reachable

/-- Two chains that were never set. -/
theorem empty_chains_read_outside :
    Reachable fork ({} : Chain (Fin 4)) ∧
      equal ({} : Chain (Fin 4)) {} = .error .outOfRange ∧
      ¬ ∃ same, equal ({} : Chain (Fin 4)) {} = .ok same ∧
        (same = true ↔ ({} : Chain (Fin 4)).activeChain = ({} : Chain (Fin 4)).activeChain) := by
  refine ⟨.refl, rfl, ?_⟩
  rintro ⟨same, hrun, -⟩
  cases hrun

end Comparison

end ChainQueries
