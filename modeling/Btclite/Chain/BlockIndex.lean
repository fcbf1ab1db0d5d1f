import Btclite.Consensus.BlockProof
import Btclite.Library.Ancestry
import Btclite.Library.Loops

/-!
# Block index

The entries of the block tree: hash, height, predecessor and a skip pointer that
leads further back. Pointers are of any type and lead to entries through a
function. Where the heights are those the links call for and the skips lead to
ancestors, `GetAncestor` is the plain walk, whatever skips it takes.
-/

namespace BlockIndex

open Serialize Transactions BlockProof Ancestry Loops

/-- `size_t` is a natural number here, and `int` a word. -/
abbrev CInt := BitVec 32

/-- A `size_t` where an `int` is asked for. -/
def toInt (size : Nat) : CInt := BitVec.ofNat 32 size

/-- An `int` where a `size_t` is asked for. -/
def toSize (n : CInt) : Nat := (n.signExtend 64).toNat

/-- A hash of one byte all over. -/
def plainHash (b : Endian.Byte) : Hash256 := ⟨List.replicate 32 b, List.length_replicate⟩

structure Entry (P : Type) where
  header : BlockHeader := .cleared
  blockHash : Hash256
  pprev : Option P := none
  pskip : Option P := none
  height : Nat := 0
  chainWork : U256 := 0
  txNum : U32 := 0
  chainTxNum : U32 := 0
  status : U32 := 0
  sequenceId : CInt := 0

/-- Ways not to return: a failed assertion, an index out of range, a loop that goes on. -/
inductive Fault where
  | assertion
  | outOfRange
  | endless
deriving DecidableEq

section Skips

def invertLowestOne (n : CInt) : CInt := n &&& (n - 1)

def getSkipHeight (height : Nat) : CInt :=
  if height < 2 then 0
  else if height % 2 = 1 then invertLowestOne (invertLowestOne (toInt (height - 1))) + 1
  else invertLowestOne (toInt height)

/-- Only follow `pskip` if `pprev->pskip` is not better than `pskip->pprev`. -/
def followsSkip (height heightWalk : Nat) : Bool :=
  let heightSkip := getSkipHeight heightWalk
  let heightSkipPrev := getSkipHeight (heightWalk - 1)
  toSize heightSkip == height ||
    (decide (height < toSize heightSkip) &&
      !(heightSkipPrev.slt (heightSkip - 2) && decide (height ≤ toSize heightSkipPrev)))

theorem toNat_toInt {size : Nat} (h : size < 2 ^ 31) : (toInt size).toNat = size := by
  rw [toInt, BitVec.toNat_ofNat]
  omega

theorem toSize_of_lt {n : CInt} (h : n.toNat < 2 ^ 31) : toSize n = n.toNat := by
  have hmsb : n.msb = false := BitVec.msb_eq_false_iff_two_mul_lt.mpr (by omega)
  rw [toSize, BitVec.signExtend_eq_setWidth_of_msb_false hmsb, BitVec.toNat_setWidth]
  omega

theorem invertLowestOne_le (n : CInt) : (invertLowestOne n).toNat ≤ n.toNat := by
  rw [invertLowestOne, BitVec.toNat_and]
  exact Nat.and_le_left

theorem invertLowestOne_lt {n : CInt} (h : 0 < n.toNat) : (invertLowestOne n).toNat < n.toNat := by
  have hle : (1 : CInt) ≤ n := by
    rw [BitVec.le_def]
    exact h
  have hpred : (n - 1).toNat = n.toNat - 1 := BitVec.toNat_sub_of_le hle
  rw [invertLowestOne, BitVec.toNat_and, hpred]
  have := Nat.and_le_right (n := n.toNat) (m := n.toNat - 1)
  omega

/-- A skip leads strictly back. -/
theorem getSkipHeight_lt {height : Nat} (h : 0 < height) (hbound : height < 2 ^ 31) :
    toSize (getSkipHeight height) < height := by
  have hlt : (getSkipHeight height).toNat < height := by
    rw [getSkipHeight]
    split_ifs with hsmall hodd
    · exact h
    · have hint : (toInt (height - 1)).toNat = height - 1 := toNat_toInt (by omega)
      have hone := invertLowestOne_lt (n := toInt (height - 1)) (by omega)
      have htwo := invertLowestOne_le (invertLowestOne (toInt (height - 1)))
      have hunit : (1 : CInt).toNat = 1 := rfl
      rw [BitVec.toNat_add_of_lt (by omega)]
      omega
    · have hint : (toInt height).toNat = height := toNat_toInt hbound
      have hone := invertLowestOne_lt (n := toInt height) (by omega)
      omega
  rw [toSize_of_lt (by omega)]
  exact hlt

theorem toInt_toSize (n : CInt) : toInt (toSize n) = n := by
  rw [toInt, toSize, BitVec.ofNat_toNat]
  apply BitVec.eq_of_getLsbD_eq
  intro i hi
  rw [BitVec.getLsbD_setWidth, BitVec.getLsbD_signExtend]
  simp [hi, show i < 64 by omega]

theorem eq_zero_of_invertLowestOne {n : CInt} (h : invertLowestOne n = n) : n = 0 := by
  by_contra hne
  have hpos : 0 < n.toNat := Nat.pos_of_ne_zero fun hzero => hne (BitVec.eq_of_toNat_eq hzero)
  have hless := invertLowestOne_lt hpos
  rw [h] at hless
  exact Nat.lt_irrefl _ hless

/-- However large the height, no skip leads to the height it starts from. -/
theorem getSkipHeight_ne {height : Nat} (h : 0 < height) :
    toSize (getSkipHeight height) ≠ height := by
  intro hsame
  have hint : getSkipHeight height = toInt height := by
    rw [← hsame, toInt_toSize, hsame]
  by_cases hsmall : height < 2
  · rw [getSkipHeight, if_pos hsmall] at hsame
    exact absurd hsame h.ne
  have hzero : toSize (0 : CInt) ≠ height := h.ne
  have hone : toSize (1 : CInt) ≠ height := by
    intro hone
    exact hsmall (hone ▸ by decide)
  rw [getSkipHeight, if_neg hsmall] at hint
  split_ifs at hint with hodd
  · have hnext : toInt height = toInt (height - 1) + 1 := by
      rw [toInt, toInt, show height = height - 1 + 1 by omega, BitVec.ofNat_add]
      rfl
    have hpred : toInt (height - 1) = 0 := by
      have hsum : invertLowestOne (invertLowestOne (toInt (height - 1))) = toInt (height - 1) :=
        (BitVec.add_left_inj _).mp (hint.trans hnext)
      apply eq_zero_of_invertLowestOne
      apply BitVec.eq_of_toNat_eq
      apply Nat.le_antisymm (invertLowestOne_le _)
      have htwo := invertLowestOne_le (invertLowestOne (toInt (height - 1)))
      rwa [hsum] at htwo
    apply hone
    rw [← hsame, getSkipHeight, if_neg hsmall, if_pos hodd, hpred]
    rfl
  · apply hzero
    rw [← hsame, getSkipHeight, if_neg hsmall, if_neg hodd, eq_zero_of_invertLowestOne hint]
    rfl

end Skips

section Walks

variable {P : Type} (block : P → Entry P)

/-- A turn of the loop in `GetAncestor`, over `pindex_walk` and `height_walk`. -/
def getAncestorTurn (height : Nat) : P × Nat → Except Fault (Turn (P × Nat) P)
  | (pindexWalk, heightWalk) =>
    if height < heightWalk then
      match (block pindexWalk).pskip, followsSkip height heightWalk with
      | some pskip, true => .ok (.again (pskip, toSize (getSkipHeight heightWalk)))
      | _, _ =>
        match (block pindexWalk).pprev with
        | some pprev => .ok (.again (pprev, heightWalk - 1))
        | none => .error .assertion
    else .ok (.leave pindexWalk)

/-- `GetAncestor`. Every turn lowers the height, so the fuel lasts. -/
def getAncestor (pindex : P) (height : Nat) : Except Fault (Option P) :=
  if (block pindex).height < height then .ok none
  else some <$> loop .endless (getAncestorTurn block height) ((block pindex).height + 1)
    (pindex, (block pindex).height)

/-- The ancestor at a height, by predecessors alone. -/
def ancestorAt (p : P) (height : Nat) : Option P :=
  if height ≤ (block p).height then
    climb (fun q => (block q).pprev) ((block p).height - height) p
  else none

/-- Entries that link among themselves, with the heights and skips their links call for.
An entry may be its own predecessor, one above itself. -/
structure Graded (I : P → Prop) : Prop where
  root : ∀ p, I p → (block p).pprev = none → (block p).height = 0
  child : ∀ p q, I p → (block p).pprev = some q →
    I q ∧ ((block p).height = (block q).height + 1 ∨ q = p ∧ (block p).height = 1)
  skip : ∀ p q, I p → 0 < (block p).height → (block p).pskip = some q →
    toSize (getSkipHeight (block p).height) < (block p).height ∧
      ancestorAt block p (toSize (getSkipHeight (block p).height)) = some q

variable {block} {I : P → Prop} {p q : P} {height heightWalk n : Nat}

theorem le_of_followsSkip (h : followsSkip height heightWalk = true) :
    height ≤ toSize (getSkipHeight heightWalk) := by
  simp only [followsSkip, Bool.or_eq_true, beq_iff_eq, Bool.and_eq_true, decide_eq_true_eq] at h
  rcases h with h | ⟨h, -⟩ <;> omega

namespace Graded

theorem exists_pprev (hgraded : Graded block I) (hp : I p) (h : 0 < (block p).height) :
    ∃ q, (block p).pprev = some q := by
  cases hprev : (block p).pprev with
  | none =>
    have := hgraded.root p hp hprev
    omega
  | some q => exact ⟨q, rfl⟩

/-- Climbing from an entry stays inside, at the height it should unless it has come to 0. -/
theorem climb_some (hgraded : Graded block I) (hp : I p) (hn : n ≤ (block p).height) :
    ∃ q, climb (fun r => (block r).pprev) n p = some q ∧ I q ∧
      (block p).height - n ≤ (block q).height ∧
      ((block q).height = (block p).height - n ∨ (block p).height = n) := by
  induction n generalizing p with
  | zero => exact ⟨p, rfl, hp, by omega, Or.inl (by omega)⟩
  | succ n ih =>
    obtain ⟨r, hprev⟩ := hgraded.exists_pprev hp (by omega)
    have hstep : climb (fun r => (block r).pprev) (n + 1) p =
        climb (fun r => (block r).pprev) n r := by
      rw [climb, hprev, Option.bind_some]
    rcases hgraded.child p r hp hprev with ⟨hr, hheight | ⟨rfl, hself⟩⟩
    · rcases ih hr (by omega) with ⟨q, hq, hIq, hle, hat⟩
      exact ⟨q, hstep.trans hq, hIq, by omega, by omega⟩
    · obtain rfl : n = 0 := by omega
      exact ⟨r, hstep, hr, by omega, Or.inr hself⟩

/-- A turn goes on from an ancestor no lower than the height sought, or has arrived. -/
theorem getAncestorTurn_cases (hgraded : Graded block I) (hp : I p)
    (hle : height ≤ (block p).height) :
    (∃ q heightWalk, getAncestorTurn block height (p, (block p).height) =
        .ok (.again (q, heightWalk)) ∧
      climb (fun r => (block r).pprev) ((block p).height - heightWalk) p = some q ∧
      height ≤ heightWalk ∧ heightWalk < (block p).height) ∨
    (getAncestorTurn block height (p, (block p).height) = .ok (.leave p) ∧
      (block p).height = height) := by
  by_cases hlt : height < (block p).height
  · left
    obtain ⟨q, hprev⟩ := hgraded.exists_pprev hp (by omega)
    have hone : climb (fun r => (block r).pprev) ((block p).height - ((block p).height - 1)) p =
        some q := by
      rw [show (block p).height - ((block p).height - 1) = 1 by omega, climb, hprev]
      rfl
    cases hskip : (block p).pskip with
    | none =>
      refine ⟨q, (block p).height - 1, ?_, hone, by omega, by omega⟩
      rw [getAncestorTurn, if_pos hlt, hskip, hprev]
    | some s =>
      cases hfollow : followsSkip height (block p).height with
      | false =>
        refine ⟨q, (block p).height - 1, ?_, hone, by omega, by omega⟩
        rw [getAncestorTurn, if_pos hlt, hskip, hfollow, hprev]
      | true =>
        rcases hgraded.skip p s hp (by omega) hskip with ⟨hback, hat⟩
        refine ⟨s, toSize (getSkipHeight (block p).height), ?_, ?_,
          le_of_followsSkip hfollow, hback⟩
        · rw [getAncestorTurn, if_pos hlt, hskip, hfollow]
        · rwa [ancestorAt, if_pos hback.le] at hat
  · right
    exact ⟨by rw [getAncestorTurn, if_neg hlt], by omega⟩

/-- `GetAncestor` is the plain walk. -/
theorem getAncestor_eq (hgraded : Graded block I) (hp : I p) (height : Nat) :
    getAncestor block p height = .ok (ancestorAt block p height) := by
  by_cases habove : (block p).height < height
  · rw [getAncestor, if_pos habove, ancestorAt, if_neg (by omega)]
  rw [getAncestor, if_neg habove, ancestorAt, if_pos (by omega)]
  have hwalk : ∃ q, loop Fault.endless (getAncestorTurn block height) ((block p).height + 1)
      (p, (block p).height) = .ok q ∧
        climb (fun r => (block r).pprev) ((block p).height - height) p = some q := by
    -- what is left to climb from here leads where the whole climb leads
    refine loop_total (I := fun s => I s.1 ∧ height ≤ s.2 ∧ s.2 ≤ (block s.1).height ∧
      (s.2 = (block s.1).height ∨ s.2 = 0) ∧
      climb (fun r => (block r).pprev) (s.2 - height) s.1 =
        climb (fun r => (block r).pprev) ((block p).height - height) p)
      (m := Prod.snd) ?_ ?_ (Nat.lt_succ_self _)
    · rintro ⟨q, heightWalk⟩ ⟨hq, hle, hbelow, hat, hrest⟩
      dsimp only at hq hle hbelow hat hrest
      rcases hat with rfl | rfl
      · rcases getAncestorTurn_cases hgraded hq hle with
          ⟨r, next, hturn, hclimb, hnext, hless⟩ | ⟨hturn, harrived⟩
        · rcases hgraded.climb_some (n := (block q).height - next) hq (by omega) with
            ⟨r', hr', hIr, hheight, hat⟩
          obtain rfl : r' = r := Option.some.inj (hr'.symm.trans hclimb)
          refine Or.inl ⟨_, hturn, ⟨hIr, hnext, by dsimp only; omega, by dsimp only; omega, ?_⟩,
            hless⟩
          rw [← hrest, show (block q).height - height =
            ((block q).height - next) + (next - height) by omega, climb_add, hclimb,
            Option.bind_some]
        · refine Or.inr ⟨q, hturn, ?_⟩
          rw [← hrest, harrived, Nat.sub_self, climb]
      · refine Or.inr ⟨q, by rw [getAncestorTurn, if_neg (by omega)], ?_⟩
        rw [← hrest, Nat.zero_sub, climb]
    · exact ⟨hp, Nat.le_of_not_lt habove, Nat.le_refl _, Or.inl rfl, rfl⟩
  rcases hwalk with ⟨q, hrun, hq⟩
  rw [hrun, hq]
  rfl

end Graded

end Walks

/-- A tree of blocks: a child is one higher than its parent, and a root has height 0. -/
structure BlockTree (P : Type) where
  block : P → Entry P
  height_child : ∀ p q, (block p).pprev = some q → (block p).height = (block q).height + 1
  height_root : ∀ p, (block p).pprev = none → (block p).height = 0

namespace BlockTree

variable {P : Type} (t : BlockTree P)

def forest : Forest P where
  parent p := (t.block p).pprev
  depth p := (t.block p).height
  depth_parent := t.height_child
  depth_root := t.height_root

abbrev height (p : P) : Nat := (t.block p).height

/-- Every skip pointer that is set leads to the ancestor it should. -/
def Skips : Prop :=
  ∀ p q, (t.block p).pskip = some q →
    t.forest.Ancestor p q ∧ t.height q = toSize (getSkipHeight (t.height p))

variable {t}

theorem ancestorAt_eq (p : P) (height : Nat) :
    ancestorAt t.block p height = t.forest.ancestor p height := by
  rw [ancestorAt, Forest.ancestor]
  exact if_congr Iff.rfl (Forest.up_eq_climb (F := t.forest) _ p).symm rfl

theorem graded (hskips : t.Skips) : Graded t.block fun _ => True where
  root p _ := t.height_root p
  child p q _ hprev := ⟨trivial, Or.inl (t.height_child p q hprev)⟩
  skip p q _ hpos hskip := by
    rcases hskips p q hskip with ⟨hanc, hheight⟩
    have hle : t.height q ≤ t.height p := Forest.depth_le hanc
    refine ⟨Nat.lt_of_le_of_ne (hheight ▸ hle) (getSkipHeight_ne hpos), ?_⟩
    exact (ancestorAt_eq p _).trans (Forest.ancestor_eq_some_iff.mpr ⟨hanc, hheight⟩)

/-- `GetAncestor` is the plain walk. -/
theorem getAncestor_eq (hskips : t.Skips) (p : P) (height : Nat) :
    getAncestor t.block p height = .ok (t.forest.ancestor p height) := by
  rw [(graded hskips).getAncestor_eq trivial, ancestorAt_eq]

end BlockTree

end BlockIndex
