import Btclite.Chain.BlockIndex
import Btclite.Library.Runs
import Mathlib.Data.List.Basic

/-!
# The active chain

`Chain` of `chain_state.h`, the branch of the tree that ends in the current tip,
indexed by height. `SetTip` cuts or grows the vector and then rewrites it from
the new tip down, up to the first entry that is already right. Entries below one
that is right are its ancestors, which is what makes stopping there correct.
-/

namespace ActiveChain

open Ancestry Loops BlockIndex Runs Serialize

structure Chain (P : Type) where
  activeChain : List (Option P) := []
deriving DecidableEq

namespace Chain

variable {P : Type} (c : Chain P)

def tip : Option P :=
  if 0 < c.activeChain.length then c.activeChain[c.activeChain.length - 1]?.join else none

def getBlockIndex (height : Nat) : Option P :=
  if c.activeChain.length ≤ height then none else c.activeChain[height]?.join

variable [DecidableEq P] (block : P → Entry P)

def isExist (pindex : P) : Bool := c.getBlockIndex (block pindex).height == some pindex

/-- `vector::resize`, which fills up with null pointers. -/
def resize (entries : List (Option P)) (size : Nat) : List (Option P) :=
  entries.take size ++ List.replicate (size - entries.length) none

/-- A turn of the loop in `SetTip`, over `pindex` and `active_chain_`. -/
def setTipTurn : Option P × List (Option P) →
    Except Fault (Turn (Option P × List (Option P)) (List (Option P)))
  | (none, entries) => .ok (.leave entries)
  | (some pindex, entries) =>
    match entries[(block pindex).height]? with
    | none => .error .outOfRange
    | some entry =>
      if entry = some pindex then .ok (.leave entries)
      else .ok (.again ((block pindex).pprev, entries.set (block pindex).height (some pindex)))

/-- `SetTip`. Every turn lowers the height, so the fuel lasts. -/
def setTip : Option P → Except Fault (Chain P)
  | none => .ok { activeChain := [] }
  | some pindex =>
    Chain.mk <$> loop .endless (setTipTurn block) ((block pindex).height + 2)
      (some pindex, resize c.activeChain ((block pindex).height + 1))

end Chain

section Shape

variable {P : Type} (t : BlockTree P)

/-- From one height to another, the entries are the ancestors of this block. -/
def Holds (entries : List (Option P)) (p : P) (low high : Nat) : Prop :=
  ∀ h, low ≤ h → h ≤ high →
    ∃ q, entries[h]? = some (some q) ∧ t.forest.Ancestor p q ∧ t.height q = h

/-- The entries are the ancestors of the tip, each at its height, and nothing else. -/
def Represents (c : Chain P) : Option P → Prop
  | none => c.activeChain = []
  | some tip => c.activeChain.length = t.height tip + 1 ∧
      Holds t c.activeChain tip 0 (t.height tip)

/-- Below an entry that is set, from this height down, come its ancestors. -/
def Coherent (entries : List (Option P)) (height : Nat) : Prop :=
  ∀ h ≤ height, ∀ q, entries[h]? = some (some q) → Holds t entries q 0 h

/-- How many entries are still to be looked at. -/
def ahead : Option P → Nat
  | none => 0
  | some p => t.height p + 1

variable {t} {entries : List (Option P)} {p q : P} {low high height size : Nat}

theorem Holds.of_ancestor (h : Holds t entries q low high) (hanc : t.forest.Ancestor p q) :
    Holds t entries p low high := by
  intro i hlow hhigh
  rcases h i hlow hhigh with ⟨u, hu, hanc', hheight⟩
  exact ⟨u, hu, hanc.trans hanc', hheight⟩

theorem Represents.coherent {c : Chain P} {tip : Option P} (h : Represents t c tip)
    (height : Nat) : Coherent t c.activeChain height := by
  cases tip with
  | none =>
    intro i _ q hq
    rw [show c.activeChain = [] from h] at hq
    simp at hq
  | some tip =>
    rcases h with ⟨hlen, hholds⟩
    intro i _ q hq k _ hk
    have hi : i < c.activeChain.length := (List.getElem?_eq_some_iff.mp hq).1
    rcases hholds i (by omega) (by omega) with ⟨q', hq', hanc, hheight⟩
    rcases hholds k (by omega) (by omega) with ⟨u, hu, hanc', hheight'⟩
    obtain rfl : q' = q := by
      rw [hq] at hq'
      exact (Option.some.inj (Option.some.inj hq')).symm
    obtain ⟨w, -, hw, hheight''⟩ := Forest.exists_ancestor (F := t.forest) (v := q') (d := k)
      (show k ≤ t.height q' by omega)
    -- the tip has only one ancestor at this height
    obtain rfl : w = u := Forest.ancestor_unique (hanc.trans hw) hanc' (by
      rw [hheight'']
      exact hheight'.symm)
    exact ⟨w, hu, hw, hheight'⟩

theorem resize_length (entries : List (Option P)) (size : Nat) :
    (Chain.resize entries size).length = size := by
  simp only [Chain.resize, List.length_append, List.length_take, List.length_replicate]
  omega

theorem resize_eq_some_iff {h : Nat} : (Chain.resize entries size)[h]? = some (some q) ↔
    h < size ∧ entries[h]? = some (some q) := by
  rw [Chain.resize, List.getElem?_append]
  by_cases hlt : h < (entries.take size).length
  · have hsize : h < size := by
      rw [List.length_take] at hlt
      omega
    rw [if_pos hlt, List.getElem?_take_of_lt hsize]
    simp [hsize]
  · rw [if_neg hlt, List.getElem?_replicate]
    rw [List.length_take] at hlt
    constructor
    · intro hnull
      split_ifs at hnull
      simp at hnull
    · rintro ⟨hsize, hq⟩
      have := (List.getElem?_eq_some_iff.mp hq).1
      omega

theorem Coherent.resize (h : Coherent t entries height) (size : Nat) :
    Coherent t (Chain.resize entries size) height := by
  intro i hi q hq k hlow hk
  rcases resize_eq_some_iff.mp hq with ⟨hsize, hq⟩
  rcases h i hi q hq k hlow hk with ⟨u, hu, hanc⟩
  exact ⟨u, resize_eq_some_iff.mpr ⟨by omega, hu⟩, hanc⟩

theorem ahead_pprev (p : P) : ahead t (t.block p).pprev = t.height p := by
  cases hprev : (t.block p).pprev with
  | none => exact (t.height_root p hprev).symm
  | some q => exact (t.height_child p q hprev).symm

end Shape

section Rewriting

variable {P : Type} [DecidableEq P] {t : BlockTree P}

/-- The loop in `SetTip`: what it has passed holds the tip's ancestors, what is ahead of it
is coherent. -/
structure Rewriting (t : BlockTree P) (tip : P) (s : Option P × List (Option P)) : Prop where
  length : s.2.length = t.height tip + 1
  above : Holds t s.2 tip (ahead t s.1) (t.height tip)
  below : ∀ p, s.1 = some p → t.forest.Ancestor tip p ∧ Coherent t s.2 (t.height p)

theorem setTipTurn_rewriting {tip : P} {s : Option P × List (Option P)}
    (h : Rewriting t tip s) :
    (∃ s', Chain.setTipTurn t.block s = .ok (.again s') ∧ Rewriting t tip s' ∧
      ahead t s'.1 < ahead t s.1) ∨
    ∃ entries, Chain.setTipTurn t.block s = .ok (.leave entries) ∧
      entries.length = t.height tip + 1 ∧ Holds t entries tip 0 (t.height tip) := by
  rcases s with ⟨_ | p, entries⟩
  · exact Or.inr ⟨entries, rfl, h.length, h.above⟩
  obtain ⟨hanc, hcoherent⟩ := h.below p rfl
  have hle : t.height p ≤ t.height tip := Forest.depth_le hanc
  have hlen : entries.length = t.height tip + 1 := h.length
  obtain ⟨entry, hentry⟩ : ∃ entry, entries[t.height p]? = some entry :=
    ⟨_, List.getElem?_eq_getElem (by omega)⟩
  by_cases hsame : entry = some p
  · right
    refine ⟨entries, ?_, hlen, ?_⟩
    · simp only [Chain.setTipTurn, hentry, hsame, if_true]
    · intro i _ hi
      by_cases hbelow : i ≤ t.height p
      · rw [hsame] at hentry
        exact (hcoherent _ (Nat.le_refl _) p hentry).of_ancestor hanc i (by omega) hbelow
      · exact h.above i (by simp only [ahead]; omega) hi
  · left
    have hset : ∀ i, i ≠ t.height p →
        (entries.set (t.height p) (some p))[i]? = entries[i]? := fun i hi =>
      List.getElem?_set_ne hi.symm
    have hself : (entries.set (t.height p) (some p))[t.height p]? = some (some p) := by
      rw [List.getElem?_set_self (by omega)]
    refine ⟨((t.block p).pprev, entries.set (t.height p) (some p)), ?_, ⟨?_, ?_, ?_⟩, ?_⟩
    · simp only [Chain.setTipTurn, hentry, if_neg hsame]
    · rw [List.length_set, hlen]
    · intro i hlow hi
      rw [ahead_pprev] at hlow
      by_cases hp : i = t.height p
      · exact ⟨p, by rw [hp, hself], hanc, hp.symm⟩
      · rcases h.above i (by simp only [ahead]; omega) hi with ⟨q, hq, hrest⟩
        exact ⟨q, by rw [hset i hp, hq], hrest⟩
    · intro q hprev
      have hheight : t.height p = t.height q + 1 := t.height_child p q hprev
      refine ⟨hanc.tail hprev, ?_⟩
      intro i hi u hu k hlow hk
      rw [hset i (by omega)] at hu
      rcases hcoherent i (by omega) u hu k hlow hk with ⟨v, hv, hrest⟩
      exact ⟨v, by rw [hset k (by omega), hv], hrest⟩
    · rw [ahead_pprev]
      exact Nat.lt_succ_self _

theorem setTip_represents {c : Chain P} {old : Option P} (h : Represents t c old)
    (pindex : Option P) :
    ∃ c', c.setTip t.block pindex = .ok c' ∧ Represents t c' pindex := by
  cases pindex with
  | none => exact ⟨{}, rfl, rfl⟩
  | some tip =>
    have hloop : ∃ entries, loop Fault.endless (Chain.setTipTurn t.block) (t.height tip + 2)
        (some tip, Chain.resize c.activeChain (t.height tip + 1)) = .ok entries ∧
        entries.length = t.height tip + 1 ∧ Holds t entries tip 0 (t.height tip) := by
      refine loop_total (I := Rewriting t tip) (m := fun s => ahead t s.1)
        (fun s hs => setTipTurn_rewriting hs) ⟨resize_length _ _, ?_, ?_⟩ (Nat.lt_succ_self _)
      · intro i hlow hi
        simp only [ahead] at hlow
        omega
      · rintro p ⟨⟩
        exact ⟨.refl, (h.coherent _).resize _⟩
    rcases hloop with ⟨entries, hrun, hlen, hholds⟩
    refine ⟨⟨entries⟩, ?_, hlen, hholds⟩
    rw [Chain.setTip, hrun]
    rfl

/-- What any calls of `SetTip` make of an empty chain. -/
abbrev Reachable (t : BlockTree P) : Chain P → Prop :=
  Run (fun c tip c' => Chain.setTip c t.block tip = .ok c') (fun _ _ => True) {}

theorem Reachable.represents {c : Chain P} (h : Reachable t c) :
    ∃ tip, Represents t c tip := by
  refine Run.preserves (P := fun c => ∃ tip, Represents t c tip) ?_ h ⟨none, rfl⟩
  rintro c pindex c' ⟨old, hold⟩ - hnext
  rcases setTip_represents hold pindex with ⟨c'', hrun, hrepresents⟩
  obtain rfl : c'' = c' := by simpa [hrun] using hnext
  exact ⟨pindex, hrepresents⟩

/-- After any calls, another one returns, and leaves the chain of its tip. -/
theorem setTip_chain {c : Chain P} (h : Reachable t c) (pindex : Option P) :
    ∃ c', c.setTip t.block pindex = .ok c' ∧ Represents t c' pindex := by
  rcases h.represents with ⟨old, hold⟩
  exact setTip_represents hold pindex

/-- A root, a branch of two blocks on it and one of a single block. -/
def fork : BlockTree (Fin 4) where
  block
    | 0 => { blockHash := Bytes.zero 32 }
    | 1 => { blockHash := plainHash 1, pprev := some 0, height := 1 }
    | 2 => { blockHash := plainHash 2, pprev := some 1, pskip := some 0, height := 2 }
    | 3 => { blockHash := plainHash 3, pprev := some 0, pskip := some 0, height := 1 }
  height_child := by decide
  height_root := by decide

theorem fork_skips : fork.Skips := by
  have hall : ∀ p q, (fork.block p).pskip = some q →
      fork.forest.ancestor p (toSize (getSkipHeight (fork.height p))) = some q := by
    decide
  exact fun p q hskip => Forest.ancestor_eq_some_iff.mp (hall p q hskip)

def longer : Chain (Fin 4) := ⟨[some 0, some 1, some 2]⟩

def shorter : Chain (Fin 4) := ⟨[some 0, some 3]⟩

theorem longer_reachable : Reachable fork longer := Run.single (a := some 2) trivial rfl

theorem shorter_reachable : Reachable fork shorter := Run.single (a := some 3) trivial rfl

theorem setTip_chain_fork :
    Reachable fork ⟨[some 0, some 1, some 2]⟩ ∧
      ∃ c', Chain.setTip ⟨[some 0, some 1, some 2]⟩ fork.block (some 3) = .ok c' ∧
        Represents fork c' (some 3) :=
  ⟨longer_reachable, setTip_chain longer_reachable (some 3)⟩

end Rewriting

section Membership

variable {P : Type} {t : BlockTree P} {c : Chain P}

theorem getBlockIndex_eq_some {tip p : P} {h : Nat} (hrep : Represents t c (some tip))
    (hle : h ≤ t.height tip) :
    c.getBlockIndex h = some p ↔ t.forest.Ancestor tip p ∧ t.height p = h := by
  rcases hrep with ⟨hlen, hholds⟩
  rcases hholds h (by omega) hle with ⟨q, hq, hanc, hheight⟩
  rw [Chain.getBlockIndex, if_neg (by omega), hq]
  constructor
  · intro hsame
    obtain rfl : q = p := by simpa using hsame
    exact ⟨hanc, hheight⟩
  · rintro ⟨hanc', hheight'⟩
    obtain rfl : q = p := Forest.ancestor_unique hanc hanc' (hheight.trans hheight'.symm)
    rfl

variable [DecidableEq P]

/-- A block is in the active chain if and only if it is the tip or an ancestor of it. -/
theorem isExist_iff {tip : Option P} (hrep : Represents t c tip) (p : P) :
    c.isExist t.block p = true ↔ ∃ q, tip = some q ∧ t.forest.Ancestor q p := by
  rw [Chain.isExist, beq_iff_eq]
  cases tip with
  | none =>
    simp [Chain.getBlockIndex, show c.activeChain = [] from hrep]
  | some tip =>
    by_cases hle : t.height p ≤ t.height tip
    · rw [getBlockIndex_eq_some hrep hle]
      simp
    · have hlen : c.activeChain.length ≤ t.height p := by
        have := hrep.1
        omega
      rw [Chain.getBlockIndex, if_pos hlen]
      apply iff_of_false (by simp)
      rintro ⟨q, hq, hanc⟩
      cases hq
      exact hle (Forest.depth_le hanc)

end Membership

end ActiveChain
