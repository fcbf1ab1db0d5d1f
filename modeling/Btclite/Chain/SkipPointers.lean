import Btclite.Chain.ChainState

/-!
# Skip pointers

What `GetAncestor` finds by them and how `BuildSkip` sets them. There are two
`GetAncestor`, one of a const entry, which walks, and one of any other entry,
which was to call the first and calls itself. The one that `BuildSkip` calls is
the second, for `pprev_` is no pointer to const.
-/

namespace SkipPointers

open Ancestry BlockIndex ActiveChain

section Lookup

variable {P : Type} {t : BlockTree P} {height : Nat}

/-- The const `GetAncestor` returns without a failed assertion, a null pointer for a height
above its entry and otherwise what so many predecessors lead to. -/
theorem getAncestor_walk (hskips : t.Skips) (p : P) (height : Nat) :
    ∃ found, getAncestor t.block p height = .ok found ∧
      (found = none ↔ t.height p < height) ∧
      (height ≤ t.height p →
        found = climb (fun q => (t.block q).pprev) (t.height p - height) p) := by
  refine ⟨t.forest.ancestor p height, t.getAncestor_eq hskips p height, ?_, ?_⟩
  · constructor
    · intro hnone
      by_contra hle
      obtain ⟨q, hq, -⟩ := Forest.exists_ancestor (F := t.forest) (v := p) (Nat.le_of_not_lt hle)
      rw [hnone] at hq
      cases hq
    · exact fun habove => Forest.ancestor_none (F := t.forest) habove
  · intro hle
    rw [← BlockTree.ancestorAt_eq, ancestorAt, if_pos hle]

/-- From the tip of the longer branch. -/
theorem getAncestor_walk_fork :
    fork.Skips ∧ ∃ found, getAncestor fork.block 2 0 = .ok found ∧
      (found = none ↔ fork.height 2 < 0) ∧
      (0 ≤ fork.height 2 →
        found = climb (fun q => (fork.block q).pprev) (fork.height 2 - 0) 2) :=
  ⟨fork_skips, getAncestor_walk fork_skips 2 0⟩

end Lookup

section Overloads

/-- Whether a member is called through a pointer to const. -/
inductive Access where
  | plain
  | const

variable {P : Type} (block : P → Entry P)

/-- `GetAncestor`, whichever of the two the access selects, on so many calls. -/
def callGetAncestor : Nat → Access → P → Nat → Except Fault (Option P)
  | _, .const, pindex, height => getAncestor block pindex height
  | 0, .plain, _, _ => .error .endless
  -- `this` is no pointer to const in the body, so the call there is of the same overload
  | calls + 1, .plain, pindex, height => callGetAncestor calls .plain pindex height

/-- What a call of `GetAncestor` through this access comes to, on so many calls. -/
def lookupBy (access : Access) (calls : Nat) : ChainState.Lookup P :=
  fun block => callGetAncestor block calls access

variable [DecidableEq P]

/-- `BuildSkip`, with the access that its call of `GetAncestor` is made with. -/
def buildSkipBy (access : Access) (calls : Nat) (pindex : P) : Except Fault (P → Entry P) :=
  ChainState.buildSkip (lookupBy access calls) block pindex

/-- `BuildSkip`. -/
def buildSkip (calls : Nat) (pindex : P) : Except Fault (P → Entry P) :=
  buildSkipBy block .plain calls pindex

end Overloads

section Building

variable {P : Type} {t : BlockTree P} {p q : P}

/-- The skip of an entry leads to its ancestor at the skip height, which is lower, and all the
rest is as it was. -/
structure Builds (t : BlockTree P) (p : P) (block' : P → Entry P) : Prop where
  skip : ∃ q, (block' p).pskip = some q ∧
    t.forest.ancestor p (toSize (getSkipHeight (t.height p))) = some q ∧ t.height q < t.height p
  entry : block' p = { t.block p with pskip := (block' p).pskip }
  others : ∀ q, q ≠ p → block' q = t.block q

theorem callGetAncestor_plain (block : P → Entry P) (calls : Nat) (p : P) (height : Nat) :
    callGetAncestor block calls .plain p height = .error .endless := by
  induction calls with
  | zero => rfl
  | succ calls ih => exact ih

variable [DecidableEq P]

theorem buildSkip_endless {block : P → Entry P} (h : (block p).pprev = some q) (calls : Nat) :
    buildSkip block calls p = .error .endless := by
  simp only [buildSkip, buildSkipBy, lookupBy, ChainState.buildSkip, h, callGetAncestor_plain]
  rfl

/-- Through a pointer to const it would have done what it is for. -/
theorem buildSkipBy_const_builds (hskips : t.Skips) (h : (t.block p).pprev = some q)
    (hbound : t.height p < 2 ^ 31) (calls : Nat) :
    ∃ block', buildSkipBy t.block .const calls p = .ok block' ∧ Builds t p block' := by
  have hheight : t.height p = t.height q + 1 := t.height_child p q h
  have hlower : toSize (getSkipHeight (t.height p)) < t.height p :=
    getSkipHeight_lt (by omega) hbound
  obtain ⟨r, hr, -, hdepth⟩ := Forest.exists_ancestor (F := t.forest) (v := q)
    (d := toSize (getSkipHeight (t.height p))) (show _ ≤ t.height q by omega)
  have hsame : t.forest.ancestor p (toSize (getSkipHeight (t.height p))) = some r :=
    (Forest.ancestor_parent (F := t.forest) h (show _ ≤ t.height q by omega)).trans hr
  refine ⟨Function.update t.block p { t.block p with pskip := some r }, ?_, ?_, ?_, ?_⟩
  · have hcall : callGetAncestor t.block calls .const q
        (toSize (getSkipHeight (t.block p).height)) = .ok (some r) := by
      rw [callGetAncestor, t.getAncestor_eq hskips, ← hr]
    simp only [buildSkipBy, lookupBy, ChainState.buildSkip, h, hcall]
    rfl
  · refine ⟨r, by rw [Function.update_self], hsame, ?_⟩
    exact hdepth.trans_lt hlower
  · rw [Function.update_self]
  · intro u hu
    rw [Function.update_of_ne hu]

/-- As it is, `BuildSkip` never comes to an end for an entry with a parent. -/
theorem buildSkip_builds_never (h : (t.block p).pprev = some q) :
    ¬ ∃ calls block', buildSkip t.block calls p = .ok block' ∧ Builds t p block' := by
  rintro ⟨calls, block', hrun, -⟩
  rw [buildSkip_endless h] at hrun
  cases hrun

theorem buildSkip_builds_never_fork :
    (fork.block 1).pprev = some 0 ∧
      ¬ ∃ calls block', buildSkip fork.block calls 1 = .ok block' ∧ Builds fork 1 block' :=
  ⟨rfl, buildSkip_builds_never rfl⟩

/-- A block on the root: its skip is never built, however many calls are made. -/
theorem skip_never_built :
    fork.Skips ∧ (∀ p, fork.height p < 2 ^ 31) ∧ (fork.block 1).pprev = some 0 ∧
      (∀ calls, buildSkip fork.block calls 1 = .error .endless) ∧
      ¬ ∃ calls block', buildSkip fork.block calls 1 = .ok block' ∧ Builds fork 1 block' := by
  have hendless : ∀ calls, buildSkip fork.block calls 1 = .error .endless :=
    buildSkip_endless rfl
  refine ⟨fork_skips, by decide, rfl, hendless, ?_⟩
  rintro ⟨calls, block', hrun, -⟩
  rw [hendless] at hrun
  cases hrun

end Building

end SkipPointers
