import Btclite.Chain.ActiveChain
import Mathlib.Algebra.BigOperators.Group.Finset.Basic

/-!
# Block locators

`Chain::GetLocator` lists hashes from a block down to the root, the first eleven
moves by single steps and the further ones by steps that double. Whether a move
goes through the vector of the active chain or through `GetAncestor` makes no
difference to the block it comes to.
-/

namespace Locator

open Ancestry Loops BlockIndex ActiveChain Serialize

/-- The next height, computed in `size_t`, cast to `int` and clipped at zero. -/
def nextHeight (height : Nat) (step : CInt) : CInt :=
  let below := (BitVec.ofNat 64 height - step.signExtend 64).setWidth 32
  if below.slt 0 then 0 else below

section Model

variable {P : Type} [DecidableEq P] (c : Chain P) (block : P → Entry P)

/-- `IsExist(pindex) ? GetBlockIndex(height) : pindex->GetAncestor(height)`. -/
def lookup (pindex : P) (height : Nat) : Except Fault (Option P) :=
  if c.isExist block pindex then .ok (c.getBlockIndex height)
  else getAncestor block pindex height

/-- A turn of the loop in `GetLocator`, over `pindex`, `step` and `out`. -/
def getLocatorTurn : Option P × CInt × List Hash256 →
    Except Fault (Turn (Option P × CInt × List Hash256) (List Hash256))
  | (none, _, out) => .ok (.leave out)
  | (some pindex, step, out) =>
    let out := out ++ [(block pindex).blockHash]
    if (block pindex).height = 0 then .ok (.leave out)
    else
      match lookup c block pindex (toSize (nextHeight (block pindex).height step)) with
      | .ok next => .ok (.again (next, if 10 < out.length then step * 2 else step, out))
      | .error fault => .error fault

/-- `GetLocator`; `out` may be null. Every turn lowers the height, so the fuel lasts. -/
def getLocator (out : Option (List Hash256)) (pindex : Option P) :
    Except Fault (Bool × Option (List Hash256)) :=
  match out with
  | none => .ok (false, none)
  | some _ =>
    let pindex := match pindex with
      | none => c.tip
      | some pindex => some pindex
    let height := match pindex with
      | none => 0
      | some pindex => (block pindex).height
    (fun hashes => (true, some hashes)) <$>
      loop .endless (getLocatorTurn c block) (height + 2) (pindex, 1, [])

end Model

/-! What a locator should list. -/

section Abstract

/-- The length of a move: one for the first eleven, then two, four, eight. -/
def stepOf (n : Nat) : Nat := if n < 11 then 1 else 2 ^ (n - 10)

/-- The height after so many moves down from this one. -/
def heightAfter (height n : Nat) : Nat := height - ∑ i ∈ Finset.range n, stepOf i

theorem heightAfter_zero (height : Nat) : heightAfter height 0 = height := by
  simp [heightAfter]

theorem heightAfter_succ (height n : Nat) :
    heightAfter height (n + 1) = heightAfter height n - stepOf n := by
  rw [heightAfter, heightAfter, Finset.sum_range_succ, Nat.sub_sub]

theorem stepOf_pos (n : Nat) : 0 < stepOf n := by
  rw [stepOf]
  split_ifs
  · exact Nat.one_pos
  · exact Nat.two_pow_pos _

theorem sum_stepOf (n : Nat) : ∑ i ∈ Finset.range (11 + n), stepOf i = 2 ^ (n + 1) + 9 := by
  induction n with
  | zero => rfl
  | succ n ih =>
    have hstep : stepOf (11 + n) = 2 ^ (n + 1) := by
      rw [stepOf, if_neg (by omega)]
      congr 1
      omega
    rw [← Nat.add_assoc, Finset.sum_range_succ, ih, hstep]
    ring

/-- As long as there is a way to go, the next step fits in an `int` twice. -/
theorem stepOf_lt {height n : Nat} (hheight : height < 2 ^ 30) (h : 0 < heightAfter height n) :
    stepOf n < 2 ^ 30 := by
  by_cases hsmall : n < 11
  · rw [stepOf, if_pos hsmall]
    omega
  · obtain ⟨k, rfl⟩ : ∃ k, n = 11 + k := ⟨n - 11, by omega⟩
    have hsum := sum_stepOf k
    rw [heightAfter] at h
    rw [stepOf, if_neg hsmall, show 11 + k - 10 = k + 1 by omega]
    omega

/-- In between an `int` neither overflows nor loses anything. -/
theorem toSize_nextHeight {height step : Nat} (hheight : height < 2 ^ 30) (hstep : step < 2 ^ 30) :
    toSize (nextHeight height (toInt step)) = height - step := by
  have hint : (toInt step).toNat = step := toNat_toInt (by omega)
  have hmsb : (toInt step).msb = false := BitVec.msb_eq_false_iff_two_mul_lt.mpr (by omega)
  have hsub : ((BitVec.ofNat 64 height - (toInt step).signExtend 64).setWidth 32).toNat =
      (2 ^ 64 - step + height) % 2 ^ 32 := by
    rw [BitVec.signExtend_eq_setWidth_of_msb_false hmsb]
    simp only [BitVec.toNat_setWidth, BitVec.toNat_sub, BitVec.toNat_ofNat, hint]
    omega
  have hform : nextHeight height (toInt step) =
      if ((BitVec.ofNat 64 height - (toInt step).signExtend 64).setWidth 32).msb then 0
      else (BitVec.ofNat 64 height - (toInt step).signExtend 64).setWidth 32 := by
    rw [← BitVec.slt_zero_eq_msb]
    rfl
  rw [hform]
  by_cases hle : step ≤ height
  · have hpos : ((BitVec.ofNat 64 height - (toInt step).signExtend 64).setWidth 32).msb = false :=
      BitVec.msb_eq_false_iff_two_mul_lt.mpr (by omega)
    rw [hpos, if_neg (by simp), toSize_of_lt (by omega), hsub]
    omega
  · have hneg : ((BitVec.ofNat 64 height - (toInt step).signExtend 64).setWidth 32).msb = true := by
      rw [← Bool.not_eq_false, BitVec.msb_eq_false_iff_two_mul_lt]
      omega
    rw [hneg, if_pos rfl]
    change 0 = _
    omega

theorem toInt_stepOf_succ (n : Nat) :
    (if 10 < n + 1 then toInt (stepOf n) * 2 else toInt (stepOf n)) = toInt (stepOf (n + 1)) := by
  by_cases hsmall : n + 1 < 11
  · rw [if_neg (by omega), stepOf, stepOf, if_pos hsmall, if_pos (by omega)]
  · have hdouble : stepOf (n + 1) = stepOf n * 2 := by
      by_cases hlast : n < 11
      · obtain rfl : n = 10 := by omega
        rfl
      · have hexp : n + 1 - 10 = n - 10 + 1 := by omega
        rw [stepOf, stepOf, if_neg hsmall, if_neg hlast, hexp, Nat.pow_succ]
    rw [if_pos (by omega), hdouble, toInt, toInt, BitVec.ofNat_mul]
    rfl

end Abstract

section Lookup

variable {P : Type} [DecidableEq P] {t : BlockTree P} {c : Chain P}

theorem lookup_eq (hskips : t.Skips) (hreach : Reachable t c) (p : P) {h : Nat} (hle : h ≤ t.height p) :
    lookup c t.block p h = .ok (t.forest.ancestor p h) := by
  rcases hreach.represents with ⟨tip, hrep⟩
  by_cases hexist : c.isExist t.block p = true
  · rw [lookup, if_pos hexist]
    obtain ⟨tip, rfl, hanc⟩ := (isExist_iff hrep p).mp hexist
    obtain ⟨q, hq, hanc', hheight⟩ := Forest.exists_ancestor (F := t.forest) (v := p) hle
    have htip : t.height p ≤ t.height tip := Forest.depth_le hanc
    have hget := (getBlockIndex_eq_some hrep (Nat.le_trans hle htip)).mpr
      ⟨hanc.trans hanc', hheight⟩
    rw [hget, hq]
  · rw [lookup, if_neg hexist, BlockTree.getAncestor_eq hskips]

end Lookup

section Listing

variable {P : Type} {t : BlockTree P} {c : Chain P}

/-- The first hashes of a locator: those of the block's ancestors at the heights of so many
moves. -/
def Lists (t : BlockTree P) (p : P) (hashes : List Hash256) (count : Nat) : Prop :=
  hashes.length = count ∧ ∀ n < count, ∃ q, t.forest.Ancestor p q ∧
    t.height q = heightAfter (t.height p) n ∧ hashes[n]? = some (t.block q).blockHash

/-- What `GetLocator` should return for a block. The hash of its root comes last. -/
def IsLocator (t : BlockTree P) (p : P) (hashes : List Hash256) : Prop :=
  ∃ last, (∀ n < last, 0 < heightAfter (t.height p) n) ∧
    heightAfter (t.height p) last = 0 ∧ Lists t p hashes (last + 1)

theorem Lists.snoc {p q : P} {hashes : List Hash256} {count : Nat} (h : Lists t p hashes count)
    (hanc : t.forest.Ancestor p q) (hheight : t.height q = heightAfter (t.height p) count) :
    Lists t p (hashes ++ [(t.block q).blockHash]) (count + 1) := by
  rcases h with ⟨hlen, hentries⟩
  refine ⟨by rw [List.length_append, hlen]; rfl, fun n hn => ?_⟩
  by_cases hlast : n = count
  · refine ⟨q, hanc, by rw [hheight, hlast], ?_⟩
    rw [List.getElem?_append_right (by omega), hlast, hlen, Nat.sub_self]
    rfl
  · rcases hentries n (by omega) with ⟨u, hu, hheight', hentry⟩
    exact ⟨u, hu, hheight', by rw [List.getElem?_append_left (by omega), hentry]⟩

/-- The loop in `GetLocator` after so many moves. -/
structure Listing (t : BlockTree P) (p : P) (s : Option P × CInt × List Hash256)
    (count : Nat) : Prop where
  lists : Lists t p s.2.2 count
  open_ : ∀ n < count, 0 < heightAfter (t.height p) n
  step : s.2.1 = toInt (stepOf count)
  here : ∃ q, s.1 = some q ∧ t.forest.Ancestor p q ∧
    t.height q = heightAfter (t.height p) count

theorem getLocatorTurn_listing [DecidableEq P] (hskips : t.Skips) (hreach : Reachable t c)
    {p : P} (hbound : t.height p < 2 ^ 30) {s : Option P × CInt × List Hash256} {count : Nat}
    (h : Listing t p s count) :
    (∃ s', getLocatorTurn c t.block s = .ok (.again s') ∧ Listing t p s' (count + 1) ∧
      ahead t s'.1 < ahead t s.1) ∨
    ∃ hashes, getLocatorTurn c t.block s = .ok (.leave hashes) ∧ IsLocator t p hashes := by
  rcases s with ⟨cursor, step, out⟩
  rcases h with ⟨hlists, hopen, hstep, q, hq, hanc, hheight⟩
  obtain rfl : cursor = some q := hq
  obtain rfl : step = toInt (stepOf count) := hstep
  have hlists' := hlists.snoc hanc hheight
  by_cases hroot : t.height q = 0
  · right
    refine ⟨_, ?_, count, hopen, by rw [← hheight, hroot], hlists'⟩
    simp only [getLocatorTurn, if_pos hroot]
  · left
    have hpos : 0 < heightAfter (t.height p) count := by omega
    have hsmall := stepOf_lt hbound hpos
    have hle : t.height q ≤ t.height p := Forest.depth_le hanc
    have hnext : toSize (nextHeight (t.height q) (toInt (stepOf count))) =
        heightAfter (t.height p) (count + 1) := by
      rw [toSize_nextHeight (Nat.lt_of_le_of_lt hle hbound) hsmall, hheight, heightAfter_succ]
    have hless : heightAfter (t.height p) (count + 1) < t.height q := by
      have := stepOf_pos count
      rw [heightAfter_succ]
      omega
    obtain ⟨u, hu, hanc', hheight'⟩ :=
      Forest.exists_ancestor (F := t.forest) (v := q) (Nat.le_of_lt hless)
    have hlookup := lookup_eq hskips hreach q
      (Nat.le_of_lt hless)
    rw [hu] at hlookup
    refine ⟨(some u, toInt (stepOf (count + 1)), out ++ [(t.block q).blockHash]), ?_,
      ⟨hlists', ?_, rfl, u, rfl, hanc.trans hanc', hheight'⟩, ?_⟩
    · have hlen : (out ++ [(t.block q).blockHash]).length = count + 1 := hlists'.1
      have hdouble := toInt_stepOf_succ count
      simp only [getLocatorTurn, if_neg hroot, hnext, hlookup, hlen, hdouble]
    · intro n hn
      by_cases hlast : n = count
      · rw [hlast]
        exact hpos
      · exact hopen n (by omega)
    · simp only [ahead]
      have : t.height u = heightAfter (t.height p) (count + 1) := hheight'
      omega

theorem IsLocator.head {p : P} {hashes : List Hash256} (h : IsLocator t p hashes) :
    hashes.head? = some (t.block p).blockHash := by
  rcases h with ⟨last, -, -, -, hentries⟩
  rcases hentries 0 (by omega) with ⟨q, hanc, hheight, hentry⟩
  obtain rfl : p = q := Forest.ancestor_unique .refl hanc (by
    rw [heightAfter_zero] at hheight
    exact hheight.symm)
  rw [List.head?_eq_getElem?, hentry]

theorem IsLocator.last {p : P} {hashes : List Hash256} (h : IsLocator t p hashes) :
    ∃ root, t.forest.Ancestor p root ∧ t.height root = 0 ∧
      hashes.getLast? = some (t.block root).blockHash := by
  rcases h with ⟨last, -, hend, hlen, hentries⟩
  rcases hentries last (by omega) with ⟨root, hanc, hheight, hentry⟩
  refine ⟨root, hanc, hheight.trans hend, ?_⟩
  rw [List.getLast?_eq_getElem?, hlen, Nat.add_sub_cancel, hentry]

/-- The moves up to the thirtieth lead down more than `2 ^ 20` blocks. -/
theorem IsLocator.length_le {p : P} {hashes : List Hash256} (h : IsLocator t p hashes)
    (hheight : t.height p < 2 ^ 20) : hashes.length ≤ 31 := by
  rcases h with ⟨last, hopen, -, hlen, -⟩
  rw [hlen]
  by_contra hlong
  have hopen := hopen 30 (by omega)
  have hsum : ∑ i ∈ Finset.range 30, stepOf i = 2 ^ 20 + 9 := sum_stepOf 19
  rw [heightAfter] at hopen
  omega

/-- There is only one locator for a block. -/
theorem IsLocator.unique {p : P} {hashes hashes' : List Hash256} (h : IsLocator t p hashes)
    (h' : IsLocator t p hashes') : hashes = hashes' := by
  rcases h with ⟨last, hopen, hend, hlen, hentries⟩
  rcases h' with ⟨last', hopen', hend', hlen', hentries'⟩
  obtain rfl : last = last' := by
    rcases Nat.lt_trichotomy last last' with hlt | heq | hgt
    · have := hopen' last hlt
      omega
    · exact heq
    · have := hopen last' hgt
      omega
  apply List.ext_getElem? fun n => ?_
  by_cases hn : n < last + 1
  · rcases hentries n hn with ⟨q, hanc, hheight, hentry⟩
    rcases hentries' n hn with ⟨q', hanc', hheight', hentry'⟩
    obtain rfl : q = q' := Forest.ancestor_unique hanc hanc' (hheight.trans hheight'.symm)
    rw [hentry, hentry']
  · rw [List.getElem?_eq_none (by omega), List.getElem?_eq_none (by omega)]

end Listing

section Locating

variable {P : Type} [DecidableEq P] {t : BlockTree P} {c : Chain P}

theorem getLocator_block (hskips : t.Skips) (hreach : Reachable t c) {p : P}
    (hbound : t.height p < 2 ^ 30) (out : List Hash256) :
    ∃ hashes, getLocator c t.block (some out) (some p) = .ok (true, some hashes) ∧
      IsLocator t p hashes := by
  have hloop : ∃ hashes, loop Fault.endless (getLocatorTurn c t.block) (t.height p + 2)
      (some p, 1, []) = .ok hashes ∧ IsLocator t p hashes := by
    refine loop_total (I := fun s => ∃ count, Listing t p s count) (m := fun s => ahead t s.1)
      ?_ ⟨0, ⟨⟨rfl, by simp⟩, by simp, rfl, p, rfl, .refl, ?_⟩⟩ (Nat.lt_succ_self _)
    · rintro s ⟨count, hs⟩
      rcases getLocatorTurn_listing hskips hreach hbound hs with
        ⟨s', hturn, hs', hless⟩ | hleave
      · exact Or.inl ⟨s', hturn, ⟨count + 1, hs'⟩, hless⟩
      · exact Or.inr hleave
    · exact (heightAfter_zero _).symm
  rcases hloop with ⟨hashes, hrun, hlocator⟩
  refine ⟨hashes, ?_, hlocator⟩
  change _ <$> loop Fault.endless (getLocatorTurn c t.block) (t.height p + 2) (some p, 1, []) = _
  rw [hrun]
  rfl

/-- `GetLocator` returns the locator of the block asked for, or of the tip, from its own hash
to its root's, and does so whatever the active chain is. -/
theorem getLocator_locates (hskips : t.Skips) (hbound : ∀ p, t.height p < 2 ^ 30)
    (hreach : Reachable t c) (pindex : Option P) (out : List Hash256) :
    match pindex.or c.tip with
    | none => getLocator c t.block (some out) pindex = .ok (true, some [])
    | some p => ∃ hashes, getLocator c t.block (some out) pindex = .ok (true, some hashes) ∧
        IsLocator t p hashes ∧ hashes.head? = some (t.block p).blockHash ∧
        (∃ root, t.forest.Ancestor p root ∧ t.height root = 0 ∧
          hashes.getLast? = some (t.block root).blockHash) ∧
        ∀ c', Reachable t c' →
          getLocator c' t.block (some out) (some p) = .ok (true, some hashes) := by
  have hblock : ∀ p, getLocator c t.block (some out) pindex =
      getLocator c t.block (some out) (some p) →
      ∃ hashes, getLocator c t.block (some out) pindex = .ok (true, some hashes) ∧
        IsLocator t p hashes ∧ hashes.head? = some (t.block p).blockHash ∧
        (∃ root, t.forest.Ancestor p root ∧ t.height root = 0 ∧
          hashes.getLast? = some (t.block root).blockHash) ∧
        ∀ c', Reachable t c' →
          getLocator c' t.block (some out) (some p) = .ok (true, some hashes) := by
    intro p hsame
    rcases getLocator_block hskips hreach (hbound p) out with ⟨hashes, hrun, hlocator⟩
    refine ⟨hashes, hsame.trans hrun, hlocator, hlocator.head, hlocator.last, ?_⟩
    intro c' hreach'
    rcases getLocator_block hskips hreach' (hbound p) out with ⟨hashes', hrun', hlocator'⟩
    rw [hrun', hlocator'.unique hlocator]
  cases pindex with
  | some p => exact hblock p rfl
  | none =>
    cases htip : c.tip with
    | some p =>
      apply hblock p
      simp only [getLocator, htip]
    | none =>
      change getLocator c t.block (some out) none = _
      simp only [getLocator, htip]
      rfl

/-- From the lone block of the branch that is not active. -/
theorem getLocator_locates_fork :
    ∃ hashes, getLocator ⟨[some 0, some 1, some 2]⟩ fork.block (some []) (some 3) =
        .ok (true, some hashes) ∧ IsLocator fork 3 hashes := by
  rcases getLocator_locates fork_skips (by decide) longer_reachable (some 3) [] with
    ⟨hashes, hrun, hlocator, -⟩
  exact ⟨hashes, hrun, hlocator⟩

end Locating

end Locator
