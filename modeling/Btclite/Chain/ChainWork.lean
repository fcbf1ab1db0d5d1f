import Btclite.Chain.HeaderIndex
import Btclite.Chain.SkipPointers
import Btclite.Consensus.HashCache
import Mathlib.Data.List.Induction

/-!
# Work along the links

`chain_work` is a sum of proofs in 256 bits, and a header chooses its own proof: a
target of 1 is worth half of what 256 bits hold. With the const walk in `BuildSkip`
the work would rise along every line of ancestors exactly as long as no header carries
it over. As it is, no header that has a parent comes as far as its work.
-/

namespace ChainWork

open Endian Serialize Transactions BlockProof Ancestry BlockIndex ChainState HeaderIndex HashCache

section Sums

/-- A sum is at least its first part exactly when nothing is carried. -/
theorem le_add_iff {x y : U256} : x ≤ x + y ↔ x.toNat + y.toNat < 2 ^ 256 := by
  have hx := x.isLt
  have hy := y.isLt
  rw [BitVec.le_def, BitVec.toNat_add]
  omega

theorem getBlockProof_toNat {header : BlockHeader} {proof : U256}
    (h : getBlockProof header = some proof) :
    proof.toNat = (Compact.setCompact header.bits).work := by
  rcases getBlockProof_work header with ⟨c, proof', hc, -, hproof, hwork⟩
  rcases Compact.getCompact_some (.setCompact header.bits) with ⟨compact, hcompact⟩
  obtain rfl : proof = proof' := Option.some.inj (h.symm.trans hproof)
  obtain rfl := Option.some.inj (hc.symm.trans hcompact)
  exact hwork

end Sums

section Lines

variable (sha256 : List Byte → Hash256)

/-- The work never falls from an entry to one that continues it. -/
structure Rises (s : State) : Prop where
  parent : ∀ p < s.allocated, ∀ q, (s.block p).pprev = some q →
    (s.block q).chainWork ≤ (s.block p).chainWork
  ancestor : ∀ p < s.allocated, ∀ n q, climb (fun r => (s.block r).pprev) n p = some q →
    (s.block q).chainWork ≤ (s.block p).chainWork
  best : ∀ best, s.pindexBestHeader = some best →
    ∀ n q, climb (fun r => (s.block r).pprev) n best = some q →
      (s.block q).chainWork ≤ (s.block best).chainWork

/-- A header that is new and has its parent there adds a proof that is not carried. -/
def Fits (s : State) (header : BlockHeader) : Prop :=
  s.mapBlockIndex.lookup (getHash sha256 header) = none →
    ∀ q, s.mapBlockIndex.lookup header.prevBlockHash = some q →
      (s.block q).chainWork.toNat + (Compact.setCompact header.bits).work < 2 ^ 256

variable {sha256} {s s' : State} {header : BlockHeader} {p q : Nat}

/-- Only the links to parents matter. -/
theorem rises_of_parent (hlinked : Linked s) (hbest : IsBest s)
    (hparent : ∀ p < s.allocated, ∀ q, (s.block p).pprev = some q →
      (s.block q).chainWork ≤ (s.block p).chainWork) : Rises s := by
  have hline : ∀ n p, p < s.allocated → ∀ q,
      climb (fun r => (s.block r).pprev) n p = some q →
        (s.block q).chainWork ≤ (s.block p).chainWork := by
    intro n
    induction n with
    | zero =>
      rintro p - q hclimb
      obtain rfl : p = q := Option.some.inj hclimb
      exact BitVec.le_refl _
    | succ n ih =>
      intro p hp q hclimb
      obtain ⟨r, hprev, hrest⟩ := Option.bind_eq_some_iff.mp hclimb
      have hr : r < s.allocated := ((hlinked.hangs p hp).pprev_le hprev).trans_lt hp
      exact BitVec.le_trans (ih r hr q hrest) (hparent p hp r hprev)
  refine ⟨hparent, fun p hp n => hline n p hp, fun best hsome n => hline n best ?_⟩
  rw [IsBest, hsome] at hbest
  exact hbest.1

/-- The new entry has at least its parent's work exactly when the sum is not carried. -/
theorem new_iff_fits (hlinked : Linked s)
    (hnew : s.mapBlockIndex.lookup (getHash sha256 header) = none)
    (hadded : Added sha256 s s' header) :
    (∀ q, (s'.block s.allocated).pprev = some q →
      (s'.block q).chainWork ≤ (s'.block s.allocated).chainWork) ↔ Fits sha256 s header := by
  have hold : ∀ q < s.allocated, s'.block q = s.block q := fun q hq => hadded.same q hq.ne
  rcases hadded.works with ⟨proof, hproof, hwork⟩
  rw [hadded.header_new] at hproof
  cases hadded.hangs with
  | child r before hash pprev =>
    rw [hadded.header_new, hold r before] at hash
    have hlookup := (hlinked.lookup_iff _ r).mpr ⟨before, hash⟩
    rw [workBefore, pprev] at hwork
    dsimp only at hwork
    rw [if_neg before.ne] at hwork
    rw [Fits, pprev, hlookup, ← getBlockProof_toNat hproof]
    constructor
    · rintro hle - q hq
      obtain rfl : r = q := Option.some.inj hq
      have hlast := hle r rfl
      rw [hwork, hold r before] at hlast
      exact le_add_iff.mp hlast
    · intro hfits q hq
      obtain rfl : r = q := Option.some.inj hq
      rw [hwork, hold r before]
      exact le_add_iff.mpr (hfits hnew r rfl)
  | itself hash _ pprev =>
    rw [hadded.hash_new, hadded.header_new] at hash
    refine iff_of_true ?_ ?_
    · intro q hq
      obtain rfl : s.allocated = q := Option.some.inj (pprev.symm.trans hq)
      exact BitVec.le_refl _
    · rintro - q hq
      rw [← hash, hnew] at hq
      cases hq
  | root hash pprev =>
    refine iff_of_true ?_ ?_
    · intro q hq
      rw [pprev] at hq
      cases hq
    · rintro - q hq
      obtain ⟨hlt, hhash⟩ := (hlinked.lookup_iff _ q).mp hq
      have hne := hash q hlt.le
      rw [hold q hlt, hadded.header_new] at hne
      exact absurd hhash hne

/-- One header keeps the work rising exactly when its own sum is not carried. -/
theorem rises_step (hlinked : Linked s) (hbest : IsBest s) (hrises : Rises s)
    (hrun : addToBlockIndex getAncestor sha256 s header = .ok (p, s')) :
    Rises s' ↔ Fits sha256 s header := by
  cases hlookup : s.mapBlockIndex.lookup (getHash sha256 header) with
  | some r =>
    rw [addToBlockIndex, hlookup] at hrun
    obtain rfl : s = s' := congrArg Prod.snd (Except.ok.inj hrun)
    refine iff_of_true hrises fun hnew => ?_
    rw [hlookup] at hnew
    cases hnew
  | none =>
    obtain ⟨s₁, hadd, hadded⟩ := addToBlockIndex_adds hlinked hlookup
    obtain rfl : s₁ = s' := congrArg Prod.snd (Except.ok.inj (hadd.symm.trans hrun))
    rw [← new_iff_fits hlinked hlookup hadded]
    constructor
    · intro h
      exact h.parent s.allocated (by rw [hadded.allocated]; exact Nat.lt_succ_self _)
    · intro hnew
      refine rises_of_parent (hadded.linked hlinked hlookup) (hadded.isBest hbest) ?_
      intro p hp q hprev
      rw [hadded.allocated] at hp
      rcases (Nat.lt_succ_iff.mp hp).lt_or_eq with hlt | rfl
      · rw [hadded.same p hlt.ne] at hprev ⊢
        have hq : q < s.allocated := ((hlinked.hangs p hlt).pprev_le hprev).trans_lt hlt
        rw [hadded.same q hq.ne]
        exact hrises.parent p hlt q hprev
      · exact hnew q hprev

theorem addAll_snoc (lookup : Lookup Nat) {done : List BlockHeader} (header : BlockHeader)
    (hrun : addAll lookup sha256 done = .ok s) :
    addAll lookup sha256 (done ++ [header]) =
      Prod.snd <$> addToBlockIndex lookup sha256 s header := by
  rw [addAll, List.foldlM_append, ← addAll, hrun]
  change Prod.snd <$> addToBlockIndex lookup sha256 s header >>= pure = _
  rw [bind_pure]

/-- The last header of a sequence. -/
theorem addAll_concat (sha256 : List Byte → Hash256) (done : List BlockHeader)
    (header : BlockHeader) : ∃ s p s', addAll getAncestor sha256 done = .ok s ∧ Linked s ∧
      IsBest s ∧ addToBlockIndex getAncestor sha256 s header = .ok (p, s') ∧
      addAll getAncestor sha256 (done ++ [header]) = .ok s' := by
  rcases addAll_linked sha256 done with ⟨s, hrun, hlinked, hbest, -⟩
  rcases addAll_linked sha256 (done ++ [header]) with ⟨s', hrun', -, -, -⟩
  have hstep : Prod.snd <$> addToBlockIndex getAncestor sha256 s header = .ok s' :=
    (addAll_snoc getAncestor header hrun).symm.trans hrun'
  cases hadd : addToBlockIndex getAncestor sha256 s header with
  | error e =>
    rw [hadd] at hstep
    cases hstep
  | ok result =>
    rw [hadd] at hstep
    obtain rfl : result.2 = s' := Except.ok.inj hstep
    exact ⟨s, result.1, result.2, hrun, hlinked, hbest, hadd, hrun'⟩

theorem rises_initial : Rises {} := by
  refine ⟨?_, ?_, ?_⟩
  · intro p hp
    cases hp
  · intro p hp
    cases hp
  · intro best hbest
    cases hbest

/-- The work rises after every part of a sequence of headers exactly when no header in it
carries its sum. -/
theorem rises_iff_fits (sha256 : List Byte → Hash256) (headers : List BlockHeader) :
    (∀ done, done <+: headers → ∃ s, addAll getAncestor sha256 done = .ok s ∧ Rises s) ↔
      ∀ done header, done ++ [header] <+: headers →
        ∃ s, addAll getAncestor sha256 done = .ok s ∧ Fits sha256 s header := by
  constructor
  · intro h done header hdone
    rcases addAll_concat sha256 done header with ⟨s, p, s', hrun, hlinked, hbest, hadd, hrun'⟩
    obtain ⟨s₀, hs₀, hrises⟩ := h done ((List.prefix_append _ _).trans hdone)
    obtain ⟨s₁, hs₁, hrises'⟩ := h (done ++ [header]) hdone
    obtain rfl : s = s₀ := Except.ok.inj (hrun.symm.trans hs₀)
    obtain rfl : s' = s₁ := Except.ok.inj (hrun'.symm.trans hs₁)
    exact ⟨s, hrun, (rises_step hlinked hbest hrises hadd).mp hrises'⟩
  · intro h done
    induction done using List.reverseRecOn with
    | nil => exact fun _ => ⟨{}, rfl, rises_initial⟩
    | append_singleton done header ih =>
      intro hdone
      rcases addAll_concat sha256 done header with ⟨s, p, s', hrun, hlinked, hbest, hadd, hrun'⟩
      obtain ⟨s₀, hs₀, hrises⟩ := ih ((List.prefix_append _ _).trans hdone)
      obtain ⟨s₁, hs₁, hfits⟩ := h done header hdone
      obtain rfl : s = s₀ := Except.ok.inj (hrun.symm.trans hs₀)
      obtain rfl : s = s₁ := Except.ok.inj (hrun.symm.trans hs₁)
      exact ⟨s', hrun', (rises_step hlinked hbest hrises hadd).mpr hfits⟩

end Lines

section Acceptance

open SkipPointers

variable (sha256 : List Byte → Hash256)

/-- A header that came before, or that names none of those and not itself. -/
def Alone (done : List BlockHeader) (header : BlockHeader) : Prop :=
  getHash sha256 header ∉ done.map (getHash sha256) →
    header.prevBlockHash ∉ (done ++ [header]).map (getHash sha256)

variable {sha256} {s : State} {done headers : List BlockHeader} {header : BlockHeader}
  {calls : Nat}

theorem lookup_eq_none_iff (h : Indexes sha256 done s) (k : Hash256) :
    s.mapBlockIndex.lookup k = none ↔ k ∉ done.map (getHash sha256) := by
  rw [AList.lookup_eq_none, AList.mem_keys, h.keys.mem_iff, List.mem_dedup]

/-- Where the parent is looked for, the header itself is in the map. -/
theorem lookup_allocate_eq_none_iff (h : Indexes sha256 done s) (k : Hash256) :
    (allocate sha256 s header).mapBlockIndex.lookup k = none ↔
      k ∉ (done ++ [header]).map (getHash sha256) := by
  rw [List.map_append, List.mem_append, not_or, ← lookup_eq_none_iff h, List.map_singleton,
    List.mem_singleton, allocate]
  by_cases hk : k = getHash sha256 header
  · simp [hk]
  · simp [hk, AList.lookup_insert_ne hk]

/-- The lookup of `BuildSkip` does not come up for a header that came before or has no parent. -/
theorem addToBlockIndex_of_alone (h : Indexes sha256 done s) (halone : Alone sha256 done header)
    (lookup lookup' : Lookup Nat) :
    addToBlockIndex lookup sha256 s header = addToBlockIndex lookup' sha256 s header := by
  rw [addToBlockIndex, addToBlockIndex]
  cases hold : s.mapBlockIndex.lookup (getHash sha256 header) with
  | some p => rfl
  | none =>
    have hnone := (lookup_allocate_eq_none_iff h header.prevBlockHash).mpr
      (halone ((lookup_eq_none_iff h _).mp hold))
    simp only [linkPrev, hnone]

theorem linkPrev_endless {n q : Nat} {prevBlockHash : Hash256}
    (hprev : s.mapBlockIndex.lookup prevBlockHash = some q) (calls : Nat) :
    linkPrev (lookupBy .plain calls) s n prevBlockHash = .error .endless := by
  have hpprev : (((s.set n fun e => { e with pprev := some q }).set n fun e => { e with
      height := ((s.set n fun e => { e with pprev := some q }).block q).height + 1 }).block
        n).pprev = some q := by
    rw [State.set_block_self, State.set_block_self]
  have hskip := buildSkip_endless hpprev calls
  rw [SkipPointers.buildSkip, buildSkipBy] at hskip
  simp only [linkPrev, hprev, hskip]
  rfl

/-- A header with a parent never gets out of `BuildSkip`. -/
theorem addToBlockIndex_endless (h : Indexes sha256 done s)
    (halone : ¬ Alone sha256 done header) (calls : Nat) :
    addToBlockIndex (lookupBy .plain calls) sha256 s header = .error .endless := by
  obtain ⟨hnew, hparent⟩ := Classical.not_imp.mp halone
  rw [not_not] at hparent
  have hold := (lookup_eq_none_iff h _).mpr hnew
  cases hprev : (allocate sha256 s header).mapBlockIndex.lookup header.prevBlockHash with
  | none => exact absurd hparent ((lookup_allocate_eq_none_iff h _).mp hprev)
  | some q =>
    simp only [addToBlockIndex, hold, linkPrev_endless hprev]
    rfl

/-- Headers without parents make the index that the const walk would make of them. -/
theorem addAll_of_alone (calls : Nat)
    (h : ∀ earlier header, earlier ++ [header] <+: headers → Alone sha256 earlier header) :
    addAll (lookupBy .plain calls) sha256 headers = addAll getAncestor sha256 headers := by
  induction headers using List.reverseRecOn with
  | nil => rfl
  | append_singleton headers header ih =>
    obtain ⟨s, hrun, hs⟩ := addAll_indexes sha256 headers
    have hsame := ih fun earlier header' hearlier =>
      h earlier header' (hearlier.trans (List.prefix_append _ _))
    rw [addAll_snoc _ _ hrun, addAll_snoc _ _ (hsame.trans hrun),
      addToBlockIndex_of_alone hs (h headers header List.prefix_rfl)]

/-- A header with a parent behind headers without one is not accepted. -/
theorem addAll_endless (calls : Nat)
    (hbefore : ∀ earlier header, earlier ++ [header] <+: done → Alone sha256 earlier header)
    (halone : ¬ Alone sha256 done header) :
    addAll (lookupBy .plain calls) sha256 (done ++ [header]) = .error .endless := by
  obtain ⟨s, hrun, hs⟩ := addAll_indexes sha256 done
  rw [addAll_snoc _ _ ((addAll_of_alone calls hbefore).trans hrun),
    addToBlockIndex_endless hs halone]
  rfl

theorem alone_of_accepted
    (h : ∀ done, done <+: headers → ∃ calls s, addAll (lookupBy .plain calls) sha256 done = .ok s) :
    ∀ done header, done ++ [header] <+: headers → Alone sha256 done header := by
  induction headers using List.reverseRecOn with
  | nil =>
    intro done header hdone
    exact absurd (List.prefix_nil.mp hdone) (by simp)
  | append_singleton headers last ih =>
    have hbefore := ih fun done hdone => h done (hdone.trans (List.prefix_append _ _))
    intro done header hdone
    rcases List.prefix_concat_iff.mp hdone with heq | hdone
    · obtain ⟨rfl, hlast⟩ := List.append_inj' heq rfl
      obtain rfl := List.singleton_inj.mp hlast
      by_contra halone
      obtain ⟨calls, s, haccepted⟩ := h _ List.prefix_rfl
      rw [addAll_endless calls hbefore halone] at haccepted
      cases haccepted
    · exact hbefore done header hdone

/-- Headers without parents are accepted, and there is nothing above which to rise. -/
theorem accepted_of_alone
    (h : ∀ done header, done ++ [header] <+: headers → Alone sha256 done header) :
    ∀ done, done <+: headers → ∃ s, addAll (lookupBy .plain calls) sha256 done = .ok s ∧
      Rises s := by
  intro done hdone
  have hfits : ∀ done header, done ++ [header] <+: headers →
      ∃ s, addAll getAncestor sha256 done = .ok s ∧ Fits sha256 s header := by
    intro done header hdone
    obtain ⟨s, hrun, hs⟩ := addAll_indexes sha256 done
    refine ⟨s, hrun, fun hnew q hq => ?_⟩
    have hparent := h done header hdone ((lookup_eq_none_iff hs _).mp hnew)
    rw [List.map_append, List.mem_append, not_or, ← lookup_eq_none_iff hs, hq] at hparent
    cases hparent.1
  obtain ⟨s, hrun, hrises⟩ := (rises_iff_fits sha256 headers).mpr hfits done hdone
  refine ⟨s, (addAll_of_alone calls fun earlier header hearlier => ?_).trans hrun, hrises⟩
  exact h earlier header (hearlier.trans hdone)

/-- Every header is accepted and the work rises from parents, after every part of a sequence,
exactly when no new header of it has its parent there. -/
theorem accepted_iff_alone (sha256 : List Byte → Hash256) (headers : List BlockHeader) :
    (∀ done, done <+: headers →
      ∃ calls s, addAll (lookupBy .plain calls) sha256 done = .ok s ∧ Rises s) ↔
      ∀ done header, done ++ [header] <+: headers → Alone sha256 done header := by
  constructor
  · intro h
    apply alone_of_accepted
    intro done hdone
    obtain ⟨calls, s, haccepted, -⟩ := h done hdone
    exact ⟨calls, s, haccepted⟩
  · exact fun h done hdone => ⟨0, accepted_of_alone h done hdone⟩

end Acceptance

section Examples

/-- A header without a parent, and one on it, both with the target 1. -/
def easiest : BlockHeader := ⟨1, nullHash, nullHash, 0, 0x01010000, 0⟩

def easiestChild : BlockHeader := { easiest with
  prevBlockHash := hashOf 0x2c48d65f932d6b13de881c254479f93bdad9642272af87d7123be1c58a650213 }

/-- SHA-256 on these headers. -/
def headerSha256 (bytes : List Byte) : Hash256 :=
  ([(easiest.serialize,
      hashOf 0xf924ff0c30b4c95a74b8f5bccb7dc55631d2de8790ebb722f313abdc75483fbf),
    ((hashOf 0xf924ff0c30b4c95a74b8f5bccb7dc55631d2de8790ebb722f313abdc75483fbf).data,
      hashOf 0x2c48d65f932d6b13de881c254479f93bdad9642272af87d7123be1c58a650213),
    (easiestChild.serialize,
      hashOf 0x2104d251ecd99eed0f70ee8d25f47300bcd8b86d3bc5e5bc64443a5e13166382),
    ((hashOf 0x2104d251ecd99eed0f70ee8d25f47300bcd8b86d3bc5e5bc64443a5e13166382).data,
      hashOf 0x7a8ca0873d9ded6b1c62ddbf2791e1eb7a9ca51ea07f2951c682f2d105a30ddf)].lookup
    bytes).getD nullHash

/-- The child of the two is never accepted, however many calls are made. -/
theorem child_never_accepted :
    (∀ calls, addAll (SkipPointers.lookupBy .plain calls) headerSha256 [easiest, easiestChild] =
      .error .endless) ∧
    ¬ ∀ headers done, done <+: headers → ∃ calls s,
      addAll (SkipPointers.lookupBy .plain calls) headerSha256 done = .ok s ∧ Rises s := by
  have hfirst : Alone headerSha256 [] easiest := by
    unfold Alone
    decide +kernel
  have hchild : ¬ Alone headerSha256 [easiest] easiestChild := by
    unfold Alone
    decide +kernel
  have hbefore : ∀ earlier header, earlier ++ [header] <+: [easiest] →
      Alone headerSha256 earlier header := by
    intro earlier header hearlier
    have hparts : earlier ++ [header] <+: [] ++ [easiest] := hearlier
    rcases List.prefix_concat_iff.mp hparts with heq | hnil
    · obtain ⟨rfl, hheader⟩ := List.append_inj' heq rfl
      obtain rfl := List.singleton_inj.mp hheader
      exact hfirst
    · exact absurd (List.prefix_nil.mp hnil) (by simp)
  have hendless (calls : Nat) : addAll (SkipPointers.lookupBy .plain calls) headerSha256
      [easiest, easiestChild] = .error .endless :=
    addAll_endless calls hbefore hchild
  refine ⟨hendless, fun h => ?_⟩
  obtain ⟨calls, s, haccepted, -⟩ := h [easiest, easiestChild] _ List.prefix_rfl
  rw [hendless] at haccepted
  cases haccepted

end Examples

end ChainWork
