import Btclite.Chain.ChainState

/-!
# The index of headers

What `AddToBlockIndex` makes of any headers in any order. An entry hangs on the
entry of its predecessor if that came before it, and stays as it was linked, so
heights, skips and work are those of the links, and the best header is the first
one of the most work. The lookup of `BuildSkip` is taken to be the const walk here.
-/

namespace HeaderIndex

open Endian Serialize Transactions BlockProof Ancestry Loops BlockIndex ChainState

section Links

/-- How an entry hangs on one before it, or on itself, or on none. -/
inductive Hangs (block : Nat → Entry Nat) (p : Nat) : Prop where
  | child (q : Nat) (before : q < p)
      (hash : (block q).blockHash = (block p).header.prevBlockHash)
      (pprev : (block p).pprev = some q)
      (height : (block p).height = (block q).height + 1)
      (pskip : (block p).pskip = ancestorAt block q (toSize (getSkipHeight (block p).height)))
  | itself (hash : (block p).blockHash = (block p).header.prevBlockHash)
      (others : ∀ q < p, (block q).blockHash ≠ (block p).header.prevBlockHash)
      (pprev : (block p).pprev = some p) (height : (block p).height = 1)
      (pskip : (block p).pskip = some p)
  | root (hash : ∀ q ≤ p, (block q).blockHash ≠ (block p).header.prevBlockHash)
      (pprev : (block p).pprev = none) (height : (block p).height = 0)
      (pskip : (block p).pskip = none)

/-- What `Hangs` looks at in an entry. -/
def links (e : Entry Nat) : BlockHeader × Hash256 × Option Nat × Option Nat × Nat :=
  (e.header, e.blockHash, e.pprev, e.pskip, e.height)

variable {block block' : Nat → Entry Nat} {n p q : Nat}

theorem links_eq_iff {e e' : Entry Nat} : links e = links e' ↔
    e.header = e'.header ∧ e.blockHash = e'.blockHash ∧ e.pprev = e'.pprev ∧
      e.pskip = e'.pskip ∧ e.height = e'.height := by
  simp only [links, Prod.mk.injEq]

theorem Hangs.pprev_le (h : Hangs block p) (hprev : (block p).pprev = some q) : q ≤ p := by
  cases h with
  | child r before _ pprev =>
    obtain rfl : r = q := by simpa [pprev] using hprev
    exact before.le
  | itself _ _ pprev =>
    obtain rfl : p = q := by simpa [pprev] using hprev
    exact Nat.le_refl _
  | root _ pprev => simp [pprev] at hprev

/-- Further entries change nothing about the ancestors of the earlier ones. -/
theorem ancestorAt_congr (hhangs : ∀ p < n, Hangs block p)
    (hsame : ∀ p < n, links (block' p) = links (block p)) (hp : p < n) (height : Nat) :
    ancestorAt block' p height = ancestorAt block p height := by
  rw [ancestorAt, ancestorAt, (links_eq_iff.mp (hsame p hp)).2.2.2.2]
  refine if_congr Iff.rfl ?_ rfl
  refine climb_congr (I := (· < n)) ?_ ?_ _ hp
  · intro v u hv hprev
    exact ((hhangs v hv).pprev_le hprev).trans_lt hv
  · intro v hv
    exact (links_eq_iff.mp (hsame v hv)).2.2.1

theorem Hangs.congr (hearlier : ∀ q < p, Hangs block q)
    (hsame : ∀ q ≤ p, links (block' q) = links (block q)) (h : Hangs block p) :
    Hangs block' p := by
  rcases links_eq_iff.mp (hsame p (Nat.le_refl _)) with ⟨hheader, hhash, hprev, hskip, hheight⟩
  have hhashes : ∀ q ≤ p, (block' q).blockHash = (block q).blockHash := fun q hq =>
    (links_eq_iff.mp (hsame q hq)).2.1
  cases h with
  | child q before hash pprev height pskip =>
    have hq := links_eq_iff.mp (hsame q before.le)
    have hanc := ancestorAt_congr hearlier (fun r hr => hsame r hr.le) before
    refine .child q before ?_ ?_ ?_ ?_
    · rw [hhashes q before.le, hheader, hash]
    · rw [hprev, pprev]
    · rw [hheight, hq.2.2.2.2, height]
    · rw [hskip, hheight, hanc, pskip]
  | itself hash others pprev height pskip =>
    refine .itself ?_ ?_ (hprev.trans pprev) (hheight.trans height) (hskip.trans pskip)
    · rw [hhash, hheader, hash]
    · intro q hq
      rw [hhashes q hq.le, hheader]
      exact others q hq
  | root hash pprev height pskip =>
    refine .root ?_ (hprev.trans pprev) (hheight.trans height) (hskip.trans pskip)
    intro q hq
    rw [hhashes q hq, hheader]
    exact hash q hq

/-- Entries that hang together carry the heights and skips their links call for. -/
theorem graded_of_hangs (hhangs : ∀ p < n, Hangs block p) : Graded block (· < n) where
  root p hp hprev := by
    cases hhangs p hp with
    | child q _ _ pprev => simp [pprev] at hprev
    | itself _ _ pprev => simp [pprev] at hprev
    | root _ _ height => exact height
  child p q hp hprev := by
    refine ⟨((hhangs p hp).pprev_le hprev).trans_lt hp, ?_⟩
    cases hhangs p hp with
    | child r _ _ pprev height =>
      obtain rfl : r = q := by simpa [pprev] using hprev
      exact Or.inl height
    | itself _ _ pprev height =>
      obtain rfl : p = q := by simpa [pprev] using hprev
      exact Or.inr ⟨rfl, height⟩
    | root _ pprev => simp [pprev] at hprev
  skip p s hp hpos hskip := by
    cases hhangs p hp with
    | child q before _ pprev height pskip =>
      rw [pskip, ancestorAt] at hskip
      split_ifs at hskip with hle
      refine ⟨by omega, ?_⟩
      rw [height] at hle hskip ⊢
      rw [ancestorAt, if_pos (by omega), height, Nat.succ_sub hle, climb, pprev]
      exact hskip
    | itself _ _ pprev height pskip =>
      rw [pskip] at hskip
      rw [ancestorAt, height, if_pos (by decide),
        show 1 - toSize (getSkipHeight 1) = 1 by decide, climb, pprev]
      exact ⟨by decide, hskip⟩
    | root _ _ _ pskip => simp [pskip] at hskip

end Links

section Adding

/-- The work of the chain that an entry continues; nothing where it continues itself. -/
def workBefore (block : Nat → Entry Nat) (p : Nat) : U256 :=
  match (block p).pprev with
  | some q => if q = p then 0 else (block q).chainWork
  | none => 0

/-- The work of an entry adds its proof to that. -/
def Works (block : Nat → Entry Nat) (p : Nat) : Prop :=
  ∃ proof, getBlockProof (block p).header = some proof ∧
    (block p).chainWork = workBefore block p + proof

/-- The entries that are there, each under its hash and linked. -/
structure Linked (s : State) : Prop where
  lookup_iff : ∀ k p, s.mapBlockIndex.lookup k = some p ↔
    p < s.allocated ∧ (s.block p).blockHash = k
  hangs : ∀ p < s.allocated, Hangs s.block p
  works : ∀ p < s.allocated, Works s.block p

variable {s : State} {header : BlockHeader} {sha256 : List Byte → Hash256} {n q : Nat}

theorem buildSkip_ok {pskip : Option Nat} (hprev : (s.block n).pprev = some q)
    (h : getAncestor s.block q (toSize (getSkipHeight (s.block n).height)) = .ok pskip) :
    (fun block => { s with block }) <$> buildSkip getAncestor s.block n =
      .ok (s.set n fun e => { e with pskip }) := by
  rw [buildSkip]
  split
  · next pprev hpprev =>
    obtain rfl : q = pprev := Option.some.inj (hprev.symm.trans hpprev)
    rw [h]
    rfl
  · next hnone =>
    rw [hprev] at hnone
    cases hnone

/-- Nothing that is done to the new entry shows in an older one. -/
theorem allocate_set_block (f : Entry Nat → Entry Nat) (hq : q < s.allocated) :
    ((allocate sha256 s header).set s.allocated f).block q = s.block q := by
  rw [State.set_block_ne hq.ne, allocate_block_ne hq.ne]

theorem getAncestor_itself {block : Nat → Entry Nat} (hprev : (block n).pprev = some n)
    (hheight : (block n).height = 1) (hskip : (block n).pskip = none) :
    getAncestor block n 0 = .ok (some n) := by
  simp [getAncestor, loop, getAncestorTurn, hprev, hheight, hskip]

/-- Linking changes the new entry alone, and it hangs on the others. -/
theorem linkPrev_hangs (h : Linked s)
    (hnew : s.mapBlockIndex.lookup (getHash sha256 header) = none) :
    ∃ pprev pskip height,
      linkPrev getAncestor (allocate sha256 s header) s.allocated header.prevBlockHash =
        .ok ((allocate sha256 s header).set s.allocated fun e =>
          { e with pprev, pskip, height }) ∧
      Hangs ((allocate sha256 s header).set s.allocated fun e =>
          { e with pprev, pskip, height }).block s.allocated := by
  have hold : ∀ (f : Entry Nat → Entry Nat), ∀ q < s.allocated,
      ((allocate sha256 s header).set s.allocated f).block q = s.block q := fun f q hq =>
    allocate_set_block f hq
  rw [linkPrev]
  by_cases hself : header.prevBlockHash = getHash sha256 header
  · -- the entry is the only one of its hash, and finds itself
    rw [hself, allocate, AList.lookup_insert, ← allocate]
    dsimp only
    rw [State.set_set]
    refine ⟨some s.allocated, some s.allocated, 1, ?_, .itself ?_ ?_ ?_ ?_ ?_⟩
    · rw [@buildSkip_ok _ _ s.allocated (some s.allocated)]
      · rw [State.set_set]
        simp only [State.set_block_self, allocate_block_self]
      · rw [State.set_block_self]
      · have hzero : toSize (getSkipHeight 1) = 0 := by decide
        simp only [State.set_block_self, allocate_block_self, Nat.zero_add, hzero]
        apply getAncestor_itself <;> rw [State.set_block_self, allocate_block_self]
    · rw [State.set_block_self, allocate_block_self]
      exact hself.symm
    · intro q hq hhash
      rw [hold _ q hq, State.set_block_self, allocate_block_self] at hhash
      have hfound := (h.lookup_iff _ q).mpr ⟨hq, hhash.trans hself⟩
      rw [hnew] at hfound
      cases hfound
    all_goals rw [State.set_block_self]
  rw [allocate, AList.lookup_insert_ne hself, ← allocate]
  cases hlookup : s.mapBlockIndex.lookup header.prevBlockHash with
  | some pprev =>
    rcases (h.lookup_iff _ _).mp hlookup with ⟨hpprev, hhash⟩
    have hanc : ∀ (f : Entry Nat → Entry Nat) (k : Nat),
        ancestorAt ((allocate sha256 s header).set s.allocated f).block pprev k =
          ancestorAt s.block pprev k := fun f k =>
      ancestorAt_congr h.hangs (fun p hp => congrArg links (hold f p hp)) hpprev k
    have hhangs : ∀ (f : Entry Nat → Entry Nat), ∀ q < s.allocated,
        Hangs ((allocate sha256 s header).set s.allocated f).block q := fun f q hq =>
      .congr (fun r hr => h.hangs r (hr.trans hq))
        (fun r hr => congrArg links (hold f r (hr.trans_lt hq))) (h.hangs q hq)
    dsimp only
    rw [State.set_set]
    refine ⟨some pprev,
      ancestorAt s.block pprev (toSize (getSkipHeight ((s.block pprev).height + 1))),
      (s.block pprev).height + 1, ?_, .child pprev hpprev ?_ ?_ ?_ ?_⟩
    · rw [@buildSkip_ok _ _ pprev
        (ancestorAt s.block pprev (toSize (getSkipHeight ((s.block pprev).height + 1))))]
      · rw [State.set_set, hold _ _ hpprev]
      · rw [State.set_block_self]
      · rw [State.set_block_self, hold _ _ hpprev,
          (graded_of_hangs (hhangs _)).getAncestor_eq hpprev, hanc]
    · rw [hold _ _ hpprev, State.set_block_self, allocate_block_self, hhash]
    · rw [State.set_block_self]
    · rw [State.set_block_self, hold _ _ hpprev]
    · rw [State.set_block_self, hanc]
  | none =>
    refine ⟨none, none, 0, ?_, .root ?_ ?_ ?_ ?_⟩
    · have hunchanged : (allocate sha256 s header).set s.allocated (fun e =>
          { e with pprev := none, pskip := none, height := 0 }) =
            (allocate sha256 s header).set s.allocated fun e => e := by
        rw [State.set, State.set, allocate_block_self]
      rw [hunchanged, State.set_id]
      rfl
    · intro q hq hhash
      rw [State.set_block_self, allocate_block_self] at hhash
      rcases hq.lt_or_eq with hlt | rfl
      · rw [hold _ q hlt] at hhash
        have hfound := (h.lookup_iff _ q).mpr ⟨hlt, hhash⟩
        rw [hlookup] at hfound
        cases hfound
      · rw [State.set_block_self, allocate_block_self] at hhash
        exact hself hhash.symm
    all_goals rw [State.set_block_self]

/-- What a header adds that was not there. -/
structure Added (sha256 : List Byte → Hash256) (s s' : State) (header : BlockHeader) : Prop where
  allocated : s'.allocated = s.allocated + 1
  mapBlockIndex : s'.mapBlockIndex =
    s.mapBlockIndex.insert (getHash sha256 header) s.allocated
  same : ∀ p ≠ s.allocated, s'.block p = s.block p
  header_new : (s'.block s.allocated).header = header
  hash_new : (s'.block s.allocated).blockHash = getHash sha256 header
  hangs : Hangs s'.block s.allocated
  works : Works s'.block s.allocated
  best : s'.pindexBestHeader =
    if beatsBest { s' with pindexBestHeader := s.pindexBestHeader } s.allocated then
      some s.allocated
    else s.pindexBestHeader

theorem addToBlockIndex_adds (h : Linked s)
    (hnew : s.mapBlockIndex.lookup (getHash sha256 header) = none) :
    ∃ s', addToBlockIndex getAncestor sha256 s header = .ok (s.allocated, s') ∧
      Added sha256 s s' header := by
  rcases linkPrev_hangs h hnew with ⟨pprev, pskip, height, hlink, hhangs⟩
  rcases getBlockProof_some header with ⟨proof, hproof⟩
  have hraise (e : Entry Nat) := raiseValidity_ok e
    (show kBlockValidTree &&& ~~~kBlockValidMask = 0 by decide)
  choose changed status hraise using hraise
  rw [addToBlockIndex, hnew]
  simp only [hlink, hproof, Option.elim, State.set_set, State.set_block_self, bind, Except.bind,
    hraise]
  refine ⟨_, rfl, rfl, rfl, ?_, ?_, ?_, ?_, ?_, rfl⟩ <;> dsimp only
  · intro p hp
    rw [State.set_block_ne hp, allocate_block_ne hp]
  · rw [State.set_block_self, allocate_block_self]
  · rw [State.set_block_self, allocate_block_self]
  · refine hhangs.congr ?_ ?_
    · intro q hq
      refine .congr (fun r hr => h.hangs r (hr.trans hq)) (fun r hr => ?_) (h.hangs q hq)
      rw [allocate_set_block _ (hr.trans_lt hq)]
    · intro q hq
      rcases hq.lt_or_eq with hlt | rfl
      · rw [allocate_set_block _ hlt, allocate_set_block _ hlt]
      · rw [State.set_block_self, State.set_block_self]
        rfl
  · refine ⟨proof, ?_, ?_⟩
    · rw [State.set_block_self, allocate_block_self]
      exact hproof
    · -- what an entry that continues itself has before its work is set is 0
      rw [workBefore, State.set_block_self, prevWork, State.set_block_self]
      cases pprev with
      | none => rfl
      | some q =>
        dsimp only
        split_ifs with hself
        · rw [hself, State.set_block_self, allocate_block_self]
        · rw [State.set_block_ne hself, State.set_block_ne hself]

variable {s' : State}

theorem Works.congr {block block' : Nat → Entry Nat} {p : Nat} (hprev : ∀ q,
    (block p).pprev = some q → block' q = block q) (hsame : block' p = block p)
    (h : Works block p) : Works block' p := by
  rcases h with ⟨proof, hproof, hwork⟩
  refine ⟨proof, by rw [hsame, hproof], ?_⟩
  rw [hsame, hwork, workBefore, workBefore, hsame]
  cases hpprev : (block p).pprev with
  | none => rfl
  | some q =>
    dsimp only
    rw [hprev q hpprev]

theorem Added.linked (hadded : Added sha256 s s' header) (h : Linked s)
    (hnew : s.mapBlockIndex.lookup (getHash sha256 header) = none) : Linked s' := by
  have hold : ∀ p < s.allocated, s'.block p = s.block p := fun p hp => hadded.same p hp.ne
  refine ⟨?_, ?_, ?_⟩
  · intro k p
    rw [hadded.mapBlockIndex, hadded.allocated]
    by_cases hk : k = getHash sha256 header
    · rw [hk, AList.lookup_insert]
      constructor
      · rintro ⟨⟩
        exact ⟨Nat.lt_succ_self _, hadded.hash_new⟩
      · rintro ⟨hp, hhash⟩
        rcases (Nat.lt_succ_iff.mp hp).lt_or_eq with hlt | rfl
        · rw [hold p hlt] at hhash
          have hfound := (h.lookup_iff _ p).mpr ⟨hlt, hhash⟩
          rw [hnew] at hfound
          cases hfound
        · rfl
    · rw [AList.lookup_insert_ne hk, h.lookup_iff]
      constructor
      · rintro ⟨hp, hhash⟩
        exact ⟨hp.trans (Nat.lt_succ_self _), by rw [hold p hp, hhash]⟩
      · rintro ⟨hp, hhash⟩
        rcases (Nat.lt_succ_iff.mp hp).lt_or_eq with hlt | rfl
        · exact ⟨hlt, by rw [← hold p hlt, hhash]⟩
        · exact absurd (hhash.symm.trans hadded.hash_new) hk
  · intro p hp
    rw [hadded.allocated] at hp
    rcases (Nat.lt_succ_iff.mp hp).lt_or_eq with hlt | rfl
    · exact .congr (fun q hq => h.hangs q (hq.trans hlt))
        (fun q hq => congrArg links (hold q (hq.trans_lt hlt))) (h.hangs p hlt)
    · exact hadded.hangs
  · intro p hp
    rw [hadded.allocated] at hp
    rcases (Nat.lt_succ_iff.mp hp).lt_or_eq with hlt | rfl
    · refine (h.works p hlt).congr (fun q hq => ?_) (hold p hlt)
      exact hold q (((h.hangs p hlt).pprev_le hq).trans_lt hlt)
    · exact hadded.works

/-- The best header has the most work, and of those that have it came first. -/
def IsBest (s : State) : Prop :=
  match s.pindexBestHeader with
  | none => s.allocated = 0
  | some best => best < s.allocated ∧ ∀ p < s.allocated,
      (s.block p).chainWork ≤ (s.block best).chainWork ∧
        (p < best → (s.block p).chainWork < (s.block best).chainWork)

theorem Added.isBest (hadded : Added sha256 s s' header) (h : IsBest s) : IsBest s' := by
  have hold : ∀ p < s.allocated, s'.block p = s.block p := fun p hp => hadded.same p hp.ne
  have hbest := hadded.best
  rw [IsBest] at h
  cases hprev : s.pindexBestHeader with
  | none =>
    rw [hprev] at h hbest
    dsimp only at h
    have hfirst : s'.pindexBestHeader = some s.allocated := hbest
    rw [IsBest, hfirst, hadded.allocated, h]
    refine ⟨by omega, fun p hp => ?_⟩
    obtain rfl : p = 0 := by omega
    exact ⟨BitVec.le_refl _, fun hlt => absurd hlt (Nat.lt_irrefl _)⟩
  | some best =>
    rw [hprev] at h hbest
    rcases h with ⟨hlt, hmax⟩
    simp only [beatsBest, decide_eq_true_eq] at hbest
    rw [IsBest, hbest, hadded.allocated]
    split_ifs with hbeats
    · refine ⟨Nat.lt_succ_self _, fun p hp => ?_⟩
      rcases (Nat.lt_succ_iff.mp hp).lt_or_eq with hp | rfl
      · have hless : (s'.block p).chainWork < (s'.block s.allocated).chainWork := by
          refine BitVec.lt_def.mpr (Nat.lt_of_le_of_lt ?_ (BitVec.lt_def.mp hbeats))
          rw [hold p hp, hold best hlt]
          exact BitVec.le_def.mp (hmax p hp).1
        exact ⟨BitVec.le_of_lt hless, fun _ => hless⟩
      · exact ⟨BitVec.le_refl _, fun hlt => absurd hlt (Nat.lt_irrefl _)⟩
    · refine ⟨hlt.trans (Nat.lt_succ_self _), fun p hp => ?_⟩
      rcases (Nat.lt_succ_iff.mp hp).lt_or_eq with hp | rfl
      · rw [hold p hp, hold best hlt]
        exact hmax p hp
      · exact ⟨BitVec.not_lt.mp hbeats, fun hless => absurd hless (by omega)⟩

end Adding

section Runs

variable (sha256 : List Byte → Hash256)

/-- The entries are of these headers, and every one of these has an entry. -/
structure Covers (headers : List BlockHeader) (s : State) : Prop where
  header : ∀ p < s.allocated, (s.block p).header ∈ headers ∧
    (s.block p).blockHash = getHash sha256 (s.block p).header
  found : ∀ header ∈ headers, ∃ p, s.mapBlockIndex.lookup (getHash sha256 header) = some p

/-- The index of some headers. -/
structure Indexes (headers : List BlockHeader) (s : State) : Prop where
  keys : s.mapBlockIndex.keys.Perm (headers.map (getHash sha256)).dedup
  entry : ∀ k p, s.mapBlockIndex.lookup k = some p ↔
    p < s.allocated ∧ (s.block p).blockHash = k
  header : ∀ p < s.allocated, (s.block p).header ∈ headers ∧
    (s.block p).blockHash = getHash sha256 (s.block p).header
  repeated : ∀ header ∈ headers, ∃ p,
    s.mapBlockIndex.lookup (getHash sha256 header) = some p ∧
      addToBlockIndex getAncestor sha256 s header = .ok (p, s)
  child : ∀ p < s.allocated, ∀ q < p,
    (s.block q).blockHash = (s.block p).header.prevBlockHash →
      (s.block p).pprev = some q ∧ (s.block p).height = (s.block q).height + 1 ∧
        (s.block p).pskip =
          ancestorAt s.block q (toSize (getSkipHeight (s.block p).height)) ∧
        ∃ proof, getBlockProof (s.block p).header = some proof ∧
          (s.block p).chainWork = (s.block q).chainWork + proof
  root : ∀ p < s.allocated,
    (∀ q ≤ p, (s.block q).blockHash ≠ (s.block p).header.prevBlockHash) →
      (s.block p).pprev = none ∧ (s.block p).height = 0 ∧ (s.block p).pskip = none ∧
        getBlockProof (s.block p).header = some (s.block p).chainWork
  best : IsBest s

variable {sha256} {headers : List BlockHeader} {s : State}

theorem Linked.unique (h : Linked s) {p q : Nat} (hp : p < s.allocated) (hq : q < s.allocated)
    (hhash : (s.block p).blockHash = (s.block q).blockHash) : p = q := by
  have hfound := (h.lookup_iff _ p).mpr ⟨hp, hhash⟩
  rw [(h.lookup_iff _ q).mpr ⟨hq, rfl⟩] at hfound
  exact (Option.some.inj hfound).symm

theorem indexes_of (h : Linked s) (hbest : IsBest s) (hcovers : Covers sha256 headers s) :
    Indexes sha256 headers s where
  keys := by
    refine (List.perm_ext_iff_of_nodup (AList.keys_nodup _) (List.nodup_dedup _)).mpr fun k => ?_
    rw [List.mem_dedup, List.mem_map]
    constructor
    · intro hk
      rcases Option.isSome_iff_exists.mp (AList.lookup_isSome.mpr hk) with ⟨p, hp⟩
      rcases (h.lookup_iff k p).mp hp with ⟨hlt, hhash⟩
      rcases hcovers.header p hlt with ⟨hmem, hheader⟩
      exact ⟨_, hmem, hheader.symm.trans hhash⟩
    · rintro ⟨header, hmem, rfl⟩
      rcases hcovers.found header hmem with ⟨p, hp⟩
      exact AList.lookup_isSome.mp (Option.isSome_iff_exists.mpr ⟨p, hp⟩)
  entry := h.lookup_iff
  header := hcovers.header
  repeated header hmem := by
    rcases hcovers.found header hmem with ⟨p, hp⟩
    refine ⟨p, hp, ?_⟩
    rw [addToBlockIndex, hp]
    rfl
  child p hp q hq hhash := by
    cases h.hangs p hp with
    | child r before hash pprev height pskip =>
      obtain rfl : r = q := h.unique (before.trans hp) (hq.trans hp) (hash.trans hhash.symm)
      refine ⟨pprev, height, pskip, ?_⟩
      rcases h.works p hp with ⟨proof, hproof, hwork⟩
      refine ⟨proof, hproof, ?_⟩
      rw [hwork, workBefore, pprev]
      dsimp only
      rw [if_neg before.ne]
    | itself _ others => exact absurd hhash (others q hq)
    | root hash => exact absurd hhash (hash q hq.le)
  root p hp hnone := by
    cases h.hangs p hp with
    | child q before hash => exact absurd hash (hnone q before.le)
    | itself hash => exact absurd hash (hnone p (Nat.le_refl _))
    | root _ pprev height pskip =>
      rcases h.works p hp with ⟨proof, hproof, hwork⟩
      refine ⟨pprev, height, pskip, ?_⟩
      rw [hwork, hproof, workBefore, pprev]
      exact congrArg some (BitVec.zero_add proof).symm
  best := hbest

/-- Headers are never refused, and all of them are linked. -/
theorem addAll_linked (sha256 : List Byte → Hash256) (headers : List BlockHeader) :
    ∃ s, addAll getAncestor sha256 headers = .ok s ∧ Linked s ∧ IsBest s ∧
      Covers sha256 headers s := by
  refine foldlM_total (I := fun done s => Linked s ∧ IsBest s ∧ Covers sha256 done s) ?_ ?_
  · rintro done header - s - ⟨hlinked, hbest, hcovers⟩
    cases hlookup : s.mapBlockIndex.lookup (getHash sha256 header) with
    | some p =>
      refine ⟨s, ?_, hlinked, hbest, ?_, ?_⟩
      · rw [addToBlockIndex, hlookup]
        rfl
      · intro q hq
        rcases hcovers.header q hq with ⟨hmem, hheader⟩
        exact ⟨List.mem_append_left _ hmem, hheader⟩
      · intro other hmem
        rcases List.mem_append.mp hmem with hmem | hmem
        · exact hcovers.found other hmem
        · obtain rfl : other = header := by simpa using hmem
          exact ⟨p, hlookup⟩
    | none =>
      rcases addToBlockIndex_adds hlinked hlookup with ⟨s', hadd, hadded⟩
      have hlinked' := hadded.linked hlinked hlookup
      refine ⟨s', by rw [hadd]; rfl, hlinked', hadded.isBest hbest, ?_, ?_⟩
      · intro q hq
        rw [hadded.allocated] at hq
        rcases (Nat.lt_succ_iff.mp hq).lt_or_eq with hlt | rfl
        · rw [hadded.same q hlt.ne]
          rcases hcovers.header q hlt with ⟨hmem, hheader⟩
          exact ⟨List.mem_append_left _ hmem, hheader⟩
        · rw [hadded.hash_new, hadded.header_new]
          exact ⟨List.mem_append_right _ (List.mem_singleton_self _), rfl⟩
      · intro other hmem
        rw [hadded.mapBlockIndex]
        by_cases hsame : getHash sha256 other = getHash sha256 header
        · exact ⟨s.allocated, by rw [hsame, AList.lookup_insert]⟩
        · rw [AList.lookup_insert_ne hsame]
          rcases List.mem_append.mp hmem with hmem | hmem
          · exact hcovers.found other hmem
          · obtain rfl : other = header := by simpa using hmem
            exact absurd rfl hsame
  · refine ⟨⟨?_, ?_, ?_⟩, rfl, ?_, ?_⟩
    · intro k p
      constructor
      · intro hlookup
        cases hlookup
      · rintro ⟨hp, -⟩
        exact absurd hp (Nat.not_lt_zero p)
    all_goals
      intro p hp
      cases hp

/-- Any headers, in any order, and any number of times. -/
theorem addAll_indexes (sha256 : List Byte → Hash256) (headers : List BlockHeader) :
    ∃ s, addAll getAncestor sha256 headers = .ok s ∧ Indexes sha256 headers s := by
  rcases addAll_linked sha256 headers with ⟨s, hrun, hlinked, hbest, hcovers⟩
  exact ⟨s, hrun, indexes_of hlinked hbest hcovers⟩

end Runs

end HeaderIndex
