import Btclite.Consensus.HashCache
import Btclite.Library.Indexes
import Btclite.Library.Loops
import Btclite.Library.SortedSets
import Mathlib.Data.List.Lex

/-!
# Orphans

The pool of orphan transactions of `block_sync.h`: a map by transaction hash,
and for each output that some of them spend the set of iterators to those. An
iterator is the place of its entry, and to follow one whose entry is gone is a
fault. The outputs are told apart by their hash and index.
-/

namespace Orphans

open Serialize Transactions HashCache Indexes Loops SortedSets

abbrev NodeId := Int

def kBrphanTxExpireTime : Int := 20 * 60

def kOrphanTxExpireInterval : Int := 5 * 60

structure OrphanTx where
  tx : Object
  fromPeer : NodeId
  timeExpire : Int

/-- An entry of the map, by where it lives. -/
structure Entry where
  place : Nat
  hash : Hash256
  orphan : OrphanTx

/-- `operator<` of `std::array`. -/
def hashLess (a b : Hash256) : Bool :=
  decide (a.data.map BitVec.toNat < b.data.map BitVec.toNat)

/-- A `std::map`, its entries in the order of their keys. -/
structure MapOrphanTxs where
  entries : List Entry
  sorted : Sorted hashLess (entries.map Entry.hash)
  places : (entries.map Entry.place).Nodup

namespace MapOrphanTxs

variable (map : MapOrphanTxs)

def begin : Option Nat := map.entries.head?.map Entry.place

/-- The entries from an iterator on. -/
def since (place : Nat) : List Entry := map.entries.dropWhile (·.place ≠ place)

/-- The entry of an iterator, and the iterator after it. -/
def advance (place : Nat) : Option (Entry × Option Nat) :=
  match map.since place with
  | [] => none
  | e :: rest => some (e, rest.head?.map Entry.place)

def find (hash : Hash256) : Option Entry := map.entries.find? (·.hash = hash)

def lowerBound (hash : Hash256) : Option Entry := map.entries.find? fun e => !hashLess e.hash hash

def erase (place : Nat) : MapOrphanTxs where
  entries := map.entries.filter (·.place ≠ place)
  sorted := map.sorted.sublist ((List.filter_sublist).map _)
  places := map.places.sublist ((List.filter_sublist).map _)

def size : Nat := map.entries.length

end MapOrphanTxs

abbrev MapPrevOrphanTxs := AList fun _ : OutPoint => Finset Nat

structure Pool where
  mapOrphanTxs : MapOrphanTxs
  mapPrevOrphanTxs : MapPrevOrphanTxs

inductive Fault where
  | dangling
  | endless

section Source

variable (sha256 : List Endian.Byte → Hash256)

/-- `tx->GetHash()`. The object may cache it, which changes no later call. -/
def OrphanTx.getHash (o : OrphanTx) : Hash256 := (o.tx.getHash sha256).1

/-- What is done for one input: the iterators of the set are compared by what they point at. -/
def erasePrev (map : MapOrphanTxs) (it : Nat) (prev : MapPrevOrphanTxs) (txin : TxIn) :
    Except Fault MapPrevOrphanTxs :=
  match prev.lookup txin.prevout with
  | none => .ok prev
  | some its =>
    if ∀ other ∈ its, (map.advance other).isSome then .ok (dropPlace it txin.prevout prev)
    else .error .dangling

def eraseOrphanTx (hash : Hash256) (pool : Pool) : Except Fault (Nat × Pool) :=
  match pool.mapOrphanTxs.find hash with
  | none => .ok (0, pool)
  | some e =>
    match e.orphan.tx.inputs.foldlM (erasePrev pool.mapOrphanTxs e.place) pool.mapPrevOrphanTxs with
    | .error fault => .error fault
    | .ok prev => .ok (1, ⟨pool.mapOrphanTxs.erase e.place, prev⟩)

/-- A loop over the map that erases some of the entries and takes account of the others. -/
structure Sweep (A : Type) where
  it : Option Nat
  erasedCount : Nat
  kept : A
  pool : Pool

variable {A : Type}

def sweepTurn (erases : OrphanTx → Bool) (keep : A → OrphanTx → A) (s : Sweep A) :
    Except Fault (Turn (Sweep A) (Sweep A)) :=
  match s.it with
  | none => .ok (.leave s)
  | some place =>
    match s.pool.mapOrphanTxs.advance place with
    | none => .error .dangling
    | some (e, next) =>
      if erases e.orphan then
        match eraseOrphanTx (e.orphan.getHash sha256) s.pool with
        | .error fault => .error fault
        | .ok (erased, pool) =>
          .ok (.again { s with it := next, erasedCount := s.erasedCount + erased, pool })
      else .ok (.again { s with it := next, kept := keep s.kept e.orphan })

def sweep (erases : OrphanTx → Bool) (keep : A → OrphanTx → A) (kept : A) (pool : Pool) :
    Except Fault (Sweep A) :=
  loop .endless (sweepTurn sha256 erases keep) (pool.mapOrphanTxs.size + 1)
    ⟨pool.mapOrphanTxs.begin, 0, kept, pool⟩

/-- The number erased, which is logged, and the pool. -/
def eraseOrphansFor (id : NodeId) (pool : Pool) : Except Fault (Nat × Pool) :=
  match sweep sha256 (·.fromPeer = id) (fun _ _ => ()) () pool with
  | .error fault => .error fault
  | .ok s => .ok (s.erasedCount, s.pool)

/-- The pool with the static `next_sweep`. -/
structure State where
  pool : Pool
  nextSweep : Int := 0

/-- The first part of `LimitOrphanTxSize`. -/
def sweepExpired (now : Int) (s : State) : Except Fault State :=
  if s.nextSweep ≤ now then
    match sweep sha256 (·.timeExpire ≤ now) (fun minExpireTime o => min o.timeExpire minExpireTime)
        (now + kBrphanTxExpireTime - kOrphanTxExpireInterval) s.pool with
    | .error fault => .error fault
    | .ok r => .ok { pool := r.pool, nextSweep := r.kept + kOrphanTxExpireInterval }
  else .ok s

structure Eviction where
  pool : Pool
  evictedCount : U32
  random : Nat → Hash256

def evictTurn (maxOrphans : U32) (s : Eviction) : Except Fault (Turn Eviction Eviction) :=
  if maxOrphans.toNat < s.pool.mapOrphanTxs.size then
    match (s.pool.mapOrphanTxs.lowerBound (s.random 0)).or s.pool.mapOrphanTxs.entries.head? with
    | none => .error .dangling
    | some e =>
      match eraseOrphanTx e.hash s.pool with
      | .error fault => .error fault
      | .ok (_, pool) =>
        .ok (.again ⟨pool, s.evictedCount + 1, fun i => s.random (i + 1)⟩)
  else .ok (.leave s)

/-- The second part of `LimitOrphanTxSize`; `random` is what `RandHash256` returns. -/
def evict (maxOrphans : U32) (random : Nat → Hash256) (pool : Pool) : Except Fault Eviction :=
  loop .endless (evictTurn maxOrphans) (pool.mapOrphanTxs.size + 1) ⟨pool, 0, random⟩

def limitOrphanTxSize (maxOrphans : U32) (now : Int) (random : Nat → Hash256) (s : State) :
    Except Fault (U32 × State) :=
  match sweepExpired sha256 now s with
  | .error fault => .error fault
  | .ok s =>
    match evict maxOrphans random s.pool with
    | .error fault => .error fault
    | .ok r => .ok (r.evictedCount, { s with pool := r.pool })

inductive Op where
  | eraseOrphansFor (id : NodeId)
  | limitOrphanTxSize (maxOrphans : U32) (now : Int) (random : Nat → Hash256)

def step (s : State) : Op → Except Fault State
  | .eraseOrphansFor id =>
    match eraseOrphansFor sha256 id s.pool with
    | .error fault => .error fault
    | .ok (_, pool) => .ok { s with pool }
  | .limitOrphanTxSize maxOrphans now random =>
    match limitOrphanTxSize sha256 maxOrphans now random s with
    | .error fault => .error fault
    | .ok (_, s) => .ok s

end Source

section Coherence

def Entry.spends (e : Entry) (o : OutPoint) : Prop := ∃ txin ∈ e.orphan.tx.inputs, txin.prevout = o

instance (e : Entry) (o : OutPoint) : Decidable (e.spends o) :=
  inferInstanceAs (Decidable (∃ txin ∈ e.orphan.tx.inputs, txin.prevout = o))

/-- The places of the entries that spend an output. -/
def spenders (entries : List Entry) (o : OutPoint) : Finset Nat :=
  ((entries.filter (·.spends o)).map Entry.place).toFinset

structure Coherent (sha256 : List Endian.Byte → Hash256) (pool : Pool) : Prop where
  hashes : ∀ e ∈ pool.mapOrphanTxs.entries, e.orphan.getHash sha256 = e.hash
  index : ∀ o, pool.mapPrevOrphanTxs.lookup o = entry (spenders pool.mapOrphanTxs.entries o)

end Coherence

section Places

theorem hashLess_strictTotal : StrictTotal hashLess := by
  have hinj : Function.Injective fun a : Hash256 => a.data.map BitVec.toNat :=
    fun _ _ h => Bytes.ext (List.map_injective_iff.mpr (fun _ _ => BitVec.eq_of_toNat_eq) h)
  exact StrictTotal.of_rank hinj fun _ _ => decide_eq_true_iff

variable {map : MapOrphanTxs} {e other : Entry} {before after : List Entry} {place : Nat}

theorem find_entry (h : e ∈ map.entries) : map.find e.hash = some e := by
  have hnodup := map.sorted.nodup hashLess_strictTotal
  obtain ⟨before, after, hsplit⟩ := List.append_of_mem h
  rw [hsplit, List.map_append, List.map_cons, List.nodup_middle] at hnodup
  rw [MapOrphanTxs.find, hsplit, List.find?_append, List.find?_eq_none.mpr, List.find?_cons_of_pos]
  · rfl
  · simp
  · intro other hother heq
    rw [← of_decide_eq_true heq] at hnodup
    exact (List.nodup_cons.mp hnodup).1 (List.mem_append_left _ (List.mem_map_of_mem hother))

theorem other_place (h : map.entries = before ++ e :: after) (hother : other ∈ before ++ after) :
    other.place ≠ e.place := by
  have hnodup := map.places
  rw [h, List.map_append, List.map_cons, List.nodup_middle, ← List.map_append] at hnodup
  intro heq
  exact (List.nodup_cons.mp hnodup).1 (heq ▸ List.mem_map_of_mem hother)

theorem since_entry (h : map.entries = before ++ e :: after) :
    map.since e.place = e :: after := by
  have hbefore : ∀ other ∈ before, decide (other.place ≠ e.place) = true :=
    fun other hother => decide_eq_true (other_place h (List.mem_append_left _ hother))
  rw [MapOrphanTxs.since, h, List.dropWhile_append_of_pos hbefore, List.dropWhile_cons_of_neg]
  simp

theorem advance_entry (h : map.entries = before ++ e :: after) :
    map.advance e.place = some (e, after.head?.map Entry.place) := by
  rw [MapOrphanTxs.advance, since_entry h]

theorem erase_entry (h : map.entries = before ++ e :: after) :
    (map.erase e.place).entries = before ++ after := by
  have hothers (l : List Entry) (hl : l ⊆ before ++ after) : l.filter (·.place ≠ e.place) = l :=
    List.filter_eq_self.mpr fun other hother => decide_eq_true (other_place h (hl hother))
  rw [MapOrphanTxs.erase]
  dsimp only
  rw [h, List.filter_append, List.filter_cons_of_neg (by simp),
    hothers before (List.subset_append_left _ _), hothers after (List.subset_append_right _ _)]

end Places

section Erasing

variable {sha256 : List Endian.Byte → Hash256} {pool : Pool} {map : MapOrphanTxs} {e : Entry}
  {o : OutPoint} {place : Nat} {entries : List Entry}

theorem mem_spenders :
    place ∈ spenders entries o ↔ ∃ e ∈ entries, e.spends o ∧ e.place = place := by
  simp only [spenders, List.mem_toFinset, List.mem_map, List.mem_filter, decide_eq_true_eq,
    and_assoc]

theorem spenders_filter (place : Nat) (entries : List Entry) (o : OutPoint) :
    spenders (entries.filter (·.place ≠ place)) o = (spenders entries o).erase place := by
  ext other
  simp only [mem_spenders, Finset.mem_erase, List.mem_filter, decide_eq_true_eq]
  constructor
  · rintro ⟨e, ⟨he, hne⟩, hspends, rfl⟩
    exact ⟨hne, e, he, hspends, rfl⟩
  · rintro ⟨hne, e, he, hspends, rfl⟩
    exact ⟨e, ⟨he, hne⟩, hspends, rfl⟩

theorem live_of_mem_spenders (h : place ∈ spenders map.entries o) :
    (map.advance place).isSome := by
  obtain ⟨e, he, -, rfl⟩ := mem_spenders.mp h
  obtain ⟨before, after, hsplit⟩ := List.append_of_mem he
  rw [advance_entry hsplit]
  rfl

/-- No set of the index holds an iterator whose entry is gone. -/
theorem Coherent.live (h : Coherent sha256 pool) {its : Finset Nat}
    (hits : pool.mapPrevOrphanTxs.lookup o = some its) (hplace : place ∈ its) :
    ∃ e ∈ pool.mapOrphanTxs.entries, e.spends o ∧ e.place = place := by
  rw [h.index] at hits
  obtain ⟨rfl, -⟩ := entry_eq_some.mp hits
  exact mem_spenders.mp hplace

theorem erasePrev_run {prev : MapPrevOrphanTxs} {txin : TxIn} {its : Finset Nat}
    (hprev : prev.lookup txin.prevout = entry its)
    (hits : its ⊆ spenders map.entries txin.prevout) (place : Nat) :
    erasePrev map place prev txin = .ok (dropPlace place txin.prevout prev) := by
  rw [erasePrev]
  cases hlookup : prev.lookup txin.prevout with
  | none => rw [dropPlace, hlookup]
  | some found =>
    obtain ⟨rfl, -⟩ := entry_eq_some.mp (hprev.symm.trans hlookup)
    exact if_pos fun other hother => live_of_mem_spenders (hits hother)

/-- The iterators left under each output when some inputs of a transaction are done. -/
def left (entries : List Entry) (place : Nat) (done : List TxIn) (o : OutPoint) : Finset Nat :=
  if ∃ txin ∈ done, txin.prevout = o then (spenders entries o).erase place else spenders entries o

theorem left_subset (done : List TxIn) : left entries place done o ⊆ spenders entries o := by
  rw [left]
  split_ifs
  · exact Finset.erase_subset _ _
  · exact Finset.Subset.refl _

theorem left_concat_self (done : List TxIn) (txin : TxIn) :
    left entries place (done ++ [txin]) txin.prevout =
      (left entries place done txin.prevout).erase place := by
  rw [left, if_pos ⟨txin, by simp, rfl⟩, left]
  split_ifs
  · exact (Finset.erase_idem).symm
  · rfl

theorem left_concat_of_ne {done : List TxIn} {txin : TxIn} (h : o ≠ txin.prevout) :
    left entries place (done ++ [txin]) o = left entries place done o := by
  have hiff : (∃ other ∈ done ++ [txin], other.prevout = o) ↔
      ∃ other ∈ done, other.prevout = o := by
    simp [h.symm]
  simp only [left, hiff]

/-- An entry that is erased by its hash takes its iterators along. -/
theorem eraseOrphanTx_run (h : Coherent sha256 pool) (he : e ∈ pool.mapOrphanTxs.entries) :
    ∃ prev, eraseOrphanTx e.hash pool = .ok (1, ⟨pool.mapOrphanTxs.erase e.place, prev⟩) ∧
      Coherent sha256 ⟨pool.mapOrphanTxs.erase e.place, prev⟩ := by
  let all := e.orphan.tx.inputs
  have hfold : ∃ prev, all.foldlM (erasePrev pool.mapOrphanTxs e.place) pool.mapPrevOrphanTxs =
      .ok prev ∧ ∀ o, prev.lookup o = entry (left pool.mapOrphanTxs.entries e.place all o) := by
    refine foldlM_total (I := fun done (prev : MapPrevOrphanTxs) => ∀ o,
      prev.lookup o = entry (left pool.mapOrphanTxs.entries e.place done o)) ?_ ?_
    · intro done txin rest prev _ hprev
      refine ⟨_, erasePrev_run (hprev txin.prevout) (left_subset done) e.place, fun o => ?_⟩
      by_cases ho : o = txin.prevout
      · subst ho
        rw [lookup_dropPlace_self (hprev txin.prevout), left_concat_self]
      · rw [lookup_dropPlace_of_ne ho, hprev o, left_concat_of_ne ho]
    · intro o
      rw [h.index o, left, if_neg (by simp)]
  obtain ⟨prev, hrun, hprev⟩ := hfold
  refine ⟨prev, ?_, ?_, fun o => ?_⟩
  · rw [eraseOrphanTx, find_entry he]
    dsimp only
    rw [hrun]
  · exact fun other hother => h.hashes other (List.mem_of_mem_filter hother)
  · rw [hprev o, left]
    change _ = entry (spenders (pool.mapOrphanTxs.entries.filter (·.place ≠ e.place)) o)
    rw [spenders_filter]
    split_ifs with hspends
    · rfl
    · -- the entry was not there
      rw [Finset.erase_eq_of_notMem]
      intro hplace
      obtain ⟨other, hother, hspends', hsame⟩ := mem_spenders.mp hplace
      obtain rfl : other = e := List.inj_on_of_nodup_map pool.mapOrphanTxs.places hother he hsame
      exact hspends hspends'

end Erasing

section Sweeping

variable {sha256 : List Endian.Byte → Hash256} {A : Type} {erases : OrphanTx → Bool}
  {keep : A → OrphanTx → A} {kept : A} {pool : Pool} {s : Sweep A}

/-- The loop has passed some of the entries and left those of them that it keeps. -/
structure Sweeping (sha256 : List Endian.Byte → Hash256) (erases : OrphanTx → Bool)
    (keep : A → OrphanTx → A) (kept : A) (done rest : List Entry) (s : Sweep A) : Prop where
  coherent : Coherent sha256 s.pool
  entries : s.pool.mapOrphanTxs.entries = done.filter (!erases ·.orphan) ++ rest
  it : s.it = rest.head?.map Entry.place
  erasedCount : s.erasedCount = done.countP (erases ·.orphan)
  kept : s.kept = (done.filter (!erases ·.orphan)).foldl (fun kept e => keep kept e.orphan) kept

theorem Sweeping.turn {done rest : List Entry} {e : Entry}
    (h : Sweeping sha256 erases keep kept done (e :: rest) s) :
    ∃ s', sweepTurn sha256 erases keep s = .ok (.again s') ∧
      Sweeping sha256 erases keep kept (done ++ [e]) rest s' := by
  have hadvance := advance_entry h.entries
  rw [sweepTurn, h.it]
  dsimp only [List.head?_cons, Option.map_some]
  rw [hadvance]
  dsimp only
  by_cases herases : erases e.orphan = true
  · have he : e ∈ s.pool.mapOrphanTxs.entries := by
      rw [h.entries]
      exact List.mem_append_right _ List.mem_cons_self
    have hgoes : [e].filter (!erases ·.orphan) = [] :=
      List.filter_cons_of_neg (by simp [herases])
    obtain ⟨prev, hrun, hcoherent⟩ := eraseOrphanTx_run h.coherent he
    rw [if_pos herases, h.coherent.hashes e he, hrun]
    refine ⟨_, rfl, hcoherent, ?_, rfl, ?_, ?_⟩
    · change (s.pool.mapOrphanTxs.erase e.place).entries = _
      rw [erase_entry h.entries, List.filter_append, hgoes, List.append_nil]
    · rw [List.countP_append, List.countP_singleton, if_pos herases, ← h.erasedCount]
    · rw [List.filter_append, hgoes, List.append_nil, ← h.kept]
  · have hkeeps : [e].filter (!erases ·.orphan) = [e] := by
      rw [List.filter_cons_of_pos (by simp [herases]), List.filter_nil]
    rw [if_neg herases]
    refine ⟨_, rfl, h.coherent, ?_, rfl, ?_, ?_⟩
    · change s.pool.mapOrphanTxs.entries = _
      rw [h.entries, List.filter_append, hkeeps, List.append_assoc, List.singleton_append]
    · rw [List.countP_append, List.countP_singleton, if_neg herases, ← h.erasedCount]
      rfl
    · rw [List.filter_append, hkeeps, List.foldl_concat, ← h.kept]

theorem sweep_run (h : Coherent sha256 pool) (erases : OrphanTx → Bool)
    (keep : A → OrphanTx → A) (kept : A) : ∃ s, sweep sha256 erases keep kept pool = .ok s ∧
    Sweeping sha256 erases keep kept pool.mapOrphanTxs.entries [] s := by
  let ahead (s : Sweep A) : Nat :=
    s.it.elim 0 fun place => (s.pool.mapOrphanTxs.since place).length
  have hahead {done rest : List Entry} {s : Sweep A}
      (hs : Sweeping sha256 erases keep kept done rest s) : ahead s = rest.length := by
    cases rest with
    | nil => simp only [ahead, hs.it, List.head?_nil, Option.map_none, Option.elim_none,
        List.length_nil]
    | cons e rest =>
      simp only [ahead, hs.it, List.head?_cons, Option.map_some, Option.elim_some,
        since_entry hs.entries]
  have hstart : Sweeping sha256 erases keep kept [] pool.mapOrphanTxs.entries
      ⟨pool.mapOrphanTxs.begin, 0, kept, pool⟩ := ⟨h, rfl, rfl, rfl, rfl⟩
  refine loop_total (m := ahead) (I := fun s => ∃ done rest,
    pool.mapOrphanTxs.entries = done ++ rest ∧ Sweeping sha256 erases keep kept done rest s)
    ?_ ⟨[], _, rfl, hstart⟩ ?_
  · rintro s ⟨done, _ | ⟨e, rest⟩, hsplit, hs⟩
    · refine Or.inr ⟨s, ?_, ?_⟩
      · rw [sweepTurn, hs.it]
        rfl
      · rw [hsplit, List.append_nil]
        exact hs
    · obtain ⟨s', hturn, hs'⟩ := hs.turn
      refine Or.inl ⟨s', hturn, ⟨done ++ [e], rest, ?_, hs'⟩, ?_⟩
      · rw [hsplit, List.append_assoc, List.singleton_append]
      · rw [hahead hs, hahead hs']
        exact Nat.lt_succ_self _
  · rw [hahead hstart]
    exact Nat.lt_succ_self _

/-- The entries of one peer go, and those only. -/
theorem eraseOrphansFor_run (h : Coherent sha256 pool) (id : NodeId) :
    ∃ erased pool', eraseOrphansFor sha256 id pool = .ok (erased, pool') ∧ Coherent sha256 pool' ∧
      pool'.mapOrphanTxs.entries = pool.mapOrphanTxs.entries.filter (·.orphan.fromPeer ≠ id) ∧
      erased = pool.mapOrphanTxs.entries.countP (·.orphan.fromPeer = id) := by
  obtain ⟨s, hrun, hs⟩ := sweep_run h (fun o => decide (o.fromPeer = id)) (fun _ _ => ()) ()
  refine ⟨s.erasedCount, s.pool, ?_, hs.coherent, ?_, hs.erasedCount⟩
  · rw [eraseOrphansFor, hrun]
  · rw [hs.entries, List.append_nil]
    simp only [ne_eq, decide_not]

end Sweeping

section Limiting

variable {sha256 : List Endian.Byte → Hash256} {pool : Pool} {s : State}

/-- The entries that have not expired, if it is time to look. -/
def unexpired (now : Int) (s : State) : List Entry :=
  if s.nextSweep ≤ now then s.pool.mapOrphanTxs.entries.filter (now < ·.orphan.timeExpire)
  else s.pool.mapOrphanTxs.entries

theorem sweepExpired_run (h : Coherent sha256 s.pool) (now : Int) :
    ∃ s', sweepExpired sha256 now s = .ok s' ∧ Coherent sha256 s'.pool ∧
      s'.pool.mapOrphanTxs.entries = unexpired now s := by
  rw [sweepExpired, unexpired]
  split_ifs
  · obtain ⟨r, hrun, hr⟩ := sweep_run h (fun o => decide (o.timeExpire ≤ now))
      (fun minExpireTime o => min o.timeExpire minExpireTime)
      (now + kBrphanTxExpireTime - kOrphanTxExpireInterval)
    rw [hrun]
    refine ⟨_, rfl, hr.coherent, ?_⟩
    change r.pool.mapOrphanTxs.entries = _
    rw [hr.entries, List.append_nil]
    refine List.filter_congr fun e _ => ?_
    rw [← decide_not]
    exact decide_eq_decide.mpr Int.not_le
  · exact ⟨s, rfl, h, rfl⟩

/-- The loop has evicted some of the entries of a pool, and none that it need not. -/
structure Evicting (sha256 : List Endian.Byte → Hash256) (maxOrphans : U32) (entries : List Entry)
    (s : Eviction) : Prop where
  coherent : Coherent sha256 s.pool
  sublist : s.pool.mapOrphanTxs.entries.Sublist entries
  evictedCount : s.evictedCount = BitVec.ofNat 32 (entries.length - s.pool.mapOrphanTxs.size)
  needed : min entries.length maxOrphans.toNat ≤ s.pool.mapOrphanTxs.size

theorem Evicting.turn {maxOrphans : U32} {entries : List Entry} {s : Eviction}
    (h : Evicting sha256 maxOrphans entries s)
    (hsize : maxOrphans.toNat < s.pool.mapOrphanTxs.size) :
    ∃ s', evictTurn maxOrphans s = .ok (.again s') ∧ Evicting sha256 maxOrphans entries s' ∧
      s'.pool.mapOrphanTxs.size < s.pool.mapOrphanTxs.size := by
  obtain ⟨e, hchosen, he⟩ : ∃ e, (s.pool.mapOrphanTxs.lowerBound (s.random 0)).or
      s.pool.mapOrphanTxs.entries.head? = some e ∧ e ∈ s.pool.mapOrphanTxs.entries := by
    cases hbound : s.pool.mapOrphanTxs.lowerBound (s.random 0) with
    | some e => exact ⟨e, rfl, List.mem_of_find?_eq_some hbound⟩
    | none =>
      have hne : s.pool.mapOrphanTxs.entries ≠ [] :=
        List.ne_nil_of_length_pos (Nat.zero_lt_of_lt hsize)
      exact ⟨_, List.head?_eq_some_head hne, List.head_mem hne⟩
  obtain ⟨before, after, hsplit⟩ := List.append_of_mem he
  obtain ⟨prev, hrun, hcoherent⟩ := eraseOrphanTx_run h.coherent he
  have herase := erase_entry hsplit
  have hless : s.pool.mapOrphanTxs.size = (s.pool.mapOrphanTxs.erase e.place).size + 1 := by
    rw [MapOrphanTxs.size, MapOrphanTxs.size, herase, hsplit, List.length_append,
      List.length_append, List.length_cons, Nat.add_assoc]
  have hle : s.pool.mapOrphanTxs.size ≤ entries.length := h.sublist.length_le
  have hneeded := h.needed
  rw [evictTurn, if_pos hsize, hchosen]
  dsimp only
  rw [hrun]
  refine ⟨_, rfl, ⟨hcoherent, ?_, ?_, ?_⟩, ?_⟩
  · change (s.pool.mapOrphanTxs.erase e.place).entries.Sublist entries
    exact List.filter_sublist.trans h.sublist
  · change s.evictedCount + 1 = _
    have hcount : entries.length - (s.pool.mapOrphanTxs.erase e.place).size =
        entries.length - s.pool.mapOrphanTxs.size + 1 := by
      omega
    rw [h.evictedCount, hcount, BitVec.ofNat_add]
    rfl
  · change _ ≤ (s.pool.mapOrphanTxs.erase e.place).size
    omega
  · change (s.pool.mapOrphanTxs.erase e.place).size < _
    omega

theorem evict_run (h : Coherent sha256 pool) (maxOrphans : U32) (random : Nat → Hash256) :
    ∃ s, evict maxOrphans random pool = .ok s ∧
      Evicting sha256 maxOrphans pool.mapOrphanTxs.entries s ∧
      s.pool.mapOrphanTxs.size ≤ maxOrphans.toNat := by
  refine loop_total (m := fun s => s.pool.mapOrphanTxs.size)
    (I := Evicting sha256 maxOrphans pool.mapOrphanTxs.entries) ?_ ⟨h, List.Sublist.refl _, ?_, ?_⟩
    (Nat.lt_succ_self _)
  · intro s hs
    by_cases hsize : maxOrphans.toNat < s.pool.mapOrphanTxs.size
    · exact Or.inl (hs.turn hsize)
    · exact Or.inr ⟨s, if_neg hsize, hs, Nat.le_of_not_lt hsize⟩
  · simp [MapOrphanTxs.size]
  · exact Nat.min_le_left _ _

theorem limitOrphanTxSize_run (h : Coherent sha256 s.pool) (maxOrphans : U32) (now : Int)
    (random : Nat → Hash256) : ∃ swept evicted s',
      sweepExpired sha256 now s = .ok swept ∧
      swept.pool.mapOrphanTxs.entries = unexpired now s ∧
      limitOrphanTxSize sha256 maxOrphans now random s = .ok (evicted, s') ∧
      Evicting sha256 maxOrphans swept.pool.mapOrphanTxs.entries ⟨s'.pool, evicted, random⟩ ∧
      s'.pool.mapOrphanTxs.size ≤ maxOrphans.toNat := by
  obtain ⟨swept, hsweep, hcoherent, hentries⟩ := sweepExpired_run h now
  obtain ⟨r, hevict, hr, hsize⟩ := evict_run hcoherent maxOrphans random
  refine ⟨swept, r.evictedCount, { swept with pool := r.pool }, hsweep, hentries, ?_, ?_, hsize⟩
  · rw [limitOrphanTxSize, hsweep]
    dsimp only
    rw [hevict]
  · exact ⟨hr.coherent, hr.sublist, hr.evictedCount, hr.needed⟩

theorem unexpired_sublist (now : Int) (s : State) :
    (unexpired now s).Sublist s.pool.mapOrphanTxs.entries := by
  rw [unexpired]
  split_ifs
  · exact List.filter_sublist
  · exact List.Sublist.refl _

theorem mem_unexpired {now : Int} {e : Entry} (he : e ∈ s.pool.mapOrphanTxs.entries)
    (hexpired : e ∉ unexpired now s) : e.orphan.timeExpire ≤ now := by
  rw [unexpired] at hexpired
  split_ifs at hexpired
  · by_contra hlater
    exact hexpired (List.mem_filter.mpr ⟨he, decide_eq_true (Int.not_le.mp hlater)⟩)
  · exact absurd he hexpired

theorem step_run (h : Coherent sha256 s.pool) (op : Op) :
    ∃ s', step sha256 s op = .ok s' ∧ Coherent sha256 s'.pool := by
  cases op with
  | eraseOrphansFor id =>
    obtain ⟨erased, pool', hrun, hcoherent, -⟩ := eraseOrphansFor_run h id
    refine ⟨{ s with pool := pool' }, ?_, hcoherent⟩
    rw [step, hrun]
  | limitOrphanTxSize maxOrphans now random =>
    obtain ⟨swept, evicted, s', -, -, hrun, hevicting, -⟩ :=
      limitOrphanTxSize_run h maxOrphans now random
    refine ⟨s', ?_, hevicting.coherent⟩
    rw [step, hrun]

end Limiting

section Results

variable {sha256 : List Endian.Byte → Hash256} {s : State}

/-- No operation faults, and a coherent pool stays coherent, whatever comes. At any time the
orphans of a peer can be erased, and those only, and the pool can be limited: what the sweep
takes has expired, and as many entries are evicted as are too many. -/
theorem run_coherent (h : Coherent sha256 s.pool) (ops : List Op) :
    ∃ s', ops.foldlM (step sha256) s = .ok s' ∧ Coherent sha256 s'.pool ∧
      (∀ o its place, s'.pool.mapPrevOrphanTxs.lookup o = some its → place ∈ its →
        ∃ e ∈ s'.pool.mapOrphanTxs.entries, e.spends o ∧ e.place = place) ∧
      (∀ id, ∃ erased pool', eraseOrphansFor sha256 id s'.pool = .ok (erased, pool') ∧
        pool'.mapOrphanTxs.entries =
          s'.pool.mapOrphanTxs.entries.filter (·.orphan.fromPeer ≠ id)) ∧
      ∀ maxOrphans now random, ∃ swept evicted s'',
        sweepExpired sha256 now s' = .ok swept ∧
        swept.pool.mapOrphanTxs.entries.Sublist s'.pool.mapOrphanTxs.entries ∧
        (∀ e ∈ s'.pool.mapOrphanTxs.entries, e ∉ swept.pool.mapOrphanTxs.entries →
          e.orphan.timeExpire ≤ now) ∧
        limitOrphanTxSize sha256 maxOrphans now random s' = .ok (evicted, s'') ∧
        s''.pool.mapOrphanTxs.entries.Sublist swept.pool.mapOrphanTxs.entries ∧
        s''.pool.mapOrphanTxs.size = min swept.pool.mapOrphanTxs.size maxOrphans.toNat ∧
        evicted = BitVec.ofNat 32 (swept.pool.mapOrphanTxs.size - s''.pool.mapOrphanTxs.size) := by
  obtain ⟨s', hrun, hcoherent⟩ : ∃ s', ops.foldlM (step sha256) s = .ok s' ∧
      Coherent sha256 s'.pool :=
    foldlM_total (I := fun _ (s' : State) => Coherent sha256 s'.pool)
      (fun _ op _ _ _ hs => step_run hs op) h
  refine ⟨s', hrun, hcoherent, fun o its place hits hplace => hcoherent.live hits hplace,
    fun id => ?_, fun maxOrphans now random => ?_⟩
  · obtain ⟨erased, pool', hrun, -, hentries, -⟩ := eraseOrphansFor_run hcoherent id
    exact ⟨erased, pool', hrun, hentries⟩
  · obtain ⟨swept, evicted, s'', hsweep, hentries, hlimit, hevicting, hsize⟩ :=
      limitOrphanTxSize_run hcoherent maxOrphans now random
    refine ⟨swept, evicted, s'', hsweep, ?_, fun e he hgone => ?_, hlimit, hevicting.sublist, ?_,
      hevicting.evictedCount⟩
    · rw [hentries]
      exact unexpired_sublist now s'
    · rw [hentries] at hgone
      exact mem_unexpired he hgone
    · have hle := hevicting.sublist.length_le
      exact Nat.le_antisymm (Nat.le_min.mpr ⟨hle, hsize⟩) hevicting.needed

/-- Two orphans that spend the same output. -/
def conflictingPool : Pool :=
  let input : TxIn := ⟨⟨Bytes.zero 32, 0⟩, ⟨[]⟩, 0xffffffff⟩
  let first := hashOf 0x11b2af3f10af076131b71fc258acf2fafadc1315d64f058078af025e82b8d272
  let second := hashOf 0x4a501e76445ac319e474f8ec1f1f65afb8c07c66d8fa568baa360f21bbbb4e6b
  { mapOrphanTxs :=
      { entries :=
          [⟨0, first, ⟨⟨⟨1, [input], [⟨1, ⟨[]⟩⟩], 0⟩, first⟩, 7, 1700000000⟩⟩,
            ⟨1, second, ⟨⟨⟨1, [input], [⟨2, ⟨[]⟩⟩], 0⟩, second⟩, 8, 1700000300⟩⟩]
        sorted := List.pairwise_pair.mpr (by decide)
        places := by decide }
    mapPrevOrphanTxs := AList.singleton input.prevout {0, 1} }

theorem run_coherent_conflicting : ∃ s', [Op.eraseOrphansFor 7, .limitOrphanTxSize 0 1700000000
      fun _ => nullHash].foldlM (step knownSha256) ⟨conflictingPool, 0⟩ = .ok s' ∧
    Coherent knownSha256 s'.pool := by
  have hcoherent : Coherent knownSha256 conflictingPool := by
    refine ⟨by decide, fun o => ?_⟩
    by_cases ho : o = ⟨Bytes.zero 32, 0⟩
    · subst ho
      decide
    · have hinputs : ∀ e ∈ conflictingPool.mapOrphanTxs.entries,
          ∀ txin ∈ e.orphan.tx.inputs, txin.prevout = ⟨Bytes.zero 32, 0⟩ := by
        decide
      have hnone : spenders conflictingPool.mapOrphanTxs.entries o = ∅ := by
        refine Finset.eq_empty_of_forall_notMem fun place hplace => ho ?_
        obtain ⟨e, he, ⟨txin, htxin, rfl⟩, -⟩ := mem_spenders.mp hplace
        exact hinputs e he txin htxin
      rw [hnone, entry_empty]
      exact AList.lookup_eq_none.mpr fun hmem => ho (List.mem_singleton.mp hmem)
  obtain ⟨s', hrun, hs', -⟩ := run_coherent (s := ⟨conflictingPool, 0⟩) hcoherent
    [.eraseOrphansFor 7, .limitOrphanTxSize 0 1700000000 fun _ => nullHash]
  exact ⟨s', hrun, hs'⟩

end Results

end Orphans
