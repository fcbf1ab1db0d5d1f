import Btclite.Library.Runs
import Btclite.Network.Nodes
import Btclite.Network.Peers
import Mathlib.Data.Set.Function

/-!
# The address book

Any calls on an empty book keep its containers together, provided that no two
addresses among those passed have the same key. Every slot of the two tables holds
a peer of its group, no group has a slot in both, and the random order is one of
the peers that are there. So no call follows the end of a map.
-/

namespace AddressBook

open Endian Serialize Address Nodes Tables Peers Runs

section Soundness

variable (sha256 : List Byte → Hash256) (key : Hash256) (U : Set IpAddr)

/-- Every slot of a table holds the key of a peer of that group. -/
def Slots (s : Book) (tbl : AList fun _ : U64 => U64) : Prop :=
  ∀ g k, tbl.lookup g = some k →
    ∃ p, s.mapPeers.lookup k = some p ∧ Book.groupKeyOf sha256 key p.addr = g

/-- What the calls keep. Every peer is under the key of its own address, one of `U`. -/
structure Sound (s : Book) : Prop where
  key_eq : s.key = key
  keyed : ∀ k p, s.mapPeers.lookup k = some p →
    p.addr.ip ∈ U ∧ Book.mapKeyOf sha256 key p.addr.ip = k
  newSlots : Slots sha256 key s s.newTbl
  triedSlots : Slots sha256 key s s.triedTbl
  disjoint : ∀ g, g ∈ s.newTbl → g ∉ s.triedTbl
  nodup : s.randOrderKeys.Nodup
  order : ∀ k, k ∈ s.randOrderKeys ↔ k ∈ s.mapPeers

variable {sha256 key U} {s : Book} {k g : U64} {addr source : NetAddr} {p : Peer}

theorem sound_of_empty (hkey : s.key = key) (hmap : s.mapPeers = ∅) (hnew : s.newTbl = ∅)
    (htried : s.triedTbl = ∅) (horder : s.randOrderKeys = []) : Sound sha256 key U s where
  key_eq := hkey
  keyed k p h := by
    rw [hmap] at h
    cases h
  newSlots g k h := by
    rw [hnew] at h
    cases h
  triedSlots g k h := by
    rw [htried] at h
    cases h
  disjoint g h := by
    rw [hnew] at h
    exact absurd h (AList.notMem_empty g)
  nodup := by
    rw [horder]
    exact List.nodup_nil
  order k := by
    rw [horder, hmap]
    exact iff_of_false List.not_mem_nil (AList.notMem_empty k)

theorem fresh_sound : Sound sha256 key U (fresh key) := sound_of_empty rfl rfl rfl rfl rfl

theorem Sound.peerAt (h : Sound sha256 key U s) (hk : k ∈ s.randOrderKeys) :
    ∃ p, s.peerAt k = .ok p := by
  rcases exists_lookup ((h.order k).mp hk) with ⟨p, hp⟩
  exact ⟨p, Book.peerAt_ok hp⟩

/-- Slots are kept by whatever keeps where the peers are. -/
theorem Slots.congr {s' : Book} {tbl : AList fun _ : U64 => U64}
    (h : Slots sha256 key s tbl) (hsame : ∀ k p, s.mapPeers.lookup k = some p →
      (∀ g, tbl.lookup g ≠ some k) ∨
        ∃ p', s'.mapPeers.lookup k = some p' ∧ p'.addr.ip = p.addr.ip) :
    Slots sha256 key s' tbl := by
  intro g k hslot
  rcases h g k hslot with ⟨p, hp, hgroup⟩
  rcases hsame k p hp with hno | ⟨p', hp', hip⟩
  · exact absurd hslot (hno g)
  · refine ⟨p', hp', ?_⟩
    rw [← hgroup, Book.groupKeyOf, Book.groupKeyOf, NetAddr.getGroup_congr hip]

theorem Slots.erase {tbl : AList fun _ : U64 => U64} (h : Slots sha256 key s tbl) (g : U64) :
    Slots sha256 key s (tbl.erase g) := by
  intro g' k hslot
  by_cases hg : g' = g
  · rw [hg, AList.lookup_erase] at hslot
    cases hslot
  · rw [AList.lookup_erase_ne hg] at hslot
    exact h g' k hslot

/-- A peer can be updated, as long as it stays where it is. -/
theorem Sound.updatePeer (h : Sound sha256 key U s) (hk : s.mapPeers.lookup k = some p)
    {f : Peer → Peer} (hf : (f p).addr.ip = p.addr.ip) :
    ∃ s', s.updatePeer k f = .ok s' ∧ Sound sha256 key U s' ∧
      s'.mapPeers.lookup k = some (f p) ∧ s'.newTbl = s.newTbl ∧ s'.triedTbl = s.triedTbl := by
  have hsame : ∀ k' q, s.mapPeers.lookup k' = some q →
      ∃ q', (s.mapPeers.insert k (f p)).lookup k' = some q' ∧ q'.addr.ip = q.addr.ip := by
    intro k' q hq
    by_cases hk' : k' = k
    · subst hk'
      obtain rfl : p = q := Option.some.inj (hk.symm.trans hq)
      exact ⟨f p, AList.lookup_insert _, hf⟩
    · exact ⟨q, (AList.lookup_insert_ne hk').trans hq, rfl⟩
  refine ⟨s.setMapPeers (s.mapPeers.insert k (f p)), ?_, ⟨h.key_eq, ?_, ?_, ?_, h.disjoint,
    h.nodup, ?_⟩, AList.lookup_insert _, rfl, rfl⟩
  · rw [Book.updatePeer, Book.peerAt_ok hk]
    rfl
  · intro k' q hq
    by_cases hk' : k' = k
    · subst hk'
      obtain rfl : f p = q := Option.some.inj ((AList.lookup_insert _).symm.trans hq)
      rw [hf]
      exact h.keyed k' p hk
    · exact h.keyed k' q ((AList.lookup_insert_ne hk').symm.trans hq)
  · exact h.newSlots.congr fun k' q hq => Or.inr (hsame k' q hq)
  · exact h.triedSlots.congr fun k' q hq => Or.inr (hsame k' q hq)
  · intro k'
    refine (h.order k').trans ?_
    change _ ↔ k' ∈ s.mapPeers.insert k (f p)
    rw [AList.mem_insert]
    constructor
    · exact Or.inr
    · rintro (rfl | hmem)
      · exact lookup_eq_some_mem hk
      · exact hmem

theorem Sound.eraseNew (h : Sound sha256 key U s) (g : U64) :
    Sound sha256 key U (s.setNewTbl (s.newTbl.erase g)) where
  key_eq := h.key_eq
  keyed := h.keyed
  newSlots := h.newSlots.erase g
  triedSlots := h.triedSlots
  disjoint g' hmem := h.disjoint g' (AList.mem_erase.mp hmem).2
  nodup := h.nodup
  order := h.order

theorem Sound.eraseTried (h : Sound sha256 key U s) (g : U64) :
    Sound sha256 key U (s.setTriedTbl (s.triedTbl.erase g)) where
  key_eq := h.key_eq
  keyed := h.keyed
  newSlots := h.newSlots
  triedSlots := h.triedSlots.erase g
  disjoint g' hmem hmem' := h.disjoint g' hmem (AList.mem_erase.mp hmem').2
  nodup := h.nodup
  order := h.order

/-- A peer that no slot holds can go. -/
theorem Sound.erasePeer (h : Sound sha256 key U s) (hk : k ∈ s.mapPeers)
    (hnew : ∀ g, s.newTbl.lookup g ≠ some k) (htried : ∀ g, s.triedTbl.lookup g ≠ some k) :
    Sound sha256 key U (s.erasePeer k) := by
  have hlookup : ∀ k', k' ≠ k → (s.mapPeers.erase k).lookup k' = s.mapPeers.lookup k' :=
    fun k' hk' => AList.lookup_erase_ne hk'
  have hrand := eraseBySwap_spec h.nodup ((h.order k).mpr hk)
  refine ⟨h.key_eq, ?_, ?_, ?_, h.disjoint, hrand.1, ?_⟩
  · intro k' q hq
    by_cases hk' : k' = k
    · rw [hk'] at hq
      exact absurd ((AList.lookup_erase _ _).symm.trans hq) (by simp)
    · exact h.keyed k' q ((hlookup k' hk').symm.trans hq)
  · refine h.newSlots.congr fun k' q hq => ?_
    by_cases hk' : k' = k
    · exact Or.inl (hk' ▸ hnew)
    · exact Or.inr ⟨q, (hlookup k' hk').trans hq, rfl⟩
  · refine h.triedSlots.congr fun k' q hq => ?_
    by_cases hk' : k' = k
    · exact Or.inl (hk' ▸ htried)
    · exact Or.inr ⟨q, (hlookup k' hk').trans hq, rfl⟩
  · intro k'
    refine (hrand.2 k').trans ?_
    change _ ↔ k' ∈ s.mapPeers.erase k
    rw [AList.mem_erase, h.order k']

theorem Slots.group_eq {tbl : AList fun _ : U64 => U64} (h : Slots sha256 key s tbl)
    (hslot : tbl.lookup g = some k) (hp : s.mapPeers.lookup k = some p) :
    Book.groupKeyOf sha256 key p.addr = g := by
  rcases h g k hslot with ⟨q, hq, hgroup⟩
  obtain rfl : p = q := Option.some.inj (hp.symm.trans hq)
  exact hgroup

/-- A peer goes, and its slot with it, in whichever table that is. -/
theorem Sound.evict (h : Sound sha256 key U s) (hp : s.mapPeers.lookup k = some p)
    (hg : Book.groupKeyOf sha256 key p.addr = g) :
    Sound sha256 key U ((if s.newTbl.lookup g == some k then s.setNewTbl (s.newTbl.erase g)
      else if s.triedTbl.lookup g == some k then s.setTriedTbl (s.triedTbl.erase g)
      else s).erasePeer k) := by
  have honly {tbl : AList fun _ : U64 => U64} (hslots : Slots sha256 key s tbl) {g' : U64}
      (hslot : tbl.lookup g' = some k) : g' = g := (hslots.group_eq hslot hp).symm.trans hg
  have hmem : k ∈ s.mapPeers := lookup_eq_some_mem hp
  split_ifs with hnew htried
  · rw [beq_iff_eq] at hnew
    refine (h.eraseNew g).erasePeer hmem (fun g' hslot => ?_) fun g' hslot => ?_
    · change (s.newTbl.erase g).lookup g' = some k at hslot
      by_cases hg' : g' = g
      · rw [hg', AList.lookup_erase] at hslot
        cases hslot
      · rw [AList.lookup_erase_ne hg'] at hslot
        exact hg' (honly h.newSlots hslot)
    · have hg' := honly h.triedSlots hslot
      subst hg'
      exact h.disjoint g' (lookup_eq_some_mem hnew) (lookup_eq_some_mem hslot)
  · rw [beq_iff_eq] at hnew htried
    refine (h.eraseTried g).erasePeer hmem (fun g' hslot => ?_) fun g' hslot => ?_
    · have hg' := honly h.newSlots hslot
      subst hg'
      exact hnew hslot
    · change (s.triedTbl.erase g).lookup g' = some k at hslot
      by_cases hg' : g' = g
      · rw [hg', AList.lookup_erase] at hslot
        cases hslot
      · rw [AList.lookup_erase_ne hg'] at hslot
        exact hg' (honly h.triedSlots hslot)
  · rw [beq_iff_eq] at hnew htried
    refine h.erasePeer hmem (fun g' hslot => ?_) fun g' hslot => ?_
    · have hg' := honly h.newSlots hslot
      subst hg'
      exact hnew hslot
    · have hg' := honly h.triedSlots hslot
      subst hg'
      exact htried hslot

/-- The peer under the key of an address is at that address. -/
theorem Sound.sameIp (h : Sound sha256 key U s) (hinj : U.InjOn (Book.mapKeyOf sha256 key))
    (haddr : addr.ip ∈ U)
    (hp : s.mapPeers.lookup (Book.mapKeyOf sha256 key addr.ip) = some p) :
    p.addr.ip = addr.ip := by
  rcases h.keyed _ p hp with ⟨hmem, hkey⟩
  exact hinj hmem haddr hkey

/-- The peer of a group is in the slot of the table that it was found in. -/
theorem Sound.findSameGroup (h : Sound sha256 key U s) (g : U64) :
    (s.findSameGroup g = .ok none ∧ g ∉ s.newTbl ∧ g ∉ s.triedTbl) ∨
      ∃ p isTried k, s.findSameGroup g = .ok (some (p, isTried, k)) ∧
        s.mapPeers.lookup k = some p ∧ Book.groupKeyOf sha256 key p.addr = g ∧
        if isTried then s.newTbl.lookup g = none ∧ s.triedTbl.lookup g = some k
        else s.newTbl.lookup g = some k := by
  cases hnew : s.newTbl.lookup g with
  | some k =>
    rcases h.newSlots g k hnew with ⟨p, hp, hg⟩
    refine Or.inr ⟨p, false, k, ?_, hp, hg, rfl⟩
    simp only [Book.findSameGroup, hnew, Book.peerAt_ok hp]
    rfl
  | none =>
    cases htried : s.triedTbl.lookup g with
    | some k =>
      rcases h.triedSlots g k htried with ⟨p, hp, hg⟩
      refine Or.inr ⟨p, true, k, ?_, hp, hg, rfl, rfl⟩
      simp only [Book.findSameGroup, hnew, htried, Book.peerAt_ok hp]
      rfl
    | none =>
      refine Or.inl ⟨?_, AList.lookup_eq_none.mp hnew, AList.lookup_eq_none.mp htried⟩
      simp only [Book.findSameGroup, hnew, htried]

/-- Room for a group without a slot is there, and otherwise the peer that has the slot stays,
or goes with it if it is terrible. -/
theorem Sound.makeRoom_cases (h : Sound sha256 key U s) (g : U64) (now : I64) :
    (s.makeRoom g now = .ok (true, s) ∧ g ∉ s.newTbl ∧ g ∉ s.triedTbl) ∨
      ∃ p k, s.mapPeers.lookup k = some p ∧ Book.groupKeyOf sha256 key p.addr = g ∧
        (s.newTbl.lookup g = some k ∨ s.triedTbl.lookup g = some k) ∧
        s.makeRoom g now = .ok (if isTerriblePeer p now then
          (true, (if s.newTbl.lookup g == some k then s.setNewTbl (s.newTbl.erase g)
            else if s.triedTbl.lookup g == some k then s.setTriedTbl (s.triedTbl.erase g)
            else s).erasePeer k)
        else (false, s)) := by
  rcases h.findSameGroup g with ⟨hnone, hnew, htried⟩ | ⟨p, isTried, k, hsome, hp, hg, hslot⟩
  · refine .inl ⟨?_, hnew, htried⟩
    rw [Book.makeRoom, hnone]
    rfl
  refine .inr ⟨p, k, hp, hg, ?_⟩
  cases isTried with
  | false =>
    have hnew : s.newTbl.lookup g = some k := hslot
    refine ⟨.inl hnew, ?_⟩
    rw [if_pos (beq_iff_eq.mpr hnew)]
    cases hterrible : isTerriblePeer p now <;>
      simp [Book.makeRoom, hsome, hterrible, bind, Except.bind, pure, Except.pure]
  | true =>
    have hboth : s.newTbl.lookup g = none ∧ s.triedTbl.lookup g = some k := hslot
    refine ⟨.inr hboth.2, ?_⟩
    rw [hboth.1, if_neg (show ¬ (none == some k) = true by simp),
      if_pos (beq_iff_eq.mpr hboth.2)]
    cases hterrible : isTerriblePeer p now <;>
      simp [Book.makeRoom, hsome, hterrible, bind, Except.bind, pure, Except.pure]

/-- A terrible peer makes room for its group, and no one else does. -/
theorem Sound.makeRoom (h : Sound sha256 key U s) (g : U64) (now : I64) :
    ∃ r, s.makeRoom g now = .ok r ∧ Sound sha256 key U r.2 ∧
      (r.1 = true → g ∉ r.2.newTbl ∧ g ∉ r.2.triedTbl) ∧
      ∀ k, k ∉ s.mapPeers → k ∉ r.2.mapPeers := by
  rcases h.makeRoom_cases g now with ⟨hrun, hnew, htried⟩ | ⟨p, k, hp, hg, hslot, hrun⟩
  · exact ⟨(true, s), hrun, h, fun _ => ⟨hnew, htried⟩, fun _ hk => hk⟩
  have hevict := h.evict hp hg
  refine ⟨_, hrun, ?_⟩
  split_ifs with hterrible hnew htried
  · rw [if_pos hnew] at hevict
    rw [beq_iff_eq] at hnew
    exact ⟨hevict, fun _ => ⟨fun hmem => (AList.mem_erase.mp hmem).1 rfl,
      h.disjoint g (lookup_eq_some_mem hnew)⟩, fun k' hk' hmem => hk' (AList.mem_erase.mp hmem).2⟩
  · rw [if_neg hnew, if_pos htried] at hevict
    rw [beq_iff_eq] at htried
    exact ⟨hevict, fun _ => ⟨fun hmem => h.disjoint g hmem (lookup_eq_some_mem htried),
      fun hmem => (AList.mem_erase.mp hmem).1 rfl⟩,
      fun k' hk' hmem => hk' (AList.mem_erase.mp hmem).2⟩
  · rw [beq_iff_eq] at hnew htried
    exact absurd hslot (not_or.mpr ⟨hnew, htried⟩)
  · exact ⟨h, by simp, fun _ hk => hk⟩

theorem Slots.insertNew {tbl : AList fun _ : U64 => U64} (h : Slots sha256 key s tbl)
    (hp : s.mapPeers.lookup k = some p) (hg : Book.groupKeyOf sha256 key p.addr = g) :
    Slots sha256 key s (insertNew g k tbl) := by
  intro g' k' hslot
  by_cases hmem : g ∈ tbl
  · rw [insertNew_of_mem hmem] at hslot
    exact h g' k' hslot
  rw [insertNew_of_notMem hmem] at hslot
  by_cases hg' : g' = g
  · subst hg'
    rw [AList.lookup_insert] at hslot
    cases hslot
    exact ⟨p, hp, hg⟩
  · rw [AList.lookup_insert_ne hg'] at hslot
    exact h g' k' hslot

/-- A peer with no slot yet. -/
theorem Sound.addPeer (h : Sound sha256 key U s) (hk : k ∉ s.mapPeers) (hU : p.addr.ip ∈ U)
    (hkey : Book.mapKeyOf sha256 key p.addr.ip = k) :
    Sound sha256 key U { s.setMapPeers (s.mapPeers.insert k p) with
      randOrderKeys := s.randOrderKeys ++ [k] } := by
  have hsame : ∀ k' q, s.mapPeers.lookup k' = some q →
      ∃ q', (s.mapPeers.insert k p).lookup k' = some q' ∧ q'.addr.ip = q.addr.ip := by
    intro k' q hq
    have hk' : k' ≠ k := by
      rintro rfl
      exact hk (lookup_eq_some_mem hq)
    exact ⟨q, (AList.lookup_insert_ne hk').trans hq, rfl⟩
  refine ⟨h.key_eq, ?_, ?_, ?_, h.disjoint, ?_, ?_⟩
  · intro k' q hq
    by_cases hk' : k' = k
    · subst hk'
      obtain rfl : p = q := Option.some.inj ((AList.lookup_insert _).symm.trans hq)
      exact ⟨hU, hkey⟩
    · exact h.keyed k' q ((AList.lookup_insert_ne hk').symm.trans hq)
  · exact h.newSlots.congr fun k' q hq => Or.inr (hsame k' q hq)
  · exact h.triedSlots.congr fun k' q hq => Or.inr (hsame k' q hq)
  · refine List.nodup_append.mpr ⟨h.nodup, List.nodup_singleton k, fun a ha b hb => ?_⟩
    obtain rfl : b = k := by simpa using hb
    rintro rfl
    exact hk ((h.order a).mp ha)
  · intro k'
    change k' ∈ s.randOrderKeys ++ [k] ↔ k' ∈ s.mapPeers.insert k p
    rw [List.mem_append, List.mem_singleton, AList.mem_insert, h.order k', or_comm]

theorem Sound.addNewPeer (h : Sound sha256 key U s) {addNew : Bool} (haddr : addr.ip ∈ U)
    (hk : Book.mapKeyOf sha256 key addr.ip ∉ s.mapPeers)
    (hroom : addNew = true → Book.groupKeyOf sha256 key addr ∉ s.newTbl ∧
      Book.groupKeyOf sha256 key addr ∉ s.triedTbl) :
    Sound sha256 key U (s.addNewPeer (Book.mapKeyOf sha256 key addr.ip)
      (Book.groupKeyOf sha256 key addr) addNew addr source) := by
  have hadd := h.addPeer (p := { addr, source, attempts := 0 }) hk haddr rfl
  rw [Book.addNewPeer, insertNew_of_notMem hk]
  split_ifs with hnew
  · rcases hroom hnew with ⟨hnotNew, hnotTried⟩
    refine ⟨hadd.key_eq, hadd.keyed, hadd.newSlots.insertNew (AList.lookup_insert _) rfl,
      hadd.triedSlots, fun g hmem => ?_, hadd.nodup, hadd.order⟩
    rcases mem_insertNew.mp hmem with rfl | hmem
    · exact hnotTried
    · exact h.disjoint g hmem
  · exact hadd

/-- A peer moves to the slot of its group among the tried, if that is free. -/
theorem Sound.promote (h : Sound sha256 key U s) (hp : s.mapPeers.lookup k = some p)
    (hg : Book.groupKeyOf sha256 key p.addr = g) :
    Sound sha256 key U ((s.setTriedTbl (insertNew g k s.triedTbl)).setNewTbl
      (s.newTbl.erase g)) where
  key_eq := h.key_eq
  keyed := h.keyed
  newSlots := h.newSlots.erase g
  triedSlots := h.triedSlots.insertNew hp hg
  disjoint g' hmem hmem' := by
    rcases AList.mem_erase.mp hmem with ⟨hne, hnew⟩
    rcases mem_insertNew.mp hmem' with heq | htried
    · exact hne heq
    · exact h.disjoint g' hnew htried
  nodup := h.nodup
  order := h.order

end Soundness

section Calls

variable {sha256 : List Byte → Hash256} {key : Hash256} {U : Set IpAddr} {s : Book}
  {addr source : NetAddr}

theorem Sound.refresh (h : Sound sha256 key U s) {k : U64} {p : Peer}
    (hp : s.mapPeers.lookup k = some p) (addr : NetAddr) (timePenalty now : I64) :
    ∃ s', s.refresh k p addr timePenalty now = .ok s' ∧ Sound sha256 key U s' := by
  have hlast : ∀ s₁ : Book, Sound sha256 key U s₁ → (∃ q, s₁.mapPeers.lookup k = some q) →
      ∃ s', (s₁.updatePeer k fun q => { q with addr := { q.addr with
        services := p.addr.services ||| addr.services } }) = .ok s' ∧ Sound sha256 key U s' := by
    rintro s₁ h₁ ⟨q, hq⟩
    rcases h₁.updatePeer (f := fun q => { q with addr := { q.addr with
      services := p.addr.services ||| addr.services } }) hq rfl with ⟨s', hrun, hs', -⟩
    exact ⟨s', hrun, hs'⟩
  rw [Book.refresh]
  split_ifs
  · rcases h.updatePeer (f := fun q => { q with addr := { q.addr with
      timestamp := Book.penalised addr timePenalty } }) hp rfl with ⟨s₁, hrun, h₁, hq, -⟩
    rw [hrun]
    exact hlast s₁ h₁ ⟨_, hq⟩
  · exact hlast s h ⟨p, hp⟩

theorem Sound.addKnown (h : Sound sha256 key U s) {p : Peer}
    (hinj : U.InjOn (Book.mapKeyOf sha256 key)) (haddr : addr.ip ∈ U)
    (hp : s.mapPeers.lookup (Book.mapKeyOf sha256 key addr.ip) = some p)
    (timePenalty now nowOnline : I64) :
    ∃ s', s.addKnown (Book.mapKeyOf sha256 key addr.ip) (Book.groupKeyOf sha256 key addr)
        (p, s.newTbl.lookup (Book.groupKeyOf sha256 key addr) ==
            some (Book.mapKeyOf sha256 key addr.ip),
          s.triedTbl.lookup (Book.groupKeyOf sha256 key addr) ==
            some (Book.mapKeyOf sha256 key addr.ip)) addr timePenalty now nowOnline = .ok s' ∧
      Sound sha256 key U s' := by
  have hip := h.sameIp hinj haddr hp
  have hg : Book.groupKeyOf sha256 key p.addr = Book.groupKeyOf sha256 key addr := by
    rw [Book.groupKeyOf, Book.groupKeyOf, NetAddr.getGroup_congr hip]
  rw [Book.addKnown]
  by_cases hterrible : isTerriblePeer p now
  · rw [if_pos hterrible]
    exact ⟨_, rfl, h.evict hp hg⟩
  · rw [if_neg hterrible]
    split_ifs
    · exact ⟨s, rfl, h⟩
    · exact h.refresh hp addr timePenalty nowOnline

theorem Sound.add (h : Sound sha256 key U s) (hinj : U.InjOn (Book.mapKeyOf sha256 key))
    (haddr : addr.ip ∈ U) (source : NetAddr) (timePenalty now nowOnline : I64) :
    ∃ r, s.add sha256 addr source timePenalty now nowOnline = .ok r ∧ Sound sha256 key U r.2 := by
  by_cases hroutable : (!addr.isRoutable) = true
  · refine ⟨(false, s), ?_, h⟩
    rw [Book.add, if_pos hroutable]
    rfl
  rw [Book.add, if_neg hroutable]
  obtain rfl := h.key_eq
  simp only [Book.makeMapKey_false, Book.makeMapKey_true, Book.find]
  generalize (if addr.sameEndpoint source then 0 else timePenalty) = penalty
  cases hlookup : s.mapPeers.lookup (Book.mapKeyOf sha256 s.key addr.ip) with
  | some p =>
    rcases h.addKnown hinj haddr hlookup penalty now nowOnline with ⟨s', hrun, hs'⟩
    refine ⟨(false, s'), ?_, hs'⟩
    rw [Option.map_some]
    dsimp only
    rw [hrun]
    rfl
  | none =>
    rcases h.makeRoom (Book.groupKeyOf sha256 s.key addr) now with
      ⟨⟨addNew, s'⟩, hrun, hs', hroom, hkept⟩
    have hkey := hkept _ (AList.lookup_eq_none.mp hlookup)
    refine ⟨(true, s'.addNewPeer (Book.mapKeyOf sha256 s.key addr.ip)
      (Book.groupKeyOf sha256 s.key addr) addNew addr source), ?_,
      hs'.addNewPeer haddr hkey hroom⟩
    rw [Option.map_none]
    dsimp only
    rw [hrun]
    rfl

theorem Sound.addAll (h : Sound sha256 key U s) (hinj : U.InjOn (Book.mapKeyOf sha256 key))
    (source : NetAddr) (timePenalty : I64) {addrs : List (NetAddr × I64 × I64)}
    (haddrs : ∀ a ∈ addrs, a.1.ip ∈ U) :
    ∃ r, Book.addAll sha256 source timePenalty s addrs = .ok r ∧ Sound sha256 key U r.2 := by
  induction addrs generalizing s with
  | nil => exact ⟨(false, s), rfl, h⟩
  | cons a rest ih =>
    rcases a with ⟨addr, now, nowOnline⟩
    rcases h.add hinj (haddrs _ List.mem_cons_self) source timePenalty now nowOnline with
      ⟨⟨added, s₁⟩, hrun, h₁⟩
    rcases ih h₁ (fun a ha => haddrs a (List.mem_cons_of_mem _ ha)) with ⟨⟨more, s₂⟩, hrest, h₂⟩
    refine ⟨(added || more, s₂), ?_, h₂⟩
    rw [Book.addAll, hrun]
    change (do
      let r ← Book.addAll sha256 source timePenalty s₁ rest
      pure (added || r.1, r.2)) = _
    rw [hrest]
    rfl

theorem Sound.makeTried (h : Sound sha256 key U s) (addr : NetAddr) (time : I64) :
    ∃ r, s.makeTried sha256 addr time = .ok r ∧ Sound sha256 key U r.2 := by
  rw [Book.makeTried]
  obtain rfl := h.key_eq
  simp only [Book.makeMapKey_false, Book.makeMapKey_true, Book.find]
  cases hlookup : s.mapPeers.lookup (Book.mapKeyOf sha256 s.key addr.ip) with
  | none => exact ⟨(false, s), rfl, h⟩
  | some p =>
    rw [Option.map_some]
    dsimp only
    rcases h.updatePeer (f := fun p =>
      { p with lastSuccess := time, lastTry := time, attempts := 0 }) hlookup rfl with
      ⟨s₁, hrun, h₁, hq, hnew, htried⟩
    split_ifs with hother hslot
    · exact ⟨(false, s), rfl, h⟩
    · exact ⟨(false, s₁), by rw [hrun]; rfl, h₁⟩
    · refine ⟨(true, _), by rw [hrun]; rfl, h₁.promote hq ?_⟩
      rw [Bool.not_eq_true, Bool.not_eq_false'] at hother
      rw [Book.groupKeyOf, Book.groupKeyOf, NetAddr.getGroup_congr (NetAddr.ip_eq hother)]

theorem Sound.updateKnown (h : Sound sha256 key U s) {f : Peer → Peer}
    (hf : ∀ p, (f p).addr.ip = p.addr.ip) (addr : NetAddr) :
    ∃ r, s.updateKnown sha256 addr f = .ok r ∧ Sound sha256 key U r.2 := by
  rw [Book.updateKnown]
  obtain rfl := h.key_eq
  simp only [Book.makeMapKey_false, Book.makeMapKey_true, Book.find]
  cases hlookup : s.mapPeers.lookup (Book.mapKeyOf sha256 s.key addr.ip) with
  | none => exact ⟨(false, s), rfl, h⟩
  | some p =>
    rw [Option.map_some]
    dsimp only
    rcases h.updatePeer hlookup (hf p) with ⟨s₁, hrun, h₁, -⟩
    split_ifs with hother
    · exact ⟨(false, s), rfl, h⟩
    · exact ⟨(true, s₁), by rw [hrun]; rfl, h₁⟩

/-- A position inside the table that it is drawn for leads to a peer. -/
theorem Sound.select (h : Sound sha256 key U s) {newOnly : Bool} {coin : U64} {randPos : Nat}
    (hpos : ∀ tbl, s.selectTable newOnly coin = some tbl → randPos < tbl.entries.length) :
    ∃ r, s.select newOnly coin randPos = .ok r := by
  rw [Book.select]
  cases htable : s.selectTable newOnly coin with
  | none => exact ⟨none, rfl⟩
  | some tbl =>
    have hslots : Slots sha256 key s tbl := by
      rw [Book.selectTable] at htable
      split_ifs at htable <;> cases htable
      · exact h.triedSlots
      · exact h.newSlots
    dsimp only
    cases hslot : tbl.entries[randPos]? with
    | none =>
      have := List.getElem?_eq_none_iff.mp hslot
      have := hpos tbl htable
      omega
    | some slot =>
      have hmem : tbl.lookup slot.1 = some slot.2 :=
        AList.mem_lookup_iff.mpr (List.mem_of_getElem? hslot)
      rcases hslots _ _ hmem with ⟨p, hp, -⟩
      refine ⟨some p, ?_⟩
      dsimp only
      rw [Book.peerAt_ok hp]
      rfl

theorem Sound.length_order (h : Sound sha256 key U s) :
    s.randOrderKeys.Perm s.mapPeers.keys :=
  (List.perm_ext_iff_of_nodup h.nodup s.mapPeers.keys_nodup).mpr h.order

/-- One peer more is looked at. -/
theorem collect_succ {now : Nat → I64} {i : Nat} {out : List NetAddr} {p : Peer}
    (hi : i < s.randOrderKeys.length) (hout : s.collect now i = .ok out)
    (hp : s.peerAt s.randOrderKeys[i] = .ok p) :
    s.collect now (i + 1) = .ok (if isTerriblePeer p (now i) then out else out ++ [p.addr]) := by
  rw [Book.collect, hout, List.getElem?_eq_getElem hi]
  change (do
    let peer ← s.peerAt s.randOrderKeys[i]
    pure (if isTerriblePeer peer (now i) then out else out ++ [peer.addr])) = _
  rw [hp]
  rfl

/-- Looking at no more peers than there are finds each of them. -/
theorem Sound.collect (h : Sound sha256 key U s) (now : Nat → I64) {count : Nat}
    (hcount : count ≤ s.mapPeers.entries.length) : ∃ out, s.collect now count = .ok out := by
  have hlength : s.randOrderKeys.length = s.mapPeers.entries.length := by
    rw [h.length_order.length_eq, AList.keys, List.keys, List.length_map]
  induction count with
  | zero => exact ⟨[], rfl⟩
  | succ i ih =>
    rcases ih (by omega) with ⟨out, hout⟩
    have hi : i < s.randOrderKeys.length := by omega
    rcases h.peerAt (List.getElem_mem hi) with ⟨p, hp⟩
    exact ⟨_, collect_succ hi hout hp⟩

theorem getAddrsCount_le (s : Book) : s.getAddrsCount ≤ s.mapPeers.entries.length := by
  rw [Book.getAddrsCount]
  split_ifs with h
  · rw [Book.kMaxGetaddrPct]
    omega
  · rw [Book.kMaxGetaddrPct] at h
    omega

theorem Sound.getAddrs (h : Sound sha256 key U s) {order : List U64}
    (horder : order.Perm s.randOrderKeys) (now : Nat → I64) :
    ∃ r, s.getAddrs order now = .ok r ∧ Sound sha256 key U r.2 := by
  have hshuffled : Sound sha256 key U { s with randOrderKeys := order } :=
    { h with
      nodup := horder.nodup_iff.mpr h.nodup
      order := fun k => horder.mem_iff.trans (h.order k) }
  rcases hshuffled.collect now (getAddrsCount_le _) with ⟨out, hrun⟩
  refine ⟨(out, _), ?_, hshuffled⟩
  rw [Book.getAddrs, hrun]
  rfl

theorem Sound.clear (h : Sound sha256 key U s) : Sound sha256 key U s.clear :=
  sound_of_empty h.key_eq rfl rfl rfl rfl

end Calls

section Reachable

/-- A call on a book, with what it finds on the clock, draws or shuffles. -/
inductive Call where
  | add (addr source : NetAddr) (timePenalty now nowOnline : I64)
  | addAll (addrs : List (NetAddr × I64 × I64)) (source : NetAddr) (timePenalty : I64)
  | makeTried (addr : NetAddr) (time : I64)
  | setServices (addr : NetAddr) (services : U64)
  | attempt (addr : NetAddr) (time : I64)
  | updateTime (addr : NetAddr) (time : I64)
  | select (newOnly : Bool) (coin : U64) (randPos : Nat)
  | getAddrs (order : List U64) (now : Nat → I64)
  | clear

variable (sha256 : List Byte → Hash256) (U : Set IpAddr) (s : Book)

/-- The book after a call. -/
def Call.run : Call → Except Fault Book
  | add addr source timePenalty now nowOnline =>
    Prod.snd <$> s.add sha256 addr source timePenalty now nowOnline
  | addAll addrs source timePenalty => Prod.snd <$> Book.addAll sha256 source timePenalty s addrs
  | makeTried addr time => Prod.snd <$> s.makeTried sha256 addr time
  | setServices addr services => Prod.snd <$> s.setServices sha256 addr services
  | attempt addr time => Prod.snd <$> s.attempt sha256 addr time
  | updateTime addr time => Prod.snd <$> s.updateTime sha256 addr time
  | select newOnly coin randPos => (fun _ => s) <$> s.select newOnly coin randPos
  | getAddrs order now => Prod.snd <$> s.getAddrs order now
  | clear => .ok s.clear

/-- Addresses are added from `U`, positions drawn inside a table, and a shuffle only shuffles. -/
def Call.Allowed : Call → Prop
  | add addr _ _ _ _ => addr.ip ∈ U
  | addAll addrs _ _ => ∀ a ∈ addrs, a.1.ip ∈ U
  | select newOnly coin randPos =>
    ∀ tbl, s.selectTable newOnly coin = some tbl → randPos < tbl.entries.length
  | getAddrs order _ => order.Perm s.randOrderKeys
  | _ => True

/-- What any calls make of a new book. -/
abbrev Reachable (key : Hash256) : Book → Prop :=
  Run (fun s (c : Call) s' => c.run sha256 s = .ok s') (fun s c => c.Allowed U s) (fresh key)

/-- The containers of a book agree. -/
structure Consistent : Prop where
  newTbl : ∀ g k, s.newTbl.lookup g = some k →
    ∃ p, s.mapPeers.lookup k = some p ∧ s.makeMapKey sha256 p.addr true = g
  triedTbl : ∀ g k, s.triedTbl.lookup g = some k →
    ∃ p, s.mapPeers.lookup k = some p ∧ s.makeMapKey sha256 p.addr true = g
  disjoint : ∀ g, ¬(g ∈ s.newTbl ∧ g ∈ s.triedTbl)
  nodup : s.randOrderKeys.Nodup
  perm : s.randOrderKeys.Perm s.mapPeers.keys

variable {sha256 U s} {key : Hash256}

theorem Sound.consistent (h : Sound sha256 key U s) : Consistent sha256 s where
  newTbl := by
    obtain rfl := h.key_eq
    exact h.newSlots
  triedTbl := by
    obtain rfl := h.key_eq
    exact h.triedSlots
  disjoint g hboth := h.disjoint g hboth.1 hboth.2
  nodup := h.nodup
  perm := h.length_order

theorem Sound.call (h : Sound sha256 key U s) (hinj : U.InjOn (Book.mapKeyOf sha256 key))
    {c : Call} (hallowed : c.Allowed U s) :
    ∃ s', c.run sha256 s = .ok s' ∧ Sound sha256 key U s' := by
  have hsnd {A : Type} {x : Except Fault (A × Book)}
      (hx : ∃ r, x = .ok r ∧ Sound sha256 key U r.2) :
      ∃ s', Prod.snd <$> x = .ok s' ∧ Sound sha256 key U s' := by
    rcases hx with ⟨r, rfl, hr⟩
    exact ⟨r.2, rfl, hr⟩
  cases c with
  | add addr source timePenalty now nowOnline =>
    exact hsnd (h.add hinj hallowed source timePenalty now nowOnline)
  | addAll addrs source timePenalty => exact hsnd (h.addAll hinj source timePenalty hallowed)
  | makeTried addr time => exact hsnd (h.makeTried addr time)
  | setServices addr services =>
    refine hsnd (h.updateKnown (fun p => ?_) addr)
    rfl
  | attempt addr time =>
    refine hsnd (h.updateKnown (fun p => ?_) addr)
    rfl
  | updateTime addr time =>
    refine hsnd (h.updateKnown (fun p => ?_) addr)
    split_ifs <;> rfl
  | select newOnly coin randPos =>
    rcases h.select hallowed with ⟨r, hrun⟩
    exact ⟨s, by rw [Call.run, hrun]; rfl, h⟩
  | getAddrs order now => exact hsnd (h.getAddrs hallowed now)
  | clear => exact ⟨s.clear, rfl, h.clear⟩

theorem Reachable.sound (hinj : U.InjOn (Book.mapKeyOf sha256 key))
    (h : Reachable sha256 U key s) : Sound sha256 key U s := by
  refine Run.preserves (P := Sound sha256 key U) ?_ h fresh_sound
  intro s c s' hsound hallowed hnext
  rcases hsound.call hinj hallowed with ⟨s'', hrun, hs''⟩
  obtain rfl : s'' = s' := by simpa [hrun] using hnext
  exact hs''

/-- Any book is consistent, and any further call on it returns. -/
theorem reachable_consistent (hinj : U.InjOn (Book.mapKeyOf sha256 key))
    (h : Reachable sha256 U key s) :
    Consistent sha256 s ∧ ∀ c : Call, c.Allowed U s → ∃ s', c.run sha256 s = .ok s' := by
  have hsound := h.sound hinj
  refine ⟨hsound.consistent, fun c hallowed => ?_⟩
  rcases hsound.call hinj hallowed with ⟨s', hrun, -⟩
  exact ⟨s', hrun⟩

section Example

/-- An address that can be routed to. -/
def resolver : NetAddr where
  timestamp := 1700000000
  services := 1
  ip := ⟨[0, 0, 0, 0, 0, 0, 0, 0, 0, 0, 0xff, 0xff, 8, 8, 8, 8], rfl⟩
  protoPort := 8333

/-- The digests that a book with an empty secret asks for about that address. -/
def resolverSha256 (bytes : List Byte) : Hash256 :=
  ([((Bytes.zero 32).data ++ serializeByteVector (List.replicate 16 0 ++ resolver.ip.data),
      hashOf 0x829c031ff483a0981e667743a1d61979d4df86204897f4745639c328f323a4e4),
    ((Bytes.zero 32).data ++ serializeByteVector resolver.getGroup,
      hashOf 0xe140e04239aecb82e249dec5a566768edf1b1567285ffb15c3b9416052996618)].lookup
    bytes).getD default

def resolverKey : U64 := 10997935374554340482

def resolverGroup : U64 := 9424818206161256673

/-- The book after the address was added. -/
def resolverAdded : Book :=
  (fresh (Bytes.zero 32)).addNewPeer resolverKey resolverGroup true resolver resolver

theorem resolver_reachable :
    Reachable resolverSha256 {resolver.ip} (Bytes.zero 32) resolverAdded := by
  refine Run.single (a := .add resolver resolver 0 1700000000 1700000000) rfl ?_
  rfl

/-- Another address of its group. -/
def neighbour : NetAddr where
  timestamp := 1702000000
  services := 1
  ip := ⟨[0, 0, 0, 0, 0, 0, 0, 0, 0, 0, 0xff, 0xff, 8, 8, 4, 4], rfl⟩
  protoPort := 8333

/-- The digests for both of them. -/
def groupSha256 (bytes : List Byte) : Hash256 :=
  if bytes = (Bytes.zero 32).data ++
      serializeByteVector (List.replicate 16 0 ++ neighbour.ip.data) then
    hashOf 0x3ae7c89d436007159767e4491d70d8dd74d729d7f8b00367916efea6e63928b7
  else resolverSha256 bytes

def neighbourKey : U64 := 1515285643159725882

theorem group_injOn :
    Set.InjOn (Book.mapKeyOf groupSha256 (Bytes.zero 32)) {resolver.ip, neighbour.ip} := by
  have hkeys : Book.mapKeyOf groupSha256 (Bytes.zero 32) resolver.ip ≠
      Book.mapKeyOf groupSha256 (Bytes.zero 32) neighbour.ip := by decide
  exact Set.injOn_pair.mpr fun h => absurd h hkeys

/-- Two addresses of one group, of which the first has its slot. -/
def groupAdded : Book :=
  resolverAdded.addNewPeer neighbourKey resolverGroup false neighbour neighbour

theorem groupAdded_reachable :
    Reachable groupSha256 {resolver.ip, neighbour.ip} (Bytes.zero 32) groupAdded := by
  have hfirst : Reachable groupSha256 {resolver.ip, neighbour.ip} (Bytes.zero 32)
      resolverAdded :=
    Run.single (a := .add resolver resolver 0 1700000000 1700000000) (.inl rfl) rfl
  exact hfirst.tail ⟨.add neighbour neighbour 0 1702000000 1702000000, .inr rfl, rfl⟩

/-- The one that has the slot is promoted, and has the slot among the tried. -/
theorem reachable_consistent_promoted : Consistent groupSha256 groupAdded ∧ ∃ s',
    (Call.makeTried resolver 1702000060).run groupSha256 groupAdded = .ok s' ∧
      s'.triedTbl.lookup resolverGroup = some resolverKey ∧
      s'.mapPeers.keys = [resolverKey, neighbourKey] ∧ Consistent groupSha256 s' := by
  have h := reachable_consistent group_injOn groupAdded_reachable
  obtain ⟨s', hrun⟩ := h.2 (.makeTried resolver 1702000060) trivial
  have hs' := groupAdded_reachable.tail ⟨.makeTried resolver 1702000060, trivial, hrun⟩
  refine ⟨h.1, s', hrun, ?_, ?_, (reachable_consistent group_injOn hs').1⟩
  · cases hrun
    rfl
  · cases hrun
    rfl

/-- A digest that keeps the last byte. -/
def lastSha256 (bytes : List Byte) : Hash256 :=
  ⟨bytes.getLastD 0 :: List.replicate 31 0, by simp⟩

/-- The addresses 8.x.8.x, each of a group of its own. -/
def host (x : Byte) : NetAddr where
  timestamp := 1700000000
  services := 1
  ip := ⟨[0, 0, 0, 0, 0, 0, 0, 0, 0, 0, 0xff, 0xff, 8, x, 8, x], rfl⟩
  protoPort := 8333

/-- The book after these of them were added. -/
def hostBook (xs : List Byte) : Book :=
  xs.foldl (fun s x => s.addNewPeer (x.setWidth 64) (x.setWidth 64) true (host x) (host x))
    (fresh (Bytes.zero 32))

theorem hostBook_one_reachable {U : Set IpAddr} (hU : (host 1).ip ∈ U) :
    Reachable lastSha256 U (Bytes.zero 32) (hostBook [1]) :=
  Run.single (a := .add (host 1) (host 1) 0 1700000000 1700000000) hU rfl

theorem hostBook_two_reachable {U : Set IpAddr} (h₁ : (host 1).ip ∈ U) (h₂ : (host 2).ip ∈ U) :
    Reachable lastSha256 U (Bytes.zero 32) (hostBook [1, 2]) :=
  (hostBook_one_reachable h₁).tail ⟨.add (host 2) (host 2) 0 1700000000 1700000000, h₂, rfl⟩

end Example

end Reachable

end AddressBook
