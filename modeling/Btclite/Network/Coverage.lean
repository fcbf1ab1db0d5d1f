import Btclite.Network.BookEdits
import Btclite.Network.Selection

/-!
# Coverage of the groups

Of the peers of a group at most one has the slot by which `Select` finds the group. A slot is
given up when its peer has become terrible: to make room for another one of the group, which
then has it, or because the same address is added again, and then no one has. So a group
stays within reach as long as no peer that has the slot for others is thrown out.
-/

namespace Coverage

open Loops Relation Endian Serialize Address Tables Peers Runs AddressBook BookEdits Selection

section Covering

variable (sha256 : List Byte → Hash256) (s : Book)

def InTable (g : U64) : Prop := g ∈ s.newTbl ∨ g ∈ s.triedTbl

/-- The group of every peer has a slot. -/
def Covered : Prop :=
  ∀ k p, s.mapPeers.lookup k = some p → InTable s (s.makeMapKey sha256 p.addr true)

/-- The peer under a key has the slot of its group. -/
def Holds (g k : U64) : Prop := s.newTbl.lookup g = some k ∨ s.triedTbl.lookup g = some k

/-- Adding an address throws no one out who has the slot for others. -/
def SparesAdd (addr : NetAddr) (now : I64) : Prop :=
  ∀ p, addr.isRoutable = true →
    s.mapPeers.lookup (s.makeMapKey sha256 addr false) = some p → isTerriblePeer p now = true →
    Holds s (s.makeMapKey sha256 addr true) (s.makeMapKey sha256 addr false) →
    ∀ k q, s.mapPeers.lookup k = some q →
      s.makeMapKey sha256 q.addr true = s.makeMapKey sha256 addr true →
      k = s.makeMapKey sha256 addr false

/-- Nor does adding addresses one after another. -/
def SparesAll (source : NetAddr) (timePenalty : I64) :
    Book → List (NetAddr × I64 × I64) → Prop
  | _, [] => True
  | s, (addr, now, nowOnline) :: rest => SparesAdd sha256 s addr now ∧
    ∀ r, s.add sha256 addr source timePenalty now nowOnline = .ok r →
      SparesAll source timePenalty r.2 rest

/-- Only where addresses are added can anyone be thrown out. -/
def Spares : Call → Prop
  | .add addr _ _ now _ => SparesAdd sha256 s addr now
  | .addAll addrs source timePenalty => SparesAll sha256 source timePenalty s addrs
  | _ => True

variable {sha256 s} {s' : Book}

theorem covered_of (h : Covered sha256 s) (hkey : s'.key = s.key)
    (hpeers : ∀ k p, s'.mapPeers.lookup k = some p →
      InTable s' (s'.makeMapKey sha256 p.addr true) ∨
        ∃ q, s.mapPeers.lookup k = some q ∧ q.addr.ip = p.addr.ip)
    (htables : ∀ g, InTable s g → InTable s' g) : Covered sha256 s' := by
  intro k p hp
  rcases hpeers k p hp with hcovered | ⟨q, hq, hip⟩
  · exact hcovered
  · have hgroup : s'.makeMapKey sha256 p.addr true = s.makeMapKey sha256 q.addr true := by
      rw [Book.makeMapKey_true, Book.makeMapKey_true, hkey, Book.groupKeyOf, Book.groupKeyOf,
        NetAddr.getGroup_congr hip]
    rw [hgroup]
    exact htables _ (h k q hq)

/-- Peers may have changed, but none has come or moved, and all slots are as they were. -/
structure InPlace (s s' : Book) : Prop where
  key_eq : s'.key = s.key
  newTbl_eq : s'.newTbl = s.newTbl
  triedTbl_eq : s'.triedTbl = s.triedTbl
  peers : ∀ k p, s'.mapPeers.lookup k = some p →
    ∃ q, s.mapPeers.lookup k = some q ∧ q.addr.ip = p.addr.ip

theorem InPlace.refl (s : Book) : InPlace s s := ⟨rfl, rfl, rfl, fun _ p hp => ⟨p, hp, rfl⟩⟩

theorem InPlace.trans {s'' : Book} (h : InPlace s s') (h' : InPlace s' s'') : InPlace s s'' where
  key_eq := h'.key_eq.trans h.key_eq
  newTbl_eq := h'.newTbl_eq.trans h.newTbl_eq
  triedTbl_eq := h'.triedTbl_eq.trans h.triedTbl_eq
  peers k p hp := by
    obtain ⟨q, hq, hip⟩ := h'.peers k p hp
    obtain ⟨r, hr, hip'⟩ := h.peers k q hq
    exact ⟨r, hr, hip'.trans hip⟩

theorem InPlace.covered (h : InPlace s s') (hc : Covered sha256 s) : Covered sha256 s' := by
  refine covered_of hc h.key_eq (fun k p hp => .inr (h.peers k p hp)) fun g hg => ?_
  rw [InTable, h.newTbl_eq, h.triedTbl_eq]
  exact hg

theorem change_inPlace {k : U64} {p q : Peer} (hq : s.mapPeers.lookup k = some q)
    (hip : p.addr.ip = q.addr.ip) : InPlace s (s.setMapPeers (s.mapPeers.insert k p)) := by
  refine ⟨rfl, rfl, rfl, fun k' r hr => ?_⟩
  change (s.mapPeers.insert k p).lookup k' = some r at hr
  by_cases hk : k' = k
  · subst hk
    obtain rfl : p = r := Option.some.inj ((AList.lookup_insert _).symm.trans hr)
    exact ⟨q, hq, hip.symm⟩
  · exact ⟨r, (AList.lookup_insert_ne hk).symm.trans hr, rfl⟩

theorem inPlace_of_changes (h : Changes s s') : InPlace s s' := by
  induction h with
  | refl => exact InPlace.refl s
  | tail _ hlast ih =>
    obtain ⟨⟨k, p⟩, ⟨q, hq, hip⟩, rfl⟩ := hlast
    exact ih.trans (change_inPlace hq hip)

end Covering

section Adding

variable {sha256 : List Byte → Hash256} {key : Hash256} {U : Set IpAddr} {s s' : Book}
  {k g : U64} {addr source : NetAddr}

/-- The book without a peer, and without the slot that it may have. -/
def evicted (s : Book) (g k : U64) : Book :=
  (if s.newTbl.lookup g == some k then s.setNewTbl (s.newTbl.erase g)
    else if s.triedTbl.lookup g == some k then s.setTriedTbl (s.triedTbl.erase g)
    else s).erasePeer k

theorem evicted_lookup {k' : U64} {p : Peer} :
    (evicted s g k).mapPeers.lookup k' = some p ↔ k' ≠ k ∧ s.mapPeers.lookup k' = some p := by
  have hpeers : (evicted s g k).mapPeers = s.mapPeers.erase k := by
    rw [evicted]
    split_ifs <;> rfl
  rw [hpeers]
  by_cases hk : k' = k
  · rw [hk, AList.lookup_erase]
    simp
  · rw [AList.lookup_erase_ne hk]
    simp [hk]

theorem evicted_key : (evicted s g k).key = s.key := by
  rw [evicted]
  split_ifs <;> rfl

/-- A slot is lost only with the peer that holds it. -/
theorem evicted_inTable (h : Sound sha256 key U s) {g' : U64} :
    InTable (evicted s g k) g' ↔ InTable s g' ∧ ¬ (g' = g ∧ Holds s g k) := by
  rw [evicted]
  split_ifs with hnew htried
  · rw [beq_iff_eq] at hnew
    change g' ∈ s.newTbl.erase g ∨ g' ∈ s.triedTbl ↔ _
    have hnot := h.disjoint g (lookup_eq_some_mem hnew)
    rw [AList.mem_erase, InTable, Holds]
    constructor
    · rintro (⟨hne, hmem⟩ | hmem)
      · exact ⟨.inl hmem, fun hg => hne hg.1⟩
      · exact ⟨.inr hmem, fun hg => hnot (hg.1 ▸ hmem)⟩
    · rintro ⟨hmem, hg⟩
      exact hmem.imp (fun hmem => ⟨fun heq => hg ⟨heq, .inl hnew⟩, hmem⟩) id
  · rw [beq_iff_eq] at htried
    change g' ∈ s.newTbl ∨ g' ∈ s.triedTbl.erase g ↔ _
    have hnot : g ∉ s.newTbl := fun hmem => h.disjoint g hmem (lookup_eq_some_mem htried)
    rw [AList.mem_erase, InTable, Holds]
    constructor
    · rintro (hmem | ⟨hne, hmem⟩)
      · exact ⟨.inl hmem, fun hg => hnot (hg.1 ▸ hmem)⟩
      · exact ⟨.inr hmem, fun hg => hne hg.1⟩
    · rintro ⟨hmem, hg⟩
      exact hmem.imp id fun hmem => ⟨fun heq => hg ⟨heq, .inr htried⟩, hmem⟩
  · rw [beq_iff_eq] at hnew htried
    change InTable s g' ↔ _
    have hno : ¬ Holds s g k := not_or.mpr ⟨hnew, htried⟩
    simp [hno]

theorem evicted_covered_iff (h : Sound sha256 key U s) (hc : Covered sha256 s) :
    Covered sha256 (evicted s g k) ↔ (Holds s g k → ∀ k' q, s.mapPeers.lookup k' = some q →
      s.makeMapKey sha256 q.addr true = g → k' = k) := by
  have hgroup : ∀ a, (evicted s g k).makeMapKey sha256 a true = s.makeMapKey sha256 a true := by
    intro a
    rw [Book.makeMapKey_true, Book.makeMapKey_true, evicted_key]
  constructor
  · intro hcovered hholds k' q hq hg
    by_contra hk
    have hin := hcovered k' q (evicted_lookup.mpr ⟨hk, hq⟩)
    rw [hgroup, hg, evicted_inTable h] at hin
    exact hin.2 ⟨rfl, hholds⟩
  · intro hspares k' q hq
    obtain ⟨hk, hq⟩ := evicted_lookup.mp hq
    rw [hgroup, evicted_inTable h]
    exact ⟨hc k' q hq, fun hboth => hk (hspares hboth.2 k' q hq hboth.1)⟩

/-- A group keeps its slot or has none to keep when room is made, and others keep theirs. -/
theorem makeRoom_tables (h : Sound sha256 key U s) {now : I64} {r : Bool × Book}
    (hrun : s.makeRoom g now = .ok r) :
    (∀ k p, r.2.mapPeers.lookup k = some p → s.mapPeers.lookup k = some p) ∧
      (∀ g', g' ≠ g → InTable s g' → InTable r.2 g') ∧ (r.1 = false → InTable r.2 g) := by
  rcases h.makeRoom_cases g now with ⟨hgo, -, -⟩ | ⟨p, k, -, -, hholds, hgo⟩
  · cases hgo.symm.trans hrun
    exact ⟨fun _ _ hp => hp, fun _ _ hg => hg, Bool.noConfusion⟩
  by_cases hterrible : isTerriblePeer p now = true
  · rw [if_pos hterrible] at hgo
    obtain rfl : (true, evicted s g k) = r := Except.ok.inj (hgo.symm.trans hrun)
    exact ⟨fun _ _ hp => (evicted_lookup.mp hp).2,
      fun g' hne hg => (evicted_inTable h).mpr ⟨hg, fun hboth => hne hboth.1⟩,
      Bool.noConfusion⟩
  · rw [if_neg hterrible] at hgo
    obtain rfl : (false, s) = r := Except.ok.inj (hgo.symm.trans hrun)
    exact ⟨fun _ _ hp => hp, fun _ _ hg => hg,
      fun _ => hholds.imp lookup_eq_some_mem lookup_eq_some_mem⟩

theorem addNewPeer_key {addNew : Bool} : (s.addNewPeer k g addNew addr source).key = s.key := by
  rw [Book.addNewPeer]
  split_ifs <;> rfl

theorem addNewPeer_mapPeers {addNew : Bool} (hk : k ∉ s.mapPeers) :
    (s.addNewPeer k g addNew addr source).mapPeers =
      s.mapPeers.insert k { addr, source, attempts := 0 } := by
  rw [Book.addNewPeer, insertNew_of_notMem hk]
  split_ifs <;> rfl

theorem addNewPeer_inTable {addNew : Bool} {g' : U64} :
    InTable (s.addNewPeer k g addNew addr source) g' ↔
      (addNew = true ∧ g' = g) ∨ InTable s g' := by
  cases addNew with
  | true =>
    change g' ∈ insertNew g k s.newTbl ∨ g' ∈ s.triedTbl ↔ _
    rw [mem_insertNew, InTable, or_assoc]
    simp
  | false =>
    change InTable s g' ↔ _
    simp

/-- Whoever comes has the slot of its group, or finds it taken. -/
theorem addNewPeer_covered (h : Sound sha256 key U s) (hc : Covered sha256 s) {now : I64}
    {r : Bool × Book} (hk : k ∉ s.mapPeers) (hg : s.makeMapKey sha256 addr true = g)
    (hrun : s.makeRoom g now = .ok r) :
    Covered sha256 (r.2.addNewPeer k g r.1 addr source) := by
  obtain ⟨hpeers, hothers, hstay⟩ := makeRoom_tables h hrun
  obtain ⟨-, hkey, hkept⟩ := makeRoom_edits sha256 hrun
  have hin : InTable (r.2.addNewPeer k g r.1 addr source) g := by
    rw [addNewPeer_inTable]
    cases hadd : r.1 with
    | true => exact .inl ⟨rfl, rfl⟩
    | false => exact .inr (hstay hadd)
  have hkey' : (r.2.addNewPeer k g r.1 addr source).key = s.key := addNewPeer_key.trans hkey
  refine covered_of hc hkey' (fun k' p hp => ?_) fun g' hg' => ?_
  · rw [addNewPeer_mapPeers (hkept k hk)] at hp
    by_cases hkk : k' = k
    · subst hkk
      obtain rfl := Option.some.inj ((AList.lookup_insert _).symm.trans hp)
      rw [Book.makeMapKey_true, hkey', ← Book.makeMapKey_true, hg]
      exact .inl hin
    · exact .inr ⟨p, hpeers k' p ((AList.lookup_insert_ne hkk).symm.trans hp), rfl⟩
  · by_cases hgg : g' = g
    · rw [hgg]
      exact hin
    · exact addNewPeer_inTable.mpr (.inr (hothers g' hgg hg'))

/-- Adding an address to a covered book leaves it covered exactly if no one is thrown out who
has the slot for others. -/
theorem add_covered_iff (h : Sound sha256 key U s) (hc : Covered sha256 s)
    {timePenalty now nowOnline : I64} {r : Bool × Book}
    (hrun : s.add sha256 addr source timePenalty now nowOnline = .ok r) :
    Covered sha256 r.2 ↔ SparesAdd sha256 s addr now := by
  obtain ⟨hroutable, hr⟩ | ⟨hroutable, ⟨p, penalty, hp, hknown⟩ | ⟨hk, room, hroom, hr⟩⟩ :=
    add_cases hrun
  · rw [hr]
    refine iff_of_true hc fun p hyes => ?_
    rw [hroutable] at hyes
    cases hyes
  · obtain ⟨hterrible, hr⟩ | ⟨hterrible, hchanges⟩ := addKnown_cases hknown
    · rw [hr]
      refine (evicted_covered_iff h hc).trans ⟨fun hspared q _ _ _ => hspared, fun hspared => ?_⟩
      exact hspared p hroutable hp hterrible
    · refine iff_of_true ((inPlace_of_changes hchanges).covered hc) fun q _ hq hterrible' => ?_
      obtain rfl : q = p := Option.some.inj (hq.symm.trans hp)
      rw [hterrible] at hterrible'
      cases hterrible'
  · rw [hr]
    refine iff_of_true (addNewPeer_covered h hc hk rfl hroom) fun p _ hp => ?_
    exact absurd (lookup_eq_some_mem hp) hk

theorem addAll_covered (h : Sound sha256 key U s) (hinj : U.InjOn (Book.mapKeyOf sha256 key))
    {timePenalty : I64} {addrs : List (NetAddr × I64 × I64)} (haddrs : ∀ a ∈ addrs, a.1.ip ∈ U)
    (hc : Covered sha256 s) (hspares : SparesAll sha256 source timePenalty s addrs)
    {r : Bool × Book} (hrun : Book.addAll sha256 source timePenalty s addrs = .ok r) :
    Covered sha256 r.2 := by
  induction addrs generalizing s r with
  | nil =>
    cases hrun
    exact hc
  | cons a rest ih =>
    obtain ⟨first, last, hfirst, hrest, hr⟩ := addAll_cons hrun
    obtain ⟨r₁, hrun₁, h₁⟩ :=
      h.add hinj (haddrs _ List.mem_cons_self) source timePenalty a.2.1 a.2.2
    cases hfirst.symm.trans hrun₁
    have hc₁ := (add_covered_iff h hc hfirst).mpr hspares.1
    rw [hr]
    exact ih h₁ (fun a ha => haddrs a (List.mem_cons_of_mem _ ha)) hc₁ (hspares.2 _ hfirst) hrest

/-- A promoted peer leaves the slots of its group no fewer than they were. -/
theorem makeTried_covered (hc : Covered sha256 s) {time : I64} {r : Bool × Book}
    (hrun : s.makeTried sha256 addr time = .ok r) : Covered sha256 r.2 := by
  obtain ⟨s₁, hchanges, hr | hr⟩ := makeTried_cases hrun
  · rw [hr]
    exact (inPlace_of_changes hchanges).covered hc
  · rw [hr]
    refine covered_of ((inPlace_of_changes hchanges).covered hc) rfl
      (fun k p hp => .inr ⟨p, hp, rfl⟩) fun g hg => ?_
    by_cases hgg : g = s.makeMapKey sha256 addr true
    · exact .inr (mem_insertNew.mpr (.inl hgg))
    · exact hg.imp (fun hmem => AList.mem_erase.mpr ⟨hgg, hmem⟩)
        fun hmem => mem_insertNew.mpr (.inr hmem)

/-- One case for each call. -/
theorem call_covered (h : Sound sha256 key U s) (hinj : U.InjOn (Book.mapKeyOf sha256 key))
    (hc : Covered sha256 s) {c : Call} (hallowed : c.Allowed U s) (hspares : Spares sha256 s c)
    (hrun : c.run sha256 s = .ok s') : Covered sha256 s' := by
  cases c with
  | add addr source timePenalty now nowOnline =>
    obtain ⟨r, hr, rfl⟩ := map_eq_ok.mp hrun
    exact (add_covered_iff h hc hr).mpr hspares
  | addAll addrs source timePenalty =>
    obtain ⟨r, hr, rfl⟩ := map_eq_ok.mp hrun
    exact addAll_covered h hinj hallowed hc hspares hr
  | makeTried addr time =>
    obtain ⟨r, hr, rfl⟩ := map_eq_ok.mp hrun
    exact makeTried_covered hc hr
  | setServices addr services =>
    obtain ⟨r, hr, rfl⟩ := map_eq_ok.mp hrun
    exact (inPlace_of_changes (updateKnown_changes hr fun _ => rfl)).covered hc
  | attempt addr time =>
    obtain ⟨r, hr, rfl⟩ := map_eq_ok.mp hrun
    exact (inPlace_of_changes (updateKnown_changes hr fun _ => rfl)).covered hc
  | updateTime addr time =>
    obtain ⟨r, hr, rfl⟩ := map_eq_ok.mp hrun
    refine (inPlace_of_changes (updateKnown_changes hr fun p => ?_)).covered hc
    split_ifs <;> rfl
  | select newOnly coin randPos =>
    obtain ⟨r, -, rfl⟩ := map_eq_ok.mp hrun
    exact hc
  | getAddrs order now =>
    obtain ⟨r, hr, rfl⟩ := map_eq_ok.mp hrun
    obtain ⟨out, -, hr⟩ := bind_eq_ok.mp hr
    cases hr
    exact hc
  | clear =>
    cases hrun
    intro k p hp
    cases hp

end Adding

section Reaching

variable (sha256 : List Byte → Hash256) (U : Set IpAddr)

/-- What calls make of a new book that throw no one out who has the slot for others. -/
abbrev Spared (key : Hash256) : Book → Prop :=
  Run (fun s (c : Call) s' => c.run sha256 s = .ok s')
    (fun s c => c.Allowed U s ∧ Spares sha256 s c) (fresh key)

variable {sha256 U} {key : Hash256} {s : Book}

theorem covered_of_spared (hinj : U.InjOn (Book.mapKeyOf sha256 key))
    (h : Spared sha256 U key s) : Sound sha256 key U s ∧ Covered sha256 s := by
  refine Run.preserves (P := fun s => Sound sha256 key U s ∧ Covered sha256 s) ?_ h
    ⟨fresh_sound, fun k p hp => nomatch hp⟩
  rintro s c s' ⟨hsound, hc⟩ ⟨hallowed, hspares⟩ hrun
  obtain ⟨s'', hrun', hsound'⟩ := hsound.call hinj hallowed
  cases hrun.symm.trans hrun'
  exact ⟨hsound', call_covered hsound hinj hc hallowed hspares hrun⟩

/-- In such a book the group of every peer has a slot, and `Select` can return a peer of the
group. -/
theorem groups_within_reach (hinj : U.InjOn (Book.mapKeyOf sha256 key))
    (h : Spared sha256 U key s) {k : U64} {p : Peer} (hp : s.mapPeers.lookup k = some p) :
    InTable s (s.makeMapKey sha256 p.addr true) ∧
      ∀ iter old, ∃ coin position q,
        selectInto s iter coin position (some old) false = .ok (true, some q, s) ∧
        s.makeMapKey sha256 q.addr true = s.makeMapKey sha256 p.addr true := by
  obtain ⟨hsound, hc⟩ := covered_of_spared hinj h
  refine ⟨hc k p hp, fun iter old => ?_⟩
  obtain ⟨k', hslot⟩ : ∃ k', Eligible s false (s.makeMapKey sha256 p.addr true) k' := by
    rcases hc k p hp with hnew | htried
    · obtain ⟨k', hk'⟩ := exists_lookup hnew
      exact ⟨k', .inl hk'⟩
    · obtain ⟨k', hk'⟩ := exists_lookup htried
      exact ⟨k', .inr ⟨rfl, hk'⟩⟩
  obtain ⟨coin, position, q, -, hgroup, hrun⟩ := exists_selectInto hsound iter old hslot
  refine ⟨coin, position, q, hrun, ?_⟩
  rw [Book.makeMapKey_true, hsound.key_eq, hgroup, Book.makeMapKey_true, hsound.key_eq]

section Example

theorem groupAdded_spared :
    Spared groupSha256 {resolver.ip, neighbour.ip} (Bytes.zero 32) groupAdded := by
  have hfirst : Spared groupSha256 {resolver.ip, neighbour.ip} (Bytes.zero 32)
      resolverAdded := by
    refine Run.single (a := .add resolver resolver 0 1700000000 1700000000) ⟨.inl rfl, ?_⟩ rfl
    intro p _ hp
    cases hp
  refine hfirst.tail ⟨.add neighbour neighbour 0 1702000000 1702000000, ⟨.inr rfl, ?_⟩, ?_⟩
  · intro p _ hp
    have hnone : resolverAdded.mapPeers.lookup
        (resolverAdded.makeMapKey groupSha256 neighbour false) = none := rfl
    rw [hnone] at hp
    cases hp
  · rfl

theorem groups_within_reach_neighbour :
    InTable groupAdded resolverGroup ∧
      ∀ iter old, ∃ coin position q,
        selectInto groupAdded iter coin position (some old) false = .ok (true, some q, groupAdded) ∧
        groupAdded.makeMapKey groupSha256 q.addr true = resolverGroup :=
  groups_within_reach group_injOn groupAdded_spared (k := neighbourKey)
    (p := { addr := neighbour, source := neighbour }) rfl

/-- The first one has become terrible when it is added again, and the second one is left
without the slot. -/
theorem neighbour_out_of_reach :
    Set.InjOn (Book.mapKeyOf groupSha256 (Bytes.zero 32)) {resolver.ip, neighbour.ip} ∧
      Reachable groupSha256 {resolver.ip, neighbour.ip} (Bytes.zero 32)
        (evicted groupAdded resolverGroup resolverKey) ∧
      ¬ Covered groupSha256 (evicted groupAdded resolverGroup resolverKey) := by
  refine ⟨group_injOn, ?_, fun hc => ?_⟩
  · refine groupAdded_reachable.tail ⟨.add resolver resolver 0 1702700000 1702700000, .inl rfl, ?_⟩
    rfl
  · have hin := hc neighbourKey { addr := neighbour, source := neighbour } rfl
    rcases hin with hnew | htried
    · exact absurd hnew (by decide)
    · exact absurd htried (by decide)

end Example

end Reaching

end Coverage
