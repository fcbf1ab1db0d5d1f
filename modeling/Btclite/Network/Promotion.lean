import Btclite.Network.BookEdits

/-!
# Promotion

`MakeTried` puts a peer that is not in the slot of its group among the tried there, but the
insertion leaves a slot as it is that another peer of the group has. The call reports
success all the same, and the peer is then in neither table.
-/

namespace Promotion

open Endian Serialize Address Tables Peers Runs AddressBook BookEdits

section Promoting

variable (sha256 : List Byte → Hash256) (s : Book) (addr : NetAddr) (time : I64)

/-- The address is not in the book, or with another port. -/
def Unknown : Prop :=
  ∀ p, s.mapPeers.lookup (s.makeMapKey sha256 addr false) = some p →
    p.addr.sameEndpoint addr = false

/-- What success and failure of the call should mean. -/
def Promotes : Prop :=
  ∃ ret s', s.makeTried sha256 addr time = .ok (ret, s') ∧
    (ret = true → (∃ p, s'.findAddr sha256 addr = some (p, false, true)) ∧
      ∀ k, k ≠ s.makeMapKey sha256 addr false → s'.mapPeers.lookup k = s.mapPeers.lookup k) ∧
    (Unknown sha256 s addr → ret = false ∧ s' = s)

/-- No other peer is in the slot for the group of an address that is in the book. -/
def Free : Prop :=
  Unknown sha256 s addr ∨ ∀ k, s.triedTbl.lookup (s.makeMapKey sha256 addr true) = some k →
    k = s.makeMapKey sha256 addr false

variable {sha256 s addr time} {p : Peer}

theorem makeTried_unknown (h : Unknown sha256 s addr) :
    s.makeTried sha256 addr time = .ok (false, s) := by
  rw [Book.makeTried]
  dsimp only
  cases hp : s.mapPeers.lookup (s.makeMapKey sha256 addr false) with
  | none =>
    simp only [Book.find, hp, Option.map_none]
    rfl
  | some p =>
    simp only [Book.find, hp, Option.map_some, h p hp, Bool.not_false, if_true]
    rfl

/-- The peer as a successful connection leaves it. -/
def connected (time : I64) (p : Peer) : Peer :=
  { p with lastSuccess := time, lastTry := time, attempts := 0 }

/-- The book with the peer that was connected to. -/
def updated (sha256 : List Byte → Hash256) (s : Book) (addr : NetAddr) (p : Peer) : Book :=
  s.setMapPeers (s.mapPeers.insert (s.makeMapKey sha256 addr false) p)

/-- And in the slot for its group, where there is none. -/
def promoted (sha256 : List Byte → Hash256) (s : Book) (addr : NetAddr) : Book :=
  (s.setTriedTbl (insertNew (s.makeMapKey sha256 addr true) (s.makeMapKey sha256 addr false)
    s.triedTbl)).setNewTbl (s.newTbl.erase (s.makeMapKey sha256 addr true))

theorem makeTried_known (time : I64)
    (hp : s.mapPeers.lookup (s.makeMapKey sha256 addr false) = some p)
    (hsame : p.addr.sameEndpoint addr = true) : s.makeTried sha256 addr time =
      if s.triedTbl.lookup (s.makeMapKey sha256 addr true) =
          some (s.makeMapKey sha256 addr false) then
        .ok (false, updated sha256 s addr (connected time p))
      else .ok (true, promoted sha256 (updated sha256 s addr (connected time p)) addr) := by
  rw [Book.makeTried]
  simp only [Book.find, hp, Option.map_some, hsame, Bool.not_true, Bool.false_eq_true, if_false,
    beq_iff_eq]
  rw [updatePeer_run hp]
  split_ifs
  · rfl
  · rfl

theorem updated_lookup {k : U64} (hk : k ≠ s.makeMapKey sha256 addr false) :
    (updated sha256 s addr p).mapPeers.lookup k = s.mapPeers.lookup k :=
  AList.lookup_insert_ne hk

/-- Whether the promoted peer is found among the tried. -/
theorem promoted_findAddr : (promoted sha256 (updated sha256 s addr p) addr).findAddr sha256 addr =
    some (p, false, (insertNew (s.makeMapKey sha256 addr true) (s.makeMapKey sha256 addr false)
      s.triedTbl).lookup (s.makeMapKey sha256 addr true) ==
        some (s.makeMapKey sha256 addr false)) := by
  have hpeer : (promoted sha256 (updated sha256 s addr p) addr).mapPeers.lookup
      (s.makeMapKey sha256 addr false) = some p := AList.lookup_insert _
  have hnew : (promoted sha256 (updated sha256 s addr p) addr).newTbl.lookup
      (s.makeMapKey sha256 addr true) = none := AList.lookup_erase _ _
  change (promoted sha256 (updated sha256 s addr p) addr).find (s.makeMapKey sha256 addr false)
    (s.makeMapKey sha256 addr true) = _
  rw [Book.find, hpeer, hnew]
  rfl

theorem insertNew_lookup {g k : U64} {tbl : AList fun _ : U64 => U64} :
    (insertNew g k tbl).lookup g = some k ↔ ∀ k', tbl.lookup g = some k' → k' = k := by
  by_cases hg : g ∈ tbl
  · obtain ⟨k', hk'⟩ := exists_lookup hg
    rw [insertNew_of_mem hg, hk']
    simp
  · rw [insertNew_of_notMem hg, AList.lookup_insert, AList.lookup_eq_none.mpr hg]
    simp

/-- In any book, the call does what it reports exactly if the slot is free for it. -/
theorem promotes_iff_free (s : Book) (addr : NetAddr) (time : I64) :
    Promotes sha256 s addr time ↔ Free sha256 s addr := by
  by_cases hunknown : Unknown sha256 s addr
  · refine iff_of_true ⟨false, s, makeTried_unknown hunknown, ?_, fun _ => ⟨rfl, rfl⟩⟩
      (.inl hunknown)
    intro hret
    cases hret
  obtain ⟨p, hp, hsame⟩ : ∃ p, s.mapPeers.lookup (s.makeMapKey sha256 addr false) = some p ∧
      p.addr.sameEndpoint addr = true := by
    simpa [Unknown] using hunknown
  have hrun := makeTried_known time hp hsame
  by_cases htried : s.triedTbl.lookup (s.makeMapKey sha256 addr true) =
      some (s.makeMapKey sha256 addr false)
  · rw [if_pos htried] at hrun
    refine iff_of_true ⟨_, _, hrun, ?_, fun h => absurd h hunknown⟩ (.inr fun k hk => ?_)
    · intro hret
      cases hret
    · exact Option.some.inj (hk.symm.trans htried)
  rw [if_neg htried] at hrun
  constructor
  · rintro ⟨ret, s', hrun', htrue, -⟩
    rw [hrun] at hrun'
    cases hrun'
    obtain ⟨⟨q, hfind⟩, -⟩ := htrue rfl
    rw [promoted_findAddr] at hfind
    simp only [Option.some.injEq, Prod.mk.injEq, true_and, beq_iff_eq] at hfind
    exact .inr (insertNew_lookup.mp hfind.2)
  · rintro (h | hfree)
    · exact absurd h hunknown
    · refine ⟨_, _, hrun, fun _ => ⟨⟨connected time p, ?_⟩, fun k hk => updated_lookup hk⟩,
        fun h => absurd h hunknown⟩
      rw [promoted_findAddr, insertNew_lookup.mpr hfree]
      simp

end Promoting

section Example

/-- An address was added and connected to, and then another one of its group was added. -/
def contested : Book :=
  (promoted groupSha256 (updated groupSha256 resolverAdded resolver
    (connected 1700000060 { addr := resolver, source := resolver })) resolver).addNewPeer
    neighbourKey resolverGroup false neighbour neighbour

theorem contested_reachable :
    Reachable groupSha256 {resolver.ip, neighbour.ip} (Bytes.zero 32) contested := by
  have hadd : Reachable groupSha256 {resolver.ip, neighbour.ip} (Bytes.zero 32)
      resolverAdded := by
    refine Run.single (a := .add resolver resolver 0 1700000000 1700000000) (.inl rfl) ?_
    rfl
  have htried : Reachable groupSha256 {resolver.ip, neighbour.ip} (Bytes.zero 32)
      (promoted groupSha256 (updated groupSha256 resolverAdded resolver
        (connected 1700000060 { addr := resolver, source := resolver })) resolver) := by
    refine hadd.tail ⟨.makeTried resolver 1700000060, trivial, ?_⟩
    rfl
  refine htried.tail ⟨.add neighbour neighbour 0 1700000100 1700000100, .inr rfl, ?_⟩
  rfl

/-- The second one is reported to be tried, and is found in neither table. -/
theorem neighbour_not_tried :
    Reachable groupSha256 {resolver.ip, neighbour.ip} (Bytes.zero 32) contested ∧
      neighbour.isRoutable = true ∧
      ∃ s' p, contested.makeTried groupSha256 neighbour 1700000200 = .ok (true, s') ∧
        s'.findAddr groupSha256 neighbour = some (p, false, false) :=
  ⟨contested_reachable, by decide, _, _, rfl, rfl⟩

end Example

end Promotion
