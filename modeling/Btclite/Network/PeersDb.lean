import Btclite.Network.AddressBook

/-!
# The stored address book

What `DumpPeers` and `LoadPeers` carry from one book to another: the maps, and
neither the secret that their keys were made with nor the random order. Only an
empty book comes back as it was.
-/

namespace PeersDb

open Endian Serialize Address Nodes Peers AddressBook

variable (sha256 : List Byte → Hash256)

/-- The second book has been restored from the first. -/
structure Restored (p q : Book) : Prop where
  find : ∀ addr, q.findAddr sha256 addr = p.findAddr sha256 addr
  inRange : ∀ order, order.Perm q.randOrderKeys → ∀ now, ∃ r, q.getAddrs order now = .ok r
  returned : ∀ k peer, q.mapPeers.lookup k = some peer → ∀ now : Nat → I64,
    (∀ i, isTerriblePeer peer (now i) = false) →
      ∃ order, order.Perm q.randOrderKeys ∧
        ∃ r, q.getAddrs order now = .ok r ∧ peer.addr ∈ r.1
  consistent : Consistent sha256 q

/-- Nothing is in any of the maps. -/
def IsEmpty (p : Book) : Prop := p.mapPeers = ∅ ∧ p.newTbl = ∅ ∧ p.triedTbl = ∅

variable {sha256} {p : Book}

theorem eq_empty_of_lookup {m : AList fun _ : U64 => U64} (h : ∀ k v, m.lookup k ≠ some v) :
    m = ∅ := by
  apply AList.ext
  cases hentries : m.entries with
  | nil => rfl
  | cons entry rest =>
    have hmem : entry ∈ m.entries := by
      rw [hentries]
      exact List.mem_cons_self
    exact absurd (AList.mem_lookup_iff.mpr hmem) (h _ _)

theorem find_of_empty {s : Book} (h : s.mapPeers = ∅) (addr : NetAddr) :
    s.findAddr sha256 addr = none := by
  rw [Book.findAddr, Book.find, h, AList.lookup_empty]
  rfl

/-- No book that holds anything is restored, whatever the secrets are. -/
theorem load_restored_iff (sha256 : List Byte → Hash256) (p : Book) (key : Hash256) :
    Restored sha256 p (loadPeers (dumpPeers p) (fresh key)) ↔ IsEmpty p := by
  constructor
  · intro h
    have hkeys : p.mapPeers.keys = [] := h.consistent.perm.nil_eq.symm
    have hnone (k : U64) : p.mapPeers.lookup k = none :=
      AList.lookup_eq_none.mpr fun hk => List.not_mem_nil (hkeys ▸ AList.mem_keys.mp hk)
    refine ⟨AList.ext ?_, eq_empty_of_lookup fun g k hslot => ?_,
      eq_empty_of_lookup fun g k hslot => ?_⟩
    · exact List.map_eq_nil_iff.mp hkeys
    · rcases h.consistent.newTbl g k hslot with ⟨peer, hpeer, -⟩
      exact absurd (hpeer.symm.trans (hnone k)) (by simp)
    · rcases h.consistent.triedTbl g k hslot with ⟨peer, hpeer, -⟩
      exact absurd (hpeer.symm.trans (hnone k)) (by simp)
  · rintro ⟨hmap, hnew, htried⟩
    have hempty : (loadPeers (dumpPeers p) (fresh key)).mapPeers = ∅ := hmap
    have hsound : Sound sha256 key ∅ (loadPeers (dumpPeers p) (fresh key)) :=
      sound_of_empty rfl hmap hnew htried rfl
    refine ⟨fun addr => ?_, fun order horder now => ?_, fun k peer hpeer => ?_, hsound.consistent⟩
    · rw [find_of_empty hempty, find_of_empty hmap]
    · rcases hsound.getAddrs horder now with ⟨r, hrun, -⟩
      exact ⟨r, hrun⟩
    · rw [hempty, AList.lookup_empty] at hpeer
      cases hpeer

/-- A loaded book that has to look at any of its peers leaves the order at the first. -/
theorem load_getAddrs (p : Book) (key : Hash256) (now : Nat → I64)
    (h : 0 < p.getAddrsCount) :
    (loadPeers (dumpPeers p) (fresh key)).getAddrs [] now = .error .outOfRange := by
  have hcollect (n : Nat) :
      (loadPeers (dumpPeers p) (fresh key)).collect now (n + 1) = .error .outOfRange := by
    induction n with
    | zero => rfl
    | succ n ih => rw [Book.collect, ih]; rfl
  obtain ⟨n, hn⟩ : ∃ n, p.getAddrsCount = n + 1 := ⟨p.getAddrsCount - 1, by omega⟩
  have hcount : (loadPeers (dumpPeers p) (fresh key)).getAddrsCount = n + 1 := hn
  change (do
    let out ← (loadPeers (dumpPeers p) (fresh key)).collect now
      (loadPeers (dumpPeers p) (fresh key)).getAddrsCount
    pure (out, loadPeers (dumpPeers p) (fresh key))) = _
  rw [hcount, hcollect]
  rfl

/-- A book of one peer comes back without its order. -/
theorem load_resolver :
    Reachable resolverSha256 {resolver.ip} (Bytes.zero 32) resolverAdded ∧
      hashOf 1 ≠ Bytes.zero 32 ∧
      ¬Restored resolverSha256 resolverAdded (loadPeers (dumpPeers resolverAdded) (fresh (hashOf 1))) := by
  refine ⟨resolver_reachable, by decide, fun h => ?_⟩
  have hlength := h.consistent.perm.length_eq
  exact absurd hlength (by decide)

end PeersDb
