import Btclite.Network.BookEdits
import Mathlib.Data.List.Forall2

/-!
# Sharing addresses

`GetAddrs` walks along the first places of the shuffled order. As the order has each key of
the map once, what it finds at different places are different peers, and it finds one at
each place it looks at.
-/

namespace Sharing

open Endian Serialize Address Tables Peers Runs AddressBook BookEdits

section Walking

variable {sha256 : List Byte → Hash256} {key : Hash256} {s : Book}

/-- What stands behind an address that is shared: the place in the order at which it was
found, and the key that is there. -/
def Shared (s : Book) (order : List U64) (now : Nat → I64) (pick : Nat × U64) (addr : NetAddr) :
    Prop :=
  order[pick.1]? = some pick.2 ∧
    ∃ p, s.mapPeers.lookup pick.2 = some p ∧ isTerriblePeer p (now pick.1) = false ∧ p.addr = addr

theorem length_randOrderKeys (h : Kept sha256 key s) :
    s.randOrderKeys.length = s.mapPeers.entries.length := by
  rw [h.perm_keys.length_eq, AList.keys, List.keys, List.length_map]

theorem peerAt_randOrderKeys (h : Kept sha256 key s) {i : Nat} (hi : i < s.randOrderKeys.length) :
    ∃ p, s.mapPeers.lookup s.randOrderKeys[i] = some p :=
  exists_lookup ((h.order _).mp (List.getElem_mem hi))

/-- At each place the walk adds at most one address, and the key there was not seen before. -/
theorem collect_spec (h : Kept sha256 key s) (now : Nat → I64) {count : Nat}
    (hcount : count ≤ s.randOrderKeys.length) : ∃ out picks, s.collect now count = .ok out ∧
      List.Forall₂ (Shared s s.randOrderKeys now) picks out ∧
      (picks.map Prod.snd).Sublist (s.randOrderKeys.take count) := by
  induction count with
  | zero => exact ⟨[], [], rfl, .nil, List.Sublist.refl _⟩
  | succ i ih =>
    obtain ⟨out, picks, hout, hshared, hsub⟩ := ih (by omega)
    have hi : i < s.randOrderKeys.length := by omega
    obtain ⟨p, hp⟩ := peerAt_randOrderKeys h hi
    rw [collect_succ hi hout (Book.peerAt_ok hp), List.take_add_one, List.getElem?_eq_getElem hi]
    cases hterrible : isTerriblePeer p (now i) with
    | true => exact ⟨out, picks, rfl, hshared, hsub.trans (List.sublist_append_left _ _)⟩
    | false =>
      refine ⟨out ++ [p.addr], picks ++ [(i, s.randOrderKeys[i])], rfl, ?_, ?_⟩
      · have hpick := List.getElem?_eq_getElem hi
        exact List.rel_append hshared (.cons ⟨hpick, p, hp, hterrible, rfl⟩ .nil)
      · rw [List.map_append]
        exact hsub.append (List.Sublist.refl _)

theorem getAddrsCount_eq (s : Book) :
    s.getAddrsCount = min (23 * s.mapPeers.entries.length / 100) 2500 := by
  rw [Book.getAddrsCount, Book.kMaxGetaddrPct, Book.kMaxGetaddrCount]
  split_ifs with h
  · omega
  · omega

end Walking

section Reachable

variable {sha256 : List Byte → Hash256} {key : Hash256} {U : Set IpAddr} {s : Book}

/-- However the order was shuffled and whatever the clock said at each place, what is shared
are addresses of different peers that stand there and were not terrible then, few enough of
them, and nothing but the order has changed. -/
theorem getAddrs_shares (h : Reachable sha256 U key s) {order : List U64}
    (horder : order.Perm s.randOrderKeys) (now : Nat → I64) : ∃ out picks,
      s.getAddrs order now = .ok (out, { s with randOrderKeys := order }) ∧
      out.length ≤ min (23 * s.mapPeers.entries.length / 100) 2500 ∧
      List.Forall₂ (Shared s order now) picks out ∧ (picks.map Prod.snd).Nodup := by
  have hkept : Kept sha256 key { s with randOrderKeys := order } :=
    (kept_of_reachable h).apply (.shuffle order) horder
  have hcount := getAddrsCount_le { s with randOrderKeys := order }
  rw [← length_randOrderKeys hkept] at hcount
  obtain ⟨out, picks, hout, hshared, hsub⟩ := collect_spec hkept now hcount
  refine ⟨out, picks, ?_, ?_, hshared, (hsub.trans (List.take_sublist _ _)).nodup hkept.nodup⟩
  · rw [Book.getAddrs, hout]
    rfl
  · have hlength := hsub.length_le
    rw [List.length_map, List.length_take, hshared.length_eq, getAddrsCount_eq] at hlength
    exact hlength.trans (Nat.min_le_left _ _)

theorem hostBook_five_reachable :
    Reachable lastSha256 Set.univ (Bytes.zero 32) (hostBook [1, 2, 3, 4, 5]) := by
  have htwo := hostBook_two_reachable (U := Set.univ) trivial trivial
  have hthree : Reachable lastSha256 Set.univ (Bytes.zero 32) (hostBook [1, 2, 3]) :=
    htwo.tail ⟨.add (host 3) (host 3) 0 1700000000 1700000000, trivial, rfl⟩
  have hfour : Reachable lastSha256 Set.univ (Bytes.zero 32) (hostBook [1, 2, 3, 4]) :=
    hthree.tail ⟨.add (host 4) (host 4) 0 1700000000 1700000000, trivial, rfl⟩
  exact hfour.tail ⟨.add (host 5) (host 5) 0 1700000000 1700000000, trivial, rfl⟩

/-- Five peers are as many as it takes to share one of them. -/
theorem getAddrs_shares_hosts : ∃ picks,
    (hostBook [1, 2, 3, 4, 5]).getAddrs [3, 1, 5, 2, 4] (fun _ => 1700000060) =
      .ok ([host 3], { hostBook [1, 2, 3, 4, 5] with randOrderKeys := [3, 1, 5, 2, 4] }) ∧
    [host 3].length ≤ min (23 * (hostBook [1, 2, 3, 4, 5]).mapPeers.entries.length / 100) 2500 ∧
    List.Forall₂ (Shared (hostBook [1, 2, 3, 4, 5]) [3, 1, 5, 2, 4] fun _ => 1700000060) picks
      [host 3] ∧
    (picks.map Prod.snd).Nodup := by
  have horder : [3, 1, 5, 2, 4].Perm (hostBook [1, 2, 3, 4, 5]).randOrderKeys := by decide
  obtain ⟨out, picks, hrun, h⟩ := getAddrs_shares hostBook_five_reachable horder
    (fun _ => 1700000060)
  obtain rfl : out = [host 3] := by
    cases hrun
    rfl
  exact ⟨picks, hrun, h⟩

end Reachable

end Sharing
