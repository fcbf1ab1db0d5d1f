import Btclite.Network.AddressBook
import Mathlib.Data.Fintype.Card

/-!
# Selecting a peer

`Select` draws a table and a position in it, and walks an iterator of the table there. The
maps go through their entries in an order of their own. Whatever is drawn, the walk ends at
a slot of the table, and any slot of a table that may be drawn from can be where it ends.
-/

namespace Selection

open Endian Serialize Address Tables Peers Runs AddressBook

section Drawing

/-- `std::uniform_int_distribution`: some number from 0 to a largest one. -/
structure Distribution where
  drawn : U64 → U64
  within : ∀ max, drawn max ≤ max

def randUint64 (dis : Distribution) (max : U64) : U64 := if max = 0 then 0 else dis.drawn max

theorem randUint64_le (dis : Distribution) (max : U64) : randUint64 dis max ≤ max := by
  rw [randUint64]
  split_ifs with h
  · exact Nat.zero_le _
  · exact dis.within max

/-- Any number that is not too large can be drawn. -/
theorem exists_randUint64 {v max : U64} (h : v ≤ max) : ∃ dis, randUint64 dis max = v := by
  by_cases hzero : max = 0
  · refine ⟨⟨fun max => max, fun _ => BitVec.le_refl _⟩, ?_⟩
    rw [randUint64, if_pos hzero]
    rw [hzero] at h
    exact (BitVec.eq_of_toNat_eq (Nat.le_zero.mp h)).symm
  · refine ⟨⟨fun m => if v ≤ m then v else m, fun m => ?_⟩, ?_⟩
    · split_ifs with hle
      · exact hle
      · exact BitVec.le_refl _
    · rw [randUint64, if_neg hzero]
      exact if_pos h

/-- The position of the last entry. -/
theorem last_toNat {n : Nat} (h : 0 < n) (hsize : n ≤ 2 ^ 64) :
    (BitVec.ofNat 64 n - 1).toNat = n - 1 := by
  rw [BitVec.toNat_sub, BitVec.toNat_ofNat]
  have hone : (1 : U64).toNat = 1 := rfl
  omega

abbrev Slot : Type := Sigma fun _ : U64 => U64

/-- The order in which the maps go through their entries. -/
structure Iteration where
  entries : (AList fun _ : U64 => U64) → List Slot
  perm : ∀ tbl, (entries tbl).Perm tbl.entries

/-- `while (rand_pos-- > 0 && it++ != end)`, the iterator being what is left from it on. -/
def advance {A : Type} : Nat → List A → Except Fault (List A)
  | 0, it => .ok it
  | _ + 1, [] => .error .outOfRange
  | n + 1, _ :: it => advance n it

theorem advance_ok {A : Type} {n : Nat} {it : List A} (h : n ≤ it.length) :
    advance n it = .ok (it.drop n) := by
  induction n generalizing it with
  | zero => rfl
  | succ n ih =>
    cases it with
    | nil => simp at h
    | cons a it => exact ih (by simpa using h)

/-- A map has no more entries than there are keys. -/
theorem length_entries_le (tbl : AList fun _ : U64 => U64) : tbl.entries.length ≤ 2 ^ 64 := by
  have hnodup : (tbl.keys.map BitVec.toFin).Nodup :=
    tbl.keys_nodup.map fun _ _ h => BitVec.eq_of_toFin_eq h
  have hcard := hnodup.length_le_card
  rwa [List.length_map, Fintype.card_fin, AList.keys, List.keys, List.length_map] at hcard

end Drawing

section Selecting

variable (s : Book) (iter : Iteration)

/-- `map_peers().find(it->second)->second`. -/
def peerOf : List Slot → Except Fault Peer
  | [] => .error .dangling
  | slot :: _ => s.peerAt slot.2

/-- The peer that a position drawn in a table leads to. -/
def selectFrom (position : Distribution) (tbl : AList fun _ : U64 => U64) :
    Except Fault Peer := do
  let it ← advance (randUint64 position (BitVec.ofNat 64 tbl.entries.length - 1)).toNat
    (iter.entries tbl)
  peerOf s it

/-- `Select`: whether there was something to select, what `out` then points to, and the book. -/
def selectInto (coin position : Distribution) (out : Option Peer) (newOnly : Bool) :
    Except Fault (Bool × Option Peer × Book) :=
  match out with
  | none => pure (false, none, s)
  | some old =>
    match s.selectTable newOnly (randUint64 coin 1) with
    | none => pure (false, some old, s)
    | some tbl => do
      let peer ← selectFrom s iter position tbl
      pure (true, some peer, s)

/-- There is nothing to select from. -/
def Nothing (newOnly : Bool) : Prop :=
  (s.newTbl.entries.length = 0 ∧ s.triedTbl.entries.length = 0) ∨
    (newOnly = true ∧ s.newTbl.entries.length = 0)

/-- The slot of a group is in a table that may be drawn from. -/
def Eligible (newOnly : Bool) (g k : U64) : Prop :=
  s.newTbl.lookup g = some k ∨ (newOnly = false ∧ s.triedTbl.lookup g = some k)

variable {s iter} {newOnly : Bool} {coin : U64} {tbl : AList fun _ : U64 => U64} {g k : U64}

theorem selectTable_none_iff : s.selectTable newOnly coin = none ↔ Nothing s newOnly := by
  rw [Book.selectTable, Nothing]
  split_ifs with h1 h2 h3
  · exact iff_of_true rfl (.inl h1)
  · exact iff_of_true rfl (.inr h2)
  · exact iff_of_false (by simp) (not_or.mpr ⟨h1, h2⟩)
  · exact iff_of_false (by simp) (not_or.mpr ⟨h1, h2⟩)

theorem selectTable_some (h : s.selectTable newOnly coin = some tbl) : 0 < tbl.entries.length ∧
    (tbl = s.newTbl ∨ (newOnly = false ∧ tbl = s.triedTbl)) := by
  rw [Book.selectTable] at h
  split_ifs at h with h1 h2 h3
  · cases h
    exact ⟨h3.2.1, .inr ⟨h3.1, rfl⟩⟩
  · cases h
    refine ⟨?_, .inl rfl⟩
    cases newOnly with
    | true => exact Nat.pos_of_ne_zero fun hzero => h2 ⟨rfl, hzero⟩
    | false =>
      -- with nothing new, the tried ones would have been taken
      refine Nat.pos_of_ne_zero fun hzero => h3 ⟨rfl, ?_, .inl hzero⟩
      exact Nat.pos_of_ne_zero fun hzero' => h1 ⟨hzero, hzero'⟩

theorem lookup_of_entry {slot : Slot} (h : slot ∈ iter.entries tbl) :
    tbl.lookup slot.1 = some slot.2 :=
  AList.mem_lookup_iff.mpr ((iter.perm tbl).mem_iff.mp h)

theorem length_pos_of_lookup (h : tbl.lookup g = some k) : 0 < tbl.entries.length :=
  List.length_pos_of_mem (AList.mem_lookup_iff.mp h)

/-- The table of an eligible slot is drawn for one of the coins. -/
theorem exists_selectTable (h : Eligible s newOnly g k) : ∃ coin tbl,
    s.selectTable newOnly (randUint64 coin 1) = some tbl ∧ tbl.lookup g = some k := by
  obtain ⟨heads, hheads⟩ := exists_randUint64 (show (0 : U64) ≤ 1 by decide)
  obtain ⟨tails, htails⟩ := exists_randUint64 (show (1 : U64) ≤ 1 by decide)
  rcases h with hnew | ⟨rfl, htried⟩
  · have hpos := length_pos_of_lookup hnew
    refine ⟨tails, s.newTbl, ?_, hnew⟩
    rw [Book.selectTable, htails, if_neg (by omega), if_neg (by omega), if_neg]
    rintro ⟨-, -, hzero | hcoin⟩
    · omega
    · exact absurd hcoin (by decide)
  · have hpos := length_pos_of_lookup htried
    refine ⟨heads, s.triedTbl, ?_, htried⟩
    rw [Book.selectTable, hheads, if_neg (by omega), if_neg (by simp),
      if_pos ⟨rfl, hpos, .inr rfl⟩]

/-- Whatever position is drawn, the walk ends at an entry. -/
theorem selectFrom_ends (iter : Iteration) (hpos : 0 < tbl.entries.length)
    (position : Distribution) :
    ∃ slot ∈ iter.entries tbl, selectFrom s iter position tbl = s.peerAt slot.2 := by
  have hlength : (iter.entries tbl).length = tbl.entries.length := (iter.perm tbl).length_eq
  have hle : (randUint64 position (BitVec.ofNat 64 tbl.entries.length - 1)).toNat ≤
      tbl.entries.length - 1 :=
    (last_toNat hpos (length_entries_le tbl)) ▸ BitVec.le_def.mp (randUint64_le position _)
  rw [selectFrom, advance_ok (by omega)]
  generalize (randUint64 position (BitVec.ofNat 64 tbl.entries.length - 1)).toNat = n at hle
  have hn : n < (iter.entries tbl).length := by omega
  refine ⟨(iter.entries tbl)[n], List.getElem_mem hn, ?_⟩
  change peerOf s ((iter.entries tbl).drop n) = _
  rw [List.drop_eq_getElem_cons hn]
  rfl

/-- The walk is a call that draws a position of the table itself. -/
theorem selectInto_call (U : Set IpAddr) (coin position : Distribution) (old : Peer) :
    ∃ randPos, (Call.select newOnly (randUint64 coin 1) randPos).Allowed U s ∧
      selectInto s iter coin position (some old) newOnly =
        (fun peer => (peer.isSome, peer.or (some old), s)) <$>
          s.select newOnly (randUint64 coin 1) randPos := by
  cases htable : s.selectTable newOnly (randUint64 coin 1) with
  | none =>
    refine ⟨0, fun tbl h => ?_, ?_⟩
    · rw [htable] at h
      cases h
    · rw [selectInto, Book.select, htable]
      rfl
  | some tbl =>
    obtain ⟨slot, hslot, hrun⟩ :=
      selectFrom_ends (s := s) iter (selectTable_some htable).1 position
    obtain ⟨n, hn, hget⟩ := List.getElem_of_mem ((iter.perm tbl).mem_iff.mp hslot)
    refine ⟨n, fun tbl' h => ?_, ?_⟩
    · cases htable.symm.trans h
      exact hn
    · rw [selectInto, Book.select, htable]
      dsimp only
      rw [hrun, List.getElem?_eq_getElem hn, hget]
      dsimp only
      cases s.peerAt slot.2 with
      | ok p => rfl
      | error e => rfl

/-- And at any entry for one of the positions. -/
theorem exists_selectFrom (iter : Iteration) (h : tbl.lookup g = some k) :
    ∃ position, selectFrom s iter position tbl = s.peerAt k := by
  have hpos := length_pos_of_lookup h
  have hlength : (iter.entries tbl).length = tbl.entries.length := (iter.perm tbl).length_eq
  have hmem : (⟨g, k⟩ : Slot) ∈ iter.entries tbl :=
    (iter.perm tbl).mem_iff.mpr (AList.mem_lookup_iff.mp h)
  obtain ⟨n, hn, hslot⟩ := List.getElem_of_mem hmem
  have hsize := length_entries_le tbl
  have hlast := last_toNat hpos hsize
  have hnat : (BitVec.ofNat 64 n).toNat = n := by
    rw [BitVec.toNat_ofNat]
    omega
  obtain ⟨position, hposition⟩ := exists_randUint64
    (show BitVec.ofNat 64 n ≤ BitVec.ofNat 64 tbl.entries.length - 1 from
      BitVec.le_def.mpr (by omega))
  refine ⟨position, ?_⟩
  rw [selectFrom, hposition, hnat, advance_ok (by omega)]
  change peerOf s ((iter.entries tbl).drop n) = _
  rw [List.drop_eq_getElem_cons hn, hslot]
  rfl

end Selecting

section Reachable

variable {sha256 : List Byte → Hash256} {key : Hash256} {U : Set IpAddr} {s : Book}
  {newOnly : Bool} {g k : U64}

theorem eligible_peer (h : Sound sha256 key U s) (hslot : Eligible s newOnly g k) :
    ∃ p, s.mapPeers.lookup k = some p ∧ Book.groupKeyOf sha256 key p.addr = g := by
  rcases hslot with hnew | ⟨-, htried⟩
  · exact h.newSlots g k hnew
  · exact h.triedSlots g k htried

/-- Nothing is selected exactly if there is nothing to select from, or to write it to. -/
theorem selectInto_total (h : Sound sha256 key U s) (iter : Iteration)
    (coin position : Distribution) (out : Option Peer) (newOnly : Bool) :
    ∃ ret out', selectInto s iter coin position out newOnly = .ok (ret, out', s) ∧
      (ret = false ↔ out = none ∨ Nothing s newOnly) ∧ (ret = false → out' = out) ∧
      (ret = true → ∃ g k p, Eligible s newOnly g k ∧ s.mapPeers.lookup k = some p ∧
        out' = some p) := by
  cases out with
  | none => exact ⟨false, none, rfl, iff_of_true rfl (.inl rfl), fun _ => rfl, fun h => nomatch h⟩
  | some old =>
    cases htable : s.selectTable newOnly (randUint64 coin 1) with
    | none =>
      refine ⟨false, some old, by rw [selectInto, htable]; rfl,
        iff_of_true rfl (.inr (selectTable_none_iff.mp htable)), fun _ => rfl, fun h => nomatch h⟩
    | some tbl =>
      obtain ⟨hpos, heligible⟩ := selectTable_some htable
      obtain ⟨slot, hslot, hrun⟩ := selectFrom_ends (s := s) iter hpos position
      have hlookup := lookup_of_entry hslot
      have hslots : Eligible s newOnly slot.1 slot.2 := by
        rcases heligible with rfl | ⟨hnew, rfl⟩
        · exact .inl hlookup
        · exact .inr ⟨hnew, hlookup⟩
      obtain ⟨p, hp, -⟩ := eligible_peer h hslots
      refine ⟨true, some p, ?_, iff_of_false (by simp) ?_, fun h => (nomatch h),
        fun _ => ⟨_, _, p, hslots, hp, rfl⟩⟩
      · rw [selectInto, htable]
        dsimp only
        rw [hrun, Book.peerAt_ok hp]
        rfl
      · rintro (hnone | hnothing)
        · cases hnone
        · rw [selectTable_none_iff.mpr hnothing] at htable
          cases htable

/-- Each slot that may be drawn is, and its peer is what is selected. -/
theorem exists_selectInto (h : Sound sha256 key U s) (iter : Iteration) (old : Peer)
    (hslot : Eligible s newOnly g k) : ∃ coin position p, s.mapPeers.lookup k = some p ∧
      Book.groupKeyOf sha256 key p.addr = g ∧
      selectInto s iter coin position (some old) newOnly = .ok (true, some p, s) := by
  obtain ⟨p, hp, hg⟩ := eligible_peer h hslot
  obtain ⟨coin, tbl, htable, hlookup⟩ := exists_selectTable hslot
  obtain ⟨position, hrun⟩ := exists_selectFrom (s := s) iter hlookup
  refine ⟨coin, position, p, hp, hg, ?_⟩
  rw [selectInto, htable]
  dsimp only
  rw [hrun, Book.peerAt_ok hp]
  rfl

/-- What `Select` returns on any book, whatever is drawn and in whatever order the maps go
through their entries, and that every slot of a table that may be drawn from is selected for
some draws. -/
theorem select_exact (hinj : U.InjOn (Book.mapKeyOf sha256 key))
    (h : Reachable sha256 U key s) (iter : Iteration) (newOnly : Bool) :
    (∀ coin position out, ∃ ret out',
      selectInto s iter coin position out newOnly = .ok (ret, out', s) ∧
      (ret = false ↔ out = none ∨ Nothing s newOnly) ∧ (ret = false → out' = out) ∧
      (ret = true → ∃ g k p, Eligible s newOnly g k ∧ s.mapPeers.lookup k = some p ∧
        out' = some p)) ∧
    ∀ g k old, Eligible s newOnly g k → ∃ coin position p, s.mapPeers.lookup k = some p ∧
      selectInto s iter coin position (some old) newOnly = .ok (true, some p, s) := by
  have hsound := h.sound hinj
  refine ⟨fun coin position out => selectInto_total hsound iter coin position out newOnly,
    fun g k old hslot => ?_⟩
  obtain ⟨coin, position, p, hp, -, hrun⟩ := exists_selectInto hsound iter old hslot
  exact ⟨coin, position, p, hp, hrun⟩

theorem host_injOn :
    Set.InjOn (Book.mapKeyOf lastSha256 (Bytes.zero 32)) {(host 1).ip, (host 2).ip} := by
  have hkeys : Book.mapKeyOf lastSha256 (Bytes.zero 32) (host 1).ip ≠
      Book.mapKeyOf lastSha256 (Bytes.zero 32) (host 2).ip := by decide
  exact Set.injOn_pair.mpr fun h => absurd h hkeys

/-- A table gone through from behind. -/
def backwards : Iteration := ⟨fun tbl => tbl.entries.reverse, fun tbl => tbl.entries.reverse_perm⟩

/-- Two slots, and either may be drawn. -/
theorem select_exact_hosts :
    (∃ coin position p, (hostBook [1, 2]).mapPeers.lookup 1 = some p ∧
      selectInto (hostBook [1, 2]) backwards coin position (some {}) true =
        .ok (true, some p, hostBook [1, 2])) ∧
    ∃ coin position p, (hostBook [1, 2]).mapPeers.lookup 2 = some p ∧
      selectInto (hostBook [1, 2]) backwards coin position (some {}) true =
        .ok (true, some p, hostBook [1, 2]) := by
  have h := (select_exact host_injOn (hostBook_two_reachable (.inl rfl) (.inr rfl))
    backwards true).2
  exact ⟨h 1 1 {} (.inl rfl), h 2 2 {} (.inl rfl)⟩

end Reachable

end Selection
