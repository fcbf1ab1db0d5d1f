import Btclite.Library.Iterators
import Btclite.Library.Loops
import Btclite.Library.Tables
import Btclite.Network.SubNets

/-!
# Ban lists

`BanList` of `banlist.cpp`: a map from the text of a subnet to the time until
which it is banned. An address is looked up under its own text and under no
other. The times are those of the protocol buffer, which a file may have negative.
-/

namespace BanLists

open Serialize Address SubNets Tables Iterators

inductive BanReason where
  | kUnknown
  | kNodeMisbehaving
  | kManuallyAdded
deriving DecidableEq

def BanReason.toU32 : BanReason → U32
  | kUnknown => 0
  | kNodeMisbehaving => 1
  | kManuallyAdded => 2

/-- `BanEntry` of the protocol buffer; the defaults are what `operator[]` makes. -/
structure BanEntry where
  version : U32 := 0
  createTime : Int := 0
  banUntil : Int := 0
  banReason : U32 := 0
deriving DecidableEq

abbrev BanMap := AList fun _ : List Char => BanEntry

def kDefaultMisbehavingBantime : Nat := 60 * 60 * 24

section BanList

variable (base32Encode : List Endian.Byte → List Char)

/-- `Add_`. -/
def addEntry (subnet : SubNet) (banEntry : BanEntry) (m : BanMap) : Bool × BanMap :=
  let key := subnet.toString base32Encode
  if ((m.lookup key).getD {}).banUntil < banEntry.banUntil then (true, m.insert key banEntry)
  else (false, insertNew key {} m)

/-- `Add`, which reads the clock twice. -/
def add (created now : Int) (subnet : SubNet) (banReason : BanReason) (m : BanMap) :
    Bool × BanMap :=
  addEntry base32Encode subnet
    { createTime := created
      banReason := banReason.toU32
      banUntil := now + kDefaultMisbehavingBantime } m

def erase (subnet : SubNet) (m : BanMap) : Bool × BanMap :=
  let key := subnet.toString base32Encode
  (decide (key ∈ m), m.erase key)

def isBanned (now : Int) (addr : NetAddr) (m : BanMap) : Bool :=
  (m.lookup ((SubNet.ofAddr addr).toString base32Encode)).any fun entry =>
    decide (now < entry.banUntil)

end BanList

section Loop

variable (verbose : Bool) (now : Int)

/-- One turn of the loop of `SweepBanned`. What is logged is read only at the level `verbose`. -/
def sweepTurn (s : BanMap × Option (List Char)) :
    Except Fault (Loops.Turn (BanMap × Option (List Char)) BanMap) :=
  match s.2 with
  | none => .ok (.leave s.1)
  | some key => do
    let entry ← read s.1 (some key)
    if entry.banUntil < now then
      let map := s.1.erase key
      if verbose then
        let _ ← read map (some key)
      return .again (map, ← next map (some key))
    return .again (s.1, ← next s.1 (some key))

def sweepBanned (fuel : Nat) (m : BanMap) : Except Fault BanMap :=
  Loops.loop .spent (sweepTurn verbose now) fuel (m, first m)

end Loop

/-- Two subnets are the same network. -/
def SameNet (s t : SubNet) : Prop := s.netAddr.ip = t.netAddr.ip ∧ s.netmask = t.netmask

instance (s t : SubNet) : Decidable (SameNet s t) := inferInstanceAs (Decidable (_ ∧ _))

section Lookups

variable {base32Encode : List Endian.Byte → List Char} {m : BanMap} {t now : Int} {a : NetAddr}

/-- The list bans this address at this time. -/
abbrev BannedAt (base32Encode : List Endian.Byte → List Char) (t : Int) (a : NetAddr)
    (m : BanMap) : Prop :=
  isBanned base32Encode t a m = true

theorem bannedAt_iff : BannedAt base32Encode t a m ↔
    ∃ e, m.lookup ((SubNet.ofAddr a).toString base32Encode) = some e ∧ t < e.banUntil := by
  rw [BannedAt, isBanned, Option.any_eq_true]
  simp

/-- A ban runs out. -/
theorem BannedAt.antitone {t' : Int} (h : BannedAt base32Encode t' a m) (ht : t ≤ t') :
    BannedAt base32Encode t a m := by
  rcases bannedAt_iff.mp h with ⟨e, he, hlt⟩
  exact bannedAt_iff.mpr ⟨e, he, Int.lt_of_le_of_lt ht hlt⟩

theorem bannedAt_erase (subnet : SubNet) :
    BannedAt base32Encode t a (erase base32Encode subnet m).2 ↔
      subnet.toString base32Encode ≠ (SubNet.ofAddr a).toString base32Encode ∧
        BannedAt base32Encode t a m := by
  rw [bannedAt_iff, bannedAt_iff]
  by_cases hkey : subnet.toString base32Encode = (SubNet.ofAddr a).toString base32Encode
  · simp [erase, hkey]
  · rw [erase, AList.lookup_erase_ne (Ne.symm hkey)]
    simp only [ne_eq, hkey, not_false_eq_true, true_and]

/-- No entry outlives a ban made now. -/
def Bounded (now : Int) (m : BanMap) : Prop :=
  ∀ key e, m.lookup key = some e → e.banUntil ≤ now + kDefaultMisbehavingBantime

theorem Bounded.later {now' : Int} (h : Bounded now m) (hle : now ≤ now') : Bounded now' m :=
  fun key e he => (h key e he).trans (Int.add_le_add_right hle _)

variable (base32Encode) in
/-- `Add` leaves the new entry, or one that is good for as long. -/
theorem lookup_add (hnow : 0 ≤ now) (hbound : Bounded now m) (created : Int) (subnet : SubNet)
    (reason : BanReason) :
    (∃ e, (add base32Encode created now subnet reason m).2.lookup
        (subnet.toString base32Encode) = some e ∧
      e.banUntil = now + kDefaultMisbehavingBantime) ∧
    ∀ key, key ≠ subnet.toString base32Encode →
      (add base32Encode created now subnet reason m).2.lookup key = m.lookup key := by
  rw [add, addEntry]
  split_ifs with hless
  · exact ⟨⟨_, AList.lookup_insert _, rfl⟩, fun key hkey => AList.lookup_insert_ne hkey⟩
  · cases hold : m.lookup (subnet.toString base32Encode) with
    | none =>
      rw [hold] at hless
      exact absurd (Int.lt_of_lt_of_le (by decide) (Int.le_add_of_nonneg_left hnow)) hless
    | some e =>
      rw [hold] at hless
      have hle := hbound _ _ hold
      simp only [Option.getD_some, Int.not_lt] at hless
      rw [insertNew_of_mem (lookup_eq_some_mem hold)]
      exact ⟨⟨e, hold, Int.le_antisymm hle hless⟩, fun _ _ => rfl⟩

theorem bannedAt_add (hnow : 0 ≤ now) (hbound : Bounded now m) (created : Int) (subnet : SubNet)
    (reason : BanReason) :
    BannedAt base32Encode t a (add base32Encode created now subnet reason m).2 ↔
      (subnet.toString base32Encode = (SubNet.ofAddr a).toString base32Encode ∧
        t < now + kDefaultMisbehavingBantime) ∨ BannedAt base32Encode t a m := by
  obtain ⟨⟨e, he, huntil⟩, hothers⟩ := lookup_add base32Encode hnow hbound created
    subnet reason
  rw [bannedAt_iff, bannedAt_iff]
  by_cases hkey : subnet.toString base32Encode = (SubNet.ofAddr a).toString base32Encode
  · rw [← hkey, he, ← huntil]
    constructor
    · rintro ⟨_, hsome, hlt⟩
      cases hsome
      exact Or.inl ⟨rfl, hlt⟩
    · rintro (⟨-, hlt⟩ | ⟨e', he', hlt⟩)
      · exact ⟨e, rfl, hlt⟩
      · have hle := hbound _ _ he'
        exact ⟨e, rfl, by omega⟩
  · rw [hothers _ (Ne.symm hkey)]
    constructor
    · exact Or.inr
    · rintro (⟨h, -⟩ | h)
      · exact absurd h hkey
      · exact h

theorem Bounded.add (hnow : 0 ≤ now) (h : Bounded now m) (created : Int) (subnet : SubNet)
    (reason : BanReason) :
    Bounded now (add base32Encode created now subnet reason m).2 := by
  obtain ⟨⟨e, he, huntil⟩, hothers⟩ := lookup_add base32Encode hnow h created
    subnet reason
  intro key e' he'
  by_cases hkey : key = subnet.toString base32Encode
  · subst hkey
    rw [he] at he'
    cases he'
    exact huntil.le
  · rw [hothers key hkey] at he'
    exact h key e' he'

theorem Bounded.erase (h : Bounded now m) (subnet : SubNet) :
    Bounded now (erase base32Encode subnet m).2 := by
  intro key e he
  by_cases hkey : key = subnet.toString base32Encode
  · subst hkey
    rw [BanLists.erase, AList.lookup_erase] at he
    cases he
  · rw [BanLists.erase, AList.lookup_erase_ne hkey] at he
    exact h key e he

end Lookups

section Texts

variable {base32Encode : List Endian.Byte → List Char}

theorem SameNet.toString_eq {u v : SubNet} (h : SameNet u v) :
    u.toString base32Encode = v.toString base32Encode := by
  have hv4 : u.netAddr.isIpv4 = v.netAddr.isIpv4 := by
    rw [NetAddr.isIpv4, NetAddr.isIpv4, h.1]
  rw [SubNet.toString, SubNet.toString, SubNet.maskText, SubNet.maskText, startOfs_congr h.1, h.2,
    hv4, addrToString_congr h.1]

/-- Erasing under a text takes away only bans of that network. -/
theorem sameNet_of_toString_eq (hbase : Function.Injective base32Encode) {u v : SubNet}
    {a : NetAddr} (hu : Single u ∨ Idle u)
    (hv : v.Full → v.netAddr.isValid = true → v.netmask = fullMask)
    (hua : u.toString base32Encode = (SubNet.ofAddr a).toString base32Encode)
    (hva : v.toString base32Encode = (SubNet.ofAddr a).toString base32Encode) :
    SameNet u v := by
  rcases (toString_eq_ofAddr_iff hbase).mp hua with ⟨huip, hufull⟩
  rcases (toString_eq_ofAddr_iff hbase).mp hva with ⟨hvip, hvfull⟩
  have hip : u.netAddr.ip = v.netAddr.ip := huip.trans hvip.symm
  rcases hu with ⟨-, haddr, hmask⟩ | ⟨-, hnot⟩
  · exact ⟨hip, hmask.trans (hv hvfull ((isValid_congr hip).symm.trans haddr)).symm⟩
  · exact absurd hufull hnot

/-- A plain subnet is written like the addresses it matches. -/
theorem matchesAddr_iff_written (hbase : Function.Injective base32Encode) {u : SubNet}
    (hu : Single u ∨ Idle u) (a : NetAddr) :
    u.matchesAddr a = true ↔
      u.toString base32Encode = (SubNet.ofAddr a).toString base32Encode := by
  rw [toString_eq_ofAddr_iff hbase]
  exact written_as_matched_iff.mpr hu a

end Texts

/-- Characters with the codes of the bytes, which tell the bytes. -/
def spell (bytes : List Endian.Byte) : List Char := bytes.map fun b => Char.ofNat b.toNat

theorem spell_injective : Function.Injective spell := by
  refine List.map_injective_iff.mpr fun a b h => ?_
  have hcode : ∀ n < 256, (Char.ofNat n).toNat = n := by decide +kernel
  have hnat : a.toNat = b.toNat := by
    rw [← hcode a.toNat a.isLt, ← hcode b.toNat b.isLt, h]
  exact BitVec.eq_of_toNat_eq hnat

/-- The address 1.2.3.x. -/
def address123 (x : Endian.Byte) : NetAddr := { ip := ⟨kPchIpv4 ++ [1, 2, 3, x], rfl⟩ }

end BanLists
