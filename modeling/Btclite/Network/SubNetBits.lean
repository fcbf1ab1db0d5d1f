import Btclite.Network.SubNets

/-!
# Subnets bit by bit

What the two loops that build a mask leave of it, and what `Match` compares: the
bits of an address are numbered from the front of its first byte. An IPv4 address
has its own bits behind the first ninety-six.
-/

namespace SubNets

open Endian Serialize Address

/-- A bit of a string of bytes, from the front. -/
def bitOf (bytes : List Byte) (i : Nat) : Bool := (bytes.getD (i / 8) 0).getMsbD (i % 8)

def bitAt (a : NetAddr) (i : Nat) : Bool := bitOf a.ip.data i

section Bits

theorem byte_eq_iff {x y : Byte} : x = y ↔ ∀ k < 8, x.getMsbD k = y.getMsbD k :=
  ⟨fun h _ _ => h ▸ rfl, fun h => BitVec.eq_of_getMsbD_eq h⟩

/-- Bytes that agree bit by bit, for the numbers of the bits in the whole string. -/
theorem forall_bytes_iff {x y : Nat → Byte} {n : Nat} :
    (∀ j < n, x j = y j) ↔
      ∀ i < 8 * n, (x (i / 8)).getMsbD (i % 8) = (y (i / 8)).getMsbD (i % 8) := by
  constructor
  · intro h i hi
    rw [h (i / 8) (by omega)]
  · intro h j hj
    refine byte_eq_iff.mpr fun k hk => ?_
    have hbit := h (8 * j + k) (by omega)
    rwa [Nat.mul_add_div (by decide), Nat.div_eq_of_lt hk, Nat.mul_add_mod,
      Nat.mod_eq_of_lt hk] at hbit

theorem getMsbD_oneBit : ∀ j < 8, ∀ k < 8, (1#8 <<< (7 - k)).getMsbD j = decide (j = k) := by
  decide

theorem and_seven (n : Nat) : n &&& 7 = n % 8 := Nat.and_two_pow_sub_one_eq_mod n 3

/-- One turn of the loop clears one bit. -/
theorem bitOf_clear {bytes : List Byte} {i n : Nat} (hi : i / 8 < bytes.length) :
    bitOf (bytes.modify (n >>> 3) (· &&& ~~~(1#8 <<< (7 - (n &&& 7))))) i = true ↔
      bitOf bytes i = true ∧ i ≠ n := by
  have hlt : ∀ m, m % 8 < 8 := fun m => Nat.mod_lt m (by decide)
  have hshift : n >>> 3 = n / 8 := Nat.shiftRight_eq_div_pow n 3
  rw [bitOf, bitOf, List.getD_eq_getElem?_getD, List.getD_eq_getElem?_getD, List.getElem?_modify,
    List.getElem?_eq_getElem hi, hshift, and_seven]
  by_cases hbyte : n / 8 = i / 8
  · have hsame : i % 8 = n % 8 ↔ i = n := by omega
    simp only [hbyte, if_true, Option.map_eq_map, Option.map_some, Option.getD_some,
      BitVec.getMsbD_and, BitVec.getMsbD_not, getMsbD_oneBit _ (hlt i) _ (hlt n), hlt i,
      decide_true, Bool.true_and, Bool.and_eq_true, Bool.not_eq_true', decide_eq_false_iff_not,
      hsame, ne_eq]
  · have hne : i ≠ n := fun h => hbyte (by rw [h])
    simp [hbyte, hne]

theorem bitOf_clearAll {bytes : List Byte} {i : Nat} (hi : i / 8 < bytes.length) (bits : List Nat) :
    bitOf (bits.foldl
      (fun m n => m.modify (n >>> 3) (· &&& ~~~(1#8 <<< (7 - (n &&& 7))))) bytes) i = true ↔
      bitOf bytes i = true ∧ i ∉ bits := by
  induction bits generalizing bytes with
  | nil => simp
  | cons n bits ih =>
    rw [List.foldl_cons, ih (by rwa [List.length_modify]), bitOf_clear hi, List.mem_cons, not_or,
      and_assoc]

theorem bitOf_fullMask {i : Nat} (hi : i < 128) : bitOf fullMask.data i = true := by
  have hbyte : i / 8 < 16 := by omega
  have hbit : i % 8 < 8 := Nat.mod_lt i (by decide)
  rw [bitOf, fullMask, List.getD_eq_getElem?_getD, List.getElem?_replicate, if_pos hbyte,
    Option.getD_some]
  exact (by decide : ∀ k < 8, (0xff : Byte).getMsbD k = true) _ hbit

/-- The mask of a prefix has the bits of the prefix. -/
theorem bitOf_clearBitsFrom {n i : Nat} (hi : i < 128) :
    bitOf (clearBitsFrom n) i = true ↔ i < n := by
  have hbyte : i / 8 < fullMask.data.length := by
    rw [fullMask.size_eq]
    omega
  rw [clearBitsFrom, bitOf_clearAll hbyte, and_iff_right (bitOf_fullMask hi), List.mem_range'_1]
  omega

end Bits

section Agreement

/-- `Match` compares the bits of the mask with those of the address the subnet was made from. -/
theorem matchesAddr_iff_bits {s : SubNet} {a b : NetAddr}
    (hnet : s.netAddr = normalize a s.netmask) :
    s.matchesAddr b = true ↔ s.valid = true ∧ b.isValid = true ∧
      ∀ i < 128, bitOf s.netmask.data i = true → bitAt a i = bitAt b i := by
  have hbytes : (∀ j < 16, b.getByte j &&& maskByte s.netmask j = s.netAddr.getByte j) ↔
      ∀ i < 128, bitOf s.netmask.data i = true → bitAt a i = bitAt b i := by
    rw [hnet]
    simp only [normalize_getByte]
    refine forall_bytes_iff.trans (forall₂_congr fun i _ => ?_)
    rw [BitVec.getMsbD_and, BitVec.getMsbD_and]
    change ((bitAt b i && bitOf s.netmask.data i) = (bitAt a i && bitOf s.netmask.data i)) ↔ _
    cases bitOf s.netmask.data i
    · simp
    · simpa using eq_comm
  rw [matchesAddr_iff, hbytes]

theorem startOfs_eq (a : NetAddr) : SubNet.startOfs a * 8 = if a.isIpv4 then 96 else 0 := by
  rw [SubNet.startOfs]
  split_ifs <;> rfl

/-- So many bits from the front are the same. -/
def AgreeUpTo (n : Nat) (a b : NetAddr) : Prop := ∀ i < n, bitAt a i = bitAt b i

theorem ofPrefix_valid_iff (a : NetAddr) (n : Int) :
    (SubNet.ofPrefix a n).valid = true ↔ 0 ≤ n ∧ n ≤ if a.isIpv4 then 32 else 128 := by
  have hbits : ((128 - SubNet.startOfs a * 8 : Nat) : Int) = if a.isIpv4 then 32 else 128 := by
    rw [startOfs_eq]
    split_ifs <;> rfl
  rw [SubNet.ofPrefix, decide_eq_true_iff, hbits]

theorem ofPrefix_matches_iff (a b : NetAddr) (n : Int) :
    (SubNet.ofPrefix a n).matchesAddr b = true ↔
      b.isValid = true ∧ (SubNet.ofPrefix a n).valid = true ∧
        AgreeUpTo ((if a.isIpv4 then 96 else 0) + n.toNat) a b := by
  rw [matchesAddr_iff_bits rfl, and_left_comm]
  refine and_congr_right fun _ => and_congr_right fun hvalid => ?_
  have hrange := (ofPrefix_valid_iff a n).mp hvalid
  have hmask : (SubNet.ofPrefix a n).netmask.data =
      clearBitsFrom ((if a.isIpv4 then 96 else 0) + n.toNat) := by
    have hin : 0 ≤ n ∧ n ≤ (128 - SubNet.startOfs a * 8 : Nat) := of_decide_eq_true hvalid
    rw [← startOfs_eq, Nat.add_comm]
    simp only [SubNet.ofPrefix, if_pos hin]
  have hle : (if a.isIpv4 then 96 else 0) + n.toNat ≤ 128 := by
    split_ifs at hrange ⊢ <;> omega
  rw [hmask, AgreeUpTo]
  constructor
  · intro h i hi
    have hin : i < 128 := Nat.lt_of_lt_of_le hi hle
    exact h i hin ((bitOf_clearBitsFrom hin).mpr hi)
  · intro h i hi hbit
    exact h i ((bitOf_clearBitsFrom hi).mp hbit)

/-- The bits that the mask of `SubNet(a, m)` has. -/
theorem bitOf_ofMask (a m : NetAddr) {i : Nat} (hi : i < 128) :
    bitOf (SubNet.ofMask a m).netmask.data i = true ↔
      (a.isIpv4 = true ∧ i < 96) ∨ bitAt m i = true := by
  have hdata : (SubNet.ofMask a m).netmask.data =
      List.replicate (SubNet.startOfs a) 0xff ++ m.ip.data.drop (SubNet.startOfs a) := rfl
  rw [hdata, SubNet.startOfs]
  by_cases hv4 : a.isIpv4 = true
  · rw [if_pos hv4, bitOf, List.getD_eq_getElem?_getD]
    by_cases hfront : i < 96
    · have hbyte : i / 8 < 12 := by omega
      rw [List.getElem?_append_left (by rwa [List.length_replicate]), List.getElem?_replicate,
        if_pos hbyte, Option.getD_some]
      refine iff_of_true ?_ (Or.inl ⟨hv4, hfront⟩)
      exact (by decide : ∀ k < 8, (0xff : Byte).getMsbD k = true) _ (Nat.mod_lt i (by decide))
    · have hbyte : 12 ≤ i / 8 := by omega
      rw [List.getElem?_append_right (by rwa [List.length_replicate]), List.length_replicate,
        List.getElem?_drop, Nat.add_sub_cancel' hbyte, ← List.getD_eq_getElem?_getD,
        or_iff_right (fun h => hfront h.2)]
      rfl
  · rw [if_neg hv4, or_iff_right (fun h => hv4 h.1)]
    rfl

theorem ofMask_matches_iff (a m b : NetAddr) :
    (SubNet.ofMask a m).matchesAddr b = true ↔ b.isValid = true ∧
      ∀ i < 128, (a.isIpv4 = true ∧ i < 96) ∨ bitAt m i = true → bitAt a i = bitAt b i := by
  have hvalid : (SubNet.ofMask a m).valid = true := rfl
  rw [matchesAddr_iff_bits rfl, and_iff_right hvalid]
  refine and_congr_right fun _ => forall₂_congr fun i hi => ?_
  rw [bitOf_ofMask a m hi]

/-- A network is the same when it is masked once more. -/
theorem normalize_netAddr (s : SubNet) : normalize s.netAddr s.netmask = s.netAddr := by
  have hip : (normalize s.netAddr s.netmask).ip = s.netAddr.ip :=
    bytes_ext fun i _ => (normalize_getByte s.netAddr s.netmask i).trans (s.masked i)
  calc normalize s.netAddr s.netmask
      = { s.netAddr with ip := (normalize s.netAddr s.netmask).ip } := rfl
    _ = s.netAddr := by rw [hip]

/-- `Match` bit by bit, for every address, length of a prefix and mask. -/
theorem matchesAddr_bitwise :
    (∀ (a : NetAddr) (n : Int),
      ((SubNet.ofPrefix a n).valid = true ↔ 0 ≤ n ∧ n ≤ if a.isIpv4 then 32 else 128) ∧
      normalize (SubNet.ofPrefix a n).netAddr (SubNet.ofPrefix a n).netmask =
        (SubNet.ofPrefix a n).netAddr ∧
      ∀ b : NetAddr, (SubNet.ofPrefix a n).matchesAddr b = true ↔
        b.isValid = true ∧ (SubNet.ofPrefix a n).valid = true ∧
          AgreeUpTo ((if a.isIpv4 then 96 else 0) + n.toNat) a b) ∧
    (∀ a m b : NetAddr, (SubNet.ofMask a m).matchesAddr b = true ↔ b.isValid = true ∧
      ∀ i < 128, (a.isIpv4 = true ∧ i < 96) ∨ bitAt m i = true → bitAt a i = bitAt b i) ∧
    ∀ (s : SubNet) (b : NetAddr), s.valid = false ∨ b.isValid = false →
      s.matchesAddr b = false := by
  refine ⟨fun a n => ⟨ofPrefix_valid_iff a n, normalize_netAddr _, ?_⟩, ofMask_matches_iff, ?_⟩
  · exact fun b => ofPrefix_matches_iff a b n
  · intro s b h
    rw [SubNet.matchesAddr]
    rcases h with h | h
    · simp [h]
    · simp [h]

end Agreement

end SubNets
