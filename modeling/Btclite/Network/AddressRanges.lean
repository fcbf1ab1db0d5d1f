import Btclite.Network.SubNetBits

/-!
# Address ranges

The predicates of `NetAddr` on ranges, against the ranges that their comments
name: a network and the length of its prefix in bits. Some compare bytes, others
the elements of `ip`, which the machine loads with the lowest byte first.
-/

namespace AddressRanges

open Endian Serialize Address SubNets

/-- These bytes begin with so many bits of the network, whose bytes behind those given are zero. -/
def InRange (network : List Byte) (bits : Nat) (bytes : List Byte) : Prop :=
  ∀ i < bits, bitOf bytes i = bitOf network i

def In4 (a : NetAddr) (network : List Byte) (bits : Nat) : Prop :=
  a.isIpv4 = true ∧ InRange network bits (a.ip.data.drop 12)

def In6 (a : NetAddr) (network : List Byte) (bits : Nat) : Prop :=
  a.isIpv6 = true ∧ InRange network bits a.ip.data

/-- The private, reserved, link-local, local and internal ranges. -/
def Confined (a : NetAddr) : Prop :=
  (In4 a [10] 8 ∨ In4 a [192, 168] 16 ∨ In4 a [172, 16] 12) ∨ In4 a [198, 18] 15 ∨
    In4 a [169, 254] 16 ∨ In6 a [0xFE, 0x80] 64 ∨ In4 a [100, 64] 10 ∨
    (In4 a [192, 0, 2] 24 ∨ In4 a [198, 51, 100] 24 ∨ In4 a [203, 0, 113] 24) ∨
    In6 a [0xFC] 7 ∨ In6 a [0x20, 0x01, 0x00, 0x10] 28 ∨
    (In4 a [127] 8 ∨ In4 a [0] 8 ∨ In6 a (List.replicate 15 0 ++ [1]) 128) ∨ a.isInternal = true

/-- Each predicate says what its comment says. -/
structure Classified (a : NetAddr) : Prop where
  family : [a.isIpv4, a.isTor, a.isInternal, a.isIpv6].count true = 1
  rfc1918 : a.isRFC1918 = true ↔ In4 a [10] 8 ∨ In4 a [192, 168] 16 ∨ In4 a [172, 16] 12
  rfc2544 : a.isRFC2544 = true ↔ In4 a [198, 18] 15
  rfc6598 : a.isRFC6598 = true ↔ In4 a [100, 64] 10
  rfc5737 : a.isRFC5737 = true ↔
    In4 a [192, 0, 2] 24 ∨ In4 a [198, 51, 100] 24 ∨ In4 a [203, 0, 113] 24
  rfc3927 : a.isRFC3927 = true ↔ In4 a [169, 254] 16
  rfc3849 : a.isRFC3849 = true ↔ In6 a [0x20, 0x01, 0x0D, 0xB8] 32
  rfc3964 : a.isRFC3964 = true ↔ In6 a [0x20, 0x02] 16
  rfc4193 : a.isRFC4193 = true ↔ In6 a [0xFC] 7
  rfc4380 : a.isRFC4380 = true ↔ In6 a [0x20, 0x01] 32
  rfc4843 : a.isRFC4843 = true ↔ In6 a [0x20, 0x01, 0x00, 0x10] 28
  rfc4862 : a.isRFC4862 = true ↔ In6 a [0xFE, 0x80] 64
  rfc6052 : a.isRFC6052 = true ↔ In6 a [0x00, 0x64, 0xFF, 0x9B] 96
  rfc6145 : a.isRFC6145 = true ↔ In6 a [0, 0, 0, 0, 0, 0, 0, 0, 0xFF, 0xFF] 96
  routable : a.isRoutable = true ↔ a.isValid = true ∧ ¬ Confined a

section Prefixes

variable {network bytes : List Byte} {a : NetAddr}

/-- So many bits of two bytes are the same from the front. -/
def SameTop (r : Nat) (x y : Byte) : Prop := ∀ i < r, x.getMsbD i = y.getMsbD i

instance (r : Nat) (x y : Byte) : Decidable (SameTop r x y) :=
  inferInstanceAs (Decidable (∀ i < r, _))

@[simp] theorem sameTop_zero (x y : Byte) : SameTop 0 x y :=
  fun _ hi => absurd hi (Nat.not_lt_zero _)

/-- A prefix is so many bytes, and so many bits of the next. -/
theorem inRange_iff (k : Nat) {r : Nat} (hr : r < 8) :
    InRange network (8 * k + r) bytes ↔
      (∀ j < k, bytes.getD j 0 = network.getD j 0) ∧
        SameTop r (bytes.getD k 0) (network.getD k 0) := by
  rw [forall_bytes_iff]
  constructor
  · intro h
    refine ⟨fun i hi => h i (by omega), fun i hi => ?_⟩
    have hbit := h (8 * k + i) (by omega)
    rwa [bitOf, bitOf, Nat.mul_add_div (by decide), Nat.div_eq_of_lt (Nat.lt_trans hi hr),
      Nat.mul_add_mod, Nat.mod_eq_of_lt (Nat.lt_trans hi hr)] at hbit
  · rintro ⟨hbytes, hbits⟩ i hi
    by_cases hlow : i < 8 * k
    · exact hbytes i hlow
    · obtain ⟨d, rfl⟩ := Nat.exists_eq_add_of_le (Nat.not_lt.mp hlow)
      have hd : d < r := by omega
      rw [bitOf, bitOf, Nat.mul_add_div (by decide), Nat.div_eq_of_lt (Nat.lt_trans hd hr),
        Nat.mul_add_mod, Nat.mod_eq_of_lt (Nat.lt_trans hd hr)]
      exact hbits d hd

theorem getD_drop (n j : Nat) : (a.ip.data.drop n).getD j 0 = a.getByte (n + j) := by
  rw [NetAddr.getByte, List.getD_eq_getElem?_getD, List.getD_eq_getElem?_getD, List.getElem?_drop]

theorem in4_iff (k : Nat) {r : Nat} (hr : r < 8) :
    In4 a network (8 * k + r) ↔ a.isIpv4 = true ∧
      (∀ j < k, a.getByte (12 + j) = network.getD j 0) ∧
        SameTop r (a.getByte (12 + k)) (network.getD k 0) := by
  rw [In4, inRange_iff k hr]
  simp only [getD_drop]

theorem in6_iff (k : Nat) {r : Nat} (hr : r < 8) :
    In6 a network (8 * k + r) ↔ a.isIpv6 = true ∧ (∀ j < k, a.getByte j = network.getD j 0) ∧
      SameTop r (a.getByte k) (network.getD k 0) := by
  rw [In6, inRange_iff k hr]
  rfl

end Prefixes

section Ranges

variable (a : NetAddr)

/-- An element of `ip` is four bytes, the first of them lowest. -/
theorem protoIp_eq_iff {n : Nat} (hn : n < 4) {w : U32} {b c d e : Byte}
    (hw : toLittleEndian 4 w = [b, c, d, e]) :
    a.protoIp n = w ↔ a.getByte (4 * n) = b ∧ a.getByte (4 * n + 1) = c ∧
      a.getByte (4 * n + 2) = d ∧ a.getByte (4 * n + 3) = e := by
  have hlen : ((a.ip.data.drop (4 * n)).take 4).length = 4 := by
    rw [List.length_take, List.length_drop, a.ip.size_eq]
    omega
  have hfour : ∀ l : List Byte, l.length = 4 →
      l = [l.getD 0 0, l.getD 1 0, l.getD 2 0, l.getD 3 0] := by
    intro l hl
    match l, hl with
    | [_, _, _, _], _ => rfl
  have hget : ∀ j < 4, ((a.ip.data.drop (4 * n)).take 4).getD j 0 = a.getByte (4 * n + j) := by
    intro j hj
    rw [← getD_drop, List.getD_eq_getElem?_getD, List.getD_eq_getElem?_getD,
      List.getElem?_take_of_lt hj]
  have hbytes := hfour _ hlen
  rw [hget 0 (by decide), hget 1 (by decide), hget 2 (by decide), hget 3 (by decide)] at hbytes
  calc a.protoIp n = w
      ↔ toLittleEndian 4 (a.protoIp n) = toLittleEndian 4 w :=
        ⟨congrArg _, toLittleEndian_injective rfl⟩
    _ ↔ [a.getByte (4 * n), a.getByte (4 * n + 1), a.getByte (4 * n + 2), a.getByte (4 * n + 3)] =
          [b, c, d, e] := by
        rw [hw, NetAddr.protoIp, toLittleEndian_fromLittleEndian rfl _ hlen, hbytes, Nat.add_zero]
    _ ↔ _ := by simp

theorem protoIp_eq_zero_iff {n : Nat} (hn : n < 4) :
    a.protoIp n = 0#32 ↔ a.getByte (4 * n) = 0#8 ∧ a.getByte (4 * n + 1) = 0#8 ∧
      a.getByte (4 * n + 2) = 0#8 ∧ a.getByte (4 * n + 3) = 0#8 :=
  protoIp_eq_iff a hn rfl

theorem isRFC1918_iff : a.isRFC1918 = true ↔
    In4 a [10] 8 ∨ In4 a [192, 168] 16 ∨ In4 a [172, 16] 12 := by
  have hbits : ∀ b : Byte, SameTop 4 b 16#8 ↔ 16#8 ≤ b ∧ b ≤ 31#8 := by decide +kernel
  rw [in4_iff 1 (r := 0) (by decide), in4_iff 2 (r := 0) (by decide),
    in4_iff 1 (r := 4) (by decide)]
  simp only [Nat.forall_lt_succ_right]
  simp [NetAddr.isRFC1918, hbits, and_or_left, or_assoc, and_assoc]

theorem isRFC2544_iff : a.isRFC2544 = true ↔ In4 a [198, 18] 15 := by
  have hbits : ∀ b : Byte, SameTop 7 b 18#8 ↔ b = 18#8 ∨ b = 19#8 := by decide +kernel
  rw [in4_iff 1 (r := 7) (by decide)]
  simp [NetAddr.isRFC2544, hbits, and_or_left, and_assoc]

theorem isRFC6598_iff : a.isRFC6598 = true ↔ In4 a [100, 64] 10 := by
  have hbits : ∀ b : Byte, SameTop 2 b 64#8 ↔ 64#8 ≤ b ∧ b ≤ 127#8 := by decide +kernel
  rw [in4_iff 1 (r := 2) (by decide)]
  simp [NetAddr.isRFC6598, hbits, and_assoc]

theorem isRFC5737_iff : a.isRFC5737 = true ↔
    In4 a [192, 0, 2] 24 ∨ In4 a [198, 51, 100] 24 ∨ In4 a [203, 0, 113] 24 := by
  rw [in4_iff 3 (r := 0) (by decide), in4_iff 3 (r := 0) (by decide),
    in4_iff 3 (r := 0) (by decide)]
  simp only [Nat.forall_lt_succ_right]
  simp [NetAddr.isRFC5737, and_or_left, or_assoc, and_assoc]

theorem isRFC3927_iff : a.isRFC3927 = true ↔ In4 a [169, 254] 16 := by
  rw [in4_iff 2 (r := 0) (by decide)]
  simp only [Nat.forall_lt_succ_right]
  simp [NetAddr.isRFC3927, and_assoc]

theorem isRFC3849_iff : a.isRFC3849 = true ↔ In6 a [0x20, 0x01, 0x0D, 0xB8] 32 := by
  rw [in6_iff 4 (r := 0) (by decide)]
  simp only [Nat.forall_lt_succ_right]
  simp [NetAddr.isRFC3849, and_assoc]

theorem isRFC3964_iff : a.isRFC3964 = true ↔ In6 a [0x20, 0x02] 16 := by
  rw [in6_iff 2 (r := 0) (by decide)]
  simp only [Nat.forall_lt_succ_right]
  simp [NetAddr.isRFC3964, and_assoc]

theorem isRFC4193_iff : a.isRFC4193 = true ↔ In6 a [0xFC] 7 := by
  have hbits : ∀ b : Byte, SameTop 7 b 252#8 ↔ b &&& 254#8 = 252#8 := by decide +kernel
  rw [in6_iff 0 (r := 7) (by decide)]
  simp [NetAddr.isRFC4193, hbits]

theorem isRFC4380_iff : a.isRFC4380 = true ↔ In6 a [0x20, 0x01] 32 := by
  rw [in6_iff 4 (r := 0) (by decide)]
  simp only [Nat.forall_lt_succ_right]
  simp [NetAddr.isRFC4380, and_assoc]

theorem isRFC4843_iff : a.isRFC4843 = true ↔ In6 a [0x20, 0x01, 0x00, 0x10] 28 := by
  have hbits : ∀ b : Byte, SameTop 4 b 16#8 ↔ b &&& 240#8 = 16#8 := by decide +kernel
  rw [in6_iff 3 (r := 4) (by decide)]
  simp only [Nat.forall_lt_succ_right]
  simp [NetAddr.isRFC4843, hbits, and_assoc]

theorem isRFC4862_iff : a.isRFC4862 = true ↔ In6 a [0xFE, 0x80] 64 := by
  have hfirst : a.protoIp 0 = 0x80FE#32 ↔ a.getByte 0 = 0xFE#8 ∧ a.getByte 1 = 0x80#8 ∧
      a.getByte 2 = 0#8 ∧ a.getByte 3 = 0#8 := protoIp_eq_iff a (by decide) rfl
  rw [in6_iff 8 (r := 0) (by decide), NetAddr.isRFC4862]
  simp only [Nat.forall_lt_succ_right]
  simp [and_assoc, hfirst, protoIp_eq_zero_iff]

/-- Only sixty-four bits of the well-known prefix are compared. -/
theorem isRFC6052_iff : a.isRFC6052 = true ↔ In6 a [0x00, 0x64, 0xFF, 0x9B] 64 := by
  have hfirst : a.protoIp 0 = 0x9BFF6400#32 ↔ a.getByte 0 = 0#8 ∧ a.getByte 1 = 0x64#8 ∧
      a.getByte 2 = 0xFF#8 ∧ a.getByte 3 = 0x9B#8 := protoIp_eq_iff a (by decide) rfl
  rw [in6_iff 8 (r := 0) (by decide), NetAddr.isRFC6052]
  simp only [Nat.forall_lt_succ_right]
  simp [and_assoc, hfirst, protoIp_eq_zero_iff]

theorem isRFC6145_iff : a.isRFC6145 = true ↔
    In6 a [0, 0, 0, 0, 0, 0, 0, 0, 0xFF, 0xFF] 96 := by
  have hlast : a.protoIp 2 = 0xFFFF#32 ↔ a.getByte 8 = 0xFF#8 ∧ a.getByte 9 = 0xFF#8 ∧
      a.getByte 10 = 0#8 ∧ a.getByte 11 = 0#8 := protoIp_eq_iff a (by decide) rfl
  rw [in6_iff 12 (r := 0) (by decide), NetAddr.isRFC6145]
  simp only [Nat.forall_lt_succ_right]
  simp [and_assoc, hlast, protoIp_eq_zero_iff]

theorem isLocal_iff : a.isLocal = true ↔
    In4 a [127] 8 ∨ In4 a [0] 8 ∨ In6 a (List.replicate 15 0 ++ [1]) 128 := by
  have hlast : a.ip.data = List.replicate 15 0 ++ [1] ↔
      ∀ j < 16, a.getByte j = (List.replicate 15 (0 : Byte) ++ [1]).getD j 0 := by
    constructor
    · intro h j _
      rw [NetAddr.getByte, h]
    · intro h
      exact congrArg Bytes.data (bytes_ext (b := ⟨List.replicate 15 0 ++ [1], rfl⟩) h)
  rw [in4_iff 1 (r := 0) (by decide), in4_iff 1 (r := 0) (by decide),
    in6_iff 16 (r := 0) (by decide), ← hlast]
  simp [NetAddr.isLocal, and_or_left, or_assoc]

theorem isRoutable_iff : a.isRoutable = true ↔ a.isValid = true ∧ ¬ Confined a := by
  have hconfined : Confined a ↔ (a.isRFC1918 || a.isRFC2544 || a.isRFC3927 || a.isRFC4862 ||
      a.isRFC6598 || a.isRFC5737 || a.isRFC4193 || a.isRFC4843 ||
      (a.isRFC4193 && !a.isTor) || a.isLocal || a.isInternal) = true := by
    rw [Confined, ← isRFC1918_iff, ← isRFC2544_iff, ← isRFC3927_iff, ← isRFC4862_iff,
      ← isRFC6598_iff, ← isRFC5737_iff, ← isRFC4193_iff, ← isRFC4843_iff, ← isLocal_iff]
    cases a.isRFC4193 with
    | false => simp [or_assoc]
    | true => simp
  rw [hconfined, NetAddr.isRoutable, Bool.and_eq_true, Bool.not_eq_true', Bool.not_eq_true]

/-- The second byte tells the families with a prefix of their own. -/
theorem family_byte : (a.isIpv4 = true → a.getByte 1 = 0) ∧ (a.isTor = true → a.getByte 1 = 0x87) ∧
    (a.isInternal = true → a.getByte 1 = 0x6B) := by
  have hfirst : ∀ k, 1 < k → ∀ l : List Byte, a.ip.data.take k = l → a.getByte 1 = l.getD 1 0 := by
    intro k hk l hl
    rw [← hl, NetAddr.getByte, List.getD_eq_getElem?_getD, List.getD_eq_getElem?_getD,
      List.getElem?_take_of_lt hk]
  refine ⟨fun h => ?_, fun h => ?_, fun h => ?_⟩
  · exact hfirst 12 (by decide) _ (beq_iff_eq.mp h)
  · exact hfirst 6 (by decide) _ (beq_iff_eq.mp h)
  · exact hfirst 6 (by decide) _ (beq_iff_eq.mp h)

theorem family_count : [a.isIpv4, a.isTor, a.isInternal, a.isIpv6].count true = 1 := by
  obtain ⟨hv4, htor, hint⟩ := family_byte a
  rw [NetAddr.isIpv6]
  cases h4 : a.isIpv4 <;> cases ht : a.isTor <;> cases hi : a.isInternal <;>
    simp_all

end Ranges

section Exactness

variable {a : NetAddr}

def rfc6052Prefix : List Byte := [0x00, 0x64, 0xFF, 0x9B]

/-- Outside of 64:FF9B::/96, but in 64:FF9B::/64. -/
def BeyondRFC6052 (a : NetAddr) : Prop :=
  InRange rfc6052Prefix 64 a.ip.data ∧ ¬ InRange rfc6052Prefix 96 a.ip.data

theorem isIpv6_of_rfc6052Prefix (h : InRange rfc6052Prefix 64 a.ip.data) : a.isIpv6 = true := by
  have hbyte : a.getByte 1 = 0x64 := ((inRange_iff 8 (r := 0) (by decide)).mp h).1 1 (by decide)
  obtain ⟨hv4, htor, hint⟩ := family_byte a
  rw [hbyte] at hv4 htor hint
  rw [NetAddr.isIpv6, Bool.and_eq_true, Bool.and_eq_true, Bool.not_eq_true', Bool.not_eq_true',
    Bool.not_eq_true']
  refine ⟨⟨?_, ?_⟩, ?_⟩
  · exact Bool.eq_false_iff.mpr fun h4 => absurd (hv4 h4) (by decide)
  · exact Bool.eq_false_iff.mpr fun ht => absurd (htor ht) (by decide)
  · exact Bool.eq_false_iff.mpr fun hi => absurd (hint hi) (by decide)

/-- Every predicate is exact, except for one behind a prefix that is compared too short. -/
theorem classified_iff (a : NetAddr) : Classified a ↔ ¬ BeyondRFC6052 a := by
  constructor
  · rintro h ⟨hshort, hlong⟩
    have hrange : a.isRFC6052 = true :=
      (isRFC6052_iff a).mpr ⟨isIpv6_of_rfc6052Prefix hshort, hshort⟩
    exact hlong (h.rfc6052.mp hrange).2
  · intro hnot
    have h6052 : a.isRFC6052 = true ↔ In6 a rfc6052Prefix 96 := by
      rw [isRFC6052_iff]
      refine and_congr_right fun _ => ⟨fun hshort => ?_, fun hlong i hi => ?_⟩
      · by_contra hlong
        exact hnot ⟨hshort, hlong⟩
      · exact hlong i (Nat.lt_trans hi (by decide))
    exact
      { family := family_count a
        rfc1918 := isRFC1918_iff a
        rfc2544 := isRFC2544_iff a
        rfc6598 := isRFC6598_iff a
        rfc5737 := isRFC5737_iff a
        rfc3927 := isRFC3927_iff a
        rfc3849 := isRFC3849_iff a
        rfc3964 := isRFC3964_iff a
        rfc4193 := isRFC4193_iff a
        rfc4380 := isRFC4380_iff a
        rfc4843 := isRFC4843_iff a
        rfc4862 := isRFC4862_iff a
        rfc6052 := h6052
        rfc6145 := isRFC6145_iff a
        routable := isRoutable_iff a }

/-- 64:FF9B::1:0:102:304 is taken for an address of 64:FF9B::/96. -/
theorem beyond_not_classified : ¬ Classified
    { ip := ⟨[0x00, 0x64, 0xFF, 0x9B, 0, 0, 0, 0, 0, 1, 0, 0, 1, 2, 3, 4], rfl⟩ } := by
  intro h
  have hrange := h.rfc6052.mp (by decide)
  exact absurd (hrange.2 79 (by decide)) (by decide)

end Exactness

end AddressRanges
