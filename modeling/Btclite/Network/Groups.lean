import Btclite.Network.AddressRanges

/-!
# Address groups

`GetGroup` against what it is for. Routable addresses are grouped by the start of
the IPv4 address that they are or carry, onions by four bits of their key, and
what is left by its first bits, of which 2001:470::/32 counts four more.
-/

namespace Groups

open Endian Serialize Address SubNets AddressRanges

section Classes

variable (a : NetAddr)

def ipv4Like : Bool :=
  a.isIpv4 || a.isRFC6145 || a.isRFC6052 || a.isRFC3964 || a.isRFC4380

/-- 2001:470::/32. -/
def isHeNet : Bool :=
  a.getByte 0 == 0x20 && a.getByte 1 == 0x01 && a.getByte 2 == 0x04 && a.getByte 3 == 0x70

/-- The IPv4 address that an IPv4-like address is or carries; Teredo has it inverted. -/
def embeddedIpv4 : List Byte :=
  if a.isIpv4 || a.isRFC6145 || a.isRFC6052 then a.ip.data.drop 12
  else if a.isRFC3964 then (a.ip.data.drop 2).take 4
  else (a.ip.data.drop 12).map (~~~ ·)

end Classes

/-- Routable addresses that should be in one group. -/
def SameGroup (a b : NetAddr) : Prop :=
  (ipv4Like a = true ∧ ipv4Like b = true ∧ (embeddedIpv4 a).take 2 = (embeddedIpv4 b).take 2) ∨
  (a.isTor = true ∧ b.isTor = true ∧ SameTop 4 (a.getByte 6) (b.getByte 6)) ∨
  (isHeNet a = true ∧ isHeNet b = true ∧ AgreeUpTo 36 a b) ∨
  ((a.isIpv6 = true ∧ ipv4Like a = false ∧ isHeNet a = false) ∧
    (b.isIpv6 = true ∧ ipv4Like b = false ∧ isHeNet b = false) ∧ AgreeUpTo 32 a b)

section Bits

theorem sameTop_four_iff {x y : Byte} : SameTop 4 x y ↔ x ||| 0x0F#8 = y ||| 0x0F#8 := by
  have hlow : ∀ k < 8, (0x0F#8).getMsbD k = decide (4 ≤ k) := by decide
  rw [byte_eq_iff]
  constructor
  · intro h k hk
    rw [BitVec.getMsbD_or, BitVec.getMsbD_or, hlow k hk]
    by_cases hk4 : k < 4
    · rw [h k hk4]
    · simp [Nat.not_lt.mp hk4]
  · intro h k hk
    have hbit := h k (Nat.lt_trans hk (by decide))
    have hhigh : decide (4 ≤ k) = false := decide_eq_false (Nat.not_le.mpr hk)
    rwa [BitVec.getMsbD_or, BitVec.getMsbD_or, hlow k (Nat.lt_trans hk (by decide)), hhigh,
      Bool.or_false, Bool.or_false] at hbit

theorem agreeUpTo_iff {a b : NetAddr} (k : Nat) {r : Nat} (hr : r < 8) :
    AgreeUpTo (8 * k + r) a b ↔
      (∀ j < k, a.getByte j = b.getByte j) ∧ SameTop r (a.getByte k) (b.getByte k) :=
  inRange_iff k hr

end Bits

section Kinds

variable {a : NetAddr}

inductive Kind where
  | ipv4
  | tor
  | heNet
  | ipv6
deriving DecidableEq

def kindOf (a : NetAddr) : Kind :=
  if ipv4Like a then .ipv4 else if a.isTor then .tor else if isHeNet a then .heNet else .ipv6

theorem drop_take_two (a : NetAddr) {n : Nat} (hn : n + 2 ≤ 16) :
    (a.ip.data.drop n).take 2 = [a.getByte n, a.getByte (n + 1)] := by
  have hlen : a.ip.data.length = 16 := a.ip.size_eq
  have hfirst : n < a.ip.data.length := by omega
  have hsecond : n + 1 < a.ip.data.length := by omega
  rw [List.drop_eq_getElem_cons hfirst, List.drop_eq_getElem_cons hsecond, NetAddr.getByte,
    NetAddr.getByte, List.getD_eq_getElem _ _ hfirst, List.getD_eq_getElem _ _ hsecond]
  rfl

theorem take_embeddedIpv4 (a : NetAddr) :
    (embeddedIpv4 a).take 2 =
      if a.isIpv4 || a.isRFC6145 || a.isRFC6052 then [a.getByte 12, a.getByte 13]
      else if a.isRFC3964 then [a.getByte 2, a.getByte 3]
      else [a.getByte 12 ^^^ 0xFF, a.getByte 13 ^^^ 0xFF] := by
  rw [embeddedIpv4]
  split_ifs
  · exact drop_take_two a (by decide)
  · rw [List.take_take]
    exact drop_take_two a (by decide)
  · have hnot : ∀ b : Byte, ~~~ b = b ^^^ 0xFF := fun b => (BitVec.xor_allOnes (x := b)).symm
    rw [← List.map_take, drop_take_two a (by decide), ← hnot, ← hnot]
    rfl

theorem isInternal_of_routable (h : a.isRoutable = true) : a.isInternal = false := by
  rw [NetAddr.isRoutable] at h
  simp only [Bool.and_eq_true, Bool.not_eq_true', Bool.or_eq_false_iff] at h
  exact h.2.2

/-- The group of a routable address, by its kind. -/
theorem getGroup_of_routable (h : a.isRoutable = true) :
    a.getGroup = match kindOf a with
      | .ipv4 => NetAddr.kAfIpv4 :: (embeddedIpv4 a).take 2
      | .tor => [NetAddr.kAfTor, a.getByte 6 ||| 0x0F#8]
      | .heNet => [NetAddr.kAfIpv6, a.getByte 0, a.getByte 1, a.getByte 2, a.getByte 3,
          a.getByte 4 ||| 0x0F#8]
      | .ipv6 => [NetAddr.kAfIpv6, a.getByte 0, a.getByte 1, a.getByte 2, a.getByte 3] := by
  have hint := isInternal_of_routable h
  rw [take_embeddedIpv4, kindOf, ipv4Like, NetAddr.getGroup, hint, h, isHeNet]
  by_cases hmapped : (a.isIpv4 || a.isRFC6145 || a.isRFC6052) = true
  · simp [hmapped, NetAddr.groupBits, List.range_succ]
  by_cases h3964 : a.isRFC3964 = true
  · simp [hmapped, h3964, NetAddr.groupBits, List.range_succ]
  by_cases h4380 : a.isRFC4380 = true
  · simp [hmapped, h3964, h4380]
  by_cases htor : a.isTor = true
  · simp [hmapped, h3964, h4380, htor, NetAddr.groupBits]
  generalize (a.getByte 0 == 0x20 && a.getByte 1 == 0x01 && a.getByte 2 == 0x04 &&
    a.getByte 3 == 0x70) = heNet
  cases heNet
  · simp [hmapped, h3964, h4380, htor, NetAddr.groupBits, List.range_succ]
  · simp [hmapped, h3964, h4380, htor, NetAddr.groupBits, List.range_succ]

/-- An IPv4-like address has a second or third byte that 2001:470::/32 has not, and only an
IPv4 address is not written as IPv6. -/
theorem ipv4Like_apart (h : ipv4Like a = true) : a.isTor = false ∧ isHeNet a = false := by
  have hbytes : isHeNet a = true →
      a.getByte 0 = 0x20 ∧ a.getByte 1 = 0x01 ∧ a.getByte 2 = 0x04 := by
    intro hhe
    simp only [isHeNet, Bool.and_eq_true, beq_iff_eq] at hhe
    exact ⟨hhe.1.1.1, hhe.1.1.2, hhe.1.2⟩
  have hnot6 : a.isIpv6 = true → a.isTor = false := by
    intro h6
    simp only [NetAddr.isIpv6, Bool.and_eq_true, Bool.not_eq_true'] at h6
    exact h6.1.2
  have hzero : ∀ {network : List Byte} {bits j : Nat} (c : Byte), In6 a network bits →
      8 * j + 8 ≤ bits → network.getD j 0 = c → a.getByte j = c := by
    intro network bits j c hin hle hc
    have hbits : ∀ i < 8 * (j + 1), bitOf a.ip.data i = bitOf network i :=
      fun i hi => hin.2 i (by omega)
    rw [← hc]
    exact (forall_bytes_iff (x := a.getByte) (y := fun j => network.getD j 0)).mpr hbits j
      (Nat.lt_succ_self j)
  simp only [ipv4Like, Bool.or_eq_true] at h
  rcases h with (((h4 | h6145) | h6052) | h3964) | h4380
  · have hbyte := (family_byte a).1 h4
    refine ⟨Bool.eq_false_iff.mpr fun ht => ?_, Bool.eq_false_iff.mpr fun hhe => ?_⟩
    · exact absurd (hbyte.symm.trans ((family_byte a).2.1 ht)) (by decide)
    · exact absurd (hbyte.symm.trans (hbytes hhe).2.1) (by decide)
  · have hin := (isRFC6145_iff a).mp h6145
    have hbyte := hzero (j := 0) 0 hin (by decide) rfl
    refine ⟨hnot6 hin.1, Bool.eq_false_iff.mpr fun hhe => ?_⟩
    exact absurd (hbyte.symm.trans (hbytes hhe).1) (by decide)
  · have hin := (isRFC6052_iff a).mp h6052
    have hbyte := hzero (j := 1) 0x64 hin (by decide) rfl
    refine ⟨hnot6 hin.1, Bool.eq_false_iff.mpr fun hhe => ?_⟩
    exact absurd (hbyte.symm.trans (hbytes hhe).2.1) (by decide)
  · have hin := (isRFC3964_iff a).mp h3964
    have hbyte := hzero (j := 1) 0x02 hin (by decide) rfl
    refine ⟨hnot6 hin.1, Bool.eq_false_iff.mpr fun hhe => ?_⟩
    exact absurd (hbyte.symm.trans (hbytes hhe).2.1) (by decide)
  · have hin := (isRFC4380_iff a).mp h4380
    have hbyte := hzero (j := 2) 0 hin (by decide) rfl
    refine ⟨hnot6 hin.1, Bool.eq_false_iff.mpr fun hhe => ?_⟩
    exact absurd (hbyte.symm.trans (hbytes hhe).2.2) (by decide)

theorem isHeNet_apart (h : isHeNet a = true) : a.isTor = false := by
  simp only [isHeNet, Bool.and_eq_true, beq_iff_eq] at h
  refine Bool.eq_false_iff.mpr fun ht => ?_
  exact absurd (h.1.1.2.symm.trans ((family_byte a).2.1 ht)) (by decide)

/-- A routable address is of one kind. -/
theorem kindOf_spec (h : a.isRoutable = true) :
    match kindOf a with
    | .ipv4 => ipv4Like a = true ∧ a.isTor = false ∧ isHeNet a = false
    | .tor => ipv4Like a = false ∧ a.isTor = true ∧ isHeNet a = false ∧ a.isIpv6 = false
    | .heNet => ipv4Like a = false ∧ a.isTor = false ∧ isHeNet a = true
    | .ipv6 => ipv4Like a = false ∧ a.isTor = false ∧ isHeNet a = false ∧ a.isIpv6 = true := by
  have hint := isInternal_of_routable h
  rw [kindOf]
  cases hlike : ipv4Like a with
  | true => exact ⟨rfl, ipv4Like_apart hlike⟩
  | false =>
    have h4 : a.isIpv4 = false := by
      simp only [ipv4Like, Bool.or_eq_false_iff] at hlike
      exact hlike.1.1.1.1
    cases htor : a.isTor with
    | true =>
      have hhe : isHeNet a = false := Bool.eq_false_iff.mpr fun hhe =>
        Bool.noConfusion (htor.symm.trans (isHeNet_apart hhe))
      exact ⟨rfl, rfl, hhe, by rw [NetAddr.isIpv6, htor, h4]; rfl⟩
    | false =>
      cases hhe : isHeNet a with
      | true => exact ⟨rfl, rfl, rfl⟩
      | false => exact ⟨rfl, rfl, rfl, by rw [NetAddr.isIpv6, h4, htor, hint]; rfl⟩

theorem getGroup_eq_iff {b : NetAddr} (ha : a.isRoutable = true) (hb : b.isRoutable = true) :
    a.getGroup = b.getGroup ↔ SameGroup a b := by
  have hsa := kindOf_spec ha
  have hsb := kindOf_spec hb
  have h36 : AgreeUpTo 36 a b ↔
      (∀ j < 4, a.getByte j = b.getByte j) ∧ SameTop 4 (a.getByte 4) (b.getByte 4) :=
    agreeUpTo_iff 4 (r := 4) (by decide)
  have h32 : AgreeUpTo 32 a b ↔
      (∀ j < 4, a.getByte j = b.getByte j) ∧ SameTop 0 (a.getByte 4) (b.getByte 4) :=
    agreeUpTo_iff 4 (r := 0) (by decide)
  have hfour : (∀ j < 4, a.getByte j = b.getByte j) ↔ a.getByte 0 = b.getByte 0 ∧
      a.getByte 1 = b.getByte 1 ∧ a.getByte 2 = b.getByte 2 ∧ a.getByte 3 = b.getByte 3 := by
    simp only [Nat.forall_lt_succ_right]
    simp [and_assoc]
  rw [getGroup_of_routable ha, getGroup_of_routable hb, SameGroup, h36, h32, hfour,
    sameTop_four_iff, sameTop_four_iff]
  -- Kinds are told apart by the family and by the length; one kind is compared byte by byte.
  cases hka : kindOf a <;> cases hkb : kindOf b <;> rw [hka] at hsa <;> rw [hkb] at hsb <;>
    simp [hsa, hsb, NetAddr.kAfIpv4, NetAddr.kAfTor, NetAddr.kAfIpv6, and_assoc]

/-- An internal address is grouped by its name. -/
theorem getGroup_of_internal (h : a.isInternal = true) :
    a.getGroup = NetAddr.kAfInternal :: a.ip.data.drop 6 := by
  have hname : (List.range 10).map (fun i => a.getByte (6 + i)) = a.ip.data.drop 6 := by
    refine List.ext_getElem (by simp) fun i hi hi' => ?_
    rw [List.getElem_map, List.getElem_range, List.getElem_drop, NetAddr.getByte,
      List.getD_eq_getElem]
  rw [NetAddr.getGroup, h]
  simp [NetAddr.groupBits, hname]

theorem getGroup_of_unroutable (hint : a.isInternal = false) (h : a.isRoutable = false) :
    a.getGroup = [NetAddr.kAfUnroutable] := by
  rw [NetAddr.getGroup, hint, h]
  rfl

/-- The groups are those that the comments in `GetGroup` name, and no two of them collide. -/
theorem getGroup_partition :
    (∀ a b : NetAddr, a.isRoutable = true → b.isRoutable = true →
      (a.getGroup = b.getGroup ↔ SameGroup a b)) ∧
    (∀ a b : NetAddr, a.isInternal = true → b.isInternal = true →
      (a.getGroup = b.getGroup ↔ a.ip.data.drop 6 = b.ip.data.drop 6)) ∧
    (∀ a b : NetAddr, a.isInternal = true → b.isRoutable = true → a.getGroup ≠ b.getGroup) ∧
    (∀ a : NetAddr, a.isInternal = false → a.isRoutable = false →
      a.getGroup = [NetAddr.kAfUnroutable]) ∧
    ∀ a : NetAddr, a.isInternal = true ∨ a.isRoutable = true →
      a.getGroup ≠ [NetAddr.kAfUnroutable] := by
  have hfamily : ∀ b : NetAddr, b.isRoutable = true →
      ∃ f rest, b.getGroup = f :: rest ∧ f ≠ NetAddr.kAfInternal ∧ f ≠ NetAddr.kAfUnroutable := by
    intro b hb
    rw [getGroup_of_routable hb]
    cases kindOf b <;> exact ⟨_, _, rfl, by decide, by decide⟩
  refine ⟨fun a b => getGroup_eq_iff, ?_, ?_, fun a => getGroup_of_unroutable, ?_⟩
  · intro a b ha hb
    rw [getGroup_of_internal ha, getGroup_of_internal hb, List.cons.injEq, and_iff_right rfl]
  · intro a b ha hb hsame
    obtain ⟨f, rest, hgroup, hne, -⟩ := hfamily b hb
    rw [getGroup_of_internal ha, hgroup, List.cons.injEq] at hsame
    exact hne hsame.1.symm
  · rintro a (ha | ha) hsame
    · rw [getGroup_of_internal ha, List.cons.injEq] at hsame
      exact absurd hsame.1 (by decide)
    · obtain ⟨f, rest, hgroup, -, hne⟩ := hfamily a ha
      rw [hgroup, List.cons.injEq] at hsame
      exact hne hsame.1

end Kinds

end Groups
