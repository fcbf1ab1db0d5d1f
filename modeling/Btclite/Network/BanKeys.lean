import Btclite.Network.BanLists

/-!
# Ban keys

The text of a subnet as the key of the ban map. The text shows the masked address
whole. It shows the whole mask or, of an IPv4 address, its last four bytes: a mask
that hides bits in front of them can leave an IPv4 address over, whose text then
stands for more than one subnet.
-/

namespace BanKeys

open Endian Serialize Address Printing SubNets BanLists

/-- What the constructors that are given an address make. -/
inductive Built : SubNet → Prop where
  | ofAddr (a : NetAddr) : Built (.ofAddr a)
  | ofPrefix (a : NetAddr) (n : Int) : Built (.ofPrefix a n)
  | ofMask (a m : NetAddr) : Built (.ofMask a m)

section Masks

variable {s t : SubNet}

theorem netmaskBits_eq_some : ∀ b : Byte, ∀ n ∈ netmaskBits b, b = (0xff : Byte) <<< (8 - n) := by
  decide +kernel

/-- Masks of one length that are written as one number are the same. -/
theorem cidr_inj {xs ys : List Byte} (hlen : xs.length = ys.length) {n : Nat}
    (hx : cidr xs = some n) (hy : cidr ys = some n) : xs = ys := by
  induction xs generalizing ys n with
  | nil => exact (List.eq_nil_of_length_eq_zero hlen.symm).symm
  | cons x xs ih =>
    obtain ⟨y, ys, rfl⟩ := List.exists_cons_of_length_eq_add_one hlen.symm
    rw [List.length_cons, List.length_cons, Nat.add_right_cancel_iff] at hlen
    rw [cidr] at hx hy
    by_cases hxf : x = 0xff
    · rw [if_pos hxf, Option.map_eq_some_iff] at hx
      rcases hx with ⟨i, hi, rfl⟩
      by_cases hyf : y = 0xff
      · rw [if_pos hyf, Option.map_eq_some_iff] at hy
        rcases hy with ⟨j, hj, hsum⟩
        have hij : j = i := Nat.add_left_cancel hsum
        rw [hxf, hyf, ih hlen hi (hij ▸ hj)]
      · rw [if_neg hyf] at hy
        split_ifs at hy
        have hless := netmaskBits_lt hyf hy
        omega
    · rw [if_neg hxf] at hx
      split_ifs at hx with hxs
      have hless := netmaskBits_lt hxf hx
      by_cases hyf : y = 0xff
      · rw [if_pos hyf, Option.map_eq_some_iff] at hy
        rcases hy with ⟨j, -, rfl⟩
        omega
      · rw [if_neg hyf] at hy
        split_ifs at hy with hys
        have hzeros : ∀ zs : List Byte, zs.all (· == 0) = true → zs = List.replicate zs.length 0 :=
          fun zs hzs => List.eq_replicate_iff.mpr ⟨rfl, by simpa using hzs⟩
        rw [netmaskBits_eq_some x n hx, netmaskBits_eq_some y n hy, hzeros xs hxs, hzeros ys hys,
          hlen]

/-- The part of the mask that the text shows. -/
def shown (s : SubNet) : List Byte := s.netmask.data.drop (SubNet.startOfs s.netAddr)

theorem maskText_eq_iff (hip : s.netAddr.ip = t.netAddr.ip) :
    s.maskText = t.maskText ↔ shown s = shown t := by
  have hofs := startOfs_congr hip
  have hv4 : s.netAddr.isIpv4 = t.netAddr.isIpv4 := by
    rw [NetAddr.isIpv4, NetAddr.isIpv4, hip]
  have hlen : (shown s).length = (shown t).length := by
    rw [shown, shown, List.length_drop, List.length_drop, s.netmask.size_eq, t.netmask.size_eq,
      hofs]
  constructor
  · intro h
    cases hs : cidr (shown s) with
    | some n =>
      have ht := maskText_eq_toDigits_iff.mp (h.symm.trans (maskText_eq_toDigits_iff.mpr hs))
      exact cidr_inj hlen hs ht
    | none =>
      have ht : cidr (shown t) = none := by
        by_contra hsome
        obtain ⟨n, hn⟩ := Option.ne_none_iff_exists'.mp hsome
        have hs' := maskText_eq_toDigits_iff.mp (h.trans (maskText_eq_toDigits_iff.mpr hn))
        cases hs.symm.trans hs'
      rw [SubNet.maskText, SubNet.maskText] at h
      rw [shown] at hs ht
      rw [hs, ht, ← hv4] at h
      rw [shown, shown, ← hofs, SubNet.startOfs]
      by_cases hdots : s.netAddr.isIpv4 = true
      · simp only [if_pos hdots] at h ⊢
        refine dotted_inj ?_ ?_ h
        · exact List.ne_nil_of_length_pos (by simp)
        · exact List.ne_nil_of_length_pos (by simp)
      · simp only [if_neg hdots, List.drop_zero] at h ⊢
        exact colons_inj s.netmask.size_eq t.netmask.size_eq h
  · intro h
    rw [shown, shown, ← hofs] at h
    rw [SubNet.maskText, SubNet.maskText, ← hofs, h, ← hv4]
    by_cases hdots : s.netAddr.isIpv4 = true
    · rw [SubNet.startOfs, if_pos hdots] at h
      simp only [if_pos hdots, h]
    · rw [SubNet.startOfs, if_neg hdots, List.drop_zero, List.drop_zero] at h
      simp only [if_neg hdots, h]

end Masks

section Texts

variable {base32Encode : List Byte → List Char} {s t : SubNet}

/-- One IPv4 address under two masks that differ in front of their last four bytes. -/
def Confused (s t : SubNet) : Prop :=
  s.netAddr.isIpv4 = true ∧ s.netAddr.ip = t.netAddr.ip ∧
    s.netmask.data.drop 12 = t.netmask.data.drop 12 ∧ s.netmask ≠ t.netmask

instance (s t : SubNet) : Decidable (Confused s t) := inferInstanceAs (Decidable (_ ∧ _ ∧ _ ∧ _))

/-- Subnets share a text if they are the same network, or confused. -/
theorem toString_eq_iff (hbase : Function.Injective base32Encode) :
    s.toString base32Encode = t.toString base32Encode ↔ SameNet s t ∨ Confused s t := by
  constructor
  · intro h
    rcases append_sep_inj (slash_notMem_maskText s) (slash_notMem_maskText t) h with ⟨haddr, hmask⟩
    have hip : s.netAddr.ip = t.netAddr.ip := addrToString_inj hbase haddr
    have hshown := (maskText_eq_iff hip).mp hmask
    rw [shown, shown, ← startOfs_congr hip, SubNet.startOfs] at hshown
    by_cases hsame : s.netmask = t.netmask
    · exact Or.inl ⟨hip, hsame⟩
    · right
      by_cases hv4 : s.netAddr.isIpv4 = true
      · rw [if_pos hv4] at hshown
        exact ⟨hv4, hip, hshown, hsame⟩
      · rw [if_neg hv4, List.drop_zero, List.drop_zero] at hshown
        exact absurd (Bytes.ext hshown) hsame
  · rintro (hsame | ⟨hv4, hip, hlast, -⟩)
    · exact hsame.toString_eq
    · have hmask : s.maskText = t.maskText := by
        rw [maskText_eq_iff hip, shown, shown, ← startOfs_congr hip, SubNet.startOfs, if_pos hv4,
          hlast]
      rw [SubNet.toString, SubNet.toString, addrToString_congr hip, hmask]

/-- A bit that one mask has among the zero bytes of an IPv4 address, and the other has not. -/
theorem matched_apart (hv4 : t.netAddr.isIpv4 = true) (hip : s.netAddr.ip = t.netAddr.ip)
    (hvalid : t.valid = true) {i k : Nat} (hi : i < 10) (hk : k < 8)
    (hs : (maskByte s.netmask i).getLsbD k = true)
    (ht : (maskByte t.netmask i).getLsbD k = false) :
    ∃ a, t.matchesAddr a = true ∧ s.matchesAddr a = false := by
  have hi16 : i < 16 := Nat.lt_trans hi (by decide)
  have hne : maskByte t.netmask i ≠ 0xff := by
    intro hall
    rw [hall] at ht
    exact absurd ht ((by decide : ∀ k < 8, ¬ (0xff : Byte).getLsbD k = false) k hk)
  refine ⟨unmaskByte t i, matchesAddr_unmaskByte hvalid hi16 (isValid_unmaskByte hv4 hi hne), ?_⟩
  by_contra hmatch
  rw [Bool.not_eq_false, matchesAddr_iff] at hmatch
  have hbyte := hmatch.2.2 i hi16
  rw [unmaskByte_getByte t hi16, if_pos rfl, getByte_zero hv4 hi, BitVec.zero_or] at hbyte
  have hzero : s.netAddr.getByte i = 0#8 := by
    rw [NetAddr.getByte, hip]
    exact getByte_zero hv4 hi
  have hbit := congrArg (fun b : Byte => b.getLsbD k) (hbyte.trans hzero)
  simp only [BitVec.getLsbD_and, BitVec.getLsbD_not, hs, ht, hk, decide_true, Bool.not_false,
    Bool.and_true, BitVec.getLsbD_zero, reduceCtorEq] at hbit

theorem Confused.symm (h : Confused s t) : Confused t s := by
  obtain ⟨hv4, hip, hlast, hne⟩ := h
  refine ⟨?_, hip.symm, hlast.symm, hne.symm⟩
  rw [NetAddr.isIpv4, ← hip]
  exact hv4

/-- Confused subnets differ in a byte in front of the two that mark an IPv4 address. -/
theorem Confused.exists_byte (h : Confused s t) :
    ∃ i < 10, maskByte s.netmask i ≠ maskByte t.netmask i := by
  obtain ⟨hv4', -, -, -⟩ := h.symm
  obtain ⟨hv4, hip, hlast, hne⟩ := h
  by_contra hnone
  refine hne (bytes_ext fun i hi => ?_)
  by_contra hdiff
  by_cases hlow : i < 10
  · exact hnone ⟨i, hlow, hdiff⟩
  · by_cases hmark : i < 12
    · have hs := maskByte_marker hv4 (Nat.not_lt.mp hlow) hmark
      have ht := maskByte_marker hv4' (Nat.not_lt.mp hlow) hmark
      exact hdiff (hs.trans ht.symm)
    · have hget : ∀ m : Bytes 16, m.data.getD i 0 = (m.data.drop 12).getD (i - 12) 0 := by
        intro m
        rw [List.getD_eq_getElem?_getD, List.getD_eq_getElem?_getD, List.getElem?_drop,
          Nat.add_sub_cancel' (Nat.not_lt.mp hmark)]
      exact hdiff (by rw [hget, hget, hlast])

theorem Confused.matched_apart (h : Confused s t) (hs : s.valid = true) (ht : t.valid = true) :
    ∃ a, s.matchesAddr a ≠ t.matchesAddr a := by
  obtain ⟨i, hi, hne⟩ := h.exists_byte
  obtain ⟨k, hk, hbit⟩ : ∃ k < 8,
      (maskByte s.netmask i).getLsbD k ≠ (maskByte t.netmask i).getLsbD k := by
    by_contra hnone
    refine hne (BitVec.eq_of_getLsbD_eq fun k hk => ?_)
    by_contra hdiff
    exact hnone ⟨k, hk, hdiff⟩
  cases hsk : (maskByte s.netmask i).getLsbD k with
  | true =>
    have htk : (maskByte t.netmask i).getLsbD k = false := by
      rw [hsk] at hbit
      exact Bool.eq_false_iff.mpr hbit.symm
    obtain ⟨a, hta, hsa⟩ := BanKeys.matched_apart h.symm.1 h.2.1 ht hi hk hsk htk
    exact ⟨a, by simp [hta, hsa]⟩
  | false =>
    have htk : (maskByte t.netmask i).getLsbD k = true := by
      rw [hsk] at hbit
      exact Bool.eq_true_of_not_eq_false hbit.symm
    obtain ⟨a, hsa, hta⟩ := BanKeys.matched_apart h.1 h.2.1.symm hs hi hk htk hsk
    exact ⟨a, by simp [hta, hsa]⟩

theorem matchesAddr_congr (h : SameNet s t) (hs : s.valid = true) (ht : t.valid = true)
    (a : NetAddr) : s.matchesAddr a = t.matchesAddr a := by
  rw [Bool.eq_iff_iff, matchesAddr_iff, matchesAddr_iff, hs, ht, h.2]
  simp only [NetAddr.getByte, h.1]

/-- One text stands for one set of matched addresses, and one network has one text. -/
def Faithful (base32Encode : List Byte → List Char) (s t : SubNet) : Prop :=
  (s.toString base32Encode = t.toString base32Encode → ∀ a, s.matchesAddr a = t.matchesAddr a) ∧
    (SameNet s t → s.toString base32Encode = t.toString base32Encode)

theorem faithful_iff_not_confused (hbase : Function.Injective base32Encode) {s t : SubNet}
    (hs : Built s ∧ s.valid = true) (ht : Built t ∧ t.valid = true) :
    Faithful base32Encode s t ↔ ¬ Confused s t := by
  constructor
  · intro h hconf
    obtain ⟨a, ha⟩ := hconf.matched_apart hs.2 ht.2
    exact ha (h.1 ((toString_eq_iff hbase).mpr (Or.inr hconf)) a)
  · intro hconf
    refine ⟨fun htext => ?_, SameNet.toString_eq⟩
    rcases (toString_eq_iff hbase).mp htext with hsame | hbad
    · exact matchesAddr_congr hsame hs.2 ht.2
    · exact absurd hbad hconf

end Texts

def address1234 : NetAddr := address123 4

/-- What is left of 100::ffff:102:304 behind a mask without its first byte: 1.2.3.4. -/
def wideNet : SubNet :=
  .ofMask { ip := ⟨0x01 :: (kPchIpv4.drop 1 ++ [1, 2, 3, 4]), rfl⟩ }
    { ip := ⟨0x00 :: List.replicate 15 0xff, rfl⟩ }

theorem faithful_two_nets : Faithful spell (.ofPrefix address1234 24) (.ofAddr address1234) :=
  (faithful_iff_not_confused spell_injective ⟨.ofPrefix _ _, by decide +kernel⟩
    ⟨.ofAddr _, by decide⟩).mpr (by decide +kernel)

/-- Both are written 1.2.3.4/32, and only one matches 100::ffff:102:304. -/
theorem wideNet_not_faithful : ¬ Faithful spell wideNet (.ofAddr address1234) := by
  intro h
  have hmatch := h.1 (by decide +kernel)
    { ip := ⟨0x01 :: (kPchIpv4.drop 1 ++ [1, 2, 3, 4]), rfl⟩ }
  exact absurd hmatch (by decide +kernel)

end BanKeys
