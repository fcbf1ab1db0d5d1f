import Btclite.Network.BanKeys
import Btclite.Network.SubNetBits
import Btclite.Utility.Decimals

/-!
# Looking up hosts and subnets

`LookupIntern`, `LookupHost` and `LookupSubNet` of `net_base.cpp`. The resolver of
the system is a parameter. What `LookupSubNet` reads is the text that `ToString`
writes, and it makes the subnet that was written unless the text had left bits of
the mask out or the mask looks like an internal address.
-/

namespace HostLookup

open Endian Serialize Address SubNets BanLists BanKeys Decimals

section Lookups

/-- The address of an `addrinfo`, by its family. -/
inductive SockAddr where
  | inet (addr : Bytes 4)
  | inet6 (addr : IpAddr)
  | other

/-- `SetIpv4`, `SetIpv6` or neither, on a new address. -/
def SockAddr.resolved : SockAddr → NetAddr
  | .inet addr => { ip := ⟨kPchIpv4 ++ addr.data, by simp [kPchIpv4]⟩ }
  | .inet6 addr => { ip := addr }
  | .other => {}

/-- What one more result adds: internal addresses are never taken. -/
def append (port : U16) (aiTrav : SockAddr) (out : List NetAddr) : List NetAddr :=
  if !aiTrav.resolved.isInternal then
    out ++ [{ aiTrav.resolved with protoPort := port.setWidth 32 }]
  else out

/-- The loop over the results, which ends when there are enough. -/
def traverse (maxSolutions : Nat) (port : U16) : List SockAddr → List NetAddr → List NetAddr
  | [], out => out
  | aiTrav :: aiNext, out =>
    if maxSolutions = 0 || out.length < maxSolutions then
      traverse maxSolutions port aiNext (append port aiTrav out)
    else out

/-- Results for a name; numbers only unless names may be looked up. -/
abbrev Resolver := Bool → List Char → Option (List SockAddr)

variable (getaddrinfo : Resolver)

def lookupIntern (name : List Char) (maxSolutions : Nat) (allowLookup : Bool) (port : U16) :
    Bool × List NetAddr :=
  match getaddrinfo allowLookup name with
  | none => (false, [])
  | some aiRes =>
    let out := traverse maxSolutions port aiRes []
    (decide (0 < out.length), out)

/-- `LookupHost` for many addresses; an empty name leaves `out` as it is. -/
def lookupHost (name : List Char) (out : List NetAddr) (maxSolutions : Nat) (allowLookup : Bool)
    (port : U16) : Bool × List NetAddr :=
  if name.isEmpty then (false, out)
  else
    let strHost :=
      if name.head? = some '[' && name.getLast? = some ']' then (name.drop 1).take (name.length - 2)
      else name
    lookupIntern getaddrinfo strHost maxSolutions allowLookup port

/-- The text in front of the last slash, and what is behind it. -/
def lastSlash (s : List Char) : Option (List Char × List Char) :=
  let netmask := (s.reverse.takeWhile (· ≠ '/')).reverse
  if netmask.length = s.length then none
  else some (s.take (s.length - netmask.length - 1), netmask)

def lookupSubNet (name : List Char) (port : U16) (out : SubNet) : Bool × SubNet :=
  let slash := lastSlash name
  let strAddr := match slash with
    | some (addr, _) => addr
    | none => name
  match lookupHost getaddrinfo strAddr [] 1 false port with
  | (true, vip) =>
    let network := vip.headD {}
    match slash with
    | none =>
      let out := SubNet.ofAddr network
      (out.valid, out)
    | some (_, strNetmask) =>
      match decodeInt32 strNetmask with
      | (true, n) =>
        let out := SubNet.ofPrefix network (n.getD 0).toInt
        (out.valid, out)
      | (false, _) =>
        match lookupHost getaddrinfo strNetmask vip 1 false port with
        | (true, vip) =>
          let out := SubNet.ofMask network (vip.headD {})
          (out.valid, out)
        | (false, _) => (false, out)
  | (false, _) => (false, out)

end Lookups

section Interning

variable {port : U16} {aiRes : List SockAddr} {out : List NetAddr} {n : Nat}

/-- The results that may be taken. -/
def taken (port : U16) (aiRes : List SockAddr) : List NetAddr :=
  (aiRes.filter fun ai => !ai.resolved.isInternal).map fun ai =>
    { ai.resolved with protoPort := port.setWidth 32 }

theorem append_eq (port : U16) (ai : SockAddr) (out : List NetAddr) :
    append port ai out = out ++ taken port [ai] := by
  cases hint : ai.resolved.isInternal <;> simp [append, taken, hint]

theorem taken_cons (port : U16) (ai : SockAddr) (aiRes : List SockAddr) :
    taken port (ai :: aiRes) = taken port [ai] ++ taken port aiRes := by
  cases hint : ai.resolved.isInternal <;> simp [taken, hint]

theorem taken_singleton_length (port : U16) (ai : SockAddr) : (taken port [ai]).length ≤ 1 := by
  cases hint : ai.resolved.isInternal <;> simp [taken, hint]

/-- All of them are taken where no number is given, and no more than that where one is. -/
theorem traverse_eq (hout : n = 0 ∨ out.length ≤ n) :
    traverse n port aiRes out =
      if n = 0 then out ++ taken port aiRes else (out ++ taken port aiRes).take n := by
  induction aiRes generalizing out with
  | nil =>
    rw [traverse, taken, List.filter_nil, List.map_nil, List.append_nil]
    split_ifs with hn
    · rfl
    · rw [List.take_of_length_le (hout.resolve_left hn)]
  | cons ai aiRes ih =>
    rw [traverse, taken_cons, ← List.append_assoc, ← append_eq]
    by_cases hmore : n = 0 ∨ out.length < n
    · rw [if_pos (by simpa using hmore), ih]
      refine hmore.imp_right fun hlt => ?_
      rw [append_eq, List.length_append]
      have := taken_singleton_length port ai
      omega
    · have hfull : n ≠ 0 ∧ out.length = n := by omega
      rw [if_neg (by simpa using hmore), if_neg hfull.1, append_eq, List.append_assoc,
        List.take_left' hfull.2]

end Interning

section Masks

variable {xs : List Byte} {n : Nat}

theorem bitOf_cons (x : Byte) (xs : List Byte) (i : Nat) :
    bitOf (x :: xs) i = if i < 8 then x.getMsbD i else bitOf xs (i - 8) := by
  rw [bitOf, bitOf]
  split_ifs with hi
  · rw [Nat.div_eq_of_lt hi, Nat.mod_eq_of_lt hi]
    rfl
  · have hdiv : i / 8 = (i - 8) / 8 + 1 := by omega
    have hmod : (i - 8) % 8 = i % 8 := by omega
    rw [hdiv, hmod]
    rfl

theorem bitOf_ones_append (k : Nat) (xs : List Byte) (i : Nat) :
    bitOf (List.replicate k 0xff ++ xs) i =
      if i < 8 * k then true else bitOf xs (i - 8 * k) := by
  induction k generalizing i with
  | zero => rfl
  | succ k ih =>
    rw [List.replicate_succ, List.cons_append, bitOf_cons, ih]
    by_cases hi : i < 8
    · rw [if_pos hi, if_pos (by omega)]
      exact (by decide : ∀ j < 8, (0xff : Byte).getMsbD j = true) i hi
    · rw [if_neg hi, Nat.sub_sub, Nat.mul_succ, Nat.add_comm 8]
      exact if_congr (by omega) rfl rfl

theorem netmaskBits_bits : ∀ b : Byte, ∀ n ∈ netmaskBits b, ∀ j < 8,
    b.getMsbD j = decide (j < n) := by
  decide +kernel

theorem bitOf_zeros (h : xs.all (· == 0) = true) (i : Nat) : bitOf xs i = false := by
  have hbyte : xs.getD (i / 8) 0 = 0 := by
    rw [List.getD_eq_getElem?_getD]
    cases hget : xs[i / 8]? with
    | none => rfl
    | some b => exact eq_of_beq (List.all_eq_true.mp h b (List.mem_of_getElem? hget))
  rw [bitOf, hbyte]
  simp

/-- Bytes that are written as a number have that many bits in front. -/
theorem bitOf_of_cidr (h : cidr xs = some n) {i : Nat} (hi : i < 8 * xs.length) :
    bitOf xs i = decide (i < n) := by
  induction xs generalizing n i with
  | nil => exact absurd hi (Nat.not_lt_zero i)
  | cons x xs ih =>
    rw [bitOf_cons]
    rw [cidr] at h
    by_cases hx : x = 0xff
    · rw [if_pos hx, Option.map_eq_some_iff] at h
      obtain ⟨m, hm, rfl⟩ := h
      split_ifs with hfirst
      · rw [hx, (by decide : ∀ j < 8, (0xff : Byte).getMsbD j = true) i hfirst]
        exact (decide_eq_true (by omega)).symm
      · rw [List.length_cons] at hi
        rw [ih hm (by omega)]
        exact decide_eq_decide.mpr (by omega)
    · rw [if_neg hx] at h
      split_ifs at h with hzeros
      have hless := netmaskBits_lt hx h
      split_ifs with hfirst
      · exact netmaskBits_bits x n h i hfirst
      · rw [bitOf_zeros hzeros]
        exact (decide_eq_false (by omega)).symm

theorem cidr_le (h : cidr xs = some n) : n ≤ 8 * xs.length := by
  induction xs generalizing n with
  | nil =>
    obtain rfl : 0 = n := Option.some.inj h
    exact Nat.le_refl 0
  | cons x xs ih =>
    rw [cidr] at h
    rw [List.length_cons]
    by_cases hx : x = 0xff
    · rw [if_pos hx, Option.map_eq_some_iff] at h
      obtain ⟨m, hm, rfl⟩ := h
      have := ih hm
      omega
    · rw [if_neg hx] at h
      split_ifs at h
      have := netmaskBits_lt hx h
      omega

/-- The mask of a prefix of an address is what the text shows, behind bytes that are full. -/
theorem clearBitsFrom_eq {k : Nat} (hlength : k + xs.length = 16) (h : cidr xs = some n) :
    clearBitsFrom (n + k * 8) = List.replicate k 0xff ++ xs := by
  have hones : (List.replicate k (0xff : Byte) ++ xs).length = 16 := by
    rw [List.length_append, List.length_replicate, hlength]
  have hbits : ∀ i < 8 * 16, bitOf (clearBitsFrom (n + k * 8)) i =
      bitOf (List.replicate k 0xff ++ xs) i := by
    intro i hi
    rw [Bool.eq_iff_iff, bitOf_clearBitsFrom hi, bitOf_ones_append]
    split_ifs with hfront
    · exact iff_of_true (by omega) rfl
    · rw [bitOf_of_cidr h (by omega), decide_eq_true_iff]
      omega
  have hbytes := bytes_ext (a := ⟨_, clearBitsFrom_length _⟩) (b := ⟨_, hones⟩)
    (forall_bytes_iff.mpr hbits)
  exact congrArg Bytes.data hbytes

end Masks

section Texts

variable {getaddrinfo : Resolver} {base32Encode : List Byte → List Char} {s t : SubNet}
  {name netmask : List Char} {port : U16} {out : List NetAddr} {ip : IpAddr} {a : NetAddr}

theorem lastSlash_append (addr : List Char) (h : '/' ∉ netmask) :
    lastSlash (addr ++ '/' :: netmask) = some (addr, netmask) := by
  have htail : ((addr ++ '/' :: netmask).reverse.takeWhile (· ≠ '/')).reverse = netmask := by
    rw [List.reverse_append, List.reverse_cons, List.append_assoc, List.singleton_append,
      List.takeWhile_append_of_pos]
    · simp
    · intro c hc
      have hne : c ≠ '/' := fun hslash => h (hslash ▸ List.mem_reverse.mp hc)
      simpa using hne
  have hlength : (addr ++ '/' :: netmask).length = addr.length + (netmask.length + 1) := by
    rw [List.length_append, List.length_cons]
  have hlonger : netmask.length ≠ (addr ++ '/' :: netmask).length := by omega
  have htake : (addr ++ '/' :: netmask).length - netmask.length - 1 = addr.length := by omega
  rw [lastSlash, htail, if_neg hlonger, htake, List.take_left' rfl]

/-- The resolver finds this address for a name of digits, and no other. -/
def Resolves (getaddrinfo : Resolver) (name : List Char) (ip : IpAddr) : Prop :=
  ∃ ai, getaddrinfo false name = some [ai] ∧ ai.resolved.ip = ip

theorem lookupHost_resolves (hname : name ≠ []) (hbracket : '[' ∉ name)
    (h : Resolves getaddrinfo name a.ip) (out : List NetAddr) (port : U16) :
    ∃ b : NetAddr, b.ip = a.ip ∧ lookupHost getaddrinfo name out 1 false port =
      if a.isInternal then (false, []) else (true, [b]) := by
  obtain ⟨ai, hfound, hip⟩ := h
  have hhead : (decide (name.head? = some '[') && decide (name.getLast? = some ']')) = false := by
    have hne : name.head? ≠ some '[' := fun h => hbracket (List.mem_of_head? h)
    simp [hne]
  have hinternal : ai.resolved.isInternal = a.isInternal := by
    rw [NetAddr.isInternal, NetAddr.isInternal, hip]
  refine ⟨{ ai.resolved with protoPort := port.setWidth 32 }, hip, ?_⟩
  rw [lookupHost, if_neg (by simpa using hname), hhead, if_neg Bool.false_ne_true,
    lookupIntern, hfound]
  dsimp only
  rw [traverse_eq (Or.inr (Nat.zero_le 1)), if_neg Nat.one_ne_zero, List.nil_append, taken]
  cases hint : a.isInternal with
  | true => simp [hinternal, hint]
  | false => simp [hinternal, hint]

/-- The mask as the address that its text stands for. -/
def maskAddr (s : SubNet) : NetAddr where
  ip :=
    if s.netAddr.isIpv4 then ⟨kPchIpv4 ++ s.netmask.data.drop 12, by simp [kPchIpv4]⟩
    else s.netmask

/-- Nothing is masked in the bytes that the text leaves out. -/
def Whole (s : SubNet) : Prop :=
  s.netmask.data.take (SubNet.startOfs s.netAddr) =
    List.replicate (SubNet.startOfs s.netAddr) 0xff

/-- A mask that is no prefix is not taken for an internal address. -/
def Plain (s : SubNet) : Prop := cidr (shown s) = none → (maskAddr s).isInternal = false

theorem normalize_ip_congr {b : NetAddr} (h : a.ip = b.ip) (netmask : Bytes 16) :
    (SubNets.normalize a netmask).ip = (SubNets.normalize b netmask).ip := by
  rw [SubNets.normalize, SubNets.normalize, Bytes.mk.injEq, h]

/-- The mask that is read is the part that was shown, behind bytes that are full. -/
theorem sameNet_iff_whole (hip : a.ip = s.netAddr.ip)
    (hnet : t.netAddr.ip = (SubNets.normalize a t.netmask).ip)
    (hmask : t.netmask.data = List.replicate (SubNet.startOfs s.netAddr) 0xff ++ shown s) :
    SameNet t s ↔ Whole s := by
  constructor
  · rintro ⟨-, h⟩
    rw [Whole, ← h, hmask, List.take_left' List.length_replicate]
  · intro h
    have hsame : t.netmask = s.netmask := by
      apply Bytes.ext
      rw [hmask, ← h, shown, List.take_append_drop]
    refine ⟨?_, hsame⟩
    rw [hnet, hsame, normalize_ip_congr hip, normalize_netAddr]

/-- Neither an address in digits nor a mask has a bracket in it. -/
theorem bracket_notMem_dotted (bytes : List Byte) : '[' ∉ dotted bytes := by
  intro h
  rcases mem_dotted h with h | ⟨d, hd, h⟩
  · cases h
  · exact absurd h ((by decide : ∀ d < 10, '[' ≠ d.digitChar) d hd)

theorem bracket_notMem_colons (bytes : List Byte) : '[' ∉ colons bytes := by
  intro h
  rcases mem_colons h with h | ⟨d, hd, h⟩
  · cases h
  · exact absurd h ((by decide : ∀ d < 16, '[' ≠ d.digitChar) d hd)

theorem addrToString_digits (base32Encode : List Byte → List Char) (htor : a.isTor = false)
    (hinternal : a.isInternal = false) :
    addrToString base32Encode a ≠ [] ∧ '[' ∉ addrToString base32Encode a := by
  rw [addrToString, htor, hinternal]
  simp only [Bool.false_eq_true, if_false]
  split_ifs
  · refine ⟨List.ne_nil_of_mem (dot_mem_dotted ?_), bracket_notMem_dotted _⟩
    simp
  · exact ⟨List.ne_nil_of_mem (colon_mem_colons (by simp)), bracket_notMem_colons _⟩

/-- A mask that is no prefix is written as an address, and not taken for a number. -/
theorem maskText_address (hnone : cidr (shown s) = none) :
    s.maskText ≠ [] ∧ '[' ∉ s.maskText ∧ (decodeInt32 s.maskText).1 = false := by
  have hnumber : ∀ {c text}, c ∈ text → c = '.' ∨ c = ':' → (decodeInt32 text).1 = false := by
    intro c text hc hsep
    rw [Bool.eq_false_iff, Ne, (decodeInt32_reads text).1]
    rintro ⟨v, hv⟩
    have hchar := hv.mem c hc
    rcases hsep with rfl | rfl <;> simp at hchar
  rw [shown] at hnone
  rw [SubNet.maskText, hnone]
  split_ifs
  · have hdot : '.' ∈ dotted (s.netmask.data.drop 12) := dot_mem_dotted (by simp)
    exact ⟨List.ne_nil_of_mem hdot, bracket_notMem_dotted _, hnumber hdot (Or.inl rfl)⟩
  · have hcolon : ':' ∈ colons s.netmask.data := colon_mem_colons (by simp)
    exact ⟨List.ne_nil_of_mem hcolon, bracket_notMem_colons _, hnumber hcolon (Or.inr rfl)⟩

theorem startOfs_cases (a : NetAddr) : SubNet.startOfs a = 0 ∨ SubNet.startOfs a = 12 := by
  rw [SubNet.startOfs]
  split_ifs
  · exact Or.inr rfl
  · exact Or.inl rfl

theorem shown_length (s : SubNet) : SubNet.startOfs s.netAddr + (shown s).length = 16 := by
  rw [shown, List.length_drop, s.netmask.size_eq]
  rcases startOfs_cases s.netAddr with h | h <;> rw [h]

theorem maskAddr_shown (s : SubNet) :
    (maskAddr s).ip.data.drop (SubNet.startOfs s.netAddr) = shown s := by
  rw [maskAddr, shown, SubNet.startOfs]
  split_ifs
  · rw [List.drop_left']
    rfl
  · rfl

/-- A length that fits is kept. -/
theorem ofPrefix_netmask {n : Nat} (h : n ≤ 128 - SubNet.startOfs a * 8) :
    (SubNet.ofPrefix a n).valid = true ∧
      (SubNet.ofPrefix a n).netmask.data = clearBitsFrom (n + SubNet.startOfs a * 8) := by
  have hrange : 0 ≤ (n : Int) ∧ (n : Int) ≤ (128 - SubNet.startOfs a * 8 : Nat) := by omega
  refine ⟨decide_eq_true hrange, ?_⟩
  rw [SubNet.ofPrefix]
  dsimp only
  rw [if_pos hrange]
  rfl

theorem decodeInt32_toDigits {n : Nat} (h : n ≤ 128) :
    ∃ v, decodeInt32 (Nat.toDigits 10 n) = (true, some v) ∧ v.toInt = n := by
  obtain ⟨v, hv⟩ := (toInt_range (w := 32) (z := n) (by decide)).mpr (by omega)
  have hnumeral : Numeral (Nat.toDigits 10 n) v.toInt := hv ▸ numeral_toDigits n
  exact ⟨v, (decodeInt32_reads _).2 v hnumeral, hv⟩

/-- The text of a subnet is read back as the same network if and only if it shows all of the
mask that is not full, and no mask that looks like an internal address. -/
theorem lookupSubNet_toString_iff (htor : s.netAddr.isTor = false)
    (hinternal : s.netAddr.isInternal = false)
    (haddr : Resolves getaddrinfo (addrToString base32Encode s.netAddr) s.netAddr.ip)
    (hmask : cidr (shown s) = none → Resolves getaddrinfo s.maskText (maskAddr s).ip)
    (port : U16) (out : SubNet) :
    (lookupSubNet getaddrinfo (s.toString base32Encode) port out).1 = true ∧
      SameNet (lookupSubNet getaddrinfo (s.toString base32Encode) port out).2 s ↔
    Whole s ∧ Plain s := by
  obtain ⟨hne, hbracket⟩ := addrToString_digits base32Encode htor hinternal
  obtain ⟨network, hip, hlookup⟩ := lookupHost_resolves hne hbracket haddr [] port
  rw [hinternal, if_neg Bool.false_ne_true] at hlookup
  have hofs : SubNet.startOfs network = SubNet.startOfs s.netAddr := startOfs_congr hip
  have hlength := shown_length s
  rw [lookupSubNet, SubNet.toString, lastSlash_append _ (slash_notMem_maskText s)]
  simp only [hlookup, List.headD_cons]
  cases hcidr : cidr (shown s) with
  | some n =>
    have hn := cidr_le hcidr
    obtain ⟨v, hdecode, hv⟩ := decodeInt32_toDigits (n := n) (by omega)
    obtain ⟨hvalid, hnetmask⟩ := ofPrefix_netmask (a := network) (n := n) (by omega)
    rw [hofs, clearBitsFrom_eq hlength hcidr] at hnetmask
    have hplain : Plain s := fun hnone => by cases hcidr.symm.trans hnone
    rw [maskText_eq_toDigits_iff.mpr hcidr]
    simp only [hdecode, Option.getD_some, hv, hvalid, true_and, hplain, and_true]
    exact sameNet_iff_whole hip rfl hnetmask
  | none =>
    obtain ⟨hne', hbracket', hdecode⟩ := maskText_address hcidr
    obtain ⟨mask, hmaskip, hlookup'⟩ :=
      lookupHost_resolves hne' hbracket' (hmask hcidr) [network] port
    generalize decodeInt32 s.maskText = decoded at hdecode
    obtain ⟨ok, v⟩ := decoded
    obtain rfl : ok = false := hdecode
    simp only [hlookup']
    cases hint : (maskAddr s).isInternal with
    | true =>
      refine iff_of_false (by simp) fun h => ?_
      rw [h.2 hcidr] at hint
      cases hint
    | false =>
      have hplain : Plain s := fun _ => hint
      simp only [Bool.false_eq_true, if_false, List.headD_cons, hplain, and_true]
      have hnetmask : (SubNet.ofMask network mask).netmask.data =
          List.replicate (SubNet.startOfs s.netAddr) 0xff ++ shown s := by
        rw [SubNet.ofMask]
        dsimp only
        rw [hofs, hmaskip, maskAddr_shown]
      exact (and_iff_right rfl).trans (sameNet_iff_whole hip rfl hnetmask)

/-- A resolver that knows one address. -/
def oneHost : Resolver := fun _ name =>
  if name = dotted [1, 2, 3, 0] then some [.inet ⟨[1, 2, 3, 0], rfl⟩] else none

theorem lookupSubNet_toString_net :
    (lookupSubNet oneHost ((SubNet.ofPrefix address1234 24).toString spell) 8333 default).1 =
        true ∧
      SameNet (lookupSubNet oneHost ((SubNet.ofPrefix address1234 24).toString spell) 8333
        default).2 (.ofPrefix address1234 24) := by
  have hcidr : cidr (shown (.ofPrefix address1234 24)) = some 24 := by decide +kernel
  have htext : addrToString spell (SubNet.ofPrefix address1234 24).netAddr =
      dotted [1, 2, 3, 0] := by
    decide +kernel
  refine (lookupSubNet_toString_iff (by decide +kernel) (by decide +kernel) ?_ ?_ 8333
    default).mpr ⟨by unfold Whole; decide +kernel, ?_⟩
  · refine ⟨.inet ⟨[1, 2, 3, 0], rfl⟩, ?_, by decide +kernel⟩
    rw [htext, oneHost, if_pos rfl]
  · intro hnone
    cases hcidr.symm.trans hnone
  · intro hnone
    cases hcidr.symm.trans hnone

end Texts

end HostLookup
