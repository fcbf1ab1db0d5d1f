import Btclite.Library.Printing
import Btclite.Network.Address
import Mathlib.Tactic.IntervalCases

/-!
# Subnets

`SubNet` of `network_address.h`: an address and a mask, and the text that stands
for both as a key. The text of one address, with the whole mask behind it, is
not taken by anything else than that address with the mask's visible bytes full.
Base 32 comes from a library and is a parameter.
-/

namespace SubNets

open Endian Serialize Address Printing

section Texts

variable (base32Encode : List Byte → List Char)

def dotted (bytes : List Byte) : List Char :=
  ['.'].intercalate (bytes.map fun b => Nat.toDigits 10 b.toNat)

def hexGroups : List Byte → List (List Char)
  | hi :: lo :: rest => Nat.toDigits 16 (hi.toNat <<< 8 ||| lo.toNat) :: hexGroups rest
  | _ => []

def colons (bytes : List Byte) : List Char := [':'].intercalate (hexGroups bytes)

/-- `NetAddr::ToString`. -/
def addrToString (a : NetAddr) : List Char :=
  if a.isTor then base32Encode (a.ip.data.drop 6) ++ ['.', 'o', 'n', 'i', 'o', 'n']
  else if a.isInternal then
    base32Encode (a.ip.data.drop 6) ++ ['.', 'i', 'n', 't', 'e', 'r', 'n', 'a', 'l']
  else if a.isIpv4 then dotted (a.ip.data.drop 12)
  else colons a.ip.data

end Texts

section Reading

variable {base32Encode : List Byte → List Char}

theorem hexGroup_inj {a b c d : Byte} (h : a.toNat <<< 8 ||| b.toNat = c.toNat <<< 8 ||| d.toNat) :
    a = c ∧ b = d := by
  rw [← Nat.shiftLeft_add_eq_or_of_lt b.isLt, ← Nat.shiftLeft_add_eq_or_of_lt d.isLt,
    Nat.shiftLeft_eq, Nat.shiftLeft_eq] at h
  constructor
  · apply BitVec.eq_of_toNat_eq
    omega
  · apply BitVec.eq_of_toNat_eq
    omega

theorem hexGroups_inj {xs ys : List Byte} (n : Nat) (hx : xs.length = 2 * n)
    (hy : ys.length = 2 * n) (h : hexGroups xs = hexGroups ys) : xs = ys := by
  induction n generalizing xs ys with
  | zero => rw [List.eq_nil_of_length_eq_zero hx, List.eq_nil_of_length_eq_zero hy]
  | succ n ih =>
    match xs, ys, hx, hy, h with
    | a :: b :: xs, c :: d :: ys, hx, hy, h =>
      simp only [hexGroups, List.cons.injEq] at h
      rcases hexGroup_inj (toDigits_injective (by decide) (by decide) h.1) with ⟨rfl, rfl⟩
      have hrest : xs = ys := by
        refine ih ?_ ?_ h.2
        · simpa [Nat.mul_succ] using hx
        · simpa [Nat.mul_succ] using hy
      rw [hrest]

theorem mem_hexGroups {x : List Char} {bytes : List Byte} (h : x ∈ hexGroups bytes) :
    ∃ n, x = Nat.toDigits 16 n := by
  induction bytes using hexGroups.induct with
  | case1 hi lo rest ih =>
    rcases List.mem_cons.mp h with h | h
    · exact ⟨_, h⟩
    · exact ih h
  | case2 bytes hshort =>
    rw [hexGroups] at h
    · cases h
    · exact hshort

theorem notMem_toDigits {b n : Nat} {c : Char} (hb : 1 < b) (hc : ∀ d < b, c ≠ d.digitChar) :
    c ∉ Nat.toDigits b n := by
  intro h
  rcases mem_toDigits hb h with ⟨d, hd, hcd⟩
  exact hc d hd hcd

/-- The characters of a dotted text are decimal digits and dots. -/
theorem mem_dotted {c : Char} {bytes : List Byte} (h : c ∈ dotted bytes) :
    c = '.' ∨ ∃ d < 10, c = d.digitChar := by
  rcases mem_intercalate h with h | ⟨x, hx, h⟩
  · exact Or.inl h
  · rcases List.mem_map.mp hx with ⟨b, -, rfl⟩
    exact Or.inr (mem_toDigits (by decide) h)

theorem mem_colons {c : Char} {bytes : List Byte} (h : c ∈ colons bytes) :
    c = ':' ∨ ∃ d < 16, c = d.digitChar := by
  rcases mem_intercalate h with h | ⟨x, hx, h⟩
  · exact Or.inl h
  · rcases mem_hexGroups hx with ⟨n, rfl⟩
    exact Or.inr (mem_toDigits (by decide) h)

theorem dotted_inj {xs ys : List Byte} (hx : xs ≠ []) (hy : ys ≠ []) (h : dotted xs = dotted ys) :
    xs = ys := by
  have hno : ∀ zs : List Byte, ∀ x ∈ zs.map fun b => Nat.toDigits 10 b.toNat, '.' ∉ x := by
    intro zs x hx
    rcases List.mem_map.mp hx with ⟨b, -, rfl⟩
    exact notMem_toDigits (by decide) (by decide)
  have hparts := intercalate_inj (hno xs) (hno ys) (by simpa using hx) (by simpa using hy) h
  refine List.map_injective_iff.mpr ?_ hparts
  intro a b hab
  exact BitVec.eq_of_toNat_eq (toDigits_injective (by decide) (by decide) hab)

theorem colons_inj {xs ys : List Byte} (hx : xs.length = 16) (hy : ys.length = 16)
    (h : colons xs = colons ys) : xs = ys := by
  have hno : ∀ zs : List Byte, ∀ x ∈ hexGroups zs, ':' ∉ x := by
    intro zs x hx
    rcases mem_hexGroups hx with ⟨n, rfl⟩
    exact notMem_toDigits (by decide) (by decide)
  have hne : ∀ zs : List Byte, zs.length = 16 → hexGroups zs ≠ [] := by
    intro zs hz
    match zs, hz with
    | a :: b :: zs, _ => simp [hexGroups]
  exact hexGroups_inj 8 hx hy
    (intercalate_inj (hno xs) (hno ys) (hne xs hx) (hne ys hy) h)

/-- What an address is written as: base 32 for onions and internal names, dots, or colons. -/
inductive Style where
  | onion
  | internal
  | dots
  | colons
deriving DecidableEq

def styleOf (a : NetAddr) : Style :=
  if a.isTor then .onion else if a.isInternal then .internal
  else if a.isIpv4 then .dots else .colons

def readStyle (text : List Char) : Style :=
  if text.getLast? = some 'n' then .onion else if text.getLast? = some 'l' then .internal
  else if '.' ∈ text then .dots else .colons

theorem getLast?_ne {c : Char} {text : List Char} (h : c ∉ text) : text.getLast? ≠ some c :=
  fun hlast => h (List.mem_of_getLast? hlast)

theorem dot_mem_dotted {xs : List Byte} (hx : 2 ≤ xs.length) : '.' ∈ dotted xs := by
  match xs, hx with
  | a :: b :: xs, _ => simp [dotted, List.intercalate_cons_cons]

theorem colon_mem_colons {xs : List Byte} (hx : 4 ≤ xs.length) : ':' ∈ colons xs := by
  match xs, hx with
  | a :: b :: c :: d :: xs, _ => simp [colons, hexGroups, List.intercalate_cons_cons]

theorem readStyle_dotted {xs : List Byte} (hx : 2 ≤ xs.length) : readStyle (dotted xs) = .dots := by
  have hno : ∀ c, c ≠ '.' → (∀ d < 10, c ≠ d.digitChar) → c ∉ dotted xs := by
    intro c hdot hdigit h
    rcases mem_dotted h with h | ⟨d, hd, h⟩
    · exact hdot h
    · exact hdigit d hd h
  rw [readStyle, if_neg (getLast?_ne (hno 'n' (by decide) (by decide))),
    if_neg (getLast?_ne (hno 'l' (by decide) (by decide))), if_pos (dot_mem_dotted hx)]

theorem readStyle_colons (xs : List Byte) : readStyle (colons xs) = .colons := by
  have hno : ∀ c, c ≠ ':' → (∀ d < 16, c ≠ d.digitChar) → c ∉ colons xs := by
    intro c hcolon hdigit h
    rcases mem_colons h with h | ⟨d, hd, h⟩
    · exact hcolon h
    · exact hdigit d hd h
  rw [readStyle, if_neg (getLast?_ne (hno 'n' (by decide) (by decide))),
    if_neg (getLast?_ne (hno 'l' (by decide) (by decide))),
    if_neg (hno '.' (by decide) (by decide))]

variable (base32Encode) in
theorem readStyle_addrToString (a : NetAddr) :
    readStyle (addrToString base32Encode a) = styleOf a := by
  rw [addrToString, styleOf]
  split_ifs
  · simp [readStyle]
  · simp [readStyle]
  · exact readStyle_dotted (by simp)
  · exact readStyle_colons _

variable (base32Encode) in
/-- For each style, the bytes that every such address shares, and what is written of the others. -/
theorem addrToString_spec (a : NetAddr) :
    match styleOf a with
    | .onion => a.ip.data.take 6 = kPchOnionCat ∧ addrToString base32Encode a =
        base32Encode (a.ip.data.drop 6) ++ ['.', 'o', 'n', 'i', 'o', 'n']
    | .internal => a.ip.data.take 6 = kBtcIpPrefix ∧ addrToString base32Encode a =
        base32Encode (a.ip.data.drop 6) ++ ['.', 'i', 'n', 't', 'e', 'r', 'n', 'a', 'l']
    | .dots => a.ip.data.take 12 = kPchIpv4 ∧
        addrToString base32Encode a = dotted (a.ip.data.drop 12)
    | .colons => addrToString base32Encode a = colons a.ip.data := by
  rw [styleOf, addrToString]
  by_cases htor : a.isTor = true
  · simp only [if_pos htor, and_true]
    simpa [NetAddr.isTor] using htor
  by_cases hint : a.isInternal = true
  · simp only [if_neg htor, if_pos hint, and_true]
    simpa [NetAddr.isInternal] using hint
  by_cases hv4 : a.isIpv4 = true
  · simp only [if_neg htor, if_neg hint, if_pos hv4, and_true]
    simpa [NetAddr.isIpv4] using hv4
  · simp only [if_neg htor, if_neg hint, if_neg hv4]

theorem addrToString_congr {a b : NetAddr} (h : a.ip = b.ip) :
    addrToString base32Encode a = addrToString base32Encode b := by
  rw [addrToString, addrToString, NetAddr.isTor, NetAddr.isTor, NetAddr.isInternal,
    NetAddr.isInternal, NetAddr.isIpv4, NetAddr.isIpv4, h]

/-- The text of an address tells where it is. -/
theorem addrToString_inj (hbase : Function.Injective base32Encode) {a b : NetAddr}
    (h : addrToString base32Encode a = addrToString base32Encode b) : a.ip = b.ip := by
  have hstyle : styleOf a = styleOf b := by
    rw [← readStyle_addrToString base32Encode a, h, readStyle_addrToString]
  have hjoin : ∀ n, a.ip.data.take n = b.ip.data.take n → a.ip.data.drop n = b.ip.data.drop n →
      a.ip = b.ip := by
    intro n htake hdrop
    apply Bytes.ext
    rw [← List.take_append_drop n a.ip.data, htake, hdrop, List.take_append_drop]
  have ha := addrToString_spec base32Encode a
  have hb := addrToString_spec base32Encode b
  rw [hstyle] at ha
  cases hb' : styleOf b with
  | onion =>
    rw [hb'] at ha hb
    rw [ha.2, hb.2] at h
    exact hjoin 6 (ha.1.trans hb.1.symm) (hbase (List.append_cancel_right h))
  | internal =>
    rw [hb'] at ha hb
    rw [ha.2, hb.2] at h
    exact hjoin 6 (ha.1.trans hb.1.symm) (hbase (List.append_cancel_right h))
  | dots =>
    rw [hb'] at ha hb
    rw [ha.2, hb.2] at h
    refine hjoin 12 (ha.1.trans hb.1.symm) (dotted_inj ?_ ?_ h)
    · exact List.ne_nil_of_length_pos (by simp)
    · exact List.ne_nil_of_length_pos (by simp)
  | colons =>
    rw [hb'] at ha hb
    rw [ha, hb] at h
    exact Bytes.ext (colons_inj a.ip.size_eq b.ip.size_eq h)

end Reading

section Masks

def netmaskByteSize : Nat := 16

def fullMask : Bytes 16 := ⟨List.replicate 16 0xff, by simp⟩

def maskByte (netmask : Bytes 16) (n : Nat) : Byte := netmask.data.getD n 0

/-- The network normalized according to the mask. -/
def normalize (a : NetAddr) (netmask : Bytes 16) : NetAddr :=
  { a with ip := ⟨List.zipWith (· &&& ·) a.ip.data netmask.data, by simp⟩ }

@[simp] theorem normalize_getByte (a : NetAddr) (netmask : Bytes 16) (n : Nat) :
    (normalize a netmask).getByte n = a.getByte n &&& maskByte netmask n := by
  rw [NetAddr.getByte, NetAddr.getByte, maskByte, normalize]
  by_cases h : n < 16
  · simp [h]
  · simp [h]

/-- The loop that clears the bits from `n` on. -/
def clearBitsFrom (n : Nat) : List Byte :=
  (List.range' n (128 - n)).foldl
    (fun m n => m.modify (n >>> 3) (· &&& ~~~(1#8 <<< (7 - (n &&& 7))))) fullMask.data

theorem clearBitsFrom_length (n : Nat) : (clearBitsFrom n).length = 16 := by
  have hfold : ∀ (bits : List Nat) (m : List Byte), (bits.foldl
      (fun m n => m.modify (n >>> 3) (· &&& ~~~(1#8 <<< (7 - (n &&& 7))))) m).length = m.length := by
    intro bits
    induction bits with
    | nil => exact fun _ => rfl
    | cons n bits ih => exact fun m => (ih _).trans (List.length_modify _ _ _)
  exact (hfold _ _).trans fullMask.size_eq

def netmaskBits (x : Byte) : Option Nat :=
  if x = 0x00 then some 0 else if x = 0x80 then some 1 else if x = 0xc0 then some 2
  else if x = 0xe0 then some 3 else if x = 0xf0 then some 4 else if x = 0xf8 then some 5
  else if x = 0xfc then some 6 else if x = 0xfe then some 7 else if x = 0xff then some 8
  else none

/-- The length of the prefix that these bytes of a mask are, if they are one. -/
def cidr : List Byte → Option Nat
  | [] => some 0
  | b :: rest =>
    if b = 0xff then (cidr rest).map (8 + ·)
    else if rest.all (· == 0) then netmaskBits b else none

end Masks

/-- A network, which has no bits behind its mask. -/
structure SubNet where
  netAddr : NetAddr
  netmask : Bytes 16
  valid : Bool
  masked : ∀ n, netAddr.getByte n &&& maskByte netmask n = netAddr.getByte n

theorem masked_fullMask (a : NetAddr) (n : Nat) :
    a.getByte n &&& maskByte fullMask n = a.getByte n := by
  by_cases h : n < 16
  · have hbyte : maskByte fullMask n = BitVec.allOnes 8 := by
      rw [maskByte, fullMask, List.getD_eq_getElem?_getD, List.getElem?_replicate, if_pos h]
      rfl
    rw [hbyte, BitVec.and_allOnes]
  · have hzero : a.getByte n = 0 := by
      simp [NetAddr.getByte, h]
    simp [hzero]

theorem masked_normalize (a : NetAddr) (netmask : Bytes 16) (n : Nat) :
    (normalize a netmask).getByte n &&& maskByte netmask n = (normalize a netmask).getByte n := by
  rw [normalize_getByte, BitVec.and_assoc, BitVec.and_self]

namespace SubNet

/-- The default constructor. -/
instance : Inhabited SubNet :=
  ⟨{ netAddr := {}, netmask := Bytes.zero 16, valid := false
     masked := fun n => by simp [NetAddr.getByte, maskByte, Bytes.zero] }⟩

/-- The constructor from an address. -/
def ofAddr (addr : NetAddr) : SubNet where
  netAddr := addr
  netmask := fullMask
  valid := addr.isValid
  masked := masked_fullMask addr

def startOfs (addr : NetAddr) : Nat := if addr.isIpv4 then 12 else 0

/-- The constructor from an address and the length of a prefix. -/
def ofPrefix (addr : NetAddr) (mask : Int) : SubNet :=
  let inRange := 0 ≤ mask ∧ mask ≤ (128 - startOfs addr * 8 : Nat)
  let netmask : Bytes 16 :=
    if inRange then ⟨clearBitsFrom (mask.toNat + startOfs addr * 8), clearBitsFrom_length _⟩
    else fullMask
  { netAddr := normalize addr netmask
    netmask
    valid := inRange
    masked := masked_normalize addr netmask }

/-- The constructor from an address and a mask. -/
def ofMask (addr mask : NetAddr) : SubNet :=
  let netmask : Bytes 16 := ⟨List.replicate (startOfs addr) 0xff ++ mask.ip.data.drop (startOfs addr),
    by
      rw [List.length_append, List.length_replicate, List.length_drop, mask.ip.size_eq, startOfs]
      split_ifs <;> rfl⟩
  { netAddr := normalize addr netmask
    netmask
    valid := true
    masked := masked_normalize addr netmask }

/-- `Match`. -/
def matchesAddr (s : SubNet) (addr : NetAddr) : Bool :=
  s.valid && addr.isValid && (List.range netmaskByteSize).all fun i =>
    addr.getByte i &&& maskByte s.netmask i == s.netAddr.getByte i

/-- What `ToString` writes behind the slash. -/
def maskText (s : SubNet) : List Char :=
  match cidr (s.netmask.data.drop (startOfs s.netAddr)) with
  | some bits => Nat.toDigits 10 bits
  | none => if s.netAddr.isIpv4 then dotted (s.netmask.data.drop 12) else colons s.netmask.data

def toString (base32Encode : List Byte → List Char) (s : SubNet) : List Char :=
  addrToString base32Encode s.netAddr ++ '/' :: s.maskText

/-- Nothing of the address is masked in the bytes that its text shows. -/
def Full (s : SubNet) : Prop := ∀ b ∈ s.netmask.data.drop (startOfs s.netAddr), b = 0xff

end SubNet

section Keys

variable {base32Encode : List Byte → List Char} {s : SubNet}

theorem netmaskBits_lt {b : Byte} {bits : Nat} (hb : b ≠ 0xff) (h : netmaskBits b = some bits) :
    bits < 8 := by
  have hall : ∀ b : Byte, b ≠ 0xff → ∀ bits ∈ netmaskBits b, bits < 8 := by decide +kernel
  exact hall b hb bits h

theorem cidr_all_iff (l : List Byte) : cidr l = some (8 * l.length) ↔ ∀ b ∈ l, b = 0xff := by
  induction l with
  | nil => simp [cidr]
  | cons b rest ih =>
    rw [cidr]
    by_cases hb : b = 0xff
    · rw [if_pos hb, Option.map_eq_some_iff, List.forall_mem_cons, ← ih]
      constructor
      · rintro ⟨bits, hbits, hsum⟩
        rw [List.length_cons] at hsum
        have hlen : bits = 8 * rest.length := by omega
        exact ⟨hb, hlen ▸ hbits⟩
      · rintro ⟨-, hrest⟩
        exact ⟨_, hrest, by rw [List.length_cons]; omega⟩
    · rw [if_neg hb]
      constructor
      · intro h
        split_ifs at h with hzero
        have hless := netmaskBits_lt hb h
        rw [List.length_cons] at hless
        omega
      · intro h
        exact absurd (h b List.mem_cons_self) hb

theorem slash_notMem_maskText (s : SubNet) : '/' ∉ s.maskText := by
  rw [SubNet.maskText]
  cases cidr (s.netmask.data.drop (SubNet.startOfs s.netAddr)) with
  | some bits => exact notMem_toDigits (by decide) (by decide)
  | none =>
    by_cases hv4 : s.netAddr.isIpv4 = true
    · simp only [if_pos hv4]
      intro h
      rcases mem_dotted h with h | ⟨d, hd, h⟩
      · cases h
      · exact absurd h ((by decide : ∀ d < 10, '/' ≠ d.digitChar) d hd)
    · simp only [if_neg hv4]
      intro h
      rcases mem_colons h with h | ⟨d, hd, h⟩
      · cases h
      · exact absurd h ((by decide : ∀ d < 16, '/' ≠ d.digitChar) d hd)

/-- A mask is written as a number of bits unless it is no prefix. -/
theorem maskText_eq_toDigits_iff {bits : Nat} :
    s.maskText = Nat.toDigits 10 bits ↔
      cidr (s.netmask.data.drop (SubNet.startOfs s.netAddr)) = some bits := by
  rw [SubNet.maskText]
  cases hcidr : cidr (s.netmask.data.drop (SubNet.startOfs s.netAddr)) with
  | some n =>
    rw [Option.some.injEq]
    exact (toDigits_injective (by decide) (by decide)).eq_iff
  | none =>
    refine iff_of_false ?_ (by simp)
    by_cases hv4 : s.netAddr.isIpv4 = true
    · simp only [if_pos hv4]
      intro h
      have hdot : '.' ∈ dotted (s.netmask.data.drop 12) := dot_mem_dotted (by simp)
      exact notMem_toDigits (by decide) (by decide) (h ▸ hdot)
    · simp only [if_neg hv4]
      intro h
      have hcolon : ':' ∈ colons s.netmask.data := colon_mem_colons (by simp)
      exact notMem_toDigits (by decide) (by decide) (h ▸ hcolon)

theorem startOfs_congr {a b : NetAddr} (h : a.ip = b.ip) :
    SubNet.startOfs a = SubNet.startOfs b := by
  rw [SubNet.startOfs, SubNet.startOfs, NetAddr.isIpv4, NetAddr.isIpv4, h]

theorem maskText_full_iff :
    s.maskText = Nat.toDigits 10 (8 * (16 - SubNet.startOfs s.netAddr)) ↔ s.Full := by
  have hlen : (s.netmask.data.drop (SubNet.startOfs s.netAddr)).length =
      16 - SubNet.startOfs s.netAddr := by
    rw [List.length_drop, s.netmask.size_eq]
  rw [maskText_eq_toDigits_iff, ← hlen, cidr_all_iff, SubNet.Full]

theorem full_ofAddr (a : NetAddr) : (SubNet.ofAddr a).Full := by
  intro b hb
  exact List.eq_of_mem_replicate (List.mem_of_mem_drop hb)

/-- A subnet is written like one address exactly if it is on that address and full. -/
theorem toString_eq_ofAddr_iff (hbase : Function.Injective base32Encode) {a : NetAddr} :
    s.toString base32Encode = (SubNet.ofAddr a).toString base32Encode ↔
      s.netAddr.ip = a.ip ∧ s.Full := by
  have haddr : (SubNet.ofAddr a).maskText = Nat.toDigits 10 (8 * (16 - SubNet.startOfs a)) :=
    maskText_full_iff.mpr (full_ofAddr a)
  constructor
  · intro h
    rcases append_sep_inj (slash_notMem_maskText s) (slash_notMem_maskText _) h with ⟨hip, hmask⟩
    have hip' : s.netAddr.ip = a.ip := addrToString_inj hbase hip
    rw [haddr, ← startOfs_congr hip'] at hmask
    exact ⟨hip', maskText_full_iff.mp hmask⟩
  · rintro ⟨hip, hfull⟩
    have hmask : s.maskText = (SubNet.ofAddr a).maskText := by
      rw [haddr, ← startOfs_congr hip]
      exact maskText_full_iff.mpr hfull
    rw [SubNet.toString, SubNet.toString, addrToString_congr hip, hmask]
    rfl

end Keys

section Matching

variable {s : SubNet}

theorem matchesAddr_iff {a : NetAddr} :
    s.matchesAddr a = true ↔ s.valid = true ∧ a.isValid = true ∧
      ∀ i < 16, a.getByte i &&& maskByte s.netmask i = s.netAddr.getByte i := by
  simp [SubNet.matchesAddr, netmaskByteSize, and_assoc]

theorem matchesAddr_self (hvalid : s.valid = true) (haddr : s.netAddr.isValid = true) :
    s.matchesAddr s.netAddr = true :=
  matchesAddr_iff.mpr ⟨hvalid, haddr, fun i _ => s.masked i⟩

theorem bytes_ext {a b : Bytes 16} (h : ∀ i < 16, a.data.getD i 0 = b.data.getD i 0) : a = b := by
  apply Bytes.ext
  refine List.ext_getElem (by simp) fun i hi hi' => ?_
  rw [a.size_eq] at hi
  simpa [hi] using h i hi

theorem isValid_congr {a b : NetAddr} (h : a.ip = b.ip) : a.isValid = b.isValid := by
  calc a.isValid = ({ ip := a.ip } : NetAddr).isValid := rfl
    _ = ({ ip := b.ip } : NetAddr).isValid := by rw [h]
    _ = b.isValid := rfl

/-- One valid address, with the whole mask. -/
def Single (s : SubNet) : Prop :=
  s.valid = true ∧ s.netAddr.isValid = true ∧ s.netmask = fullMask

/-- Matches no address, and is not written like one. -/
def Idle (s : SubNet) : Prop := (∀ a, s.matchesAddr a = false) ∧ ¬ s.Full

theorem Single.full (h : Single s) : s.Full := by
  intro b hb
  rw [h.2.2] at hb
  exact List.eq_of_mem_replicate (List.mem_of_mem_drop hb)

theorem Single.matchesAddr_iff (h : Single s) {a : NetAddr} :
    s.matchesAddr a = true ↔ s.netAddr.ip = a.ip := by
  obtain ⟨hvalid, haddr, hmask⟩ := h
  constructor
  · intro hmatch
    rcases SubNets.matchesAddr_iff.mp hmatch with ⟨-, -, hbytes⟩
    rw [hmask] at hbytes
    exact (bytes_ext fun i hi => (masked_fullMask a i).symm.trans (hbytes i hi)).symm
  · intro hip
    have hself := SubNets.matchesAddr_iff.mp (matchesAddr_self hvalid haddr)
    refine SubNets.matchesAddr_iff.mpr ⟨hvalid, (isValid_congr hip).symm.trans haddr, ?_⟩
    intro i hi
    rw [NetAddr.getByte, ← hip]
    exact hself.2.2 i hi

theorem ipv4_data {a : NetAddr} (h : a.isIpv4 = true) :
    a.ip.data = kPchIpv4 ++ a.ip.data.drop 12 := by
  have hprefix : a.ip.data.take 12 = kPchIpv4 := by simpa [NetAddr.isIpv4] using h
  rw [← hprefix, List.take_append_drop]

/-- Not an IPv4 address any more, and in none of the ranges that are not valid. -/
theorem isValid_of_changed {a : NetAddr} {i : Nat} {v : Byte} {low : List Byte} (hi : i < 10)
    (hv : v ≠ 0#8) (h : a.ip.data = kPchIpv4.set i v ++ low) : a.isValid = true := by
  rw [NetAddr.isValid, NetAddr.isRFC3849, NetAddr.isInternal, NetAddr.isIpv4, NetAddr.getByte,
    NetAddr.getByte, NetAddr.getByte, NetAddr.getByte, h]
  interval_cases i <;> simp [kPchIpv4, kBtcIpPrefix, List.replicate, hv]

/-- The address of a subnet with every bit of one byte set that its mask leaves out. -/
def unmaskByte (s : SubNet) (i : Nat) : NetAddr :=
  { s.netAddr with
    ip := ⟨s.netAddr.ip.data.set i (s.netAddr.getByte i ||| ~~~ maskByte s.netmask i), by simp⟩ }

theorem unmaskByte_getByte (s : SubNet) {i j : Nat} (hi : i < 16) :
    (unmaskByte s i).getByte j =
      if i = j then s.netAddr.getByte i ||| ~~~ maskByte s.netmask i else s.netAddr.getByte j := by
  by_cases h : i = j
  · subst h
    simp [unmaskByte, NetAddr.getByte, hi]
  · simp [unmaskByte, NetAddr.getByte, h]

theorem or_not_and (x m : Byte) : (x ||| ~~~ m) &&& m = x &&& m := by
  apply BitVec.eq_of_getLsbD_eq
  intro k hk
  cases hm : m.getLsbD k <;> simp [hm]

theorem matchesAddr_unmaskByte (hvalid : s.valid = true) {i : Nat} (hi : i < 16)
    (h : (unmaskByte s i).isValid = true) : s.matchesAddr (unmaskByte s i) = true := by
  refine matchesAddr_iff.mpr ⟨hvalid, h, fun j _ => ?_⟩
  rw [unmaskByte_getByte s hi]
  by_cases hij : i = j
  · subst hij
    rw [if_pos rfl, or_not_and]
    exact s.masked i
  · rw [if_neg hij]
    exact s.masked j

/-- The two bytes that mark an IPv4 address are not masked. -/
theorem maskByte_marker (hv4 : s.netAddr.isIpv4 = true) {i : Nat} (hge : 10 ≤ i) (hlt : i < 12) :
    maskByte s.netmask i = 0xff := by
  have hbyte : s.netAddr.getByte i = BitVec.allOnes 8 := by
    rw [NetAddr.getByte, ipv4_data hv4]
    interval_cases i <;> rfl
  have hmasked := s.masked i
  rwa [hbyte, BitVec.allOnes_and] at hmasked

theorem getByte_zero (hv4 : s.netAddr.isIpv4 = true) {i : Nat} (hi : i < 10) :
    s.netAddr.getByte i = 0#8 := by
  rw [NetAddr.getByte, ipv4_data hv4]
  interval_cases i <;> rfl

theorem eq_ff_of_not {x : Byte} (h : ~~~ x = 0#8) : x = 0xff := by
  rw [← BitVec.not_not (b := x), h]
  rfl

/-- With one of the zero bytes of an IPv4 address masked, there are valid addresses that are
no IPv4 addresses and are matched. -/
theorem isValid_unmaskByte (hv4 : s.netAddr.isIpv4 = true) {i : Nat} (hi : i < 10)
    (hne : maskByte s.netmask i ≠ 0xff) : (unmaskByte s i).isValid = true := by
  have hset : s.netAddr.getByte i ||| ~~~ maskByte s.netmask i ≠ 0#8 := by
    rw [getByte_zero hv4 hi, BitVec.zero_or]
    exact fun hnot => hne (eq_ff_of_not hnot)
  have hdata : (unmaskByte s i).ip.data =
      kPchIpv4.set i (s.netAddr.getByte i ||| ~~~ maskByte s.netmask i) ++
        s.netAddr.ip.data.drop 12 := by
    have hin : i < kPchIpv4.length := Nat.lt_of_lt_of_le hi (by decide)
    rw [← List.set_append_left _ _ hin, ← ipv4_data hv4]
    rfl
  exact isValid_of_changed hi hset hdata

/-- If only bytes are masked that its text does not show, the subnet is an IPv4 address, and
it has such a byte among the ten zero ones. -/
theorem hidden_byte (hfull : s.Full) {i : Nat} (hi : i < 16) (hne : maskByte s.netmask i ≠ 0xff) :
    s.netAddr.isIpv4 = true ∧ i < 10 := by
  have hhidden : i < SubNet.startOfs s.netAddr := by
    by_contra hge
    refine hne (hfull _ ?_)
    have hlen : i < s.netmask.data.length := by rwa [s.netmask.size_eq]
    rw [maskByte, List.getD_eq_getElem _ _ hlen]
    refine List.mem_drop_iff_getElem.mpr ⟨i - SubNet.startOfs s.netAddr, ?_, ?_⟩
    · omega
    · congr 1
      omega
  rw [SubNet.startOfs] at hhidden
  by_cases hv4 : s.netAddr.isIpv4 = true
  · rw [if_pos hv4] at hhidden
    refine ⟨hv4, ?_⟩
    by_contra hge
    exact hne (maskByte_marker hv4 (Nat.not_lt.mp hge) hhidden)
  · rw [if_neg hv4] at hhidden
    exact absurd hhidden (Nat.not_lt_zero i)

/-- A subnet matches the addresses it is written like, no more and no less, exactly if it is
one valid address or is idle. -/
theorem written_as_matched_iff :
    (∀ a, s.matchesAddr a = true ↔ s.netAddr.ip = a.ip ∧ s.Full) ↔ Single s ∨ Idle s := by
  constructor
  · intro h
    by_cases hfull : s.Full
    · left
      rcases matchesAddr_iff.mp ((h s.netAddr).mpr ⟨rfl, hfull⟩) with ⟨hvalid, haddr, -⟩
      refine ⟨hvalid, haddr, bytes_ext fun i hi => ?_⟩
      have hones : fullMask.data.getD i 0 = 0xff := by
        rw [fullMask, List.getD_eq_getElem?_getD, List.getElem?_replicate, if_pos hi]
        rfl
      by_contra hne
      rw [hones] at hne
      rcases hidden_byte hfull hi hne with ⟨hv4, hi10⟩
      have hvalid' := isValid_unmaskByte hv4 hi10 hne
      have hip := ((h _).mp (matchesAddr_unmaskByte hvalid hi hvalid')).1
      have hbyte := unmaskByte_getByte s (j := i) hi
      rw [if_pos rfl, NetAddr.getByte, ← hip] at hbyte
      have hnot : ~~~ maskByte s.netmask i = 0#8 := by
        rw [← BitVec.zero_or (x := ~~~ maskByte s.netmask i), ← getByte_zero hv4 hi10]
        exact hbyte.symm
      exact hne (eq_ff_of_not hnot)
    · right
      refine ⟨fun a => ?_, hfull⟩
      by_contra hmatch
      exact hfull ((h a).mp (by simpa using hmatch)).2
  · rintro (hsingle | ⟨hnone, hfull⟩) a
    · rw [hsingle.matchesAddr_iff, and_iff_left hsingle.full]
    · simp [hnone, hfull]

end Matching

end SubNets
