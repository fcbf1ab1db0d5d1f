import Btclite.Consensus.Transactions
import Mathlib.Data.Nat.Digits.Lemmas

/-!
# Script numbers

`ScriptInt` reads and writes numbers as bytes of their magnitude, lowest first, with the
sign in the highest bit. The writer takes its number by a reference to an unsigned one, so
that nothing is negative to it, and shifts a negative number right forever. Positive
numbers come back, and zero does if the memory the reader leaves as it was holds zero.
-/

namespace ScriptInts

open Endian Serialize

abbrev I64 := BitVec 64

def maxSize : Nat := 4

structure ScriptInt where
  value : I64
deriving DecidableEq

section Writing

/-- The loop over the magnitude, on so many turns. A negative number is shifted
arithmetically. -/
def magnitude : Nat → I64 → List Byte → Option (List Byte)
  | 0, _, _ => none
  | turns + 1, abs, result =>
    if abs = 0 then some result
    else magnitude turns (abs.sshiftRight 8) (result ++ [(abs &&& 0xff).setWidth 8])

def bytesEncoding (turns : Nat) (value : U64) : Option (List Byte) :=
  if value = 0 then some []
  else do
    let neg := decide (value < 0)
    let abs : I64 := if neg then -value else value
    let result ← magnitude turns abs []
    if result.getLast?.getD 0 &&& 0x80 ≠ 0 then pure (result ++ [if neg then 0x80 else 0])
    else if neg then pure (result ++ [0x80])
    else pure result

def ScriptInt.bytesValue (s : ScriptInt) (turns : Nat) : Option (List Byte) :=
  bytesEncoding turns s.value

end Writing

section Reading

/-- The loop over the bytes. A byte is shifted as an `int`. -/
def orBytes : Nat → I64 → List Byte → I64
  | _, value, [] => value
  | i, value, b :: rest =>
    orBytes (i + 1) (value ||| (b.setWidth 32 <<< (8 * i)).signExtend 64) rest

/-- The constructor from bytes, in the given memory. -/
def ofBytes (memory : I64) (v : List Byte) (minimal : Bool) : Except String ScriptInt :=
  match v.getLast? with
  | none => .ok ⟨memory⟩
  | some back =>
    if maxSize < v.length then .error "script number overflow"
    else if minimal ∧ back &&& 0x7f = 0 ∧
        (v.length < 2 ∨ v[v.length - 2]?.getD 0 &&& 0x80 = 0) then
      .error "non-minimally encoded script number"
    else
      let value := orBytes 0 0 v
      if back &&& 0x80 ≠ 0 then .ok ⟨-(value &&& ~~~(0x80#64 <<< (8 * (v.length - 1))))⟩
      else .ok ⟨value⟩

end Reading

section Digits

def digitBytes (n : Nat) : List Byte := (Nat.digits 256 n).map (BitVec.ofNat 8)

/-- The shortest bytes of a magnitude with a sign; none for zero. -/
def signMagnitude (n : Int) : List Byte :=
  match (digitBytes n.natAbs).getLast? with
  | none => []
  | some top =>
    if top &&& 0x80 ≠ 0 then digitBytes n.natAbs ++ [if n < 0 then 0x80 else 0]
    else (digitBytes n.natAbs).dropLast ++ [if n < 0 then top ||| 0x80 else top]

variable {n turns i : Nat} {abs value : I64} {result bytes : List Byte} {b : Byte}

theorem sign_clear_iff (b : Byte) : b &&& 0x80 = 0 ↔ b.toNat < 128 := by
  revert b
  decide +kernel

theorem rest_clear_iff (b : Byte) : b &&& 0x7f = 0 ↔ b.toNat % 128 = 0 := by
  revert b
  decide +kernel

theorem digitBytes_toNat (n : Nat) : (digitBytes n).map BitVec.toNat = Nat.digits 256 n := by
  rw [digitBytes, List.map_map]
  refine (List.map_congr_left fun d hd => ?_).trans (List.map_id _)
  exact (BitVec.toNat_ofNat _ _).trans (Nat.mod_eq_of_lt (Nat.digits_lt_base (by decide) hd))

theorem ofDigits_digitBytes (n : Nat) :
    Nat.ofDigits 256 ((digitBytes n).map BitVec.toNat) = n := by
  rw [digitBytes_toNat, Nat.ofDigits_digits]

/-- The highest digit is not zero. -/
theorem digitBytes_top (h : 0 < n) :
    ∃ front top, digitBytes n = front ++ [top] ∧ 0 < top.toNat := by
  have hne : Nat.digits 256 n ≠ [] := Nat.digits_ne_nil_iff_ne_zero.mpr h.ne'
  have htop : (Nat.digits 256 n).getLast hne ≠ 0 := Nat.getLast_digit_ne_zero 256 h.ne'
  have hless : (Nat.digits 256 n).getLast hne < 256 :=
    Nat.digits_lt_base (by decide) (List.getLast_mem hne)
  refine ⟨(Nat.digits 256 n).dropLast.map (BitVec.ofNat 8),
    BitVec.ofNat 8 ((Nat.digits 256 n).getLast hne), ?_, ?_⟩
  · rw [digitBytes, ← List.map_singleton, ← List.map_append, List.dropLast_append_getLast]
  · rw [BitVec.toNat_ofNat, Nat.mod_eq_of_lt hless]
    exact Nat.pos_of_ne_zero htop

/-- A number that is not negative is written digit by digit. -/
theorem magnitude_eq (hpos : abs.toNat < 2 ^ 63) (hturns : abs.toNat < 256 ^ turns) :
    magnitude (turns + 1) abs result = some (result ++ digitBytes abs.toNat) := by
  induction turns generalizing abs result with
  | zero =>
    have hzero : abs = 0 := BitVec.eq_of_toNat_eq (by simpa using hturns)
    subst hzero
    rw [magnitude, if_pos rfl]
    exact congrArg some (List.append_nil result).symm
  | succ turns ih =>
    rw [magnitude]
    split_ifs with hzero
    · subst hzero
      exact congrArg some (List.append_nil result).symm
    · have hnat : 0 < abs.toNat := Nat.pos_of_ne_zero fun h => hzero (BitVec.eq_of_toNat_eq h)
      have hmsb : abs.msb = false := BitVec.msb_eq_false_iff_two_mul_lt.mpr (by omega)
      have hshift : (abs.sshiftRight 8).toNat = abs.toNat / 256 := by
        rw [BitVec.sshiftRight_eq_of_msb_false hmsb, BitVec.toNat_ushiftRight,
          Nat.shiftRight_eq_div_pow]
      have hbyte : (abs &&& 0xff).setWidth 8 = BitVec.ofNat 8 (abs.toNat % 256) := by
        apply BitVec.eq_of_toNat_eq
        rw [BitVec.toNat_setWidth, BitVec.toNat_and, BitVec.toNat_ofNat]
        exact congrArg (· % 2 ^ 8) (Nat.and_two_pow_sub_one_eq_mod abs.toNat 8)
      have hless : (abs.sshiftRight 8).toNat < 256 ^ turns := by
        rwa [hshift, Nat.div_lt_iff_lt_mul (by decide), ← Nat.pow_succ]
      rw [ih (by omega) hless, hbyte, hshift, List.append_assoc, digitBytes, digitBytes,
        Nat.digits_def' (by decide) hnat]
      rfl

/-- A negative number stays one, and is written without end. -/
theorem magnitude_endless (h : abs.msb = true) (turns : Nat) (result : List Byte) :
    magnitude turns abs result = none := by
  induction turns generalizing abs result with
  | zero => rfl
  | succ turns ih =>
    have hne : abs ≠ 0 := by
      rintro rfl
      cases h
    rw [magnitude, if_neg hne]
    refine ih ?_ _
    rwa [BitVec.msb_sshiftRight]

/-- The loop reads a word of 32 bits, and extends its sign. -/
theorem orBytes_eq (bytes : List Byte) :
    orBytes 0 0 bytes = (fromLittleEndian 32 bytes).signExtend 64 := by
  have hfrom : ∀ (i : Nat) (out : BitVec 32), orBytes i (out.signExtend 64) bytes =
      (fromLittleEndianFrom i bytes out).signExtend 64 := by
    induction bytes with
    | nil => exact fun _ _ => rfl
    | cons b rest ih =>
      intro i out
      rw [orBytes, fromLittleEndianFrom, ← BitVec.signExtend_or, ih]
  exact hfrom 0 0

/-- What is short enough and minimal, and has no sign, is read as the number it is. -/
theorem ofBytes_ok {n memory : I64} {front : List Byte} {top : Byte} (hsmall : n.toNat < 2 ^ 31)
    (hnumber : Nat.ofDigits 256 ((front ++ [top]).map BitVec.toNat) = n.toNat)
    (hlength : front.length ≤ 3) (htop : top.toNat < 128)
    (hminimal : top.toNat = 0 → ∃ init last, front = init ++ [last] ∧ 128 ≤ last.toNat) :
    ofBytes memory (front ++ [top]) true = .ok ⟨n⟩ := by
  have hread : orBytes 0 0 (front ++ [top]) = n := by
    have hfits : 8 * (front ++ [top]).length ≤ 32 := by
      rw [List.length_append, List.length_singleton]
      omega
    have hword : (fromLittleEndian 32 (front ++ [top])).toNat = n.toNat :=
      (fromLittleEndian_toNat hfits).trans hnumber
    have hmsb : (fromLittleEndian 32 (front ++ [top])).msb = false :=
      BitVec.msb_eq_false_iff_two_mul_lt.mpr (by omega)
    apply BitVec.eq_of_toNat_eq
    rw [orBytes_eq, BitVec.signExtend_eq_setWidth_of_msb_false hmsb, BitVec.toNat_setWidth, hword]
    exact Nat.mod_eq_of_lt (by omega)
  have hlong : ¬ maxSize < (front ++ [top]).length := by
    rw [List.length_append, List.length_singleton, maxSize]
    omega
  have hminimal' : ¬ (true = true ∧ top &&& 0x7f = 0 ∧ ((front ++ [top]).length < 2 ∨
      (front ++ [top])[(front ++ [top]).length - 2]?.getD 0 &&& 0x80 = 0)) := by
    rintro ⟨-, hrest, hshort⟩
    rw [rest_clear_iff, Nat.mod_eq_of_lt htop] at hrest
    obtain ⟨init, last, rfl, hlast⟩ := hminimal hrest
    have hplace : (init ++ [last] ++ [top])[(init ++ [last] ++ [top]).length - 2]? = some last := by
      simp
    rw [hplace, Option.getD_some, sign_clear_iff] at hshort
    rcases hshort with hshort | hshort
    · simp at hshort
    · omega
  rw [ofBytes, List.getLast?_concat]
  dsimp only
  rw [if_neg hlong, if_neg hminimal', if_neg (not_not.mpr ((sign_clear_iff top).mpr htop)), hread]

end Digits

section RoundTrips

/-- The bytes of a number are there, and if it is small enough they are the right ones and
are read as the number again, in the given memory. -/
def Meets (n memory : I64) : Prop :=
  ∃ turns bytes, (ScriptInt.mk n).bytesValue turns = some bytes ∧
    (|n.toInt| < 2 ^ 31 → bytes = signMagnitude n.toInt ∧ ofBytes memory bytes true = .ok ⟨n⟩)

variable {n memory : I64}

theorem bytesValue_endless (h : n.toInt < 0) (turns : Nat) :
    (ScriptInt.mk n).bytesValue turns = none := by
  have hmsb : n.msb = true := BitVec.msb_eq_toInt.trans (decide_eq_true h)
  have hne : n ≠ 0 := by
    rintro rfl
    cases hmsb
  rw [ScriptInt.bytesValue, bytesEncoding, if_neg hne]
  have hneg : decide (n < 0) = false := decide_eq_false (BitVec.not_lt_zero)
  simp only [hneg, Bool.false_eq_true, if_false, magnitude_endless hmsb]
  rfl

theorem toNat_of_pos (h : 0 < n.toInt) : n.toInt = n.toNat ∧ n.toNat < 2 ^ 63 := by
  have hsmall : 2 * n.toNat < 2 ^ 64 := BitVec.toInt_pos_iff.mp h.le
  rw [BitVec.toInt_eq_toNat_of_lt hsmall]
  exact ⟨rfl, by omega⟩

/-- A positive number is written digit by digit, with a byte for the sign where the highest
digit takes its place. -/
theorem bytesValue_pos (h : 0 < n.toInt) :
    (ScriptInt.mk n).bytesValue 9 = some (signMagnitude n.toInt) := by
  rcases toNat_of_pos h with ⟨hint, hsmall⟩
  have hpos : 0 < n.toNat := by omega
  have hne : n ≠ 0 := by
    rintro rfl
    exact absurd h (by decide)
  obtain ⟨front, top, hdigits, -⟩ := digitBytes_top hpos
  have hmagnitude : magnitude 9 n [] = some (front ++ [top]) := by
    rw [magnitude_eq hsmall (hsmall.trans (by norm_num)), hdigits]
    rfl
  have hneg : decide (n < 0) = false := decide_eq_false BitVec.not_lt_zero
  have hsign : ¬ n.toInt < 0 := by omega
  rw [ScriptInt.bytesValue, bytesEncoding, if_neg hne, signMagnitude, hint, Int.natAbs_natCast,
    hdigits, List.getLast?_concat]
  rw [hint] at hsign
  simp only [hneg, Bool.false_eq_true, if_false, hmagnitude, Option.bind_eq_bind, Option.bind_some,
    List.getLast?_concat, Option.getD_some, hsign, List.dropLast_concat]
  split_ifs <;> rfl

theorem ofBytes_signMagnitude (h : 0 < n.toInt) (hbound : |n.toInt| < 2 ^ 31) (memory : I64) :
    ofBytes memory (signMagnitude n.toInt) true = .ok ⟨n⟩ := by
  rcases toNat_of_pos h with ⟨hint, -⟩
  have hsmall : n.toNat < 2 ^ 31 := by
    rw [abs_of_pos h] at hbound
    omega
  obtain ⟨front, top, hdigits, htop⟩ := digitBytes_top (show 0 < n.toNat by omega)
  have hnumber := ofDigits_digitBytes n.toNat
  rw [hdigits] at hnumber
  have hlength : (front ++ [top]).length ≤ 4 := by
    rw [← hdigits, digitBytes, List.length_map, Nat.digits_length_le_iff (by decide)]
    exact hsmall.trans (by norm_num)
  have hsign : ¬ (n.toNat : Int) < 0 := by omega
  rw [List.length_append, List.length_singleton] at hlength
  rw [signMagnitude, hint, Int.natAbs_natCast, hdigits, List.getLast?_concat]
  dsimp only
  rw [if_neg hsign, if_neg hsign, List.dropLast_concat]
  split_ifs with hset
  · rw [ne_eq, sign_clear_iff, Nat.not_lt] at hset
    refine ofBytes_ok hsmall ?_ ?_ (by decide) fun _ => ⟨front, top, rfl, hset⟩
    · rw [List.map_append, Nat.ofDigits_append, hnumber]
      rfl
    · -- a fourth digit would be out of range
      rw [List.map_append, Nat.ofDigits_append, List.length_map, List.map_singleton,
        Nat.ofDigits_singleton] at hnumber
      refine Nat.le_of_not_lt fun hlong => ?_
      rw [List.length_append, List.length_singleton] at hlong
      have hlarge : 256 ^ 3 * 128 ≤ 256 ^ front.length * top.toNat :=
        Nat.mul_le_mul (Nat.pow_le_pow_right (by decide) (by omega)) hset
      omega
  · rw [ne_eq, not_not, sign_clear_iff] at hset
    exact ofBytes_ok hsmall hnumber (by omega) hset fun hzero => absurd hzero htop.ne'

/-- A number is written and read again exactly if it is positive, or it is zero and is read
into memory that holds zero. -/
theorem meets_iff (n memory : I64) : Meets n memory ↔ 0 < n.toInt ∨ n = 0 ∧ memory = 0 := by
  obtain hneg | hzero | hpos := lt_trichotomy n.toInt 0
  · refine iff_of_false ?_ ?_
    · rintro ⟨turns, bytes, hbytes, -⟩
      rw [bytesValue_endless hneg] at hbytes
      cases hbytes
    · rintro (hpos | ⟨rfl, -⟩)
      · omega
      · exact absurd hneg (by decide)
  · obtain rfl : n = 0 := BitVec.eq_of_toInt_eq hzero
    rw [or_iff_right (by decide), and_iff_right rfl]
    constructor
    · rintro ⟨turns, bytes, -, hread⟩
      obtain ⟨rfl, hvalue⟩ := hread (by decide)
      exact congrArg ScriptInt.value (Except.ok.inj hvalue)
    · rintro rfl
      exact ⟨0, [], rfl, fun _ => ⟨rfl, rfl⟩⟩
  · refine iff_of_true ⟨9, _, bytesValue_pos hpos, fun hbound => ⟨rfl, ?_⟩⟩ (Or.inl hpos)
    exact ofBytes_signMagnitude hpos hbound memory

/-- Minus one is written without end, and zero is read as what was in memory. -/
theorem minus_one_endless :
    (∀ turns, (ScriptInt.mk (-1)).bytesValue turns = none) ∧ ¬ Meets (-1) 0 ∧
      ofBytes 7 (signMagnitude 0) true = .ok ⟨7⟩ ∧ ¬ Meets 0 7 := by
  have hendless : ∀ turns, (ScriptInt.mk (-1)).bytesValue turns = none :=
    bytesValue_endless (by decide)
  refine ⟨hendless, ?_, rfl, ?_⟩
  · rintro ⟨turns, bytes, hbytes, -⟩
    rw [hendless] at hbytes
    cases hbytes
  · rintro ⟨turns, bytes, -, hread⟩
    obtain ⟨rfl, hvalue⟩ := hread (by decide)
    cases hvalue

end RoundTrips

end ScriptInts
