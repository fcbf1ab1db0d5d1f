import Mathlib.Data.List.GetD
import Mathlib.Data.Nat.Digits.Defs
import Mathlib.Tactic.Ring

/-!
# Little-endian words

`ToLittleEndian` and `FromLittleEndian` of `util_endian.h`, over words of any
width. A word of `w` bits takes `w / 8` bytes; the two loops are inverse to
each other exactly when the byte count and the width agree.
-/

namespace Endian

abbrev Byte := BitVec 8

/-- The low byte first, then the rest of the word. -/
def toLittleEndian {w : Nat} : Nat → BitVec w → List Byte
  | 0, _ => []
  | n + 1, v => v.setWidth 8 :: toLittleEndian n (v >>> 8)

/-- The loop of `FromLittleEndian`: byte `i` is shifted to its place and or-ed in. -/
def fromLittleEndianFrom {w : Nat} (i : Nat) : List Byte → BitVec w → BitVec w
  | [], out => out
  | b :: low, out => fromLittleEndianFrom (i + 1) low (out ||| (b.setWidth w <<< (8 * i)))

def fromLittleEndian (w : Nat) (low : List Byte) : BitVec w :=
  fromLittleEndianFrom 0 low 0#w

@[simp] theorem toLittleEndian_length {w : Nat} (n : Nat) (v : BitVec w) :
    (toLittleEndian n v).length = n := by
  induction n generalizing v with
  | zero => rfl
  | succ n ih => simp [toLittleEndian, ih]

theorem toLittleEndian_getD {w : Nat} (n i : Nat) (v : BitVec w) (hi : i < n) :
    (toLittleEndian n v).getD i 0#8 = (v >>> (8 * i)).setWidth 8 := by
  induction n generalizing v i with
  | zero => omega
  | succ n ih =>
    cases i with
    | zero => simp [toLittleEndian]
    | succ i =>
      have hshift : v >>> 8 >>> (8 * i) = v >>> (8 * (i + 1)) := by
        rw [← BitVec.shiftRight_add]
        congr 1
        omega
      simp only [toLittleEndian, List.getD_cons_succ]
      rw [ih i (v >>> 8) (by omega), hshift]

/-- Bit `k` of the word comes from bit `k % 8` of byte `k / 8`. -/
theorem fromLittleEndianFrom_getLsbD {w : Nat} (i : Nat) (low : List Byte)
    (out : BitVec w) (k : Nat) :
    (fromLittleEndianFrom i low out).getLsbD k =
      (out.getLsbD k || (decide (k < w) && decide (8 * i ≤ k) &&
        (low.getD ((k - 8 * i) / 8) 0#8).getLsbD ((k - 8 * i) % 8))) := by
  induction low generalizing i out with
  | nil => simp [fromLittleEndianFrom]
  | cons b low ih =>
    rw [fromLittleEndianFrom, ih]
    by_cases hw : k < w
    · by_cases hlow : k < 8 * i
      · have h1 : ¬ 8 * i ≤ k := by omega
        have h2 : ¬ 8 * (i + 1) ≤ k := by omega
        simp [hlow, h1, h2]
      · by_cases hin : k < 8 * i + 8
        · have h1 : 8 * i ≤ k := by omega
          have h2 : ¬ 8 * (i + 1) ≤ k := by omega
          have h3 : (k - 8 * i) / 8 = 0 := by omega
          have h4 : (k - 8 * i) % 8 = k - 8 * i := by omega
          simp [hw, hlow, h1, h2, h3, h4]
        · have h1 : 8 * i ≤ k := by omega
          have h2 : 8 * (i + 1) ≤ k := by omega
          have h3 : (k - 8 * i) / 8 = (k - 8 * (i + 1)) / 8 + 1 := by omega
          have h4 : (k - 8 * i) % 8 = (k - 8 * (i + 1)) % 8 := by omega
          have h5 : b.getLsbD (k - 8 * i) = false :=
            BitVec.getLsbD_of_ge b _ (by omega)
          simp [hw, h1, h2, h3, h4, h5]
    · simp [hw]

theorem fromLittleEndian_getLsbD (w : Nat) (low : List Byte) (k : Nat) :
    (fromLittleEndian w low).getLsbD k =
      (decide (k < w) && (low.getD (k / 8) 0#8).getLsbD (k % 8)) := by
  rw [fromLittleEndian, fromLittleEndianFrom_getLsbD]
  simp

theorem fromLittleEndian_toLittleEndian {w n : Nat} (hw : w = 8 * n) (v : BitVec w) :
    fromLittleEndian w (toLittleEndian n v) = v := by
  apply BitVec.eq_of_getLsbD_eq
  intro k hk
  have hbyte : k / 8 < n := by omega
  have hsplit : 8 * (k / 8) + k % 8 = k := by omega
  have hbit : k % 8 < 8 := by omega
  rw [fromLittleEndian_getLsbD, toLittleEndian_getD n _ v hbyte]
  simp [hk, hbit, hsplit]

theorem toLittleEndian_fromLittleEndian {w n : Nat} (hw : w = 8 * n) (low : List Byte)
    (hlen : low.length = n) : toLittleEndian n (fromLittleEndian w low) = low := by
  apply List.ext_getElem
  · simp [hlen]
  intro i h1 h2
  have hi : i < n := by omega
  have hget := toLittleEndian_getD n i (fromLittleEndian w low) hi
  rw [List.getD_eq_getElem _ _ h1] at hget
  rw [hget]
  apply BitVec.eq_of_getLsbD_eq
  intro k hk
  have hdiv : (8 * i + k) / 8 = i := by omega
  have hmod : (8 * i + k) % 8 = k := by omega
  have hlt : 8 * i + k < w := by omega
  rw [BitVec.getLsbD_setWidth, BitVec.getLsbD_ushiftRight, fromLittleEndian_getLsbD, hdiv, hmod,
    List.getD_eq_getElem _ _ h2]
  simp only [hk, hlt, decide_true, Bool.true_and]

theorem toLittleEndian_injective {w n : Nat} (hw : w = 8 * n) {u v : BitVec w}
    (h : toLittleEndian n u = toLittleEndian n v) : u = v := by
  have := congrArg (fromLittleEndian w) h
  rwa [fromLittleEndian_toLittleEndian hw, fromLittleEndian_toLittleEndian hw] at this

theorem toLittleEndian_add {w : Nat} (m n : Nat) (v : BitVec w) :
    toLittleEndian (m + n) v = toLittleEndian m v ++ toLittleEndian n (v >>> (8 * m)) := by
  induction m generalizing v with
  | zero => simp [toLittleEndian]
  | succ m ih =>
    have hshift : v >>> 8 >>> (8 * m) = v >>> (8 * (m + 1)) := by
      rw [← BitVec.shiftRight_add]
      congr 1
      omega
    rw [Nat.succ_add_eq_add_succ, Nat.add_succ, toLittleEndian, ih, hshift]
    rfl

theorem toLittleEndian_setWidth {w u n : Nat} (v : BitVec w) (hu : 8 * n ≤ u) :
    toLittleEndian n (v.setWidth u) = toLittleEndian n v := by
  induction n generalizing v u w with
  | zero => rfl
  | succ n ih =>
    have hlow : (v.setWidth u).setWidth 8 = v.setWidth 8 :=
      BitVec.setWidth_setWidth_of_le v (by omega)
    have hhigh : (v.setWidth u) >>> 8 = ((v >>> 8).setWidth (u - 8)).setWidth u := by
      apply BitVec.eq_of_getLsbD_eq
      intro k hk
      by_cases h : k < u - 8
      · have h' : 8 + k < u := by omega
        simp [hk, h, h']
      · have h' : ¬ 8 + k < u := by omega
        simp [hk, h, h']
    rw [toLittleEndian, toLittleEndian, hlow, hhigh, ih _ (by omega), ih _ (by omega)]

@[simp] theorem toLittleEndian_zero {w : Nat} (n : Nat) :
    toLittleEndian n 0#w = List.replicate n 0#8 := by
  induction n with
  | zero => rfl
  | succ n ih => simp [toLittleEndian, ih, List.replicate_succ]

/-- High bytes that are zero add nothing to the word. -/
theorem fromLittleEndian_append_zero (w n : Nat) (low : List Byte) :
    fromLittleEndian w (low ++ List.replicate n 0#8) = fromLittleEndian w low := by
  apply BitVec.eq_of_getLsbD_eq
  intro k hk
  rw [fromLittleEndian_getLsbD, fromLittleEndian_getLsbD]
  by_cases hlow : k / 8 < low.length
  · rw [List.getD_append _ _ _ _ hlow]
  · have hlow : low.length ≤ k / 8 := by omega
    rw [List.getD_append_right _ _ _ _ hlow, List.getD_eq_default low _ hlow]
    simp

/-- Bytes that fit are the digits of the word. -/
theorem fromLittleEndianFrom_toNat {w i : Nat} {low : List Byte} {out : BitVec w}
    (hout : out.toNat < 256 ^ i) (hw : 8 * (i + low.length) ≤ w) :
    (fromLittleEndianFrom i low out).toNat =
      out.toNat + 256 ^ i * Nat.ofDigits 256 (low.map BitVec.toNat) := by
  induction low generalizing i out with
  | nil => rfl
  | cons b low ih =>
    have hpow : 2 ^ (8 * i) = 256 ^ i := Nat.pow_mul 2 8 i
    have hbyte : b.toNat < 2 ^ w :=
      b.isLt.trans_le (Nat.pow_le_pow_right (by decide) (by simp at hw; omega))
    have hplace : 256 ^ i * b.toNat < 2 ^ w := by
      calc 256 ^ i * b.toNat < 256 ^ i * 256 := Nat.mul_lt_mul_of_pos_left b.isLt (by positivity)
        _ = 2 ^ (8 * (i + 1)) := by rw [← Nat.pow_succ, Nat.pow_mul 2 8]
        _ ≤ 2 ^ w := Nat.pow_le_pow_right (by decide) (by simp at hw; omega)
    have hshift : (b.setWidth w <<< (8 * i)).toNat = 256 ^ i * b.toNat := by
      rw [BitVec.toNat_shiftLeft, BitVec.toNat_setWidth, Nat.mod_eq_of_lt hbyte, Nat.shiftLeft_eq,
        hpow, Nat.mul_comm, Nat.mod_eq_of_lt hplace]
    have hor : (out ||| b.setWidth w <<< (8 * i)).toNat = out.toNat + 256 ^ i * b.toNat := by
      rw [BitVec.toNat_or, hshift, Nat.or_comm, Nat.add_comm, ← hpow]
      rw [← hpow] at hout
      exact (Nat.two_pow_add_eq_or_of_lt hout _).symm
    have hnext : (out ||| b.setWidth w <<< (8 * i)).toNat < 256 ^ (i + 1) := by
      rw [hor, Nat.pow_succ]
      calc out.toNat + 256 ^ i * b.toNat < 256 ^ i + 256 ^ i * b.toNat :=
            Nat.add_lt_add_right hout _
        _ = 256 ^ i * (b.toNat + 1) := by rw [Nat.mul_add, Nat.mul_one, Nat.add_comm]
        _ ≤ 256 ^ i * 256 := Nat.mul_le_mul_left _ b.isLt
    rw [fromLittleEndianFrom, ih hnext (by simp at hw; omega), hor, List.map_cons,
      Nat.ofDigits_cons, Nat.mul_add, ← Nat.mul_assoc, ← Nat.pow_succ, Nat.add_assoc]

theorem fromLittleEndian_toNat {w : Nat} {low : List Byte} (hw : 8 * low.length ≤ w) :
    (fromLittleEndian w low).toNat = Nat.ofDigits 256 (low.map BitVec.toNat) := by
  rw [fromLittleEndian, fromLittleEndianFrom_toNat (by simp) (by omega)]
  simp

theorem fromLittleEndian_toNat_lt (w : Nat) (low : List Byte) :
    (fromLittleEndian w low).toNat < 2 ^ (8 * low.length) := by
  apply Nat.lt_pow_two_of_testBit
  intro k hk
  have hout : low.length ≤ k / 8 := by omega
  rw [BitVec.testBit_toNat, fromLittleEndian_getLsbD, List.getD_eq_default low _ hout]
  simp

theorem toLittleEndian_ofNat_cons {w n : Nat} (hw : 8 * (n + 1) ≤ w) (b : Byte) (m : Nat) :
    toLittleEndian (n + 1) (BitVec.ofNat w (b.toNat + 256 * m)) =
      b :: toLittleEndian n (BitVec.ofNat w m) := by
  have hb : b.toNat < 2 ^ 8 := b.isLt
  have hpow : 2 ^ w = 2 ^ 8 * 2 ^ (w - 8) := by
    rw [← Nat.pow_add]
    congr 1
    omega
  have hfirst : (BitVec.ofNat w (b.toNat + 256 * m)).setWidth 8 = b := by
    apply BitVec.eq_of_toNat_eq
    rw [BitVec.toNat_setWidth, BitVec.toNat_ofNat, hpow, Nat.mod_mul_right_mod]
    omega
  have hrest : BitVec.ofNat w (b.toNat + 256 * m) >>> 8 =
      ((BitVec.ofNat w m).setWidth (w - 8)).setWidth w := by
    have hdiv : (b.toNat + 256 * m) / 2 ^ 8 = m := by omega
    have hle : 2 ^ (w - 8) ≤ 2 ^ w := Nat.pow_le_pow_right (by decide) (Nat.sub_le w 8)
    have hlt : m % 2 ^ (w - 8) < 2 ^ w := (Nat.mod_lt m (Nat.two_pow_pos _)).trans_le hle
    apply BitVec.eq_of_toNat_eq
    rw [BitVec.toNat_ushiftRight, Nat.shiftRight_eq_div_pow, BitVec.toNat_ofNat, hpow,
      Nat.mod_mul_right_div_self, hdiv, BitVec.toNat_setWidth, BitVec.toNat_setWidth,
      BitVec.toNat_ofNat, Nat.mod_mod_of_dvd _ (Nat.pow_dvd_pow 2 (Nat.sub_le w 8)),
      Nat.mod_eq_of_lt hlt]
  rw [toLittleEndian, hfirst, hrest, toLittleEndian_setWidth _ (by omega),
    toLittleEndian_setWidth _ (by omega)]

/-- The bytes of a number that is given by its bytes, cut or filled up with zeros. -/
theorem toLittleEndian_ofDigits {w n : Nat} (hw : 8 * n ≤ w) (low : List Byte) :
    toLittleEndian n (BitVec.ofNat w (Nat.ofDigits 256 (low.map BitVec.toNat))) =
      low.take n ++ List.replicate (n - low.length) 0#8 := by
  induction n generalizing low with
  | zero => simp [toLittleEndian]
  | succ n ih =>
    cases low with
    | nil =>
      rw [List.map_nil, Nat.ofDigits_nil, toLittleEndian_zero]
      rfl
    | cons b low =>
      rw [List.map_cons, Nat.ofDigits_cons, toLittleEndian_ofNat_cons hw, ih (by omega)]
      simp

end Endian
