import Btclite.Consensus.Transactions
import Mathlib.Data.Nat.Digits.Lemmas

/-!
# Block proofs

`Compact` reads a 32-bit number as a target: a mantissa of 23 bits, a sign and a
base-256 exponent. `GetBlockProof` turns the target of a header into work, the
expected number of hashes. Neither trips its assertions or divides by zero.
-/

namespace BlockProof

open Serialize Transactions

abbrev U256 := BitVec 256

structure Compact where
  normal : U256 := 0
  compact : U32 := 0
  negative : Bool := false
  overflowed : Bool := false
deriving DecidableEq

namespace Compact

/-- The loop of `LogicalSize`; 32 turns shift everything out. -/
def logicalSizeFrom : Nat → Nat → U256 → Nat
  | 0, byte, _ => byte
  | fuel + 1, byte, value =>
    if value = 0 then byte else logicalSizeFrom fuel (byte + 1) (value >>> 8)

/-- The number of bytes down from the highest that is not zero. -/
def logicalSize (value : U256) : Nat := logicalSizeFrom 33 0 value

def setCompact (compact : U32) : Compact :=
  let size := (compact >>> 24).toNat
  let word := compact &&& 0x007fffff
  let word := if size ≤ 3 then word >>> (8 * (3 - size)) else word
  { normal := if size ≤ 3 then word.setWidth 256 else word.setWidth 256 <<< (8 * (size - 3))
    negative := word != 0 && compact &&& 0x00800000 != 0
    overflowed := word != 0 &&
      (decide (34 < size) || (decide (0xff < word) && decide (33 < size)) ||
        (decide (0xffff < word) && decide (32 < size))) }

/-- `GetCompact`; `none` is a failed assertion. -/
def getCompact (c : Compact) : Option Compact :=
  let size := logicalSize c.normal
  let mantissa : U32 :=
    if size ≤ 3 then (c.normal.setWidth 64 <<< (8 * (3 - size))).setWidth 32
    else ((c.normal >>> (8 * (size - 3))).setWidth 64).setWidth 32
  let signed := mantissa &&& 0x00800000 != 0
  let mantissa := if signed then mantissa >>> 8 else mantissa
  let size := if signed then size + 1 else size
  if mantissa &&& ~~~0x007fffff = 0 ∧ size < 256 then
    some { c with compact := mantissa ||| (BitVec.ofNat 32 size <<< 24) }
  else none

/-- The constructor from a 32-bit number. -/
def ofCompact (compact : U32) : Option Compact := getCompact (setCompact compact)

variable {value : U256}

theorem logicalSizeFrom_eq {fuel byte : Nat} {value : U256} (h : value.toNat < 256 ^ fuel) :
    logicalSizeFrom fuel byte value = byte + (Nat.digits 256 value.toNat).length := by
  induction fuel generalizing byte value with
  | zero =>
    have hzero : value.toNat = 0 := by simpa using h
    rw [hzero, Nat.digits_zero]
    rfl
  | succ fuel ih =>
    rw [logicalSizeFrom]
    split_ifs with hzero
    · subst hzero
      rfl
    · have hpos : 0 < value.toNat := Nat.pos_of_ne_zero fun h => hzero (BitVec.eq_of_toNat_eq h)
      have hshift : (value >>> 8).toNat = value.toNat / 256 := by
        rw [BitVec.toNat_ushiftRight, Nat.shiftRight_eq_div_pow]
      have hless : (value >>> 8).toNat < 256 ^ fuel := by
        rwa [hshift, Nat.div_lt_iff_lt_mul (by decide), ← Nat.pow_succ]
      rw [ih hless, hshift, Nat.digits_def' (by decide) hpos, List.length_cons]
      omega

/-- The logical size is the length in bytes. -/
theorem logicalSize_eq (value : U256) :
    logicalSize value = (Nat.digits 256 value.toNat).length := by
  have hbound : value.toNat < 256 ^ 33 := value.isLt.trans (by norm_num)
  rw [logicalSize, logicalSizeFrom_eq hbound, Nat.zero_add]

/-- A value takes at most 32 bytes, and fits into as many as it takes. -/
theorem logicalSize_fits (value : U256) :
    logicalSize value ≤ 32 ∧ value.toNat < 2 ^ (8 * logicalSize value) := by
  have hbound : value.toNat < 256 ^ 32 := value.isLt.trans_le (by norm_num)
  rw [logicalSize_eq, Nat.pow_mul]
  exact ⟨(Nat.digits_length_le_iff (by decide) _).mpr hbound,
    Nat.lt_base_pow_length_digits (by decide)⟩

/-- Three bytes with the highest bit cleared are 23 bits. -/
theorem and_mask_eq_zero {word : U32} (h : word.toNat < 2 ^ 23) : word &&& ~~~0x007fffff = 0 := by
  have hmask : (~~~0x007fffff : U32) = 0xff800000 := by decide
  rw [hmask]
  ext i hi
  rw [BitVec.getElem_and]
  by_cases hlow : i < 23
  · have hbit : ((0xff800000 : U32)[i]) = false := by
      have hall : ∀ k : Fin 23, (0xff800000 : U32).getLsbD k = false := by decide
      rw [BitVec.getElem_eq_testBit_toNat]
      exact hall ⟨i, hlow⟩
    rw [hbit, Bool.and_false]
    simp
  · have hword : word[i] = false := by
      rw [BitVec.getElem_eq_testBit_toNat]
      exact Nat.testBit_lt_two_pow (h.trans_le (Nat.pow_le_pow_right (by decide) (by omega)))
    rw [hword, Bool.false_and]
    simp

theorem mantissa_fits {mantissa : U32} (h : mantissa.toNat < 2 ^ 24) :
    (if mantissa &&& 0x00800000 != 0 then mantissa >>> 8 else mantissa).toNat < 2 ^ 23 := by
  split_ifs with hsign
  · rw [BitVec.toNat_ushiftRight, Nat.shiftRight_eq_div_pow]
    omega
  · by_contra hbig
    have hset : mantissa.getLsbD 23 = true := by
      have hone : mantissa.toNat / 2 ^ 23 = 1 := by omega
      rw [BitVec.getLsbD, Nat.testBit_eq_decide_div_mod_eq, hone]
      rfl
    have hclear : (mantissa &&& 0x00800000).getLsbD 23 = false := by
      have hzero : mantissa &&& 0x00800000 = 0 := by simpa using hsign
      rw [hzero]
      rfl
    rw [BitVec.getLsbD_and, hset] at hclear
    revert hclear
    decide

/-- No assertion of `GetCompact` fails. The word is made of the leading three bytes, or of
two where they would reach the sign bit. -/
theorem getCompact_eq (c : Compact) : ∃ leading : U32, leading.toNat < 2 ^ 24 ∧
    leading.toNat = (if logicalSize c.normal ≤ 3
      then c.normal.toNat * 2 ^ (8 * (3 - logicalSize c.normal))
      else c.normal.toNat / 2 ^ (8 * (logicalSize c.normal - 3))) ∧
    getCompact c = some { c with compact :=
      (if leading &&& 0x00800000 != 0 then leading >>> 8 else leading) |||
        (BitVec.ofNat 32 (if leading &&& 0x00800000 != 0 then logicalSize c.normal + 1
          else logicalSize c.normal) <<< 24) } := by
  rcases logicalSize_fits c.normal with ⟨hsize, hfits⟩
  have hleading : (if logicalSize c.normal ≤ 3
      then c.normal.toNat * 2 ^ (8 * (3 - logicalSize c.normal))
      else c.normal.toNat / 2 ^ (8 * (logicalSize c.normal - 3))) < 2 ^ 24 := by
    split_ifs with hsmall
    · calc c.normal.toNat * 2 ^ (8 * (3 - logicalSize c.normal))
        _ < 2 ^ (8 * logicalSize c.normal) * 2 ^ (8 * (3 - logicalSize c.normal)) :=
            Nat.mul_lt_mul_of_pos_right hfits (Nat.two_pow_pos _)
        _ = 2 ^ 24 := by
            rw [← Nat.pow_add, ← Nat.mul_add, Nat.add_sub_cancel' hsmall]
    · rw [Nat.div_lt_iff_lt_mul (Nat.two_pow_pos _), ← Nat.pow_add]
      rwa [show 24 + 8 * (logicalSize c.normal - 3) = 8 * logicalSize c.normal by omega]
  have hwide : ∀ {n : Nat}, n < 2 ^ 24 → n % 2 ^ 32 = n ∧ n % 2 ^ 64 = n := fun h =>
    ⟨Nat.mod_eq_of_lt (h.trans (by decide)), Nat.mod_eq_of_lt (h.trans (by decide))⟩
  have hword : (if logicalSize c.normal ≤ 3
      then (c.normal.setWidth 64 <<< (8 * (3 - logicalSize c.normal))).setWidth 32
      else ((c.normal >>> (8 * (logicalSize c.normal - 3))).setWidth 64).setWidth 32 : U32).toNat =
        if logicalSize c.normal ≤ 3 then c.normal.toNat * 2 ^ (8 * (3 - logicalSize c.normal))
        else c.normal.toNat / 2 ^ (8 * (logicalSize c.normal - 3)) := by
    split_ifs with hsmall
    · rw [if_pos hsmall] at hleading
      have hnarrow : c.normal.toNat < 2 ^ 24 :=
        hfits.trans_le (Nat.pow_le_pow_right (by decide) (by omega))
      rw [BitVec.toNat_setWidth, BitVec.toNat_shiftLeft, BitVec.toNat_setWidth, Nat.shiftLeft_eq,
        (hwide hnarrow).2, (hwide hleading).2, (hwide hleading).1]
    · rw [if_neg hsmall] at hleading
      rw [BitVec.toNat_setWidth, BitVec.toNat_setWidth, BitVec.toNat_ushiftRight,
        Nat.shiftRight_eq_div_pow, (hwide hleading).2, (hwide hleading).1]
  refine ⟨_, by rwa [hword], hword, ?_⟩
  have hmask := and_mask_eq_zero (mantissa_fits (hword.trans_lt hleading))
  rw [getCompact]
  exact if_pos ⟨hmask, by split_ifs <;> omega⟩

/-- Nothing else in the object is changed by it. -/
theorem getCompact_some (c : Compact) : ∃ compact, getCompact c = some { c with compact } := by
  rcases getCompact_eq c with ⟨leading, -, -, hcompact⟩
  exact ⟨_, hcompact⟩

end Compact

/-- `GetBlockProof`; `none` is a failed assertion or a division by zero. -/
def getBlockProof (header : BlockHeader) : Option U256 := do
  let compact ← Compact.ofCompact header.bits
  let target := compact.normal
  if compact.negative || compact.overflowed || target == 0 then pure 0
  else if target + 1 = 0 then none
  else pure (~~~target / (target + 1) + 1)

/-- A target is never all ones. -/
theorem setCompact_normal_ne (compact : U32) :
    (Compact.setCompact compact).normal + 1 ≠ 0 := by
  intro hzero
  have hones : (Compact.setCompact compact).normal = BitVec.allOnes 256 := by
    rw [BitVec.eq_sub_iff_add_eq.mpr hzero]
    decide
  have hset (i : Nat) (hi : i < 256) : (Compact.setCompact compact).normal.getLsbD i = true := by
    rw [hones, BitVec.getLsbD_allOnes, decide_eq_true hi]
  have hhigh := hset 255 (by decide)
  have hlow := hset 0 (by decide)
  simp only [Compact.setCompact] at hhigh hlow
  split_ifs at hhigh hlow with hsize
  · rw [BitVec.getLsbD_setWidth, BitVec.getLsbD_of_ge _ _ (by decide)] at hhigh
    simp at hhigh
  · rw [BitVec.getLsbD_shiftLeft, decide_eq_true
      (show 0 < 8 * ((compact >>> 24).toNat - 3) by omega)] at hlow
    simp at hlow

/-- Every header has a proof. -/
theorem getBlockProof_some (header : BlockHeader) : ∃ proof, getBlockProof header = some proof := by
  rcases Compact.getCompact_some (.setCompact header.bits) with ⟨word, hc⟩
  have hne := setCompact_normal_ne header.bits
  rw [getBlockProof, Compact.ofCompact, hc]
  simp only [Option.bind_eq_bind, Option.bind_some, if_neg hne]
  split_ifs
  · exact ⟨0, rfl⟩
  · exact ⟨_, rfl⟩

section Work

/-- What a header may be held to. -/
def Compact.IsTarget (c : Compact) : Prop :=
  c.negative = false ∧ c.overflowed = false ∧ c.normal ≠ 0

instance (c : Compact) : Decidable c.IsTarget := inferInstanceAs (Decidable (_ ∧ _ ∧ _))

/-- The expected number of hashes until one meets the target. -/
def Compact.work (c : Compact) : Nat :=
  if c.IsTarget then 2 ^ 256 / (c.normal.toNat + 1) else 0

variable {c c' : Compact}

theorem Compact.work_anti (h : c.IsTarget) (h' : c'.IsTarget) (hle : c.normal ≤ c'.normal) :
    c'.work ≤ c.work := by
  rw [work, work, if_pos h, if_pos h']
  exact Nat.div_le_div_left (Nat.succ_le_succ (BitVec.le_def.mp hle)) (Nat.succ_pos _)

theorem toNat_succ {target : U256} (h : target + 1 ≠ 0) :
    target.toNat + 1 < 2 ^ 256 ∧ (target + 1).toNat = target.toNat + 1 := by
  have hsum : (target + 1).toNat = (target.toNat + 1) % 2 ^ 256 := BitVec.toNat_add _ _
  have hless : target.toNat + 1 < 2 ^ 256 := by
    refine Nat.lt_of_not_le fun hwrap => h ?_
    have hall : target.toNat + 1 = 2 ^ 256 := Nat.le_antisymm target.isLt hwrap
    rw [hall] at hsum
    exact BitVec.eq_of_toNat_eq hsum
  exact ⟨hless, hsum.trans (Nat.mod_eq_of_lt hless)⟩

/-- The quotient by way of the complement, in 256 bits. -/
theorem complement_div {target : U256} (hpos : target ≠ 0) (hlast : target + 1 ≠ 0) :
    (~~~target / (target + 1) + 1).toNat = 2 ^ 256 / (target.toNat + 1) := by
  have hnonzero : 0 < target.toNat := Nat.pos_of_ne_zero fun h => hpos (BitVec.eq_of_toNat_eq h)
  have hone : (1 : U256).toNat = 1 := rfl
  have hquotient : 2 ^ 256 / (target.toNat + 1) =
      (2 ^ 256 - (target.toNat + 1)) / (target.toNat + 1) + 1 :=
    Nat.div_eq_sub_div (Nat.succ_pos _) target.isLt
  have hcomplement : (~~~target).toNat = 2 ^ 256 - (target.toNat + 1) := by
    rw [BitVec.toNat_not]
    omega
  have hhalf : 2 ^ 256 / (target.toNat + 1) ≤ 2 ^ 256 / 2 :=
    Nat.div_le_div_left (Nat.succ_le_succ hnonzero) (by decide)
  rw [BitVec.toNat_add, BitVec.toNat_udiv, (toNat_succ hlast).2, hcomplement, hone, ← hquotient]
  exact Nat.mod_eq_of_lt (hhalf.trans_lt (by decide))

theorem getBlockProof_work (header : BlockHeader) : ∃ c proof,
    Compact.ofCompact header.bits = some c ∧ c.normal + 1 ≠ 0 ∧
      getBlockProof header = some proof ∧ proof.toNat = c.work := by
  rcases Compact.getCompact_some (.setCompact header.bits) with ⟨compact, hc⟩
  have hlast := setCompact_normal_ne header.bits
  rw [← Compact.ofCompact] at hc
  generalize hdecoded : { Compact.setCompact header.bits with compact } = c at hc
  have hsame : (Compact.setCompact header.bits).normal = c.normal := by rw [← hdecoded]
  rw [hsame] at hlast
  rw [getBlockProof, hc, Option.bind_eq_bind, Option.bind_some]
  dsimp only
  rw [if_neg hlast]
  refine ⟨c, _, rfl, hlast, (apply_ite some _ _ _).symm, ?_⟩
  have hrefused : (c.negative || c.overflowed || c.normal == 0) = true ↔ ¬ c.IsTarget := by
    rw [Compact.IsTarget, Bool.or_eq_true, Bool.or_eq_true, beq_iff_eq]
    cases c.negative <;> cases c.overflowed <;> simp
  rw [Compact.work]
  by_cases htarget : c.IsTarget
  · rw [if_neg fun h => hrefused.mp h htarget, if_pos htarget]
    exact complement_div htarget.2.2 hlast
  · rw [if_pos (hrefused.mpr htarget), if_neg htarget]
    rfl

/-- The proof of every header is exact, nothing being divided by zero or carried out of
256 bits, and the lower the target is, the more it counts. -/
theorem getBlockProof_exact (header : BlockHeader) : ∃ c proof,
    Compact.ofCompact header.bits = some c ∧ c.normal.toNat + 1 < 2 ^ 256 ∧
      getBlockProof header = some proof ∧
      proof.toNat = (if c.negative = false ∧ c.overflowed = false ∧ c.normal ≠ 0
        then 2 ^ 256 / (c.normal.toNat + 1) else 0) ∧
      ∀ other c' proof', Compact.ofCompact other.bits = some c' →
        getBlockProof other = some proof' → c.IsTarget → c'.IsTarget → c.normal ≤ c'.normal →
          proof' ≤ proof := by
  rcases getBlockProof_work header with ⟨c, proof, hc, hlast, hproof, hwork⟩
  refine ⟨c, proof, hc, (toNat_succ hlast).1, hproof, hwork, ?_⟩
  intro other c' proof' hc' hproof' htarget htarget' hle
  rcases getBlockProof_work other with ⟨d, q, hd, -, hq, hwork'⟩
  obtain rfl : c' = d := Option.some.inj (hc'.symm.trans hd)
  obtain rfl : proof' = q := Option.some.inj (hproof'.symm.trans hq)
  rw [BitVec.le_def, hwork, hwork']
  exact Compact.work_anti htarget htarget' hle

end Work

end BlockProof
