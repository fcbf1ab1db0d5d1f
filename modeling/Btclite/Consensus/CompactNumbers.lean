import Btclite.Consensus.BlockProof
import Btclite.Library.LeadingDigits
import Mathlib.Algebra.Order.Floor.Semifield
import Mathlib.Data.Nat.Bitwise
import Mathlib.Data.Rat.Floor

/-!
# Compact numbers

A compact number is a mantissa, a sign and an exponent of base 256. Decoding gives the
number they stand for, and its thresholds find exactly the numbers that do not fit into
256 bits. Encoding keeps the leading digits, as many as fit beside the sign, which is
left clear.
-/

namespace CompactNumbers

open Serialize BlockProof Compact LeadingDigits

section Fields

def exponent (word : U32) : Nat := (word >>> 24).toNat

def mantissa (word : U32) : Nat := (word &&& 0x007fffff).toNat

/-- The sign bit is set. -/
def Signed (word : U32) : Prop := word &&& 0x00800000 ≠ 0

instance (word : U32) : Decidable (Signed word) := inferInstanceAs (Decidable (_ ≠ _))

/-- What an exponent below 3 leaves of the mantissa. -/
def shifted (word : U32) : Nat := mantissa word / 256 ^ (3 - exponent word)

/-- The number it stands for, whole or not, up to the sign. -/
def number (word : U32) : ℚ := mantissa word * 256 ^ ((exponent word : ℤ) - 3)

variable {word : U32}

theorem exponent_eq (word : U32) : exponent word = word.toNat / 2 ^ 24 := by
  rw [exponent, BitVec.toNat_ushiftRight, Nat.shiftRight_eq_div_pow]

theorem mantissa_eq (word : U32) : mantissa word = word.toNat % 2 ^ 23 := by
  rw [mantissa, BitVec.toNat_and]
  exact Nat.and_two_pow_sub_one_eq_mod word.toNat 23

theorem signed_iff (word : U32) : Signed word ↔ word.toNat / 2 ^ 23 % 2 = 1 := by
  have hand : (word &&& 0x00800000).toNat = (word.toNat / 2 ^ 23 % 2) * 2 ^ 23 := by
    rw [BitVec.toNat_and]
    refine (Nat.and_two_pow word.toNat 23).trans ?_
    rw [Nat.testBit_eq_decide_div_mod_eq]
    rcases Nat.mod_two_eq_zero_or_one (word.toNat / 2 ^ 23) with hbit | hbit <;> rw [hbit] <;> rfl
  have hzero : word &&& 0x00800000 = 0 ↔ (word &&& 0x00800000).toNat = 0 :=
    (BitVec.toNat_eq).trans Iff.rfl
  rw [Signed, ne_eq, hzero, hand]
  omega

theorem mantissa_lt (word : U32) : mantissa word < 2 ^ 23 := by
  rw [mantissa_eq]
  exact Nat.mod_lt _ (by decide)

theorem shifted_le (word : U32) : shifted word ≤ mantissa word := Nat.div_le_self _ _

theorem shifted_of_le (h : 3 ≤ exponent word) : shifted word = mantissa word := by
  rw [shifted, Nat.sub_eq_zero_of_le h, Nat.pow_zero, Nat.div_one]

theorem number_of_le (h : 3 ≤ exponent word) :
    number word = ((mantissa word * 256 ^ (exponent word - 3) : ℕ) : ℚ) := by
  have hexponent : (exponent word : ℤ) - 3 = ((exponent word - 3 : ℕ) : ℤ) := by omega
  rw [number, hexponent, zpow_natCast]
  push_cast
  rfl

theorem number_of_lt (h : exponent word < 3) :
    number word = (mantissa word : ℚ) / ((256 ^ (3 - exponent word) : ℕ) : ℚ) := by
  have hexponent : (exponent word : ℤ) - 3 = -((3 - exponent word : ℕ) : ℤ) := by omega
  rw [number, hexponent, zpow_neg, zpow_natCast, div_eq_mul_inv]
  push_cast
  rfl

theorem floor_number (word : U32) : ⌊number word⌋₊ = shifted word * 256 ^ (exponent word - 3) := by
  rcases Nat.lt_or_ge (exponent word) 3 with hlt | hle
  · rw [number_of_lt hlt, Nat.floor_div_eq_div, Nat.sub_eq_zero_of_le hlt.le, Nat.pow_zero,
      Nat.mul_one, shifted]
  · rw [number_of_le hle, Nat.floor_natCast, shifted_of_le hle]

end Fields

section Decoding

variable {word : U32}

/-- Decoding in terms of what it shifts the mantissa to. -/
theorem setCompact_eq (word : U32) : ∃ digits : U32, digits.toNat = shifted word ∧
    setCompact word =
      { normal := if exponent word ≤ 3 then digits.setWidth 256
          else digits.setWidth 256 <<< (8 * (exponent word - 3))
        negative := digits != 0 && word &&& 0x00800000 != 0
        overflowed := digits != 0 &&
          (decide (34 < exponent word) || (decide (0xff < digits) && decide (33 < exponent word)) ||
            (decide (0xffff < digits) && decide (32 < exponent word))) } := by
  refine ⟨_, ?_, rfl⟩
  split_ifs with hsmall
  · rw [BitVec.toNat_ushiftRight, Nat.shiftRight_eq_div_pow, Nat.pow_mul]
    rfl
  · exact (shifted_of_le (Nat.le_of_not_le hsmall)).symm

theorem setCompact_normal (word : U32) : (setCompact word).normal.toNat =
    shifted word * 256 ^ (exponent word - 3) % 2 ^ 256 := by
  rcases setCompact_eq word with ⟨digits, hdigits, hdecoded⟩
  have hbound : shifted word < 2 ^ 256 :=
    (shifted_le word).trans_lt ((mantissa_lt word).trans (by decide))
  rw [hdecoded]
  dsimp only
  split_ifs with hsmall
  · have hzero : exponent word - 3 = 0 := Nat.sub_eq_zero_of_le hsmall
    rw [BitVec.toNat_setWidth, hdigits, hzero, Nat.pow_zero, Nat.mul_one]
  · rw [BitVec.toNat_shiftLeft, BitVec.toNat_setWidth, hdigits, Nat.mod_eq_of_lt hbound,
      Nat.shiftLeft_eq, Nat.pow_mul]

theorem setCompact_negative (word : U32) :
    (setCompact word).negative = true ↔ shifted word ≠ 0 ∧ Signed word := by
  rcases setCompact_eq word with ⟨digits, hdigits, hdecoded⟩
  rw [hdecoded, Bool.and_eq_true, bne_iff_ne, bne_iff_ne, Signed, ← hdigits, ne_eq,
    BitVec.toNat_eq]
  rfl

/-- The least mantissa that is too large at an exponent. -/
theorem le_mul_pow_iff {digits : Nat} {e : Nat} (hpos : 0 < digits) (h : 3 ≤ e) :
    2 ^ 256 ≤ digits * 256 ^ (e - 3) ↔ 256 ^ (35 - e) ≤ digits := by
  rcases Nat.lt_or_ge 35 e with hlt | hle
  · rw [Nat.sub_eq_zero_of_le hlt.le, Nat.pow_zero]
    refine iff_of_true ?_ hpos
    calc 2 ^ 256 = 1 * 256 ^ 32 := by norm_num
      _ ≤ digits * 256 ^ (e - 3) :=
        Nat.mul_le_mul hpos (Nat.pow_le_pow_right (by decide) (by omega))
  · have hsplit : 2 ^ 256 = 256 ^ (35 - e) * 256 ^ (e - 3) := by
      rw [← Nat.pow_add, show 35 - e + (e - 3) = 32 by omega]
      norm_num
    rw [hsplit]
    exact Nat.mul_le_mul_right_iff (Nat.pow_pos (by decide))

/-- The three thresholds are those of 256 bits. -/
theorem thresholds_iff {digits e : Nat} (hbound : digits < 2 ^ 23) (hpos : 0 < digits) :
    (34 < e ∨ 0xff < digits ∧ 33 < e) ∨ 0xffff < digits ∧ 32 < e ↔
      2 ^ 256 ≤ digits * 256 ^ (e - 3) := by
  by_cases hsmall : e ≤ 32
  · refine iff_of_false (by omega) (Nat.not_le.mpr ?_)
    calc digits * 256 ^ (e - 3) < 2 ^ 23 * 256 ^ (e - 3) :=
          Nat.mul_lt_mul_of_pos_right hbound (Nat.pow_pos (by decide))
      _ ≤ 2 ^ 23 * 256 ^ 29 :=
          Nat.mul_le_mul_left _ (Nat.pow_le_pow_right (by decide) (by omega))
      _ ≤ 2 ^ 256 := by norm_num
  · rw [le_mul_pow_iff hpos (by omega)]
    obtain rfl | rfl | hlarge : e = 33 ∨ e = 34 ∨ 34 < e := by omega
    · norm_num
      omega
    · norm_num
      omega
    · rw [Nat.sub_eq_zero_of_le hlarge, Nat.pow_zero]
      omega

theorem setCompact_overflowed (word : U32) : (setCompact word).overflowed = true ↔
    shifted word ≠ 0 ∧ 2 ^ 256 ≤ shifted word * 256 ^ (exponent word - 3) := by
  rcases setCompact_eq word with ⟨digits, hdigits, hdecoded⟩
  have hbound : shifted word < 2 ^ 23 := (shifted_le word).trans_lt (mantissa_lt word)
  have hzero : digits = 0 ↔ shifted word = 0 := by
    rw [← hdigits, BitVec.toNat_eq]
    rfl
  rw [hdecoded, Bool.and_eq_true, bne_iff_ne, ne_eq, hzero]
  refine and_congr_right fun hpos => ?_
  rw [← thresholds_iff hbound (Nat.pos_of_ne_zero hpos), ← hdigits]
  simp only [Bool.or_eq_true, Bool.and_eq_true, decide_eq_true_eq, BitVec.lt_def]
  rfl

theorem le_number_iff (word : U32) :
    2 ^ 256 ≤ number word ↔ 2 ^ 256 ≤ shifted word * 256 ^ (exponent word - 3) := by
  rw [← floor_number, Nat.le_floor_iff' (by norm_num)]
  push_cast
  rfl

/-- Where nothing is said to overflow, nothing is cut off. -/
theorem setCompact_fits (h : (setCompact word).overflowed = false) :
    (setCompact word).normal.toNat = shifted word * 256 ^ (exponent word - 3) := by
  rw [setCompact_normal]
  refine Nat.mod_eq_of_lt (Nat.lt_of_not_le fun hwrap => ?_)
  have hzero : shifted word = 0 := by
    by_contra hne
    have hover := (setCompact_overflowed word).mpr ⟨hne, hwrap⟩
    rw [h] at hover
    cases hover
  rw [hzero, Nat.zero_mul] at hwrap
  exact absurd hwrap (by norm_num)

/-- The decoded object says what the word stands for, and whether 256 bits hold it. -/
theorem ofCompact_exact (word : U32) : ∃ c, ofCompact word = some c ∧
    (c.overflowed = true ↔ shifted word ≠ 0 ∧ 2 ^ 256 ≤ number word) ∧
    (c.negative = true ↔ shifted word ≠ 0 ∧ Signed word) ∧
    (c.overflowed = false → c.normal.toNat = ⌊number word⌋₊) := by
  rcases getCompact_some (setCompact word) with ⟨compact, hc⟩
  refine ⟨_, hc, ?_, setCompact_negative word, fun hfits => ?_⟩
  · rw [le_number_iff]
    exact setCompact_overflowed word
  · rw [floor_number]
    exact setCompact_fits hfits

end Decoding

section Encoding

/-- The constructor from a 256-bit number. -/
def ofNormal (normal : U256) : Option Compact := getCompact { normal }

/-- Base 256, with mantissas that leave the sign bit clear. -/
def format : Format where
  base := 256
  limit := 2 ^ 23
  two_le := by decide
  pos := by decide
  dvd := by decide

/-- The word has the leading digits of the number. -/
structure Encodes (word : U32) (n : Nat) : Prop where
  unsigned : ¬ Signed word
  dropped : exponent word - 3 = format.dropped n
  kept : shifted word = format.mantissa n

variable {word : U32} {n k leading : Nat}

/-- Leading bytes that stay clear of the sign are the mantissa. -/
theorem kept_of_lt (hlow : 3 < k → 256 ^ (k - 1) ≤ n)
    (hleading : leading = if k ≤ 3 then n * 256 ^ (3 - k) else n / 256 ^ (k - 3))
    (hclear : leading < 2 ^ 23) :
    k - 3 = format.dropped n ∧ leading / 256 ^ (3 - k) = format.mantissa n := by
  split_ifs at hleading with hsmall
  · have hle : n ≤ leading := by
      rw [hleading]
      exact Nat.le_mul_of_pos_right _ (Nat.pow_pos (by decide))
    have hlt : n < format.limit := hle.trans_lt hclear
    rw [Format.dropped_of_lt hlt, Format.mantissa_of_lt hlt, hleading]
    exact ⟨Nat.sub_eq_zero_of_le hsmall, Nat.mul_div_cancel _ (Nat.pow_pos (by decide))⟩
  · have hsplit : k - 3 = k - 4 + 1 := by omega
    have hlow' : format.limit ≤ n / format.base ^ (k - 4) := by
      rw [Nat.le_div_iff_mul_le (Nat.pow_pos (by decide))]
      calc 2 ^ 23 * 256 ^ (k - 4) ≤ 256 ^ 3 * 256 ^ (k - 4) :=
            Nat.mul_le_mul_right _ (by norm_num)
        _ = 256 ^ (k - 1) := by rw [← Nat.pow_add, show 3 + (k - 4) = k - 1 by omega]
        _ ≤ n := hlow (Nat.lt_of_not_le hsmall)
    have hdropped : format.dropped n = k - 3 := by
      rw [hsplit] at hleading ⊢
      exact Format.dropped_eq_succ (hleading.symm.trans_lt hclear) hlow'
    rw [Format.mantissa, hdropped, Nat.sub_eq_zero_of_le (Nat.le_of_not_le hsmall), Nat.pow_zero,
      Nat.div_one]
    exact ⟨rfl, hleading⟩

/-- Leading bytes that reach the sign lose one. -/
theorem kept_of_le (hfits : n < 256 ^ k)
    (hleading : leading = if k ≤ 3 then n * 256 ^ (3 - k) else n / 256 ^ (k - 3))
    (hset : 2 ^ 23 ≤ leading) (hbound : leading < 2 ^ 24) :
    k + 1 - 3 = format.dropped n ∧ leading / 256 / 256 ^ (3 - (k + 1)) = format.mantissa n := by
  rcases Nat.lt_or_ge k 3 with hsmall | hlarge
  · rw [if_pos hsmall.le] at hleading
    have hlt : n < format.limit := by
      calc n < 256 ^ k := hfits
        _ ≤ 256 ^ 2 := Nat.pow_le_pow_right (by decide) (by omega)
        _ ≤ 2 ^ 23 := by norm_num
    have hsplit : 256 ^ (3 - k) = 256 ^ (3 - (k + 1)) * 256 := by
      rw [show 3 - k = 3 - (k + 1) + 1 by omega, Nat.pow_succ]
    rw [Format.dropped_of_lt hlt, Format.mantissa_of_lt hlt, hleading, hsplit, ← Nat.mul_assoc,
      Nat.mul_div_cancel _ (by decide), Nat.mul_div_cancel _ (Nat.pow_pos (by decide))]
    exact ⟨Nat.sub_eq_zero_of_le hsmall, rfl⟩
  · have hquotient : leading = n / 256 ^ (k - 3) := by
      split_ifs at hleading with hsame
      · rw [hleading, Nat.le_antisymm hsame hlarge, Nat.pow_zero, Nat.mul_one, Nat.div_one]
      · exact hleading
    have hnext : leading / 256 = n / 256 ^ (k - 3 + 1) := by
      rw [hquotient, Nat.div_div_eq_div_mul, Nat.pow_succ]
    have hdropped : format.dropped n = k - 3 + 1 := by
      refine Format.dropped_eq_succ ?_ (hset.trans_eq hquotient)
      refine hnext.symm.trans_lt ?_
      exact (Nat.div_lt_iff_lt_mul (by decide)).mpr (hbound.trans (by norm_num [format]))
    rw [Format.mantissa, hdropped, show 3 - (k + 1) = 0 by omega, Nat.pow_zero, Nat.div_one]
    exact ⟨by omega, hnext⟩

/-- A mantissa beside an exponent. -/
theorem packed_fields {field : U32} {size : Nat} (hfield : field.toNat < 2 ^ 23)
    (hsize : size < 256) :
    ¬ Signed (field ||| BitVec.ofNat 32 size <<< 24) ∧
      exponent (field ||| BitVec.ofNat 32 size <<< 24) = size ∧
      mantissa (field ||| BitVec.ofNat 32 size <<< 24) = field.toNat := by
  have hpacked : (field ||| BitVec.ofNat 32 size <<< 24).toNat = 2 ^ 24 * size + field.toNat := by
    rw [BitVec.toNat_or, BitVec.toNat_shiftLeft, BitVec.toNat_ofNat, Nat.shiftLeft_eq,
      Nat.two_pow_add_eq_or_of_lt (hfield.trans (by decide)), Nat.lor_comm]
    congr 1
    omega
  rw [signed_iff, exponent_eq, mantissa_eq, hpacked]
  omega

/-- Encoding keeps the leading digits. -/
theorem getCompact_encodes (c : Compact) :
    ∃ word, getCompact c = some { c with compact := word } ∧ Encodes word c.normal.toNat := by
  rcases getCompact_eq c with ⟨leading, hbound, hleading, hcompact⟩
  refine ⟨_, hcompact, ?_⟩
  simp only [Nat.pow_mul, show 2 ^ 8 = 256 by decide] at hleading
  have hfits : c.normal.toNat < 256 ^ logicalSize c.normal := by
    rw [logicalSize_eq]
    exact Nat.lt_base_pow_length_digits (by decide)
  have hlow : 3 < logicalSize c.normal → 256 ^ (logicalSize c.normal - 1) ≤ c.normal.toNat := by
    intro hlarge
    rw [logicalSize_eq] at hlarge ⊢
    refine Nat.le_of_not_lt fun hless => ?_
    have hshort := (Nat.digits_length_le_iff (by decide) _).mpr hless
    omega
  have hsize := (logicalSize_fits c.normal).1
  have hsign : (leading &&& 0x00800000 != 0) = true ↔ 2 ^ 23 ≤ leading.toNat := by
    rw [bne_iff_ne, ← Signed, signed_iff]
    omega
  by_cases hset : 2 ^ 23 ≤ leading.toNat
  · have hshift : (leading >>> 8).toNat = leading.toNat / 256 := by
      rw [BitVec.toNat_ushiftRight, Nat.shiftRight_eq_div_pow]
    rw [if_pos (hsign.mpr hset), if_pos (hsign.mpr hset)]
    rcases @packed_fields (leading >>> 8) (logicalSize c.normal + 1) (by omega) (by omega) with
      ⟨hunsigned, hexponent, hmantissa⟩
    rcases kept_of_le hfits hleading hset hbound with ⟨hdropped, hkept⟩
    refine ⟨hunsigned, by rw [hexponent, hdropped], ?_⟩
    rw [shifted, hexponent, hmantissa, hshift, hkept]
  · rw [if_neg fun h => hset (hsign.mp h), if_neg fun h => hset (hsign.mp h)]
    rcases @packed_fields leading (logicalSize c.normal) (Nat.lt_of_not_le hset) (by omega) with
      ⟨hunsigned, hexponent, hmantissa⟩
    rcases kept_of_lt hlow hleading (Nat.lt_of_not_le hset) with ⟨hdropped, hkept⟩
    refine ⟨hunsigned, by rw [hexponent, hdropped], ?_⟩
    rw [shifted, hexponent, hmantissa, hkept]

/-- Decoding gives the number with its other digits cleared. -/
theorem Encodes.decode (h : Encodes word n) (hn : n < 2 ^ 256) :
    (setCompact word).normal.toNat = format.truncate n ∧
      (setCompact word).negative = false ∧ (setCompact word).overflowed = false := by
  have hproduct : shifted word * 256 ^ (exponent word - 3) = format.truncate n := by
    rw [h.dropped, h.kept]
    rfl
  have hless : format.truncate n < 2 ^ 256 := (Format.truncate_le n).trans_lt hn
  refine ⟨?_, ?_, ?_⟩
  · rw [setCompact_normal, hproduct, Nat.mod_eq_of_lt hless]
  · rw [← Bool.not_eq_true, setCompact_negative]
    exact fun hnegative => h.unsigned hnegative.2
  · rw [← Bool.not_eq_true, setCompact_overflowed, hproduct]
    exact fun hover => absurd hover.2 (Nat.not_le.mpr hless)

/-- Where digits are dropped, the word is the only one. -/
theorem Encodes.unique {other : U32} (h : Encodes word n) (h' : Encodes other (format.truncate n))
    (hdropped : 0 < format.dropped n) : word = other := by
  have hexponent := h.dropped
  have hexponent' := h'.dropped
  rw [Format.dropped_truncate] at hexponent'
  have hkept := h.kept
  have hkept' := h'.kept
  rw [Format.mantissa_truncate] at hkept'
  rw [shifted_of_le (by omega)] at hkept hkept'
  have hsign := h.unsigned
  have hsign' := h'.unsigned
  rw [signed_iff] at hsign hsign'
  rw [mantissa_eq] at hkept hkept'
  rw [exponent_eq] at hexponent hexponent'
  apply BitVec.eq_of_toNat_eq
  omega

end Encoding

section RoundTrips

variable {word : U32} {v : U256}

/-- A number, its word, and what the word decodes to. -/
theorem ofNormal_decodes (v : U256) : ∃ word d, ofNormal v = some { normal := v, compact := word } ∧
    Encodes word v.toNat ∧ ofCompact word = some d ∧
      d.normal.toNat = format.truncate v.toNat ∧ d.negative = false ∧ d.overflowed = false := by
  rcases getCompact_encodes { normal := v } with ⟨word, hword, hencodes⟩
  rcases hencodes.decode v.isLt with ⟨hnormal, hnegative, hoverflowed⟩
  rcases getCompact_some (setCompact word) with ⟨compact, hd⟩
  exact ⟨word, _, hword, hencodes, hd, hnormal, hnegative, hoverflowed⟩

/-- Only digits below the leading three bytes are dropped, or below two of them. -/
theorem dropped_le (v : U256) :
    format.dropped v.toNat ≤ (Nat.digits 256 v.toNat).length - 2 := by
  refine Format.dropped_le ((Nat.div_lt_iff_lt_mul (Nat.pow_pos (by decide))).mpr ?_)
  calc v.toNat < 256 ^ (Nat.digits 256 v.toNat).length :=
        Nat.lt_base_pow_length_digits (by decide)
    _ ≤ 256 ^ (2 + ((Nat.digits 256 v.toNat).length - 2)) :=
        Nat.pow_le_pow_right (by decide) (by omega)
    _ = 256 ^ 2 * 256 ^ ((Nat.digits 256 v.toNat).length - 2) := Nat.pow_add _ _ _
    _ ≤ 2 ^ 23 * 256 ^ ((Nat.digits 256 v.toNat).length - 2) :=
        Nat.mul_le_mul_right _ (by norm_num)

/-- Encoding rounds down to what a word can hold, and does so monotonically and once. -/
theorem ofNormal_rounds (v : U256) : ∃ c d e : Compact,
    ofNormal v = some c ∧ ofCompact c.compact = some d ∧
      d.negative = false ∧ d.overflowed = false ∧ d.normal ≤ v ∧
      v.toNat - d.normal.toNat < 256 ^ ((Nat.digits 256 v.toNat).length - 2) ∧
      ((Nat.digits 256 v.toNat).length ≤ 2 → d.normal = v) ∧
      ofNormal d.normal = some e ∧ e.compact = c.compact ∧
      ∀ w c' d', v ≤ w → ofNormal w = some c' → ofCompact c'.compact = some d' →
        d.normal ≤ d'.normal := by
  rcases ofNormal_decodes v with ⟨word, d, hword, hencodes, hd, hnormal, hnegative, hoverflowed⟩
  rcases ofNormal_decodes d.normal with ⟨word', e, hword', hencodes', -, -, -, -⟩
  have hlost : v.toNat - d.normal.toNat < 256 ^ ((Nat.digits 256 v.toNat).length - 2) := by
    rw [hnormal]
    exact (Format.sub_truncate_lt _).trans_le (Nat.pow_le_pow_right (by decide) (dropped_le v))
  have hle : d.normal.toNat ≤ v.toNat := hnormal.trans_le (Format.truncate_le _)
  refine ⟨_, d, _, hword, hd, hnegative, hoverflowed, hle, hlost, ?_, hword', ?_, ?_⟩
  · intro hshort
    rw [Nat.sub_eq_zero_of_le hshort, Nat.pow_zero] at hlost
    apply BitVec.eq_of_toNat_eq
    omega
  · rcases Nat.eq_zero_or_pos (format.dropped v.toNat) with hzero | hpos
    · have hsame : d.normal = v := by
        apply BitVec.eq_of_toNat_eq
        rw [hnormal, Format.truncate, Format.mantissa, hzero, Nat.pow_zero, Nat.div_one,
          Nat.mul_one]
      rw [hsame, hword] at hword'
      exact (congrArg Compact.compact (Option.some.inj hword')).symm
    · rw [hnormal] at hencodes'
      exact (hencodes.unique hencodes' hpos).symm
  · intro w c' d' hvw hw hd'
    rcases ofNormal_decodes w with ⟨word₁, d₁, hword₁, -, hd₁, hnormal₁, -, -⟩
    obtain rfl : c' = { normal := w, compact := word₁ } := Option.some.inj (hw.symm.trans hword₁)
    obtain rfl : d' = d₁ := Option.some.inj (hd'.symm.trans hd₁)
    rw [BitVec.le_def, hnormal, hnormal₁]
    exact Format.truncate_mono (BitVec.le_def.mp hvw)

/-- Decoding a word that was decoded and encoded loses nothing but the sign. -/
theorem ofCompact_again (hfits : (setCompact word).overflowed = false) : ∃ c d : Compact,
    ofCompact word = some c ∧ c.overflowed = false ∧ c.negative = (setCompact word).negative ∧
      ofCompact c.compact = some d ∧ d.overflowed = false ∧ d.normal = c.normal ∧
      d.negative = false := by
  rcases getCompact_encodes (setCompact word) with ⟨again, hagain, hencodes⟩
  rcases hencodes.decode (setCompact word).normal.isLt with ⟨hnormal, hnegative, hoverflowed⟩
  rcases getCompact_some (setCompact again) with ⟨compact, hd⟩
  refine ⟨_, _, hagain, hfits, rfl, hd, hoverflowed, ?_, hnegative⟩
  apply BitVec.eq_of_toNat_eq
  have hmantissa : shifted word < format.limit := (shifted_le word).trans_lt (mantissa_lt word)
  refine hnormal.trans ?_
  rw [setCompact_fits hfits]
  exact Format.truncate_mul_pow hmantissa

/-- The number that a word stands for survives the way through an object. -/
def Keeps (word : U32) : Prop :=
  ∀ c, ofCompact word = some c → c.overflowed = false → ∃ d, ofCompact c.compact = some d ∧
    d.overflowed = false ∧ d.normal = c.normal ∧ d.negative = c.negative

/-- It does unless it is negative. -/
theorem keeps_iff_unsigned (word : U32) :
    Keeps word ↔ 2 ^ 256 ≤ number word ∨ shifted word = 0 ∨ ¬ Signed word := by
  have hunsigned : (setCompact word).negative = false ↔ shifted word = 0 ∨ ¬ Signed word := by
    rw [← Bool.not_eq_true, setCompact_negative, Classical.not_and_iff_not_or_not, not_not]
  cases hfits : (setCompact word).overflowed with
  | true =>
    have hlarge := ((setCompact_overflowed word).mp hfits).2
    refine iff_of_true ?_ (Or.inl ((le_number_iff word).mpr hlarge))
    intro c hc hc'
    rcases getCompact_some (setCompact word) with ⟨compact, hword⟩
    obtain rfl := Option.some.inj (hc.symm.trans hword)
    cases hfits.symm.trans hc'
  | false =>
    rcases ofCompact_again hfits with
      ⟨c, d, hc, hsame, hnegative, hd, hoverflowed, hnormal, hclear⟩
    have hsmall : ¬ 2 ^ 256 ≤ number word := by
      rw [le_number_iff, ← setCompact_fits hfits]
      exact Nat.not_le.mpr (setCompact word).normal.isLt
    rw [or_iff_right hsmall, ← hunsigned, ← hnegative]
    constructor
    · intro hkeeps
      obtain ⟨d', hd', -, -, hkept⟩ := hkeeps c hc hsame
      obtain rfl : d = d' := Option.some.inj (hd.symm.trans hd')
      exact hkept.symm.trans hclear
    · intro hpositive c' hc' _
      obtain rfl : c' = c := Option.some.inj (hc'.symm.trans hc)
      exact ⟨d, hd, hoverflowed, hnormal, hclear.trans hpositive.symm⟩

/-- The word of -0x12345600 comes back without its sign. -/
theorem sign_lost :
    ofCompact 0x04923456 = some ⟨0x12345600, 0x04123456, true, false⟩ ∧
      ofCompact 0x04123456 = some ⟨0x12345600, 0x04123456, false, false⟩ ∧
        ¬ Keeps 0x04923456 := by
  have hc : ofCompact 0x04923456 = some ⟨0x12345600, 0x04123456, true, false⟩ := by
    decide +kernel
  have hd : ofCompact 0x04123456 = some ⟨0x12345600, 0x04123456, false, false⟩ := by
    decide +kernel
  refine ⟨hc, hd, fun hkeeps => ?_⟩
  obtain ⟨d, hd', -, -, hnegative⟩ := hkeeps _ hc rfl
  obtain rfl := Option.some.inj (hd.symm.trans hd')
  cases hnegative

end RoundTrips

end CompactNumbers
