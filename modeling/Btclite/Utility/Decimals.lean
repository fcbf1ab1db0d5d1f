import Btclite.Utility.HexTexts
import Mathlib.Data.List.TakeWhile

/-!
# Texts of decimal digits

`DecodeInt32` and its siblings of `string_encoding.cpp`. The C functions they call
skip white space, take a sign, stop at the first character that is no digit and
keep to 64 bits. What the four accept besides that is a numeral, and the number
that it stands for fits.
-/

namespace Decimals

open HexTexts

section Conversion

/-- What a C function sees of a string. -/
def cStr (str : List Char) : List Char := str.takeWhile (· ≠ '\x00')

/-- The number that was converted, where that stopped, and whether `errno` is set. -/
structure Conversion where
  n : Int
  endp : List Char
  errno : Bool

def stripSign : List Char → Bool × List Char
  | '-' :: s => (true, s)
  | '+' :: s => (false, s)
  | s => (false, s)

/-- The sign, the digits and what is left; none if there are no digits. -/
def scan (nptr : List Char) : Option (Bool × Nat × List Char) :=
  let (negative, s) := stripSign (nptr.dropWhile isspace)
  let digits := s.takeWhile Char.isDigit
  if digits = [] then none
  else some (negative, Nat.ofDigitChars 10 digits 0, s.dropWhile Char.isDigit)

/-- `strtol` and `strtoll` in base 10. -/
def strtol (nptr : List Char) : Conversion :=
  match scan nptr with
  | none => ⟨0, nptr, false⟩
  | some (negative, n, endp) =>
    let value : Int := if negative then -n else n
    if value < -2 ^ 63 then ⟨-2 ^ 63, endp, true⟩
    else if 2 ^ 63 ≤ value then ⟨2 ^ 63 - 1, endp, true⟩
    else ⟨value, endp, false⟩

/-- `strtoul` and `strtoull` in base 10, which negate modulo their range. -/
def strtoul (nptr : List Char) : Conversion :=
  match scan nptr with
  | none => ⟨0, nptr, false⟩
  | some (negative, n, endp) =>
    if 2 ^ 64 ≤ n then ⟨2 ^ 64 - 1, endp, true⟩
    else ⟨if negative then (2 ^ 64 - n) % 2 ^ 64 else n, endp, false⟩

end Conversion

section Decoding

def parsePrechecks (str : List Char) : Bool :=
  if str.isEmpty then false
  else if str.head?.any isspace || str.getLast?.any isspace then false
  else if str.length ≠ (cStr str).length then false
  else true

/-- What the four do with the number, and what they write. -/
def decode (w : Nat) (convert : List Char → Conversion) (fits : Int → Bool) (str : List Char) :
    Bool × Option (BitVec w) :=
  let c := convert (cStr str)
  (c.endp.isEmpty && !c.errno && fits c.n, some (BitVec.ofInt w c.n))

def decodeInt32 (str : List Char) : Bool × Option (BitVec 32) :=
  if !parsePrechecks str then (false, none)
  else decode 32 strtol (fun n => -2 ^ 31 ≤ n && n ≤ 2 ^ 31 - 1) str

def decodeInt64 (str : List Char) : Bool × Option (BitVec 64) :=
  if !parsePrechecks str then (false, none)
  else decode 64 strtol (fun n => -2 ^ 63 ≤ n && n ≤ 2 ^ 63 - 1) str

def decodeUint32 (str : List Char) : Bool × Option (BitVec 32) :=
  if !parsePrechecks str then (false, none)
  else if 1 ≤ str.length && str.head? == some '-' then (false, none)
  else decode 32 strtoul (fun n => n ≤ 2 ^ 32 - 1) str

def decodeUint64 (str : List Char) : Bool × Option (BitVec 64) :=
  if !parsePrechecks str then (false, none)
  else if 1 ≤ str.length && str.head? == some '-' then (false, none)
  else decode 64 strtoul (fun n => n ≤ 2 ^ 64 - 1) str

end Decoding

section Numerals

/-- One digit at least, and nothing else. -/
def Digits (ds : List Char) : Prop := ds ≠ [] ∧ ∀ c ∈ ds, c.isDigit = true

/-- A number in decimal digits, with a sign or without. -/
inductive Numeral : List Char → Int → Prop
  | plain {ds : List Char} (digits : Digits ds) : Numeral ds (Nat.ofDigitChars 10 ds 0)
  | plus {ds : List Char} (digits : Digits ds) : Numeral ('+' :: ds) (Nat.ofDigitChars 10 ds 0)
  | minus {ds : List Char} (digits : Digits ds) : Numeral ('-' :: ds) (-Nat.ofDigitChars 10 ds 0)

variable {s ds : List Char} {c : Char} {n : Int}

theorem not_isspace_of_isDigit (h : c.isDigit = true) : isspace c = false := by
  rw [Char.isDigit_iff_toNat] at h
  have hbounds : '0'.toNat = 48 ∧ '9'.toNat = 57 := by decide
  rw [Bool.eq_false_iff, Ne, isspace_iff]
  omega

theorem ne_of_isDigit (h : c.isDigit = true) : c ≠ '-' ∧ c ≠ '+' ∧ c ≠ '\x00' := by
  refine ⟨?_, ?_, ?_⟩ <;>
    rintro rfl <;>
    exact absurd h (by decide)

/-- What passes the checks is neither empty nor padded and has no zero in it. -/
theorem parsePrechecks_iff : parsePrechecks s = true ↔
    s ≠ [] ∧ s.head?.any isspace = false ∧ s.getLast?.any isspace = false ∧ cStr s = s := by
  have hwhole : (cStr s).length = s.length ↔ cStr s = s :=
    ⟨fun h => (List.takeWhile_prefix _).eq_of_length h, fun h => congrArg _ h⟩
  rw [parsePrechecks]
  split_ifs with hempty hpadded hzero
  · simp [List.isEmpty_iff.mp hempty]
  · simp only [Bool.or_eq_true] at hpadded
    rcases hpadded with h | h <;> simp [h]
  · refine iff_of_false (by simp) fun h => ?_
    exact hzero (congrArg _ h.2.2.2).symm
  · refine iff_of_true rfl ⟨?_, ?_, ?_, ?_⟩
    · exact fun h => hempty (List.isEmpty_iff.mpr h)
    · simp only [Bool.or_eq_true, not_or, Bool.not_eq_true] at hpadded
      exact hpadded.1
    · simp only [Bool.or_eq_true, not_or, Bool.not_eq_true] at hpadded
      exact hpadded.2
    · exact hwhole.mp (not_not.mp hzero).symm

theorem Numeral.tail_digits (h : Numeral s n) : ∃ sign ds, s = sign ++ ds ∧ Digits ds ∧
    (sign = [] ∨ sign = ['+'] ∨ sign = ['-']) := by
  cases h with
  | plain digits => exact ⟨[], _, rfl, digits, Or.inl rfl⟩
  | plus digits => exact ⟨['+'], _, rfl, digits, Or.inr (Or.inl rfl)⟩
  | minus digits => exact ⟨['-'], _, rfl, digits, Or.inr (Or.inr rfl)⟩

theorem Numeral.prechecks (h : Numeral s n) : parsePrechecks s = true := by
  obtain ⟨sign, ds, rfl, ⟨hne, hdigits⟩, hsign⟩ := h.tail_digits
  have hchars : ∀ c ∈ sign ++ ds, isspace c = false ∧ c ≠ '\x00' := by
    intro c hc
    rcases List.mem_append.mp hc with hc | hc
    · rcases hsign with rfl | rfl | rfl
      · cases hc
      · obtain rfl := List.mem_singleton.mp hc
        decide
      · obtain rfl := List.mem_singleton.mp hc
        decide
    · exact ⟨not_isspace_of_isDigit (hdigits c hc), (ne_of_isDigit (hdigits c hc)).2.2⟩
  refine parsePrechecks_iff.mpr ⟨by simp [hne], ?_, ?_, ?_⟩
  · cases hhead : (sign ++ ds).head? with
    | none => rfl
    | some c => exact (hchars c (List.mem_of_head? hhead)).1
  · cases hlast : (sign ++ ds).getLast? with
    | none => rfl
    | some c => exact (hchars c (List.mem_of_getLast? hlast)).1
  · rw [cStr, List.takeWhile_eq_self_iff]
    exact fun c hc => by simpa using (hchars c hc).2

theorem stripSign_of_digits (h : Digits s) : stripSign s = (false, s) := by
  obtain ⟨c, s, rfl⟩ := List.exists_cons_of_ne_nil h.1
  have hc := ne_of_isDigit (h.2 c List.mem_cons_self)
  rw [stripSign]
  · rintro _ hminus
    exact hc.1 (List.cons.inj hminus).1
  · rintro _ hplus
    exact hc.2.1 (List.cons.inj hplus).1

theorem numeral_iff : Numeral s n ↔ Digits (stripSign s).2 ∧
    n = if (stripSign s).1 then -(Nat.ofDigitChars 10 (stripSign s).2 0 : Int)
      else Nat.ofDigitChars 10 (stripSign s).2 0 := by
  constructor
  · rintro (digits | digits | digits)
    · rw [stripSign_of_digits digits]
      exact ⟨digits, rfl⟩
    · exact ⟨digits, rfl⟩
    · exact ⟨digits, rfl⟩
  · rintro ⟨digits, rfl⟩
    unfold stripSign at digits ⊢
    split at digits
    · exact .minus digits
    · exact .plus digits
    · exact .plain digits

theorem dropWhile_isspace (hspace : s.head?.any isspace = false) : s.dropWhile isspace = s := by
  cases s with
  | nil => rfl
  | cons c s =>
    have hc : isspace c = false := hspace
    rw [List.dropWhile_cons_of_neg (by simp [hc])]

/-- All of a text is converted if there is nothing but digits behind its sign. -/
theorem scan_eq_some_iff (hspace : s.head?.any isspace = false) {negative : Bool} {m : Nat} :
    scan s = some (negative, m, []) ↔ Digits (stripSign s).2 ∧ negative = (stripSign s).1 ∧
      m = Nat.ofDigitChars 10 (stripSign s).2 0 := by
  rw [scan, dropWhile_isspace hspace]
  obtain ⟨sign, rest⟩ := stripSign s
  dsimp only
  by_cases hall : ∀ c ∈ rest, c.isDigit = true
  · rw [List.takeWhile_eq_self_iff.mpr hall, List.dropWhile_eq_nil_iff.mpr hall]
    split_ifs with hempty
    · exact iff_of_false (by simp) fun h => h.1.1 hempty
    · simp only [Option.some.injEq, Prod.mk.injEq, and_true]
      exact ⟨fun h => ⟨⟨hempty, hall⟩, h.1.symm, h.2.symm⟩, fun h => ⟨h.2.1.symm, h.2.2.symm⟩⟩
  · refine iff_of_false ?_ fun h => hall h.1.2
    split_ifs
    · simp
    · intro h
      have hend : rest.dropWhile Char.isDigit = [] :=
        (Prod.mk.inj (Prod.mk.inj (Option.some.inj h)).2).2
      exact hall (List.dropWhile_eq_nil_iff.mp hend)

end Numerals

section Acceptance

variable {s : List Char} {z : Int}

/-- All of the text was converted, and the number did not leave the range. -/
def Accepts (c : Conversion) (z : Int) : Prop := c.endp = [] ∧ c.errno = false ∧ c.n = z

/-- What the conversion of a text is read off: its sign, its digits and what is left. -/
theorem numeral_iff_scan (hspace : s.head?.any isspace = false) : Numeral s z ↔
    ∃ negative m, scan s = some (negative, m, []) ∧ z = if negative then -(m : Int) else m := by
  rw [numeral_iff]
  constructor
  · rintro ⟨digits, rfl⟩
    exact ⟨_, _, (scan_eq_some_iff hspace).mpr ⟨digits, rfl, rfl⟩, rfl⟩
  · rintro ⟨negative, m, hscan, rfl⟩
    obtain ⟨digits, rfl, rfl⟩ := (scan_eq_some_iff hspace).mp hscan
    exact ⟨digits, rfl⟩

theorem strtol_accepts_iff (hne : s ≠ []) (hspace : s.head?.any isspace = false) :
    Accepts (strtol s) z ↔ Numeral s z ∧ -2 ^ 63 ≤ z ∧ z < 2 ^ 63 := by
  rw [numeral_iff_scan hspace, strtol]
  cases hscan : scan s with
  | none => simp [Accepts, hne]
  | some r =>
    obtain ⟨negative, m, endp⟩ := r
    simp only [Option.some.injEq, Prod.mk.injEq]
    generalize hvalue : (if negative = true then -(m : Int) else m) = value
    split_ifs with hlow hhigh
    · refine iff_of_false (by simp [Accepts]) ?_
      rintro ⟨⟨_, _, ⟨rfl, rfl, -⟩, rfl⟩, hbound⟩
      omega
    · refine iff_of_false (by simp [Accepts]) ?_
      rintro ⟨⟨_, _, ⟨rfl, rfl, -⟩, rfl⟩, hbound⟩
      omega
    · constructor
      · rintro ⟨rfl, -, hz⟩
        obtain rfl : value = z := hz
        exact ⟨⟨negative, m, ⟨rfl, rfl, rfl⟩, hvalue.symm⟩, by omega, by omega⟩
      · rintro ⟨⟨_, _, ⟨rfl, rfl, rfl⟩, rfl⟩, -⟩
        exact ⟨rfl, rfl, hvalue.symm⟩

theorem stripSign_fst (hplus : s.head? ≠ some '-') : (stripSign s).1 = false := by
  unfold stripSign
  split
  · exact absurd rfl hplus
  · rfl
  · rfl

theorem scan_sign (hspace : s.head?.any isspace = false) (hplus : s.head? ≠ some '-')
    {negative : Bool} {m : Nat} {endp : List Char} (h : scan s = some (negative, m, endp)) :
    negative = false := by
  rw [scan, dropWhile_isspace hspace] at h
  dsimp only at h
  split_ifs at h
  exact (Prod.mk.inj (Option.some.inj h)).1.symm.trans (stripSign_fst hplus)

theorem strtoul_accepts_iff (hne : s ≠ []) (hspace : s.head?.any isspace = false)
    (hplus : s.head? ≠ some '-') :
    Accepts (strtoul s) z ↔ Numeral s z ∧ 0 ≤ z ∧ z < 2 ^ 64 := by
  rw [numeral_iff_scan hspace, strtoul]
  cases hscan : scan s with
  | none => simp [Accepts, hne]
  | some r =>
    obtain ⟨negative, m, endp⟩ := r
    obtain rfl : negative = false := scan_sign hspace hplus hscan
    simp only [Option.some.injEq, Prod.mk.injEq, Bool.false_eq_true, if_false]
    split_ifs with hhigh
    · refine iff_of_false (by simp [Accepts]) ?_
      rintro ⟨⟨_, _, ⟨rfl, rfl, -⟩, rfl⟩, hbound⟩
      simp only [Bool.false_eq_true, if_false] at hbound
      omega
    · constructor
      · rintro ⟨rfl, -, hz⟩
        obtain rfl : (m : Int) = z := hz
        exact ⟨⟨false, m, ⟨rfl, rfl, rfl⟩, rfl⟩, by omega, by omega⟩
      · rintro ⟨⟨_, _, ⟨rfl, rfl, rfl⟩, rfl⟩, -⟩
        exact ⟨rfl, rfl, rfl⟩

end Acceptance

section Readers

variable {w : Nat} {s : List Char} {n : Int}

/-- Exactly these values are read, and each is written as it is. -/
def Reads (out : Bool × Option (BitVec w)) (P : BitVec w → Prop) : Prop :=
  (out.1 = true ↔ ∃ v, P v) ∧ ∀ v, P v → out = (true, some v)

theorem reads_of_false {P : BitVec w → Prop} {out : Option (BitVec w)} (h : ∀ v, ¬ P v) :
    Reads (false, out) P :=
  ⟨iff_of_false Bool.false_ne_true fun ⟨v, hv⟩ => h v hv, fun v hv => absurd hv (h v)⟩

/-- Where the range of a conversion covers that of the type, the type's own is what counts. -/
theorem decode_reads {convert : List Char → Conversion} {fits : Int → Bool}
    {num : BitVec w → Int} (hnum : ∀ v, BitVec.ofInt w (num v) = v)
    (hconvert : ∀ z, Accepts (convert (cStr s)) z ∧ fits z = true ↔
      Numeral s z ∧ ∃ v, num v = z) :
    Reads (decode w convert fits s) fun v => Numeral s (num v) := by
  have hresult : ∀ v, Numeral s (num v) → decode w convert fits s = (true, some v) := by
    intro v hv
    obtain ⟨⟨hend, herrno, hn⟩, hfits⟩ := (hconvert (num v)).mpr ⟨hv, v, rfl⟩
    rw [decode, hend, herrno, hn, hfits, hnum]
    rfl
  refine ⟨⟨fun h => ?_, fun ⟨v, hv⟩ => by rw [hresult v hv]⟩, hresult⟩
  simp only [decode, Bool.and_eq_true, List.isEmpty_iff, Bool.not_eq_true'] at h
  obtain ⟨⟨hend, herrno⟩, hfits⟩ := h
  obtain ⟨hnumeral, v, hv⟩ := (hconvert _).mp ⟨⟨hend, herrno, rfl⟩, hfits⟩
  rw [← hv] at hnumeral
  exact ⟨v, hnumeral⟩

theorem toInt_range (hw : 0 < w) {z : Int} :
    (∃ v : BitVec w, v.toInt = z) ↔ -2 ^ (w - 1) ≤ z ∧ z < 2 ^ (w - 1) := by
  constructor
  · rintro ⟨v, rfl⟩
    exact ⟨BitVec.le_toInt v, BitVec.toInt_lt⟩
  · rintro ⟨hlow, hhigh⟩
    exact ⟨BitVec.ofInt w z, BitVec.toInt_ofInt_eq_self hw hlow hhigh⟩

theorem toNat_range {z : Int} : (∃ v : BitVec w, (v.toNat : Int) = z) ↔ 0 ≤ z ∧ z < 2 ^ w := by
  constructor
  · rintro ⟨v, rfl⟩
    exact ⟨Int.natCast_nonneg _, by exact_mod_cast v.isLt⟩
  · rintro ⟨hlow, hhigh⟩
    obtain ⟨n, rfl⟩ := Int.eq_ofNat_of_zero_le hlow
    have hn : n < 2 ^ w := by exact_mod_cast hhigh
    exact ⟨BitVec.ofNat w n, by rw [BitVec.toNat_ofNat, Nat.mod_eq_of_lt hn]⟩

theorem decode_strtol (hchecks : parsePrechecks s = true) {fits : Int → Bool}
    (hfits : ∀ z, (-2 ^ 63 ≤ z ∧ z < 2 ^ 63) ∧ fits z = true ↔ ∃ v : BitVec w, v.toInt = z) :
    Reads (decode w strtol fits s) fun v => Numeral s v.toInt := by
  obtain ⟨hne, hspace, -, hcstr⟩ := parsePrechecks_iff.mp hchecks
  refine decode_reads (fun v => BitVec.ofInt_toInt) fun z => ?_
  rw [hcstr, strtol_accepts_iff hne hspace, and_assoc, hfits]

theorem decode_strtoul (hchecks : parsePrechecks s = true) (hplus : s.head? ≠ some '-')
    {fits : Int → Bool}
    (hfits : ∀ z, (0 ≤ z ∧ z < 2 ^ 64) ∧ fits z = true ↔ ∃ v : BitVec w, (v.toNat : Int) = z) :
    Reads (decode w strtoul fits s) fun v => Numeral s v.toNat := by
  obtain ⟨hne, hspace, -, hcstr⟩ := parsePrechecks_iff.mp hchecks
  refine decode_reads (fun v => ?_) fun z => ?_
  · rw [BitVec.ofInt_natCast, BitVec.ofNat_toNat, BitVec.setWidth_eq]
  · rw [hcstr, strtoul_accepts_iff hne hspace hplus, and_assoc, hfits]

theorem Reads.and_left {P : BitVec w → Prop} {out : Bool × Option (BitVec w)} {a : Prop}
    (ha : a) (h : Reads out P) : Reads out fun v => a ∧ P v := by
  simpa only [Reads, ha, true_and] using h

theorem decode_signed (str : List Char) {fits : Int → Bool}
    (hfits : ∀ z, (-2 ^ 63 ≤ z ∧ z < 2 ^ 63) ∧ fits z = true ↔ ∃ v : BitVec w, v.toInt = z) :
    Reads (if !parsePrechecks str then (false, none) else decode w strtol fits str)
      fun v => Numeral str v.toInt := by
  by_cases hchecks : parsePrechecks str = true
  · rw [hchecks, if_neg (by decide)]
    exact decode_strtol hchecks hfits
  · rw [Bool.not_eq_true] at hchecks
    rw [hchecks, if_pos (by decide)]
    exact reads_of_false fun v h => Bool.false_ne_true (hchecks.symm.trans h.prechecks)

/-- A minus is refused before anything is converted. -/
theorem decode_unsigned (str : List Char) {fits : Int → Bool}
    (hfits : ∀ z, (0 ≤ z ∧ z < 2 ^ 64) ∧ fits z = true ↔ ∃ v : BitVec w, (v.toNat : Int) = z) :
    Reads (if !parsePrechecks str then (false, none)
      else if 1 ≤ str.length && str.head? == some '-' then (false, none)
      else decode w strtoul fits str)
      fun v => str.head? ≠ some '-' ∧ Numeral str v.toNat := by
  by_cases hchecks : parsePrechecks str = true
  · rw [hchecks, if_neg (by decide)]
    by_cases hplus : str.head? = some '-'
    · have hlength : 1 ≤ str.length := List.length_pos_of_mem (List.mem_of_head? hplus)
      rw [if_pos (by simpa [hplus] using hlength)]
      exact reads_of_false fun v h => h.1 hplus
    · rw [if_neg (by simp [hplus])]
      exact (decode_strtoul hchecks hplus hfits).and_left hplus
  · rw [Bool.not_eq_true] at hchecks
    rw [hchecks, if_pos (by decide)]
    exact reads_of_false fun v h => Bool.false_ne_true (hchecks.symm.trans h.2.prechecks)

theorem decodeInt32_reads (str : List Char) :
    Reads (decodeInt32 str) fun v => Numeral str v.toInt := by
  refine decode_signed str fun z => ?_
  rw [toInt_range (by decide), Bool.and_eq_true, decide_eq_true_iff, decide_eq_true_iff]
  omega

/-- Each of the four reads exactly the numerals of its range, the unsigned ones those without
a minus, and writes the number that they stand for. -/
theorem decode_exact (str : List Char) :
    Reads (decodeInt32 str) (fun v => Numeral str v.toInt) ∧
    Reads (decodeInt64 str) (fun v => Numeral str v.toInt) ∧
    Reads (decodeUint32 str) (fun v => str.head? ≠ some '-' ∧ Numeral str v.toNat) ∧
    Reads (decodeUint64 str) (fun v => str.head? ≠ some '-' ∧ Numeral str v.toNat) := by
  refine ⟨decodeInt32_reads str, decode_signed str fun z => ?_, decode_unsigned str fun z => ?_,
    decode_unsigned str fun z => ?_⟩
  · rw [toInt_range (by decide), Bool.and_eq_true, decide_eq_true_iff, decide_eq_true_iff]
    omega
  all_goals
    rw [toNat_range, decide_eq_true_iff]
    omega

/-- A number is written in digits as it is read. -/
theorem numeral_toDigits (n : Nat) : Numeral (Nat.toDigits 10 n) n := by
  have hdigits : Digits (Nat.toDigits 10 n) :=
    ⟨Nat.toDigits_ne_nil, fun c hc => Nat.isDigit_of_mem_toDigits (by decide) (by decide) hc⟩
  have hnumeral := Numeral.plain hdigits
  rwa [Nat.ofDigitChars_ten_toDigits] at hnumeral

theorem Numeral.mem (h : Numeral s n) : ∀ c ∈ s, c.isDigit = true ∨ c = '+' ∨ c = '-' := by
  obtain ⟨sign, ds, rfl, ⟨-, hdigits⟩, hsign⟩ := h.tail_digits
  intro c hc
  rcases List.mem_append.mp hc with hc | hc
  · rcases hsign with rfl | rfl | rfl
    · cases hc
    · exact Or.inr (Or.inl (List.mem_singleton.mp hc))
    · exact Or.inr (Or.inr (List.mem_singleton.mp hc))
  · exact Or.inl (hdigits c hc)

end Readers

end Decimals
