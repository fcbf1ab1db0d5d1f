import Btclite.Consensus.ScriptInts

/-!
# Reading script numbers

`ScriptInt` reads at most four bytes as a magnitude with a sign, and where it is asked to
it takes only the bytes that a number is written as. But the fourth byte is shifted into
the sign of a word of 32 bits, so that a negative number of four bytes is read as one that
is larger by 2 to the power of 32, and no bytes are read as what was in memory.
-/

namespace ScriptNumbers

open Endian Serialize ScriptInts

section Numbers

variable {front bytes : List Byte} {top : Byte} {n : Int}

/-- The digits without the sign. -/
def magnitudeOf (bytes : List Byte) : Nat := Nat.ofDigits 256 (bytes.map BitVec.toNat)

/-- The number that bytes stand for, lowest first, with the sign in the highest bit. -/
def signedValue (bytes : List Byte) : Int :=
  match bytes.getLast? with
  | none => 0
  | some top =>
    if top &&& 0x80 ≠ 0 then -(magnitudeOf (bytes.dropLast ++ [top &&& 0x7f]) : Int)
    else magnitudeOf (bytes.dropLast ++ [top &&& 0x7f])

/-- The bytes that a number is written as. -/
def Canonical (bytes : List Byte) : Prop := ∃ n : Int, bytes = signMagnitude n

/-- The highest byte holds nothing but the sign, and would not have been needed for it. -/
def Padded (front : List Byte) (top : Byte) : Prop :=
  top &&& 0x7f = 0 ∧ ∀ last, front.getLast? = some last → last &&& 0x80 = 0

theorem rest_toNat (b : Byte) : (b &&& 0x7f).toNat = b.toNat % 128 := by
  rw [BitVec.toNat_and]
  exact Nat.and_two_pow_sub_one_eq_mod b.toNat 7

theorem sign_set_iff (b : Byte) : b &&& 0x80 ≠ 0 ↔ 128 ≤ b.toNat := by
  rw [ne_eq, sign_clear_iff, Nat.not_lt]

theorem signed_toNat (b : Byte) (h : b.toNat < 128) : (b ||| 0x80).toNat = b.toNat + 128 := by
  rw [BitVec.toNat_or, Nat.or_comm]
  exact (Nat.two_pow_add_eq_or_of_lt (i := 7) h 1).symm.trans (Nat.add_comm _ _)

theorem magnitudeOf_concat (front : List Byte) (top : Byte) :
    magnitudeOf (front ++ [top]) = magnitudeOf front + 256 ^ front.length * top.toNat := by
  rw [magnitudeOf, List.map_append, Nat.ofDigits_append, List.length_map]
  rfl

theorem magnitudeOf_lt (bytes : List Byte) : magnitudeOf bytes < 256 ^ bytes.length := by
  have hlt := Nat.ofDigits_lt_base_pow_length (b := 256) (l := bytes.map BitVec.toNat) (by decide)
    fun d hd => by
      obtain ⟨b, -, rfl⟩ := List.mem_map.mp hd
      exact b.isLt
  rwa [List.length_map] at hlt

theorem magnitudeOf_digitBytes (n : Nat) : magnitudeOf (digitBytes n) = n :=
  ofDigits_digitBytes n

/-- Bytes whose highest is not zero are the digits of their magnitude. -/
theorem digitBytes_magnitudeOf (h : 0 < top.toNat) :
    digitBytes (magnitudeOf (front ++ [top])) = front ++ [top] := by
  rw [digitBytes, magnitudeOf, Nat.digits_ofDigits 256 (by decide)]
  · rw [List.map_map]
    refine (List.map_congr_left fun b _ => ?_).trans (List.map_id _)
    exact (BitVec.ofNat_toNat 8 b).trans (BitVec.setWidth_eq b)
  · intro d hd
    obtain ⟨b, -, rfl⟩ := List.mem_map.mp hd
    exact b.isLt
  · intro hne
    simp [h.ne']

theorem signedValue_concat (front : List Byte) (top : Byte) : signedValue (front ++ [top]) =
    if top &&& 0x80 ≠ 0 then -(magnitudeOf (front ++ [top &&& 0x7f]) : Int)
    else magnitudeOf (front ++ [top &&& 0x7f]) := by
  rw [signedValue, List.getLast?_concat, List.dropLast_concat]

theorem signMagnitude_eq (h : digitBytes n.natAbs = front ++ [top]) : signMagnitude n =
    if top &&& 0x80 ≠ 0 then front ++ [top] ++ [if n < 0 then 0x80 else 0]
    else front ++ [if n < 0 then top ||| 0x80 else top] := by
  rw [signMagnitude, h, List.getLast?_concat, List.dropLast_concat]

theorem signMagnitude_zero : signMagnitude 0 = [] := rfl

theorem magnitudeOf_pos (h : 0 < top.toNat) : 0 < magnitudeOf (front ++ [top]) := by
  rw [magnitudeOf_concat]
  have hplace : 0 < 256 ^ front.length * top.toNat := Nat.mul_pos (Nat.pow_pos (by decide)) h
  omega

/-- Bytes that are not padded are what their number is written as. -/
theorem signMagnitude_signedValue (h : ¬ Padded front top) :
    signMagnitude (signedValue (front ++ [top])) = front ++ [top] := by
  have hrest := rest_toNat top
  have htop := top.isLt
  have hsign := sign_set_iff top
  rw [signedValue_concat]
  by_cases hzero : top &&& 0x7f = 0
  · -- the highest byte is there for the sign alone
    obtain ⟨last, hlast, hset⟩ : ∃ last, front.getLast? = some last ∧ ¬ last &&& 0x80 = 0 := by
      by_contra hno
      refine h ⟨hzero, fun last hlast => ?_⟩
      by_contra hset
      exact hno ⟨last, hlast, hset⟩
    obtain ⟨init, rfl⟩ := List.getLast?_eq_some_iff.mp hlast
    have hpos : 0 < last.toNat := by
      have hlarge := (sign_set_iff last).mp hset
      omega
    have hsame : magnitudeOf (init ++ [last] ++ [0]) = magnitudeOf (init ++ [last]) := by
      rw [magnitudeOf_concat]
      rfl
    have hm : 0 < magnitudeOf (init ++ [last]) := magnitudeOf_pos hpos
    have hdigits : digitBytes (magnitudeOf (init ++ [last])) = init ++ [last] :=
      digitBytes_magnitudeOf hpos
    rw [hzero, hsame]
    rw [hzero] at hrest
    have hrest' : top.toNat % 128 = 0 := hrest.symm
    split_ifs with hset'
    · rw [signMagnitude_eq (by rwa [Int.natAbs_neg, Int.natAbs_natCast]), if_pos hset,
        if_pos (by omega)]
      congr 2
      refine BitVec.eq_of_toNat_eq (?_ : 128 = top.toNat)
      have := hsign.mp hset'
      omega
    · rw [signMagnitude_eq (by rwa [Int.natAbs_natCast]), if_pos hset, if_neg (by omega)]
      congr 2
      refine BitVec.eq_of_toNat_eq (?_ : 0 = top.toNat)
      have := mt hsign.mpr hset'
      omega
  · have hpos : 0 < (top &&& 0x7f).toNat :=
      Nat.pos_of_ne_zero fun h0 => hzero (BitVec.eq_of_toNat_eq h0)
    have hclear : ¬ (top &&& 0x7f) &&& 0x80 ≠ 0 := by
      rw [sign_set_iff]
      omega
    have hm : 0 < magnitudeOf (front ++ [top &&& 0x7f]) := magnitudeOf_pos hpos
    have hdigits : digitBytes (magnitudeOf (front ++ [top &&& 0x7f])) = front ++ [top &&& 0x7f] :=
      digitBytes_magnitudeOf hpos
    split_ifs with hset'
    · rw [signMagnitude_eq (by rwa [Int.natAbs_neg, Int.natAbs_natCast]), if_neg hclear,
        if_pos (by omega)]
      congr 2
      apply BitVec.eq_of_toNat_eq
      rw [signed_toNat _ (by omega), hrest]
      have := hsign.mp hset'
      omega
    · rw [signMagnitude_eq (by rwa [Int.natAbs_natCast]), if_neg hclear, if_neg (by omega)]
      congr 2
      apply BitVec.eq_of_toNat_eq
      rw [hrest]
      have := mt hsign.mpr hset'
      omega

/-- What a number is written as is not padded, and stands for it. -/
theorem signMagnitude_spec (h : signMagnitude n = front ++ [top]) :
    ¬ Padded front top ∧ signedValue (front ++ [top]) = n := by
  have hn : 0 < n.natAbs := by
    refine Int.natAbs_pos.mpr ?_
    rintro rfl
    rw [signMagnitude_zero] at h
    exact absurd h (by simp)
  obtain ⟨f, t, hdigits, hpos⟩ := digitBytes_top hn
  have hvalue := magnitudeOf_digitBytes n.natAbs
  rw [hdigits] at hvalue
  have ht := t.isLt
  rw [signMagnitude_eq hdigits] at h
  rw [signedValue_concat]
  by_cases hset : t &&& 0x80 ≠ 0
  · rw [if_pos hset] at h
    obtain ⟨rfl, hlast⟩ := List.append_inj' h rfl
    obtain rfl : (if n < 0 then 0x80 else 0 : Byte) = top := List.singleton_inj.mp hlast
    refine ⟨fun hpadded => hset (hpadded.2 t List.getLast?_concat), ?_⟩
    have hrest : (if n < 0 then 0x80 else 0 : Byte) &&& 0x7f = 0 := by split_ifs <;> rfl
    have hsame : magnitudeOf (f ++ [t] ++ [0]) = n.natAbs := by
      rw [magnitudeOf_concat]
      exact hvalue
    rw [hrest, hsame]
    by_cases hneg : n < 0
    · rw [if_pos hneg, if_pos (by decide)]
      omega
    · rw [if_neg hneg, if_neg (by decide)]
      omega
  · rw [if_neg hset] at h
    obtain ⟨rfl, hlast⟩ := List.append_inj' h rfl
    obtain rfl : (if n < 0 then t ||| 0x80 else t) = top := List.singleton_inj.mp hlast
    have hsmall : t.toNat < 128 := by
      rw [sign_set_iff] at hset
      omega
    have hrest : (if n < 0 then t ||| 0x80 else t) &&& 0x7f = t := by
      apply BitVec.eq_of_toNat_eq
      rw [rest_toNat]
      split_ifs
      · rw [signed_toNat t hsmall]
        omega
      · exact Nat.mod_eq_of_lt hsmall
    rw [hrest, hvalue]
    refine ⟨?_, ?_⟩
    · rintro ⟨hzero, -⟩
      rw [hrest] at hzero
      rw [hzero] at hpos
      exact absurd hpos (by decide)
    · by_cases hneg : n < 0
      · have hlarge := signed_toNat t hsmall
        rw [if_pos hneg, if_pos ((sign_set_iff _).mpr (by omega))]
        omega
      · rw [if_neg hneg, if_neg hset]
        omega

theorem canonical_iff : Canonical (front ++ [top]) ↔ ¬ Padded front top := by
  constructor
  · rintro ⟨n, hn⟩
    exact (signMagnitude_spec hn.symm).1
  · exact fun h => ⟨_, (signMagnitude_signedValue h).symm⟩

theorem signMagnitude_eq_nil_iff : signMagnitude n = [] ↔ n = 0 := by
  refine ⟨fun h => ?_, fun h => by rw [h, signMagnitude_zero]⟩
  by_contra hne
  obtain ⟨f, t, hdigits, -⟩ := digitBytes_top (Int.natAbs_pos.mpr hne)
  rw [signMagnitude_eq hdigits] at h
  split_ifs at h <;> exact absurd h (by simp)

end Numbers

section Decoding

variable {front : List Byte} {top : Byte} {memory : I64}

/-- What the bytes are read as, as the sign of the word and that of the number are taken. -/
def readValue (front : List Byte) (top : Byte) : Int :=
  if top &&& 0x80 ≠ 0 then
    2 ^ (8 * front.length + 7) - (fromLittleEndian 32 (front ++ [top])).toInt
  else (fromLittleEndian 32 (front ++ [top])).toInt

/-- A negative number that takes all of the bytes there may be. -/
def FullNegative (bytes : List Byte) : Prop :=
  bytes.length = maxSize ∧ ∃ top, bytes.getLast? = some top ∧ top &&& 0x80 ≠ 0

theorem fullNegative_concat :
    FullNegative (front ++ [top]) ↔ front.length = 3 ∧ top &&& 0x80 ≠ 0 := by
  rw [FullNegative, List.getLast?_concat, List.length_append, List.length_singleton, maxSize]
  refine and_congr (by omega) ⟨?_, fun h => ⟨top, rfl, h⟩⟩
  rintro ⟨top', hsame, hset⟩
  obtain rfl := Option.some.inj hsame
  exact hset

/-- Clearing bits that are all set takes their number away. -/
theorem and_not_eq_sub {w : Nat} {y z : BitVec w} (h : y &&& z = z) : y &&& ~~~z = y - z := by
  have hapart : (y &&& ~~~z) &&& (y &&& z) = 0#w := by
    rw [h, BitVec.and_assoc, BitVec.not_and_self]
    exact BitVec.and_zero
  have hsplit : (y &&& ~~~z) + z = y := by
    calc (y &&& ~~~z) + z = (y &&& ~~~z) + (y &&& z) := by rw [h]
      _ = (y &&& ~~~z) ||| (y &&& z) := BitVec.add_eq_or_of_and_eq_zero _ _ hapart
      _ = y := by rw [← BitVec.and_or_distrib_left, BitVec.or_comm, BitVec.or_not_self,
          BitVec.and_allOnes]
  exact BitVec.eq_sub_iff_add_eq.mpr hsplit

theorem place_eq (k : Nat) : 0x80#64 <<< k = BitVec.twoPow 64 (7 + k) := by
  have hone : 0x80#64 = 1#64 <<< 7 := by decide
  rw [hone, ← BitVec.shiftLeft_add, BitVec.twoPow_eq]

/-- The word that is read has the sign of the highest byte at its place. -/
theorem sign_at_place (hlen : front.length ≤ 3) (hset : top &&& 0x80 ≠ 0) :
    (fromLittleEndian 32 (front ++ [top])).signExtend 64 &&& (0x80#64 <<< (8 * front.length)) =
      0x80#64 <<< (8 * front.length) := by
  have htop : top.getLsbD 7 = true := by
    have hlarge := (sign_set_iff top).mp hset
    have hone : top.toNat / 2 ^ 7 = 1 := by omega
    rw [BitVec.getLsbD, Nat.testBit_eq_decide_div_mod_eq, hone]
    rfl
  have hbit : ((fromLittleEndian 32 (front ++ [top])).signExtend 64).getLsbD
      (7 + 8 * front.length) = true := by
    have hdiv : (7 + 8 * front.length) / 8 = front.length := by omega
    have hmod : (7 + 8 * front.length) % 8 = 7 := by omega
    have hlast : (front ++ [top]).getD front.length 0#8 = top := by simp
    rw [BitVec.getLsbD_signExtend, if_pos (by omega), fromLittleEndian_getLsbD, hdiv, hmod, hlast,
      htop, decide_eq_true (by omega), decide_eq_true (by omega)]
    rfl
  rw [place_eq, BitVec.and_twoPow, hbit, if_pos rfl]

theorem padded_iff : Padded front top ↔ top &&& 0x7f = 0 ∧ ((front ++ [top]).length < 2 ∨
    (front ++ [top])[(front ++ [top]).length - 2]?.getD 0 &&& 0x80 = 0) := by
  rw [Padded]
  refine and_congr_right fun _ => ?_
  rcases front.eq_nil_or_concat with rfl | ⟨init, last, rfl⟩
  · exact iff_of_true (fun last h => by cases h) (Or.inl (Nat.lt_succ_self 1))
  · have hplace : (init ++ [last] ++ [top])[(init ++ [last] ++ [top]).length - 2]? =
        some last := by simp
    have hlong : ¬ (init ++ [last] ++ [top]).length < 2 := by simp
    rw [List.concat_eq_append, hplace, List.getLast?_concat, Option.getD_some, or_iff_right hlong]
    exact ⟨fun h => h last rfl, fun h last' hsame => Option.some.inj hsame ▸ h⟩

theorem not_long (hlen : front.length ≤ 3) : ¬ maxSize < (front ++ [top]).length := by
  rw [List.length_append, List.length_singleton, maxSize]
  omega

theorem ofBytes_padded (hlen : front.length ≤ 3) (h : Padded front top) :
    ofBytes memory (front ++ [top]) true = .error "non-minimally encoded script number" := by
  rw [ofBytes, List.getLast?_concat]
  dsimp only
  rw [if_neg (not_long hlen), if_pos ⟨rfl, padded_iff.mp h⟩]

theorem place_eq_ofInt {n : Nat} (hlen : n ≤ 3) :
    0x80#64 <<< (8 * n) = BitVec.ofInt 64 (2 ^ (8 * n + 7)) := by
  have hcast : (2 : Int) ^ (8 * n + 7) = ((2 ^ (8 * n + 7) : Nat) : Int) := by
    push_cast
    rfl
  apply BitVec.eq_of_toNat_eq
  rw [place_eq, BitVec.toNat_twoPow_of_lt (by omega), hcast, BitVec.ofInt_natCast,
    BitVec.toNat_ofNat, Nat.add_comm]
  exact (Nat.mod_eq_of_lt (Nat.pow_lt_pow_right (by decide) (by omega))).symm

/-- Bytes that are not too many are read if they are not padded, or may be. -/
theorem ofBytes_read (hlen : front.length ≤ 3) {minimal : Bool}
    (h : ¬ (minimal = true ∧ Padded front top)) : ofBytes memory (front ++ [top]) minimal =
      .ok ⟨BitVec.ofInt 64 (readValue front top)⟩ := by
  rw [padded_iff] at h
  have hplace : (front ++ [top]).length - 1 = front.length := by simp
  rw [ofBytes, List.getLast?_concat]
  dsimp only
  rw [if_neg (not_long hlen), if_neg h, orBytes_eq, readValue, hplace]
  split_ifs with hset
  · rw [and_not_eq_sub (sign_at_place hlen hset), BitVec.neg_sub, place_eq_ofInt hlen,
      BitVec.add_comm, Int.sub_eq_add_neg, BitVec.ofInt_add, BitVec.ofInt_neg]
    rfl
  · rfl

/-- The sign of a number of four bytes is that of the word as well, which makes the number
larger. -/
theorem readValue_eq (hlen : front.length ≤ 3) : readValue front top =
    signedValue (front ++ [top]) + if front.length = 3 ∧ top &&& 0x80 ≠ 0 then 2 ^ 32 else 0 := by
  have hword : (fromLittleEndian 32 (front ++ [top])).toNat =
      magnitudeOf front + 256 ^ front.length * top.toNat := by
    rw [← magnitudeOf_concat]
    refine fromLittleEndian_toNat ?_
    rw [List.length_append, List.length_singleton]
    omega
  have hfront := magnitudeOf_lt front
  have hplace : 2 ^ (8 * front.length + 7) = 128 * (256 : Int) ^ front.length := by
    rw [pow_add, pow_mul, mul_comm]
    norm_num
  have hrest := rest_toNat top
  have hsign := sign_set_iff top
  have htop := top.isLt
  rw [readValue, signedValue_concat, magnitudeOf_concat, BitVec.toInt_eq_toNat_cond, hword, hplace,
    hrest]
  simp only [hsign, ite_and]
  generalize magnitudeOf front = low at *
  generalize front.length = size at *
  -- so many bytes that each power is a number
  interval_cases size <;> split_ifs <;> push_cast <;> first | omega | contradiction

theorem toInt_readValue (hlen : front.length ≤ 3) :
    (BitVec.ofInt 64 (readValue front top)).toInt = readValue front top := by
  have hword := BitVec.toInt_lt (x := fromLittleEndian 32 (front ++ [top]))
  have hword' := BitVec.le_toInt (x := fromLittleEndian 32 (front ++ [top]))
  have hplace : (2 : Int) ^ (8 * front.length + 7) ≤ 2 ^ 31 :=
    pow_le_pow_right₀ (by norm_num) (by omega)
  have hpos : (0 : Int) ≤ 2 ^ (8 * front.length + 7) := by positivity
  rw [BitVec.toInt_ofInt]
  apply Int.bmod_eq_of_le <;> rw [readValue] <;> split_ifs <;> omega

end Decoding

section Claims

/-- What reading owes: with the shortest form asked for, it succeeds on just what numbers of
at most four bytes are written as, and gives the number; without, it gives the number that
any four bytes stand for. -/
def Meets (memory : I64) (bytes : List Byte) : Bool → Prop
  | true =>
    ((∃ s, ofBytes memory bytes true = .ok s) ↔ bytes.length ≤ maxSize ∧ Canonical bytes) ∧
      ∀ s n, ofBytes memory bytes true = .ok s → bytes = signMagnitude n → s.value.toInt = n
  | false => bytes.length ≤ maxSize →
      ∃ s, ofBytes memory bytes false = .ok s ∧ s.value.toInt = signedValue bytes

variable {front : List Byte} {top : Byte} {memory : I64}

theorem ofBytes_long {minimal : Bool} (hlen : ¬ front.length ≤ 3) :
    ofBytes memory (front ++ [top]) minimal = .error "script number overflow" := by
  have hlong : maxSize < (front ++ [top]).length := by
    rw [List.length_append, List.length_singleton, maxSize]
    omega
  rw [ofBytes, List.getLast?_concat]
  exact if_pos hlong

theorem meets_nil (minimal : Bool) : Meets memory [] minimal ↔ memory = 0 := by
  have hvalue : memory.toInt = 0 ↔ memory = 0 :=
    ⟨fun h => BitVec.eq_of_toInt_eq h, fun h => by rw [h]; rfl⟩
  cases minimal with
  | true =>
    constructor
    · rintro ⟨-, hread⟩
      exact hvalue.mp (hread ⟨memory⟩ 0 rfl rfl)
    · intro hzero
      refine ⟨iff_of_true ⟨⟨memory⟩, rfl⟩ ⟨Nat.zero_le _, 0, rfl⟩, ?_⟩
      rintro s n hs hn
      obtain rfl : ScriptInt.mk memory = s := Except.ok.inj hs
      rw [signMagnitude_eq_nil_iff.mp hn.symm]
      exact hvalue.mpr hzero
  | false =>
    constructor
    · intro hread
      obtain ⟨s, hs, hn⟩ := hread (Nat.zero_le _)
      obtain rfl : ScriptInt.mk memory = s := Except.ok.inj hs
      exact hvalue.mp hn
    · exact fun hzero _ => ⟨⟨memory⟩, rfl, hvalue.mpr hzero⟩

/-- Bytes that are read come out as their number exactly if they are not a negative number of
four bytes. -/
theorem value_iff (hlen : front.length ≤ 3) :
    (BitVec.ofInt 64 (readValue front top)).toInt = signedValue (front ++ [top]) ↔
      ¬ FullNegative (front ++ [top]) := by
  rw [toInt_readValue hlen, readValue_eq hlen, fullNegative_concat]
  split_ifs with hfull
  · exact iff_of_false (by omega) (not_not.mpr hfull)
  · exact iff_of_true (by omega) hfull

theorem length_le_iff : (front ++ [top]).length ≤ maxSize ↔ front.length ≤ 3 := by
  rw [List.length_append, List.length_singleton, maxSize]
  omega

theorem meets_long (hlen : ¬ front.length ≤ 3) (minimal : Bool) :
    Meets memory (front ++ [top]) minimal := by
  cases minimal with
  | true =>
    rw [Meets, ofBytes_long hlen, length_le_iff]
    refine ⟨iff_of_false ?_ fun h => hlen h.1, fun s n hs => by cases hs⟩
    rintro ⟨s, hs⟩
    cases hs
  | false => exact fun h => absurd (length_le_iff.mp h) hlen

theorem meets_padded (hlen : front.length ≤ 3) (h : Padded front top) :
    Meets memory (front ++ [top]) true := by
  rw [Meets, ofBytes_padded hlen h, canonical_iff]
  refine ⟨iff_of_false ?_ fun hcanonical => hcanonical.2 h, fun s n hs => by cases hs⟩
  rintro ⟨s, hs⟩
  cases hs

theorem meets_read (hlen : front.length ≤ 3) {minimal : Bool}
    (h : ¬ (minimal = true ∧ Padded front top)) :
    Meets memory (front ++ [top]) minimal ↔ ¬ FullNegative (front ++ [top]) := by
  rw [← value_iff hlen]
  have hread := @ofBytes_read front top memory hlen minimal h
  cases minimal with
  | true =>
    have hpadded : ¬ Padded front top := fun hp => h ⟨rfl, hp⟩
    rw [Meets, hread, length_le_iff,
      and_iff_right (iff_of_true ⟨_, rfl⟩ ⟨hlen, canonical_iff.mpr hpadded⟩)]
    constructor
    · exact fun hvalue => hvalue _ _ rfl (signMagnitude_signedValue hpadded).symm
    · rintro hvalue s n hs hn
      obtain rfl := Except.ok.inj hs
      exact hvalue.trans (signMagnitude_spec hn.symm).2
  | false =>
    rw [Meets, hread, length_le_iff]
    constructor
    · intro hvalue
      obtain ⟨s, hs, hn⟩ := hvalue hlen
      obtain rfl := Except.ok.inj hs
      exact hn
    · exact fun hvalue _ => ⟨_, rfl, hvalue⟩

/-- Reading is right exactly if there are bytes, or zero is in memory, and they are not a
negative number of four bytes, or are refused for being longer than it is written. -/
theorem meets_iff_not_full (memory : I64) (bytes : List Byte) (minimal : Bool) :
    Meets memory bytes minimal ↔ (bytes = [] → memory = 0) ∧
      (FullNegative bytes → minimal = true ∧ ¬ Canonical bytes) := by
  rcases bytes.eq_nil_or_concat with rfl | ⟨front, top, rfl⟩
  · rw [meets_nil]
    refine ⟨fun h => ⟨fun _ => h, fun hfull => ?_⟩, fun h => h.1 rfl⟩
    exact absurd hfull.1 (by decide)
  rw [List.concat_eq_append]
  have hne : front ++ [top] ≠ [] := by simp
  rw [and_iff_right fun h => absurd h hne, canonical_iff, not_not]
  by_cases hlen : front.length ≤ 3
  · by_cases hrefused : minimal = true ∧ Padded front top
    · obtain ⟨rfl, hpadded⟩ := hrefused
      exact iff_of_true (meets_padded hlen hpadded) fun _ => ⟨rfl, hpadded⟩
    · rw [meets_read hlen hrefused]
      exact ⟨fun h hfull => absurd hfull h, fun h hfull => hrefused (h hfull)⟩
  · exact iff_of_true (meets_long hlen minimal) fun hfull =>
      absurd (length_le_iff.mp hfull.1.le) hlen

/-- Minus one on four bytes, minus 2 to the power of 24 as it is written, and no bytes. -/
theorem full_negative_misread :
    ofBytes 0 [1, 0, 0, 0x80] false = .ok ⟨4294967295⟩ ∧ signedValue [1, 0, 0, 0x80] = -1 ∧
      ofBytes 0 [0, 0, 0, 0x81] true = .ok ⟨4278190080⟩ ∧
      signMagnitude (-16777216) = [0, 0, 0, 0x81] ∧ ¬ Meets 0 [0, 0, 0, 0x81] true ∧
      ofBytes 7 [] true = .ok ⟨7⟩ ∧ ¬ Meets 7 [] true := by
  have hwritten : signMagnitude (-16777216) = [0, 0, 0, 0x81] := by
    rw [signMagnitude, digitBytes, Int.natAbs_neg]
    norm_num
    rfl
  refine ⟨by decide, by decide, by decide, hwritten, ?_, rfl, ?_⟩
  · rintro ⟨-, hvalue⟩
    exact absurd (hvalue ⟨4278190080⟩ (-16777216) (by decide) hwritten.symm) (by decide)
  · rw [meets_nil]
    decide

end Claims

end ScriptNumbers
