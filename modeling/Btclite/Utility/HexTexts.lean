import Btclite.Library.Loops
import Btclite.Utility.Endian

/-!
# Texts of hexadecimal digits

`EncodeHex` and `DecodeHex` of `string_encoding.cpp`. An iterator is what is left of the
text from it on, with the zero that terminates the text as the last character there is.
Two digits next to each other make a byte, and so does one that is left alone.
-/

namespace HexTexts

open Endian Loops

inductive Fault where
  | outside
  | assertion
  | spent
deriving DecidableEq

section Characters

def isspace (c : Char) : Bool := c = ' ' || ('\t' ≤ c && c ≤ '\r')

def isxdigit (c : Char) : Bool :=
  ('0' ≤ c && c ≤ '9') || ('A' ≤ c && c ≤ 'F') || ('a' ≤ c && c ≤ 'f')

/-- `std::stoi` of one digit, in base 16. -/
def stoi (c : Char) : Nat :=
  if c ≤ '9' then c.toNat - '0'.toNat
  else if c ≤ 'F' then c.toNat - 'A'.toNat + 10
  else c.toNat - 'a'.toNat + 10

end Characters

section Decoding

/-- The text as it lies in memory. -/
def terminated (s : List Char) : List Char := s ++ ['\x00']

def atEnd (it : List Char) : Bool := it.length == 1

/-- `while (std::isspace(*it)) ++it`. -/
def skipSpace : List Char → Except Fault (List Char)
  | [] => .error .outside
  | c :: it => if isspace c then skipSpace it else .ok (c :: it)

def digit (c : Char) : Byte := BitVec.ofNat 8 (stoi c)

/-- One turn of the loop of `DecodeHex`, with the bytes found so far. -/
def decodeTurn (s : List Char × List Byte) :
    Except Fault (Turn (List Char × List Byte) (List Byte)) :=
  if atEnd s.1 then .ok (.leave s.2)
  else do
    match ← skipSpace s.1 with
    | [] => .error .outside
    | c :: it =>
      if isxdigit c then
        match it with
        | d :: e :: rest =>
          if isxdigit d then return .again (e :: rest, s.2 ++ [digit c <<< 4 ||| digit d])
          return .again (it, s.2 ++ [digit c])
        | _ => return .again (it, s.2 ++ [digit c])
      return .leave s.2

def decodeHex (s : List Char) : Except Fault (List Byte) :=
  loop .spent decodeTurn (s.length + 1) (terminated s, [])

end Decoding

section Encoding

def hexmap : List Char :=
  ['0', '1', '2', '3', '4', '5', '6', '7', '8', '9', 'a', 'b', 'c', 'd', 'e', 'f']

def hexDigit (b : Byte) : Char := hexmap[b.toNat]?.getD '0'

/-- `EncodeHex`, with a space before every byte but the first if asked for. -/
def encodeHex (bytes : List Byte) (spaces : Bool) : List Char :=
  bytes.zipIdx.flatMap fun (val, i) =>
    (if spaces && i != 0 then [' '] else []) ++ [hexDigit (val >>> 4), hexDigit (val &&& 15)]

end Encoding

section Characters

variable {c d : Char}

theorem le_iff_toNat_le (c d : Char) : c ≤ d ↔ c.toNat ≤ d.toNat := by
  rw [Char.le_def, UInt32.le_iff_toNat_le, Char.toNat_val, Char.toNat_val]

theorem isspace_iff :
    isspace c = true ↔ c.toNat = 32 ∨ 9 ≤ c.toNat ∧ c.toNat ≤ 13 := by
  have hspace : c = ' ' ↔ c.toNat = 32 := by
    rw [← Char.toNat_inj]
    rfl
  simp only [isspace, Bool.or_eq_true, Bool.and_eq_true, decide_eq_true_eq, le_iff_toNat_le, hspace]
  rfl

theorem isxdigit_iff :
    isxdigit c = true ↔ 48 ≤ c.toNat ∧ c.toNat ≤ 57 ∨ 65 ≤ c.toNat ∧ c.toNat ≤ 70 ∨
      97 ≤ c.toNat ∧ c.toNat ≤ 102 := by
  simp only [isxdigit, Bool.or_eq_true, Bool.and_eq_true, decide_eq_true_eq, le_iff_toNat_le,
    or_assoc]
  rfl

theorem isspace_of_isxdigit (h : isxdigit c = true) : isspace c = false := by
  rw [isxdigit_iff] at h
  rw [Bool.eq_false_iff, Ne, isspace_iff]
  omega

theorem stoi_lt (h : isxdigit c = true) : stoi c < 16 := by
  have hbounds : ('9'.toNat = 57 ∧ '0'.toNat = 48) ∧ ('F'.toNat = 70 ∧ 'A'.toNat = 65) ∧
      'a'.toNat = 97 := by decide
  rw [isxdigit_iff] at h
  simp only [stoi, le_iff_toNat_le]
  split_ifs
  · omega
  · omega
  · omega

theorem toNat_pair (hc : isxdigit c = true) (hd : isxdigit d = true) :
    (digit c <<< 4 ||| digit d).toNat = stoi d + 16 * stoi c := by
  have hall : ∀ m < 16, ∀ n < 16,
      (BitVec.ofNat 8 m <<< 4 ||| BitVec.ofNat 8 n).toNat = n + 16 * m := by decide
  exact hall _ (stoi_lt hc) _ (stoi_lt hd)

end Characters

section Turns

variable {c d : Char} {it sp rest : List Char} {result : List Byte}

theorem skipSpace_of_not (h : isspace c = false) : skipSpace (c :: it) = .ok (c :: it) := by
  rw [skipSpace, if_neg (Bool.eq_false_iff.mp h)]

/-- Spaces are passed up to the first other character. -/
theorem skipSpace_append (hsp : ∀ c ∈ sp, isspace c = true) (h : isspace c = false) :
    skipSpace (sp ++ c :: it) = .ok (c :: it) := by
  induction sp with
  | nil => exact skipSpace_of_not h
  | cons s sp ih =>
    rw [List.cons_append, skipSpace, if_pos (hsp s List.mem_cons_self)]
    exact ih fun c hc => hsp c (List.mem_cons_of_mem _ hc)

theorem exists_terminated (s : List Char) : ∃ c it, terminated s = c :: it := by
  cases s with
  | nil => exact ⟨_, _, rfl⟩
  | cons c s => exact ⟨_, _, rfl⟩

theorem decodeTurn_end : decodeTurn (terminated [], result) = .ok (.leave result) := rfl

/-- A space is passed in the turn of what follows it. -/
theorem decodeTurn_space (hc : isspace c = true) :
    decodeTurn (terminated (c :: rest), result) = decodeTurn (terminated rest, result) := by
  cases rest with
  | nil =>
    have hskip : skipSpace [c, '\x00'] = .ok ['\x00'] := by rw [skipSpace, if_pos hc]; rfl
    simp [decodeTurn, terminated, atEnd, hskip, bind, Except.bind, pure, Except.pure, isxdigit]
  | cons d rest => simp [decodeTurn, terminated, atEnd, skipSpace, hc]

/-- Any other character that is no digit ends the text. -/
theorem decodeTurn_other (hc : isspace c = false) (hx : isxdigit c = false) :
    decodeTurn (terminated (c :: rest), result) = .ok (.leave result) := by
  obtain ⟨e, it, hit⟩ := exists_terminated rest
  have htext : terminated (c :: rest) = c :: e :: it := by
    rw [← hit]
    rfl
  simp [decodeTurn, htext, atEnd, skipSpace_of_not hc, hx, bind, Except.bind, pure, Except.pure]

theorem decodeTurn_pair (hc : isxdigit c = true) (hd : isxdigit d = true) :
    decodeTurn (terminated (c :: d :: rest), result) =
      .ok (.again (terminated rest, result ++ [digit c <<< 4 ||| digit d])) := by
  obtain ⟨e, it, hit⟩ := exists_terminated rest
  have htext : terminated (c :: d :: rest) = c :: d :: e :: it := by
    rw [← hit]
    rfl
  simp [decodeTurn, htext, hit, atEnd, skipSpace_of_not (isspace_of_isxdigit hc), hc, hd, bind,
    Except.bind, pure, Except.pure]

/-- A digit is left alone at the end and before a character that is no digit. -/
theorem decodeTurn_alone (hc : isxdigit c = true) (hrest : ∀ d ∈ rest.head?, isxdigit d = false) :
    decodeTurn (terminated (c :: rest), result) =
      .ok (.again (terminated rest, result ++ [digit c])) := by
  cases rest with
  | nil => simp [decodeTurn, terminated, atEnd, skipSpace_of_not (isspace_of_isxdigit hc), hc,
      bind, Except.bind, pure, Except.pure]
  | cons d rest =>
    have hd : isxdigit d = false := hrest d rfl
    obtain ⟨e, it, hit⟩ := exists_terminated rest
    have hnext : terminated (d :: rest) = d :: e :: it := by
      rw [← hit]
      rfl
    have htext : terminated (c :: d :: rest) = c :: d :: e :: it := by
      rw [← hnext]
      rfl
    simp [decodeTurn, htext, hnext, atEnd, skipSpace_of_not (isspace_of_isxdigit hc), hc, hd, bind,
      Except.bind, pure, Except.pure]

end Turns

section Decoded

/-- The bytes that a text stands for, up to the first character that is neither a digit
nor a space. -/
def decoded : List Char → List Byte
  | [] => []
  | [c] => if isxdigit c then [digit c] else []
  | c :: d :: rest =>
    if isspace c then decoded (d :: rest)
    else if isxdigit c then
      if isxdigit d then (digit c <<< 4 ||| digit d) :: decoded rest
      else digit c :: decoded (d :: rest)
    else []

variable {s : List Char}

theorem loop_decodeTurn (s : List Char) (result : List Byte) {fuel : Nat}
    (hfuel : s.length < fuel) :
    loop .spent decodeTurn fuel (terminated s, result) = .ok (result ++ decoded s) := by
  induction s using decoded.induct generalizing result fuel with
  | case1 =>
    obtain ⟨fuel, rfl⟩ : ∃ n, fuel = n + 1 := ⟨fuel - 1, by omega⟩
    rw [loop, decodeTurn_end, decoded, List.append_nil]
  | case2 c hc =>
    obtain ⟨fuel, rfl⟩ : ∃ n, fuel = n + 2 := ⟨fuel - 2, by simp at hfuel; omega⟩
    rw [loop, decodeTurn_alone hc (fun d hd => by cases hd), decoded, if_pos hc]
    rfl
  | case3 c hc =>
    obtain ⟨fuel, rfl⟩ : ∃ n, fuel = n + 1 := ⟨fuel - 1, by omega⟩
    have hturn : decodeTurn (terminated [c], result) = .ok (.leave result) := by
      cases hspace : isspace c with
      | true => rw [decodeTurn_space hspace, decodeTurn_end]
      | false => exact decodeTurn_other hspace (Bool.eq_false_iff.mpr hc)
    rw [loop, hturn, decoded, if_neg hc, List.append_nil]
  | case4 c d rest hc ih =>
    obtain ⟨fuel, rfl⟩ : ∃ n, fuel = n + 1 := ⟨fuel - 1, by omega⟩
    have hless : (d :: rest).length < fuel + 1 := by
      simp only [List.length_cons] at hfuel ⊢
      omega
    rw [loop, decodeTurn_space hc, ← loop, ih result hless, decoded, if_pos hc]
  | case5 c d rest hspace hc hd ih =>
    obtain ⟨fuel, rfl⟩ : ∃ n, fuel = n + 1 := ⟨fuel - 1, by omega⟩
    have hless : rest.length < fuel := by
      simp only [List.length_cons] at hfuel
      omega
    rw [loop, decodeTurn_pair hc hd, decoded, if_neg hspace, if_pos hc, if_pos hd]
    exact (ih _ hless).trans (by rw [List.append_assoc]; rfl)
  | case6 c d rest hspace hc hd ih =>
    obtain ⟨fuel, rfl⟩ : ∃ n, fuel = n + 1 := ⟨fuel - 1, by omega⟩
    have hless : (d :: rest).length < fuel := by
      simp only [List.length_cons] at hfuel ⊢
      omega
    have halone : ∀ e ∈ (d :: rest).head?, isxdigit e = false := by
      rintro e ⟨⟩
      exact Bool.eq_false_iff.mpr hd
    rw [loop, decodeTurn_alone hc halone, decoded, if_neg hspace, if_pos hc, if_neg hd]
    exact (ih _ hless).trans (by rw [List.append_assoc]; rfl)
  | case7 c d rest hspace hc =>
    obtain ⟨fuel, rfl⟩ : ∃ n, fuel = n + 1 := ⟨fuel - 1, by omega⟩
    rw [loop, decodeTurn_other (Bool.eq_false_iff.mpr hspace) (Bool.eq_false_iff.mpr hc), decoded,
      if_neg hspace, if_neg hc, List.append_nil]

theorem decodeHex_eq (s : List Char) : decodeHex s = .ok (decoded s) :=
  loop_decodeTurn s [] (Nat.lt_succ_self _)

variable {c d : Char}

theorem decoded_space (h : isspace c = true) : decoded (c :: s) = decoded s := by
  cases s with
  | nil =>
    have hx : isxdigit c ≠ true := fun hx => by
      rw [isspace_of_isxdigit hx] at h
      cases h
    simp [decoded, hx]
  | cons d s => rw [decoded, if_pos h]

theorem decoded_pair (hc : isxdigit c = true) (hd : isxdigit d = true) :
    decoded (c :: d :: s) = (digit c <<< 4 ||| digit d) :: decoded s := by
  rw [decoded, if_neg (Bool.eq_false_iff.mp (isspace_of_isxdigit hc)), if_pos hc, if_pos hd]

theorem decoded_alone (hc : isxdigit c = true) (hs : ∀ d ∈ s.head?, isxdigit d = false) :
    decoded (c :: s) = digit c :: decoded s := by
  cases s with
  | nil => simp [decoded, hc]
  | cons d s =>
    have hd : isxdigit d = false := hs d rfl
    rw [decoded, if_neg (Bool.eq_false_iff.mp (isspace_of_isxdigit hc)), if_pos hc,
      if_neg (Bool.eq_false_iff.mp hd)]

/-- What follows the digits and spaces at the beginning is not looked at. -/
theorem decoded_takeWhile (s : List Char) :
    decoded (s.takeWhile fun c => isspace c || isxdigit c) = decoded s := by
  induction s using decoded.induct with
  | case1 => rfl
  | case2 c hc => simp [decoded, hc]
  | case3 c hc =>
    cases hspace : isspace c with
    | true => simp [decoded, hspace, hc]
    | false => simp [decoded, hspace, hc]
  | case4 c d rest hc ih =>
    rw [List.takeWhile_cons_of_pos (by simp [hc]), decoded_space hc, ih, decoded_space hc]
  | case5 c d rest hspace hc hd ih =>
    rw [List.takeWhile_cons_of_pos (by simp [hc]), List.takeWhile_cons_of_pos (by simp [hd]),
      decoded_pair hc hd, ih, decoded_pair hc hd]
  | case6 c d rest hspace hc hd ih =>
    have hd : isxdigit d = false := Bool.eq_false_iff.mpr hd
    -- the space that ends the lone digit stays, any other character goes
    have hhead : ∀ e ∈ ((d :: rest).takeWhile fun c => isspace c || isxdigit c).head?,
        isxdigit e = false := by
      intro e he
      cases hs : isspace d with
      | true =>
        rw [List.takeWhile_cons_of_pos (by simp [hs])] at he
        cases he
        exact hd
      | false =>
        rw [List.takeWhile_cons_of_neg (by simp [hs, hd])] at he
        cases he
    rw [List.takeWhile_cons_of_pos (by simp [hc]), decoded_alone hc hhead, ih,
      decoded_alone hc (by rintro e ⟨⟩; exact hd)]
  | case7 c d rest hspace hc => simp [decoded, hspace, hc]

end Decoded

section Pairs

/-- The bytes that stand in a text of digits. -/
def pairs : List Char → List Byte
  | [] => []
  | [c] => [digit c]
  | c :: d :: rest => (digit c <<< 4 ||| digit d) :: pairs rest

variable {ds : List Char}

theorem decoded_digits (h : ∀ c ∈ ds, isxdigit c = true) : decoded ds = pairs ds := by
  induction ds using pairs.induct with
  | case1 => rfl
  | case2 c => rw [decoded, if_pos (h c List.mem_cons_self), pairs]
  | case3 c d rest ih =>
    have hc := h c List.mem_cons_self
    have hd := h d (List.mem_cons_of_mem _ List.mem_cons_self)
    have hrest : ∀ c ∈ rest, isxdigit c = true := fun c hc =>
      h c (List.mem_cons_of_mem _ (List.mem_cons_of_mem _ hc))
    rw [decoded_pair hc hd, ih hrest, pairs]

/-- Digits are decoded without a fault. -/
theorem decodeHex_digits (h : ∀ c ∈ ds, isxdigit c = true) : decodeHex ds = .ok (pairs ds) := by
  rw [decodeHex_eq, decoded_digits h]

theorem length_pairs (ds : List Char) : (pairs ds).length = (ds.length + 1) / 2 := by
  induction ds using pairs.induct with
  | case1 => rfl
  | case2 c => simp [pairs]
  | case3 c d rest ih =>
    simp only [pairs, List.length_cons, ih]
    omega

end Pairs

section Inverse

/-- A nibble is written as a digit that stands for it. -/
theorem hexDigit_nibble {b : Byte} (h : b.toNat < 16) :
    isxdigit (hexDigit b) = true ∧ stoi (hexDigit b) = b.toNat := by
  have hall : ∀ n < 16, isxdigit (hexmap[n]?.getD '0') = true ∧
      stoi (hexmap[n]?.getD '0') = n := by decide
  exact hall b.toNat h

theorem hexDigit_pair (val : Byte) :
    isxdigit (hexDigit (val >>> 4)) = true ∧ isxdigit (hexDigit (val &&& 15)) = true ∧
      digit (hexDigit (val >>> 4)) <<< 4 ||| digit (hexDigit (val &&& 15)) = val := by
  have hval := val.isLt
  have hhigh : (val >>> 4).toNat = val.toNat / 16 := by
    rw [BitVec.toNat_ushiftRight, Nat.shiftRight_eq_div_pow]
  have hlow : (val &&& 15).toNat = val.toNat % 16 := by
    rw [BitVec.toNat_and]
    exact Nat.and_two_pow_sub_one_eq_mod val.toNat 4
  obtain ⟨hxhigh, hshigh⟩ := hexDigit_nibble (b := val >>> 4) (by omega)
  obtain ⟨hxlow, hslow⟩ := hexDigit_nibble (b := val &&& 15) (by omega)
  refine ⟨hxhigh, hxlow, BitVec.eq_of_toNat_eq ?_⟩
  rw [toNat_pair hxhigh hxlow, hshigh, hslow]
  omega

/-- What is written for the bytes from the place `n` on is read as these bytes. -/
theorem decoded_encodeHex (bytes : List Byte) (spaces : Bool) (n : Nat) :
    decoded ((bytes.zipIdx n).flatMap fun (val, i) =>
      (if spaces && i != 0 then [' '] else []) ++
        [hexDigit (val >>> 4), hexDigit (val &&& 15)]) = bytes := by
  induction bytes generalizing n with
  | nil => rfl
  | cons val bytes ih =>
    obtain ⟨hhigh, hlow, hval⟩ := hexDigit_pair val
    have hpair : ∀ rest, decoded (hexDigit (val >>> 4) :: hexDigit (val &&& 15) :: rest) =
        val :: decoded rest := by
      intro rest
      rw [decoded_pair hhigh hlow, hval]
    rw [List.zipIdx_cons, List.flatMap_cons]
    cases hspace : spaces && n != 0 with
    | true =>
      simp only [hspace, if_true, List.cons_append, List.nil_append]
      rw [decoded_space rfl, hpair, ih]
    | false =>
      simp only [hspace, Bool.false_eq_true, if_false, List.cons_append, List.nil_append]
      rw [hpair, ih]

/-- Decoding returns what was encoded, never fails, and reads the text up to the first
character that is neither a digit nor a space. -/
theorem hex_codec :
    (∀ v spaces, decodeHex (encodeHex v spaces) = .ok v) ∧
      (∀ s, ∃ bytes, decodeHex s = .ok bytes) ∧
      ∀ s, decodeHex s = decodeHex (s.takeWhile fun c => isspace c || isxdigit c) := by
  refine ⟨fun v spaces => ?_, fun s => ⟨_, decodeHex_eq s⟩, fun s => ?_⟩
  · rw [decodeHex_eq, encodeHex, decoded_encodeHex v spaces 0]
  · rw [decodeHex_eq, decodeHex_eq, decoded_takeWhile]

end Inverse

section Numbers

/-- The number that digits write, the highest first. -/
def number (ds : List Char) : Nat := Nat.ofDigits 16 (ds.reverse.map stoi)

variable {ds : List Char}

theorem number_zero (ds : List Char) : number ('0' :: ds) = number ds := by
  have hzero : stoi '0' = 0 := by decide
  rw [number, List.reverse_cons, List.map_append, List.map_singleton, hzero,
    Nat.ofDigits_append_zero, number]

/-- An even number of digits writes the number which its bytes are, the highest first. -/
theorem ofDigits_pairs (h : ∀ c ∈ ds, isxdigit c = true) (heven : ds.length % 2 = 0) :
    Nat.ofDigits 256 ((pairs ds).reverse.map BitVec.toNat) = number ds := by
  induction ds using pairs.induct with
  | case1 => rfl
  | case2 c => simp at heven
  | case3 c d rest ih =>
    have hc := h c List.mem_cons_self
    have hd := h d (List.mem_cons_of_mem _ List.mem_cons_self)
    simp only [List.length_cons] at heven
    have hhalf : rest.length = 2 * (pairs rest).length := by
      rw [length_pairs]
      omega
    have hpow : 16 ^ rest.length = 256 ^ (pairs rest).length := by
      rw [hhalf, Nat.pow_mul]
    have hrest := ih (fun c hc => h c (List.mem_cons_of_mem _ (List.mem_cons_of_mem _ hc)))
      (by omega)
    rw [number] at hrest ⊢
    simp only [pairs, List.reverse_cons, List.map_append, List.map_singleton, List.append_assoc,
      Nat.ofDigits_append, List.length_map, List.length_reverse, Nat.ofDigits_singleton,
      toNat_pair hc hd, hrest, hpow, List.length_singleton, Nat.pow_one]

end Numbers

end HexTexts
