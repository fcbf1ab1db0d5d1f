import Btclite.Utility.HexTexts
import Btclite.Utility.Serialize

/-!
# Hashes from texts

`StrToHash256` of `arithmetic.cpp`, over the memory its result is put into. The
array is not cleared before the bytes of the number are copied to its beginning.
-/

namespace HashTexts

open Endian Serialize HexTexts

section Parsing

/-- `0x` is skipped when more follows, `s.end()` being one character before the end of
what is left. -/
def skipPrefix : List Char → List Char
  | c :: x :: it =>
    if 2 < it.length + 1 ∧ c = '0' ∧ x.toLower = 'x' then it else c :: x :: it
  | it => it

/-- `std::copy` to the beginning of an array that is long enough. -/
def overwrite {n : Nat} (a : Bytes n) (bytes : List Byte) : Bytes n :=
  ⟨(bytes ++ a.data.drop bytes.length).take n, by simp; omega⟩

/-- The iterator from the end is what is left of the text before it, backwards. -/
def strToHash256 (memory : Hash256) (s : List Char) : Except Fault Hash256 := do
  let startIt := skipPrefix (← skipSpace (terminated s))
  let endIt ← skipSpace s.reverse
  let subStr := (s.take endIt.length).drop ((terminated s).length - startIt.length)
  if subStr.all isxdigit = false then throw .assertion
  let vec ← decodeHex (if subStr.length % 2 = 0 then subStr else '0' :: subStr)
  if 32 < vec.length then return overwrite memory (vec.reverse.take 32)
  return overwrite memory vec.reverse

end Parsing

section Property

/-- A text of one or more digits, with `0x` before them or not and spaces around them. -/
structure HashText where
  leading : List Char
  marker : List Char
  digits : List Char
  trailing : List Char
  leading_spaces : ∀ c ∈ leading, isspace c = true
  marker_eq : marker = [] ∨ marker = ['0', 'x'] ∨ marker = ['0', 'X']
  digits_ne_nil : digits ≠ []
  digits_hex : ∀ c ∈ digits, isxdigit c = true
  trailing_spaces : ∀ c ∈ trailing, isspace c = true

def HashText.text (t : HashText) : List Char := t.leading ++ t.marker ++ t.digits ++ t.trailing

/-- The number in 32 bytes, the lowest first, and modulo 2 ^ 256. -/
def hashOfNumber (n : Nat) : Hash256 :=
  ⟨toLittleEndian 32 (BitVec.ofNat 256 n), toLittleEndian_length 32 _⟩

/-- Whatever the memory holds, the text is turned into the number it writes. -/
def Parses (t : HashText) : Prop :=
  ∀ memory, strToHash256 memory t.text = .ok (hashOfNumber (number t.digits))

end Property

section Trimming

variable {c x : Char} {it : List Char}

theorem toNat_of_toLower (h : c.toLower = 'x') : c.toNat = 88 ∨ c.toNat = 120 := by
  have hx : c.toLower.toNat = 120 := by
    rw [h]
    rfl
  unfold Char.toLower at hx
  split_ifs at hx with hupper
  · left
    have hle : c.val.toNat ≤ 90 := UInt32.le_iff_toNat_le.mp hupper.2
    change (c.val + 32).toNat = 120 at hx
    rw [UInt32.toNat_add] at hx
    change (c.val.toNat + 32) % 2 ^ 32 = 120 at hx
    change c.val.toNat = 88
    omega
  · exact Or.inr hx

theorem toLower_ne_of_isxdigit (h : isxdigit c = true) : c.toLower ≠ 'x' := by
  rw [isxdigit_iff] at h
  intro hx
  have := toNat_of_toLower hx
  omega

theorem toLower_ne_of_isspace (h : isspace c = true) : c.toLower ≠ 'x' := by
  rw [isspace_iff] at h
  intro hx
  have := toNat_of_toLower hx
  omega

theorem skipPrefix_unmarked (h : ∀ x ∈ it, x.toLower ≠ 'x') : skipPrefix (c :: it) = c :: it := by
  cases it with
  | nil => rfl
  | cons x it => exact if_neg fun hall => h x List.mem_cons_self hall.2.2

theorem skipPrefix_marked (hx : x.toLower = 'x') (hit : 2 ≤ it.length) :
    skipPrefix ('0' :: x :: it) = it :=
  if_pos ⟨by omega, rfl, hx⟩

variable (t : HashText)

namespace HashText

theorem digits_eq_cons : ∃ c ds, t.digits = c :: ds ∧ isspace c = false := by
  obtain ⟨c, ds, hdigits⟩ := List.exists_cons_of_ne_nil t.digits_ne_nil
  have hc : isxdigit c = true := t.digits_hex c (by rw [hdigits]; exact List.mem_cons_self)
  exact ⟨c, ds, hdigits, isspace_of_isxdigit hc⟩

theorem digits_eq_concat : ∃ ds c, t.digits = ds ++ [c] ∧ isspace c = false := by
  rcases List.eq_nil_or_concat t.digits with hnil | ⟨ds, c, hdigits⟩
  · exact absurd hnil t.digits_ne_nil
  · rw [List.concat_eq_append] at hdigits
    have hc : isxdigit c = true := t.digits_hex c (by rw [hdigits]; simp)
    exact ⟨ds, c, hdigits, isspace_of_isxdigit hc⟩

theorem terminated_text : terminated t.text =
    t.leading ++ (t.marker ++ (t.digits ++ terminated t.trailing)) := by
  simp only [text, terminated, List.append_assoc]

end HashText

theorem skipSpace_text : skipSpace (terminated t.text) =
    .ok (t.marker ++ (t.digits ++ terminated t.trailing)) := by
  obtain ⟨c, ds, hdigits, hc⟩ := t.digits_eq_cons
  rw [t.terminated_text]
  rcases t.marker_eq with hmarker | hmarker | hmarker
  · rw [hmarker, hdigits]
    exact skipSpace_append t.leading_spaces hc
  · rw [hmarker]
    exact skipSpace_append t.leading_spaces (by decide)
  · rw [hmarker]
    exact skipSpace_append t.leading_spaces (by decide)

theorem skipPrefix_text : skipPrefix (t.marker ++ (t.digits ++ terminated t.trailing)) =
    t.digits ++ terminated t.trailing := by
  obtain ⟨c, ds, hdigits, -⟩ := t.digits_eq_cons
  have hlen : 2 ≤ (t.digits ++ terminated t.trailing).length := by
    simp only [hdigits, terminated, List.length_append, List.length_cons]
    omega
  rcases t.marker_eq with hmarker | hmarker | hmarker
  · rw [hmarker, hdigits]
    apply skipPrefix_unmarked
    intro x hx
    rcases List.mem_append.mp hx with hx | hx
    · have hmem : x ∈ t.digits := hdigits ▸ List.mem_cons_of_mem _ hx
      exact toLower_ne_of_isxdigit (t.digits_hex x hmem)
    · rcases List.mem_append.mp hx with hx | hx
      · exact toLower_ne_of_isspace (t.trailing_spaces x hx)
      · rw [List.mem_singleton.mp hx]
        decide
  · rw [hmarker]
    exact skipPrefix_marked (by decide) hlen
  · rw [hmarker]
    exact skipPrefix_marked (by decide) hlen

/-- The last digit of the text is found from behind. -/
theorem skipSpace_reverse_text :
    skipSpace t.text.reverse = .ok (t.leading ++ t.marker ++ t.digits).reverse := by
  obtain ⟨ds, c, hdigits, hc⟩ := t.digits_eq_concat
  have hspaces : ∀ c ∈ t.trailing.reverse, isspace c = true := fun c hc =>
    t.trailing_spaces c (List.mem_reverse.mp hc)
  rw [HashText.text, List.reverse_append, hdigits, ← List.append_assoc, List.reverse_concat]
  exact skipSpace_append hspaces hc

/-- What is cut out between the two iterators are the digits. -/
theorem subStr_text : (t.text.take (t.leading ++ t.marker ++ t.digits).reverse.length).drop
    ((terminated t.text).length - (t.digits ++ terminated t.trailing).length) = t.digits := by
  have htake : t.text.take (t.leading ++ t.marker ++ t.digits).reverse.length =
      t.leading ++ t.marker ++ t.digits := by
    rw [List.length_reverse]
    exact List.take_left
  have hdrop : (terminated t.text).length - (t.digits ++ terminated t.trailing).length =
      (t.leading ++ t.marker).length := by
    rw [t.terminated_text, ← List.append_assoc, List.length_append, Nat.add_sub_cancel]
  rw [htake, hdrop]
  exact List.drop_left

end Trimming

section Copying

/-- An even number of digits, `0` being put before them where it is odd. -/
def evened (ds : List Char) : List Char := if ds.length % 2 = 0 then ds else '0' :: ds

variable {ds : List Char}

theorem evened_hex (h : ∀ c ∈ ds, isxdigit c = true) : ∀ c ∈ evened ds, isxdigit c = true := by
  unfold evened
  split_ifs
  · exact h
  · intro c hc
    rcases List.mem_cons.mp hc with rfl | hc
    · decide
    · exact h c hc

theorem evened_length (ds : List Char) : (evened ds).length = 2 * ((ds.length + 1) / 2) := by
  unfold evened
  split_ifs
  · omega
  · rw [List.length_cons]
    omega

theorem number_evened (ds : List Char) : number (evened ds) = number ds := by
  unfold evened
  split_ifs
  · rfl
  · exact number_zero ds

/-- The bytes of the number, the lowest first. -/
def lowFirst (ds : List Char) : List Byte := (pairs (evened ds)).reverse

theorem lowFirst_length (ds : List Char) : (lowFirst ds).length = (ds.length + 1) / 2 := by
  rw [lowFirst, List.length_reverse, length_pairs, evened_length]
  omega

/-- What the bytes do not reach would have to be zero. -/
theorem hashOfNumber_data (h : ∀ c ∈ ds, isxdigit c = true) :
    (hashOfNumber (number ds)).data =
      (lowFirst ds).take 32 ++ List.replicate (32 - (lowFirst ds).length) 0#8 := by
  have heven : (evened ds).length % 2 = 0 := by
    rw [evened_length]
    omega
  have hnumber := ofDigits_pairs (evened_hex h) heven
  rw [number_evened] at hnumber
  rw [hashOfNumber, ← hnumber]
  exact toLittleEndian_ofDigits (Nat.le_refl _) _

theorem overwrite_data {n : Nat} {a : Bytes n} {bytes : List Byte} (h : bytes.length ≤ n) :
    (overwrite a bytes).data = bytes ++ a.data.drop bytes.length :=
  List.take_of_length_le (by simp; omega)

end Copying

section Results

variable (t : HashText)

theorem strToHash256_text (memory : Hash256) : strToHash256 memory t.text =
    .ok (overwrite memory ((lowFirst t.digits).take 32)) := by
  have hdecode : decodeHex (if t.digits.length % 2 = 0 then t.digits else '0' :: t.digits) =
      .ok (pairs (evened t.digits)) :=
    decodeHex_digits (evened_hex t.digits_hex)
  have hall : t.digits.all isxdigit = true := List.all_eq_true.mpr t.digits_hex
  simp only [strToHash256, skipSpace_text, skipSpace_reverse_text, bind, Except.bind,
    skipPrefix_text, subStr_text, hall, hdecode, lowFirst]
  by_cases hmany : 32 < (pairs (evened t.digits)).length
  · rw [if_pos hmany]
    rfl
  · rw [if_neg hmany, List.take_of_length_le (by simp; omega)]
    rfl

/-- The bytes behind those of the number are the ones that were in the memory. -/
theorem overwrite_lowFirst (memory : Hash256) (ds : List Char) :
    (overwrite memory ((lowFirst ds).take 32)).data =
      (lowFirst ds).take 32 ++ memory.data.drop (lowFirst ds).length := by
  rw [overwrite_data (List.length_take_le 32 _)]
  congr 1
  by_cases hlen : (lowFirst ds).length ≤ 32
  · rw [List.take_of_length_le hlen]
  · rw [List.drop_of_length_le (by simp; omega), List.drop_of_length_le (by simp; omega)]

/-- A text is parsed right, whatever is in the memory, if and only if there are digits for
all bytes of the hash. -/
theorem parses_iff_digits_fill : Parses t ↔ 63 ≤ t.digits.length := by
  have hlength := lowFirst_length t.digits
  constructor
  · intro h
    by_contra hfew
    let memory : Hash256 := ⟨List.replicate 32 1#8, by simp⟩
    have hrun := (strToHash256_text t memory).symm.trans (h memory)
    have hdata := congrArg Bytes.data (Except.ok.inj hrun)
    rw [overwrite_lowFirst, hashOfNumber_data t.digits_hex] at hdata
    have hrest := List.append_cancel_left hdata
    rw [List.drop_replicate] at hrest
    obtain ⟨n, hn⟩ : ∃ n, 32 - (lowFirst t.digits).length = n + 1 :=
      ⟨31 - (lowFirst t.digits).length, by omega⟩
    rw [hn, List.replicate_succ, List.replicate_succ] at hrest
    exact absurd (List.cons.inj hrest).1 (by decide)
  · intro hmany memory
    rw [strToHash256_text]
    congr 1
    apply Bytes.ext
    rw [overwrite_lowFirst, hashOfNumber_data t.digits_hex, Nat.sub_eq_zero_of_le (by omega),
      List.drop_of_length_le (by simp; omega)]
    rfl

end Results

section ShortText

/-- `0x123`, of which two bytes come. -/
def shortText : HashText where
  leading := []
  marker := ['0', 'x']
  digits := ['1', '2', '3']
  trailing := []
  leading_spaces := by simp
  marker_eq := Or.inr (Or.inl rfl)
  digits_ne_nil := by simp
  digits_hex := List.all_eq_true.mp rfl
  trailing_spaces := by simp

/-- Over memory that is not zero, `0x123` is turned into another number. -/
theorem shortText_not_parsed : ¬ Parses shortText := by
  intro h
  have hrun := h ⟨List.replicate 32 0xff#8, by simp⟩
  revert hrun
  decide +kernel

end ShortText

end HashTexts
