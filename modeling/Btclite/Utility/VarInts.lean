import Btclite.Utility.Canonical

/-!
# Variable-length integers

The writer, the reader and the size function know the same four forms. But the reader fills
only the low bytes of a local of eight and takes the others as it finds them, and it does not
see where the bytes end. So a marked length is read back as it was written only by the grace
of the memory; what no memory can change is a length of one byte, and that a length is
refused whose own bytes already stand for too little or too much.
-/

namespace VarInts

open Endian Serialize Canonical

/-- What the writer and the reader promise each other over bytes, whatever the memory held. -/
structure Exchanged (b : List Byte) : Prop where
  returns : ∀ s : Source, s.rest = b → ∀ (n : U64) (rest : List Byte), n ≤ kMaxVardataSize →
    b = serWriteVarInt n ++ rest → ∃ s', serReadVarInt s = .ok n s' ∧ s'.rest = rest
  canonical : ∀ s : Source, s.rest = b → ∀ (v : U64) (s' : Source), serReadVarInt s = .ok v s' →
    v ≤ kMaxVardataSize ∧ serWriteVarInt v <+: b

/-- A word of four bytes that is no length of five, whatever follows it in the local. -/
def Refused (word : U32) : Prop := word.toNat < 0x10000 ∨ kMaxVardataSize.toNat < word.toNat

/-- Bytes over which the memory has no say. -/
def Settled : List Byte → Prop
  | [] => False
  | count :: low => count < kVarint16bits ∨ count = kVarint64bits ∨
      (count = kVarint32bits ∧ 4 ≤ low.length ∧ Refused (fromLittleEndian 32 (low.take 4)))

section Reading

variable {s s' : Source} {v : U64} {n j : Nat} {b low : List Byte} {count : Byte}

/-- Every way `SerReadVarInt` can return. -/
theorem serReadVarInt_ok (h : serReadVarInt s = .ok v s') :
    (varIntForm (firstByte s) = none ∧ v = (firstByte s).setWidth 64) ∨
    ∃ n least, varIntForm (firstByte s) = some (n, least) ∧ v = wideValue n (skip 1 s) ∧
      ¬ v < least ∧ ¬ kMaxVardataSize < v := by
  rw [serReadVarInt_run] at h
  cases hform : varIntForm (firstByte s) with
  | none =>
    rw [hform] at h
    cases h
    exact .inl ⟨rfl, rfl⟩
  | some form =>
    obtain ⟨n, least⟩ := form
    simp only [hform] at h
    split_ifs at h with hleast hmax
    cases h
    exact .inr ⟨n, least, rfl, rfl, hleast, hmax⟩

theorem firstByte_eq (hs : s.rest = count :: low) :
    firstByte s = count ∧ (skip 1 s).rest = low := by
  have hne : s.rest ≠ [] := by simp [hs]
  have hrest := rest_eq_firstByte_cons hne
  rw [hs] at hrest
  exact ⟨(List.cons.inj hrest).1.symm, (List.cons.inj hrest).2.symm⟩

theorem form_small (h : count < kVarint16bits) : varIntForm count = none := if_pos h

theorem small_toNat (h : count < kVarint16bits) : (count.setWidth 64).toNat < 253 := by
  have hlt : count.toNat < 253 := by
    simpa [BitVec.lt_def, kVarint16bits] using h
  rw [BitVec.toNat_setWidth]
  omega

theorem serWriteVarInt_small (h : count < kVarint16bits) :
    serWriteVarInt (count.setWidth 64) = [count] := by
  rw [serWriteVarInt_one (small_toNat h), BitVec.setWidth_setWidth_of_le _ (by omega),
    BitVec.setWidth_eq]

/-- The eight bytes of the local: what was there to read, then what the memory held. -/
theorem wideValue_eq (hn : n ≤ 8) (s : Source) : wideValue n s =
    fromLittleEndian 64
      (s.rest.take n ++ (List.range (8 - min n s.rest.length)).map s.memory.stale) := by
  have hsplit : 8 - min n s.rest.length = (n - s.rest.length) + (8 - n) := by omega
  rw [wideValue, buffer, hsplit, List.range_add, List.map_append, List.map_map,
    List.append_assoc]
  rfl

end Reading

section Marked

variable {b low : List Byte} {count : Byte} {n j : Nat}

/-- Memory that is zero but for one byte. -/
def mark (j : Nat) : Nat → Byte := fun i => if i = j then 1 else 0

def markedSource (b : List Byte) (j : Nat) : Source := ⟨b, ⟨mark j, fun _ => 0⟩, false⟩

theorem skip_markedSource (count : Byte) (low : List Byte) (j : Nat) :
    skip 1 (markedSource (count :: low) j) = markedSource low j := by
  simp [skip, markedSource]

theorem ofDigits_mark (j m : Nat) :
    Nat.ofDigits 256 ((List.range m).map fun i => (mark j i).toNat) =
      if j < m then 256 ^ j else 0 := by
  induction m with
  | zero => rfl
  | succ m ih =>
    rw [List.range_succ, List.map_append, Nat.ofDigits_append, ih, List.length_map,
      List.length_range, List.map_singleton, Nat.ofDigits_singleton]
    by_cases h : m = j
    · simp [mark, h]
    · have hlt : j < m + 1 ↔ j < m := by omega
      simp [mark, h, hlt]

/-- The marked byte decides how large the length is. -/
theorem wideValue_marked (low : List Byte) (j : Nat) (hn : n ≤ 8)
    (hj : min n low.length + j < 8) :
    256 ^ (min n low.length + j) ≤ (wideValue n (markedSource low j)).toNat ∧
      (wideValue n (markedSource low j)).toNat < 2 * 256 ^ (min n low.length + j) := by
  have hvalue : (wideValue n (markedSource low j)).toNat =
      Nat.ofDigits 256 ((low.take n).map BitVec.toNat) + 256 ^ (min n low.length + j) := by
    rw [wideValue_eq hn, fromLittleEndian_toNat, List.map_append, List.map_map,
      Nat.ofDigits_append, List.length_map, List.length_take]
    · have hmark := ofDigits_mark j (8 - min n low.length)
      rw [if_pos (by omega)] at hmark
      rw [Nat.pow_add, ← hmark]
      rfl
    · simp only [List.length_append, List.length_take, List.length_map, List.length_range,
        markedSource]
      omega
  have hlow : Nat.ofDigits 256 ((low.take n).map BitVec.toNat) <
      256 ^ (min n low.length + j) := by
    have hlt := fromLittleEndian_toNat_lt 64 (low.take n)
    rw [fromLittleEndian_toNat (by rw [List.length_take]; omega), List.length_take,
      Nat.pow_mul 2 8] at hlt
    exact hlt.trans_le (Nat.pow_le_pow_right (by decide) (by omega))
  omega

theorem firstByte_marked : firstByte (markedSource (count :: low) j) = count :=
  (firstByte_eq rfl).1

theorem read_marked (low : List Byte) (j : Nat) {least : U64}
    (hform : varIntForm count = some (n, least)) :
    serReadVarInt (markedSource (count :: low) j) =
      if wideValue n (markedSource low j) < least then
        .error .nonCanonical (afterWide n (markedSource low j))
      else if kMaxVardataSize < wideValue n (markedSource low j) then
        .error .sizeTooLarge (afterWide n (markedSource low j))
      else .ok (wideValue n (markedSource low j)) (afterWide n (markedSource low j)) := by
  rw [serReadVarInt_run, firstByte_marked, hform, skip_markedSource]

end Marked

section Exchange

variable {b low : List Byte} {count : Byte}

theorem word_toNat (h : 4 ≤ low.length) :
    (fromLittleEndian 32 (low.take 4)).toNat = (fromLittleEndian 64 (low.take 4)).toNat := by
  have hlen : (low.take 4).length = 4 := by
    rw [List.length_take]
    omega
  rw [fromLittleEndian_toNat (by rw [hlen]), fromLittleEndian_toNat (by rw [hlen]; omega)]

/-- Four bytes that are the low half of a length. -/
theorem word_toLittleEndian {n : U64} (h : n.toNat < 2 ^ 32) (rest : List Byte) :
    (fromLittleEndian 32 ((toLittleEndian 4 n ++ rest).take 4)).toNat = n.toNat := by
  rw [List.take_left' (toLittleEndian_length 4 n), ← toLittleEndian_setWidth n (u := 32) (by omega),
    fromLittleEndian_toLittleEndian (w := 32) rfl, BitVec.toNat_setWidth, Nat.mod_eq_of_lt h]

theorem settled_returns {s : Source} (hb : Settled (count :: low)) (hs : s.rest = count :: low)
    {n : U64} {rest : List Byte} (hn : n ≤ kMaxVardataSize)
    (hw : count :: low = serWriteVarInt n ++ rest) :
    ∃ s', serReadVarInt s = .ok n s' ∧ s'.rest = rest := by
  obtain ⟨hfirst, hrest⟩ := firstByte_eq hs
  have hle : n.toNat ≤ 0x02000000 := hn
  by_cases h1 : n.toNat < 253
  · rw [serWriteVarInt_one h1] at hw
    obtain ⟨rfl, rfl⟩ := List.cons.inj hw
    have hsmall : n.setWidth 8 < kVarint16bits := by
      simp only [BitVec.lt_def, BitVec.toNat_setWidth, kVarint16bits, BitVec.toNat_ofNat]
      omega
    have hback : (n.setWidth 8).setWidth 64 = n := by
      apply BitVec.eq_of_toNat_eq
      simp only [BitVec.toNat_setWidth]
      omega
    refine ⟨skip 1 s, ?_, hrest⟩
    rw [serReadVarInt_run, hfirst, form_small hsmall]
    exact congrArg (EStateM.Result.ok · _) hback
  by_cases h2 : n.toNat < 2 ^ 16
  · rw [serWriteVarInt_two (by omega) h2] at hw
    obtain ⟨rfl, rfl⟩ := List.cons.inj hw
    obtain hsmall | hlarge | ⟨hfour, -⟩ := hb
    · exact absurd hsmall (by decide)
    · exact absurd hlarge (by decide)
    · exact absurd hfour (by decide)
  · rw [serWriteVarInt_four (by omega) (by omega), List.cons_append] at hw
    obtain ⟨rfl, rfl⟩ := List.cons.inj hw
    obtain hsmall | hlarge | ⟨-, -, hword⟩ := hb
    · exact absurd hsmall (by decide)
    · exact absurd hlarge (by decide)
    · rw [Refused, word_toLittleEndian (by omega)] at hword
      have hmax : kMaxVardataSize.toNat = 0x02000000 := rfl
      omega

theorem settled_canonical {s s' : Source} (hb : Settled (count :: low))
    (hs : s.rest = count :: low) {v : U64} (h : serReadVarInt s = .ok v s') :
    v ≤ kMaxVardataSize ∧ serWriteVarInt v <+: count :: low := by
  obtain ⟨hfirst, hrest⟩ := firstByte_eq hs
  obtain ⟨hform, rfl⟩ | ⟨n, least, hform, hv, hleast, hmax⟩ := serReadVarInt_ok h
  · rw [hfirst] at hform ⊢
    have hsmall : count < kVarint16bits := by
      by_contra hno
      rw [varIntForm, if_neg hno] at hform
      split_ifs at hform
    refine ⟨?_, by rw [serWriteVarInt_small hsmall]; exact ⟨low, rfl⟩⟩
    have := small_toNat hsmall
    exact BitVec.le_def.mpr (by change _ ≤ 0x02000000; omega)
  · rw [hfirst] at hform
    have hle : v.toNat ≤ 0x02000000 := Nat.le_of_not_lt hmax
    obtain hsmall | rfl | ⟨rfl, hlen, hword⟩ := hb
    · rw [form_small hsmall] at hform
      cases hform
    · cases hform
      exact absurd (Nat.le_of_not_lt hleast : 0x100000000 ≤ v.toNat) (by omega)
    · cases hform
      have hlow : 0x10000 ≤ v.toNat := Nat.le_of_not_lt hleast
      have hbytes : toLittleEndian 4 v = low.take 4 := by
        rw [hv, (toLittleEndian_wideValue (by omega) _).1, buffer_of_le (by rwa [hrest]), hrest]
      have hback := word_toLittleEndian (n := v) (by omega) []
      rw [List.append_nil, List.take_of_length_le (by simp), hbytes] at hback
      rw [Refused, hback] at hword
      have hmax' : kMaxVardataSize.toNat = 0x02000000 := rfl
      omega

theorem settled_exchanged (hb : Settled b) : Exchanged b := by
  cases b with
  | nil => exact hb.elim
  | cons count low =>
    exact ⟨fun _ hs _ _ hn hw => settled_returns hb hs hn hw,
      fun _ hs _ _ h => settled_canonical hb hs h⟩

theorem not_exchanged_nil : ¬ Exchanged [] := by
  intro h
  have hread : ∃ s', serReadVarInt (markedSource [] 1) = .ok 0#64 s' := ⟨_, rfl⟩
  obtain ⟨s', hread⟩ := hread
  exact serWriteVarInt_ne_nil _ (List.prefix_nil.mp (h.canonical _ rfl _ _ hread).2)

/-- After the shorter marker the memory can make the length one of the longer form. -/
theorem not_exchanged_two (low : List Byte) : ¬ Exchanged (kVarint16bits :: low) := by
  intro h
  have hplace : min 2 low.length + (2 - low.length) = 2 := by omega
  have hvalue := wideValue_marked (n := 2) low (2 - low.length) (by omega) (by omega)
  rw [hplace] at hvalue
  have hread := read_marked low (2 - low.length)
    (show varIntForm kVarint16bits = some (2, _) from rfl)
  rw [if_neg, if_neg] at hread
  · obtain ⟨t, ht⟩ := (h.canonical _ rfl _ _ hread).2
    rw [serWriteVarInt_four (by omega) (by omega)] at ht
    exact absurd (List.cons.inj ht).1 (by decide)
  · refine Nat.not_lt_of_le (?_ : _ ≤ 0x02000000)
    omega
  · refine Nat.not_lt_of_le (?_ : 253 ≤ _)
    omega

/-- After the longer one it can complete the length. -/
theorem not_exchanged_short (hlen : low.length < 4) : ¬ Exchanged (kVarint32bits :: low) := by
  intro h
  have hplace : min 4 low.length + (3 - low.length) = 3 := by omega
  have hvalue := wideValue_marked (n := 4) low (3 - low.length) (by omega) (by omega)
  rw [hplace] at hvalue
  have hread := read_marked low (3 - low.length)
    (show varIntForm kVarint32bits = some (4, _) from rfl)
  rw [if_neg, if_neg] at hread
  · have hpre := (h.canonical _ rfl _ _ hread).2.length_le
    rw [serWriteVarInt_four (by omega) (by omega), List.length_cons, List.length_cons,
      toLittleEndian_length] at hpre
    omega
  · refine Nat.not_lt_of_le (?_ : _ ≤ 0x02000000)
    omega
  · refine Nat.not_lt_of_le (?_ : 0x10000 ≤ _)
    omega

/-- Or make a length that could have been taken too large. -/
theorem not_exchanged_taken (hlen : 4 ≤ low.length)
    (hword : ¬ Refused (fromLittleEndian 32 (low.take 4))) :
    ¬ Exchanged (kVarint32bits :: low) := by
  intro h
  have hmax : kMaxVardataSize.toNat = 0x02000000 := rfl
  have hplace : min 4 low.length + 0 = 4 := by omega
  have hvalue := wideValue_marked (n := 4) low 0 (by omega) (by omega)
  rw [hplace] at hvalue
  simp only [Refused, not_or, Nat.not_lt, hmax] at hword
  have hlow : (low.take 4).length = 4 := by
    rw [List.length_take]
    omega
  have hwrite : serWriteVarInt (fromLittleEndian 64 (low.take 4)) =
      kVarint32bits :: low.take 4 := by
    have hsame := word_toNat hlen
    rw [serWriteVarInt_four (by omega) (by omega), ← toLittleEndian_setWidth _ (u := 32) (by omega)]
    congr 1
    have hnarrow : (fromLittleEndian 64 (low.take 4)).setWidth 32 =
        fromLittleEndian 32 (low.take 4) := by
      apply BitVec.eq_of_toNat_eq
      rw [BitVec.toNat_setWidth, ← hsame, Nat.mod_eq_of_lt (BitVec.isLt _)]
    rw [hnarrow, toLittleEndian_fromLittleEndian (w := 32) rfl _ hlow]
  obtain ⟨s', hread, -⟩ := h.returns (markedSource (kVarint32bits :: low) 0) rfl
    (fromLittleEndian 64 (low.take 4)) (low.drop 4)
    (BitVec.le_def.mpr (by rw [← word_toNat hlen, hmax]; exact hword.2))
    (by rw [hwrite, List.cons_append, List.take_append_drop])
  rw [read_marked low 0 (show varIntForm kVarint32bits = some (4, _) from rfl), if_neg,
    if_pos] at hread
  · cases hread
  · refine (?_ : 0x02000000 < _)
    omega
  · refine Nat.not_lt_of_le (?_ : 0x10000 ≤ _)
    omega

theorem exchanged_settled (h : Exchanged b) : Settled b := by
  cases b with
  | nil => exact not_exchanged_nil h
  | cons count low =>
    by_contra hno
    simp only [Settled, not_or] at hno
    obtain ⟨hlarge, hwide, hfour⟩ := hno
    by_cases htwo : count = kVarint16bits
    · subst htwo
      exact not_exchanged_two low h
    have hcount : count = kVarint32bits := by
      apply BitVec.eq_of_toNat_eq
      have h1 : 253 ≤ count.toNat := by
        simpa [BitVec.lt_def, kVarint16bits] using hlarge
      have h2 : count.toNat ≠ 253 := fun he => htwo (BitVec.eq_of_toNat_eq he)
      have h3 : count.toNat ≠ 255 := fun he => hwide (BitVec.eq_of_toNat_eq he)
      have := count.isLt
      have h4 : kVarint32bits.toNat = 254 := rfl
      omega
    subst hcount
    by_cases hlen : low.length < 4
    · exact not_exchanged_short hlen h
    · have hlen : 4 ≤ low.length := by omega
      exact not_exchanged_taken hlen (fun hword => hfour ⟨rfl, hlen, hword⟩) h

/-- Exactly the bytes over which the memory has no say are exchanged as promised. -/
theorem exchanged_iff_settled (n : U64) (b : List Byte) :
    (serWriteVarInt n).length = varIntSize n.toNat ∧ (Exchanged b ↔ Settled b) :=
  ⟨serWriteVarInt_length n, exchanged_settled, settled_exchanged⟩

/-- A length of three bytes is refused where the memory held anything but zero above it. -/
theorem stale_length_refused :
    serWriteVarInt 253 = [0xfd, 0xfd, 0x00] ∧
      (∃ s', serReadVarInt (markedSource [0xfd, 0xfd, 0x00] 5) = .error .sizeTooLarge s') ∧
      ¬ Exchanged [0xfd, 0xfd, 0x00] := by
  have hread : ∃ s', serReadVarInt (markedSource [0xfd, 0xfd, 0x00] 5) =
      .error .sizeTooLarge s' := ⟨_, rfl⟩
  refine ⟨by decide, hread, fun h => ?_⟩
  obtain ⟨s', hread⟩ := hread
  obtain ⟨t, ht, -⟩ := h.returns (markedSource [0xfd, 0xfd, 0x00] 5) rfl 253 []
    (by decide) (by decide)
  rw [hread] at ht
  cases ht

end Exchange

end VarInts
