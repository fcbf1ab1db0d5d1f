import Btclite.Library.Agreement
import Btclite.Utility.Serialize

/-!
# Canonical words and lengths

Strict parsers for what the serializer writes: every byte must be there, a flag
is zero or one, and a length is written in its shortest form over a local whose
high bytes are zero. The deserializer checks little of this; it agrees with the
strict parsers exactly when what it returns would be written back onto the
bytes it has read.
-/

namespace Canonical

open Endian Serialize Agreement

/-- The unread bytes, and the stale bytes a narrow length is read over. -/
structure Cursor where
  rest : List Byte
  stale : Nat → Byte

abbrev Parser (A : Type) : Type := Strict Cursor A

def view : View Source Cursor Byte where
  cursor s := ⟨s.rest, s.memory.stale⟩
  unread c := c.rest

@[simp] theorem unread_cursor (s : Source) : view.unread (view.cursor s) = s.rest := rfl

@[simp] theorem rest_cursor (s : Source) : (view.cursor s).rest = s.rest := rfl

def take (n : Nat) : Parser (List Byte) := fun c =>
  if n ≤ c.rest.length then some (c.rest.take n, { c with rest := c.rest.drop n }) else none

def word (w : Nat) : Parser (BitVec w) :=
  fromLittleEndian w <$> take (w / 8)

def bool : Parser Bool := do
  let data ← take 1
  if data = [0#8] then pure false else if data = [1#8] then pure true else failure

def clean (n : Nat) : Parser Unit := fun c =>
  if ∀ i < n, c.stale i = 0#8 then some ((), { c with stale := fun i => c.stale (n + i) }) else none

def wideVarInt (n : Nat) (least : U64) : Parser U64 := do
  let low ← take n
  clean (8 - n)
  let varint := fromLittleEndian 64 low
  if varint < least then failure else pure varint

def varInt : Parser U64 := do
  let count ← word 8
  let varint ←
    (if count < kVarint16bits then pure (count.setWidth 64)
    else if count = kVarint16bits then wideVarInt 2 (kVarint16bits.setWidth 64)
    else if count = kVarint32bits then wideVarInt 4 0x10000#64
    else failure)
  if kMaxVardataSize < varint then failure else pure varint

section Words

theorem take_some_iff {n : Nat} {c c' : Cursor} {v : List Byte} :
    take n c = some (v, c') ↔
      v.length = n ∧ c.rest = v ++ c'.rest ∧ c'.stale = c.stale := by
  obtain ⟨rest, stale⟩ := c
  obtain ⟨rest', stale'⟩ := c'
  constructor
  · intro h
    by_cases hn : n ≤ rest.length
    · simp only [take, hn, if_true, Option.some.injEq, Prod.mk.injEq, Cursor.mk.injEq] at h
      obtain ⟨rfl, rfl, rfl⟩ := h
      simp [hn]
    · simp [take, hn] at h
  · rintro ⟨rfl, rfl, rfl⟩
    simp [take]

theorem take_cursor (n : Nat) (s : Source) : take n (view.cursor s) =
    if n ≤ s.rest.length then some (buffer n s, view.cursor (skip n s)) else none := by
  by_cases hn : n ≤ s.rest.length
  · have hsub : n - s.rest.length = 0 := by omega
    simp [take, view, buffer_of_le hn, skip, hn, hsub]
  · simp [take, view, hn]

theorem readData_agrees (n : Nat) :
    Agrees view [] (Prod.fst <$> readData n) (take n) id where
  begins := fun _ _ _ _ => List.nil_prefix
  sound := by
    intro s v c h
    obtain ⟨-, hrest, -⟩ := take_some_iff.mp h
    obtain ⟨size, hrun⟩ := readData_run n s
    rw [take_cursor] at h
    split_ifs at h with hn
    cases h
    exact ⟨skip n s, map_ok_iff.mpr ⟨_, hrun, rfl⟩, rfl, by simpa [view] using hrest⟩
  notices := by
    intro s v s' hr hpre
    obtain ⟨⟨data, size⟩, hrun, rfl⟩ := map_ok_iff.mp hr
    obtain ⟨rfl, -⟩ := readData_ok hrun
    have hn : n ≤ s.rest.length := by
      have := hpre.length_le
      simpa [buffer_length] using this
    exact ⟨view.cursor (skip n s), by rw [take_cursor, if_pos hn]⟩

theorem serReadData_eq (w : Nat) :
    Prod.fst <$> serReadData w = fromLittleEndian w <$> (Prod.fst <$> readData (w / 8)) := by
  simp only [serReadData, map_eq_pure_bind, bind_assoc, pure_bind]

theorem serReadData_agrees {w : Nat} (hw : w = 8 * (w / 8)) :
    Agrees view [] (Prod.fst <$> serReadData w) (word w) serWriteData := by
  rw [serReadData_eq]
  refine (readData_agrees (w / 8)).map _ ?_
  rintro data ⟨s, s', h⟩
  obtain ⟨⟨data', size⟩, hrun, rfl⟩ := map_ok_iff.mp h
  obtain ⟨rfl, -⟩ := readData_ok hrun
  exact toLittleEndian_fromLittleEndian hw _ (buffer_length _ _)

theorem word_append {w : Nat} (hw : w = 8 * (w / 8)) (v : BitVec w) (rest : List Byte)
    (m : Nat → Byte) : word w ⟨serWriteData v ++ rest, m⟩ = some (v, ⟨rest, m⟩) := by
  rw [word, map_eq_pure_bind, strict_bind_some_iff]
  refine ⟨serWriteData v, ⟨rest, m⟩, take_some_iff.mpr ⟨?_, rfl, rfl⟩, ?_⟩
  · simp [serWriteData]
  · rw [serWriteData, fromLittleEndian_toLittleEndian hw]
    rfl

end Words

section Flags

theorem strict_failure {A : Type} {c c' : Cursor} {v : A} :
    ¬ (failure : Parser A) c = some (v, c') := by
  intro h
  cases h

theorem bool_some_iff {c c' : Cursor} {v : Bool} :
    bool c = some (v, c') ↔ take 1 c = some (serWriteBool v, c') := by
  rw [bool, strict_bind_some_iff]
  constructor
  · rintro ⟨data, c₁, h, hv⟩
    split_ifs at hv with h0 h1
    · obtain ⟨rfl, rfl⟩ := strict_pure_some_iff.mp hv
      rw [h, h0]
      rfl
    · obtain ⟨rfl, rfl⟩ := strict_pure_some_iff.mp hv
      rw [h, h1]
      rfl
    · exact (strict_failure hv).elim
  · intro h
    refine ⟨serWriteBool v, c', h, ?_⟩
    cases v <;> rfl

theorem serReadBool_ok {s s' : Source} {v : Bool} (h : (Prod.fst <$> serReadBool) s = .ok v s') :
    v = (buffer 1 s).any (· ≠ 0#8) ∧ s' = skip 1 s := by
  obtain ⟨⟨v', size⟩, hrun, rfl⟩ := map_ok_iff.mp h
  rw [serReadBool, bind_ok_iff] at hrun
  obtain ⟨⟨data, size'⟩, s₁, hdata, hv⟩ := hrun
  obtain ⟨rfl, rfl⟩ := readData_ok hdata
  obtain ⟨hv, rfl⟩ := pure_ok_iff.mp hv
  cases hv
  exact ⟨rfl, rfl⟩

theorem serReadBool_agrees : Agrees view [] (Prod.fst <$> serReadBool) bool serWriteBool where
  begins := fun _ _ _ _ => List.nil_prefix
  sound := by
    intro s v c h
    obtain ⟨s', hdata, hcur, hrest⟩ := (readData_agrees 1).reads (bool_some_iff.mp h)
    refine ⟨s', map_ok_iff.mpr ?_, hcur, by simpa using hrest⟩
    obtain ⟨⟨data, size⟩, hrun, hd⟩ := map_ok_iff.mp hdata
    refine ⟨(data.any (· ≠ 0#8), size), bind_ok_iff.mpr ⟨_, s', hrun, rfl⟩, ?_⟩
    subst hd
    cases v <;> rfl
  notices := by
    intro s v s' h hpre
    obtain ⟨rfl, -⟩ := serReadBool_ok h
    cases hs : s.rest with
    | nil =>
      have := hpre.length_le
      simp [serWriteBool, hs] at this
    | cons b rest =>
      have hbuf : buffer 1 s = [b] := by simp [buffer, hs]
      rw [hbuf] at hpre ⊢
      have hb : [b] = serWriteBool ([b].any (· ≠ 0#8)) := by
        have := List.prefix_iff_eq_take.mp hpre
        simpa [serWriteBool, hs] using this.symm
      refine ⟨⟨rest, s.memory.stale⟩, bool_some_iff.mpr (take_some_iff.mpr ⟨rfl, ?_, rfl⟩)⟩
      rw [← hb]
      exact hs

theorem bool_append (v : Bool) (rest : List Byte) (m : Nat → Byte) :
    bool ⟨serWriteBool v ++ rest, m⟩ = some (v, ⟨rest, m⟩) :=
  bool_some_iff.mpr (take_some_iff.mpr ⟨rfl, rfl, rfl⟩)

end Flags

section Lengths

/-- What a marked length reads: the bytes that follow it, then stale high bytes. -/
def wideValue (n : Nat) (s : Source) : U64 :=
  fromLittleEndian 64 (buffer n s ++ (List.range (8 - n)).map (skip n s).memory.stale)

def afterWide (n : Nat) (s : Source) : Source :=
  { skip n s with memory :=
    { (skip n s).memory with stale := fun i => (skip n s).memory.stale (8 - n + i) } }

theorem readWideVarInt_run (n : Nat) (least : U64) (s : Source) :
    readWideVarInt n least s =
      if wideValue n s < least then .error .nonCanonical (afterWide n s)
      else .ok (wideValue n s) (afterWide n s) := by
  obtain ⟨size, hrun⟩ := readData_run n s
  change EStateM.bind _ _ s = _
  simp only [EStateM.bind, hrun]
  change (if wideValue n s < least then throw Failure.nonCanonical
    else pure (wideValue n s) : Deserializer U64) (afterWide n s) = _
  by_cases h : wideValue n s < least
  · simp only [h, if_true]
    rfl
  · simp only [h, if_false]
    rfl

theorem toLittleEndian_eight {n : Nat} (hn : n ≤ 8) (v : U64) :
    toLittleEndian 8 v = toLittleEndian n v ++ toLittleEndian (8 - n) (v >>> (8 * n)) := by
  rw [← toLittleEndian_add]
  congr 1
  omega

theorem toLittleEndian_wideValue {n : Nat} (hn : n ≤ 8) (s : Source) :
    toLittleEndian n (wideValue n s) = buffer n s ∧
      toLittleEndian (8 - n) (wideValue n s >>> (8 * n)) =
        (List.range (8 - n)).map (skip n s).memory.stale := by
  have h := toLittleEndian_fromLittleEndian (w := 64) (n := 8) rfl
    (buffer n s ++ (List.range (8 - n)).map (skip n s).memory.stale)
    (by simp only [List.length_append, buffer_length, List.length_map, List.length_range]; omega)
  exact List.append_inj ((toLittleEndian_eight hn _).symm.trans h) (by simp [buffer_length])

/-- The stale bytes are zero exactly when the length fits in the bytes that were read. -/
theorem wideValue_lt_iff {n : Nat} (hn : n ≤ 8) (s : Source) :
    (wideValue n s).toNat < 2 ^ (8 * n) ↔ ∀ i < 8 - n, (skip n s).memory.stale i = 0#8 := by
  have hhigh := (toLittleEndian_wideValue hn s).2
  constructor
  · intro h i hi
    have hz : wideValue n s >>> (8 * n) = 0#64 := by
      apply BitVec.eq_of_toNat_eq
      rw [BitVec.toNat_ushiftRight, Nat.shiftRight_eq_div_pow, Nat.div_eq_of_lt h]
      rfl
    rw [hz, toLittleEndian_zero] at hhigh
    have : (skip n s).memory.stale i ∈ List.replicate (8 - n) 0#8 := by
      rw [hhigh]
      exact List.mem_map.mpr ⟨i, List.mem_range.mpr hi, rfl⟩
    exact (List.mem_replicate.mp this).2
  · intro h
    have hz : toLittleEndian (8 - n) (wideValue n s >>> (8 * n)) =
        List.replicate (8 - n) 0#8 := by
      rw [hhigh]
      apply List.eq_replicate_iff.mpr
      refine ⟨by simp, ?_⟩
      intro b hb
      obtain ⟨i, hi, rfl⟩ := List.mem_map.mp hb
      exact h i (List.mem_range.mp hi)
    have hlow : wideValue n s = fromLittleEndian 64 (toLittleEndian n (wideValue n s)) := by
      conv_lhs => rw [← fromLittleEndian_toLittleEndian (w := 64) (n := 8) rfl (wideValue n s)]
      rw [toLittleEndian_eight hn, hz, fromLittleEndian_append_zero]
    have hlt := fromLittleEndian_toNat_lt 64 (toLittleEndian n (wideValue n s))
    rw [toLittleEndian_length] at hlt
    rw [hlow]
    exact hlt

theorem wideVarInt_cursor {n : Nat} (hn : n ≤ 8) (least : U64) (s : Source) :
    wideVarInt n least (view.cursor s) =
      if n ≤ s.rest.length ∧ (wideValue n s).toNat < 2 ^ (8 * n) ∧ ¬ wideValue n s < least then
        some (wideValue n s, view.cursor (afterWide n s)) else none := by
  change (take n (view.cursor s) >>= fun x => _) = _
  rw [take_cursor]
  by_cases hlen : n ≤ s.rest.length
  · rw [if_pos hlen]
    change (clean (8 - n) (view.cursor (skip n s)) >>= fun x => _) = _
    by_cases hv : (wideValue n s).toNat < 2 ^ (8 * n)
    · have hz := (wideValue_lt_iff hn s).mp hv
      have hlow : fromLittleEndian 64 (buffer n s) = wideValue n s := by
        have : (List.range (8 - n)).map (skip n s).memory.stale = List.replicate (8 - n) 0#8 := by
          apply List.eq_replicate_iff.mpr
          refine ⟨by simp, fun b hb => ?_⟩
          obtain ⟨i, hi, rfl⟩ := List.mem_map.mp hb
          exact hz i (List.mem_range.mp hi)
        rw [wideValue, this, fromLittleEndian_append_zero]
      have hclean : clean (8 - n) (view.cursor (skip n s)) =
          some ((), view.cursor (afterWide n s)) := if_pos hz
      rw [hclean]
      change (if fromLittleEndian 64 (buffer n s) < least then failure
        else pure (fromLittleEndian 64 (buffer n s)) : Parser U64) (view.cursor (afterWide n s)) = _
      rw [hlow]
      by_cases hleast : wideValue n s < least
      · rw [if_pos hleast, if_neg (fun h => h.2.2 hleast)]
        rfl
      · rw [if_neg hleast, if_pos ⟨hlen, hv, hleast⟩]
        rfl
    · have hclean : clean (8 - n) (view.cursor (skip n s)) = none :=
        if_neg (fun hz => hv ((wideValue_lt_iff hn s).mpr hz))
      rw [hclean]
      exact (if_neg (fun h => hv h.2.1)).symm
  · rw [if_neg hlen]
    exact (if_neg (fun h => hlen h.1)).symm

/-- How many bytes follow a marker byte, and the least length it may mark. -/
def varIntForm (count : Byte) : Option (Nat × U64) :=
  if count < kVarint16bits then none
  else if count = kVarint16bits then some (2, kVarint16bits.setWidth 64)
  else if count = kVarint32bits then some (4, 0x10000#64)
  else some (8, 0x100000000#64)

def firstByte (s : Source) : Byte := fromLittleEndian 8 (buffer 1 s)

theorem serReadData_ok {w : Nat} {s s' : Source} {v : BitVec w} {size : U64}
    (h : serReadData w s = .ok (v, size) s') :
    v = fromLittleEndian w (buffer (w / 8) s) ∧ s' = skip (w / 8) s := by
  rw [serReadData, bind_ok_iff] at h
  obtain ⟨⟨data, size'⟩, s₁, hdata, hv⟩ := h
  obtain ⟨rfl, rfl⟩ := readData_ok hdata
  obtain ⟨hv, rfl⟩ := pure_ok_iff.mp hv
  cases hv
  exact ⟨rfl, rfl⟩

theorem serReadData_run (w : Nat) (s : Source) : ∃ size,
    serReadData w s = .ok (fromLittleEndian w (buffer (w / 8) s), size) (skip (w / 8) s) := by
  obtain ⟨size, hrun⟩ := readData_run (w / 8) s
  exact ⟨size, bind_ok_iff.mpr ⟨_, _, hrun, rfl⟩⟩

/-- A length of one byte is below the limit. -/
theorem byte_allowed (b : Byte) : ¬ kMaxVardataSize < b.setWidth 64 := by
  simp only [BitVec.lt_def, kMaxVardataSize, BitVec.toNat_setWidth, BitVec.toNat_ofNat]
  have := b.isLt
  omega

/-- Every way `SerReadVarInt` can end. -/
theorem serReadVarInt_run (s : Source) : serReadVarInt s =
    match varIntForm (firstByte s) with
    | none => .ok ((firstByte s).setWidth 64) (skip 1 s)
    | some (n, least) =>
      if wideValue n (skip 1 s) < least then .error .nonCanonical (afterWide n (skip 1 s))
      else if kMaxVardataSize < wideValue n (skip 1 s) then
        .error .sizeTooLarge (afterWide n (skip 1 s))
      else .ok (wideValue n (skip 1 s)) (afterWide n (skip 1 s)) := by
  obtain ⟨size, hrun⟩ := serReadData_run 8 s
  have hwide : ∀ n least, (do
      let varint ← readWideVarInt n least
      if kMaxVardataSize < varint then throw Failure.sizeTooLarge else pure varint :
        Deserializer U64) (skip 1 s) =
      if wideValue n (skip 1 s) < least then .error .nonCanonical (afterWide n (skip 1 s))
      else if kMaxVardataSize < wideValue n (skip 1 s) then
        .error .sizeTooLarge (afterWide n (skip 1 s))
      else .ok (wideValue n (skip 1 s)) (afterWide n (skip 1 s)) := by
    intro n least
    change EStateM.bind _ _ (skip 1 s) = _
    simp only [EStateM.bind, readWideVarInt_run]
    by_cases h1 : wideValue n (skip 1 s) < least
    · simp only [h1, if_true]
    · simp only [h1, if_false]
      by_cases h2 : kMaxVardataSize < wideValue n (skip 1 s)
      · simp only [h2, if_true]
        rfl
      · simp only [h2, if_false]
        rfl
  change EStateM.bind _ _ s = _
  simp only [EStateM.bind, hrun]
  change (do
    let varint ←
      (if firstByte s < kVarint16bits then pure ((firstByte s).setWidth 64)
      else if firstByte s = kVarint16bits then readWideVarInt 2 (kVarint16bits.setWidth 64)
      else if firstByte s = kVarint32bits then readWideVarInt 4 0x10000#64
      else readWideVarInt 8 0x100000000#64)
    if kMaxVardataSize < varint then throw Failure.sizeTooLarge else pure varint :
      Deserializer U64) (skip 1 s) = _
  by_cases h1 : firstByte s < kVarint16bits
  · simp only [varIntForm, h1, if_true, pure_bind, byte_allowed, if_false]
    rfl
  by_cases h2 : firstByte s = kVarint16bits
  · simp only [varIntForm, h2, if_true, if_false, hwide, BitVec.lt_irrefl]
  by_cases h3 : firstByte s = kVarint32bits
  · have h4 : ¬ kVarint32bits < kVarint16bits := by decide
    have h5 : ¬ kVarint32bits = kVarint16bits := by decide
    simp only [varIntForm, h3, h4, h5, if_true, if_false, hwide]
  · simp only [varIntForm, h1, h2, h3, if_false, hwide]

/-- A length that takes the marked form `count` is written with the same marker if it
fits, and with a larger one if it does not. -/
theorem serWriteVarInt_of_form {count : Byte} {n : Nat} {least v : U64}
    (hform : varIntForm count = some (n, least)) (hleast : ¬ v < least) :
    n ≤ 8 ∧ (v.toNat < 2 ^ (8 * n) → serWriteVarInt v = count :: toLittleEndian n v) ∧
      (¬ v.toNat < 2 ^ (8 * n) → ∀ t, serWriteVarInt v ≠ count :: t) := by
  rw [varIntForm] at hform
  split_ifs at hform with h1 h2 h3
  · cases hform
    rw [h2]
    have hv : 253 ≤ v.toNat := by
      simpa [BitVec.lt_def, kVarint16bits] using hleast
    refine ⟨by omega, fun h => serWriteVarInt_two hv (by omega), fun h t ht => ?_⟩
    by_cases h' : v.toNat < 2 ^ 32
    · rw [serWriteVarInt_four (by omega) h'] at ht
      exact absurd (List.cons.inj ht).1 (by decide)
    · rw [serWriteVarInt_eight (by omega)] at ht
      exact absurd (List.cons.inj ht).1 (by decide)
  · cases hform
    rw [h3]
    have hv : 2 ^ 16 ≤ v.toNat := by
      simpa [BitVec.lt_def] using hleast
    refine ⟨by omega, fun h => serWriteVarInt_four hv (by omega), fun h t ht => ?_⟩
    rw [serWriteVarInt_eight (by omega)] at ht
    exact absurd (List.cons.inj ht).1 (by decide)
  · cases hform
    have hv : 2 ^ 32 ≤ v.toNat := by
      simpa [BitVec.lt_def] using hleast
    have hcount : count = kVarint64bits := by
      apply BitVec.eq_of_toNat_eq
      have h1' : 253 ≤ count.toNat := by
        simpa [BitVec.lt_def, kVarint16bits] using h1
      have h2' : count.toNat ≠ 253 := fun h => h2 (BitVec.eq_of_toNat_eq h)
      have h3' : count.toNat ≠ 254 := fun h => h3 (BitVec.eq_of_toNat_eq h)
      have := count.isLt
      have h4 : kVarint64bits.toNat = 255 := rfl
      omega
    rw [hcount]
    refine ⟨le_rfl, fun _ => serWriteVarInt_eight hv, fun h => ?_⟩
    exact absurd v.isLt h

theorem varInt_cursor (s : Source) : varInt (view.cursor s) =
    if s.rest = [] then none
    else match varIntForm (firstByte s) with
      | none => some ((firstByte s).setWidth 64, view.cursor (skip 1 s))
      | some (n, least) =>
        if n ≤ (skip 1 s).rest.length ∧ (wideValue n (skip 1 s)).toNat < 2 ^ (8 * n) ∧
            ¬ wideValue n (skip 1 s) < least ∧ ¬ kMaxVardataSize < wideValue n (skip 1 s) then
          some (wideValue n (skip 1 s), view.cursor (afterWide n (skip 1 s)))
        else none := by
  have hwide : ∀ n least, n ≤ 8 → (do
      let varint ← wideVarInt n least
      if kMaxVardataSize < varint then failure else pure varint : Parser U64)
        (view.cursor (skip 1 s)) =
      if n ≤ (skip 1 s).rest.length ∧ (wideValue n (skip 1 s)).toNat < 2 ^ (8 * n) ∧
          ¬ wideValue n (skip 1 s) < least ∧ ¬ kMaxVardataSize < wideValue n (skip 1 s) then
        some (wideValue n (skip 1 s), view.cursor (afterWide n (skip 1 s)))
      else none := by
    intro n least hn
    change (wideVarInt n least (view.cursor (skip 1 s)) >>= fun x => _) = _
    rw [wideVarInt_cursor hn]
    by_cases h : n ≤ (skip 1 s).rest.length ∧ (wideValue n (skip 1 s)).toNat < 2 ^ (8 * n) ∧
        ¬ wideValue n (skip 1 s) < least
    · rw [if_pos h]
      change (if kMaxVardataSize < wideValue n (skip 1 s) then failure
        else pure (wideValue n (skip 1 s)) : Parser U64) _ = _
      by_cases hmax : kMaxVardataSize < wideValue n (skip 1 s)
      · rw [if_pos hmax, if_neg (fun h => h.2.2.2 hmax)]
        rfl
      · rw [if_neg hmax, if_pos ⟨h.1, h.2.1, h.2.2, hmax⟩]
        rfl
    · rw [if_neg h]
      exact (if_neg (fun h' => h ⟨h'.1, h'.2.1, h'.2.2.1⟩)).symm
  change (((take 1 (view.cursor s)) >>= fun x => _) >>= fun x => _) = _
  rw [take_cursor]
  by_cases hs : s.rest = []
  · simp [hs]
  have hlen : 1 ≤ s.rest.length := List.length_pos_iff.mpr hs
  rw [if_pos hlen, if_neg hs]
  change (do
    let varint ←
      (if firstByte s < kVarint16bits then pure ((firstByte s).setWidth 64)
      else if firstByte s = kVarint16bits then wideVarInt 2 (kVarint16bits.setWidth 64)
      else if firstByte s = kVarint32bits then wideVarInt 4 0x10000#64
      else failure)
    if kMaxVardataSize < varint then failure else pure varint : Parser U64)
      (view.cursor (skip 1 s)) = _
  by_cases h1 : firstByte s < kVarint16bits
  · simp only [varIntForm, h1, if_true, pure_bind, byte_allowed, if_false]
    rfl
  by_cases h2 : firstByte s = kVarint16bits
  · simp only [varIntForm, h2, if_true, if_false, hwide 2 _ (by omega), BitVec.lt_irrefl]
  by_cases h3 : firstByte s = kVarint32bits
  · have h4 : ¬ kVarint32bits < kVarint16bits := by decide
    have h5 : ¬ kVarint32bits = kVarint16bits := by decide
    simp only [varIntForm, h3, h4, h5, if_true, if_false, hwide 4 _ (by omega)]
  · have hnone : ¬ (8 ≤ (skip 1 s).rest.length ∧ (wideValue 8 (skip 1 s)).toNat < 2 ^ (8 * 8) ∧
        ¬ wideValue 8 (skip 1 s) < 0x100000000#64 ∧
        ¬ kMaxVardataSize < wideValue 8 (skip 1 s)) := by
      rintro ⟨-, -, hleast, hmax⟩
      simp only [BitVec.lt_def, kMaxVardataSize, BitVec.toNat_ofNat] at hleast hmax
      omega
    simp only [varIntForm, h1, h2, h3, if_false, hnone]
    rfl

theorem rest_eq_firstByte_cons {s : Source} (hs : s.rest ≠ []) :
    s.rest = firstByte s :: (skip 1 s).rest := by
  cases h : s.rest with
  | nil => exact absurd h hs
  | cons b rest =>
    have hb : firstByte s = b := by
      have : toLittleEndian 1 (fromLittleEndian 8 [b]) = [b] :=
        toLittleEndian_fromLittleEndian rfl [b] rfl
      simpa [firstByte, buffer, h, toLittleEndian] using this
    simp [hb, skip, h]

theorem serReadVarInt_agrees : Agrees view [] serReadVarInt varInt serWriteVarInt where
  begins := fun _ _ _ _ => List.nil_prefix
  sound := by
    intro s v c h
    rw [varInt_cursor] at h
    rw [serReadVarInt_run]
    split_ifs at h with hs
    have hrest := rest_eq_firstByte_cons hs
    cases hform : varIntForm (firstByte s) with
    | none =>
      rw [hform] at h
      cases h
      refine ⟨skip 1 s, rfl, rfl, ?_⟩
      have hlt : ((firstByte s).setWidth 64).toNat < 253 := by
        rw [varIntForm] at hform
        split_ifs at hform with h1
        have h1' : (firstByte s).toNat < 253 := by
          simpa [BitVec.lt_def, kVarint16bits] using h1
        rw [BitVec.toNat_setWidth]
        omega
      rw [serWriteVarInt_one hlt, BitVec.setWidth_setWidth_of_le _ (by omega)]
      simpa [view] using hrest
    | some form =>
      obtain ⟨n, least⟩ := form
      simp only [hform] at h ⊢
      split_ifs at h with hv
      obtain ⟨hlen, hlt, hleast, hmax⟩ := hv
      cases h
      obtain ⟨hn, hwrite, -⟩ := serWriteVarInt_of_form hform hleast
      refine ⟨_, by rw [if_neg hleast, if_neg hmax], rfl, ?_⟩
      rw [hwrite hlt, (toLittleEndian_wideValue hn _).1, buffer_of_le hlen]
      have hafter : (afterWide n (skip 1 s)).rest = (skip 1 s).rest.drop n := rfl
      simp only [List.nil_append, unread_cursor, List.cons_append]
      rw [hafter, List.take_append_drop, ← hrest]
  notices := by
    intro s v s' h hpre
    rw [serReadVarInt_run] at h
    rw [varInt_cursor]
    have hs : s.rest ≠ [] := by
      intro hs
      simp only [List.nil_append, unread_cursor, hs] at hpre
      exact serWriteVarInt_ne_nil v (List.prefix_nil.mp hpre)
    have hrest := rest_eq_firstByte_cons hs
    rw [if_neg hs]
    cases hform : varIntForm (firstByte s) with
    | none => exact ⟨_, by rw [hform] at h; cases h; rfl⟩
    | some form =>
      obtain ⟨n, least⟩ := form
      simp only [hform] at h ⊢
      split_ifs at h with hleast hmax
      cases h
      obtain ⟨hn, hwrite, hlarge⟩ := serWriteVarInt_of_form hform hleast
      have hlt : (wideValue n (skip 1 s)).toNat < 2 ^ (8 * n) := by
        by_contra hlt
        obtain ⟨t, ht⟩ := hpre
        cases hw : serWriteVarInt (wideValue n (skip 1 s)) with
        | nil => exact serWriteVarInt_ne_nil _ hw
        | cons b u =>
          rw [hw] at ht
          simp only [List.nil_append, unread_cursor] at ht
          rw [hrest] at ht
          have hb : b = firstByte s := (List.cons.inj ht).1
          exact hlarge hlt u (by rw [hw, hb])
      have hlen : n ≤ (skip 1 s).rest.length := by
        have := hpre.length_le
        rw [hwrite hlt] at this
        simp only [List.nil_append, unread_cursor, List.length_cons, toLittleEndian_length] at this
        rw [hrest] at this
        simpa using this
      exact ⟨_, by rw [if_pos ⟨hlen, hlt, hleast, hmax⟩]⟩

theorem varInt_append {v : U64} (hv : v.toNat < 253) (rest : List Byte) (m : Nat → Byte) :
    varInt ⟨serWriteVarInt v ++ rest, m⟩ = some (v, ⟨rest, m⟩) := by
  have hw := word_append (w := 8) rfl (v.setWidth 8) rest m
  have hsmall : v.setWidth 8 < kVarint16bits := by
    simp only [BitVec.lt_def, BitVec.toNat_setWidth, kVarint16bits, BitVec.toNat_ofNat]
    omega
  have hback : (v.setWidth 8).setWidth 64 = v := by
    apply BitVec.eq_of_toNat_eq
    simp only [BitVec.toNat_setWidth]
    omega
  have hmax : ¬ kMaxVardataSize < v := by
    simp only [BitVec.lt_def, kMaxVardataSize, BitVec.toNat_ofNat]
    omega
  rw [serWriteVarInt_one hv, varInt, strict_bind_some_iff]
  refine ⟨v.setWidth 8, ⟨rest, m⟩, ?_, ?_⟩
  · simpa [serWriteData, toLittleEndian] using hw
  · simp only [hsmall, if_true, pure_bind, hback, hmax, if_false]
    rfl

end Lengths

end Canonical
