import Btclite.Utility.Canonical

/-!
# Canonical strings, arrays and vectors

The containers built over words and lengths. A string is the one container
whose reader can stop early: it ends at the first zero byte, whatever its
length field says.
-/

namespace CanonicalVectors

open Endian Serialize Agreement Canonical

def string (cap : Nat) : Parser (List Byte) := do
  let size ← varInt
  if cap < size.toNat then failure
  else do
    let s ← take size.toNat
    if 0#8 ∈ s then failure else pure s

def array : (n : Nat) → Parser (Bytes n)
  | 0 => pure ⟨[], rfl⟩
  | n + 1 => do
    let b ← word 8
    let out ← array n
    pure (out.cons b)

def elements {A : Type} (element : Parser A) : Nat → Parser (List A)
  | 0 => pure []
  | n + 1 => do
    let v ← element
    let out ← elements element n
    pure (v :: out)

def vector {A : Type} (element : Parser A) : Parser (List A) := do
  let count ← varInt
  elements element count.toNat

section Strings

theorem readChar_cons {c : Option Byte} {s : Source} {b : Byte} {rest : List Byte}
    (hs : s.rest = b :: rest) : readChar c s = .ok b { s with rest := rest } := by
  have hread : Source.read 1 s =
      .ok ([b], ((min 1 s.rest.length : Nat) : Int)) { s with rest := rest } := by
    simp [Source.read, hs]
  change EStateM.bind _ _ s = _
  simp only [EStateM.bind, hread]
  rfl

theorem readChar_nil_some {c : Byte} {s : Source} (hs : s.rest = []) :
    readChar (some c) s = .ok c s := by
  have hread : Source.read 1 s = .ok ([], -1) s := by simp [Source.read, hs]
  change EStateM.bind _ _ s = _
  simp only [EStateM.bind, hread]
  rfl

theorem readChars_succ {n : Nat} {c : Option Byte} {s s₁ : Source} {b : Byte}
    (h : readChar c s = .ok b s₁) :
    readChars (n + 1) c s =
      if b = 0#8 then .ok [] s₁ else (List.cons b <$> readChars n (some b)) s₁ := by
  change EStateM.bind _ _ s = _
  simp only [EStateM.bind, h]
  by_cases hb : b = 0#8
  · simp only [hb, if_true]
    rfl
  · simp only [hb, if_false, map_eq_pure_bind]

/-- All characters are there and none is zero: the string is read as written. -/
theorem readChars_clean {n : Nat} {c : Option Byte} {s : Source} (hn : n ≤ s.rest.length)
    (hz : 0#8 ∉ s.rest.take n) :
    readChars n c s = .ok (s.rest.take n) { s with rest := s.rest.drop n } := by
  induction n generalizing c s with
  | zero => rfl
  | succ n ih =>
    cases hs : s.rest with
    | nil => simp [hs] at hn
    | cons b rest =>
      rw [hs, List.take_succ_cons, List.mem_cons, not_or] at hz
      have hrec := ih (c := some b) (s := { s with rest := rest })
        (by simpa [hs] using hn) hz.2
      rw [readChars_succ (readChar_cons hs), if_neg (Ne.symm hz.1)]
      exact map_ok_iff.mpr ⟨_, hrec, rfl⟩

theorem readChars_bounds {n : Nat} {c : Option Byte} {s s' : Source} {out : List Byte}
    (h : readChars n c s = .ok out s') : 0#8 ∉ out ∧ out.length ≤ n := by
  induction n generalizing c s out with
  | zero =>
    obtain ⟨rfl, -⟩ := pure_ok_iff.mp h
    simp
  | succ n ih =>
    rw [readChars, bind_ok_iff] at h
    obtain ⟨b, s₁, -, h⟩ := h
    split_ifs at h with hb
    · obtain ⟨rfl, -⟩ := pure_ok_iff.mp h
      simp
    · obtain ⟨out', s₂, hrec, hout⟩ := bind_ok_iff.mp h
      obtain ⟨rfl, rfl⟩ := pure_ok_iff.mp hout
      obtain ⟨hz, hlen⟩ := ih hrec
      refine ⟨?_, by simpa using hlen⟩
      rintro hmem
      rcases List.mem_cons.mp hmem with h | h
      · exact hb h.symm
      · exact hz h

/-- A string shorter than its length field ended at a zero byte of the input, or at one
that was in memory when the input had nothing left. -/
theorem readChars_short {n : Nat} {c : Option Byte} {s s' : Source} {out : List Byte}
    (h : readChars n c s = .ok out s') (hshort : out.length < n) :
    (s.rest = out ++ 0#8 :: s'.rest ∧ s'.memory = s.memory) ∨
      (s.rest = [] ∧ out = [] ∧ ∀ b, c = some b → b = 0#8) := by
  induction n generalizing c s out with
  | zero => omega
  | succ n ih =>
    cases hs : s.rest with
    | nil =>
      cases c with
      | none =>
        rw [readChars, bind_ok_iff] at h
        obtain ⟨b, s₁, hb, h⟩ := h
        split_ifs at h with hzero
        · obtain ⟨rfl, -⟩ := pure_ok_iff.mp h
          exact Or.inr ⟨rfl, rfl, by simp⟩
        · exfalso
          obtain ⟨out', s₂, hrec, hout⟩ := bind_ok_iff.mp h
          obtain ⟨rfl, rfl⟩ := pure_ok_iff.mp hout
          have hnil : s₁.rest = [] := by
            have hread : Source.read 1 s = .ok ([], -1) s := by simp [Source.read, hs]
            rw [readChar, bind_ok_iff] at hb
            obtain ⟨x, s₃, hx, hb⟩ := hb
            rw [hread] at hx
            cases hx
            obtain ⟨y, s₄, hy, hb⟩ := bind_ok_iff.mp hb
            cases hy
            cases hb
            exact hs
          rcases ih hrec (by simpa using hshort) with ⟨hrest, -⟩ | ⟨-, -, hb0⟩
          · rw [hnil] at hrest
            simp at hrest
          · exact hzero (hb0 b rfl)
      | some b =>
        rw [readChars_succ (readChar_nil_some hs)] at h
        split_ifs at h with hzero
        · cases h
          exact Or.inr ⟨rfl, rfl, fun b' hb' => by cases hb'; exact hzero⟩
        · exfalso
          obtain ⟨out', hrec, rfl⟩ := map_ok_iff.mp h
          rcases ih hrec (by simpa using hshort) with ⟨hrest, -⟩ | ⟨-, -, hb0⟩
          · rw [hs] at hrest
            simp at hrest
          · exact hzero (hb0 b rfl)
    | cons b rest =>
      rw [readChars_succ (readChar_cons hs)] at h
      split_ifs at h with hzero
      · cases h
        exact Or.inl ⟨by simp [hzero], rfl⟩
      · obtain ⟨out', hrec, rfl⟩ := map_ok_iff.mp h
        rcases ih hrec (by simpa using hshort) with ⟨hrest, hmem⟩ | ⟨-, -, hb0⟩
        · simp only at hrest
          exact Or.inl ⟨by simp [hrest], hmem⟩
        · exact absurd (hb0 b rfl) hzero

/-- A length that covers all of the input leaves nothing of it, unless a zero byte ends
the string. -/
theorem readChars_ends {n : Nat} {c : Option Byte} {s s' : Source} {out : List Byte}
    (h : readChars n c s = .ok out s') (hn : s.rest.length ≤ n) (hc : s.rest = [] → c.isSome) :
    s'.memory = s.memory ∧ (s'.rest = [] ∨ s.rest = out ++ 0#8 :: s'.rest) := by
  induction n generalizing c s out with
  | zero =>
    obtain ⟨rfl, rfl⟩ := pure_ok_iff.mp h
    exact ⟨rfl, Or.inl (List.length_eq_zero_iff.mp (by omega))⟩
  | succ n ih =>
    cases hs : s.rest with
    | nil =>
      obtain ⟨b, rfl⟩ := Option.isSome_iff_exists.mp (hc hs)
      rw [readChars_succ (readChar_nil_some hs)] at h
      split_ifs at h with hzero
      · cases h
        exact ⟨rfl, Or.inl hs⟩
      · obtain ⟨out', hrec, rfl⟩ := map_ok_iff.mp h
        obtain ⟨hmem, hrest⟩ := ih hrec (by simp [hs]) fun _ => rfl
        refine ⟨hmem, Or.inl (hrest.resolve_right fun hend => ?_)⟩
        rw [hs] at hend
        simp at hend
    | cons b rest =>
      rw [readChars_succ (readChar_cons hs)] at h
      split_ifs at h with hzero
      · cases h
        exact ⟨rfl, Or.inr (by simp [hzero])⟩
      · obtain ⟨out', hrec, rfl⟩ := map_ok_iff.mp h
        obtain ⟨hmem, hrest⟩ := ih hrec (by simpa [hs] using hn) fun _ => rfl
        exact ⟨hmem, hrest.imp id fun hend => by simpa using hend⟩

theorem deserializeString_ok_iff {s s' : Source} {out : List Byte} :
    serialRead deserializeString s = .ok out s' ↔
      ∃ size s₁, serReadVarInt s = .ok size s₁ ∧ readChars size.toNat none s₁ = .ok out s' := by
  rw [serialRead, map_ok_iff]
  constructor
  · rintro ⟨⟨out', k⟩, h, rfl⟩
    obtain ⟨size, s₁, hsize, h⟩ := bind_ok_iff.mp h
    obtain ⟨out, s₂, hchars, h⟩ := bind_ok_iff.mp h
    obtain ⟨hv, rfl⟩ := pure_ok_iff.mp h
    cases hv
    exact ⟨size, s₁, hsize, hchars⟩
  · rintro ⟨size, s₁, hsize, hchars⟩
    exact ⟨(out, size + 1), bind_ok_iff.mpr ⟨size, s₁, hsize,
      bind_ok_iff.mpr ⟨out, s', hchars, rfl⟩⟩, rfl⟩

theorem string_some_iff {cap : Nat} {c c' : Cursor} {out : List Byte} :
    string cap c = some (out, c') ↔ ∃ size c₁, varInt c = some (size, c₁) ∧
      size.toNat ≤ cap ∧ take size.toNat c₁ = some (out, c') ∧ 0#8 ∉ out := by
  rw [string, strict_bind_some_iff]
  constructor
  · rintro ⟨size, c₁, hsize, h⟩
    split_ifs at h with hcap
    · exact (strict_failure h).elim
    · obtain ⟨s, c₂, hs, h⟩ := strict_bind_some_iff.mp h
      split_ifs at h with hz
      · exact (strict_failure h).elim
      · obtain ⟨rfl, rfl⟩ := strict_pure_some_iff.mp h
        exact ⟨size, c₁, hsize, by omega, hs, hz⟩
  · rintro ⟨size, c₁, hsize, hcap, hs, hz⟩
    refine ⟨size, c₁, hsize, ?_⟩
    rw [if_neg (by omega)]
    exact strict_bind_some_iff.mpr ⟨out, c', hs, by rw [if_neg hz]; rfl⟩

/-- Past its length, a string whose characters are all read is the written one. -/
theorem string_of_chars {cap : Nat} {s s₁ s' : Source} {size : U64} {out : List Byte}
    (hsize : varInt (view.cursor s) = some (size, view.cursor s₁)) (hcap : out.length ≤ cap)
    (hchars : readChars size.toNat none s₁ = .ok out s') (hlen : out.length = size.toNat)
    (hpre : out <+: s₁.rest) : ∃ c, string cap (view.cursor s) = some (out, c) := by
  have hn : size.toNat ≤ s₁.rest.length := hlen ▸ hpre.length_le
  have hout : out = s₁.rest.take size.toNat := by
    rw [← hlen]
    exact List.prefix_iff_eq_take.mp hpre
  refine ⟨view.cursor (skip size.toNat s₁), string_some_iff.mpr
    ⟨size, view.cursor s₁, hsize, by omega, ?_, (readChars_bounds hchars).1⟩⟩
  rw [take_cursor, if_pos hn, buffer_of_le hn, ← hout]

theorem string_reads {cap : Nat} {s : Source} {out : List Byte} {c : Cursor}
    (h : string cap (view.cursor s) = some (out, c)) :
    ∃ s', serialRead deserializeString s = .ok out s' ∧ view.cursor s' = c ∧
      s.rest = serializeString out ++ c.rest ∧ out.length ≤ cap := by
  obtain ⟨size, c₁, hsize, hcap, htake, hz⟩ := string_some_iff.mp h
  obtain ⟨s₁, hrun, rfl, hrest⟩ := serReadVarInt_agrees.reads hsize
  obtain ⟨hlen, hrest₁, hstale⟩ := take_some_iff.mp htake
  simp only [view] at hrest₁ hstale
  have hn : size.toNat ≤ s₁.rest.length := by
    rw [hrest₁, List.length_append]
    omega
  have hout : s₁.rest.take size.toNat = out := by rw [hrest₁, ← hlen, List.take_left]
  have hchars := readChars_clean (c := none) hn (by rw [hout]; exact hz)
  rw [hout] at hchars
  have hsz : BitVec.ofNat 64 out.length = size := by
    rw [hlen, BitVec.ofNat_toNat, BitVec.setWidth_eq]
  have hdrop : s₁.rest.drop size.toNat = c.rest := by rw [hrest₁, ← hlen, List.drop_left]
  refine ⟨_, deserializeString_ok_iff.mpr ⟨size, s₁, hrun, hchars⟩, ?_, ?_, by omega⟩
  · simp only [view, hdrop, ← hstale]
  · rw [serializeString, hsz]
    simp only [unread_cursor] at hrest
    rw [hrest, hrest₁, List.append_assoc]

/-- Under a cap that one byte can announce, reading and cutting a string agrees with
the strict parser. -/
theorem string_agrees {cap : Nat} (hcap : cap < 253) :
    Agrees view [] (cutTo cap <$> serialRead deserializeString) (string cap) serializeString where
  begins := fun _ _ _ _ => List.nil_prefix
  sound := by
    intro s v c h
    obtain ⟨s', hrun, hcur, hrest, hle⟩ := string_reads h
    exact ⟨s', map_ok_iff.mpr ⟨v, hrun, cutTo_of_le hle⟩, hcur, by simpa [view] using hrest⟩
  notices := by
    intro s v s' h hpre
    simp only [List.nil_append, unread_cursor] at hpre
    obtain ⟨out, hrun, rfl⟩ := map_ok_iff.mp h
    obtain ⟨size, s₁, hsize, hchars⟩ := deserializeString_ok_iff.mp hrun
    have hv : (cutTo cap out).length ≤ cap := by
      rw [cutTo_eq_take, List.length_take]
      omega
    have hone : (BitVec.ofNat 64 (cutTo cap out).length).toNat = (cutTo cap out).length := by
      rw [BitVec.toNat_ofNat]
      omega
    have hwrite : serWriteVarInt (BitVec.ofNat 64 (cutTo cap out).length) <+: s.rest :=
      (List.prefix_append _ _).trans hpre
    obtain ⟨tail, htail⟩ := hwrite
    have hvar := varInt_append (v := BitVec.ofNat 64 (cutTo cap out).length) (by omega) tail
      s.memory.stale
    rw [htail] at hvar
    obtain ⟨s₂, hrun₂, hcur, -⟩ := serReadVarInt_agrees.reads (s := s) hvar
    rw [hsize] at hrun₂
    cases hrun₂
    have hlen : out.length = (cutTo cap out).length := by
      have hle := (readChars_bounds hchars).2
      rw [hone, cutTo_eq_take, List.length_take] at hle
      rw [cutTo_eq_take, List.length_take]
      omega
    have hcut : cutTo cap out = out := cutTo_of_le (by omega)
    have hrest : s₁.rest = tail := congrArg Cursor.rest hcur
    have hchar : out <+: s₁.rest := by
      rw [serializeString, ← htail] at hpre
      rw [hrest, ← hcut]
      exact (List.prefix_append_right_inj _).mp hpre
    rw [hcut]
    refine string_of_chars (by rw [hcur]; exact hvar) (by omega) hchars ?_ hchar
    omega

theorem string_append {cap : Nat} {v : List Byte} (hz : 0#8 ∉ v) (hlen : v.length < 253)
    (hcap : v.length ≤ cap) (rest : List Byte) (m : Nat → Byte) :
    string cap ⟨serializeString v ++ rest, m⟩ = some (v, ⟨rest, m⟩) := by
  have hone : (BitVec.ofNat 64 v.length).toNat = v.length := by
    rw [BitVec.toNat_ofNat]
    omega
  refine string_some_iff.mpr ⟨BitVec.ofNat 64 v.length, ⟨v ++ rest, m⟩, ?_, by omega, ?_, hz⟩
  · rw [serializeString, List.append_assoc]
    exact varInt_append (by omega) _ _
  · exact take_some_iff.mpr ⟨hone.symm, rfl, rfl⟩

/-- Reading stops at a zero byte inside the announced length. -/
theorem readChars_zero {n : Nat} {c : Option Byte} {s : Source} {out tail : List Byte}
    (hs : s.rest = out ++ 0#8 :: tail) (hz : 0#8 ∉ out) (hn : out.length < n) :
    readChars n c s = .ok out { s with rest := tail } := by
  induction out generalizing n c s with
  | nil =>
    obtain ⟨n, rfl⟩ : ∃ m, n = m + 1 := ⟨n - 1, by simp at hn; omega⟩
    rw [readChars_succ (readChar_cons (by simpa using hs)), if_pos rfl]
  | cons b out ih =>
    obtain ⟨n, rfl⟩ : ∃ m, n = m + 1 := ⟨n - 1, by simp at hn; omega⟩
    rw [List.mem_cons, not_or] at hz
    have hrec := ih (n := n) (c := some b) (s := { s with rest := out ++ 0#8 :: tail }) rfl hz.2
      (by simpa using hn)
    rw [readChars_succ (readChar_cons (by simpa using hs)), if_neg (Ne.symm hz.1)]
    exact map_ok_iff.mpr ⟨_, hrec, rfl⟩

/-- The length field of `out`, written in three bytes, read over stale bytes that are not
all zero. -/
structure DirtyLength (out : List Byte) (s : Source) : Prop where
  wide : 253 ≤ out.length ∧ out.length < 2 ^ 16
  dirty : ∃ i < 6, s.memory.stale i ≠ 0#8

theorem skip_stale {n : Nat} {s : Source} (h : n ≤ s.rest.length) :
    (skip n s).memory = s.memory := by
  simp [skip, Nat.sub_eq_zero_of_le h]

/-- What is read of a three-byte length field: its marker, its two bytes, and no more. -/
theorem wide_length_reads {s : Source} {out tail : List Byte}
    (hlen : 253 ≤ out.length) (hlen' : out.length < 2 ^ 16)
    (hs : s.rest = serWriteVarInt (BitVec.ofNat 64 out.length) ++ tail) :
    varIntForm (firstByte s) = some (2, kVarint16bits.setWidth 64) ∧
      (skip 1 s).rest.drop 2 = tail ∧
      buffer 2 (skip 1 s) = toLittleEndian 2 (BitVec.ofNat 64 out.length) ∧
      (skip 2 (skip 1 s)).memory = s.memory := by
  have hone : (BitVec.ofNat 64 out.length).toNat = out.length := by
    rw [BitVec.toNat_ofNat]
    omega
  rw [serWriteVarInt_two (by omega) (by omega)] at hs
  have hne : s.rest ≠ [] := by simp [hs]
  have hrest := rest_eq_firstByte_cons hne
  rw [hs, List.cons_append] at hrest
  obtain ⟨hfirst, hskip⟩ := List.cons.inj hrest
  have h1 : 1 ≤ s.rest.length := List.length_pos_iff.mpr hne
  have h2 : 2 ≤ (skip 1 s).rest.length := by
    rw [← hskip, List.length_append, toLittleEndian_length]
    omega
  refine ⟨by rw [← hfirst]; rfl, ?_, ?_, (skip_stale h2).trans (skip_stale h1)⟩
  · rw [← hskip, List.drop_left' (toLittleEndian_length _ _)]
  · rw [buffer_of_le h2, ← hskip, List.take_left' (toLittleEndian_length _ _)]

/-- What a three-byte length field in the input turns into. -/
theorem wide_length {s : Source} {out tail : List Byte}
    (hlen : 253 ≤ out.length) (hlen' : out.length < 2 ^ 16)
    (hs : s.rest = serWriteVarInt (BitVec.ofNat 64 out.length) ++ tail) :
    varIntForm (firstByte s) = some (2, kVarint16bits.setWidth 64) ∧
      (afterWide 2 (skip 1 s)).rest = tail ∧
      (afterWide 2 (skip 1 s)).memory =
        { s.memory with stale := fun i => s.memory.stale (6 + i) } ∧
      ((wideValue 2 (skip 1 s)).toNat < 2 ^ 16 →
        wideValue 2 (skip 1 s) = BitVec.ofNat 64 out.length) ∧
      ((wideValue 2 (skip 1 s)).toNat < 2 ^ 16 ↔ ∀ i < 6, s.memory.stale i = 0#8) := by
  obtain ⟨hform, hdrop, hbuf, hmem⟩ := wide_length_reads hlen hlen' hs
  have hone : (BitVec.ofNat 64 out.length).toNat = out.length := by
    rw [BitVec.toNat_ofNat]
    omega
  refine ⟨hform, hdrop, ?_, fun hlt => ?_, ?_⟩
  · change ({ (skip 2 (skip 1 s)).memory with
      stale := fun i => (skip 2 (skip 1 s)).memory.stale (8 - 2 + i) } : Memory) = _
    rw [hmem]
  · have hhigh : ∀ v : U64, v.toNat < 2 ^ 16 → v >>> (8 * 2) = 0#64 := by
      intro v hv
      apply BitVec.eq_of_toNat_eq
      rw [BitVec.toNat_ushiftRight, Nat.shiftRight_eq_div_pow, Nat.div_eq_of_lt (by omega)]
      rfl
    apply toLittleEndian_injective (n := 8) rfl
    rw [toLittleEndian_eight (n := 2) (by omega), toLittleEndian_eight (n := 2) (by omega),
      (toLittleEndian_wideValue (by omega) _).1, hbuf, hhigh _ hlt, hhigh _ (by omega)]
  · have := wideValue_lt_iff (n := 2) (by omega) (skip 1 s)
    rw [hmem] at this
    exact this

/-- If what is written for a string starts the input then either the string is canonical,
or its length was read over stale bytes and the zero byte behind it ended it. -/
theorem string_cases {cap : Nat} {s s' : Source} {out : List Byte}
    (h : serialRead deserializeString s = .ok out s') (hout : out.length ≤ cap)
    (hcap : cap < 2 ^ 16) (hpre : serializeString out <+: s.rest) :
    (∃ c, string cap (view.cursor s) = some (out, c)) ∨
      (DirtyLength out s ∧ s.rest = serializeString out ++ 0#8 :: s'.rest ∧
        s'.memory = { s.memory with stale := fun i => s.memory.stale (6 + i) }) := by
  obtain ⟨size, s₁, hsize, hchars⟩ := deserializeString_ok_iff.mp h
  have hone : (BitVec.ofNat 64 out.length).toNat = out.length := by
    rw [BitVec.toNat_ofNat]
    omega
  obtain ⟨rest, hrest⟩ := hpre
  rw [serializeString, List.append_assoc] at hrest
  by_cases hsame : size = BitVec.ofNat 64 out.length
  · subst hsame
    have hvar := serReadVarInt_agrees.accepts hsize ⟨_, by simpa using hrest⟩
    obtain ⟨s₂, hrun, -, hs₁⟩ := serReadVarInt_agrees.reads hvar
    rw [hsize] at hrun
    cases hrun
    simp only [unread_cursor] at hs₁
    refine Or.inl (string_of_chars hvar hout hchars hone.symm ?_)
    rw [← hrest] at hs₁
    exact ⟨rest, List.append_cancel_left hs₁⟩
  · right
    by_cases hsmall : out.length < 253
    · exfalso
      have hvar := varInt_append (v := BitVec.ofNat 64 out.length) (by omega) (out ++ rest)
        s.memory.stale
      rw [hrest] at hvar
      obtain ⟨s₂, hrun, -, -⟩ := serReadVarInt_agrees.reads (s := s) hvar
      rw [hsize] at hrun
      cases hrun
      exact hsame rfl
    · obtain ⟨hform, htail, hmem, hclean, hstale⟩ := wide_length (by omega) (by omega) hrest.symm
      rw [serReadVarInt_run, hform] at hsize
      simp only at hsize
      split_ifs at hsize
      cases hsize
      have hlarge : ¬ (wideValue 2 (skip 1 s)).toNat < 2 ^ 16 := fun hlt => hsame (hclean hlt)
      rcases readChars_short hchars (by omega) with ⟨hend, hmem'⟩ | ⟨-, rfl, -⟩
      · rw [htail] at hend
        refine ⟨⟨⟨by omega, by omega⟩, ?_⟩, ?_, by rw [hmem', hmem]⟩
        · by_contra hall
          push Not at hall
          exact hlarge (hstale.mpr hall)
        · rw [serializeString, List.append_assoc, ← hend, hrest]
      · simp at hsmall

/-- A dirty length makes the reader run past the string's own end, so that it takes the
zero byte behind the string as well. -/
theorem string_of_dirty {s s' : Source} {out out' tail : List Byte}
    (hdirty : DirtyLength out s) (hz : 0#8 ∉ out)
    (hs : s.rest = serializeString out ++ 0#8 :: tail)
    (h : serialRead deserializeString s = .ok out' s') :
    out' = out ∧ s'.rest = tail ∧
      s'.memory = { s.memory with stale := fun i => s.memory.stale (6 + i) } := by
  obtain ⟨size, s₁, hsize, hchars⟩ := deserializeString_ok_iff.mp h
  rw [serializeString, List.append_assoc] at hs
  obtain ⟨hform, htail, hmem, -, hstale⟩ := wide_length hdirty.wide.1 hdirty.wide.2 hs
  rw [serReadVarInt_run, hform] at hsize
  simp only at hsize
  split_ifs at hsize
  cases hsize
  have hlarge : ¬ (wideValue 2 (skip 1 s)).toNat < 2 ^ 16 := by
    intro hlt
    obtain ⟨i, hi, hne⟩ := hdirty.dirty
    exact hne (hstale.mp hlt i hi)
  have hlen := hdirty.wide.2
  rw [readChars_zero htail hz (by omega)] at hchars
  cases hchars
  exact ⟨rfl, rfl, hmem⟩

end Strings

section Silence

theorem drawReturned_silent : Silent view drawReturned :=
  fun _ => ⟨_, _, rfl, rfl⟩

theorem interruptAbove_silent (limit size : U64) : Silent view (interruptAbove limit size) := by
  intro s
  by_cases h : limit < size
  · exact ⟨(), { s with interrupted := true }, by rw [interruptAbove, if_pos h]; rfl, rfl⟩
  · exact ⟨(), s, by rw [interruptAbove, if_neg h]; rfl, rfl⟩

theorem pure_silent {A : Type} (a : A) : Silent view (pure a : Deserializer A) :=
  fun s => ⟨a, s, rfl, rfl⟩

end Silence

section Vectors

variable {A : Type} {element : Deserializer (A × U64)} {p : Parser A} {w : A → List Byte}

theorem array_agrees (n : Nat) :
    Agrees view [] (serialRead (deserializeArray n)) (array n) Bytes.data := by
  induction n with
  | zero => exact Agrees.pure rfl
  | succ n ih =>
    have hrun : serialRead (deserializeArray (n + 1)) =
        serReadData 8 >>= fun x => deserializeArray n >>= fun y => pure (y.1.cons x.1) := by
      simp only [serialRead, deserializeArray, map_eq_pure_bind, bind_assoc, pure_bind]
    rw [hrun]
    apply Agrees.bind_map Prod.fst (serReadData_agrees rfl)
    rintro ⟨b, k⟩ -
    apply Agrees.bind_map Prod.fst ih
    rintro ⟨out, size⟩ -
    apply Agrees.pure
    simp [serWriteData, toLittleEndian]

theorem deserializeMember_agrees {member : Deserializer A} (h : Agrees view [] member p w) :
    Agrees view [] (serialRead (deserializeMember member)) p w := by
  have hrun : serialRead (deserializeMember member) =
      member >>= fun v => drawReturned >>= fun _ => pure v := by
    simp only [serialRead, deserializeMember, map_eq_pure_bind, bind_assoc, pure_bind]
  have hp : p = p >>= pure := (bind_pure p).symm
  rw [hrun, hp]
  refine Agrees.bind h fun v _ => Agrees.bind_silent drawReturned_silent fun _ => ?_
  exact Agrees.pure rfl

theorem vectorElements_succ (check : U64 → Deserializer Unit) (n : Nat) (size : U64) :
    Prod.fst <$> vectorElements element check (n + 1) size = element >>= fun x =>
      check (size + x.2) >>= fun _ =>
        List.cons x.1 <$> (Prod.fst <$> vectorElements element check n (size + x.2)) := by
  simp only [vectorElements, map_eq_pure_bind, bind_assoc, pure_bind]

theorem vectorElements_length {check : U64 → Deserializer Unit} {n : Nat} {size : U64}
    {l : List A} (h : Yields (Prod.fst <$> vectorElements element check n size) l) :
    l.length = n := by
  induction n generalizing size l with
  | zero =>
    obtain ⟨s, s', h⟩ := h
    obtain ⟨rfl, -⟩ := pure_ok_iff.mp h
    rfl
  | succ n ih =>
    obtain ⟨s, s', h⟩ := h
    rw [vectorElements_succ] at h
    obtain ⟨x, s₁, -, h⟩ := bind_ok_iff.mp h
    obtain ⟨-, s₂, -, h⟩ := bind_ok_iff.mp h
    obtain ⟨out, hout, rfl⟩ := map_ok_iff.mp h
    simp [ih ⟨s₂, s', hout⟩]

theorem vectorElements_agrees {check : U64 → Deserializer Unit}
    (hcheck : ∀ size, Silent view (check size))
    (helement : Agrees view [] (Prod.fst <$> element) p w) (n : Nat) (size : U64)
    (pre : List Byte) : Agrees view pre (Prod.fst <$> vectorElements element check n size)
      (elements p n) (fun l => pre ++ l.flatMap w) := by
  induction n generalizing size pre with
  | zero => exact Agrees.pure (by simp)
  | succ n ih =>
    have hp : elements p (n + 1) = p >>= fun v => List.cons v <$> elements p n := by
      simp only [elements, map_eq_pure_bind]
    rw [vectorElements_succ, hp]
    apply Agrees.bind_map Prod.fst helement
    rintro ⟨v, k⟩ -
    refine Agrees.bind_silent (hcheck _) fun _ => ?_
    refine (ih (size + k) (pre ++ w v)).map (List.cons v) fun l _ => ?_
    simp

theorem vector_of_count {check : U64 → Deserializer Unit}
    (hcheck : ∀ size, Silent view (check size))
    (helement : Agrees view [] (Prod.fst <$> element) p w) (count size : U64) :
    Agrees view ([] ++ serWriteVarInt count)
      (Prod.fst <$> vectorElements element check count.toNat size) (elements p count.toNat)
      (serializeVector w) := by
  refine (vectorElements_agrees hcheck helement count.toNat size _).congr fun l hl => ?_
  rw [serializeVector, vectorElements_length hl, BitVec.ofNat_toNat, BitVec.setWidth_eq]
  rfl

theorem deserializeClassVector_agrees (helement : Agrees view [] (Prod.fst <$> element) p w) :
    Agrees view [] (serialRead (deserializeClassVector element)) (vector p)
      (serializeVector w) := by
  have hrun : serialRead (deserializeClassVector element) = serReadVarInt >>= fun count =>
      Prod.fst <$> vectorElements element (interruptAbove kMaxBlockSize) count.toNat 1 := by
    simp only [serialRead, deserializeClassVector, map_eq_pure_bind, bind_assoc]
  rw [hrun]
  exact Agrees.bind serReadVarInt_agrees fun count _ =>
    vector_of_count (interruptAbove_silent kMaxBlockSize) helement count 1

theorem deserializeArithmeticVector_agrees {n : Nat} (hn : n = 8 * (n / 8)) :
    Agrees view [] (serialRead (deserializeArithmeticVector n)) (vector (word n))
      (serializeVector serWriteData) := by
  have hrun : serialRead (deserializeArithmeticVector n) = serReadVarInt >>= fun count =>
      interruptAbove kMaxBlockSize (count * BitVec.ofNat 64 (n / 8)) >>= fun _ =>
        Prod.fst <$> vectorElements (serReadData n) (fun _ => pure ()) count.toNat 1 := by
    simp only [serialRead, deserializeArithmeticVector, map_eq_pure_bind, bind_assoc]
  rw [hrun]
  refine Agrees.bind serReadVarInt_agrees fun count _ => ?_
  refine Agrees.bind_silent (interruptAbove_silent _ _) fun _ => ?_
  exact vector_of_count (fun _ => pure_silent ()) (serReadData_agrees hn) count 1

theorem array_append {n : Nat} (a : Bytes n) (rest : List Byte) (m : Nat → Byte) :
    array n ⟨a.data ++ rest, m⟩ = some (a, ⟨rest, m⟩) := by
  induction n with
  | zero =>
    obtain ⟨data, hdata⟩ := a
    obtain rfl := List.length_eq_zero_iff.mp hdata
    rfl
  | succ n ih =>
    obtain ⟨data, hdata⟩ := a
    obtain ⟨b, data, rfl⟩ := List.exists_cons_of_length_eq_add_one hdata
    have hlen : data.length = n := by simpa using hdata
    have hb := word_append (w := 8) rfl b (data ++ rest) m
    refine strict_bind_some_iff.mpr ⟨b, ⟨data ++ rest, m⟩, ?_, ?_⟩
    · simpa [serWriteData, toLittleEndian] using hb
    · exact strict_bind_some_iff.mpr ⟨⟨data, hlen⟩, ⟨rest, m⟩, ih ⟨data, hlen⟩, rfl⟩

/-- Written elements read back as `f` of them, so does the vector. -/
theorem vector_append {v : List A} (f : A → A) (hlen : v.length < 253)
    (helement : ∀ x rest m, p ⟨w x ++ rest, m⟩ = some (f x, ⟨rest, m⟩))
    (rest : List Byte) (m : Nat → Byte) :
    vector p ⟨serializeVector w v ++ rest, m⟩ = some (v.map f, ⟨rest, m⟩) := by
  have hone : (BitVec.ofNat 64 v.length).toNat = v.length := by
    rw [BitVec.toNat_ofNat]
    omega
  rw [serializeVector, List.append_assoc]
  refine strict_bind_some_iff.mpr ⟨BitVec.ofNat 64 v.length, ⟨v.flatMap w ++ rest, m⟩,
    varInt_append (by omega) _ _, ?_⟩
  rw [hone]
  clear hlen hone
  induction v with
  | nil => rfl
  | cons x v ih =>
    refine strict_bind_some_iff.mpr ⟨f x, ⟨v.flatMap w ++ rest, m⟩, ?_, ?_⟩
    · simpa using helement x (v.flatMap w ++ rest) m
    · exact strict_bind_some_iff.mpr ⟨v.map f, ⟨rest, m⟩, ih, rfl⟩

end Vectors

/-! What the strict parsers accept when no stale byte is zero: lengths of one byte. -/

section DirtyMemory

variable {A : Type} {p : Parser A} {P : A → Prop}

def AllDirty (c : Cursor) : Prop := ∀ i, c.stale i ≠ 0#8

theorem failure_keeps : Keeps AllDirty (failure : Parser A) P :=
  fun _ _ _ _ h => (strict_failure h).elim

theorem take_keeps (n : Nat) : Keeps AllDirty (take n) (fun _ => True) := by
  intro c v c' hc h
  obtain ⟨-, -, hstale⟩ := take_some_iff.mp h
  exact ⟨trivial, by rw [AllDirty, hstale]; exact hc⟩

theorem word_keeps (w : Nat) : Keeps AllDirty (word w) (fun _ => True) := by
  rw [word, map_eq_pure_bind]
  exact Keeps.bind (take_keeps _) fun _ _ => Keeps.pure trivial

theorem bool_keeps : Keeps AllDirty bool (fun _ => True) := by
  intro c v c' hc h
  exact ⟨trivial, (take_keeps 1 c _ c' hc (bool_some_iff.mp h)).2⟩

theorem wideVarInt_keeps {n : Nat} (hn : n < 8) (least : U64) {Q : U64 → Prop} :
    Keeps AllDirty (wideVarInt n least) Q := by
  refine Keeps.bind (take_keeps n) fun low _ => ?_
  intro c v c' hc h
  obtain ⟨_, c₁, hclean, -⟩ := strict_bind_some_iff.mp h
  have hz : ¬ ∀ i < 8 - n, c.stale i = 0#8 := fun hz => hc 0 (hz 0 (by omega))
  have hnone : clean (8 - n) c = none := if_neg hz
  simp [hnone] at hclean

theorem varInt_keeps : Keeps AllDirty varInt (fun v => v.toNat < 253) := by
  refine Keeps.bind (word_keeps 8) fun count _ => ?_
  refine Keeps.bind (P := fun v : U64 => v.toNat < 253) ?_ fun v hv => ?_
  · refine Keeps.ite (fun h => Keeps.pure ?_) fun _ => ?_
    · have : count.toNat < 253 := by simpa [BitVec.lt_def, kVarint16bits] using h
      rw [BitVec.toNat_setWidth]
      omega
    refine Keeps.ite (fun _ => wideVarInt_keeps (by omega) _) fun _ => ?_
    exact Keeps.ite (fun _ => wideVarInt_keeps (by omega) _) fun _ => failure_keeps
  · exact Keeps.ite (fun _ => failure_keeps) fun _ => Keeps.pure hv

theorem string_keeps (cap : Nat) :
    Keeps AllDirty (string cap) (fun s => 0#8 ∉ s ∧ s.length < 253) := by
  intro c v c' hc h
  obtain ⟨size, c₁, hsize, -, htake, hz⟩ := string_some_iff.mp h
  obtain ⟨hlt, hc₁⟩ := varInt_keeps c size c₁ hc hsize
  obtain ⟨hlen, -, -⟩ := take_some_iff.mp htake
  exact ⟨⟨hz, by omega⟩, (take_keeps _ c₁ v c' hc₁ htake).2⟩

theorem array_keeps (n : Nat) : Keeps AllDirty (array n) (fun _ => True) := by
  induction n with
  | zero => exact Keeps.pure trivial
  | succ n ih =>
    refine Keeps.bind (word_keeps 8) fun b _ => Keeps.bind ih fun out _ => ?_
    exact Keeps.pure trivial

theorem elements_keeps (hp : Keeps AllDirty p P) (n : Nat) :
    Keeps AllDirty (elements p n) (fun l => l.length = n ∧ ∀ x ∈ l, P x) := by
  induction n with
  | zero => exact Keeps.pure (by simp)
  | succ n ih =>
    refine Keeps.bind hp fun v hv => Keeps.bind ih fun out hout => Keeps.pure ?_
    refine ⟨by simp [hout.1], ?_⟩
    rintro x hx
    rcases List.mem_cons.mp hx with rfl | hx
    · exact hv
    · exact hout.2 x hx

theorem vector_keeps (hp : Keeps AllDirty p P) :
    Keeps AllDirty (vector p) (fun l => l.length < 253 ∧ ∀ x ∈ l, P x) := by
  refine Keeps.bind varInt_keeps fun count hcount => ?_
  intro c v c' hc h
  obtain ⟨⟨hlen, hall⟩, hc'⟩ := elements_keeps hp count.toNat c v c' hc h
  exact ⟨⟨by omega, hall⟩, hc'⟩

end DirtyMemory

end CanonicalVectors
