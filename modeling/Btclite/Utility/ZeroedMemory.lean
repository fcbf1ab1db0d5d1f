import Btclite.Utility.CanonicalVectors

/-!
# Reading over zeroed memory

A length field of more than one byte is read over whatever its local held
before. Where that was zero, every length up to `kMaxVardataSize` comes back as
it was written, and with it every vector of that many elements.
-/

namespace ZeroedMemory

open Endian Serialize Agreement Canonical CanonicalVectors

/-- A cursor over bytes, with nothing but zeros in the stale memory. -/
def zeroed (rest : List Byte) : Cursor := ⟨rest, fun _ => 0#8⟩

section Words

theorem take_recovers (data : List Byte) : Recovers zeroed (take data.length) data data :=
  fun _ => take_some_iff.mpr ⟨rfl, rfl, rfl⟩

theorem word_recovers {w : Nat} (hw : w = 8 * (w / 8)) (v : BitVec w) :
    Recovers zeroed (word w) (serWriteData v) v :=
  fun rest => word_append hw v rest _

theorem array_recovers {n : Nat} (a : Bytes n) : Recovers zeroed (array n) a.data a :=
  fun rest => array_append a rest _

theorem clean_recovers (n : Nat) : Recovers zeroed (clean n) [] () :=
  fun _ => if_pos fun _ _ => rfl

end Words

section Lengths

theorem low_bytes_eq {n : Nat} (hn : n ≤ 8) {v : U64} (hv : v.toNat < 2 ^ (8 * n)) :
    fromLittleEndian 64 (toLittleEndian n v) = v := by
  have hhigh : v >>> (8 * n) = 0#64 := by
    apply BitVec.eq_of_toNat_eq
    rw [BitVec.toNat_ushiftRight, Nat.shiftRight_eq_div_pow, Nat.div_eq_of_lt hv]
    rfl
  have hall := fromLittleEndian_toLittleEndian (w := 64) (n := 8) rfl v
  rw [toLittleEndian_eight hn, hhigh, toLittleEndian_zero, fromLittleEndian_append_zero] at hall
  exact hall

theorem wideVarInt_recovers {n : Nat} (hn : n ≤ 8) {least v : U64} (hleast : ¬ v < least)
    (hv : v.toNat < 2 ^ (8 * n)) :
    Recovers zeroed (wideVarInt n least) (toLittleEndian n v) v := by
  have htake := take_recovers (toLittleEndian n v)
  rw [toLittleEndian_length] at htake
  have hread : Recovers zeroed (do
      clean (8 - n)
      let varint := fromLittleEndian 64 (toLittleEndian n v)
      if varint < least then failure else pure varint : Parser U64) ([] ++ []) v := by
    apply Recovers.bind (clean_recovers (8 - n))
    simp only [low_bytes_eq hn hv, if_neg hleast]
    exact Recovers.pure
  have h : Recovers zeroed (wideVarInt n least) (toLittleEndian n v ++ ([] ++ [])) v :=
    htake.bind hread
  rwa [List.append_nil, List.append_nil] at h

/-- The last check of `varInt` lets a length up to `kMaxVardataSize` through. -/
theorem checked_recovers {p : Parser U64} {bytes : List Byte} {v : U64}
    (h : v ≤ kMaxVardataSize) (hp : Recovers zeroed p bytes v) :
    Recovers zeroed (do
      let varint ← p
      if kMaxVardataSize < varint then failure else pure varint : Parser U64) bytes v := by
  have hpure : Recovers zeroed
      (if kMaxVardataSize < v then failure else pure v : Parser U64) [] v := by
    rw [if_neg (BitVec.not_lt.mpr h)]
    exact Recovers.pure
  have hboth := hp.bind (q := fun varint =>
    if kMaxVardataSize < varint then failure else pure varint) hpure
  rwa [List.append_nil] at hboth

theorem varInt_recovers {v : U64} (h : v ≤ kMaxVardataSize) :
    Recovers zeroed varInt (serWriteVarInt v) v := by
  have hnat : v.toNat ≤ 2 ^ 25 := by
    simpa [BitVec.le_def, kMaxVardataSize] using h
  by_cases hone : v.toNat < 253
  · exact fun rest => varInt_append hone rest _
  by_cases htwo : v.toNat < 2 ^ 16
  · have hleast : ¬ v < kVarint16bits.setWidth 64 := by
      simp only [BitVec.lt_def, kVarint16bits, BitVec.toNat_setWidth, BitVec.toNat_ofNat]
      omega
    have hwide := wideVarInt_recovers (n := 2) (by omega) hleast htwo
    rw [serWriteVarInt_two (by omega) htwo]
    exact (word_recovers (w := 8) rfl kVarint16bits).bind (checked_recovers h hwide)
  · have hleast : ¬ v < 0x10000#64 := by
      simp only [BitVec.lt_def, BitVec.toNat_ofNat]
      omega
    have hwide := wideVarInt_recovers (n := 4) (by omega) hleast (by omega)
    rw [serWriteVarInt_four (by omega) (by omega)]
    exact (word_recovers (w := 8) rfl kVarint32bits).bind (checked_recovers h hwide)

end Lengths

section Vectors

variable {A : Type} {element : Parser A} {write : A → List Byte}

theorem elements_recovers {v : List A} (h : ∀ a ∈ v, Recovers zeroed element (write a) a) :
    Recovers zeroed (elements element v.length) (v.flatMap write) v := by
  induction v with
  | nil => exact Recovers.pure
  | cons a v ih =>
    have hfirst := h a (List.mem_cons_self ..)
    have hrest := ih fun b hb => h b (List.mem_cons_of_mem _ hb)
    exact hfirst.bind (hrest.last (List.cons a))

theorem vector_recovers {v : List A} (hlen : v.length ≤ kMaxVardataSize.toNat)
    (h : ∀ a ∈ v, Recovers zeroed element (write a) a) :
    Recovers zeroed (vector element) (serializeVector write v) v := by
  have hcount : (BitVec.ofNat 64 v.length).toNat = v.length := by
    have : kMaxVardataSize.toNat < 2 ^ 64 := by decide
    rw [BitVec.toNat_ofNat, Nat.mod_eq_of_lt (by omega)]
  have hvar : Recovers zeroed varInt _ (BitVec.ofNat 64 v.length) :=
    varInt_recovers (BitVec.le_def.mpr (by rwa [hcount]))
  have helements := elements_recovers h
  rw [← hcount] at helements
  exact hvar.bind helements

end Vectors

end ZeroedMemory
