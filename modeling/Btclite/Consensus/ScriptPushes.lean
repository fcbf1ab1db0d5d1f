import Btclite.Consensus.ScriptNumbers
import Btclite.Consensus.Scripts

/-!
# Pushing numbers

`Push` of a word writes minus one and the numbers to sixteen as one opcode, and any other
number as bytes. A word from 2 to the power of 63 on is taken for a negative number, whose
bytes have no end. What is written is one item that stands for the number, but the reader of
script numbers takes no more than four bytes.
-/

namespace ScriptPushes

open Endian Serialize Scripts ScriptInts ScriptNumbers

def op1 : Opcode := 0x51

section Pushing

/-- `Push` of a `uint64_t`, on so many turns of the loop over its bytes. -/
def pushUint64 (turns : Nat) (data : List Byte) (b : U64) : Option (List Byte) :=
  if b = -1 ∨ 1 ≤ b ∧ b ≤ 16 then some (data ++ [(b + op1.setWidth 64 - 1).setWidth 8])
  else if b = 0 then some (data ++ [op0])
  else (bytesEncoding turns b).map (pushBytes data)

/-- `Push` of a `ScriptInt`. -/
def pushScriptInt (turns : Nat) (data : List Byte) (sint : ScriptInt) : Option (List Byte) :=
  (sint.bytesValue turns).map (pushBytes data)

end Pushing

/-- What an item stands for where a number is expected. -/
def Stands (n : Int) : Item → Prop
  | .code c => n = -1 ∧ c = 0x4f ∨ 1 ≤ n ∧ n ≤ 16 ∧ (c.toNat : Int) = 0x50 + n
  | .bytes b => signedValue b = n

section Encoding

variable {turns turns' : Nat} {abs b : U64} {n : Int} {result bytes bytes' : List Byte}

theorem magnitude_unique (h : magnitude turns abs result = some bytes)
    (h' : magnitude turns' abs result = some bytes') : bytes = bytes' := by
  induction turns generalizing turns' abs result with
  | zero => cases h
  | succ turns ih =>
    cases turns' with
    | zero => cases h'
    | succ turns' =>
      rw [magnitude] at h h'
      split_ifs at h h' with hzero
      · exact Option.some.inj (h.symm.trans h')
      · exact ih h h'

/-- How many turns there are makes no difference to what comes out. -/
theorem bytesEncoding_unique (h : bytesEncoding turns b = some bytes)
    (h' : bytesEncoding turns' b = some bytes') : bytes = bytes' := by
  rw [bytesEncoding] at h h'
  split_ifs at h h' with hzero
  · exact Option.some.inj (h.symm.trans h')
  · obtain ⟨digits, hdigits, h⟩ := Option.bind_eq_some_iff.mp h
    obtain ⟨digits', hdigits', h'⟩ := Option.bind_eq_some_iff.mp h'
    obtain rfl := magnitude_unique hdigits hdigits'
    exact Option.some.inj (h.symm.trans h')

theorem bytesEncoding_some (h : 0 ≤ b.toInt) :
    bytesEncoding 9 b = some (signMagnitude b.toInt) := by
  rcases h.eq_or_lt with hzero | hpos
  · obtain rfl : b = 0 := BitVec.eq_of_toInt_eq hzero.symm
    rfl
  · exact bytesValue_pos hpos

/-- The bytes of a number that is not negative come out, and of no other. -/
theorem bytesEncoding_eq_some_iff : (∃ turns, bytesEncoding turns b = some bytes) ↔
    0 ≤ b.toInt ∧ bytes = signMagnitude b.toInt := by
  constructor
  · rintro ⟨turns, h⟩
    have hpos : 0 ≤ b.toInt := by
      by_contra hneg
      have hnone : bytesEncoding turns b = none := bytesValue_endless (not_le.mp hneg) turns
      rw [hnone] at h
      cases h
    exact ⟨hpos, bytesEncoding_unique h (bytesEncoding_some hpos)⟩
  · rintro ⟨hpos, rfl⟩
    exact ⟨9, bytesEncoding_some hpos⟩

theorem signedValue_signMagnitude (n : Int) : signedValue (signMagnitude n) = n := by
  rcases (signMagnitude n).eq_nil_or_concat with hnil | ⟨front, top, h⟩
  · rw [signMagnitude_eq_nil_iff.mp hnil, signMagnitude_zero]
    rfl
  · rw [List.concat_eq_append] at h
    rw [h]
    exact (signMagnitude_spec h).2

theorem signMagnitude_length (n : Int) :
    (signMagnitude n).length ≤ (digitBytes n.natAbs).length + 1 := by
  rw [signMagnitude]
  cases hlast : (digitBytes n.natAbs).getLast? with
  | none => exact Nat.zero_le _
  | some top =>
    have hsplit := List.getLast?_eq_some_iff.mp hlast
    obtain ⟨front, hdigits⟩ := hsplit
    rw [hdigits]
    dsimp only
    split_ifs <;> simp

theorem signMagnitude_pushable (b : U64) : (Item.bytes (signMagnitude b.toInt)).Pushable := by
  have hdigits : (digitBytes b.toInt.natAbs).length ≤ 8 := by
    rw [digitBytes, List.length_map, Nat.digits_length_le_iff (by decide)]
    have hlow := BitVec.le_toInt b
    have hhigh := b.toInt_lt
    omega
  have hlength := signMagnitude_length b.toInt
  refine lt_of_le_of_lt (b := 9) (by omega) (by decide)

/-- The bytes of a positive number are read again exactly if it has 31 bits at most. -/
theorem ofBytes_pushed (h : 0 < b.toInt) (memory : I64) :
    ofBytes memory (signMagnitude b.toInt) true =
      if b.toInt < 2 ^ 31 then .ok ⟨b⟩ else .error "script number overflow" := by
  split_ifs with hsmall
  · exact ofBytes_signMagnitude h (by rwa [abs_of_pos h]) memory
  · rcases (signMagnitude b.toInt).eq_nil_or_concat with hnil | ⟨front, top, hbytes⟩
    · rw [signMagnitude_eq_nil_iff] at hnil
      omega
    rw [List.concat_eq_append] at hbytes
    obtain ⟨-, hvalue⟩ := signMagnitude_spec hbytes
    rw [hbytes]
    refine ofBytes_long fun hshort => hsmall ?_
    -- three bytes and seven bits are too few
    rw [← hvalue, signedValue_concat]
    split_ifs with hset
    · have hnat : (0 : Int) ≤ magnitudeOf (front ++ [top &&& 0x7f]) := Int.natCast_nonneg _
      have hpow : (0 : Int) < 2 ^ 31 := by decide
      omega
    · have hfront := magnitudeOf_lt front
      have hrest := rest_toNat top
      have hpow : 256 ^ front.length ≤ 256 ^ 3 := Nat.pow_le_pow_right (by decide) hshort
      have htop : (top &&& 0x7f).toNat ≤ 127 := by omega
      have hplace : 256 ^ front.length * (top &&& 0x7f).toNat ≤ 256 ^ 3 * 127 :=
        Nat.mul_le_mul hpow htop
      have hnat : magnitudeOf front + 256 ^ front.length * (top &&& 0x7f).toNat < 2 ^ 31 := by omega
      rw [magnitudeOf_concat]
      exact_mod_cast hnat

end Encoding

section Results

variable {turns : Nat} {data out : List Byte} {b : U64} {item : Item}

/-- One item is added, which stands for the number and is read back in front of anything. Where
it is bytes, the reader of script numbers takes them up to 31 bits and refuses any others, but
for zero, which has none. -/
structure Written (data : List Byte) (b : U64) (out : List Byte) (item : Item) : Prop where
  pushed : out = push data item
  stands : Stands b.toInt item
  popped : ∀ rest, popItem (out ++ rest) data.length =
    .ok (some item, data.length + item.head.length)
  read : ∀ bytes memory, item = .bytes bytes → b ≠ 0 → ofBytes memory bytes true =
    if b.toInt < 2 ^ 31 then .ok ⟨b⟩ else .error "script number overflow"

theorem written_of_pushable (hpush : item.Pushable) (hstands : Stands b.toInt item)
    (hread : ∀ bytes memory, item = .bytes bytes → b ≠ 0 → ofBytes memory bytes true =
      if b.toInt < 2 ^ 31 then .ok ⟨b⟩ else .error "script number overflow") :
    Written data b (push data item) item := by
  refine ⟨rfl, hstands, fun rest => ?_, hread⟩
  rw [push_eq]
  exact popItem_push hpush data rest

theorem small_iff : b = -1 ∨ 1 ≤ b ∧ b ≤ 16 ↔ b.toInt = -1 ∨ 1 ≤ b.toInt ∧ b.toInt ≤ 16 := by
  refine or_congr ⟨fun h => by rw [h]; rfl, fun h => BitVec.eq_of_toInt_eq h⟩ ?_
  rw [BitVec.le_def, BitVec.le_def]
  change 1 ≤ b.toNat ∧ b.toNat ≤ 16 ↔ _
  constructor
  · intro h
    rw [BitVec.toInt_eq_toNat_of_lt (by omega)]
    omega
  · intro h
    have hint := (toNat_of_pos (n := b) (by omega)).1
    omega

/-- The opcode of a small number. -/
theorem small_written (h : b = -1 ∨ 1 ≤ b ∧ b ≤ 16) :
    Written data b (data ++ [(b + op1.setWidth 64 - 1).setWidth 8])
      (.code ((b + op1.setWidth 64 - 1).setWidth 8)) := by
  have hopcode : Stands b.toInt (.code ((b + op1.setWidth 64 - 1).setWidth 8)) ∧
      opPushdata4 < (b + op1.setWidth 64 - 1).setWidth 8 := by
    rcases h with rfl | ⟨hlow, hhigh⟩
    · exact ⟨.inl (by decide), by decide⟩
    · have hlow' : 1 ≤ b.toNat := hlow
      have hhigh' : b.toNat ≤ 16 := hhigh
      obtain ⟨k, hk, rfl⟩ : ∃ k < 17, b = BitVec.ofNat 64 k :=
        ⟨b.toNat, by omega, ((BitVec.ofNat_toNat 64 b).trans (BitVec.setWidth_eq b)).symm⟩
      interval_cases k <;>
        first | exact absurd hlow' (by decide) | exact ⟨.inr (by decide), by decide⟩
  have hpush : (Item.code ((b + op1.setWidth 64 - 1).setWidth 8)).Pushable := hopcode.2
  exact written_of_pushable hpush hopcode.1 fun bytes memory hbytes => by cases hbytes

theorem bytes_written (h : 0 ≤ b.toInt) : Written data b (pushBytes data (signMagnitude b.toInt))
    (.bytes (signMagnitude b.toInt)) := by
  refine written_of_pushable (signMagnitude_pushable b) (signedValue_signMagnitude _) ?_
  rintro bytes memory ⟨⟩ hne
  refine ofBytes_pushed (h.lt_of_ne fun hzero => hne ?_) memory
  exact BitVec.eq_of_toInt_eq hzero.symm

theorem pushScriptInt_iff : (∃ turns, pushScriptInt turns data ⟨b⟩ = some out) ↔
    0 ≤ b.toInt ∧ out = pushBytes data (signMagnitude b.toInt) := by
  simp only [pushScriptInt, ScriptInt.bytesValue, Option.map_eq_some_iff]
  constructor
  · rintro ⟨turns, bytes, hbytes, rfl⟩
    obtain ⟨hpos, rfl⟩ := bytesEncoding_eq_some_iff.mp ⟨turns, hbytes⟩
    exact ⟨hpos, rfl⟩
  · rintro ⟨hpos, rfl⟩
    exact ⟨9, _, bytesEncoding_some hpos, rfl⟩

/-- Zero and what is no small number are written as `Push` of a script number writes them. -/
theorem pushUint64_iff (h : ¬ (b = -1 ∨ 1 ≤ b ∧ b ≤ 16)) :
    (∃ turns, pushUint64 turns data b = some out) ↔
      ∃ turns, pushScriptInt turns data ⟨b⟩ = some out := by
  by_cases hzero : b = 0
  · subst hzero
    have hempty : pushBytes data (signMagnitude (0 : U64).toInt) = data ++ [op0] :=
      List.append_nil _
    rw [pushScriptInt_iff, hempty]
    simp only [pushUint64, if_neg h, if_true, Option.some_inj, exists_const]
    exact ⟨fun hout => ⟨le_rfl, hout.symm⟩, fun hout => hout.2.symm⟩
  · simp only [pushUint64, if_neg h, if_neg hzero]
    rfl

theorem exists_pushScriptInt :
    (∃ turns out, pushScriptInt turns data ⟨b⟩ = some out) ↔ 0 ≤ b.toInt := by
  rw [exists_comm]
  simp only [pushScriptInt_iff, exists_and_left, exists_eq, and_true]

theorem pushUint64_small (h : b = -1 ∨ 1 ≤ b ∧ b ≤ 16) (turns : Nat) :
    pushUint64 turns data b = some (data ++ [(b + op1.setWidth 64 - 1).setWidth 8]) :=
  if_pos h

theorem exists_pushUint64 : (∃ turns out, pushUint64 turns data b = some out) ↔ -1 ≤ b.toInt := by
  by_cases hsmall : b = -1 ∨ 1 ≤ b ∧ b ≤ 16
  · refine iff_of_true ⟨0, _, pushUint64_small hsmall 0⟩ ?_
    rcases small_iff.mp hsmall with hone | hone <;> omega
  · have hne : b.toInt ≠ -1 := fun h => hsmall (.inl (BitVec.eq_of_toInt_eq h))
    rw [exists_comm]
    simp only [pushUint64_iff hsmall]
    rw [exists_comm, exists_pushScriptInt]
    omega

theorem pushScriptInt_written (h : pushScriptInt turns data ⟨b⟩ = some out) :
    ∃ item, Written data b out item := by
  obtain ⟨hpos, rfl⟩ := pushScriptInt_iff.mp ⟨turns, h⟩
  exact ⟨_, bytes_written hpos⟩

theorem pushUint64_written (h : pushUint64 turns data b = some out) :
    ∃ item, Written data b out item := by
  by_cases hsmall : b = -1 ∨ 1 ≤ b ∧ b ≤ 16
  · rw [pushUint64_small hsmall, Option.some_inj] at h
    exact ⟨_, h ▸ small_written hsmall⟩
  · obtain ⟨turns', hout⟩ := (pushUint64_iff hsmall).mp ⟨turns, h⟩
    exact pushScriptInt_written hout

/-- An opcode is one byte, and bytes have another in front of them. -/
theorem opcode_ne_bytes (h : b = -1 ∨ 1 ≤ b ∧ b ≤ 16) (opcode : Byte) :
    data ++ [opcode] ≠ pushBytes data (signMagnitude b.toInt) := by
  intro hsame
  have hnumber : 0 < (signMagnitude b.toInt).length := by
    rw [List.length_pos_iff, ne_eq, signMagnitude_eq_nil_iff]
    rcases small_iff.mp h with hone | hone <;> omega
  have hprefix : 0 < (pushPrefix (signMagnitude b.toInt).length).length := by
    rw [pushPrefix]
    split_ifs <;> exact Nat.succ_pos _
  have hlength := congrArg List.length hsame
  rw [pushBytes, List.length_append, List.length_append, List.length_append,
    List.length_singleton] at hlength
  omega

theorem push_same_iff : (∃ turns turns' out, pushUint64 turns data b = some out ∧
    pushScriptInt turns' data ⟨b⟩ = some out) ↔ b = 0 ∨ 16 < b.toInt := by
  constructor
  · rintro ⟨turns, turns', out, hout, hout'⟩
    obtain ⟨hpos, rfl⟩ := pushScriptInt_iff.mp ⟨turns', hout'⟩
    have hlarge : ¬ (b = -1 ∨ 1 ≤ b ∧ b ≤ 16) := fun hsmall => by
      rw [pushUint64_small hsmall, Option.some_inj] at hout
      exact opcode_ne_bytes hsmall _ hout
    have hzero : b = 0 ↔ b.toInt = 0 :=
      ⟨fun h => by rw [h]; rfl, fun h => BitVec.eq_of_toInt_eq h⟩
    rw [small_iff] at hlarge
    rw [hzero]
    omega
  · intro hlarge
    have hpos : 0 ≤ b.toInt := by
      rcases hlarge with rfl | hlarge
      · exact le_rfl
      · omega
    have hsmall : ¬ (b = -1 ∨ 1 ≤ b ∧ b ≤ 16) := by
      rw [small_iff]
      rcases hlarge with rfl | hlarge
      · decide
      · omega
    obtain ⟨turns', hout'⟩ := pushScriptInt_iff.mpr ⟨hpos, rfl⟩
    obtain ⟨turns, hout⟩ := (pushUint64_iff hsmall).mpr ⟨turns', hout'⟩
    exact ⟨turns, turns', _, hout, hout'⟩

/-- `Push` of a word comes to an end exactly if the word is not that of a number below minus
one, and `Push` of a script number exactly if it is not negative. What they write is one item
that stands for the number and is read back. They write the same for zero and for numbers from
17 on. -/
theorem push_number_exact (data : List Byte) (b : U64) :
    ((∃ turns out, pushUint64 turns data b = some out) ↔ -1 ≤ b.toInt) ∧
      ((∃ turns out, pushScriptInt turns data ⟨b⟩ = some out) ↔ 0 ≤ b.toInt) ∧
      (∀ turns out, pushUint64 turns data b = some out ∨ pushScriptInt turns data ⟨b⟩ = some out →
        ∃ item, Written data b out item) ∧
      ((∃ turns turns' out, pushUint64 turns data b = some out ∧
        pushScriptInt turns' data ⟨b⟩ = some out) ↔ b = 0 ∨ 16 < b.toInt) := by
  refine ⟨exists_pushUint64, exists_pushScriptInt, ?_, push_same_iff⟩
  rintro turns out (hout | hout)
  · exact pushUint64_written hout
  · exact pushScriptInt_written hout

end Results

end ScriptPushes
