import Btclite.Utility.Endian
import Mathlib.Tactic.SplitIfs

/-!
# Serializer and deserializer

The `Serializer` and `Deserializer` templates of `serialize.h` over the byte
sinks and sources of `blob.h`. A sink is the list of bytes written. A source
also carries what the C++ leaves undefined: the contents of locals that are
read before they are fully written, and the results of functions that flow off
their end. Both are arbitrary supplies, drawn from only where the code does.
-/

namespace Serialize

open Endian

abbrev U16 := BitVec 16
abbrev U32 := BitVec 32
abbrev U64 := BitVec 64

def kMaxVardataSize : U64 := 0x02000000#64
def kMaxBlockSize : U64 := 1000000#64
def kVarint16bits : Byte := 0xfd#8
def kVarint32bits : Byte := 0xfe#8
def kVarint64bits : Byte := 0xff#8

/-- `std::array<uint8_t, n>`. -/
structure Bytes (n : Nat) where
  data : List Byte
  size_eq : data.length = n
deriving DecidableEq

namespace Bytes

variable {n : Nat}

@[ext] theorem ext {a b : Bytes n} (h : a.data = b.data) : a = b := by
  cases a
  cases b
  simpa using h

def cons (b : Byte) (a : Bytes n) : Bytes (n + 1) :=
  ⟨b :: a.data, by simp [a.size_eq]⟩

def zero (n : Nat) : Bytes n := ⟨List.replicate n 0#8, by simp⟩

instance : Inhabited (Bytes n) := ⟨zero n⟩

@[simp] theorem length_data (a : Bytes n) : a.data.length = n := a.size_eq

@[simp] theorem data_cons (b : Byte) (a : Bytes n) : (cons b a).data = b :: a.data := rfl

end Bytes

abbrev Hash256 := Bytes 32

/-- A digest from its hexadecimal form. -/
def hashOf (digest : BitVec 256) : Hash256 := ⟨(toLittleEndian 32 digest).reverse, by simp⟩

section Writing

def serWriteData {w : Nat} (v : BitVec w) : List Byte :=
  toLittleEndian (w / 8) v

def serWriteBool (b : Bool) : List Byte := [if b then 1#8 else 0#8]

def serWriteVarInt (count : U64) : List Byte :=
  if count < kVarint16bits.setWidth 64 then serWriteData (count.setWidth 8)
  else if count ≤ 0xffff#64 then serWriteData kVarint16bits ++ serWriteData (count.setWidth 16)
  else if count ≤ 0xffffffff#64 then serWriteData kVarint32bits ++ serWriteData (count.setWidth 32)
  else serWriteData kVarint64bits ++ serWriteData count

/-- `Serialize(const std::string&)`. -/
def serializeString (s : List Byte) : List Byte :=
  serWriteVarInt (BitVec.ofNat 64 s.length) ++ s

/-- `Serialize` of a vector of bytes, which are written as they lie in memory. -/
def serializeByteVector (v : List Byte) : List Byte :=
  serWriteVarInt (BitVec.ofNat 64 v.length) ++ v

/-- `Serialize` of a vector, its elements written one after another. -/
def serializeVector {A : Type} (write : A → List Byte) (v : List A) : List Byte :=
  serWriteVarInt (BitVec.ofNat 64 v.length) ++ v.flatMap write

theorem serializeByteVector_eq (v : List Byte) :
    serializeByteVector v = serializeVector serWriteData v := by
  have hflat : v.flatMap serWriteData = v := by
    induction v with
    | nil => rfl
    | cons b v ih =>
      rw [List.flatMap_cons, ih]
      simp [serWriteData, toLittleEndian]
  rw [serializeByteVector, serializeVector, hflat]

end Writing

/-- Both sides of the wire cut a text that is longer than its field allows. -/
def cutTo (cap : Nat) (s : List Byte) : List Byte :=
  if cap < s.length then s.take cap else s

theorem cutTo_eq_take (cap : Nat) (s : List Byte) : cutTo cap s = s.take cap := by
  by_cases h : cap < s.length
  · rw [cutTo, if_pos h]
  · rw [cutTo, if_neg h, List.take_of_length_le (by omega)]

@[simp] theorem cutTo_cutTo (cap : Nat) (s : List Byte) :
    cutTo cap (cutTo cap s) = cutTo cap s := by
  simp only [cutTo_eq_take, List.take_take, Nat.min_self]

theorem cutTo_of_le {cap : Nat} {s : List Byte} (h : s.length ≤ cap) : cutTo cap s = s :=
  if_neg (by omega)

/-- `VarIntSize`. -/
def varIntSize (vecSize : Nat) : Nat :=
  if vecSize < 253 then 1
  else if vecSize ≤ 0xffff then 3
  else if vecSize ≤ 0xffffffff then 5
  else 9

section VarInt

variable {v : U64}

theorem lt_marker_iff : v < kVarint16bits.setWidth 64 ↔ v.toNat < 253 := by
  simp [BitVec.lt_def, kVarint16bits]

theorem le_two_bytes_iff : v ≤ 0xffff#64 ↔ v.toNat < 2 ^ 16 := by
  simp only [BitVec.le_def, BitVec.toNat_ofNat]
  omega

theorem le_four_bytes_iff : v ≤ 0xffffffff#64 ↔ v.toNat < 2 ^ 32 := by
  simp only [BitVec.le_def, BitVec.toNat_ofNat]
  omega

theorem serWriteVarInt_one (h : v.toNat < 253) :
    serWriteVarInt v = [v.setWidth 8] := by
  rw [serWriteVarInt, if_pos (lt_marker_iff.mpr h)]
  simp [serWriteData, toLittleEndian]

theorem serWriteVarInt_two (h : 253 ≤ v.toNat) (h' : v.toNat < 2 ^ 16) :
    serWriteVarInt v = kVarint16bits :: toLittleEndian 2 v := by
  have h1 : ¬ v < kVarint16bits.setWidth 64 := by
    rw [lt_marker_iff]
    omega
  rw [serWriteVarInt, if_neg h1, if_pos (le_two_bytes_iff.mpr h'), serWriteData, serWriteData,
    toLittleEndian_setWidth v (by omega)]
  rfl

theorem serWriteVarInt_four (h : 2 ^ 16 ≤ v.toNat) (h' : v.toNat < 2 ^ 32) :
    serWriteVarInt v = kVarint32bits :: toLittleEndian 4 v := by
  have h1 : ¬ v < kVarint16bits.setWidth 64 := by
    rw [lt_marker_iff]
    omega
  have h2 : ¬ v ≤ 0xffff#64 := by
    rw [le_two_bytes_iff]
    omega
  rw [serWriteVarInt, if_neg h1, if_neg h2, if_pos (le_four_bytes_iff.mpr h'), serWriteData,
    serWriteData, toLittleEndian_setWidth v (by omega)]
  rfl

theorem serWriteVarInt_eight (h : 2 ^ 32 ≤ v.toNat) :
    serWriteVarInt v = kVarint64bits :: toLittleEndian 8 v := by
  have h1 : ¬ v < kVarint16bits.setWidth 64 := by
    rw [lt_marker_iff]
    omega
  have h2 : ¬ v ≤ 0xffff#64 := by
    rw [le_two_bytes_iff]
    omega
  have h3 : ¬ v ≤ 0xffffffff#64 := by
    rw [le_four_bytes_iff]
    omega
  rw [serWriteVarInt, if_neg h1, if_neg h2, if_neg h3]
  rfl

/-- The number of bytes `serWriteVarInt` writes is the one `varIntSize` announces. -/
theorem serWriteVarInt_length (v : U64) : (serWriteVarInt v).length = varIntSize v.toNat := by
  by_cases h1 : v.toNat < 253
  · simp [serWriteVarInt_one h1, varIntSize, h1]
  by_cases h2 : v.toNat < 2 ^ 16
  · have h2' : v.toNat ≤ 65535 := by omega
    simp [serWriteVarInt_two (by omega) h2, varIntSize, h1, h2']
  by_cases h3 : v.toNat < 2 ^ 32
  · have h2' : ¬ v.toNat ≤ 65535 := by omega
    have h3' : v.toNat ≤ 4294967295 := by omega
    simp [serWriteVarInt_four (by omega) h3, varIntSize, h1, h2', h3']
  · have h2' : ¬ v.toNat ≤ 65535 := by omega
    have h3' : ¬ v.toNat ≤ 4294967295 := by omega
    have h4 : 2 ^ 32 ≤ v.toNat := by omega
    simp [serWriteVarInt_eight h4, varIntSize, h1, h2', h3']

theorem serWriteVarInt_ne_nil (v : U64) : serWriteVarInt v ≠ [] := by
  intro h
  have hlen := serWriteVarInt_length v
  rw [h, varIntSize] at hlen
  split_ifs at hlen

/-- The size of a container fits in the `size_t` it is counted with. -/
theorem serWriteVarInt_size {n : Nat} (h : n < 2 ^ 64) :
    (serWriteVarInt (BitVec.ofNat 64 n)).length = varIntSize n := by
  rw [serWriteVarInt_length, BitVec.toNat_ofNat, Nat.mod_eq_of_lt h]

theorem serializeString_length {s : List Byte} (h : s.length < 2 ^ 64) :
    (serializeString s).length = varIntSize s.length + s.length := by
  rw [serializeString, List.length_append, serWriteVarInt_size h]

theorem serializeVector_length {A : Type} {write : A → List Byte} {v : List A} (size : A → Nat)
    (h : v.length < 2 ^ 64) (hsize : ∀ a ∈ v, (write a).length = size a) :
    (serializeVector write v).length = varIntSize v.length + (v.map size).sum := by
  rw [serializeVector, List.length_append, serWriteVarInt_size h, List.length_flatMap,
    List.map_congr_left hsize]

theorem varIntSize_mono {n m : Nat} (h : n ≤ m) : varIntSize n ≤ varIntSize m := by
  simp only [varIntSize]
  split_ifs <;> omega

end VarInt

structure Memory where
  stale : Nat → Byte
  returned : Nat → U64

/-- A `ByteSource`: the bytes from `position_` on, and what else a read depends on. -/
structure Source where
  rest : List Byte
  memory : Memory
  interrupted : Bool

/-- `std::ios_base::failure`. -/
inductive Failure where
  | nonCanonical
  | sizeTooLarge
deriving DecidableEq

def Failure.what : Failure → String
  | .nonCanonical => "non-canonical SerReadVarInt()"
  | .sizeTooLarge => "SerReadVarInt(): size too large"

abbrev Deserializer (A : Type) : Type := EStateM Failure Source A

/-- The value a reader returns, if it does not raise. -/
def Deserializer.value {A : Type} (read : Deserializer A) (s : Source) : Option A :=
  match read s with
  | .ok v _ => some v
  | .error _ _ => none

theorem Deserializer.value_eq_some {A : Type} {read : Deserializer A} {s : Source} {v : A} :
    read.value s = some v ↔ ∃ s', read s = .ok v s' := by
  cases h : read s <;> simp [Deserializer.value, h]

section Reading

def drawStale (n : Nat) : Deserializer (List Byte) := fun s =>
  .ok ((List.range n).map s.memory.stale)
    { s with memory := { s.memory with stale := fun i => s.memory.stale (n + i) } }

def drawReturned : Deserializer U64 := fun s =>
  .ok (s.memory.returned 0)
    { s with memory := { s.memory with returned := fun i => s.memory.returned (i + 1) } }

/-- `SingletonInterruptor::GetInstance().Interrupt()`. -/
def interrupt : Deserializer Unit := fun s => .ok () { s with interrupted := true }

def interruptAbove (limit size : U64) : Deserializer Unit :=
  if limit < size then interrupt else pure ()

/-- `ByteSource::read`: the bytes copied into the buffer and the value returned. -/
def Source.read (size : Nat) : Deserializer (List Byte × Int) := fun s =>
  if s.rest.isEmpty then .ok ([], -1) s
  else .ok (s.rest.take size, min size s.rest.length) { s with rest := s.rest.drop size }

/-- The buffer of `SerReadData`; nothing checks how much of it was filled. -/
def readData (n : Nat) : Deserializer (List Byte × U64) := do
  let (got, size) ← Source.read n
  let unwritten ← drawStale (n - got.length)
  pure (got ++ unwritten, BitVec.ofInt 64 size)

def serReadData (w : Nat) : Deserializer (BitVec w × U64) := do
  let (data, size) ← readData (w / 8)
  pure (fromLittleEndian w data, size)

def serReadBool : Deserializer (Bool × U64) := do
  let (data, size) ← readData 1
  pure (data.any (· ≠ 0#8), size)

/-- The forms of `SerReadVarInt` that follow a marker byte. Only the low `n` bytes of
`varint` are written. -/
def readWideVarInt (n : Nat) (least : U64) : Deserializer U64 := do
  let (low, _) ← readData n
  let high ← drawStale (8 - n)
  let varint := fromLittleEndian 64 (low ++ high)
  if varint < least then throw .nonCanonical else pure varint

def serReadVarInt : Deserializer U64 := do
  let (count, _) ← serReadData 8
  let varint ←
    (if count < kVarint16bits then pure (count.setWidth 64)
    else if count = kVarint16bits then readWideVarInt 2 (kVarint16bits.setWidth 64)
    else if count = kVarint32bits then readWideVarInt 4 0x10000#64
    else readWideVarInt 8 0x100000000#64)
  if kMaxVardataSize < varint then throw .sizeTooLarge else pure varint

/-- `stream_.read(&c, 1)`: at the end of the source `c` keeps the value it had. -/
def readChar (c : Option Byte) : Deserializer Byte := do
  let (got, _) ← Source.read 1
  match got, c with
  | b :: _, _ => pure b
  | [], some c => pure c
  | [], none => do
    let unwritten ← drawStale 1
    pure (unwritten.headD 0#8)

def readChars : Nat → Option Byte → Deserializer (List Byte)
  | 0, _ => pure []
  | n + 1, c => do
    let c ← readChar c
    if c = 0#8 then pure []
    else do
      let out ← readChars n (some c)
      pure (c :: out)

/-- `Deserialize(std::string*)`. -/
def deserializeString : Deserializer (List Byte × U64) := do
  let size ← serReadVarInt
  let out ← readChars size.toNat none
  pure (out, size + 1)

/-- `Deserialize` of `std::array<uint8_t, n>`, and of the `n` bytes of a `RepeatedField`. -/
def deserializeArray : (n : Nat) → Deserializer (Bytes n × U64)
  | 0 => pure (⟨[], rfl⟩, 0)
  | n + 1 => do
    let (b, k) ← serReadData 8
    let (out, size) ← deserializeArray n
    pure (out.cons b, k + size)

/-- The loop of the vector overloads, with what each does with the size so far. -/
def vectorElements {A : Type} (element : Deserializer (A × U64))
    (check : U64 → Deserializer Unit) : Nat → U64 → Deserializer (List A × U64)
  | 0, size => pure ([], size)
  | n + 1, size => do
    let (v, k) ← element
    check (size + k)
    let (out, size) ← vectorElements element check n (size + k)
    pure (v :: out, size)

/-- `Deserialize` of an arithmetic vector. -/
def deserializeArithmeticVector (w : Nat) : Deserializer (List (BitVec w) × U64) := do
  let count ← serReadVarInt
  interruptAbove kMaxBlockSize (count * BitVec.ofNat 64 (w / 8))
  vectorElements (serReadData w) (fun _ => pure ()) count.toNat 1

/-- `Deserialize` of a class vector. -/
def deserializeClassVector {A : Type} (element : Deserializer (A × U64)) :
    Deserializer (List A × U64) := do
  let count ← serReadVarInt
  vectorElements element (interruptAbove kMaxBlockSize) count.toNat 1

/-- The default `Deserialize`, which calls the member function and returns nothing. -/
def deserializeMember {A : Type} (member : Deserializer A) : Deserializer (A × U64) := do
  let v ← member
  let size ← drawReturned
  pure (v, size)

/-- `SerialRead`, whose result no caller looks at. -/
def serialRead {A : Type} (deserialize : Deserializer (A × U64)) : Deserializer A :=
  Prod.fst <$> deserialize

end Reading

section Runs

/-- What `SerReadData` finds in its buffer: the bytes there are, then what it held before. -/
def buffer (n : Nat) (s : Source) : List Byte :=
  s.rest.take n ++ (List.range (n - s.rest.length)).map s.memory.stale

def skip (n : Nat) (s : Source) : Source :=
  { s with
    rest := s.rest.drop n
    memory := { s.memory with stale := fun i => s.memory.stale (n - s.rest.length + i) } }

theorem buffer_length (n : Nat) (s : Source) : (buffer n s).length = n := by
  simp only [buffer, List.length_append, List.length_take, List.length_map, List.length_range]
  omega

theorem buffer_of_le {n : Nat} {s : Source} (h : n ≤ s.rest.length) :
    buffer n s = s.rest.take n := by
  simp [buffer, Nat.sub_eq_zero_of_le h]

theorem readData_run (n : Nat) (s : Source) :
    ∃ size, readData n s = .ok (buffer n s, size) (skip n s) := by
  have hget : ∀ (got : List Byte) (size : Int) (t : Source), Source.read n s = .ok (got, size) t →
      got ++ (List.range (n - got.length)).map t.memory.stale = buffer n s →
      { t with memory := { t.memory with
        stale := fun i => t.memory.stale (n - got.length + i) } } = skip n s →
      readData n s = .ok (buffer n s, BitVec.ofInt 64 size) (skip n s) := by
    intro got size t h hb hs
    rw [← hb, ← hs]
    change EStateM.bind _ _ s = _
    simp only [EStateM.bind, h]
    rfl
  by_cases hs : s.rest = []
  · refine ⟨_, hget [] (-1) s ?_ ?_ ?_⟩
    · simp [Source.read, hs]
    · simp [buffer, hs]
    · simp [skip, hs]
  · have hlen : n - (s.rest.take n).length = n - s.rest.length := by
      rw [List.length_take]
      omega
    refine ⟨_, hget (s.rest.take n) (min n s.rest.length)
      { s with rest := s.rest.drop n } ?_ ?_ ?_⟩
    · simp [Source.read, hs]
    · simp only [buffer, hlen]
    · simp only [skip, hlen]

theorem readData_ok {n : Nat} {s s' : Source} {data : List Byte} {size : U64}
    (h : readData n s = .ok (data, size) s') : data = buffer n s ∧ s' = skip n s := by
  obtain ⟨size', hrun⟩ := readData_run n s
  rw [hrun] at h
  cases h
  exact ⟨rfl, rfl⟩

end Runs

end Serialize
