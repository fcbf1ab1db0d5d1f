import Btclite.Library.Effects
import Btclite.Utility.Endian
import Btclite.Utility.Serialize

/-!
# Fast random contexts

`FastRandomContext` of `random.cpp` over any generator. What the generator gives goes
through a buffer of 64 bytes, which is read from its end backwards by the count of what
is left, and some of it through a word that is used up bit by bit. Neither buffer is set
by the constructors.
-/

namespace FastRandom

open Endian Serialize

/-- Ways not to return: a read outside of the buffer, a shift by no number of bits of the
word, the exception of a generator without a seed, a loop that goes on. -/
inductive Fault where
  | outside
  | shift
  | unseeded
  | spent
deriving DecidableEq

/-- `Botan::ChaCha_RNG`, which is a library's. What throws fills nothing. -/
structure Generator (G : Type) where
  fresh : G
  seeded : List Byte → G
  addEntropy : List Byte → G → G
  randomize : (n : Nat) → G → Option (Bytes n) × G

structure Context (G : Type) where
  rng : G
  requiresSeed : Bool
  bytebuf : Bytes 64
  bytebufSize : Int
  bitbuf : U64
  bitbufSize : Int

/-- The memory of an object before it is constructed, and that of the seed in the constructor. -/
structure Uninitialised where
  bytebuf : Bytes 64
  bitbuf : U64
  seed : Hash256

section Model

variable {G : Type} (gen : Generator G)

/-- The constructor that takes a seed. -/
def ofSeed (memory : Uninitialised) (seed : Hash256) : Context G where
  rng := gen.seeded seed.data
  requiresSeed := false
  bytebuf := memory.bytebuf
  bytebufSize := 0
  bitbuf := memory.bitbuf
  bitbufSize := 0

/-- The constructor that takes `deterministic`; its `seed` is not set either. -/
def construct (memory : Uninitialised) (deterministic : Bool) : Context G where
  rng := if deterministic then gen.addEntropy memory.seed.data gen.fresh else gen.fresh
  requiresSeed := !deterministic
  bytebuf := memory.bytebuf
  bytebufSize := 0
  bitbuf := memory.bitbuf
  bitbufSize := 0

/-- A context no call was made on yet. -/
inductive Constructed (memory : Uninitialised) : Context G → Prop
  | ofSeed (seed : Hash256) : Constructed memory (ofSeed gen memory seed)
  | construct (deterministic : Bool) : Constructed memory (construct gen memory deterministic)

abbrev Action (G A : Type) : Type := EStateM Fault (Context G) A

def randomize (n : Nat) : Action G (Bytes n) := do
  let s ← get
  let (bytes, rng) := gen.randomize n s.rng
  set { s with rng }
  match bytes with
  | some bytes => return bytes
  | none => throw .unseeded

/-- `system` is what `RandHash256` returns. -/
def randomSeed (system : Hash256) : Action G Unit :=
  modify fun s => { s with rng := gen.addEntropy system.data s.rng, requiresSeed := false }

def fillByteBuffer (system : Hash256) : Action G Unit := do
  if (← get).requiresSeed then randomSeed gen system
  let bytebuf ← randomize gen 64
  modify fun s => { s with bytebuf, bytebufSize := 64 }

/-- The bytes from `bytebuf_ + 64 - bytebuf_size_` on. -/
def readBuffer (n : Nat) : Action G (Bytes n) := do
  let s ← get
  let start := 64 - s.bytebufSize
  if h : 0 ≤ start ∧ start + n ≤ 64 then
    return ⟨(s.bytebuf.data.drop start.toNat).take n, by
      rw [List.length_take, List.length_drop, s.bytebuf.size_eq]
      omega⟩
  else throw .outside

/-- What `Rand64` and `Rand256` have in common. -/
def takeBuffer (system : Hash256) (n : Nat) : Action G (Bytes n) := do
  if (← get).bytebufSize < n then fillByteBuffer gen system
  let bytes ← readBuffer n
  modify fun s => { s with bytebufSize := s.bytebufSize - n }
  return bytes

def rand64 (system : Hash256) : Action G U64 := do
  let bytes ← takeBuffer gen system 8
  return fromLittleEndian 64 bytes.data

def rand256 (system : Hash256) : Action G Hash256 := takeBuffer gen system 32

def fillBitBuffer (system : Hash256) : Action G Unit := do
  let bitbuf ← rand64 gen system
  modify fun s => { s with bitbuf, bitbufSize := 64 }

def shiftRight (word : U64) (n : Int) : Action G U64 :=
  if 0 ≤ n ∧ n < 64 then return word >>> n.toNat else throw .shift

def randBits (system : Hash256) (bits : Int) : Action G U64 := do
  if bits = 0 then return 0
  else if 32 < bits then
    let word ← rand64 gen system
    shiftRight word (64 - bits)
  else
    if (← get).bitbufSize < bits then fillBitBuffer gen system
    let mask ← shiftRight (~~~0) (64 - bits)
    let ret := (← get).bitbuf &&& mask
    let bitbuf ← shiftRight (← get).bitbuf bits
    modify fun s => { s with bitbuf, bitbufSize := s.bitbufSize - bits }
    return ret

def countBits (x : U64) : Nat :=
  if h : x = 0 then 0 else countBits (x >>> 1) + 1
termination_by x.toNat
decreasing_by
  have hpos : 0 < x.toNat := Nat.pos_of_ne_zero fun hzero => h (BitVec.eq_of_toNat_eq hzero)
  rw [BitVec.toNat_ushiftRight, Nat.shiftRight_one]
  omega

/-- The loop of `RandRange`, which a generator may keep going. -/
def tryRange (system : Hash256) (range : U64) (bits : Int) : Nat → Action G U64
  | 0 => throw .spent
  | fuel + 1 => do
    let ret ← randBits gen system bits
    if ret ≤ range then return ret else tryRange system range bits fuel

def randRange (system : Hash256) (fuel : Nat) (range : U64) : Action G U64 :=
  let range := range - 1
  tryRange gen system range (countBits range) fuel

def randBytes (len : Nat) : Action G (List Byte) := do
  if 0 < len then
    let bytes ← randomize gen len
    return bytes.data
  else return []

def rand32 (system : Hash256) : Action G U32 := do
  let word ← randBits gen system 32
  return word.setWidth 32

def randBool (system : Hash256) : Action G Bool := do
  let word ← randBits gen system 1
  return word != 0

end Model

section Runs

inductive Call where
  | randBits (bits : Int)
  | randRange (range : U64)
  | rand32
  | rand64
  | rand256
  | randBool
  | randBytes (len : Nat)

/-- Bits of a word, and a range that is not empty. -/
def Call.Valid : Call → Prop
  | .randBits bits => 0 ≤ bits ∧ bits ≤ 64
  | .randRange range => range ≠ 0
  | _ => True

inductive Value where
  | word (value : U64)
  | half (value : U32)
  | hash (value : Hash256)
  | bool (value : Bool)
  | bytes (value : List Byte)
deriving DecidableEq

variable {G : Type} (gen : Generator G) (fuel : Nat)

def call (system : Hash256) : Call → Action G Value
  | .randBits bits => .word <$> randBits gen system bits
  | .randRange range => .word <$> randRange gen system fuel range
  | .rand32 => .half <$> rand32 gen system
  | .rand64 => .word <$> rand64 gen system
  | .rand256 => .hash <$> rand256 gen system
  | .randBool => .bool <$> randBool gen system
  | .randBytes len => .bytes <$> randBytes gen len

/-- Calls one after the other, each with what the system's generator would return in it. The
caller goes on after an exception. -/
def runCalls : List (Call × Hash256) → Context G → List (Call × Except Fault Value) × Context G
  | [], s => ([], s)
  | (c, system) :: calls, s =>
    match call gen fuel system c s with
    | .ok value s =>
      let (rest, s) := runCalls calls s
      ((c, .ok value) :: rest, s)
    | .error .unseeded s =>
      let (rest, s) := runCalls calls s
      ((c, .error .unseeded) :: rest, s)
    | .error fault s => ([(c, .error fault)], s)

end Runs

section Counting

variable {x : U64} {n : Nat}

theorem countBits_le (h : x.toNat < 2 ^ n) : countBits x ≤ n := by
  induction n generalizing x with
  | zero =>
    have hzero : x = 0 := BitVec.eq_of_toNat_eq (by rw [Nat.lt_one_iff.mp h]; rfl)
    rw [countBits, dif_pos hzero]
  | succ n ih =>
    rw [countBits]
    split_ifs
    · exact Nat.zero_le _
    · refine Nat.succ_le_succ (ih ?_)
      rw [BitVec.toNat_ushiftRight, Nat.shiftRight_one]
      omega

end Counting

end FastRandom
