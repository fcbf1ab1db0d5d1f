import Btclite.Library.Runs
import Btclite.Utility.Serialize

/-!
# Memory streams

`MemoryStream` of `stream.h` against the queue of bytes it stands for. The bytes
are in a vector that the sink appends to, and the source keeps the position up
to which it has read. `Clear` empties the vector and leaves the position.
-/

namespace MemoryStreams

open Endian Runs

structure MemoryStream where
  vec : List Byte := []
  position : Nat := 0

/-- The integral types, of which a signed one is read like an unsigned one. -/
inductive Integral where
  | bool
  | int8
  | int16
  | int32
  | int64

namespace Integral

def size : Integral → Nat
  | bool => 1
  | int8 => 1
  | int16 => 2
  | int32 => 4
  | int64 => 8

def Value : Integral → Type
  | bool => Bool
  | int8 => BitVec 8
  | int16 => BitVec 16
  | int32 => BitVec 32
  | int64 => BitVec 64

/-- `FromLittleEndian`. -/
def fromBytes : (T : Integral) → List Byte → T.Value
  | bool, data => data.any (· ≠ 0#8)
  | int8, data => fromLittleEndian 8 data
  | int16, data => fromLittleEndian 16 data
  | int32, data => fromLittleEndian 32 data
  | int64, data => fromLittleEndian 64 data

theorem size_pos (T : Integral) : 0 < T.size := by
  cases T <;> decide

end Integral

namespace MemoryStream

variable (m : MemoryStream)

/-- `ContainerSink::write`. -/
def write (buffer : List Byte) : MemoryStream := { m with vec := m.vec ++ buffer }

/-- `ContainerSource::read`: the bytes copied, the result and the position after it. -/
def read (size : Nat) : Except String ((List Byte × Int) × MemoryStream) :=
  if m.vec.length < m.position then .error "container source overflow"
  else if m.position = m.vec.length then .ok (([], -1), m)
  else
    let result := min size (m.vec.length - m.position)
    .ok (((m.vec.drop m.position).take result, result), { m with position := m.position + result })

/-- `SerReadData`. Where the source has too few bytes, the rest of `data` is what it held. -/
def serReadData (size : Nat) (stale : Nat → Byte) : Except String (List Byte × MemoryStream) :=
  match m.read size with
  | .ok ((got, _), m) => .ok (got ++ (List.range (size - got.length)).map stale, m)
  | .error what => .error what

/-- `operator>>`. -/
def shiftRight (T : Integral) (stale : Nat → Byte) : Except String (T.Value × MemoryStream) :=
  match m.serReadData T.size stale with
  | .ok (data, m) => .ok (T.fromBytes data, m)
  | .error what => .error what

def clear : MemoryStream := { m with vec := [] }

def size : Nat := m.vec.length

end MemoryStream

section Runs

/-- What is done to a stream. An object that is written comes down to its bytes. -/
inductive Op where
  | write (bytes : List Byte)
  | read (T : Integral) (stale : Nat → Byte)
  | clear

def MemoryStream.step (m : MemoryStream) : Op → MemoryStream
  | .write bytes => m.write bytes
  | .read T stale =>
    match m.shiftRight T stale with
    | .ok (_, m) => m
    | .error _ => m
  | .clear => m.clear

/-- The bytes written and not yet read, the earliest first, and how many were written. -/
structure Queue where
  unread : List Byte := []
  written : Nat := 0

/-- A read takes as many of the bytes as there are. -/
def Queue.step (q : Queue) : Op → Queue
  | .write bytes => { unread := q.unread ++ bytes, written := q.written + bytes.length }
  | .read T _ => { q with unread := q.unread.drop T.size }
  | .clear => {}

/-- A stream beside its queue. -/
abbrev Pair : Type := MemoryStream × Queue

def step (s : Pair) (op : Op) : Pair := (s.1.step op, s.2.step op)

/-- Each of the reads that finds enough bytes returns the earliest of them. -/
def Reads : Pair → List (Integral × (Nat → Byte)) → Prop
  | _, [] => True
  | s, (T, stale) :: more =>
    (T.size ≤ s.2.unread.length →
      ∃ m, s.1.shiftRight T stale = .ok (T.fromBytes (s.2.unread.take T.size), m)) ∧
    Reads (step s (.read T stale)) more

/-- The stream counts the bytes written and is right about whatever reads follow. -/
structure Serves (s : Pair) : Prop where
  size : s.1.size = s.2.written
  reads : ∀ more, Reads s more

/-- Nothing is written while the position is behind the end of the vector. -/
def Inside (s : Pair) : Op → Prop
  | .write bytes => bytes ≠ [] → s.1.position ≤ s.1.vec.length
  | _ => True

end Runs

theorem fromLittleEndian_byte (byte : Byte) : fromLittleEndian 8 [byte] = byte := by
  simp [fromLittleEndian, fromLittleEndianFrom]

section Invariant

/-- What is behind the position is what was not read. -/
structure Aligned (s : Pair) : Prop where
  inside : s.1.position ≤ s.1.vec.length
  unread : s.1.vec.drop s.1.position = s.2.unread
  written : s.1.vec.length = s.2.written

/-- Cleared with a position that stays behind. -/
structure Stranded (s : Pair) : Prop where
  behind : 0 < s.1.position
  vec : s.1.vec = []
  queue : s.2 = {}

variable {m : MemoryStream} {s : Pair} {T : Integral} {stale : Nat → Byte}

theorem take_available (m : MemoryStream) (size : Nat) :
    (m.vec.drop m.position).take (min size (m.vec.length - m.position)) =
      (m.vec.drop m.position).take size := by
  rw [← List.length_drop, ← List.take_eq_take_min]

/-- Inside the vector this is the source that the decoders read from. -/
theorem read_source (h : m.position ≤ m.vec.length) (size : Nat) (memory : Serialize.Memory)
    (interrupted : Bool) :
    ∃ result, Serialize.Source.read size ⟨m.vec.drop m.position, memory, interrupted⟩ =
        .ok ((m.vec.drop m.position).take size, result)
          ⟨(m.vec.drop m.position).drop size, memory, interrupted⟩ ∧
      m.read size = .ok (((m.vec.drop m.position).take size, result),
        { m with position := m.position + min size (m.vec.length - m.position) }) := by
  rw [MemoryStream.read, if_neg (Nat.not_lt_of_le h), Serialize.Source.read]
  by_cases hend : m.position = m.vec.length
  · have hdrop : m.vec.drop m.position = [] := List.drop_eq_nil_of_le (Nat.le_of_eq hend.symm)
    refine ⟨-1, ?_, ?_⟩
    · simp [hdrop]
    · rw [if_pos hend, hdrop, List.take_nil, hend, Nat.sub_self, Nat.min_zero, Nat.add_zero,
        ← hend]
  · have hdrop : (m.vec.drop m.position).isEmpty = false := by
      simp only [List.isEmpty_eq_false_iff, ne_eq, List.drop_eq_nil_iff]
      omega
    refine ⟨min size (m.vec.drop m.position).length, if_neg (by simp [hdrop]), ?_⟩
    have hcast (a b : Nat) : ((min a b : Nat) : Int) = min (a : Int) b := by
      omega
    dsimp only
    rw [if_neg hend, List.length_drop, take_available, hcast]

theorem read_inside (h : m.position ≤ m.vec.length) (size : Nat) :
    ∃ result, m.read size = .ok (((m.vec.drop m.position).take size, result),
      { m with position := m.position + min size (m.vec.length - m.position) }) := by
  obtain ⟨result, -, hread⟩ := read_source h size ⟨fun _ => 0#8, fun _ => 0#64⟩ false
  exact ⟨result, hread⟩

/-- A read that finds enough bytes returns the first of them, whatever the buffer held. -/
theorem shiftRight_enough (h : m.position + T.size ≤ m.vec.length) :
    m.shiftRight T stale = .ok (T.fromBytes ((m.vec.drop m.position).take T.size),
      { m with position := m.position + T.size }) := by
  obtain ⟨result, hread⟩ := read_inside (Nat.le_of_add_right_le h) T.size
  have hmin : min T.size (m.vec.length - m.position) = T.size := by
    omega
  have hlen : ((m.vec.drop m.position).take T.size).length = T.size := by
    rw [List.length_take, List.length_drop, hmin]
  rw [MemoryStream.shiftRight, MemoryStream.serReadData, hread, hmin]
  simp only [hlen, Nat.sub_self, List.range_zero, List.map_nil, List.append_nil]

/-- Inside the vector a read moves the position over what it takes. -/
theorem step_read (h : m.position ≤ m.vec.length) (T : Integral) (stale : Nat → Byte) :
    m.step (.read T stale) =
      { m with position := m.position + min T.size (m.vec.length - m.position) } := by
  obtain ⟨result, hread⟩ := read_inside h T.size
  rw [MemoryStream.step, MemoryStream.shiftRight, MemoryStream.serReadData, hread]

theorem Aligned.step {op : Op} (h : Aligned s) (hop : op ≠ .clear) : Aligned (step s op) := by
  obtain ⟨m, q⟩ := s
  have hlen : q.unread.length = m.vec.length - m.position := by
    rw [← h.unread, List.length_drop]
  have hinside : m.position ≤ m.vec.length := h.inside
  cases op with
  | write bytes =>
    refine ⟨?_, ?_, ?_⟩
    · simp only [MemoryStreams.step, MemoryStream.step, MemoryStream.write, List.length_append]
      exact Nat.le_add_right_of_le hinside
    · simp only [MemoryStreams.step, MemoryStream.step, MemoryStream.write, Queue.step]
      rw [List.drop_append_of_le_length hinside, h.unread]
    · simp only [MemoryStreams.step, MemoryStream.step, MemoryStream.write, Queue.step,
        List.length_append, h.written]
  | read T stale =>
    have hstep := step_read hinside T stale
    refine ⟨?_, ?_, ?_⟩
    · rw [MemoryStreams.step, hstep]
      change m.position + min T.size (m.vec.length - m.position) ≤ m.vec.length
      omega
    · simp only [MemoryStreams.step, hstep, Queue.step]
      rw [← h.unread, List.drop_drop]
      rcases Nat.le_total T.size (m.vec.length - m.position) with hle | hle
      · rw [Nat.min_eq_left hle]
      · rw [Nat.min_eq_right hle, Nat.add_sub_of_le hinside, List.drop_length]
        exact (List.drop_eq_nil_of_le (Nat.sub_le_iff_le_add'.mp hle)).symm
    · simp only [MemoryStreams.step, hstep, Queue.step, h.written]
  | clear => exact absurd rfl hop

theorem Aligned.reads (h : Aligned s) (more : List (Integral × (Nat → Byte))) : Reads s more := by
  induction more generalizing s with
  | nil => trivial
  | cons first more ih =>
    refine ⟨fun henough => ?_, ih (h.step (by simp))⟩
    have hlen : first.1.size ≤ s.1.vec.length - s.1.position := by
      rw [← List.length_drop, h.unread]
      exact henough
    have hinside := h.inside
    refine ⟨{ s.1 with position := s.1.position + first.1.size }, ?_⟩
    rw [shiftRight_enough (by omega), h.unread]

theorem Stranded.read (h : Stranded s) : MemoryStreams.step s (.read T stale) = s := by
  have hover : s.1.vec.length < s.1.position := by
    rw [h.vec]
    exact h.behind
  refine Prod.ext ?_ ?_
  · rw [MemoryStreams.step, MemoryStream.step, MemoryStream.shiftRight, MemoryStream.serReadData,
      MemoryStream.read, if_pos hover]
  · rw [MemoryStreams.step, h.queue, Queue.step, List.drop_nil]

theorem Stranded.reads (h : Stranded s) (more : List (Integral × (Nat → Byte))) :
    Reads s more := by
  induction more with
  | nil => trivial
  | cons first more ih =>
    refine ⟨fun henough => ?_, ?_⟩
    · rw [h.queue] at henough
      exact absurd henough (Nat.not_le_of_lt first.1.size_pos)
    · rw [h.read]
      exact ih

/-- With fewer bytes behind the position than were not read, some read goes wrong: either the
source raises at once, or it runs dry and the buffer is used as it was. -/
theorem behind_fails {m : MemoryStream} {q : Queue}
    (h : m.vec.length - m.position < q.unread.length) : ∃ more, ¬ Reads (m, q) more := by
  induction hn : m.vec.length - m.position generalizing m q with
  | zero =>
    obtain ⟨byte, rest, hq⟩ : ∃ byte rest, q.unread = byte :: rest :=
      List.exists_cons_of_length_pos (by omega)
    refine ⟨[(.int8, fun _ => byte + 1)], fun hreads => ?_⟩
    obtain ⟨m', hread⟩ : ∃ m', m.shiftRight .int8 (fun _ => byte + 1) =
        .ok (Integral.int8.fromBytes (q.unread.take 1), m') :=
      hreads.1 (by simp [hq, Integral.size])
    rw [MemoryStream.shiftRight, MemoryStream.serReadData, MemoryStream.read] at hread
    split_ifs at hread with hover hend
    · have hvalue := congrArg Prod.fst (Except.ok.inj hread)
      rw [hq] at hvalue
      change fromLittleEndian 8 [byte + 1] = fromLittleEndian 8 [byte] at hvalue
      rw [fromLittleEndian_byte, fromLittleEndian_byte] at hvalue
      exact absurd hvalue (by bv_omega)
    · omega
  | succ n ih =>
    have hinside : m.position ≤ m.vec.length := by
      omega
    have hstep := step_read hinside .int8 fun _ => 0#8
    have hmin : min Integral.int8.size (m.vec.length - m.position) = 1 := by
      rw [Integral.size]
      omega
    rw [hmin] at hstep
    have hbehind : m.vec.length - (m.position + 1) < (q.unread.drop 1).length := by
      rw [List.length_drop]
      omega
    obtain ⟨more, hmore⟩ := ih (m := { m with position := m.position + 1 })
      (q := { q with unread := q.unread.drop 1 }) hbehind (by dsimp only; omega)
    refine ⟨(.int8, fun _ => 0#8) :: more, fun hreads => hmore ?_⟩
    have hmore := hreads.2
    rw [MemoryStreams.step, hstep] at hmore
    exact hmore

theorem clear_either (s : Pair) :
    Aligned (MemoryStreams.step s .clear) ∨ Stranded (MemoryStreams.step s .clear) := by
  rcases Nat.eq_zero_or_pos s.1.position with hstart | hread
  · exact .inl ⟨Nat.le_of_eq hstart, List.drop_nil, rfl⟩
  · exact .inr ⟨hread, rfl, rfl⟩

/-- Either nothing was lost or the stream is empty. -/
theorem serves_of_either (h : Aligned s ∨ Stranded s) : Serves s := by
  rcases h with h | h
  · exact ⟨h.written, h.reads⟩
  · refine ⟨?_, h.reads⟩
    rw [MemoryStream.size, h.vec, h.queue]
    rfl

theorem either_step {op : Op} (h : Aligned s ∨ Stranded s) (hop : Inside s op) :
    Aligned (MemoryStreams.step s op) ∨ Stranded (MemoryStreams.step s op) := by
  rcases h with h | h
  · by_cases hclear : op = .clear
    · rw [hclear]
      exact clear_either s
    · exact .inl (h.step hclear)
  · cases op with
    | write bytes =>
      have hempty : bytes = [] := by
        by_contra hbytes
        have hbehind := h.behind
        have hinside := hop hbytes
        rw [h.vec] at hinside
        exact Nat.not_le_of_lt hbehind hinside
      refine .inr ⟨h.behind, ?_, ?_⟩
      · rw [hempty, MemoryStreams.step, MemoryStream.step, MemoryStream.write, h.vec]
        rfl
      · rw [hempty, MemoryStreams.step, h.queue]
        rfl
    | read T stale =>
      rw [h.read]
      exact .inr h
    | clear => exact .inr ⟨h.behind, rfl, rfl⟩

/-- What is written behind a position that stayed behind is not all read again. -/
theorem inside_of_serves {op : Op} (h : Aligned s ∨ Stranded s)
    (hserves : Serves (MemoryStreams.step s op)) : Inside s op := by
  rcases h with h | h
  · cases op with
    | write bytes => exact fun _ => h.inside
    | read T stale => trivial
    | clear => trivial
  · cases op with
    | write bytes =>
      intro hbytes
      by_contra hinside
      have hlost : (s.1.write bytes).vec.length - (s.1.write bytes).position <
          (s.2.step (.write bytes)).unread.length := by
        have hbehind := h.behind
        have hlen : 0 < bytes.length := List.length_pos_of_ne_nil hbytes
        simp only [MemoryStream.write, Queue.step, h.vec, h.queue, List.nil_append]
        omega
      obtain ⟨more, hmore⟩ := behind_fails hlost
      exact hmore (hserves.reads more)
    | read T stale => trivial
    | clear => trivial

end Invariant

/-- A stream is the queue of what was written exactly as long as nothing is written while its
position is behind the end of the vector, where `Clear` leaves it if anything was read. -/
theorem serves_iff_inside (ops : List Op) :
    (∀ done, done <+: ops → Serves (done.foldl step ({}, {}))) ↔
      Throughout step Inside ({}, {}) ops := by
  have hempty : Aligned ({}, {}) := ⟨Nat.le_refl 0, List.drop_nil, rfl⟩
  exact always_iff_of_invariant (I := fun s => Aligned s ∨ Stranded s) (.inl hempty)
    (fun _ => serves_of_either) (fun _ _ => either_step) (fun _ _ => inside_of_serves)

/-- Four bytes are written, read and cleared, and four more are written: the source is at the
end of the vector already, and the word that is read is what the buffer held. -/
theorem cleared_stream_dry :
    let bytes : List Byte := [1#8, 2#8, 3#8, 4#8]
    let stale : Nat → Byte := fun _ => 0#8
    let s := [Op.write bytes, .read .int32 stale, .clear, .write bytes].foldl step ({}, {})
    s.2.unread = bytes ∧
      s.1.shiftRight .int32 stale = .ok ((0#32 : BitVec 32), s.1) ∧
      Integral.int32.fromBytes bytes = 0x04030201#32 ∧ ¬ Serves s := by
  intro bytes stale s
  have hbuffer : s.1.serReadData 4 stale = .ok ([0#8, 0#8, 0#8, 0#8], s.1) := rfl
  have hread : s.1.shiftRight .int32 stale = .ok ((0#32 : BitVec 32), s.1) := by
    rw [MemoryStream.shiftRight, Integral.size, hbuffer]
    rfl
  refine ⟨rfl, hread, rfl, fun hserves => ?_⟩
  obtain ⟨m, hm⟩ := (hserves.reads [(.int32, stale)]).1 (Nat.le_refl 4)
  rw [hread] at hm
  have hvalue : (0#32 : BitVec 32) = 0x04030201#32 := congrArg Prod.fst (Except.ok.inj hm)
  exact absurd hvalue (by decide)

end MemoryStreams
