import Btclite.Library.RingQueues

/-!
# The circular buffer

`CircularBuffer` of `circular_buffer.h` against the queue it stands for. All of
it agrees with the queue but `exist`, which searches the first slots of the
array and not those in which the queue lies.
-/

namespace CircularBuffers

open RingQueues

universe u

/-- The indices wrap around as the source's do under `% max_size_`. -/
structure CircularBuffer (T : Type u) (maxSize : Nat) where
  buf : Vector T maxSize
  head : Fin maxSize
  tail : Fin maxSize
  full : Bool
  full_eq : full = true → head = tail

namespace CircularBuffer

variable {T : Type u} {maxSize : Nat}

section Operations

def empty (b : CircularBuffer T maxSize) : Bool := !b.full && b.head == b.tail

def size (b : CircularBuffer T maxSize) : Nat :=
  if b.full then maxSize
  else if b.head ≤ b.tail then b.tail.val - b.head.val
  else b.tail.val + maxSize - b.head.val

def clear (b : CircularBuffer T maxSize) : CircularBuffer T maxSize :=
  { b with head := b.tail, full := false, full_eq := by simp }

/-- `std::find` over the first `size()` slots. -/
def exist [DecidableEq T] (b : CircularBuffer T maxSize) (val : T) : Bool :=
  (b.buf.toList.take b.size).contains val

variable [NeZero maxSize]

/-- The constructor. What `new T[max_size]` holds is not specified. -/
def make (buf : Vector T maxSize) : CircularBuffer T maxSize where
  buf
  head := 0
  tail := 0
  full := false
  full_eq := by simp

def pushBack (b : CircularBuffer T maxSize) (item : T) : CircularBuffer T maxSize :=
  let head := if b.full then b.head + 1 else b.head
  { buf := b.buf.set b.tail item
    head
    tail := b.tail + 1
    full := head == b.tail + 1
    full_eq := by simp }

def popFront [Inhabited T] (b : CircularBuffer T maxSize) : T × CircularBuffer T maxSize :=
  if b.empty then (default, b)
  else (b.buf.get b.head, { b with head := b.head + 1, full := false, full_eq := by simp })

/-- `operator[]`. -/
def get (b : CircularBuffer T maxSize) (n : Nat) : Except String T :=
  if b.size ≤ n then .error "CircularBuffer"
  else .ok (b.buf.get (b.head + Fin.ofNat maxSize n))

/-- The elements in the buffer, the oldest first. -/
def contents (b : CircularBuffer T maxSize) : List T := window b.buf.get b.head b.size

end Operations

section Sizes

variable {b : CircularBuffer T maxSize}

theorem size_le : b.size ≤ maxSize := by
  have hhead := b.head.isLt
  have htail := b.tail.isLt
  simp only [size, Fin.le_def]
  split_ifs <;> omega

theorem full_iff : b.full = true ↔ b.size = maxSize := by
  have hhead := b.head.isLt
  have htail := b.tail.isLt
  cases hfull : b.full with
  | true => simp [size, hfull]
  | false =>
    simp only [size, hfull, Bool.false_eq_true, if_false, Fin.le_def, false_iff]
    split_ifs <;> omega

theorem size_eq_zero_iff : b.size = 0 ↔ b.empty = true := by
  have hhead := b.head.isLt
  have htail := b.tail.isLt
  cases hfull : b.full with
  | true =>
    simp only [size, empty, hfull, if_true, Bool.not_true, Bool.false_and, Bool.false_eq_true,
      iff_false]
    omega
  | false =>
    simp only [size, empty, hfull, Fin.le_def, Bool.false_eq_true, if_false, Bool.not_false,
      Bool.true_and, beq_iff_eq, Fin.ext_iff]
    split_ifs <;> omega

theorem size_succ (h : b.empty = false) : ∃ k, b.size = k + 1 := by
  apply Nat.exists_eq_succ_of_ne_zero
  intro hzero
  rw [size_eq_zero_iff.mp hzero] at h
  cases h

theorem size_lt (h : b.full = false) : b.size < maxSize := by
  apply Nat.lt_of_le_of_ne size_le
  intro hall
  rw [full_iff.mpr hall] at h
  cases h

theorem clear_size : b.clear.size = 0 := by
  simp [size_eq_zero_iff, clear, empty]

variable [NeZero maxSize]

/-- `tail_` lies behind the last element. -/
theorem tail_eq : b.tail = b.head + Fin.ofNat maxSize b.size := by
  have hhead := b.head.isLt
  have htail := b.tail.isLt
  cases hfull : b.full with
  | true => rw [size, if_pos hfull, Fin.ofNat_self, add_zero, b.full_eq hfull]
  | false =>
    apply Fin.ext
    simp only [size, hfull, Bool.false_eq_true, if_false, Fin.le_def, Fin.val_add, Fin.ofNat,
      Nat.add_mod_mod]
    split_ifs with hle
    · rw [Nat.add_sub_cancel' hle, Nat.mod_eq_of_lt htail]
    · have hwrap : b.head.val + (b.tail.val + maxSize - b.head.val) = b.tail.val + maxSize := by
        omega
      rw [hwrap, Nat.add_mod_right, Nat.mod_eq_of_lt htail]

/-- What `size()` computes, given where the last element lies. -/
theorem size_eq {k : Nat} (hk : k ≤ maxSize) (htail : b.tail = b.head + Fin.ofNat maxSize k)
    (hfull : b.full = true ↔ k = maxSize) : b.size = k := by
  rcases Nat.lt_or_eq_of_le hk with hless | rfl
  · have hnot : ¬ b.size = maxSize := fun h => by
      have := hfull.mp (full_iff.mpr h)
      omega
    have hsize : b.size < maxSize := Nat.lt_of_le_of_ne size_le hnot
    exact steps_unique hsize hless (tail_eq.symm.trans htail)
  · exact full_iff.mp (hfull.mpr rfl)

theorem pushBack_size (v : T) :
    (b.pushBack v).size = if b.full then maxSize else b.size + 1 := by
  cases hfull : b.full with
  | true =>
    rw [if_pos rfl]
    apply full_iff.mp
    simp [pushBack, hfull, b.full_eq hfull]
  | false =>
    rw [if_neg Bool.false_ne_true]
    have hless := size_lt hfull
    have hnext : b.tail + 1 = b.head + Fin.ofNat maxSize (b.size + 1) := by
      rw [ofNat_succ, ← add_assoc, ← tail_eq]
    apply size_eq hless
    · simpa [pushBack, hfull] using hnext
    · have hreturn : b.head + Fin.ofNat maxSize (b.size + 1) = b.head ↔ b.size + 1 = maxSize :=
        steps_return_iff (Nat.succ_pos _) hless
      rw [← hreturn, ← hnext]
      simp only [pushBack, hfull, Bool.false_eq_true, if_false, beq_iff_eq]
      exact eq_comm

theorem popFront_size [Inhabited T] : b.popFront.2.size = b.size - 1 := by
  cases hempty : b.empty with
  | true =>
    have hzero := size_eq_zero_iff.mpr hempty
    rw [popFront, if_pos hempty, hzero]
  | false =>
    obtain ⟨k, hk⟩ := size_succ hempty
    have hle := size_le (b := b)
    have htail := tail_eq (b := b)
    rw [hk] at hle htail
    rw [popFront, if_neg (by simp [hempty]), hk, Nat.add_sub_cancel]
    apply size_eq (Nat.le_of_succ_le hle)
    · change b.tail = b.head + 1 + Fin.ofNat maxSize k
      rw [htail, ofNat_succ, add_comm (Fin.ofNat maxSize k), add_assoc]
    · constructor
      · intro h
        cases h
      · intro h
        omega

end Sizes

section Contents

variable [NeZero maxSize] {b : CircularBuffer T maxSize}

@[simp] theorem contents_length : b.contents.length = b.size := window_length

theorem make_contents (buf : Vector T maxSize) : (make buf).contents = [] := by
  rw [← List.length_eq_zero_iff, contents_length, size_eq_zero_iff]
  simp [make, empty]

omit [NeZero maxSize] in
theorem get_set_self {buf : Vector T maxSize} {i : Fin maxSize} {v : T} :
    (buf.set i v).get i = v :=
  Vector.getElem_set_self i.isLt

omit [NeZero maxSize] in
theorem get_set_ne {buf : Vector T maxSize} {i j : Fin maxSize} {v : T} (h : j ≠ i) :
    (buf.set i v).get j = buf.get j :=
  Vector.getElem_set_ne i.isLt j.isLt fun hij => h (Fin.ext hij.symm)

theorem pushBack_contents (v : T) : (b.pushBack v).contents = push maxSize b.contents v := by
  rw [contents, pushBack_size, push, contents_length]
  cases hfull : b.full with
  | true =>
    have hsize := full_iff.mp hfull
    have hhead : (b.pushBack v).head = b.head + 1 := by simp [pushBack, hfull]
    rw [if_pos rfl, if_neg (by omega), hhead, contents, hsize]
    apply window_overwrite
    · rw [b.full_eq hfull]
      exact get_set_self
    · intro i hi
      rw [b.full_eq hfull] at hi
      exact get_set_ne hi
  | false =>
    have hless := size_lt hfull
    have hhead : (b.pushBack v).head = b.head := by simp [pushBack, hfull]
    rw [if_neg Bool.false_ne_true, if_pos hless, hhead]
    apply window_write hless
    · rw [← tail_eq]
      exact get_set_self
    · intro i hi
      rw [← tail_eq] at hi
      exact get_set_ne hi

theorem popFront_contents [Inhabited T] :
    b.popFront.1 = b.contents.headD default ∧ b.popFront.2.contents = b.contents.tail := by
  cases hempty : b.empty with
  | true =>
    have hnil : b.contents = [] := by
      rw [← List.length_eq_zero_iff, contents_length, size_eq_zero_iff, hempty]
    rw [popFront, if_pos hempty, hnil]
    exact ⟨rfl, rfl⟩
  | false =>
    obtain ⟨k, hk⟩ := size_succ hempty
    have hpopped : b.popFront.2.size = k := by
      rw [popFront_size, hk, Nat.add_sub_cancel]
    have hcontents : b.contents = b.buf.get b.head :: window b.buf.get (b.head + 1) k := by
      rw [contents, hk, window_cons]
    constructor
    · rw [hcontents, popFront, if_neg (by simp [hempty])]
      rfl
    · rw [hcontents, contents, hpopped, popFront, if_neg (by simp [hempty])]
      rfl

theorem clear_contents : b.clear.contents = [] := by
  rw [← List.length_eq_zero_iff, contents_length, clear_size]

end Contents

end CircularBuffer

section Slots

variable {T : Type u} {maxSize : Nat} {b : CircularBuffer T maxSize}

theorem exist_iff [DecidableEq T] {v : T} :
    b.exist v = true ↔ ∃ i : Fin maxSize, i.val < b.size ∧ b.buf.get i = v := by
  have hlen : b.buf.toList.length = maxSize := b.buf.length_toList
  rw [CircularBuffer.exist, List.contains_iff_mem, List.mem_take_iff_getElem]
  constructor
  · rintro ⟨i, hi, rfl⟩
    have hi : i < b.size ∧ i < maxSize := by omega
    exact ⟨⟨i, hi.2⟩, hi.1, (Vector.getElem_toList _).symm⟩
  · rintro ⟨i, hi, rfl⟩
    have hmin : i.val < min b.size b.buf.toList.length := by
      rw [hlen]
      exact lt_min hi i.isLt
    exact ⟨i, hmin, Vector.getElem_toList _⟩

/-- Slot `i` holds one of the queued elements. -/
def Queued (b : CircularBuffer T maxSize) (i : Fin maxSize) : Prop :=
  (i - b.head).val < b.size

instance (b : CircularBuffer T maxSize) (i : Fin maxSize) : Decidable (Queued b i) :=
  inferInstanceAs (Decidable ((i - b.head).val < b.size))

/-- The slots that `exist` searches and those in which the queue lies hold the same values:
no value is left over in the first ones, and none hidden behind them. -/
structure Faithful (b : CircularBuffer T maxSize) : Prop where
  leftover : ∀ i : Fin maxSize, i.val < b.size → ¬ Queued b i →
    ∃ j, Queued b j ∧ b.buf.get j = b.buf.get i
  hidden : ∀ i : Fin maxSize, Queued b i → ¬ i.val < b.size →
    ∃ j : Fin maxSize, j.val < b.size ∧ b.buf.get j = b.buf.get i

variable [NeZero maxSize]

theorem mem_contents_iff {v : T} :
    v ∈ b.contents ↔ ∃ i, Queued b i ∧ b.buf.get i = v :=
  mem_window_iff CircularBuffer.size_le

/-- A queue that starts in the first slot, fills the ring or is empty is searched right. -/
theorem faithful_of_aligned (h : b.head = 0 ∨ b.full = true ∨ b.empty = true) : Faithful b := by
  have hsame (i : Fin maxSize) : i.val < b.size ↔ Queued b i := by
    rcases h with hhead | hfull | hempty
    · rw [Queued, hhead, sub_zero]
    · rw [Queued, CircularBuffer.full_iff.mp hfull]
      exact iff_of_true i.isLt (i - b.head).isLt
    · rw [Queued, CircularBuffer.size_eq_zero_iff.mpr hempty]
      exact iff_of_false (Nat.not_lt_zero _) (Nat.not_lt_zero _)
  constructor
  · intro i hi hnot
    exact absurd ((hsame i).mp hi) hnot
  · intro i hi hnot
    exact absurd ((hsame i).mpr hi) hnot

/-- With different values in all slots no other queue is. -/
theorem faithful_iff_aligned (hdistinct : Function.Injective b.buf.get) :
    Faithful b ↔ b.head = 0 ∨ b.full = true ∨ b.empty = true := by
  refine ⟨fun ⟨hleftover, hhidden⟩ => ?_, faithful_of_aligned⟩
  by_contra hnot
  simp only [not_or, Bool.not_eq_true] at hnot
  obtain ⟨hhead, hfull, hempty⟩ := hnot
  obtain ⟨k, hk⟩ := CircularBuffer.size_succ hempty
  have hless := CircularBuffer.size_lt hfull
  have hfirst : b.head.val < b.size := by
    by_contra hbehind
    obtain ⟨j, hj, hval⟩ := hhidden b.head (by simp [Queued, hk]) hbehind
    rw [hdistinct hval] at hj
    exact hbehind hj
  -- The slot in front of the first element is searched, and is the last that a push reaches.
  have hpos : 0 < b.head.val := Nat.pos_of_ne_zero fun h => hhead (Fin.ext h)
  have hbefore : (b.head - 1).val = b.head.val - 1 := Fin.val_sub_one_of_ne_zero hhead
  have hqueued : ¬ Queued b (b.head - 1) := by
    have hturn : maxSize - b.head.val + (b.head.val - 1) = maxSize - 1 := by omega
    rw [Queued, Fin.sub_def]
    simp only [hbefore, hturn]
    rw [Nat.mod_eq_of_lt (by omega)]
    omega
  obtain ⟨j, hj, hval⟩ := hleftover (b.head - 1) (by omega) hqueued
  rw [hdistinct hval] at hj
  exact hqueued hj

end Slots

/-- What the buffer is told to do. -/
inductive Act (T : Type u) where
  | pushBack (item : T)
  | popFront
  | clear

section Refinement

variable {T : Type u} {maxSize : Nat} [NeZero maxSize] [Inhabited T]

def step (b : CircularBuffer T maxSize) : Act T → CircularBuffer T maxSize
  | .pushBack item => b.pushBack item
  | .popFront => b.popFront.2
  | .clear => b.clear

/-- The queue that drops its oldest element. -/
def queueStep (cap : Nat) (q : List T) : Act T → List T
  | .pushBack item => push cap q item
  | .popFront => q.tail
  | .clear => []

theorem step_contents (b : CircularBuffer T maxSize) (a : Act T) :
    (step b a).contents = queueStep maxSize b.contents a := by
  cases a with
  | pushBack item => exact b.pushBack_contents item
  | popFront => exact b.popFront_contents.2
  | clear => exact b.clear_contents

/-- After any sequence of operations the buffer holds what the queue holds. -/
theorem run_contents (buf : Vector T maxSize) (acts : List (Act T)) :
    (acts.foldl step (.make buf)).contents = acts.foldl (queueStep maxSize) [] := by
  suffices h : ∀ (b : CircularBuffer T maxSize) q, b.contents = q →
      (acts.foldl step b).contents = acts.foldl (queueStep maxSize) q from
    h _ _ (CircularBuffer.make_contents buf)
  induction acts with
  | nil => exact fun b q h => h
  | cons a acts ih =>
    intro b q h
    apply ih
    rw [step_contents, h]

/-- What the buffer shows of itself, `exist` apart, is what the queue shows. -/
structure Shows (b : CircularBuffer T maxSize) (q : List T) : Prop where
  size : b.size = q.length
  empty : b.empty = q.isEmpty
  get : ∀ n, b.get n = (q[n]?).elim (.error "CircularBuffer") .ok
  popFront : b.popFront.1 = q.headD default

structure Refines [DecidableEq T] (b : CircularBuffer T maxSize) (q : List T) : Prop
    extends Shows b q where
  exist : ∀ v, b.exist v = true ↔ v ∈ q

theorem shows_contents (b : CircularBuffer T maxSize) : Shows b b.contents where
  size := CircularBuffer.contents_length.symm
  empty := by
    rw [Bool.eq_iff_iff, ← CircularBuffer.size_eq_zero_iff, List.isEmpty_iff,
      ← List.length_eq_zero_iff, CircularBuffer.contents_length]
  get := by
    intro n
    rw [CircularBuffer.get, CircularBuffer.contents, window_getElem?]
    by_cases h : n < b.size
    · rw [if_neg (by omega), if_pos h]
      rfl
    · rw [if_pos (by omega), if_neg h]
      rfl
  popFront := b.popFront_contents.1

theorem refines_contents_iff [DecidableEq T] {b : CircularBuffer T maxSize} :
    Refines b b.contents ↔ Faithful b := by
  constructor
  · rintro ⟨-, hexist⟩
    constructor
    · intro i hi _
      exact mem_contents_iff.mp ((hexist _).mp (exist_iff.mpr ⟨i, hi, rfl⟩))
    · intro i hi _
      exact exist_iff.mp ((hexist _).mpr (mem_contents_iff.mpr ⟨i, hi, rfl⟩))
  · rintro ⟨hleftover, hhidden⟩
    refine ⟨shows_contents b, fun v => ?_⟩
    rw [exist_iff, mem_contents_iff]
    constructor
    · rintro ⟨i, hi, rfl⟩
      by_cases hqueued : Queued b i
      · exact ⟨i, hqueued, rfl⟩
      · exact hleftover i hi hqueued
    · rintro ⟨i, hi, rfl⟩
      by_cases hsearched : i.val < b.size
      · exact ⟨i, hsearched, rfl⟩
      · exact hhidden i hi hsearched

/-- After any sequence of operations all but `exist` agrees with the queue, and `exist`
does exactly if the first slots hold what is queued. -/
theorem refines_iff_faithful [DecidableEq T] (buf : Vector T maxSize) (acts : List (Act T)) :
    Shows (acts.foldl step (.make buf)) (acts.foldl (queueStep maxSize) []) ∧
      (Refines (acts.foldl step (.make buf)) (acts.foldl (queueStep maxSize) []) ↔
        Faithful (acts.foldl step (.make buf))) := by
  rw [← run_contents buf acts]
  exact ⟨shows_contents _, refines_contents_iff⟩

end Refinement

theorem refines_iff_faithful_three :
    Shows ([Act.pushBack 1, .pushBack 2].foldl step (.make #v[0, 0, 0])) [1, 2] ∧
      Refines ([Act.pushBack 1, .pushBack 2].foldl step (.make #v[0, 0, 0])) [1, 2] := by
  have h := refines_iff_faithful #v[0, 0, 0] [Act.pushBack 1, .pushBack 2]
  refine ⟨h.1, h.2.mpr ⟨?_, ?_⟩⟩
  · decide
  · decide

/-- Of 1 and 2 the first is popped: it is still found, and the second is not. -/
theorem popped_found :
    (([Act.pushBack 1, .pushBack 2, .popFront].foldl step (.make #v[0, 0, 0])).exist 1 = true) ∧
      ([Act.pushBack 1, .pushBack 2, .popFront].foldl step (.make #v[0, 0, 0])).exist 2 = false ∧
      [Act.pushBack 1, .pushBack 2, .popFront].foldl (queueStep 3) [] = [2] := by
  decide

end CircularBuffers
