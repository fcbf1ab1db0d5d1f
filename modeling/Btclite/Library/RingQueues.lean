import Mathlib.Algebra.Group.Fin.Basic
import Mathlib.Algebra.GroupWithZero.Nat
import Mathlib.Data.List.Basic

/-!
# Queues in a ring

A queue of bounded length drops its oldest element when a push would exceed the
bound. It is kept in the slots of a ring, from a first slot onwards, as a window
that a push extends at its end and a pop shortens at its front.
-/

namespace RingQueues

universe u

variable {A : Type u}

/-- A push onto a queue of at most `cap` elements. -/
def push (cap : Nat) (q : List A) (v : A) : List A :=
  if q.length < cap then q ++ [v] else (q ++ [v]).tail

section Positions

variable {n : Nat} [NeZero n]

theorem ofNat_succ (k : Nat) : Fin.ofNat n (k + 1) = Fin.ofNat n k + 1 := by
  apply Fin.ext
  simp [Fin.ofNat, Fin.val_add]

/-- Steps of less than a turn that end in one slot are as many. -/
theorem steps_unique {head : Fin n} {i j : Nat} (hi : i < n) (hj : j < n)
    (h : head + Fin.ofNat n i = head + Fin.ofNat n j) : i = j := by
  have hsame := congrArg Fin.val (add_left_cancel h)
  simpa [Fin.ofNat, Nat.mod_eq_of_lt hi, Nat.mod_eq_of_lt hj] using hsame

/-- A whole number of steps comes back to where it started after nothing or a full turn. -/
theorem steps_return_iff {head : Fin n} {k : Nat} (hpos : 0 < k) (hk : k ≤ n) :
    head + Fin.ofNat n k = head ↔ k = n := by
  constructor
  · intro h
    rcases Nat.lt_or_eq_of_le hk with hless | rfl
    · have hzero : head + Fin.ofNat n k = head + Fin.ofNat n 0 := by
        rw [h, Fin.ofNat_zero, add_zero]
      have := steps_unique hless (by omega) hzero
      omega
    · rfl
  · rintro rfl
    rw [Fin.ofNat_self, add_zero]

end Positions

section Windows

variable {n : Nat} [NeZero n]

/-- The `k` slots from `head` on, in order. -/
def window (read : Fin n → A) (head : Fin n) (k : Nat) : List A :=
  (List.range k).map fun i => read (head + Fin.ofNat n i)

variable {read read' : Fin n → A} {head : Fin n} {k : Nat}

@[simp] theorem window_length : (window read head k).length = k := by
  simp [window]

@[simp] theorem window_zero : window read head 0 = [] := rfl

theorem window_getElem? {i : Nat} : (window read head k)[i]? =
    if i < k then some (read (head + Fin.ofNat n i)) else none := by
  by_cases h : i < k
  · simp [window, h]
  · simp [window, h]

theorem window_cons :
    window read head (k + 1) = read head :: window read (head + 1) k := by
  rw [window, List.range_succ_eq_map, List.map_cons, List.map_map, Fin.ofNat_zero, add_zero]
  congr 1
  apply List.map_congr_left
  intro i _
  rw [Function.comp_apply, ofNat_succ, add_comm (Fin.ofNat n i), add_assoc]

/-- A write behind the window's end extends it by what is written. -/
theorem window_write (hk : k < n) (v : A)
    (hwritten : read' (head + Fin.ofNat n k) = v)
    (helse : ∀ i, i ≠ head + Fin.ofNat n k → read' i = read i) :
    window read' head (k + 1) = window read head k ++ [v] := by
  rw [window, List.range_succ, List.map_append, List.map_singleton, hwritten]
  congr 1
  apply List.map_congr_left
  intro i hi
  have hi : i < k := List.mem_range.mp hi
  apply helse
  intro hsame
  have := steps_unique (by omega) hk hsame
  omega

/-- In a ring that is full, the write overwrites the first slot, and the window moves on. -/
theorem window_overwrite (v : A) (hwritten : read' head = v)
    (helse : ∀ i, i ≠ head → read' i = read i) :
    window read' (head + 1) n = (window read head n ++ [v]).tail := by
  obtain ⟨m, hm⟩ : ∃ m, n = m + 1 := Nat.exists_eq_succ_of_ne_zero (NeZero.ne n)
  have hslot : head + 1 + Fin.ofNat n m = head := by
    rw [add_assoc, add_comm 1, ← ofNat_succ, ← hm, Fin.ofNat_self, add_zero]
  have hcount : window read head n = read head :: window read (head + 1) m :=
    (congrArg _ hm).trans window_cons
  have hcount' : window read' (head + 1) n = window read' (head + 1) (m + 1) := congrArg _ hm
  rw [hcount, List.cons_append, List.tail_cons, hcount']
  apply window_write (by omega)
  · rw [hslot, hwritten]
  · rw [hslot]
    exact helse

/-- A slot lies in the window when it is less than `k` steps from `head`. -/
theorem mem_window_iff (hk : k ≤ n) {v : A} :
    v ∈ window read head k ↔ ∃ i : Fin n, (i - head).val < k ∧ read i = v := by
  rw [window, List.mem_map]
  constructor
  · rintro ⟨i, hi, rfl⟩
    have hi : i < k := List.mem_range.mp hi
    refine ⟨head + Fin.ofNat n i, ?_, rfl⟩
    rw [add_sub_cancel_left]
    simpa [Fin.ofNat, Nat.mod_eq_of_lt (show i < n by omega)] using hi
  · rintro ⟨i, hi, rfl⟩
    refine ⟨(i - head).val, List.mem_range.mpr hi, ?_⟩
    rw [Fin.ofNat_val_eq_self, add_sub_cancel]

end Windows

end RingQueues
