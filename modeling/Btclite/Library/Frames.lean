import Mathlib.Algebra.GroupWithZero.Nat
import Mathlib.Data.List.Infix

/-!
# Frames in a byte stream

A stream made of frames whose sizes are known. However much of it has arrived,
it falls into the frames that are complete, the frames that are not, and the
part of the first of these that is there. More bytes only continue from the
part: where the stream was cut does not matter.
-/

namespace Frames

universe u v

variable {M : Type u} {B : Type v} (size : M → Nat)

structure Progress (M : Type u) (B : Type v) where
  done : List M
  rest : List M
  part : List B

def progress : List M → List B → Progress M B
  | [], b => ⟨[], [], b⟩
  | m :: ms, b =>
    if size m ≤ b.length then
      let p := progress ms (b.drop (size m))
      { p with done := m :: p.done }
    else ⟨[], m :: ms, b⟩

variable {size} {m : M} {ms : List M} {a b : List B}

theorem progress_cons (h : size m = a.length) :
    progress size (m :: ms) (a ++ b) =
      { progress size ms b with done := m :: (progress size ms b).done } := by
  simp [progress, h]

theorem progress_of_lt (h : ∀ m rest, ms = m :: rest → b.length < size m) :
    progress size ms b = ⟨[], ms, b⟩ := by
  cases ms with
  | nil => rfl
  | cons m ms =>
    rw [progress, if_neg]
    have := h m ms rfl
    omega

/-- Where the stream is cut does not matter. -/
theorem progress_append (ms : List M) (a b : List B) :
    progress size ms (a ++ b) =
      { progress size (progress size ms a).rest ((progress size ms a).part ++ b) with
        done := (progress size ms a).done ++
          (progress size (progress size ms a).rest ((progress size ms a).part ++ b)).done } := by
  induction ms generalizing a with
  | nil => rfl
  | cons m ms ih =>
    by_cases h : size m ≤ a.length
    · have hab : size m ≤ (a ++ b).length := by
        rw [List.length_append]
        omega
      simp only [progress, if_pos h, if_pos hab, List.drop_append_of_le_length h, ih (a.drop _),
        List.cons_append]
    · simp only [progress, if_neg h, List.nil_append]

theorem done_append_rest (ms : List M) (b : List B) :
    (progress size ms b).done ++ (progress size ms b).rest = ms := by
  induction ms generalizing b with
  | nil => rfl
  | cons m ms ih =>
    by_cases h : size m ≤ b.length
    · simp only [progress, if_pos h, List.cons_append, ih]
    · simp only [progress, if_neg h, List.nil_append]

/-- Every byte that has arrived is in a complete frame or in the part of the next. -/
theorem size_done_add_part (ms : List M) (b : List B) :
    ((progress size ms b).done.map size).sum + (progress size ms b).part.length = b.length := by
  induction ms generalizing b with
  | nil => simp [progress]
  | cons m ms ih =>
    by_cases h : size m ≤ b.length
    · have hrec := ih (b.drop (size m))
      rw [List.length_drop] at hrec
      simp only [progress, if_pos h, List.map_cons, List.sum_cons]
      omega
    · simp [progress, if_neg h]

/-- The part and all that comes after it lie in the frames that are not complete. -/
theorem part_append_prefix {wire : M → List B} (hwire : ∀ m, (wire m).length = size m)
    (h : a ++ b <+: ms.flatMap wire) :
    (progress size ms a).part ++ b <+: (progress size ms a).rest.flatMap wire := by
  induction ms generalizing a with
  | nil => exact h
  | cons m ms ih =>
    by_cases hm : size m ≤ a.length
    · simp only [progress, if_pos hm]
      apply ih
      rw [List.flatMap_cons] at h
      have hdrop := h.drop (size m)
      rwa [List.drop_append_of_le_length hm, ← hwire m, List.drop_left, hwire m] at hdrop
    · simpa only [progress, if_neg hm] using h

end Frames
