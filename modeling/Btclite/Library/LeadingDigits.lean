import Mathlib.Algebra.GroupWithZero.Nat
import Mathlib.Algebra.Order.Group.Nat

/-!
# Leading digits

A format keeps the leading digits of a number: digits are dropped from its low end
until what is left, the mantissa, is below a limit. Cutting a number down in this way
is monotone and changes nothing that is cut already.
-/

namespace LeadingDigits

structure Format where
  base : Nat
  limit : Nat
  two_le : 2 ≤ base
  pos : 0 < limit
  dvd : base ∣ limit

namespace Format

variable (F : Format)

/-- How many digits are dropped. -/
def dropped (n : Nat) : Nat :=
  if h : n < F.limit then 0 else dropped (n / F.base) + 1
termination_by n
decreasing_by exact Nat.div_lt_self (F.pos.trans_le (Nat.le_of_not_lt h)) F.two_le

def mantissa (n : Nat) : Nat := n / F.base ^ F.dropped n

/-- The number again, with nothing in the place of the digits that were dropped. -/
def truncate (n : Nat) : Nat := F.mantissa n * F.base ^ F.dropped n

variable {F} {m n d : Nat}

theorem base_pos : 0 < F.base := Nat.zero_lt_of_lt F.two_le

theorem dropped_of_lt (h : n < F.limit) : F.dropped n = 0 := by
  rw [dropped, dif_pos h]

theorem dropped_of_le (h : F.limit ≤ n) : F.dropped n = F.dropped (n / F.base) + 1 := by
  rw [dropped, dif_neg (Nat.not_lt.mpr h)]

theorem mantissa_of_lt (h : n < F.limit) : F.mantissa n = n := by
  rw [mantissa, dropped_of_lt h, Nat.pow_zero, Nat.div_one]

theorem mantissa_of_le (h : F.limit ≤ n) : F.mantissa n = F.mantissa (n / F.base) := by
  rw [mantissa, mantissa, dropped_of_le h, Nat.pow_succ', Nat.div_div_eq_div_mul]

theorem truncate_of_lt (h : n < F.limit) : F.truncate n = n := by
  rw [truncate, mantissa_of_lt h, dropped_of_lt h, Nat.pow_zero, Nat.mul_one]

theorem truncate_of_le (h : F.limit ≤ n) : F.truncate n = F.truncate (n / F.base) * F.base := by
  rw [truncate, truncate, mantissa_of_le h, dropped_of_le h, Nat.pow_succ, Nat.mul_assoc]

/-- A property that comes from the number with its last digit dropped, where one is. -/
theorem induction {P : Nat → Prop} (hlt : ∀ n < F.limit, P n)
    (hle : ∀ n, F.limit ≤ n → P (n / F.base) → P n) (n : Nat) : P n := by
  induction n using Nat.strongRecOn with
  | ind n ih =>
    by_cases h : n < F.limit
    · exact hlt n h
    · have hpos : 0 < n := F.pos.trans_le (Nat.le_of_not_lt h)
      exact hle n (Nat.le_of_not_lt h) (ih _ (Nat.div_lt_self hpos F.two_le))

theorem mantissa_lt (n : Nat) : F.mantissa n < F.limit := by
  induction n using F.induction with
  | hlt n h => rwa [mantissa_of_lt h]
  | hle n h ih => rwa [mantissa_of_le h]

theorem truncate_le (n : Nat) : F.truncate n ≤ n := Nat.div_mul_le_self _ _

theorem sub_truncate_lt (n : Nat) : n - F.truncate n < F.base ^ F.dropped n := by
  rw [truncate, mantissa, ← Nat.mod_eq_sub_div_mul]
  exact Nat.mod_lt _ (Nat.pow_pos base_pos)

/-- No more digits are dropped than have to be. -/
theorem dropped_le (h : n / F.base ^ d < F.limit) : F.dropped n ≤ d := by
  induction d generalizing n with
  | zero =>
    rw [Nat.pow_zero, Nat.div_one] at h
    rw [dropped_of_lt h]
  | succ d ih =>
    by_cases hlt : n < F.limit
    · rw [dropped_of_lt hlt]
      exact Nat.zero_le _
    · rw [dropped_of_le (Nat.le_of_not_lt hlt)]
      rw [Nat.pow_succ', ← Nat.div_div_eq_div_mul] at h
      exact Nat.succ_le_succ (ih h)

/-- Nor fewer. -/
theorem dropped_eq_succ (h : n / F.base ^ (d + 1) < F.limit) (hle : F.limit ≤ n / F.base ^ d) :
    F.dropped n = d + 1 := by
  induction d generalizing n with
  | zero =>
    rw [Nat.pow_zero, Nat.div_one] at hle
    rw [Nat.zero_add, Nat.pow_one] at h
    rw [dropped_of_le hle, dropped_of_lt h]
  | succ d ih =>
    have hn : F.limit ≤ n := hle.trans (Nat.div_le_self _ _)
    rw [Nat.pow_succ', ← Nat.div_div_eq_div_mul] at h hle
    rw [dropped_of_le hn, ih h hle]

/-- What a mantissa and some digits make loses nothing. -/
theorem truncate_mul_pow (h : m < F.limit) : F.truncate (m * F.base ^ d) = m * F.base ^ d := by
  induction d with
  | zero => rw [Nat.pow_zero, Nat.mul_one, truncate_of_lt h]
  | succ d ih =>
    by_cases hlt : m * F.base ^ (d + 1) < F.limit
    · exact truncate_of_lt hlt
    · rw [truncate_of_le (Nat.le_of_not_lt hlt), Nat.pow_succ, ← Nat.mul_assoc,
        Nat.mul_div_cancel _ base_pos, ih]

/-- The leading digits are kept. -/
theorem div_le_truncate (h : F.limit / F.base ≤ n) : F.limit / F.base ≤ F.truncate n := by
  induction n using F.induction with
  | hlt n hlt => rwa [truncate_of_lt hlt]
  | hle n hle ih =>
    rw [truncate_of_le hle]
    exact (ih (Nat.div_le_div_right hle)).trans (Nat.le_mul_of_pos_right _ base_pos)

theorem le_truncate (h : F.limit ≤ n) : F.limit ≤ F.truncate n := by
  rw [truncate_of_le h]
  calc F.limit = F.limit / F.base * F.base := (Nat.div_mul_cancel F.dvd).symm
    _ ≤ F.truncate (n / F.base) * F.base :=
      Nat.mul_le_mul_right _ (div_le_truncate (Nat.div_le_div_right h))

theorem dropped_truncate (n : Nat) : F.dropped (F.truncate n) = F.dropped n := by
  induction n using F.induction with
  | hlt n h => rw [truncate_of_lt h]
  | hle n h ih =>
    rw [dropped_of_le (le_truncate h), dropped_of_le h, truncate_of_le h,
      Nat.mul_div_cancel _ base_pos, ih]

theorem mantissa_truncate (n : Nat) : F.mantissa (F.truncate n) = F.mantissa n := by
  rw [mantissa, dropped_truncate, truncate, Nat.mul_div_cancel _ (Nat.pow_pos base_pos)]

theorem truncate_mono (h : m ≤ n) : F.truncate m ≤ F.truncate n := by
  induction n using F.induction generalizing m with
  | hlt n hlt => rwa [truncate_of_lt hlt, truncate_of_lt (h.trans_lt hlt)]
  | hle n hle ih =>
    by_cases hlt : m < F.limit
    · rw [truncate_of_lt hlt]
      exact hlt.le.trans (le_truncate hle)
    · rw [truncate_of_le hle, truncate_of_le (Nat.le_of_not_lt hlt)]
      exact Nat.mul_le_mul_right _ (ih (Nat.div_le_div_right h))

end Format

end LeadingDigits
