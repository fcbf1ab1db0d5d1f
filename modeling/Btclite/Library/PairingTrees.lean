/-!
# Pairing trees

The nodes of a level are joined in pairs, the last of an odd number with itself, until
one is left: the root. From two leaves on, the root is a join.
-/

namespace PairingTrees

universe u

variable {A : Type u} (join : A → A → A)

/-- The pairs of a level. -/
def pairs : List A → List (A × A)
  | [] => []
  | [a] => [(a, a)]
  | a :: b :: rest => (a, b) :: pairs rest

/-- The level above. -/
def parents (level : List A) : List A := (pairs level).map fun p => join p.1 p.2

theorem length_pairs (level : List A) : (pairs level).length = (level.length + 1) / 2 := by
  induction level using pairs.induct with
  | case1 => simp only [pairs, List.length_nil, Nat.reduceAdd, Nat.reduceDiv]
  | case2 a => simp only [pairs, List.length_cons, List.length_nil, Nat.reduceAdd, Nat.reduceDiv]
  | case3 a b rest ih =>
    rw [pairs, List.length_cons, ih, List.length_cons, List.length_cons]
    omega

theorem length_parents (level : List A) : (parents join level).length = (level.length + 1) / 2 := by
  rw [parents, List.length_map, length_pairs]

/-- A property that goes down from a level to the one below it. -/
theorem level_induction {P : List A → Prop} (hshort : ∀ level, level.length ≤ 1 → P level)
    (hlevel : ∀ level, 1 < level.length → P (parents join level) → P level) (level : List A) :
    P level := by
  induction hn : level.length using Nat.strongRecOn generalizing level with
  | ind n ih =>
    by_cases h : 1 < level.length
    · refine hlevel level h (ih (parents join level).length ?_ _ rfl)
      rw [length_parents]
      omega
    · exact hshort level (Nat.le_of_not_lt h)

/-- The root of the tree on some leaves, where there is a leaf. -/
def root (level : List A) : Option A :=
  if 1 < level.length then root (parents join level) else level.head?
termination_by level.length
decreasing_by
  rw [length_parents]
  omega

/-- What is joined on the way to the root. -/
def joined (level : List A) : List (A × A) :=
  if 1 < level.length then pairs level ++ joined (parents join level) else []
termination_by level.length
decreasing_by
  rw [length_parents]
  omega

variable {join}

theorem root_of_le {level : List A} (h : level.length ≤ 1) : root join level = level.head? := by
  rw [root, if_neg (Nat.not_lt.mpr h)]

theorem root_of_lt {level : List A} (h : 1 < level.length) :
    root join level = root join (parents join level) := by
  rw [root, if_pos h]

theorem joined_of_lt {level : List A} (h : 1 < level.length) :
    joined join level = pairs level ++ joined join (parents join level) := by
  rw [joined, if_pos h]

theorem joined_pair (a b : A) : joined join [a, b] = [(a, b)] := by
  have htwo : 1 < [a, b].length := Nat.lt_succ_self 1
  have hone : ¬ 1 < (parents join [a, b]).length := Nat.lt_irrefl 1
  rw [joined_of_lt htwo, joined, if_neg hone]
  rfl

theorem root_some {level : List A} (h : level ≠ []) : ∃ a, root join level = some a := by
  induction level using level_induction join with
  | hshort level hle =>
    rw [root_of_le hle]
    obtain ⟨a, rest, rfl⟩ := List.exists_cons_of_ne_nil h
    exact ⟨a, rfl⟩
  | hlevel level hlt ih =>
    rw [root_of_lt hlt]
    refine ih fun hnil => ?_
    have hlength := length_parents join level
    rw [hnil, List.length_nil] at hlength
    omega

/-- The root of more than one leaf is a join. -/
theorem root_joined {level : List A} (h : 1 < level.length) :
    ∃ p ∈ joined join level, root join level = some (join p.1 p.2) := by
  induction level using level_induction join with
  | hshort level hle => exact absurd h (Nat.not_lt.mpr hle)
  | hlevel level hlt ih =>
    rw [root_of_lt hlt, joined_of_lt hlt]
    by_cases hmore : 1 < (parents join level).length
    · rcases ih hmore with ⟨p, hp, hroot⟩
      exact ⟨p, List.mem_append_right _ hp, hroot⟩
    · rw [root_of_le (Nat.le_of_not_lt hmore)]
      match level, h with
      | a :: b :: rest, _ =>
        exact ⟨(a, b), List.mem_append_left _ List.mem_cons_self, rfl⟩

end PairingTrees
