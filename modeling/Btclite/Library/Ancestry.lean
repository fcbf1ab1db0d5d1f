import Mathlib.Logic.Relation

/-!
# Ancestry

A forest given by parent pointers, with the depth of every node. A node has
exactly one ancestor at each depth up to its own, itself included, and an
ancestor's ancestors are among the node's own.
-/

namespace Ancestry

open Relation

universe u

section Climbing

variable {V : Type u} {parent parent' : V → Option V}

/-- So many steps from a node to its parent. -/
def climb (parent : V → Option V) : Nat → V → Option V
  | 0, v => some v
  | n + 1, v => (parent v).bind (climb parent n)

theorem climb_add (m n : Nat) (v : V) :
    climb parent (m + n) v = (climb parent m v).bind (climb parent n) := by
  induction m generalizing v with
  | zero => rw [Nat.zero_add, climb, Option.bind_some]
  | succ m ih =>
    rw [Nat.succ_add, climb, climb]
    cases parent v with
    | none => rfl
    | some u => exact ih u

/-- Inside a part that no parent leads out of, only the parents there matter. -/
theorem climb_congr {I : V → Prop} (hclosed : ∀ v u, I v → parent v = some u → I u)
    (hsame : ∀ v, I v → parent' v = parent v) (n : Nat) {v : V} (hv : I v) :
    climb parent' n v = climb parent n v := by
  induction n generalizing v with
  | zero => rfl
  | succ n ih =>
    rw [climb, climb, hsame v hv]
    cases hparent : parent v with
    | none => rfl
    | some u => exact ih (hclosed v u hv hparent)

end Climbing

structure Forest (V : Type u) where
  parent : V → Option V
  depth : V → Nat
  depth_parent : ∀ v u, parent v = some u → depth v = depth u + 1
  depth_root : ∀ v, parent v = none → depth v = 0

namespace Forest

variable {V : Type u} (F : Forest V)

/-- The second node is an ancestor of the first, or the same. -/
abbrev Ancestor : V → V → Prop := ReflTransGen fun v u => F.parent v = some u

/-- So many parents up. -/
def up : Nat → V → Option V
  | 0, v => some v
  | n + 1, v => (F.parent v).bind (up n)

/-- The ancestor at a depth. -/
def ancestor (v : V) (d : Nat) : Option V :=
  if d ≤ F.depth v then F.up (F.depth v - d) v else none

variable {F} {u v w : V} {d e : Nat}

theorem up_eq_climb (n : Nat) (v : V) : F.up n v = climb F.parent n v := by
  induction n generalizing v with
  | zero => rfl
  | succ n ih =>
    rw [up, climb]
    exact congrArg _ (funext ih)

theorem depth_le (h : F.Ancestor v u) : F.depth u ≤ F.depth v := by
  induction h with
  | refl => exact Nat.le_refl _
  | tail _ hparent ih =>
    have := F.depth_parent _ _ hparent
    omega

theorem exists_parent (h : 0 < F.depth v) : ∃ u, F.parent v = some u := by
  cases hparent : F.parent v with
  | none =>
    have := F.depth_root v hparent
    omega
  | some u => exact ⟨u, rfl⟩

@[simp] theorem ancestor_self (v : V) : F.ancestor v (F.depth v) = some v := by
  simp [ancestor, up]

theorem ancestor_none (h : F.depth v < d) : F.ancestor v d = none :=
  if_neg (by omega)

theorem ancestor_parent (h : F.parent v = some u) (hd : d ≤ F.depth u) :
    F.ancestor v d = F.ancestor u d := by
  have hdepth := F.depth_parent v u h
  have hsub : F.depth v - d = (F.depth u - d) + 1 := by omega
  rw [ancestor, ancestor, if_pos hd, if_pos (by omega), hsub, up, h]
  rfl

theorem exists_ancestor (hd : d ≤ F.depth v) :
    ∃ u, F.ancestor v d = some u ∧ F.Ancestor v u ∧ F.depth u = d := by
  induction hn : F.depth v - d generalizing v with
  | zero =>
    obtain rfl : F.depth v = d := by omega
    exact ⟨v, ancestor_self v, .refl, rfl⟩
  | succ n ih =>
    obtain ⟨w, hparent⟩ := exists_parent (F := F) (v := v) (by omega)
    have hdepth := F.depth_parent v w hparent
    obtain ⟨u, hu, hanc, hdu⟩ := ih (v := w) (by omega) (by omega)
    exact ⟨u, (ancestor_parent hparent (by omega)).trans hu, .head hparent hanc, hdu⟩

theorem ancestor_of (h : F.Ancestor v u) : F.ancestor v (F.depth u) = some u := by
  induction h using ReflTransGen.head_induction_on with
  | refl => exact ancestor_self u
  | head hparent hanc ih => rw [ancestor_parent hparent (depth_le hanc), ih]

theorem ancestor_eq_some_iff : F.ancestor v d = some u ↔ F.Ancestor v u ∧ F.depth u = d := by
  constructor
  · intro h
    have hd : d ≤ F.depth v := by
      rcases Nat.lt_or_ge (F.depth v) d with hlt | hd
      · rw [ancestor_none hlt] at h
        cases h
      · exact hd
    obtain ⟨w, hw, hanc, hdw⟩ := exists_ancestor hd
    rw [h] at hw
    cases hw
    exact ⟨hanc, hdw⟩
  · rintro ⟨hanc, rfl⟩
    exact ancestor_of hanc

theorem ancestor_unique (h : F.Ancestor v u) (h' : F.Ancestor v w)
    (hd : F.depth u = F.depth w) : u = w := by
  have hu := ancestor_of h
  rw [hd, ancestor_of h'] at hu
  exact (Option.some.inj hu).symm

section Lines

variable (F) in
/-- A node and its ancestors, so many of them. -/
def lineFrom : Nat → V → List V
  | 0, v => [v]
  | n + 1, v => v :: (F.parent v).elim [] (lineFrom n)

variable (F) in
/-- A node and all its ancestors, up to the root. -/
def line (v : V) : List V := F.lineFrom (F.depth v) v

theorem line_root (h : F.parent v = none) : F.line v = [v] := by
  rw [line, F.depth_root v h, lineFrom]

theorem line_child (h : F.parent v = some u) : F.line v = v :: F.line u := by
  rw [line, F.depth_parent v u h, lineFrom, h]
  rfl

/-- What holds of a node once it holds of its parent holds of all. -/
theorem parent_induction {P : V → Prop} (h : ∀ v, (∀ u, F.parent v = some u → P u) → P v)
    (v : V) : P v := by
  induction hn : F.depth v generalizing v with
  | zero =>
    refine h v fun u hparent => ?_
    have := F.depth_parent v u hparent
    omega
  | succ n ih =>
    refine h v fun u hparent => ih u ?_
    have := F.depth_parent v u hparent
    omega

theorem self_mem_line (v : V) : v ∈ F.line v := by
  cases hparent : F.parent v with
  | none => rw [line_root hparent]; exact List.mem_singleton_self v
  | some u => rw [line_child hparent]; exact List.mem_cons_self

theorem mem_line_iff : u ∈ F.line v ↔ F.Ancestor v u := by
  induction v using parent_induction (F := F) with
  | h v ih =>
    cases hparent : F.parent v with
    | none =>
      rw [line_root hparent, List.mem_singleton]
      constructor
      · rintro rfl
        exact .refl
      · intro h
        rcases h.cases_head with rfl | ⟨w, hw, -⟩
        · rfl
        · rw [hparent] at hw
          cases hw
    | some w =>
      rw [line_child hparent, List.mem_cons, ih w hparent]
      constructor
      · rintro (rfl | h)
        · exact .refl
        · exact .head hparent h
      · intro h
        rcases h.cases_head with rfl | ⟨w', hw, h⟩
        · exact Or.inl rfl
        · rw [hparent] at hw
          cases hw
          exact Or.inr h

end Lines

end Forest

end Ancestry
