import Btclite.Library.Ancestry
import Mathlib.Data.List.Basic

/-!
# Arrivals

The nodes of a forest arrive one by one. A node is complete when it and all its
ancestors have arrived, and in turn when moreover each of them came after its
parent. The two are the same at every time iff no node that is complete in the
end came before its parent.
-/

namespace Arrivals

open Ancestry

universe u

section Completeness

variable {V : Type u} (F : Forest V)

def Complete (order : List V) (v : V) : Prop := ∀ u ∈ F.line v, u ∈ order

variable {F} {order : List V} {u v : V}

theorem Complete.of_ancestor (h : Complete F order v) (hanc : F.Ancestor v u) :
    Complete F order u := fun w hw =>
  h w (Forest.mem_line_iff.mpr (hanc.trans (Forest.mem_line_iff.mp hw)))

end Completeness

section Turns

variable {V : Type u} [DecidableEq V] (F : Forest V)

def InTurn (order : List V) (v : V) : Prop :=
  ∀ u ∈ F.line v, u ∈ order ∧ ∀ w, F.parent u = some w → order.idxOf w < order.idxOf u

/-- No node that is complete in the end came before its parent. -/
def Ordered (order : List V) : Prop :=
  ∀ v, Complete F order v → ∀ u, F.parent v = some u → order.idxOf u < order.idxOf v

instance (order : List V) (v : V) : Decidable (Complete F order v) :=
  inferInstanceAs (Decidable (∀ u ∈ F.line v, u ∈ order))

instance (order : List V) (v : V) : Decidable (InTurn F order v) :=
  decidable_of_iff (∀ u ∈ F.line v, u ∈ order ∧ ∀ w ∈ F.parent u, order.idxOf w < order.idxOf u)
    Iff.rfl

variable {F} {order rest : List V} {a u v : V}

theorem InTurn.complete (h : InTurn F order v) : Complete F order v := fun u hu => (h u hu).1

theorem inTurn_root (h : F.parent v = none) : InTurn F order v ↔ v ∈ order := by
  rw [InTurn, Forest.line_root h, List.forall_mem_singleton]
  simp [h]

theorem inTurn_child (h : F.parent v = some u) :
    InTurn F order v ↔ v ∈ order ∧ order.idxOf u < order.idxOf v ∧ InTurn F order u := by
  rw [InTurn, Forest.line_child h, List.forall_mem_cons, InTurn]
  simp [h, and_assoc]

theorem idxOf_append_self (ha : a ∉ order) : (order ++ [a]).idxOf a = order.length := by
  rw [List.idxOf_append_of_notMem ha, List.idxOf_cons_self, Nat.add_zero]

/-- An arrival changes nothing about the other nodes, which cannot be below it in turn. -/
theorem inTurn_append_of_ne (ha : a ∉ order) (hv : v ≠ a) :
    InTurn F (order ++ [a]) v ↔ InTurn F order v := by
  have hmem (w : V) (hw : w ≠ a) : w ∈ order ++ [a] ↔ w ∈ order := by
    rw [List.mem_append, List.mem_singleton, or_iff_left hw]
  induction v using Forest.parent_induction (F := F) with
  | h v ih =>
    cases hparent : F.parent v with
    | none => rw [inTurn_root hparent, inTurn_root hparent, hmem v hv]
    | some u =>
      rw [inTurn_child hparent, inTurn_child hparent, hmem v hv]
      refine and_congr_right fun hvo => ?_
      by_cases hu : u = a
      · rw [hu, idxOf_append_self ha, List.idxOf_append_of_mem hvo]
        constructor
        · rintro ⟨hlt, -⟩
          have := List.idxOf_lt_length_of_mem hvo
          omega
        · rintro ⟨-, hturn⟩
          exact absurd (hturn a (Forest.self_mem_line a)).1 ha
      · have hstep : InTurn F (order ++ [a]) u ↔ InTurn F order u := ih u hparent hu
        rw [hstep]
        refine and_congr_left fun hturn => ?_
        have huo := (hturn u (Forest.self_mem_line u)).1
        rw [List.idxOf_append_of_mem huo, List.idxOf_append_of_mem hvo]

/-- The node that arrives is in turn iff its parent was, if it has one. -/
theorem inTurn_append_self (ha : a ∉ order) :
    InTurn F (order ++ [a]) a ↔ ∀ u, F.parent a = some u → InTurn F order u := by
  have hmem : a ∈ order ++ [a] := List.mem_append_right _ (List.mem_singleton_self a)
  cases hparent : F.parent a with
  | none =>
    rw [inTurn_root hparent]
    simp [hmem]
  | some u =>
    have hu : u ≠ a := by
      rintro rfl
      have := F.depth_parent u u hparent
      omega
    rw [inTurn_child hparent, inTurn_append_of_ne ha hu]
    constructor
    · rintro ⟨-, -, hturn⟩ w hw
      obtain rfl : u = w := Option.some.inj hw
      exact hturn
    · intro h
      have hturn := h u rfl
      have huo := (hturn u (Forest.self_mem_line u)).1
      refine ⟨hmem, ?_, hturn⟩
      rw [idxOf_append_self ha, List.idxOf_append_of_mem huo]
      exact List.idxOf_lt_length_of_mem huo

/-- Who comes first among those that have arrived is settled. -/
theorem idxOf_lt_append_iff (rest : List V) (hu : u ∈ order) (hv : v ∈ order) :
    (order ++ rest).idxOf u < (order ++ rest).idxOf v ↔ order.idxOf u < order.idxOf v := by
  rw [List.idxOf_append_of_mem hu, List.idxOf_append_of_mem hv]

/-- To be complete is to be in turn, all the time, iff nothing complete comes early. -/
theorem complete_inTurn_iff {all : List V} :
    (∀ order rest, all = order ++ rest → ∀ v, Complete F order v → InTurn F order v) ↔
      Ordered F all := by
  constructor
  · intro h v hv u hparent
    have hturn := h all [] (List.append_nil all).symm v hv
    exact ((inTurn_child hparent).mp hturn).2.1
  · rintro h order rest rfl v hv u hu
    have hanc := Forest.mem_line_iff.mp hu
    have huc := hv.of_ancestor hanc
    refine ⟨hv u hu, fun w hparent => ?_⟩
    have hwo : w ∈ order := huc w (by
      rw [Forest.line_child hparent]
      exact List.mem_cons_of_mem _ (Forest.self_mem_line w))
    refine (idxOf_lt_append_iff rest hwo (hv u hu)).mp (h u ?_ w hparent)
    exact fun x hx => List.mem_append_left _ (huc x hx)

end Turns

end Arrivals
