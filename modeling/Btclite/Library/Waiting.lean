import Mathlib.Data.Fintype.Card
import Mathlib.Order.WellFounded

/-!
# Waiting

A party waits for another when it wants a thing the other has. Where what a party wants
comes, in some relation, after all it has, a cycle of parties that wait is a cycle of that
relation. Among finitely many parties, of which none waits for itself along others, everyone
comes in the end to one that does not wait.
-/

namespace Waiting

open Relation

universe u v

variable {P : Type u} {R : Type v} {wants has : P → R → Prop} {before : R → R → Prop} {p q : P}

def Waits (wants has : P → R → Prop) (p q : P) : Prop := ∃ r, wants p r ∧ has q r

def Deadlocked (wants has : P → R → Prop) (p : P) : Prop := TransGen (Waits wants has) p p

theorem transGen_before (horder : ∀ p a b, has p a → wants p b → before a b)
    (h : TransGen (Waits wants has) p q) :
    ∃ a, wants p a ∧ ∀ b, wants q b → TransGen before a b := by
  induction h with
  | single hfirst =>
    obtain ⟨a, hwants, hhas⟩ := hfirst
    exact ⟨a, hwants, fun b hb => .single (horder _ a b hhas hb)⟩
  | tail _ hlast ih =>
    obtain ⟨a, hwants, hbefore⟩ := ih
    obtain ⟨c, hc, hhas⟩ := hlast
    exact ⟨a, hwants, fun b hb => (hbefore c hc).tail (horder _ c b hhas hb)⟩

theorem Deadlocked.cycle (h : Deadlocked wants has p)
    (horder : ∀ p a b, has p a → wants p b → before a b) : ∃ a, TransGen before a a := by
  obtain ⟨a, hwants, hbefore⟩ := transGen_before horder h
  exact ⟨a, hbefore a hwants⟩

theorem exists_last [Finite P] {waits : P → P → Prop} (hirrefl : ∀ p, ¬ TransGen waits p p)
    (p : P) : ∃ q, ReflTransGen waits p q ∧ ∀ r, ¬ waits q r := by
  have : Std.Irrefl (fun q p => TransGen waits p q) := ⟨hirrefl⟩
  have : IsTrans P (fun q p => TransGen waits p q) := ⟨fun _ _ _ h h' => h'.trans h⟩
  obtain ⟨q, hq, hmin⟩ := (Finite.wellFounded_of_trans_of_irrefl
    (fun q p => TransGen waits p q)).has_min {q | ReflTransGen waits p q} ⟨p, .refl⟩
  exact ⟨q, hq, fun r hr => hmin r (ReflTransGen.tail hq hr) (.single hr)⟩

end Waiting
