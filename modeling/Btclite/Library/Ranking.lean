import Mathlib.Data.List.Basic
import Mathlib.Data.List.Count

/-!
# Ranks

Runs written out with their labels. Where a number falls at every step of one kind and never
rises, a run has no more steps of that kind than the number it starts with, and some run
ends where none of them is possible.
-/

namespace Ranking

universe u v

variable {S : Type u} {A : Type v}

inductive Path (next : S → A → S → Prop) : S → List A → S → Prop where
  | nil (s : S) : Path next s [] s
  | cons {s s' s'' : S} {a : A} {as : List A} (first : next s a s') (rest : Path next s' as s'') :
      Path next s (a :: as) s''

variable {next : S → A → S → Prop} {s s' s'' : S} {as bs : List A}

namespace Path

theorem single {a : A} (h : next s a s') : Path next s [a] s' := .cons h (.nil s')

theorem append (h : Path next s as s') (h' : Path next s' bs s'') : Path next s (as ++ bs) s'' := by
  induction h with
  | nil => exact h'
  | cons first _ ih => exact .cons first (ih h')

theorem preserves {P : S → Prop} (hstep : ∀ s a s', P s → next s a s' → P s')
    (h : Path next s as s') (hs : P s) : P s' := by
  induction h with
  | nil => exact hs
  | cons first _ ih => exact ih (hstep _ _ _ hs first)

end Path

/-- An invariant under which a rank falls at every step that counts, and never rises. -/
structure Falls (next : S → A → S → Prop) (counts : A → Bool) (I : S → Prop) (rank : S → Nat) :
    Prop where
  keeps : ∀ s a s', I s → next s a s' → I s'
  falls : ∀ s a s', I s → next s a s' → rank s' + (counts a).toNat ≤ rank s

variable {counts : A → Bool} {I : S → Prop} {rank : S → Nat}

theorem Path.bounded (hfalls : Falls next counts I rank) (h : Path next s as s') (hs : I s) :
    as.countP counts + rank s' ≤ rank s := by
  induction h with
  | nil => simp
  | @cons s s' s'' a as first rest ih =>
    have hfirst := hfalls.falls s a s' hs first
    have hrest := ih (hfalls.keeps s a s' hs first)
    rw [List.countP_cons]
    cases hcount : counts a <;> simp [hcount] at hfirst ⊢ <;> omega

/-- No step that counts is possible. -/
def Stuck (next : S → A → S → Prop) (counts : A → Bool) (s : S) : Prop :=
  ∀ a s', counts a = true → ¬ next s a s'

theorem exists_path_stuck (hfalls : Falls next counts I rank) (hs : I s) :
    ∃ as s', Path next s as s' ∧ Stuck next counts s' := by
  induction hrank : rank s using Nat.strongRecOn generalizing s with
  | ind r ih =>
    by_cases hstuck : Stuck next counts s
    · exact ⟨[], s, .nil s, hstuck⟩
    · simp only [Stuck, not_forall, not_not] at hstuck
      obtain ⟨a, s', hcount, hnext⟩ := hstuck
      have hless : rank s' < r := by
        have hfall := hfalls.falls s a s' hs hnext
        rw [hcount, hrank] at hfall
        exact hfall
      obtain ⟨as, s'', hpath, hend⟩ := ih _ hless (hfalls.keeps s a s' hs hnext) rfl
      exact ⟨a :: as, s'', .cons hnext hpath, hend⟩

end Ranking
