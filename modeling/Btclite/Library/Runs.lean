import Mathlib.Data.List.Basic
import Mathlib.Data.List.Induction
import Mathlib.Logic.Relation

/-!
# Runs of a labelled transition system

A step carries a label, and a discipline says which labels are allowed in which
state. What every allowed step preserves holds along runs, and a run of one
system is seen as a run of another when each of its steps is.
-/

namespace Runs

open Relation

universe u v

variable {S : Type u} {A : Type v} (next : S → A → S → Prop) (D : S → A → Prop)

def Step (s s' : S) : Prop := ∃ a, D s a ∧ next s a s'

abbrev Run : S → S → Prop := ReflTransGen (Step next D)

namespace Run

variable {next D} {s s' : S}

theorem single {a : A} (hd : D s a) (h : next s a s') : Run next D s s' :=
  ReflTransGen.single ⟨a, hd, h⟩

theorem preserves {P : S → Prop} (hstep : ∀ s a s', P s → D s a → next s a s' → P s')
    (h : Run next D s s') (hs : P s) : P s' := by
  induction h with
  | refl => exact hs
  | tail _ hlast ih =>
    rcases hlast with ⟨a, hd, h⟩
    exact hstep _ a _ ih hd h

theorem simulates {T : Type u} {B : Type v} {next' : T → B → T → Prop} {D' : T → B → Prop}
    {f : S → T} (hstep : ∀ s a s', D s a → next s a s' → Run next' D' (f s) (f s'))
    (h : Run next D s s') : Run next' D' (f s) (f s') := by
  induction h with
  | refl => exact ReflTransGen.refl
  | tail _ hlast ih =>
    rcases hlast with ⟨a, hd, h⟩
    exact ih.trans (hstep _ a _ hd h)

end Run

section Deterministic

variable (step : S → A → S)

/-- What holds of every act of a run when it comes. -/
def Throughout (C : S → A → Prop) (s : S) : List A → Prop
  | [] => True
  | a :: acts => C s a ∧ Throughout C (step s a) acts

variable {step} {C : S → A → Prop} {s : S} {acts : List A}

theorem throughout_iff_forall : Throughout step C s acts ↔
    ∀ done a, done ++ [a] <+: acts → C (done.foldl step s) a := by
  induction acts generalizing s with
  | nil =>
    refine iff_of_true trivial fun done a h => ?_
    exact absurd (List.prefix_nil.mp h) (by simp)
  | cons b acts ih =>
    rw [Throughout, ih]
    constructor
    · rintro ⟨hfirst, hrest⟩ (_ | ⟨c, done⟩) a h
      · obtain ⟨rfl, -⟩ := List.cons_prefix_cons.mp h
        exact hfirst
      · obtain ⟨rfl, hdone⟩ := List.cons_prefix_cons.mp h
        exact hrest done a hdone
    · intro h
      refine ⟨h [] b ?_, fun done a hdone => h (b :: done) a ?_⟩
      · exact List.cons_prefix_cons.mpr ⟨rfl, List.nil_prefix⟩
      · exact List.cons_prefix_cons.mpr ⟨rfl, hdone⟩

/-- What holds after every part of a run holds at the start and after every part of the rest. -/
theorem always_cons_iff {P : S → Prop} {a : A} :
    (∀ done, done <+: a :: acts → P (done.foldl step s)) ↔
      P s ∧ ∀ done, done <+: acts → P (done.foldl step (step s a)) := by
  constructor
  · intro h
    refine ⟨h [] List.nil_prefix, fun done hdone => ?_⟩
    exact h (a :: done) (List.cons_prefix_cons.mpr ⟨rfl, hdone⟩)
  · rintro ⟨hfirst, hrest⟩ (_ | ⟨b, done⟩) h
    · exact hfirst
    · obtain ⟨rfl, hdone⟩ := List.cons_prefix_cons.mp h
      exact hrest done hdone

/-- Two conditions that come to the same wherever an invariant holds that they keep. -/
theorem throughout_congr {C' : S → A → Prop} {P : S → Prop} (hs : P s)
    (hstep : ∀ s a, P s → C s a → P (step s a)) (h : ∀ s a, P s → (C s a ↔ C' s a)) :
    Throughout step C s acts ↔ Throughout step C' s acts := by
  induction acts generalizing s with
  | nil => exact Iff.rfl
  | cons a acts ih =>
    rw [Throughout, Throughout, ← h s a hs]
    exact and_congr_right fun hfirst => ih (hstep s a hs hfirst)

/-- What every step of a run keeps holds after every part of it. -/
theorem always_of_step {P : S → Prop} (hs : P s)
    (hstep : ∀ done a, done ++ [a] <+: acts → P (done.foldl step s) →
      P (step (done.foldl step s) a)) :
    ∀ done, done <+: acts → P (done.foldl step s) := by
  intro done
  induction done using List.reverseRecOn with
  | nil => exact fun _ => hs
  | append_singleton done a ih =>
    intro hdone
    have hbefore := ih ((List.prefix_append _ _).trans hdone)
    rw [List.foldl_concat]
    exact hstep done a hdone hbefore

/-- What a step keeps if a condition is met holds after every part of a run in which it is. -/
theorem always_of_throughout {P : S → Prop} (hs : P s)
    (hstep : ∀ s a, P s → C s a → P (step s a)) (h : Throughout step C s acts) :
    ∀ done, done <+: acts → P (done.foldl step s) := by
  rw [throughout_iff_forall] at h
  exact always_of_step hs fun done a hdone hbefore => hstep _ a hbefore (h done a hdone)

/-- What a step keeps exactly when a condition is met holds after every part of a run
exactly when the condition is met throughout. -/
theorem always_iff_throughout {P : S → Prop} (hs : P s)
    (hstep : ∀ done a, done ++ [a] <+: acts → P (done.foldl step s) →
      (P (step (done.foldl step s) a) ↔ C (done.foldl step s) a)) :
    (∀ done, done <+: acts → P (done.foldl step s)) ↔ Throughout step C s acts := by
  rw [throughout_iff_forall]
  constructor
  · intro h done a hdone
    have hbefore := h done ((List.prefix_append _ _).trans hdone)
    have hafter := h (done ++ [a]) hdone
    rw [List.foldl_concat] at hafter
    exact (hstep done a hdone hbefore).mp hafter
  · intro h
    exact always_of_step hs fun done a hdone hbefore =>
      (hstep done a hdone hbefore).mpr (h done a hdone)

/-- What an invariant implies, and what fails as soon as a condition does that keeps the
invariant, holds after every part of a run exactly when the condition is met throughout. -/
theorem always_iff_of_invariant {I P : S → Prop} (hs : I s) (hI : ∀ s, I s → P s)
    (hkeep : ∀ s a, I s → C s a → I (step s a)) (hfail : ∀ s a, I s → P (step s a) → C s a) :
    (∀ done, done <+: acts → P (done.foldl step s)) ↔ Throughout step C s acts := by
  constructor
  · intro h
    induction acts generalizing s with
    | nil => trivial
    | cons a acts ih =>
      obtain ⟨-, hrest⟩ := always_cons_iff.mp h
      have hfirst : C s a := hfail s a hs (hrest [] List.nil_prefix)
      exact ⟨hfirst, ih (hkeep s a hs hfirst) hrest⟩
  · exact fun h done hdone => hI _ (always_of_throughout hs hkeep h done hdone)

end Deterministic

end Runs
