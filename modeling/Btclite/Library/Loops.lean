/-!
# Loops

A `while` loop whose turns go on with a new state, leave with a result or raise,
run on fuel. An invariant that no turn breaks and a measure that every turn
lowers show that the loop leaves, and with what. A pass over a list keeps what is said
of the part that it has passed. What returns has returned at each of its steps.
-/

namespace Loops

universe u v w

inductive Turn (S : Type u) (R : Type v) where
  | again (s : S)
  | leave (r : R)

variable {S : Type u} {R : Type v} {E : Type w}

def loop (spent : E) (turn : S → Except E (Turn S R)) : Nat → S → Except E R
  | 0, _ => .error spent
  | fuel + 1, s =>
    match turn s with
    | .ok (.again s') => loop spent turn fuel s'
    | .ok (.leave r) => .ok r
    | .error e => .error e

theorem loop_total {spent : E} {turn : S → Except E (Turn S R)} {I : S → Prop}
    {m : S → Nat} {Q : R → Prop}
    (hturn : ∀ s, I s →
      (∃ s', turn s = .ok (.again s') ∧ I s' ∧ m s' < m s) ∨
        ∃ r, turn s = .ok (.leave r) ∧ Q r)
    {fuel : Nat} {s : S} (hs : I s) (hfuel : m s < fuel) :
    ∃ r, loop spent turn fuel s = .ok r ∧ Q r := by
  induction fuel generalizing s with
  | zero => omega
  | succ fuel ih =>
    rcases hturn s hs with ⟨s', hagain, hs', hless⟩ | ⟨r, hleave, hr⟩
    · rcases ih hs' (by omega) with ⟨r, hrun, hr⟩
      exact ⟨r, by simp only [loop, hagain, hrun], hr⟩
    · exact ⟨r, by simp only [loop, hleave], hr⟩

/-- A loop that has left does not run on with more fuel. -/
theorem loop_mono {spent : E} {turn : S → Except E (Turn S R)} {fuel fuel' : Nat}
    (hle : fuel ≤ fuel') {s : S} {r : R} (h : loop spent turn fuel s = .ok r) :
    loop spent turn fuel' s = .ok r := by
  induction fuel generalizing fuel' s with
  | zero =>
    rw [loop] at h
    cases h
  | succ fuel ih =>
    obtain ⟨more, rfl⟩ : ∃ n, fuel' = n + 1 := ⟨fuel' - 1, by omega⟩
    rw [loop] at h ⊢
    cases hturn : turn s with
    | error e =>
      rw [hturn] at h
      exact h
    | ok t =>
      rw [hturn] at h
      cases t with
      | again s' => exact ih (Nat.le_of_succ_le_succ hle) h
      | leave r' => exact h

theorem foldlM_total {A : Type u} {S : Type v} {E : Type w} {f : S → A → Except E S}
    {I : List A → S → Prop} {all : List A} {s : S}
    (hstep : ∀ done a rest s, all = done ++ a :: rest → I done s →
      ∃ s', f s a = .ok s' ∧ I (done ++ [a]) s')
    (hs : I [] s) : ∃ s', all.foldlM f s = .ok s' ∧ I all s' := by
  suffices h : ∀ rest done s, all = done ++ rest → I done s →
      ∃ s', rest.foldlM f s = .ok s' ∧ I all s' from h all [] s rfl hs
  intro rest
  induction rest with
  | nil =>
    rintro done s hall hs
    rw [List.append_nil] at hall
    exact ⟨s, rfl, hall ▸ hs⟩
  | cons a rest ih =>
    intro done s hall hs
    rcases hstep done a rest s hall hs with ⟨s', hrun, hs'⟩
    rcases ih (done ++ [a]) s' (by rw [hall, List.append_assoc]; rfl) hs' with ⟨s'', hrest, h⟩
    refine ⟨s'', ?_, h⟩
    rw [List.foldlM_cons, hrun]
    exact hrest

section Returns

variable {A B : Type u} {E : Type w} {x : Except E A} {b : B}

theorem map_eq_ok {f : A → B} : f <$> x = .ok b ↔ ∃ a, x = .ok a ∧ f a = b := by
  cases x with
  | ok a => simp [Functor.map, Except.map]
  | error e => simp [Functor.map, Except.map]

theorem bind_eq_ok {f : A → Except E B} : x >>= f = .ok b ↔ ∃ a, x = .ok a ∧ f a = .ok b := by
  cases x with
  | ok a => simp [bind, Except.bind]
  | error e => simp [bind, Except.bind]

end Returns

end Loops
