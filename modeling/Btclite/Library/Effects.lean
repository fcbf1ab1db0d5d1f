import Mathlib.Order.Defs.Unbundled

/-!
# What a state action does

A relation between the state before and the state after an action, for actions
put together with bind and branches. For a preorder it is enough to know it of
the parts. Two actions that are put together alike are also matched part by part.
-/

namespace Effects

universe u

variable {S A B : Type u} {R : S → S → Prop}

def Does (R : S → S → Prop) (m : StateM S A) : Prop := ∀ s, R s (m s).2

namespace Does

theorem pure [Std.Refl R] (a : A) : Does R (pure a : StateM S A) :=
  fun s => refl_of R s

theorem bind [IsTrans S R] {m : StateM S A} {k : A → StateM S B} (hm : Does R m)
    (hk : ∀ a, Does R (k a)) : Does R (m >>= k) :=
  fun s => trans_of R (hm s) (hk (m s).1 (m s).2)

theorem ite {c : Prop} [Decidable c] {m m' : StateM S A} (ht : c → Does R m)
    (hf : ¬ c → Does R m') : Does R (if c then m else m') := by
  by_cases h : c
  · simpa [h] using ht h
  · simpa [h] using hf h

end Does

section States

variable {E : Type u} {s s' : S}

theorem bind_of_ok {m : EStateM E S A} {k : A → EStateM E S B} {a : A} (h : m s = .ok a s') :
    (m >>= k) s = k a s' := by
  change EStateM.bind m k s = _
  simp only [EStateM.bind, h]

theorem bind_of_error {m : EStateM E S A} (k : A → EStateM E S B) {e : E}
    (h : m s = .error e s') : (m >>= k) s = .error e s' := by
  change EStateM.bind m k s = _
  simp only [EStateM.bind, h]

theorem get_bind (k : S → EStateM E S B) : ((get : EStateM E S S) >>= k) s = k s s := rfl

end States

section Raising

variable {E : Type u}

/-- The state an action ends in, also when it raises. -/
def endOf : EStateM.Result E S A → S
  | .ok _ s => s
  | .error _ s => s

theorem endOf_bind {m : EStateM E S A} {k : A → EStateM E S B} {s s' : S} {a : A}
    (h : m s = .ok a s') : endOf ((m >>= k) s) = endOf (k a s') := by
  rw [bind_of_ok h]

theorem endOf_map (f : A → B) (m : EStateM E S A) (s : S) :
    endOf ((f <$> m) s) = endOf (m s) := by
  change endOf (EStateM.map f m s) = _
  cases h : m s <;> simp only [EStateM.map, h] <;> rfl

def Leads (R : S → S → Prop) (m : EStateM E S A) : Prop := ∀ s, R s (endOf (m s))

namespace Leads

theorem mono {R' : S → S → Prop} {m : EStateM E S A} (hm : Leads R m)
    (h : ∀ s s', R s s' → R' s s') : Leads R' m :=
  fun s => h _ _ (hm s)

theorem pure [Std.Refl R] (a : A) : Leads R (pure a : EStateM E S A) :=
  fun s => refl_of R s

theorem throw [Std.Refl R] (e : E) : Leads R (throw e : EStateM E S A) :=
  fun s => refl_of R s

theorem bind [IsTrans S R] {m : EStateM E S A} {k : A → EStateM E S B} (hm : Leads R m)
    (hk : ∀ a, Leads R (k a)) : Leads R (m >>= k) := by
  intro s
  have hfirst := hm s
  change R s (endOf (EStateM.bind m k s))
  cases hrun : m s with
  | ok a s' =>
    rw [hrun] at hfirst
    simp only [EStateM.bind, hrun]
    exact trans_of R hfirst (hk a s')
  | error e s' =>
    rw [hrun] at hfirst
    simp only [EStateM.bind, hrun]
    exact hfirst

theorem ite {c : Prop} [Decidable c] {m m' : EStateM E S A} (ht : Leads R m)
    (hf : Leads R m') : Leads R (if c then m else m') := by
  by_cases h : c
  · simpa [h] using ht
  · simpa [h] using hf

theorem map [IsTrans S R] [Std.Refl R] {m : EStateM E S A} (f : A → B) (hm : Leads R m) :
    Leads R (f <$> m) := by
  rw [map_eq_pure_bind]
  exact bind hm fun a => pure (f a)

end Leads

end Raising

section Ending

variable {E : Type u} {Q : A → S → Prop} {X : E → S → Prop}

/-- An action returns with what is said of its result and the state, or raises with what is said
of that. -/
inductive Ends (Q : A → S → Prop) (X : E → S → Prop) : EStateM.Result E S A → Prop
  | returned {a s} (h : Q a s) : Ends Q X (.ok a s)
  | raised {e s} (h : X e s) : Ends Q X (.error e s)

namespace Ends

theorem bind {W : B → S → Prop} {Y : E → S → Prop} {m : EStateM E S A} {k : A → EStateM E S B}
    {s : S} (hm : Ends Q X (m s)) (hk : ∀ a s, Q a s → Ends W Y (k a s))
    (hraise : ∀ e s, X e s → Y e s) : Ends W Y ((m >>= k) s) := by
  change Ends W Y (EStateM.bind m k s)
  simp only [EStateM.bind]
  generalize m s = r at hm ⊢
  cases hm with
  | returned h => exact hk _ _ h
  | raised h => exact .raised (hraise _ _ h)

end Ends

end Ending

section Matching

variable {S' A' B' E : Type u} {R : S → S' → Prop} {Q : A → A' → S → S' → Prop}

/-- Two actions both return, with what is said of the results and the states, or both raise the
same and leave related states. -/
inductive Matched (R : S → S' → Prop) (Q : A → A' → S → S' → Prop) :
    EStateM.Result E S A → EStateM.Result E S' A' → Prop
  | returned {a a' s s'} (h : Q a a' s s') : Matched R Q (.ok a s) (.ok a' s')
  | raised (e) {s s'} (h : R s s') : Matched R Q (.error e s) (.error e s')

namespace Matched

theorem bind {W : B → B' → S → S' → Prop} {m : EStateM E S A} {m' : EStateM E S' A'}
    {k : A → EStateM E S B} {k' : A' → EStateM E S' B'} {s : S} {s' : S'}
    (hm : Matched R Q (m s) (m' s'))
    (hk : ∀ a a' s s', Q a a' s s' → Matched R W (k a s) (k' a' s')) :
    Matched R W ((m >>= k) s) ((m' >>= k') s') := by
  change Matched R W (EStateM.bind m k s) (EStateM.bind m' k' s')
  simp only [EStateM.bind]
  generalize m s = r at hm ⊢
  generalize m' s' = r' at hm ⊢
  cases hm with
  | returned h => exact hk _ _ _ _ h
  | raised e h => exact .raised e h

/-- One of them goes on to return something of its result. -/
theorem returning {W : B → A' → S → S' → Prop} {m : EStateM E S A} {m' : EStateM E S' A'} {s : S}
    {s' : S'} (f : A → B) (hm : Matched R Q (m s) (m' s'))
    (h : ∀ a a' s s', Q a a' s s' → W (f a) a' s s') :
    Matched R W ((m >>= fun a => Pure.pure (f a)) s) (m' s') := by
  rw [← bind_pure m']
  exact hm.bind fun a a' s s' hq => .returned (h a a' s s' hq)

theorem map {W : B → A' → S → S' → Prop} {m : EStateM E S A} {m' : EStateM E S' A'} {s : S}
    {s' : S'} (f : A → B) (hm : Matched R Q (m s) (m' s'))
    (h : ∀ a a' s s', Q a a' s s' → W (f a) a' s s') :
    Matched R W ((f <$> m) s) (m' s') := by
  rw [map_eq_pure_bind]
  exact hm.returning f h

end Matched

end Matching

end Effects
