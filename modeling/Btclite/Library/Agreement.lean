import Mathlib.Data.List.Basic

/-!
# Readers that agree with a strict parser

A reader runs over a state that holds its unread input, returns a value and may
raise. A strict parser looks at the same input through a cursor and answers
`none` whenever the input does not start with one written value. The reader
agrees with the parser when the parser accepts exactly the runs whose result
would be written back onto the input that was read.

`pre` is what has already been read of the value under construction, so that a
record is built field by field.
-/

namespace Agreement

universe u

abbrev Strict (C A : Type u) : Type u := StateT C Option A

/-- What a strict parser sees of a reader's state, and the input left in it. -/
structure View (S C B : Type u) where
  cursor : S → C
  unread : C → List B

variable {E S C B X Y : Type u}

structure Agrees (V : View S C B) (pre : List B) (r : EStateM E S X) (p : Strict C X)
    (w : X → List B) : Prop where
  begins : ∀ s v s', r s = .ok v s' → pre <+: w v
  sound : ∀ s v c, p (V.cursor s) = some (v, c) → ∃ s', r s = .ok v s' ∧
    V.cursor s' = c ∧ pre ++ V.unread (V.cursor s) = w v ++ V.unread c
  notices : ∀ s v s', r s = .ok v s' → w v <+: pre ++ V.unread (V.cursor s) →
    ∃ c, p (V.cursor s) = some (v, c)

/-- A step that returns normally and leaves the cursor where it was. -/
def Silent (V : View S C B) (r : EStateM E S X) : Prop :=
  ∀ s, ∃ v s', r s = .ok v s' ∧ V.cursor s' = V.cursor s

/-- The values a reader can return. -/
def Yields (r : EStateM E S X) (v : X) : Prop :=
  ∃ s s', r s = .ok v s'

theorem bind_ok_iff {r : EStateM E S X} {k : X → EStateM E S Y} {s s'' : S} {b : Y} :
    (r >>= k) s = .ok b s'' ↔ ∃ a s', r s = .ok a s' ∧ k a s' = .ok b s'' := by
  change EStateM.bind r k s = .ok b s'' ↔ _
  cases hr : r s with
  | ok a s' => simp [EStateM.bind, hr]
  | error e s' => simp [EStateM.bind, hr]

theorem pure_ok_iff {a b : X} {s s' : S} :
    (pure a : EStateM E S X) s = .ok b s' ↔ a = b ∧ s = s' := by
  change EStateM.Result.ok a s = .ok b s' ↔ _
  simp

theorem map_ok_iff {r : EStateM E S X} {f : X → Y} {s s' : S} {b : Y} :
    (f <$> r) s = .ok b s' ↔ ∃ a, r s = .ok a s' ∧ f a = b := by
  change EStateM.map f r s = .ok b s' ↔ _
  cases hr : r s with
  | ok a s' => simp [EStateM.map, hr, and_comm]
  | error e s' => simp [EStateM.map, hr]

/-- The reader does not return. -/
def Raises (r : EStateM E S X) (s : S) : Prop := ∃ e s', r s = .error e s'

def Total (r : EStateM E S X) : Prop := ∀ s, ∃ v s', r s = .ok v s'

theorem raises_bind_iff {r : EStateM E S X} {k : X → EStateM E S Y} {s : S} :
    Raises (r >>= k) s ↔ Raises r s ∨ ∃ a s', r s = .ok a s' ∧ Raises (k a) s' := by
  change (∃ e s', EStateM.bind r k s = .error e s') ↔ _
  cases hr : r s with
  | ok a s' => simp [EStateM.bind, Raises, hr]
  | error e s' => simp [EStateM.bind, Raises, hr]

theorem raises_map_iff {r : EStateM E S X} {f : X → Y} {s : S} :
    Raises (f <$> r) s ↔ Raises r s := by
  change (∃ e s', EStateM.map f r s = .error e s') ↔ _
  cases hr : r s with
  | ok a s' => simp [EStateM.map, Raises, hr]
  | error e s' => simp [EStateM.map, Raises, hr]

namespace Total

theorem not_raises {r : EStateM E S X} (h : Total r) (s : S) : ¬ Raises r s := by
  rintro ⟨e, s', he⟩
  obtain ⟨v, t, hv⟩ := h s
  rw [hv] at he
  cases he

theorem pure (a : X) : Total (pure a : EStateM E S X) := fun s => ⟨a, s, rfl⟩

theorem bind {r : EStateM E S X} {k : X → EStateM E S Y} (hr : Total r)
    (hk : ∀ a, Total (k a)) : Total (r >>= k) := by
  intro s
  obtain ⟨a, s₁, h1⟩ := hr s
  obtain ⟨b, s₂, h2⟩ := hk a s₁
  exact ⟨b, s₂, bind_ok_iff.mpr ⟨a, s₁, h1, h2⟩⟩

theorem map {r : EStateM E S X} (f : X → Y) (hr : Total r) : Total (f <$> r) := by
  intro s
  obtain ⟨a, s₁, h1⟩ := hr s
  exact ⟨f a, s₁, map_ok_iff.mpr ⟨a, h1, rfl⟩⟩

theorem ite {P : Prop} [Decidable P] {r r' : EStateM E S X} (ht : Total r) (hf : Total r') :
    Total (if P then r else r') := by
  by_cases h : P
  · simpa [h] using ht
  · simpa [h] using hf

theorem of_silent {V : View S C B} {r : EStateM E S X} (h : Silent V r) : Total r := by
  intro s
  obtain ⟨v, s', hr, -⟩ := h s
  exact ⟨v, s', hr⟩

end Total

theorem strict_bind_some_iff {p : Strict C X} {q : X → Strict C Y} {c c'' : C} {b : Y} :
    (p >>= q) c = some (b, c'') ↔ ∃ a c', p c = some (a, c') ∧ q a c' = some (b, c'') := by
  change (p c >>= fun x => q x.1 x.2) = some (b, c'') ↔ _
  simp [Option.bind_eq_some_iff]

theorem strict_pure_some_iff {a b : X} {c c' : C} :
    (pure a : Strict C X) c = some (b, c') ↔ a = b ∧ c = c' := by
  change some (a, c) = some (b, c') ↔ _
  simp

namespace Agrees

variable {V : View S C B} {pre : List B} {w : X → List B}

theorem pure {v : X} (h : w v = pre) :
    Agrees V pre (pure v : EStateM E S X) (pure v) w where
  begins := by
    intro s u s' hr
    obtain ⟨rfl, -⟩ := pure_ok_iff.mp hr
    simp [h]
  sound := by
    intro s u c hp
    obtain ⟨rfl, rfl⟩ := strict_pure_some_iff.mp hp
    exact ⟨s, rfl, rfl, by rw [h]⟩
  notices := by
    intro s u s' hr _
    obtain ⟨rfl, -⟩ := pure_ok_iff.mp hr
    exact ⟨V.cursor s, rfl⟩

/-- One field is read, then the rest of the record with that field in front of it.
The reader may return more about the field than its value. -/
theorem bind_map {Z : Type u} {r : EStateM E S Z} (f : Z → Y) {p : Strict C Y}
    {w₁ : Y → List B} {k : Z → EStateM E S X} {q : Y → Strict C X}
    (hr : Agrees V [] (f <$> r) p w₁)
    (hk : ∀ z, Yields r z → Agrees V (pre ++ w₁ (f z)) (k z) (q (f z)) w) :
    Agrees V pre (r >>= k) (p >>= q) w where
  begins := by
    intro s v s'' h
    obtain ⟨z, s', h1, h2⟩ := bind_ok_iff.mp h
    have := (hk z ⟨s, s', h1⟩).begins s' v s'' h2
    exact (List.prefix_append pre (w₁ (f z))).trans this
  sound := by
    intro s v c h
    obtain ⟨a, c', h1, h2⟩ := strict_bind_some_iff.mp h
    obtain ⟨s', hs, hc, hu⟩ := hr.sound s a c' h1
    obtain ⟨z, hz, rfl⟩ := map_ok_iff.mp hs
    subst hc
    obtain ⟨s'', hs', hc', hu'⟩ := (hk z ⟨s, s', hz⟩).sound s' v c h2
    refine ⟨s'', bind_ok_iff.mpr ⟨z, s', hz, hs'⟩, hc', ?_⟩
    have hfield : V.unread (V.cursor s) = w₁ (f z) ++ V.unread (V.cursor s') := by simpa using hu
    rw [hfield, ← List.append_assoc, hu']
  notices := by
    intro s v s'' h hpre
    obtain ⟨z, s', h1, h2⟩ := bind_ok_iff.mp h
    have hz : (f <$> r) s = .ok (f z) s' := map_ok_iff.mpr ⟨z, h1, rfl⟩
    have hbegin := (hk z ⟨s, s', h1⟩).begins s' v s'' h2
    have hfield : w₁ (f z) <+: V.unread (V.cursor s) :=
      (List.prefix_append_right_inj pre).mp (hbegin.trans hpre)
    obtain ⟨c', hc'⟩ := hr.notices s (f z) s' hz (by simpa using hfield)
    obtain ⟨t, ht, hcur, hu⟩ := hr.sound s (f z) c' hc'
    obtain ⟨-, rfl⟩ : f z = f z ∧ s' = t := by simpa [hz] using ht
    have hrest : V.unread (V.cursor s) = w₁ (f z) ++ V.unread (V.cursor s') := by
      simpa [← hcur] using hu
    rw [hrest, ← List.append_assoc] at hpre
    obtain ⟨c, hc⟩ := (hk z ⟨s, s', h1⟩).notices s' v s'' h2 hpre
    exact ⟨c, strict_bind_some_iff.mpr ⟨f z, V.cursor s', by rw [hc', hcur], hc⟩⟩

theorem bind {r : EStateM E S Y} {p : Strict C Y} {w₁ : Y → List B}
    {k : Y → EStateM E S X} {q : Y → Strict C X} (hr : Agrees V [] r p w₁)
    (hk : ∀ a, Yields r a → Agrees V (pre ++ w₁ a) (k a) (q a) w) :
    Agrees V pre (r >>= k) (p >>= q) w :=
  bind_map id (by simpa using hr) hk

theorem bind_silent {r : EStateM E S Y} {k : Y → EStateM E S X} {p : Strict C X}
    (hr : Silent V r) (hk : ∀ a, Agrees V pre (k a) p w) :
    Agrees V pre (r >>= k) p w where
  begins := by
    intro s v s'' h
    obtain ⟨a, s', -, h2⟩ := bind_ok_iff.mp h
    exact (hk a).begins s' v s'' h2
  sound := by
    intro s v c h
    obtain ⟨a, s', h1, hcur⟩ := hr s
    obtain ⟨s'', hs, hc, hu⟩ := (hk a).sound s' v c (by rw [hcur]; exact h)
    exact ⟨s'', bind_ok_iff.mpr ⟨a, s', h1, hs⟩, hc, by rw [← hcur]; exact hu⟩
  notices := by
    intro s v s'' h hpre
    obtain ⟨a, s', h1, h2⟩ := bind_ok_iff.mp h
    obtain ⟨b, t, ht, hcur⟩ := hr s
    obtain ⟨rfl, rfl⟩ : a = b ∧ s' = t := by simpa [h1] using ht
    rw [← hcur] at hpre ⊢
    exact (hk a).notices s' v s'' h2 hpre

theorem ite {P : Prop} [Decidable P] {r r' : EStateM E S X} {p p' : Strict C X}
    (ht : P → Agrees V pre r p w) (hf : ¬ P → Agrees V pre r' p' w) :
    Agrees V pre (if P then r else r') (if P then p else p') w := by
  by_cases h : P
  · simpa [h] using ht h
  · simpa [h] using hf h

/-- The writer only matters on the values the reader returns. -/
theorem congr {r : EStateM E S X} {p : Strict C X} {w' : X → List B}
    (h : Agrees V pre r p w) (hw : ∀ v, Yields r v → w' v = w v) :
    Agrees V pre r p w' where
  begins := by
    intro s v s' hr
    rw [hw v ⟨s, s', hr⟩]
    exact h.begins s v s' hr
  sound := by
    intro s v c hp
    obtain ⟨s', hr, hc, hu⟩ := h.sound s v c hp
    exact ⟨s', hr, hc, by rw [hw v ⟨s, s', hr⟩]; exact hu⟩
  notices := by
    intro s v s' hr hpre
    rw [hw v ⟨s, s', hr⟩] at hpre
    exact h.notices s v s' hr hpre

theorem map {r : EStateM E S Y} {p : Strict C Y} {w₁ : Y → List B} (f : Y → X)
    (h : Agrees V pre r p w₁) (hw : ∀ a, Yields r a → w (f a) = w₁ a) :
    Agrees V pre (f <$> r) (f <$> p) w where
  begins := by
    intro s v s' hr
    obtain ⟨a, ha, rfl⟩ := map_ok_iff.mp hr
    rw [hw a ⟨s, s', ha⟩]
    exact h.begins s a s' ha
  sound := by
    intro s v c hp
    rw [map_eq_pure_bind, strict_bind_some_iff] at hp
    obtain ⟨a, c', hp', hv⟩ := hp
    obtain ⟨rfl, rfl⟩ := strict_pure_some_iff.mp hv
    obtain ⟨s', hr, hc, hu⟩ := h.sound s a c' hp'
    exact ⟨s', map_ok_iff.mpr ⟨a, hr, rfl⟩, hc, by rw [hw a ⟨s, s', hr⟩]; exact hu⟩
  notices := by
    intro s v s' hr hpre
    obtain ⟨a, ha, rfl⟩ := map_ok_iff.mp hr
    rw [hw a ⟨s, s', ha⟩] at hpre
    obtain ⟨c, hc⟩ := h.notices s a s' ha hpre
    refine ⟨c, ?_⟩
    rw [map_eq_pure_bind]
    exact strict_bind_some_iff.mpr ⟨a, c, hc, rfl⟩

section Whole

variable {r : EStateM E S X} {p : Strict C X} (h : Agrees V [] r p w)
include h

theorem reads {s : S} {v : X} {c : C} (hp : p (V.cursor s) = some (v, c)) :
    ∃ s', r s = .ok v s' ∧ V.cursor s' = c ∧ V.unread (V.cursor s) = w v ++ V.unread c := by
  simpa using h.sound s v c hp

theorem accepts {s s' : S} {v : X} (hr : r s = .ok v s')
    (hpre : w v <+: V.unread (V.cursor s)) :
    p (V.cursor s) = some (v, V.cursor s') := by
  obtain ⟨c, hc⟩ := h.notices s v s' hr (by simpa using hpre)
  obtain ⟨t, ht, hcur, -⟩ := h.sound s v c hc
  obtain ⟨-, rfl⟩ : v = v ∧ s' = t := by simpa [hr] using ht
  rw [hc, hcur]

theorem prefix_iff {s s' : S} {v : X} (hr : r s = .ok v s') :
    w v <+: V.unread (V.cursor s) ↔ (p (V.cursor s)).isSome := by
  constructor
  · intro hpre
    simp [h.accepts hr hpre]
  · intro hsome
    obtain ⟨⟨u, c⟩, hp⟩ := Option.isSome_iff_exists.mp hsome
    obtain ⟨t, ht, -, hu⟩ := h.reads hp
    obtain ⟨rfl, -⟩ : v = u ∧ s' = t := by simpa [hr] using ht
    exact ⟨V.unread c, hu.symm⟩

theorem whole_iff {s s' : S} {v : X} (hr : r s = .ok v s') :
    w v = V.unread (V.cursor s) ↔ ∃ u c, p (V.cursor s) = some (u, c) ∧ V.unread c = [] := by
  constructor
  · intro hw
    have hp := h.accepts hr (by simp [hw])
    obtain ⟨t, ht, -, hu⟩ := h.reads hp
    refine ⟨v, V.cursor s', hp, ?_⟩
    simpa [hw] using hu.symm
  · rintro ⟨u, c, hp, hc⟩
    obtain ⟨t, ht, -, hu⟩ := h.reads hp
    obtain ⟨rfl, -⟩ : v = u ∧ s' = t := by simpa [hr] using ht
    simpa [hc] using hu.symm

end Whole

end Agrees

/-- From cursors with `I`, the parser accepts only values with `P`, and keeps `I`. -/
def Keeps (I : C → Prop) (p : Strict C X) (P : X → Prop) : Prop :=
  ∀ c v c', I c → p c = some (v, c') → P v ∧ I c'

namespace Keeps

variable {I : C → Prop} {P : X → Prop} {Q : Y → Prop}

theorem pure {v : X} (h : P v) : Keeps I (pure v) P := by
  intro c u c' hI hp
  obtain ⟨rfl, rfl⟩ := strict_pure_some_iff.mp hp
  exact ⟨h, hI⟩

theorem bind {p : Strict C X} {q : X → Strict C Y} (hp : Keeps I p P)
    (hq : ∀ a, P a → Keeps I (q a) Q) : Keeps I (p >>= q) Q := by
  intro c v c'' hI h
  obtain ⟨a, c', h1, h2⟩ := strict_bind_some_iff.mp h
  obtain ⟨ha, hI'⟩ := hp c a c' hI h1
  exact hq a ha c' v c'' hI' h2

theorem ite {c : Prop} [Decidable c] {p q : Strict C X} (ht : c → Keeps I p P)
    (hf : ¬ c → Keeps I q P) : Keeps I (if c then p else q) P := by
  by_cases h : c
  · simpa [h] using ht h
  · simpa [h] using hf h

end Keeps

/-- What is written of `v` is read back from any rest behind it, which is left. -/
def Recovers (start : List B → C) (p : Strict C X) (bytes : List B) (v : X) : Prop :=
  ∀ rest, p (start (bytes ++ rest)) = some (v, start rest)

namespace Recovers

variable {start : List B → C} {bytes bytes' : List B}

theorem pure {v : X} : Recovers start (pure v : Strict C X) [] v :=
  fun _ => rfl

theorem bind {p : Strict C X} {q : X → Strict C Y} {a : X} {v : Y}
    (hp : Recovers start p bytes a) (hq : Recovers start (q a) bytes' v) :
    Recovers start (p >>= q) (bytes ++ bytes') v := by
  intro rest
  rw [List.append_assoc]
  exact strict_bind_some_iff.mpr ⟨a, start (bytes' ++ rest), hp _, hq rest⟩

/-- The last field of a record. -/
theorem last {p : Strict C X} {a : X} (f : X → Y) (hp : Recovers start p bytes a) :
    Recovers start (p >>= fun x => Pure.pure (f x)) bytes (f a) := by
  have h := hp.bind (q := fun x => Pure.pure (f x)) pure
  rwa [List.append_nil] at h

/-- Bytes that stand for two values stand for one. -/
theorem unique {p : Strict C X} {u v : X} (hu : Recovers start p bytes u)
    (hv : Recovers start p bytes v) : u = v := by
  have h := (hu []).symm.trans (hv [])
  simp only [Option.some.injEq, Prod.mk.injEq, and_true] at h
  exact h

end Recovers

end Agreement
