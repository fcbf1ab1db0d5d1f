import Mathlib.Data.Finset.Sort
import Mathlib.Data.List.AList

/-!
# Iterators

A map whose elements stand in an order, and iterators that stand at an element
or behind the last. An iterator is good for reading and for going on as long as
its element is there. Erasing an element moves no other iterator. Where the keys
are ordered themselves, an iterator is also found by a bound.
-/

namespace Iterators

universe u v

variable {K : Type u} {V : Type v} [DecidableEq K]

inductive Fault where
  | erased
  | pastEnd
  | spent
deriving DecidableEq

def first (m : AList fun _ : K => V) : Option K := m.keys.head?

def read (m : AList fun _ : K => V) : Option K → Except Fault V
  | none => .error .pastEnd
  | some k =>
    match m.lookup k with
    | some v => .ok v
    | none => .error .erased

def next (m : AList fun _ : K => V) : Option K → Except Fault (Option K)
  | none => .error .pastEnd
  | some k => if k ∈ m then .ok m.keys[m.keys.idxOf k + 1]? else .error .erased

variable {m : AList fun _ : K => V} {k : K} {done rest : List K}

theorem read_of_lookup {v : V} (h : m.lookup k = some v) : read m (some k) = .ok v := by
  simp only [read, h]

/-- Going on from an element leads to what stands behind it. -/
theorem next_of_keys (h : m.keys = done ++ k :: rest) : next m (some k) = .ok rest.head? := by
  have hmem : k ∈ m := by
    rw [AList.mem_keys, h]
    exact List.mem_append_right _ List.mem_cons_self
  have hnodup : (done ++ k :: rest).Nodup := h ▸ m.keys_nodup
  have hnot : k ∉ done := fun hk => (List.nodup_append.mp hnodup).2.2 k hk k List.mem_cons_self rfl
  have hidx : m.keys.idxOf k = done.length := by
    rw [h, List.idxOf_append_of_notMem hnot, List.idxOf_cons_self, Nat.add_zero]
  rw [next, if_pos hmem, hidx, h, List.getElem?_append_right (Nat.le_succ _),
    Nat.succ_eq_add_one, Nat.add_sub_cancel_left, List.getElem?_cons_succ, List.head?_eq_getElem?]

theorem read_erase (m : AList fun _ : K => V) (k : K) :
    read (m.erase k) (some k) = .error .erased := by
  simp only [read, AList.lookup_erase]

theorem next_erase (m : AList fun _ : K => V) (k : K) :
    next (m.erase k) (some k) = .error .erased :=
  if_neg fun h => (AList.mem_erase.mp h).1 rfl

section Sorted

variable {A : Type u} [LinearOrder A]

/-- The first element that is not below. -/
def lowerBound (s : Finset A) (a : A) : Option A := s.sort.find? fun b => a ≤ b

def upperBound (s : Finset A) (a : A) : Option A := s.sort.find? fun b => a < b

def deref (s : Finset A) : Option A → Except Fault A
  | none => .error .pastEnd
  | some a => if a ∈ s then .ok a else .error .erased

def advance (s : Finset A) : Option A → Except Fault (Option A)
  | none => .error .pastEnd
  | some a => if a ∈ s then .ok (upperBound s a) else .error .erased

variable {s : Finset A} {a b : A}

theorem mem_of_lowerBound (h : lowerBound s a = some b) : b ∈ s ∧ a ≤ b := by
  refine ⟨(Finset.mem_sort (· ≤ ·)).mp (List.mem_of_find?_eq_some h), ?_⟩
  simpa using List.find?_some h

/-- Nothing that is not below stands before the one that is found. -/
theorem exists_lowerBound (hb : b ∈ s) (hle : a ≤ b) : ∃ c, lowerBound s a = some c ∧ c ≤ b := by
  have hmem : b ∈ s.sort := (Finset.mem_sort (· ≤ ·)).mpr hb
  have hsome : (lowerBound s a).isSome = true :=
    List.find?_isSome.mpr ⟨b, hmem, decide_eq_true hle⟩
  obtain ⟨c, hc⟩ := Option.isSome_iff_exists.mp hsome
  obtain ⟨-, before, after, hsplit, hbefore⟩ := List.find?_eq_some_iff_append.mp hc
  have hsorted : s.sort.Pairwise (· ≤ ·) := Finset.pairwise_sort s _
  rw [hsplit] at hmem hsorted
  refine ⟨c, hc, ?_⟩
  rcases List.mem_append.mp hmem with h | h
  · have hnot := hbefore b h
    rw [decide_eq_true hle] at hnot
    cases hnot
  · rcases List.mem_cons.mp h with rfl | h
    · exact le_rfl
    · exact (List.pairwise_cons.mp (List.pairwise_append.mp hsorted).2.1).1 b h

theorem deref_of_mem (h : a ∈ s) : deref s (some a) = .ok a := if_pos h

theorem deref_erase (s : Finset A) (a : A) : deref (s.erase a) (some a) = .error .erased :=
  if_neg (Finset.notMem_erase a s)

end Sorted

end Iterators
