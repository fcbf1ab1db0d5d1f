import Btclite.Library.Iterators
import Btclite.Library.Loops
import Btclite.Utility.LockOrders
import Mathlib.Data.Prod.Lex

/-!
# Lock deletion

`DeleteLock` of `sync.cpp`, which is to forget every pair of a lock that goes away. Both
loops erase the element their iterator stands at, and only then read the other lock of
the pair from it and go on. An address is an element of a linear order whose least
element is the null pointer, and pairs of addresses are in lexicographic order.
-/

namespace LockDeletion

open LockOrders Iterators Loops

variable {L : Type} [LinearOrder L]

section Maps

/-- The keys of `lock_orders_` as they are sorted. -/
def orderKeys (data : LockData L) : Finset (L ×ₗ L) :=
  (data.lockOrders.keys.map toLex).toFinset

def invKeys (data : LockData L) : Finset (L ×ₗ L) := data.invlockOrders.image toLex

def eraseOrder (data : LockData L) (pair : L × L) : LockData L :=
  { data with lockOrders := data.lockOrders.erase pair }

def eraseInv (data : LockData L) (pair : L × L) : LockData L :=
  { data with invlockOrders := data.invlockOrders.erase pair }

end Maps

section Deletion

variable [OrderBot L]

/-- A turn of a loop of `DeleteLock` over one of the maps, the other being its mirror. -/
def eraseTurn (keys : LockData L → Finset (L ×ₗ L))
    (erase eraseMirror : LockData L → L × L → LockData L) (cs : L)
    (s : LockData L × Option (L ×ₗ L)) :
    Except Fault (Turn (LockData L × Option (L ×ₗ L)) (LockData L)) := do
  let (data, it) := s
  if it = none then return .leave data
  let pair := ofLex (← deref (keys data) it)
  if pair.1 ≠ cs then return .leave data
  let data := erase data pair
  let pair := ofLex (← deref (keys data) it)
  let data := eraseMirror data (pair.2, pair.1)
  return .again (data, ← advance (keys data) it)

/-- The loop from `lower_bound(make_pair(cs, 0))` on. -/
def eraseFrom (keys : LockData L → Finset (L ×ₗ L))
    (erase eraseMirror : LockData L → L × L → LockData L) (cs : L) (data : LockData L) :
    Except Fault (LockData L) :=
  loop .spent (eraseTurn keys erase eraseMirror cs) ((keys data).card + 1)
    (data, lowerBound (keys data) (toLex (cs, ⊥)))

/-- `DeleteLock`. The flag `available` is cleared when the maps are gone. -/
def deleteLock (available : Bool) (data : LockData L) (cs : L) : Except Fault (LockData L) := do
  if !available then return data
  let data ← eraseFrom orderKeys eraseOrder eraseInv cs data
  eraseFrom invKeys eraseInv eraseOrder cs data

end Deletion

section Property

variable [OrderBot L]

def Mirrored (data : LockData L) : Prop :=
  ∀ pair, pair.swap ∈ data.invlockOrders ↔ pair ∈ data.lockOrders

def Mentions (cs : L) (pair : L × L) : Prop := pair.1 = cs ∨ pair.2 = cs

/-- The maps without the pairs that mention the lock. -/
structure Forgets (cs : L) (data data' : LockData L) : Prop where
  forgotten : ∀ pair, Mentions cs pair → pair ∉ data'.lockOrders ∧ pair ∉ data'.invlockOrders
  orders_kept : ∀ pair, ¬ Mentions cs pair →
    data'.lockOrders.lookup pair = data.lockOrders.lookup pair
  inv_kept : ∀ pair, ¬ Mentions cs pair →
    (pair ∈ data'.invlockOrders ↔ pair ∈ data.invlockOrders)
  mirrored : Mirrored data'

/-- It returns, after no use of an iterator whose element is gone, and has removed what
mentions the lock and nothing else. -/
def Deletes (available : Bool) (data : LockData L) (cs : L) : Prop :=
  ∃ data', deleteLock available data cs = .ok data' ∧ Forgets cs data data'

end Property

section Keys

variable {data : LockData L} {k : L ×ₗ L}

theorem mem_orderKeys : k ∈ orderKeys data ↔ ofLex k ∈ data.lockOrders := by
  rw [orderKeys, List.mem_toFinset, AList.mem_keys]
  constructor
  · rintro h
    obtain ⟨pair, hpair, rfl⟩ := List.mem_map.mp h
    exact hpair
  · exact fun h => List.mem_map.mpr ⟨ofLex k, h, rfl⟩

theorem mem_invKeys : k ∈ invKeys data ↔ ofLex k ∈ data.invlockOrders := by
  rw [invKeys, Finset.mem_image]
  constructor
  · rintro ⟨pair, hpair, rfl⟩
    exact hpair
  · exact fun h => ⟨ofLex k, h, rfl⟩

theorem orderKeys_eraseOrder (data : LockData L) (pair : L × L) :
    orderKeys (eraseOrder data pair) = (orderKeys data).erase (toLex pair) := by
  ext k
  rw [mem_orderKeys, Finset.mem_erase, mem_orderKeys, eraseOrder, AList.mem_erase]
  rfl

theorem invKeys_eraseInv (data : LockData L) (pair : L × L) :
    invKeys (eraseInv data pair) = (invKeys data).erase (toLex pair) := by
  ext k
  rw [mem_invKeys, Finset.mem_erase, mem_invKeys, eraseInv, Finset.mem_erase]
  rfl

end Keys

section Loops

variable [OrderBot L] {keys : LockData L → Finset (L ×ₗ L)}
  {erase eraseMirror : LockData L → L × L → LockData L} {cs : L} {data : LockData L}

/-- The first pair from the bound on is one of the lock, if there is any. -/
theorem lowerBound_of_mem {s : Finset (L ×ₗ L)} {pair : L × L} (h : toLex pair ∈ s) :
    ∃ k, lowerBound s (toLex (pair.1, ⊥)) = some k ∧ k ∈ s ∧ (ofLex k).1 = pair.1 := by
  have hbound : toLex (pair.1, ⊥) ≤ toLex pair :=
    Prod.Lex.toLex_le_toLex.mpr (.inr ⟨rfl, bot_le⟩)
  obtain ⟨k, hk, hle⟩ := exists_lowerBound h hbound
  obtain ⟨hmem, hge⟩ := mem_of_lowerBound hk
  have hlow : pair.1 ≤ (ofLex k).1 := Prod.Lex.monotone_fst (toLex (pair.1, ⊥)) k hge
  have hhigh : (ofLex k).1 ≤ pair.1 := Prod.Lex.monotone_fst k (toLex pair) hle
  exact ⟨k, hk, hmem, le_antisymm hhigh hlow⟩

/-- The iterator is read where its element has just been erased. -/
theorem eraseFrom_fault
    (hkeys : ∀ pair, keys (erase data pair) = (keys data).erase (toLex pair))
    {pair : L × L} (hpair : toLex pair ∈ keys data) (hcs : pair.1 = cs) :
    eraseFrom keys erase eraseMirror cs data = .error .erased := by
  subst hcs
  obtain ⟨k, hk, hmem, hfirst⟩ := lowerBound_of_mem hpair
  have hread : deref (keys (erase data (ofLex k))) (some k) = .error .erased := by
    rw [hkeys]
    exact deref_erase (keys data) k
  have hturn : eraseTurn keys erase eraseMirror pair.1 (data, some k) = .error .erased := by
    simp [eraseTurn, deref_of_mem hmem, hfirst, hread, bind, Except.bind]
  rw [eraseFrom, hk, loop, hturn]

theorem eraseFrom_none (h : ∀ k ∈ keys data, (ofLex k).1 ≠ cs) :
    eraseFrom keys erase eraseMirror cs data = .ok data := by
  have hturn : eraseTurn keys erase eraseMirror cs
      (data, lowerBound (keys data) (toLex (cs, ⊥))) = .ok (.leave data) := by
    cases hk : lowerBound (keys data) (toLex (cs, ⊥)) with
    | none => simp [eraseTurn, pure, Except.pure]
    | some k =>
      have hmem := (mem_of_lowerBound hk).1
      simp [eraseTurn, deref_of_mem hmem, h k hmem, bind, Except.bind, pure, Except.pure]
  rw [eraseFrom, loop, hturn]

end Loops

section Unmentioned

variable {data : LockData L} {cs : L}

/-- Nothing is to be removed, and nothing is. -/
theorem Forgets.unmentioned (hmirror : Mirrored data)
    (h : ∀ pair ∈ data.lockOrders, ¬ Mentions cs pair) : Forgets cs data data where
  forgotten pair hcs := by
    refine ⟨fun hpair => h pair hpair hcs, fun hinv => ?_⟩
    have hpair : pair.swap ∈ data.lockOrders := by
      rw [← hmirror, Prod.swap_swap]
      exact hinv
    exact h _ hpair hcs.symm
  orders_kept _ _ := rfl
  inv_kept _ _ := Iff.rfl
  mirrored := hmirror

end Unmentioned

section Results

variable [OrderBot L] {data : LockData L} {cs : L}

/-- Any pair of the lock makes it fault, on the one side in the first loop and on the other
in the second. -/
theorem deleteLock_mentioned (hmirror : Mirrored data) {pair : L × L}
    (hpair : pair ∈ data.lockOrders) (hcs : Mentions cs pair) :
    deleteLock true data cs = .error .erased := by
  by_cases hfirst : ∃ pair ∈ data.lockOrders, pair.1 = cs
  · obtain ⟨pair, hpair, hcs⟩ := hfirst
    have hfault : eraseFrom orderKeys eraseOrder eraseInv cs data = .error .erased :=
      eraseFrom_fault (orderKeys_eraseOrder data) (mem_orderKeys.mpr hpair) hcs
    simp [deleteLock, hfault, bind, Except.bind]
  · have hnone : eraseFrom orderKeys eraseOrder eraseInv cs data = .ok data :=
      eraseFrom_none fun k hk hcs => hfirst ⟨ofLex k, mem_orderKeys.mp hk, hcs⟩
    have hsecond : pair.2 = cs := hcs.resolve_left fun h => hfirst ⟨pair, hpair, h⟩
    have hmem : toLex pair.swap ∈ invKeys data :=
      mem_invKeys.mpr ((hmirror pair).mpr hpair)
    have hfault : eraseFrom invKeys eraseInv eraseOrder cs data = .error .erased :=
      eraseFrom_fault (invKeys_eraseInv data) hmem hsecond
    simp [deleteLock, hnone, hfault, bind, Except.bind]

theorem deleteLock_unmentioned (available : Bool) (hmirror : Mirrored data)
    (h : ∀ pair ∈ data.lockOrders, ¬ Mentions cs pair) :
    deleteLock available data cs = .ok data := by
  have hfirst : eraseFrom orderKeys eraseOrder eraseInv cs data = .ok data :=
    eraseFrom_none fun k hk hcs => h (ofLex k) (mem_orderKeys.mp hk) (.inl hcs)
  have hsecond : eraseFrom invKeys eraseInv eraseOrder cs data = .ok data := by
    refine eraseFrom_none fun k hk hcs => ?_
    have hpair : (ofLex k).swap ∈ data.lockOrders := by
      rw [← hmirror, Prod.swap_swap]
      exact mem_invKeys.mp hk
    exact h _ hpair (.inr hcs)
  cases available with
  | false => rfl
  | true => simp [deleteLock, hfirst, hsecond, bind, Except.bind]

/-- A lock is deleted as it should be just when no pair mentions it. -/
theorem deletes_iff (available : Bool) (data : LockData L) (hmirror : Mirrored data) (cs : L) :
    Deletes available data cs ↔ ∀ pair ∈ data.lockOrders, ¬ Mentions cs pair := by
  refine ⟨fun ⟨data', hrun, hforgets⟩ pair hpair hcs => ?_, fun h => ?_⟩
  · cases available with
    | false =>
      cases hrun
      exact (hforgets.forgotten pair hcs).1 hpair
    | true =>
      rw [deleteLock_mentioned hmirror hpair hcs] at hrun
      cases hrun
  · exact ⟨data, deleteLock_unmentioned available hmirror h, Forgets.unmentioned hmirror h⟩

/-- Two locks of which one was held when the other was taken. -/
def crossed : LockData Nat where
  lockOrders := AList.singleton (1, 2) []
  invlockOrders := {(2, 1)}

theorem crossed_mem (pair : Nat × Nat) : pair ∈ crossed.lockOrders ↔ pair = (1, 2) := by
  rw [AList.mem_keys, crossed, AList.keys_singleton, List.mem_singleton]

theorem crossed_mirrored : Mirrored crossed := by
  intro pair
  rw [crossed_mem, crossed, Finset.mem_singleton, ← Prod.swap_inj, Prod.swap_swap]
  rfl

theorem deletes_iff_apart :
    Deletes true crossed 3 ↔ ∀ pair ∈ crossed.lockOrders, ¬ Mentions 3 pair :=
  deletes_iff true crossed crossed_mirrored 3

theorem not_deletes_crossed :
    ¬ ∀ (data : LockData Nat) (cs : Nat), Mirrored data → Deletes true data cs := by
  intro h
  obtain ⟨data', hrun, -⟩ := h crossed 1 crossed_mirrored
  have hpair : (1, 2) ∈ crossed.lockOrders := (crossed_mem (1, 2)).mpr rfl
  rw [deleteLock_mentioned crossed_mirrored hpair (.inl rfl)] at hrun
  cases hrun

end Results

end LockDeletion
