import Btclite.Network.BanLists

/-!
# Sweeping the ban list

`SweepBanned` goes through the map by an iterator. An entry that has run out is
erased while the iterator stands at it, and the loop then goes on from there.
-/

namespace Sweeping

open Serialize Address SubNets Iterators BanLists

section Turns

variable {verbose : Bool} {now : Int} {m : BanMap} {key : List Char} {e : BanEntry}
  {done rest : List (List Char)}

theorem sweepTurn_end : sweepTurn verbose now (m, none) = .ok (.leave m) := rfl

theorem sweepTurn_kept (hkeys : m.keys = done ++ key :: rest) (he : m.lookup key = some e)
    (hold : ¬ e.banUntil < now) :
    sweepTurn verbose now (m, some key) = .ok (.again (m, rest.head?)) := by
  simp only [sweepTurn, read_of_lookup he, next_of_keys hkeys]
  exact if_neg hold

theorem sweepTurn_expired (he : m.lookup key = some e) (hold : e.banUntil < now) :
    sweepTurn verbose now (m, some key) = .error .erased := by
  simp only [sweepTurn, read_of_lookup he]
  refine (if_pos hold).trans ?_
  cases verbose
  · simp only [next_erase]
    rfl
  · simp only [read_erase]
    rfl

/-- An entry with one of these keys has run out. -/
def Expires (now : Int) (m : BanMap) (keys : List (List Char)) : Prop :=
  ∃ key ∈ keys, ∃ e, m.lookup key = some e ∧ e.banUntil < now

/-- From where the iterator stands the loop runs to the end, or to the first entry that
has run out. -/
theorem loop_sweepTurn (hkeys : m.keys = done ++ rest) {fuel : Nat} (hfuel : rest.length < fuel) :
    (Expires now m rest ∧
      Loops.loop .spent (sweepTurn verbose now) fuel (m, rest.head?) = .error .erased) ∨
    (¬ Expires now m rest ∧
      Loops.loop .spent (sweepTurn verbose now) fuel (m, rest.head?) = .ok m) := by
  induction rest generalizing done fuel with
  | nil =>
    obtain ⟨fuel, rfl⟩ : ∃ n, fuel = n + 1 := ⟨fuel - 1, by omega⟩
    refine Or.inr ⟨by simp [Expires], ?_⟩
    simp only [List.head?_nil, Loops.loop, sweepTurn_end]
  | cons key rest ih =>
    obtain ⟨fuel, rfl⟩ : ∃ n, fuel = n + 1 := ⟨fuel - 1, by omega⟩
    have hmem : key ∈ m := by
      rw [AList.mem_keys, hkeys]
      exact List.mem_append_right _ List.mem_cons_self
    obtain ⟨e, he⟩ := Tables.exists_lookup hmem
    rw [List.head?_cons, Loops.loop]
    by_cases hold : e.banUntil < now
    · refine Or.inl ⟨⟨key, List.mem_cons_self, e, he, hold⟩, ?_⟩
      rw [sweepTurn_expired he hold]
    · rw [sweepTurn_kept hkeys he hold]
      have hkeys' : m.keys = (done ++ [key]) ++ rest := by
        rw [hkeys, List.append_assoc, List.singleton_append]
      have hfuel' : rest.length < fuel := Nat.lt_of_succ_lt_succ hfuel
      have hskip : Expires now m (key :: rest) ↔ Expires now m rest := by
        rw [Expires, Expires, List.exists_mem_cons_iff]
        refine or_iff_right ?_
        rintro ⟨e', he', hlt⟩
        rw [he] at he'
        cases he'
        exact hold hlt
      rw [hskip]
      exact ih hkeys' hfuel'

theorem expires_keys :
    Expires now m m.keys ↔ ∃ key e, m.lookup key = some e ∧ e.banUntil < now := by
  constructor
  · rintro ⟨key, -, e, he, hold⟩
    exact ⟨key, e, he, hold⟩
  · rintro ⟨key, e, he, hold⟩
    exact ⟨key, AList.mem_keys.mp (Tables.lookup_eq_some_mem he), e, he, hold⟩

/-- So much fuel as there are entries is enough to leave the loop one way or the other. -/
theorem sweepBanned_cases (verbose : Bool) (now : Int) {fuel : Nat} (hfuel : m.keys.length < fuel) :
    ((∃ key e, m.lookup key = some e ∧ e.banUntil < now) ∧
      sweepBanned verbose now fuel m = .error .erased) ∨
    ((∀ key e, m.lookup key = some e → ¬ e.banUntil < now) ∧
      sweepBanned verbose now fuel m = .ok m) := by
  rcases loop_sweepTurn (List.nil_append _).symm hfuel with ⟨hexp, hrun⟩ | ⟨hnone, hrun⟩
  · exact Or.inl ⟨expires_keys.mp hexp, hrun⟩
  · refine Or.inr ⟨fun key e he hold => ?_, hrun⟩
    exact hnone (expires_keys.mpr ⟨key, e, he, hold⟩)

/-- A sweep that returns, with whatever fuel, has found nothing to take away. -/
theorem sweepBanned_eq_ok {fuel : Nat} {m' : BanMap} (h : sweepBanned verbose now fuel m = .ok m') :
    (∀ key e, m.lookup key = some e → ¬ e.banUntil < now) ∧ m' = m := by
  have hmore := Loops.loop_mono (Nat.le_max_left fuel (m.keys.length + 1)) h
  have hfuel : m.keys.length < max fuel (m.keys.length + 1) :=
    Nat.lt_of_succ_le (Nat.le_max_right _ _)
  rcases sweepBanned_cases verbose now hfuel with ⟨-, hfault⟩ | ⟨hnone, hrun⟩
  · cases hmore.symm.trans hfault
  · cases hmore.symm.trans hrun
    exact ⟨hnone, rfl⟩

end Turns

section Exactness

variable {base32Encode : List Endian.Byte → List Char} {verbose : Bool} {now : Int} {m : BanMap}

/-- The sweep returns, reads and advances no iterator whose entry is erased, takes away what
has run out and nothing else, and bans whom it banned before. -/
def Sweeps (base32Encode : List Endian.Byte → List Char) (verbose : Bool) (now : Int)
    (m : BanMap) : Prop :=
  ∃ fuel m', sweepBanned verbose now fuel m = .ok m' ∧
    (∀ key e, m'.lookup key = some e ↔ m.lookup key = some e ∧ ¬ e.banUntil < now) ∧
    ∀ addr, isBanned base32Encode now addr m' = isBanned base32Encode now addr m

/-- A sweep is what it should be exactly if there is nothing to take away. -/
theorem sweeps_iff_none_expired (base32Encode : List Endian.Byte → List Char) (verbose : Bool)
    (now : Int) (m : BanMap) :
    Sweeps base32Encode verbose now m ↔
      ∀ key e, m.lookup key = some e → ¬ e.banUntil < now := by
  constructor
  · rintro ⟨fuel, m', hrun, -⟩
    exact (sweepBanned_eq_ok hrun).1
  · intro hgood
    rcases sweepBanned_cases verbose now (Nat.lt_succ_self m.keys.length) with
      ⟨⟨key, e, he, hold⟩, -⟩ | ⟨-, hrun⟩
    · exact absurd hold (hgood key e he)
    · refine ⟨_, m, hrun, fun key e => ?_, fun addr => rfl⟩
      exact ⟨fun he => ⟨he, hgood key e he⟩, And.left⟩

end Exactness

/-- The ban of 1.2.3.4 for a day. -/
def dayBan : BanEntry := { createTime := 1700000000, banUntil := 1700086400, banReason := 1 }

/-- A ban that ran out a second ago. -/
theorem expired_not_swept : ¬ Sweeps spell false 1700086401
    (AList.singleton ['1', '.', '2', '.', '3', '.', '4', '/', '3', '2'] dayBan) := by
  rintro ⟨fuel, m', hrun, -⟩
  have hnone := (sweepBanned_eq_ok hrun).1 ['1', '.', '2', '.', '3', '.', '4', '/', '3', '2'] dayBan
  exact hnone rfl (by decide)

end Sweeping
