import Btclite.Chain.Locator
import Btclite.Network.Messages

/-!
# Locators in messages

The limit on the hashes of a `getblocks` message, which is meant to refuse more of them
than a locator has. `IsValid` asks for some hashes or for too many of them, and so it
refuses only messages without any.
-/

namespace LocatorLimits

open BlockIndex ActiveChain Locator Messages Serialize

section Limit

/-- What the limit is meant to let through. -/
def WithinLimit (m : GetBlocks) : Prop :=
  m.version ≠ kUnknownProtoVersion ∧ 1 ≤ m.hashes.length ∧ m.hashes.length ≤ kMaxBlockLoactorSize

/-- The limit is never reached, because too many hashes are some. -/
theorem isValid_iff (m : GetBlocks) :
    m.isValid = true ↔ m.version ≠ kUnknownProtoVersion ∧ 1 ≤ m.hashes.length := by
  have hsome : (!m.hashes.isEmpty || decide (kMaxBlockLoactorSize < m.hashes.length)) = true ↔
      1 ≤ m.hashes.length := by
    cases m.hashes with
    | nil => simp [kMaxBlockLoactorSize]
    | cons hash hashes => simp
  rw [GetBlocks.isValid, Bool.and_eq_true, bne_iff_ne, hsome]

theorem isValid_limits_iff (m : GetBlocks) :
    (m.isValid = true ↔ WithinLimit m) ↔
      m.version = kUnknownProtoVersion ∨ m.hashes.length ≤ kMaxBlockLoactorSize := by
  rw [isValid_iff, WithinLimit]
  constructor
  · intro h
    by_contra hover
    rw [not_or, Nat.not_le] at hover
    have hlimit := (h.mp ⟨hover.1, by omega⟩).2.2
    omega
  · rintro (hunknown | hlimit)
    · exact iff_of_false (fun h => h.1 hunknown) fun h => h.1 hunknown
    · exact ⟨fun h => ⟨h.1, h.2, hlimit⟩, fun h => ⟨h.1, h.2.1⟩⟩

end Limit

section Locators

variable {P : Type} [DecidableEq P] {t : BlockTree P} {c : Chain P}

/-- A locator from below `2 ^ 20` has some hashes and fewer than the limit. -/
theorem getLocator_withinLimit (hskips : t.Skips) (hreach : Reachable t c) {pindex : Option P}
    {p : P} (hp : pindex.or c.tip = some p) (hheight : t.height p < 2 ^ 20)
    (out : List Hash256) :
    ∃ hashes, getLocator c t.block (some out) pindex = .ok (true, some hashes) ∧
      1 ≤ hashes.length ∧ hashes.length ≤ kMaxBlockLoactorSize := by
  obtain ⟨hashes, hrun, hlocator⟩ :=
    getLocator_block hskips hreach (Nat.lt_of_lt_of_le hheight (by decide)) out
  have hsame : getLocator c t.block (some out) pindex =
      getLocator c t.block (some out) (some p) := by
    cases pindex with
    | some q =>
      cases hp
      rfl
    | none =>
      have htip : c.tip = some p := hp
      simp only [getLocator, htip]
  have hpos : 1 ≤ hashes.length := by
    obtain ⟨last, -, -, hlen, -⟩ := hlocator
    omega
  exact ⟨hashes, hsame.trans hrun, hpos, Nat.le_succ_of_le (hlocator.length_le hheight)⟩

end Locators

section Results

/-- A message is judged by the limit just when its version is unknown or its hashes are not
too many, and what `GetLocator` returns for a block that is not too high is valid. -/
theorem locator_limit {P : Type} [DecidableEq P] {t : BlockTree P} {c : Chain P}
    (hskips : t.Skips) (hreach : Reachable t c) (m : GetBlocks) :
    ((m.isValid = true ↔ WithinLimit m) ↔
      m.version = kUnknownProtoVersion ∨ m.hashes.length ≤ kMaxBlockLoactorSize) ∧
    ∀ (pindex : Option P) (p : P) (out : List Hash256), pindex.or c.tip = some p →
      t.height p < 2 ^ 20 → ∃ hashes,
        getLocator c t.block (some out) pindex = .ok (true, some hashes) ∧
        ∀ version hashStop, version ≠ kUnknownProtoVersion →
          WithinLimit { version, hashes, hashStop } ∧
          GetBlocks.isValid { version, hashes, hashStop } = true := by
  refine ⟨isValid_limits_iff m, fun pindex p out hp hheight => ?_⟩
  obtain ⟨hashes, hrun, hpos, hlimit⟩ := getLocator_withinLimit hskips hreach hp hheight out
  exact ⟨hashes, hrun, fun version hashStop hversion =>
    ⟨⟨hversion, hpos, hlimit⟩, (isValid_iff _).mpr ⟨hversion, hpos⟩⟩⟩

/-- The locator of the tip, beside a message without hashes. -/
theorem locator_limit_tip :
    ∃ hashes, getLocator ⟨[some 0, some 1, some 2]⟩ fork.block (some []) none =
      .ok (true, some hashes) := by
  obtain ⟨-, hlocator⟩ := locator_limit fork_skips longer_reachable {}
  obtain ⟨hashes, hrun, -⟩ := hlocator none 2 [] rfl (by decide)
  exact ⟨hashes, hrun⟩

/-- Thirty-three hashes. -/
theorem not_isValid_limits : ¬ ∀ m : GetBlocks, m.isValid = true ↔ WithinLimit m := by
  intro h
  have hm := (h { version := kProtocolVersion, hashes := List.replicate 33 (Bytes.zero 32) }).mp
    ((isValid_iff _).mpr ⟨by decide, by decide⟩)
  exact absurd hm.2.2 (by decide)

end Results

end LocatorLimits
