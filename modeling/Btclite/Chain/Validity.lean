import Btclite.Chain.ChainState

/-!
# Levels of validity

The status of an entry is a level in its lowest three bits and flags above them.
`RaiseValidity` rewrites the level and is stopped by a failure, and `IsValid` compares
with it. What raises and marks leave behind is the highest level raised before the
first failure, but the assertion of `IsValid` asks for no bit of a level where that of
`RaiseValidity` asks for no other bit, so that no question about a level is answered.
-/

namespace Validity

open Serialize BlockIndex ChainState

def kBlockHaveUndo : U32 := 16

def kBlockFailedValid : U32 := 32

def kBlockFailedChild : U32 := 64

/-- The levels of `BlockStatus`. -/
inductive Level where
  | unknown
  | header
  | tree
  | transactions
  | chain
  | scripts
deriving DecidableEq

def Level.status : Level → U32
  | unknown => 0
  | header => 1
  | tree => kBlockValidTree
  | transactions => kBlockValidTransactions
  | chain => 4
  | scripts => 5

/-- The flags of `BlockStatus` that go with a level. -/
inductive Mark where
  | haveData
  | haveUndo
  | failedValid
  | failedChild
deriving DecidableEq

def Mark.status : Mark → U32
  | haveData => kBlockHaveData
  | haveUndo => kBlockHaveUndo
  | failedValid => kBlockFailedValid
  | failedChild => kBlockFailedChild

def Mark.isFailure : Mark → Bool
  | haveData => false
  | haveUndo => false
  | failedValid => true
  | failedChild => true

section Entries

variable {P : Type}

/-- `IsValid` behind its assertion. -/
def reaches (e : Entry P) (upTo : U32) : Bool :=
  if e.status &&& kBlockFailedMask ≠ 0 then false
  else decide (upTo ≤ e.status &&& kBlockValidMask)

def isValid (e : Entry P) (upTo : U32) : Except Fault Bool :=
  if upTo &&& kBlockValidMask ≠ 0 then .error .assertion else .ok (reaches e upTo)

/-- What is done to the status of an entry. -/
inductive Act where
  | raise (level : Level)
  | mark (flag : Mark)

def act (e : Entry P) : Act → Except Fault (Entry P)
  | .raise level => Prod.snd <$> raiseValidity e level.status
  | .mark flag => .ok { e with status := e.status ||| flag.status }

def run (e : Entry P) (acts : List Act) : Except Fault (Entry P) := acts.foldlM act e

end Entries

section Standings

/-- What a status says: the level that was reached, and whether there was a failure. -/
@[ext] structure Standing where
  level : Nat
  failed : Bool
deriving DecidableEq

/-- A failure is for good, and nothing is reached after it. -/
def Standing.act (s : Standing) : Act → Standing
  | .raise level => if s.failed then s else { s with level := max s.level level.status.toNat }
  | .mark flag => { s with failed := s.failed || flag.isFailure }

def standing {P : Type} (e : Entry P) : Standing where
  level := (e.status &&& kBlockValidMask).toNat
  failed := decide (e.status &&& kBlockFailedMask ≠ 0)

/-- The bits of a status that belong to no level. -/
def flags {P : Type} (e : Entry P) : U32 := e.status &&& ~~~kBlockValidMask

/-- What raising may do to an entry. -/
structure Raised {P : Type} (e e' : Entry P) : Prop where
  level : (standing e).level ≤ (standing e').level
  flags : flags e' = flags e
  rest : { e' with status := e.status } = e

variable {P : Type} {e : Entry P}

theorem level_within (level : Level) : level.status &&& ~~~kBlockValidMask = 0#32 := by
  cases level <;> decide

/-- A level written over another one is that level, and the flags are as they were. -/
theorem overwrite (status : U32) (level : Level) :
    (status &&& ~~~kBlockValidMask ||| level.status) &&& kBlockValidMask = level.status ∧
      (status &&& ~~~kBlockValidMask ||| level.status) &&& ~~~kBlockValidMask =
        status &&& ~~~kBlockValidMask ∧
      (status &&& ~~~kBlockValidMask ||| level.status) &&& kBlockFailedMask =
        status &&& kBlockFailedMask := by
  have hmask : ~~~kBlockValidMask &&& kBlockValidMask = 0#32 := by decide
  have hfailed : ~~~kBlockValidMask &&& kBlockFailedMask = kBlockFailedMask := by decide
  have hlevel : level.status &&& kBlockValidMask = level.status := by cases level <;> decide
  have hflag : level.status &&& kBlockFailedMask = 0#32 := by cases level <;> decide
  refine ⟨?_, ?_, ?_⟩
  · rw [BitVec.and_or_distrib_right, BitVec.and_assoc, hmask, hlevel, BitVec.and_zero,
      BitVec.zero_or]
  · rw [BitVec.and_or_distrib_right, BitVec.and_assoc, BitVec.and_self, level_within,
      BitVec.or_zero]
  · rw [BitVec.and_or_distrib_right, BitVec.and_assoc, hfailed, hflag, BitVec.or_zero]

/-- A flag is no part of a level. -/
theorem mark_apart (status : U32) (flag : Mark) :
    (status ||| flag.status) &&& kBlockValidMask = status &&& kBlockValidMask ∧
      (decide ((status ||| flag.status) &&& kBlockFailedMask ≠ 0) =
        (decide (status &&& kBlockFailedMask ≠ 0) || flag.isFailure)) := by
  rw [BitVec.and_or_distrib_right, BitVec.and_or_distrib_right]
  constructor
  · have hlevel : flag.status &&& kBlockValidMask = 0#32 := by cases flag <;> decide
    rw [hlevel, BitVec.or_zero]
  · cases hfailure : flag.isFailure with
    | false =>
      have hflag : flag.status &&& kBlockFailedMask = 0#32 := by
        revert hfailure
        cases flag <;> decide
      rw [hflag, BitVec.or_zero, Bool.or_false]
    | true =>
      have hflag : flag.status &&& kBlockFailedMask ≠ 0#32 := by
        revert hfailure
        cases flag <;> decide
      rw [Bool.or_true, decide_eq_true_iff]
      intro hzero
      exact hflag (BitVec.or_eq_zero_iff.mp hzero).2

/-- Raising never aborts on a level, and does to the standing what it should. -/
theorem raiseValidity_raised (e : Entry P) (level : Level) :
    ∃ changed e', raiseValidity e level.status = .ok (changed, e') ∧ Raised e e' ∧
      standing e' = (standing e).act (.raise level) := by
  have hwithin : ¬ level.status &&& ~~~kBlockValidMask ≠ 0 := not_not.mpr (level_within level)
  rw [raiseValidity, if_neg hwithin]
  by_cases hfailed : e.status &&& kBlockFailedMask ≠ 0
  · refine ⟨false, e, if_pos hfailed, ⟨Nat.le_refl _, rfl, rfl⟩, ?_⟩
    rw [Standing.act, standing, if_pos (decide_eq_true hfailed)]
  rw [if_neg hfailed]
  have hstanding : (standing e).act (.raise level) =
      { standing e with level := max (standing e).level level.status.toNat } := by
    rw [Standing.act, if_neg]
    simpa [standing] using hfailed
  rcases overwrite e.status level with ⟨hlevel, hflags, hsame⟩
  by_cases hless : e.status &&& kBlockValidMask < level.status
  · rw [if_pos hless]
    refine ⟨true, _, rfl, ⟨?_, hflags, rfl⟩, ?_⟩
    · simp only [standing, hlevel]
      exact (BitVec.lt_def.mp hless).le
    · rw [hstanding]
      ext1
      · simp only [standing, hlevel]
        exact (Nat.max_eq_right (BitVec.lt_def.mp hless).le).symm
      · simp only [standing, hsame]
  · rw [if_neg hless]
    refine ⟨false, e, rfl, ⟨Nat.le_refl _, rfl, rfl⟩, ?_⟩
    rw [hstanding]
    ext1
    · exact (Nat.max_eq_left (BitVec.le_def.mp (BitVec.not_lt.mp hless))).symm
    · rfl

/-- No act aborts, and each does to the standing what it should. -/
theorem act_standing (e : Entry P) (a : Act) :
    ∃ e', act e a = .ok e' ∧ standing e' = (standing e).act a := by
  cases a with
  | raise level =>
    rcases raiseValidity_raised e level with ⟨changed, e', hraise, -, hstanding⟩
    exact ⟨e', by rw [act, hraise]; rfl, hstanding⟩
  | mark flag =>
    rcases mark_apart e.status flag with ⟨hlevel, hfailed⟩
    refine ⟨_, rfl, ?_⟩
    ext1
    · simp only [standing, Standing.act, hlevel]
    · simp only [standing, Standing.act, hfailed]

/-- Nor does a run of them. -/
theorem run_standing (e : Entry P) (acts : List Act) :
    ∃ e', run e acts = .ok e' ∧ standing e' = acts.foldl Standing.act (standing e) := by
  induction acts generalizing e with
  | nil => exact ⟨e, rfl, rfl⟩
  | cons a acts ih =>
    rcases act_standing e a with ⟨e₁, hact, hstanding⟩
    rcases ih e₁ with ⟨e', hrun, hlast⟩
    refine ⟨e', ?_, ?_⟩
    · rw [run, List.foldlM_cons, hact]
      exact hrun
    · rw [hlast, hstanding, List.foldl_cons]

/-- Behind the assertion, the question is answered as it should be. -/
theorem reaches_iff (e : Entry P) (level : Level) : reaches e level.status = true ↔
    (standing e).failed = false ∧ level.status.toNat ≤ (standing e).level := by
  rw [reaches, standing]
  split_ifs with hfailed
  · rw [decide_eq_true hfailed]
    exact iff_of_false id fun h => Bool.false_ne_true h.1.symm
  · rw [decide_eq_true_iff, decide_eq_false hfailed, BitVec.le_def]
    exact (and_iff_right rfl).symm

/-- The assertion lets nothing through but the level that says nothing. -/
theorem isValid_ok_iff {valid : Bool} (e : Entry P) (level : Level) :
    isValid e level.status = .ok valid ↔ level = .unknown ∧ reaches e level.status = valid := by
  rw [isValid]
  cases level with
  | unknown =>
    rw [if_neg (by decide), and_iff_right rfl, Except.ok.injEq]
  | header | tree | transactions | chain | scripts =>
    rw [if_pos (by decide)]
    simp

end Standings

section Questions

variable {P : Type}

/-- What a run of raises and marks owes: raising keeps what it should keep, and whether a
level is reached can be asked at any time. -/
structure Answers (e : Entry P) (acts : List Act) (upTo : Level) : Prop where
  raised : ∀ done level, done ++ [.raise level] <+: acts → ∃ before after,
    run e done = .ok before ∧ run e (done ++ [.raise level]) = .ok after ∧ Raised before after
  asked : ∀ done, done <+: acts → ∃ e' valid,
    run e done = .ok e' ∧ isValid e' upTo.status = .ok valid ∧
      (valid = true ↔ (done.foldl Standing.act (standing e)).failed = false ∧
        upTo.status.toNat ≤ (done.foldl Standing.act (standing e)).level)

theorem Answers.unknown {e : Entry P} {acts : List Act} {upTo : Level}
    (h : Answers e acts upTo) : upTo = .unknown := by
  obtain ⟨e', valid, -, hvalid, -⟩ := h.asked [] List.nil_prefix
  exact ((isValid_ok_iff e' upTo).mp hvalid).1

theorem answers_iff (e : Entry P) (acts : List Act) (upTo : Level) :
    Answers e acts upTo ↔ upTo = .unknown := by
  constructor
  · exact Answers.unknown
  · intro hunknown
    refine ⟨fun done level _ => ?_, fun done _ => ?_⟩
    · rcases run_standing e done with ⟨before, hrun, -⟩
      rcases raiseValidity_raised before level with ⟨changed, after, hraise, hraised, -⟩
      refine ⟨before, after, hrun, ?_, hraised⟩
      rw [run, List.foldlM_append, ← run, hrun]
      change act before (.raise level) >>= pure = .ok after
      rw [act, hraise]
      rfl
    · rcases run_standing e done with ⟨e', hrun, hstanding⟩
      refine ⟨e', _, hrun, (isValid_ok_iff e' upTo).mpr ⟨hunknown, rfl⟩, ?_⟩
      rw [reaches_iff, hstanding]

/-- A new entry, linked into the tree and asked for its transactions, as `IsValid` is by
default. -/
theorem isValid_aborts :
    (run { blockHash := plainHash 0 : Entry Nat } [.raise .tree] >>= fun e =>
        isValid e kBlockValidTransactions) = .error .assertion ∧
      ¬ Answers { blockHash := plainHash 0 : Entry Nat } [.raise .tree] .transactions := by
  exact ⟨rfl, fun h => absurd h.unknown (by decide)⟩

end Questions

end Validity
