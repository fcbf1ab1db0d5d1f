import Btclite.Library.Runs
import Btclite.Network.Address
import Mathlib.Data.List.Infix

/-!
# Flooding addresses

The addresses that a node is to be sent, and the timer callback that sends
them. The callback takes a copy of the queue, asks and tells for each address
whether the node knows it, and clears the queue: every one of these is a
critical section of its own, and between any two of them other threads push.
-/

namespace Flooding

open Endian Serialize Address Runs

def kMaxAddrToSend : Nat := 1000

/-- The capacity of the circular buffer. -/
def kMaxKnownAddr : Nat := 3000

section Source

variable (sha256 : List Byte → Hash256)

/-- `NetAddr::GetHash`. -/
def getHash (addr : NetAddr) : Hash256 :=
  sha256 ((List.range 4).flatMap (fun n => serWriteData (addr.protoIp n)) ++
    serWriteData addr.protoPort)

/-- What the known addresses are told apart by. -/
def keyOf (addr : NetAddr) : U64 := fromLittleEndian 64 ((getHash sha256 addr).data.take 8)

structure FloodingAddrs where
  addrsToSend : List NetAddr := []
  knownAddrs : List U64 := []

namespace FloodingAddrs

variable (f : FloodingAddrs)

/-- `push_back` of `boost::circular_buffer`: a full one loses the oldest. -/
def pushKnown (key : U64) : List U64 :=
  if f.knownAddrs.length < kMaxKnownAddr then f.knownAddrs ++ [key]
  else f.knownAddrs.tail ++ [key]

def isKnownAddr (addr : NetAddr) : Bool := f.knownAddrs.contains (keyOf sha256 addr)

/-- `random` is what `RandUint64` draws, which is told the length of the queue as the largest
number to draw: drawn, it writes behind the queue. -/
def pushAddrToSend (addr : NetAddr) (random : Nat) : Bool × FloodingAddrs :=
  if !addr.isValid || f.isKnownAddr sha256 addr then (false, f)
  else if kMaxAddrToSend ≤ f.addrsToSend.length then
    (true, { f with addrsToSend := f.addrsToSend.set random addr })
  else (true, { f with addrsToSend := f.addrsToSend ++ [addr] })

def clearSentAddr : FloodingAddrs := { f with addrsToSend := [] }

def addKnownAddr (addr : NetAddr) : Bool × FloodingAddrs :=
  if !addr.isValid then (false, f)
  else (true, { f with knownAddrs := f.pushKnown (keyOf sha256 addr) })

end FloodingAddrs

/-- Where `RelayFloodingAddrsTimeoutCb` is: with the copied addresses that are still to come,
the one that was found unknown, and the message. -/
inductive Phase where
  | entry
  | checking (pending draft : List NetAddr)
  | adding (addr : NetAddr) (pending draft : List NetAddr)
  | clearing
  | finished

structure State where
  flooding : FloodingAddrs
  phase : Phase := .entry
  messages : List (List NetAddr) := []
  pushed : List NetAddr := []

inductive Event where
  | push (addr : NetAddr) (random : Nat)
  | relay (interrupted disconnected : Bool)

namespace State

variable (s : State)

/-- A push by another thread. What was pushed is noted down. -/
def push (addr : NetAddr) (random : Nat) : State :=
  match s.flooding.pushAddrToSend sha256 addr random with
  | (true, flooding) => { s with flooding, pushed := s.pushed ++ [addr] }
  | (false, flooding) => { s with flooding }

/-- The callback goes on, by one critical section at most. -/
def relay (interrupted disconnected : Bool) : State :=
  match s.phase with
  | .entry =>
    if interrupted then { s with phase := .finished }
    else if disconnected then { s with phase := .finished }
    else { s with phase := .checking s.flooding.addrsToSend [] }
  | .checking (addr :: pending) draft =>
    if s.flooding.isKnownAddr sha256 addr then { s with phase := .checking pending draft }
    else { s with phase := .adding addr pending draft }
  | .adding addr pending draft =>
    let s := { s with flooding := (s.flooding.addKnownAddr sha256 addr).2 }
    let draft := draft ++ [addr]
    if 1000 ≤ draft.length then
      { s with phase := .checking pending [], messages := s.messages ++ [draft] }
    else { s with phase := .checking pending draft }
  | .checking [] draft =>
    if draft.isEmpty then { s with phase := .clearing }
    else { s with phase := .clearing, messages := s.messages ++ [draft] }
  | .clearing => { s with flooding := s.flooding.clearSentAddr, phase := .finished }
  | .finished => s

def step : Event → State
  | .push addr random => s.push sha256 addr random
  | .relay interrupted disconnected => s.relay sha256 interrupted disconnected

end State

namespace Phase

/-- What the loop has still to come to. -/
def pending : Phase → List NetAddr
  | .checking pending _ => pending
  | .adding addr pending _ => addr :: pending
  | _ => []

def draft : Phase → List NetAddr
  | .checking _ draft => draft
  | .adding _ _ draft => draft
  | _ => []

/-- After the copy and before the queue is cleared. -/
def Copied : Phase → Prop
  | .entry => False
  | .finished => False
  | _ => True

end Phase

/-- Still queued, or put in a message, or known. -/
def Kept (s : State) (addr : NetAddr) : Prop :=
  addr ∈ s.flooding.addrsToSend ∨ addr ∈ s.messages.flatten ∨
    keyOf sha256 addr ∈ s.flooding.knownAddrs

/-- When the callback is over, nothing that was pushed is lost. -/
def NoneLost (s : State) : Prop := s.phase = .finished → ∀ addr ∈ s.pushed, Kept sha256 s addr

/-- What is pushed after the copy has the key of an address that is still to come. -/
def Covered (s : State) : Event → Prop
  | .push addr _ => s.phase.Copied → addr.isValid = true →
    keyOf sha256 addr ∉ s.flooding.knownAddrs →
    keyOf sha256 addr ∈ s.phase.pending.map (keyOf sha256)
  | .relay _ _ => True

def Small (s : State) : Prop := s.flooding.addrsToSend.length < kMaxAddrToSend

/-- The addresses queued are valid, and the node does not know them. -/
structure Ready (f : FloodingAddrs) : Prop where
  queued : ∀ addr ∈ f.addrsToSend, addr.isValid = true ∧ keyOf sha256 addr ∉ f.knownAddrs
  known : f.knownAddrs.length ≤ kMaxKnownAddr

/-- What is queued when the timer fires was pushed. -/
def fired (f : FloodingAddrs) : State := { flooding := f, pushed := f.addrsToSend }

end Source

section Invariant

variable {sha256 : List Byte → Hash256} {s : State} {addr : NetAddr} {added : List U64}

/-- After the copy: the last keys that the node knows are those that were added, and all of
what was pushed has its key among these or is still to come. -/
structure Relaying (sha256 : List Byte → Hash256) (s : State) (added : List U64) : Prop where
  suffix : added <:+ s.flooding.knownAddrs
  known : s.flooding.knownAddrs.length ≤ kMaxKnownAddr
  few : added.length + s.phase.pending.length < kMaxAddrToSend
  valid : ∀ addr ∈ s.phase.pending, addr.isValid = true
  fresh : ∀ addr ∈ s.phase.pending, keyOf sha256 addr ∈ s.flooding.knownAddrs →
    keyOf sha256 addr ∈ added
  told : ∀ addr ∈ s.messages.flatten ++ s.phase.draft, keyOf sha256 addr ∈ added
  covered : ∀ addr ∈ s.pushed,
    keyOf sha256 addr ∈ added ∨ keyOf sha256 addr ∈ s.phase.pending.map (keyOf sha256)

/-- Before the copy, all that was pushed is queued; in the end, all of it is kept. -/
structure Invariant (sha256 : List Byte → Hash256) (s : State) : Prop where
  entry : s.phase = .entry →
    Ready sha256 s.flooding ∧ s.messages = [] ∧ s.pushed ⊆ s.flooding.addrsToSend
  copied : s.phase.Copied → ∃ added, Relaying sha256 s added
  finished : s.phase = .finished → Ready sha256 s.flooding ∧ ∀ addr ∈ s.pushed, Kept sha256 s addr

theorem Relaying.invariant (h : Relaying sha256 s added) (hphase : s.phase.Copied) :
    Invariant sha256 s where
  entry heq := by
    rw [heq] at hphase
    exact hphase.elim
  copied _ := ⟨added, h⟩
  finished heq := by
    rw [heq] at hphase
    exact hphase.elim

theorem Invariant.of_finished (hphase : s.phase = .finished) (hready : Ready sha256 s.flooding)
    (hkept : ∀ addr ∈ s.pushed, Kept sha256 s addr) : Invariant sha256 s where
  entry heq := by
    rw [hphase] at heq
    cases heq
  copied hcopied := by
    rw [hphase] at hcopied
    exact hcopied.elim
  finished _ := ⟨hready, hkept⟩

/-- A push does nothing, or adds to the queue and to the notes. -/
theorem push_cases (sha256 : List Byte → Hash256) (s : State) (addr : NetAddr) (random : Nat) :
    s.push sha256 addr random = s ∧
        (addr.isValid = false ∨ keyOf sha256 addr ∈ s.flooding.knownAddrs) ∨
      addr.isValid = true ∧ keyOf sha256 addr ∉ s.flooding.knownAddrs ∧
        ∃ queue, s.push sha256 addr random =
            { s with
              flooding := { s.flooding with addrsToSend := queue }
              pushed := s.pushed ++ [addr] } ∧
          (Small s → queue = s.flooding.addrsToSend ++ [addr]) := by
  rw [State.push, FloodingAddrs.pushAddrToSend]
  by_cases hvalid : addr.isValid = true
  · by_cases hknown : keyOf sha256 addr ∈ s.flooding.knownAddrs
    · left
      simp [FloodingAddrs.isKnownAddr, hknown]
    · right
      refine ⟨hvalid, hknown, ?_⟩
      have hpushed : (!addr.isValid || s.flooding.isKnownAddr sha256 addr) = false := by
        simp [FloodingAddrs.isKnownAddr, hvalid, hknown]
      rw [if_neg (by simp [hpushed])]
      by_cases hfull : kMaxAddrToSend ≤ s.flooding.addrsToSend.length
      · rw [if_pos hfull]
        exact ⟨_, rfl, fun hsmall => absurd hfull (Nat.not_le_of_lt hsmall)⟩
      · rw [if_neg hfull]
        exact ⟨_, rfl, fun _ => rfl⟩
  · left
    simp [hvalid]

theorem Ready.push (h : Ready sha256 s.flooding) (hvalid : addr.isValid = true)
    (hknown : keyOf sha256 addr ∉ s.flooding.knownAddrs) :
    Ready sha256 { s.flooding with addrsToSend := s.flooding.addrsToSend ++ [addr] } where
  queued other hother := by
    rcases List.mem_append.mp hother with hother | hother
    · exact h.queued other hother
    · rw [List.mem_singleton.mp hother]
      exact ⟨hvalid, hknown⟩
  known := h.known

theorem push_invariant {random : Nat} (h : Invariant sha256 s) (hsmall : Small s)
    (hcovered : Covered sha256 s (.push addr random)) :
    Invariant sha256 (s.push sha256 addr random) := by
  rcases push_cases sha256 s addr random with ⟨heq, -⟩ | ⟨hvalid, hknown, queue, heq, hqueue⟩
  · rw [heq]
    exact h
  rw [heq, hqueue hsmall]
  refine ⟨fun hphase => ?_, fun hphase => ?_, fun hphase => ?_⟩
  · obtain ⟨hready, hmessages, hpushed⟩ := h.entry hphase
    refine ⟨hready.push hvalid hknown, hmessages, List.append_subset.mpr ⟨?_, ?_⟩⟩
    · exact List.subset_append_of_subset_left _ hpushed
    · exact List.subset_append_right _ _
  · obtain ⟨added, hadded⟩ := h.copied hphase
    refine ⟨added, hadded.suffix, hadded.known, hadded.few, hadded.valid, hadded.fresh,
      hadded.told, fun other hother => ?_⟩
    rcases List.mem_append.mp hother with hother | hother
    · exact hadded.covered other hother
    · rw [List.mem_singleton.mp hother]
      exact .inr (hcovered hphase hvalid hknown)
  · obtain ⟨hready, hkept⟩ := h.finished hphase
    refine ⟨hready.push hvalid hknown, fun other hother => ?_⟩
    rcases List.mem_append.mp hother with hother | hother
    · exact (hkept other hother).imp_left (List.mem_append_left _)
    · exact .inl (List.mem_append_right _ hother)

/-- The keys that were added are the last to go. -/
theorem suffix_pushKnown {f : FloodingAddrs} {key : U64} (h : added <:+ f.knownAddrs)
    (hlen : added.length < kMaxKnownAddr) : added ++ [key] <:+ f.pushKnown key := by
  rw [FloodingAddrs.pushKnown]
  obtain ⟨old, hold⟩ := h
  split_ifs with hfull
  · rw [← hold, List.append_assoc]
    exact List.suffix_append _ _
  · cases old with
    | nil =>
      rw [List.nil_append] at hold
      rw [hold] at hlen
      exact absurd hlen hfull
    | cons oldest old =>
      rw [← hold, List.cons_append, List.tail_cons, List.append_assoc]
      exact List.suffix_append _ _

theorem length_pushKnown {f : FloodingAddrs} {key : U64} (h : f.knownAddrs.length ≤ kMaxKnownAddr) :
    (f.pushKnown key).length ≤ kMaxKnownAddr := by
  rw [FloodingAddrs.pushKnown]
  split_ifs with hfull
  · rw [List.length_append, List.length_singleton]
    exact hfull
  · rw [List.length_append, List.length_tail, List.length_singleton]
    have hpos : 0 < kMaxKnownAddr := by decide
    omega

theorem mem_pushKnown {f : FloodingAddrs} {key k : U64} (h : k ∈ f.pushKnown key) :
    k ∈ f.knownAddrs ∨ k = key := by
  rw [FloodingAddrs.pushKnown] at h
  split_ifs at h
  · exact (List.mem_append.mp h).imp_right List.mem_singleton.mp
  · exact (List.mem_append.mp h).imp List.mem_of_mem_tail List.mem_singleton.mp

section Relay

variable {pending draft : List NetAddr}

/-- An address that is known was added already, or is an old one that nobody pushed. -/
theorem Relaying.skip (h : Relaying sha256 s added)
    (hphase : s.phase = .checking (addr :: pending) draft)
    (hknown : keyOf sha256 addr ∈ s.flooding.knownAddrs) :
    Relaying sha256 { s with phase := .checking pending draft } added := by
  obtain ⟨hsuffix, hlen, hfew, hvalid, hfresh, htold, hcovered⟩ := h
  rw [hphase] at hfew hvalid hfresh htold hcovered
  have hadded : keyOf sha256 addr ∈ added := hfresh addr List.mem_cons_self hknown
  refine ⟨hsuffix, hlen, Nat.lt_of_succ_lt hfew, fun other hother => ?_, fun other hother => ?_,
    htold, fun other hother => ?_⟩
  · exact hvalid other (List.mem_cons_of_mem _ hother)
  · exact hfresh other (List.mem_cons_of_mem _ hother)
  · rcases hcovered other hother with hadded' | hpending
    · exact .inl hadded'
    · rcases List.mem_cons.mp hpending with heq | hpending
      · exact .inl (heq ▸ hadded)
      · exact .inr hpending

/-- The key of an address goes to the known ones and the address to a message. -/
theorem Relaying.add {phase : Phase} {messages : List (List NetAddr)} (h : Relaying sha256 s added)
    (hphase : s.phase = .adding addr pending draft) (hpending : phase.pending = pending)
    (hmessages : messages.flatten ++ phase.draft = s.messages.flatten ++ (draft ++ [addr])) :
    Relaying sha256 { s with flooding := (s.flooding.addKnownAddr sha256 addr).2, phase, messages }
      (added ++ [keyOf sha256 addr]) := by
  obtain ⟨hsuffix, hlen, hfew, hvalid, hfresh, htold, hcovered⟩ := h
  rw [hphase] at hfew hvalid hfresh htold hcovered
  have hadd : (s.flooding.addKnownAddr sha256 addr).2.knownAddrs =
      s.flooding.pushKnown (keyOf sha256 addr) := by
    rw [FloodingAddrs.addKnownAddr, if_neg (by simp [hvalid addr List.mem_cons_self])]
  have hfew' : added.length + (pending.length + 1) < kMaxAddrToSend := hfew
  have hroom : added.length < kMaxKnownAddr :=
    Nat.lt_trans (Nat.lt_of_le_of_lt (Nat.le_add_right _ _) hfew') (by decide)
  refine ⟨?_, ?_, ?_, fun other hother => ?_, fun other hother hknown => ?_, fun other hother => ?_,
    fun other hother => ?_⟩
  · dsimp only
    rw [hadd]
    exact suffix_pushKnown hsuffix hroom
  · dsimp only
    rw [hadd]
    exact length_pushKnown hlen
  · dsimp only
    rw [hpending, List.length_append, List.length_singleton]
    omega
  · dsimp only at hother
    rw [hpending] at hother
    exact hvalid other (List.mem_cons_of_mem _ hother)
  · dsimp only at hother hknown
    rw [hpending] at hother
    rw [hadd] at hknown
    rcases mem_pushKnown hknown with hknown | heq
    · exact List.mem_append_left _ (hfresh other (List.mem_cons_of_mem _ hother) hknown)
    · rw [heq]
      exact List.mem_append_right _ (List.mem_singleton_self _)
  · dsimp only at hother
    rw [hmessages, ← List.append_assoc] at hother
    rcases List.mem_append.mp hother with hother | hother
    · exact List.mem_append_left _ (htold other hother)
    · rw [List.mem_singleton.mp hother]
      exact List.mem_append_right _ (List.mem_singleton_self _)
  · dsimp only
    rw [hpending]
    rcases hcovered other hother with hadded | hpending'
    · exact .inl (List.mem_append_left _ hadded)
    · rcases List.mem_cons.mp hpending' with heq | hpending'
      · rw [heq]
        exact .inl (List.mem_append_right _ (List.mem_singleton_self _))
      · exact .inr hpending'

theorem Relaying.of_same {s' : State} (h : Relaying sha256 s added)
    (hflooding : s'.flooding = s.flooding) (hpushed : s'.pushed = s.pushed)
    (hpending : s'.phase.pending = s.phase.pending)
    (hmessages : s'.messages.flatten ++ s'.phase.draft = s.messages.flatten ++ s.phase.draft) :
    Relaying sha256 s' added := by
  obtain ⟨hsuffix, hlen, hfew, hvalid, hfresh, htold, hcovered⟩ := h
  rw [← hflooding, ← hpending] at hfresh
  rw [← hflooding] at hsuffix hlen
  rw [← hpending] at hfew hvalid hcovered
  rw [← hpushed] at hcovered
  rw [← hmessages] at htold
  exact ⟨hsuffix, hlen, hfew, hvalid, hfresh, htold, hcovered⟩

/-- The copy is of all that was pushed. -/
theorem relaying_of_ready (hready : Ready sha256 s.flooding) (hmessages : s.messages = [])
    (hpushed : s.pushed ⊆ s.flooding.addrsToSend) (hsmall : Small s) :
    Relaying sha256 { s with phase := .checking s.flooding.addrsToSend [] } [] where
  suffix := List.nil_suffix
  known := hready.known
  few := by
    rw [List.length_nil, Nat.zero_add]
    exact hsmall
  valid addr haddr := (hready.queued addr haddr).1
  fresh addr haddr hknown := absurd hknown (hready.queued addr haddr).2
  told addr haddr := by
    rw [hmessages] at haddr
    exact absurd haddr List.not_mem_nil
  covered addr haddr := .inr (List.mem_map_of_mem (hpushed haddr))

theorem relay_invariant (h : Invariant sha256 s) (hsmall : Small s)
    (interrupted disconnected : Bool) :
    Invariant sha256 (s.relay sha256 interrupted disconnected) := by
  have hcopied := h.copied
  rw [State.relay]
  cases hphase : s.phase with
  | entry =>
    obtain ⟨hready, hmessages, hpushed⟩ := h.entry hphase
    have hstopped : Invariant sha256 { s with phase := .finished } :=
      .of_finished rfl hready fun addr haddr => .inl (hpushed haddr)
    dsimp only
    split_ifs
    · exact hstopped
    · exact hstopped
    · exact (relaying_of_ready hready hmessages hpushed hsmall).invariant trivial
  | checking pending draft =>
    rw [hphase] at hcopied
    obtain ⟨added, hadded⟩ := hcopied trivial
    cases pending with
    | nil =>
      dsimp only
      split_ifs with hdraft
      · refine Relaying.invariant (hadded.of_same rfl rfl ?_ ?_) trivial
        · rw [hphase]
          rfl
        · rw [hphase, List.isEmpty_iff.mp hdraft]
          rfl
      · refine Relaying.invariant (hadded.of_same rfl rfl ?_ ?_) trivial
        · rw [hphase]
          rfl
        · rw [hphase]
          simp [Phase.draft]
    | cons addr pending =>
      dsimp only
      split_ifs with hknown
      · have hmem : keyOf sha256 addr ∈ s.flooding.knownAddrs := by
          simpa [FloodingAddrs.isKnownAddr] using hknown
        exact (hadded.skip hphase hmem).invariant trivial
      · refine Relaying.invariant (hadded.of_same rfl rfl ?_ ?_) trivial
        · rw [hphase]
          rfl
        · rw [hphase]
          rfl
  | adding addr pending draft =>
    rw [hphase] at hcopied
    obtain ⟨added, hadded⟩ := hcopied trivial
    dsimp only
    split_ifs
    · refine (hadded.add hphase rfl ?_).invariant trivial
      simp [Phase.draft]
    · exact (hadded.add hphase rfl rfl).invariant trivial
  | clearing =>
    rw [hphase] at hcopied
    obtain ⟨added, hadded⟩ := hcopied trivial
    refine .of_finished rfl ⟨fun addr haddr => absurd haddr List.not_mem_nil, hadded.known⟩
      fun addr haddr => .inr (.inr (hadded.suffix.mem ?_))
    rcases hadded.covered addr haddr with hkey | hpending
    · exact hkey
    · rw [hphase] at hpending
      exact absurd hpending List.not_mem_nil
  | finished =>
    exact h

end Relay

theorem step_invariant {event : Event} (h : Invariant sha256 s) (hsmall : Small s)
    (hcovered : Covered sha256 s event) : Invariant sha256 (s.step sha256 event) := by
  cases event with
  | push addr random => exact push_invariant h hsmall hcovered
  | relay interrupted disconnected => exact relay_invariant h hsmall interrupted disconnected

theorem Invariant.noneLost (h : Invariant sha256 s) : NoneLost sha256 s :=
  fun hphase => (h.finished hphase).2

theorem fired_invariant {f : FloodingAddrs} (h : Ready sha256 f) : Invariant sha256 (fired f) where
  entry _ := ⟨h, rfl, List.Subset.refl _⟩
  copied hphase := hphase.elim
  finished hphase := by cases hphase

end Invariant

section Loss

variable {sha256 : List Byte → Hash256} {s : State} {addr : NetAddr}

/-- Pushed behind the copy, and nothing that is to come will save it. -/
structure Doomed (sha256 : List Byte → Hash256) (s : State) (addr : NetAddr) : Prop where
  copied : s.phase.Copied
  pushed : addr ∈ s.pushed
  unknown : keyOf sha256 addr ∉ s.flooding.knownAddrs
  absent : keyOf sha256 addr ∉ s.phase.pending.map (keyOf sha256)
  unsent : addr ∉ s.messages.flatten ++ s.phase.draft

/-- A push that is not covered does that to its address. -/
theorem doomed_of_not_covered {event : Event} (h : Invariant sha256 s)
    (hcovered : ¬ Covered sha256 s event) : ∃ addr, Doomed sha256 (s.step sha256 event) addr := by
  cases event with
  | relay interrupted disconnected => exact absurd trivial hcovered
  | push addr random =>
    simp only [Covered, Classical.not_imp] at hcovered
    obtain ⟨hphase, hvalid, hunknown, habsent⟩ := hcovered
    obtain ⟨added, hadded⟩ := h.copied hphase
    refine ⟨addr, ?_⟩
    rw [State.step]
    rcases push_cases sha256 s addr random with ⟨-, hno⟩ | ⟨-, -, queue, heq, -⟩
    · rcases hno with hinvalid | hknown
      · rw [hvalid] at hinvalid
        cases hinvalid
      · exact absurd hknown hunknown
    · rw [heq]
      refine ⟨hphase, List.mem_append_right _ (List.mem_singleton_self _), hunknown, habsent, ?_⟩
      exact fun hsent => hunknown (hadded.suffix.mem (hadded.told addr hsent))

theorem Doomed.push (h : Doomed sha256 s addr) (other : NetAddr) (random : Nat) :
    Doomed sha256 (s.push sha256 other random) addr := by
  rcases push_cases sha256 s other random with ⟨heq, -⟩ | ⟨-, -, queue, heq, -⟩
  · rw [heq]
    exact h
  · rw [heq]
    exact ⟨h.copied, List.mem_append_left _ h.pushed, h.unknown, h.absent, h.unsent⟩

/-- It stays so until the queue is cleared, and then the address is lost. -/
theorem Doomed.relay (h : Doomed sha256 s addr) (interrupted disconnected : Bool) :
    Doomed sha256 (s.relay sha256 interrupted disconnected) addr ∨
      ¬ NoneLost sha256 (s.relay sha256 interrupted disconnected) := by
  obtain ⟨hcopied, hpushed, hunknown, habsent, hunsent⟩ := h
  rw [State.relay]
  cases hphase : s.phase with
  | entry =>
    rw [hphase] at hcopied
    exact hcopied.elim
  | checking pending draft =>
    rw [hphase] at habsent hunsent
    left
    cases pending with
    | nil =>
      dsimp only
      split_ifs
      · refine ⟨trivial, hpushed, hunknown, habsent, fun hsent => hunsent ?_⟩
        exact List.mem_append_left _ (by simpa [Phase.draft] using hsent)
      · refine ⟨trivial, hpushed, hunknown, habsent, fun hsent => hunsent ?_⟩
        simpa [Phase.draft] using hsent
    | cons other pending =>
      dsimp only
      split_ifs
      · refine ⟨trivial, hpushed, hunknown, fun hpending => habsent ?_, hunsent⟩
        exact List.mem_cons_of_mem _ hpending
      · exact ⟨trivial, hpushed, hunknown, habsent, hunsent⟩
  | adding other pending draft =>
    rw [hphase] at habsent hunsent
    left
    have hne : keyOf sha256 addr ≠ keyOf sha256 other :=
      fun heq => habsent (heq ▸ List.mem_cons_self)
    have hunknown' : keyOf sha256 addr ∉
        (s.flooding.addKnownAddr sha256 other).2.knownAddrs := by
      rw [FloodingAddrs.addKnownAddr]
      split_ifs
      · exact hunknown
      · exact fun hknown => (mem_pushKnown hknown).elim hunknown hne
    have hunsent' : addr ∉ s.messages.flatten ++ (draft ++ [other]) := by
      rw [← List.append_assoc]
      intro hsent
      rcases List.mem_append.mp hsent with hsent | hsent
      · exact hunsent hsent
      · exact hne (congrArg _ (List.mem_singleton.mp hsent))
    have habsent' : keyOf sha256 addr ∉ pending.map (keyOf sha256) :=
      fun hpending => habsent (List.mem_cons_of_mem _ hpending)
    dsimp only
    split_ifs
    · refine ⟨trivial, hpushed, hunknown', habsent', fun hsent => hunsent' ?_⟩
      simpa [Phase.draft] using hsent
    · exact ⟨trivial, hpushed, hunknown', habsent', hunsent'⟩
  | clearing =>
    rw [hphase] at hunsent
    refine .inr fun hnone => ?_
    rcases hnone rfl addr hpushed with hqueued | hsent | hknown
    · exact List.not_mem_nil hqueued
    · exact hunsent (List.mem_append_left _ hsent)
    · exact hunknown hknown
  | finished =>
    rw [hphase] at hcopied
    exact hcopied.elim

theorem Doomed.step (h : Doomed sha256 s addr) (event : Event) :
    Doomed sha256 (s.step sha256 event) addr ∨ ¬ NoneLost sha256 (s.step sha256 event) := by
  cases event with
  | push other random => exact .inl (h.push other random)
  | relay interrupted disconnected => exact h.relay interrupted disconnected

/-- When the callback is over at last, something was lost by then. -/
theorem Doomed.lost (h : Doomed sha256 s addr) {events : List Event}
    (hover : (events.foldl (State.step sha256) s).phase = .finished) :
    ¬ ∀ done, done <+: events → NoneLost sha256 (done.foldl (State.step sha256) s) := by
  induction events generalizing s with
  | nil =>
    have hcopied := h.copied
    rw [List.foldl_nil] at hover
    rw [hover] at hcopied
    exact hcopied.elim
  | cons event events ih =>
    intro hnone
    obtain ⟨-, hrest⟩ := always_cons_iff.mp hnone
    rcases h.step event with hdoomed | hlost
    · exact ih hdoomed hover hrest
    · exact hlost (hrest [] List.nil_prefix)

end Loss

section Results

variable {sha256 : List Byte → Hash256} {s : State} {events : List Event}

theorem noneLost_iff_covered (h : Invariant sha256 s)
    (hsmall : ∀ done, done <+: events → Small (done.foldl (State.step sha256) s))
    (hover : (events.foldl (State.step sha256) s).phase = .finished) :
    (∀ done, done <+: events → NoneLost sha256 (done.foldl (State.step sha256) s)) ↔
      Throughout (State.step sha256) (Covered sha256) s events := by
  induction events generalizing s with
  | nil =>
    refine iff_of_true (fun done hdone => ?_) trivial
    rw [List.prefix_nil.mp hdone]
    exact h.noneLost
  | cons event events ih =>
    obtain ⟨hfirst, hrest⟩ := always_cons_iff.mp hsmall
    by_cases hcovered : Covered sha256 s event
    · rw [always_cons_iff, Throughout, and_iff_right h.noneLost, and_iff_right hcovered]
      exact ih (step_invariant h hfirst hcovered) hrest hover
    · obtain ⟨addr, hdoomed⟩ := doomed_of_not_covered h hcovered
      refine iff_of_false (fun hnone => ?_) fun hall => hcovered hall.1
      exact hdoomed.lost hover (always_cons_iff.mp hnone).2

/-- Between two runs of the callback the queue is as a run needs it. -/
structure Tidy (sha256 : List Byte → Hash256) (s : State) : Prop where
  known : s.flooding.knownAddrs.length ≤ kMaxKnownAddr
  ready : ¬ s.phase.Copied → Ready sha256 s.flooding

theorem Tidy.step (h : Tidy sha256 s) (hsmall : Small s) (event : Event) :
    Tidy sha256 (s.step sha256 event) := by
  cases event with
  | push addr random =>
    rw [State.step]
    rcases push_cases sha256 s addr random with ⟨heq, -⟩ | ⟨hvalid, hunknown, queue, heq, hqueue⟩
    · rw [heq]
      exact h
    · rw [heq, hqueue hsmall]
      exact ⟨h.known, fun hphase => (h.ready hphase).push hvalid hunknown⟩
  | relay interrupted disconnected =>
    rw [State.step, State.relay]
    cases hphase : s.phase with
    | entry =>
      have hready : Ready sha256 s.flooding := h.ready (by simp [hphase, Phase.Copied])
      dsimp only
      split_ifs <;> exact ⟨h.known, fun _ => hready⟩
    | checking pending draft =>
      cases pending <;> dsimp only <;> split_ifs <;>
        exact ⟨h.known, fun hno => absurd trivial hno⟩
    | adding addr pending draft =>
      have hknown : (s.flooding.addKnownAddr sha256 addr).2.knownAddrs.length ≤ kMaxKnownAddr := by
        rw [FloodingAddrs.addKnownAddr]
        split_ifs
        · exact h.known
        · exact length_pushKnown h.known
      dsimp only
      split_ifs <;> exact ⟨hknown, fun hno => absurd trivial hno⟩
    | clearing =>
      exact ⟨h.known, fun _ => ⟨fun addr haddr => absurd haddr List.not_mem_nil, h.known⟩⟩
    | finished => exact h

/-- Whatever was lost, a callback that is over leaves a queue as the next one needs it. -/
theorem ready_of_finished {f : FloodingAddrs} (h : Ready sha256 f)
    (hsmall : ∀ done, done <+: events → Small (done.foldl (State.step sha256) (fired f)))
    (hover : (events.foldl (State.step sha256) (fired f)).phase = .finished) :
    Ready sha256 (events.foldl (State.step sha256) (fired f)).flooding := by
  have hall : Throughout (State.step sha256) (fun s _ => Small s) (fired f) events :=
    throughout_iff_forall.mpr fun done _ hdone => hsmall done ((List.prefix_append _ _).trans hdone)
  have htidy : Tidy sha256 (fired f) := ⟨h.known, fun _ => h⟩
  refine (always_of_throughout htidy (fun s event hs hsmall => hs.step hsmall event) hall events
    List.prefix_rfl).ready ?_
  rw [hover]
  exact not_false

theorem ready_empty : Ready sha256 {} :=
  ⟨fun _ haddr => absurd haddr List.not_mem_nil, Nat.zero_le _⟩

/-- No address that was pushed is lost exactly as long as every push between the copy and the
clearing that returns true is of an address whose key is still to come. -/
theorem none_lost_iff {f : FloodingAddrs} (h : Ready sha256 f)
    (hsmall : ∀ done, done <+: events → Small (done.foldl (State.step sha256) (fired f)))
    (hover : (events.foldl (State.step sha256) (fired f)).phase = .finished) :
    (∀ done, done <+: events → NoneLost sha256 (done.foldl (State.step sha256) (fired f))) ↔
      Throughout (State.step sha256) (Covered sha256) (fired f) events :=
  noneLost_iff_covered (fired_invariant h) hsmall hover

end Results

section Examples

/-- 1.1.1.1:8333 -/
def endpoint : NetAddr :=
  { ip := ⟨[0, 0, 0, 0, 0, 0, 0, 0, 0, 0, 0xff, 0xff, 1, 1, 1, 1], rfl⟩, protoPort := 8333 }

/-- What is hashed of it, with its digest. -/
def endpointSha256 (bytes : List Byte) : Hash256 :=
  if bytes = endpoint.ip.data ++ serWriteData endpoint.protoPort then
    hashOf 0x7016bc81f7a9727005868594419cea51bdb06bb1a2fbbdaadad054eb1f0d0558
  else Bytes.zero 32

/-- Pushed again before it is looked at. -/
theorem none_lost_iff_again :
    let events := [Event.relay false false, .push endpoint 0, .relay false false,
      .relay false false, .relay false false, .relay false false]
    ∀ done, done <+: events → NoneLost endpointSha256
      (done.foldl (State.step endpointSha256) (fired { addrsToSend := [endpoint] })) := by
  intro events
  have hready : Ready endpointSha256 { addrsToSend := [endpoint] } := by
    refine ⟨fun addr haddr => ?_, Nat.zero_le _⟩
    rw [List.mem_singleton.mp haddr]
    exact ⟨by decide, List.not_mem_nil⟩
  have hsmall : ∀ done ∈ events.inits, (done.foldl (State.step endpointSha256)
      (fired { addrsToSend := [endpoint] })).flooding.addrsToSend.length < kMaxAddrToSend := by
    decide
  refine (none_lost_iff hready (fun done hdone => hsmall done ((List.mem_inits _ _).mpr hdone))
    rfl).mpr ?_
  exact ⟨trivial, fun _ _ _ => List.mem_singleton_self _, trivial, trivial, trivial, trivial,
    trivial⟩

/-- Pushed after the copy of an empty queue. -/
theorem pushed_after_copy :
    let s := [Event.relay false false, .push endpoint 0, .relay false false,
      .relay false false].foldl (State.step endpointSha256) (fired {})
    s.phase = .finished ∧ endpoint ∈ s.pushed ∧ ¬ NoneLost endpointSha256 s := by
  intro s
  have hpushed : endpoint ∈ s.pushed := List.mem_singleton_self _
  refine ⟨rfl, hpushed, fun hnone => ?_⟩
  rcases hnone rfl endpoint hpushed with hqueued | hsent | hknown
  · exact List.not_mem_nil hqueued
  · exact List.not_mem_nil hsent
  · exact List.not_mem_nil hknown

end Examples

end Flooding
