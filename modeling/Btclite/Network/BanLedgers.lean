import Btclite.Library.Runs
import Btclite.Network.Sweeping

/-!
# Ban ledgers

What a ban list is for: a ban holds for the addresses its subnet matches, from
when it is made until it runs out or is taken back. The list finds a ban only
under the text of an address, so it is what it should be for as long as subnets
are written like what they match and no sweep comes upon an entry that has run out.
-/

namespace BanLedgers

open Serialize Address SubNets Iterators BanLists Sweeping Runs

/-- What is logged of a sweep is read only at the level `verbose`. -/
inductive Op where
  | add (created : Nat) (subnet : SubNet) (banReason : BanReason)
  | erase (subnet : SubNet)
  | sweepBanned (verbose : Bool)
  | advance (seconds : Nat)

structure State where
  map : BanMap := ∅
  now : Nat

def State.isBanned (base32Encode : List Endian.Byte → List Char) (s : State) (addr : NetAddr) :
    Bool :=
  BanLists.isBanned base32Encode s.now addr s.map

/-- The loop of a sweep takes a turn for each entry, and one to leave. -/
def State.step (base32Encode : List Endian.Byte → List Char) (s : State) : Op → Except Fault State
  | .add created subnet banReason =>
    .ok { s with map := (BanLists.add base32Encode created s.now subnet banReason s.map).2 }
  | .erase subnet => .ok { s with map := (BanLists.erase base32Encode subnet s.map).2 }
  | .sweepBanned verbose => do
    return { s with map := ← BanLists.sweepBanned verbose s.now (s.map.keys.length + 1) s.map }
  | .advance seconds => .ok { s with now := s.now + seconds }

def next (base32Encode : List Endian.Byte → List Char) (s : Except Fault State) (op : Op) :
    Except Fault State :=
  s.bind fun s => s.step base32Encode op

/-! The kernel would try to run `Add` when it compares what a step leaves with it. -/

section Steps

variable (base32Encode : List Endian.Byte → List Char) (s : State)

theorem State.map_mk (m : BanMap) (now : Nat) : (State.mk m now).map = m := rfl

theorem State.now_mk (m : BanMap) (now : Nat) : (State.mk m now).now = now := rfl

theorem next_ok (op : Op) : next base32Encode (.ok s) op = s.step base32Encode op := rfl

theorem State.step_add (created : Nat) (subnet : SubNet) (reason : BanReason) :
    s.step base32Encode (.add created subnet reason) =
      .ok ⟨(BanLists.add base32Encode created s.now subnet reason s.map).2, s.now⟩ := rfl

theorem State.step_erase (subnet : SubNet) :
    s.step base32Encode (.erase subnet) =
      .ok ⟨(BanLists.erase base32Encode subnet s.map).2, s.now⟩ := rfl

end Steps

def State.run (base32Encode : List Endian.Byte → List Char) (now : Nat) (ops : List Op) :
    Except Fault State :=
  ops.foldl (next base32Encode) (.ok { now })

structure Ban where
  subnet : SubNet
  expires : Nat

/-- The bans that were made and not taken back. -/
structure Ledger where
  bans : List Ban := []
  now : Nat

def Ledger.step (l : Ledger) : Op → Ledger
  | .add _ subnet _ =>
    { l with bans := ⟨subnet, l.now + kDefaultMisbehavingBantime⟩ :: l.bans }
  | .erase subnet => { l with bans := l.bans.filter fun b => ¬ SameNet b.subnet subnet }
  | .sweepBanned _ => l
  | .advance seconds => { l with now := l.now + seconds }

def Ledger.run (now : Nat) (ops : List Op) : Ledger := ops.foldl Ledger.step { now }

def Ledger.Covers (l : Ledger) (addr : NetAddr) : Prop :=
  ∃ b ∈ l.bans, l.now < b.expires ∧ b.subnet.matchesAddr addr = true

/-- The operations return, and then the banned addresses are those a ban of the ledger
matches. -/
def CoversSubnets (base32Encode : List Endian.Byte → List Char) (now : Nat) (ops : List Op) :
    Prop :=
  ∃ s, State.run base32Encode now ops = .ok s ∧
    ∀ a, s.isBanned base32Encode a = true ↔ (Ledger.run now ops).Covers a

/-- What is added matches the addresses it is written like, what is erased is not written like
a valid address that it does not stand for alone, and what is swept has no entry that has run
out. -/
def Op.Plain (s : State) : Op → Prop
  | .add _ subnet _ => Single subnet ∨ Idle subnet
  | .erase subnet => subnet.Full → subnet.netAddr.isValid = true → subnet.netmask = fullMask
  | .sweepBanned _ => ∀ key e, s.map.lookup key = some e → ¬ e.banUntil < s.now
  | .advance _ => True

def Plain (s : Except Fault State) (op : Op) : Prop := ∀ s', s = .ok s' → op.Plain s'

section Runs

variable {base32Encode : List Endian.Byte → List Char} {s : State} {l : Ledger}

/-- The list bans, now and later, what the ledger has bans for that are written so. -/
structure Records (base32Encode : List Endian.Byte → List Char) (s : State) (l : Ledger) :
    Prop where
  clock : s.now = l.now
  bounded : Bounded s.now s.map
  plain : ∀ b ∈ l.bans, Single b.subnet ∨ Idle b.subnet
  written : ∀ a (t : Nat), s.now ≤ t → (BannedAt base32Encode t a s.map ↔ ∃ b ∈ l.bans,
    t < b.expires ∧ b.subnet.toString base32Encode = (SubNet.ofAddr a).toString base32Encode)

variable (base32Encode) in
theorem records_init (now : Nat) : Records base32Encode { now } { now } where
  clock := rfl
  bounded := fun key e he => by simp at he
  plain := by simp
  written := fun a t _ => by
    rw [bannedAt_iff]
    simp

theorem Records.add (h : Records base32Encode s l) {subnet : SubNet}
    (hplain : Single subnet ∨ Idle subnet) (created : Nat) (reason : BanReason) :
    ∃ s', s.step base32Encode (.add created subnet reason) = .ok s' ∧
      Records base32Encode s' (l.step (.add created subnet reason)) := by
  have hnow : (0 : Int) ≤ s.now := Int.natCast_nonneg s.now
  have hbounded : Bounded s.now (BanLists.add base32Encode created s.now subnet reason s.map).2 :=
    h.bounded.add hnow created subnet reason
  have hbanned (t : Int) (a : NetAddr) : BannedAt base32Encode t a
      (BanLists.add base32Encode created s.now subnet reason s.map).2 ↔ _ :=
    bannedAt_add hnow h.bounded created subnet reason
  rw [State.step_add]
  generalize (BanLists.add base32Encode created s.now subnet reason s.map).2 = m
    at hbounded hbanned ⊢
  refine ⟨_, rfl, h.clock, hbounded, ?_, fun a t ht => ?_⟩
  · exact List.forall_mem_cons.mpr ⟨hplain, h.plain⟩
  · rw [hbanned, h.written a t ht, h.clock]
    constructor
    · rintro (⟨htext, hlt⟩ | ⟨b, hb, hban⟩)
      · exact ⟨_, List.mem_cons_self, Int.ofNat_lt.mp hlt, htext⟩
      · exact ⟨b, List.mem_cons_of_mem _ hb, hban⟩
    · rintro ⟨b, hb, hlt, htext⟩
      rcases List.mem_cons.mp hb with rfl | hb
      · exact Or.inl ⟨htext, Int.ofNat_lt.mpr hlt⟩
      · exact Or.inr ⟨b, hb, hlt, htext⟩

theorem Records.erase (hbase : Function.Injective base32Encode) (h : Records base32Encode s l)
    {subnet : SubNet}
    (hplain : subnet.Full → subnet.netAddr.isValid = true → subnet.netmask = fullMask) :
    Records base32Encode { s with map := (BanLists.erase base32Encode subnet s.map).2 }
      (l.step (.erase subnet)) := by
  have hmem : ∀ b, b ∈ (l.step (.erase subnet)).bans ↔ b ∈ l.bans ∧ ¬ SameNet b.subnet subnet :=
    fun b => by simp [Ledger.step]
  refine ⟨h.clock, h.bounded.erase subnet, fun b hb => h.plain b ((hmem b).mp hb).1, ?_⟩
  intro a t ht
  refine (bannedAt_erase subnet).trans ?_
  rw [h.written a t ht]
  constructor
  · rintro ⟨hkey, b, hb, hlt, htext⟩
    refine ⟨b, (hmem b).mpr ⟨hb, fun hsame => hkey ?_⟩, hlt, htext⟩
    rw [← htext]
    exact hsame.toString_eq.symm
  · rintro ⟨b, hb, hlt, htext⟩
    rcases (hmem b).mp hb with ⟨hb, hdiff⟩
    refine ⟨fun hkey => hdiff ?_, b, hb, hlt, htext⟩
    exact sameNet_of_toString_eq hbase (h.plain b hb) hplain htext hkey

/-- A sweep returns with the list as it was, or comes upon an entry that has run out. -/
theorem step_sweepBanned (base32Encode : List Endian.Byte → List Char) (verbose : Bool)
    (s : State) :
    (¬ (Op.sweepBanned verbose).Plain s ∧
      s.step base32Encode (.sweepBanned verbose) = .error .erased) ∨
    ((Op.sweepBanned verbose).Plain s ∧ s.step base32Encode (.sweepBanned verbose) = .ok s) := by
  rcases sweepBanned_cases (m := s.map) verbose s.now (Nat.lt_succ_self _) with
    ⟨⟨key, e, he, hold⟩, hrun⟩ | ⟨hnone, hrun⟩
  · refine Or.inl ⟨fun hplain => hplain key e he hold, ?_⟩
    rw [State.step, hrun]
    rfl
  · refine Or.inr ⟨hnone, ?_⟩
    rw [State.step, hrun]
    rfl

theorem Records.step (hbase : Function.Injective base32Encode) {op : Op}
    (h : Records base32Encode s l) (hop : op.Plain s) :
    ∃ s', s.step base32Encode op = .ok s' ∧ Records base32Encode s' (l.step op) := by
  cases op with
  | add created subnet reason => exact h.add hop created reason
  | erase subnet => exact ⟨_, s.step_erase base32Encode subnet, h.erase hbase hop⟩
  | sweepBanned verbose =>
    rcases step_sweepBanned base32Encode verbose s with ⟨hnot, -⟩ | ⟨-, hstep⟩
    · exact absurd hop hnot
    · exact ⟨s, hstep, h⟩
  | advance seconds =>
    have hle : s.now ≤ s.now + seconds := Nat.le_add_right _ _
    refine ⟨_, rfl, congrArg (· + seconds) h.clock, h.bounded.later (Int.ofNat_le.mpr hle),
      h.plain, fun a t ht => ?_⟩
    exact h.written a t (hle.trans ht)

theorem Records.run (hbase : Function.Injective base32Encode) (h : Records base32Encode s l)
    {ops : List Op} (hops : Throughout (next base32Encode) Plain (.ok s) ops) :
    ∃ s', ops.foldl (next base32Encode) (.ok s) = .ok s' ∧
      Records base32Encode s' (ops.foldl Ledger.step l) := by
  induction ops generalizing s l with
  | nil => exact ⟨s, rfl, h⟩
  | cons op ops ih =>
    obtain ⟨hop, hops⟩ := hops
    obtain ⟨s', hstep, h'⟩ := h.step hbase (hop s rfl)
    have hnext : next base32Encode (.ok s) op = .ok s' := hstep
    rw [hnext] at hops
    rw [List.foldl_cons, List.foldl_cons, hnext]
    exact ih h' hops

theorem Records.covers (hbase : Function.Injective base32Encode)
    (h : Records base32Encode s l) (a : NetAddr) :
    s.isBanned base32Encode a = true ↔ l.Covers a := by
  refine (h.written a s.now le_rfl).trans ?_
  rw [Ledger.Covers, ← h.clock]
  constructor
  · rintro ⟨b, hb, hlt, htext⟩
    exact ⟨b, hb, hlt, (matchesAddr_iff_written hbase (h.plain b hb) a).mpr htext⟩
  · rintro ⟨b, hb, hlt, hmatch⟩
    exact ⟨b, hb, hlt, (matchesAddr_iff_written hbase (h.plain b hb) a).mp hmatch⟩

end Runs

section Exceptions

variable {base32Encode : List Endian.Byte → List Char} {subnet : SubNet}

theorem run_add (base32Encode : List Endian.Byte → List Char) (now created : Nat)
    (subnet : SubNet) (reason : BanReason) :
    State.run base32Encode now [.add created subnet reason] =
      .ok ⟨(BanLists.add base32Encode created now subnet reason ∅).2, now⟩ := by
  rw [State.run, List.foldl_cons, List.foldl_nil, next_ok, State.step_add, State.map_mk,
    State.now_mk]

theorem bannedAt_alone (hbase : Function.Injective base32Encode) (now created : Nat)
    (subnet : SubNet) (reason : BanReason) (a : NetAddr) :
    BannedAt base32Encode now a (BanLists.add base32Encode created now subnet reason ∅).2 ↔
      subnet.netAddr.ip = a.ip ∧ subnet.Full := by
  have hbound := (records_init base32Encode now).bounded
  have hlt : (now : Int) < now + kDefaultMisbehavingBantime :=
    Int.lt_add_of_pos_right _ (by decide)
  rw [bannedAt_add (Int.natCast_nonneg now) hbound created subnet reason,
    toString_eq_ofAddr_iff hbase, bannedAt_iff]
  simp [hlt]

theorem covers_alone (now created : Nat) (subnet : SubNet) (reason : BanReason) (a : NetAddr) :
    (Ledger.run now [.add created subnet reason]).Covers a ↔ subnet.matchesAddr a = true := by
  simp [Ledger.run, Ledger.step, Ledger.Covers, kDefaultMisbehavingBantime]

theorem coversSubnets_iff {now : Nat} {ops : List Op} {s : State}
    (hrun : State.run base32Encode now ops = .ok s) :
    CoversSubnets base32Encode now ops ↔
      ∀ a, s.isBanned base32Encode a = true ↔ (Ledger.run now ops).Covers a := by
  constructor
  · rintro ⟨s', hs', h⟩
    cases hrun.symm.trans hs'
    exact h
  · exact fun h => ⟨s, hrun, h⟩

/-- A subnet that is not written like what it matches is not looked up as it should be. -/
theorem add_coversSubnets_iff (hbase : Function.Injective base32Encode) (now created : Nat)
    (subnet : SubNet) (reason : BanReason) :
    CoversSubnets base32Encode now [.add created subnet reason] ↔ Single subnet ∨ Idle subnet := by
  have hbanned := bannedAt_alone hbase now created subnet reason
  have hrun := run_add base32Encode now created subnet reason
  obtain ⟨m, hm⟩ : ∃ m, (BanLists.add base32Encode created now subnet reason ∅).2 = m := ⟨_, rfl⟩
  rw [hm] at hbanned hrun
  rw [coversSubnets_iff hrun, ← written_as_matched_iff]
  refine forall_congr' fun a => ?_
  rw [covers_alone]
  exact (iff_congr (hbanned a) Iff.rfl).trans Iff.comm

/-- Erasing what is written like an address takes its ban away. -/
theorem erase_not_coversSubnets (hbase : Function.Injective base32Encode) (now created : Nat)
    (reason : BanReason) (hfull : subnet.Full) (haddr : subnet.netAddr.isValid = true)
    (hmask : subnet.netmask ≠ fullMask) :
    ¬ CoversSubnets base32Encode now
      [.add created (.ofAddr subnet.netAddr) reason, .erase subnet] := by
  have hcovers : (Ledger.run now [.add created (.ofAddr subnet.netAddr) reason,
      .erase subnet]).Covers subnet.netAddr := by
    refine ⟨⟨.ofAddr subnet.netAddr, now + kDefaultMisbehavingBantime⟩, ?_, ?_, ?_⟩
    · have hdiff : ¬ SameNet (.ofAddr subnet.netAddr) subnet := fun hsame => hmask hsame.2.symm
      simp [Ledger.run, Ledger.step, hdiff]
    · exact Nat.lt_add_of_pos_right (by decide)
    · exact matchesAddr_self haddr haddr
  have hrun := run_add base32Encode now created (.ofAddr subnet.netAddr) reason
  obtain ⟨m, hm⟩ : ∃ m, (BanLists.add base32Encode created now (.ofAddr subnet.netAddr) reason
    ∅).2 = m := ⟨_, rfl⟩
  rw [hm, State.run, List.foldl_cons, List.foldl_nil] at hrun
  rintro ⟨s, hs, h⟩
  rw [State.run, List.foldl_cons, hrun] at hs
  cases hs
  have hkey := ((bannedAt_erase subnet).mp ((h subnet.netAddr).mpr hcovers)).1
  exact hkey ((toString_eq_ofAddr_iff hbase).mpr ⟨rfl, hfull⟩)

/-- A sweep that comes upon an entry which has run out does not return. -/
theorem sweepBanned_not_coversSubnets {now : Nat} {done : List Op} {s : State} {verbose : Bool}
    (hdone : State.run base32Encode now done = .ok s) (hop : ¬ (Op.sweepBanned verbose).Plain s) :
    ¬ CoversSubnets base32Encode now (done ++ [.sweepBanned verbose]) := by
  rintro ⟨s', hs', -⟩
  rw [State.run, List.foldl_concat, ← State.run, hdone] at hs'
  rcases step_sweepBanned base32Encode verbose s with ⟨-, hstep⟩ | ⟨hplain, -⟩
  · cases hstep.symm.trans hs'
  · exact hop hplain

end Exceptions

/-- In every run of plain operations the list bans what the ledger has bans for. An operation
that is not plain where such a run has led breaks that behind some such run, and a sweep
behind this one. -/
theorem plain_coversSubnets {base32Encode : List Endian.Byte → List Char}
    (hbase : Function.Injective base32Encode) (now : Nat) :
    (∀ ops, Throughout (next base32Encode) Plain (.ok { now }) ops →
      CoversSubnets base32Encode now ops) ∧
    ∀ done op, Throughout (next base32Encode) Plain (.ok { now }) done →
      ¬ Plain (State.run base32Encode now done) op →
      ∃ ops, Throughout (next base32Encode) Plain (.ok { now }) ops ∧
        ¬ CoversSubnets base32Encode now (ops ++ [op]) ∧
        ((∃ verbose, op = .sweepBanned verbose) → ops = done) := by
  have hstart := records_init base32Encode now
  constructor
  · intro ops hops
    obtain ⟨s, hrun, h⟩ := hstart.run hbase hops
    exact ⟨s, hrun, h.covers hbase⟩
  · intro done op hdone hop
    obtain ⟨s, hrun, -⟩ := hstart.run hbase hdone
    have hnot : ¬ op.Plain s := fun hplain => hop fun s' hs' => by
      cases hrun.symm.trans hs'
      exact hplain
    cases op with
    | add created subnet reason =>
      have hadd := add_coversSubnets_iff hbase now created subnet reason
      exact ⟨[], trivial, fun h => hnot (hadd.mp h), by simp⟩
    | erase subnet =>
      simp only [Op.Plain, Classical.not_imp] at hnot
      rcases hnot with ⟨hfull, haddr, hmask⟩
      refine ⟨[.add now (.ofAddr subnet.netAddr) .kManuallyAdded], ⟨?_, trivial⟩,
        erase_not_coversSubnets hbase now now _ hfull haddr hmask, by simp⟩
      exact fun _ _ => Or.inl ⟨haddr, haddr, rfl⟩
    | sweepBanned verbose =>
      exact ⟨done, hdone, sweepBanned_not_coversSubnets hrun hnot, fun _ => rfl⟩
    | advance seconds => exact absurd trivial hnot

section Examples

/-- An address is banned, a minute passes, and the list is swept. -/
def minuteBan : List Op :=
  [.add 1700000000 (.ofAddr (address123 4)) .kNodeMisbehaving, .advance 60, .sweepBanned false]

theorem plain_coversSubnets_single : CoversSubnets spell 1700000000 minuteBan := by
  refine (plain_coversSubnets spell_injective 1700000000).1 minuteBan
    ⟨fun _ _ => Or.inl ⟨by decide, by decide, rfl⟩, fun _ _ => trivial, ?_, trivial⟩
  rintro _ ⟨⟩ key e he
  have hempty : Bounded 1700000000 ∅ := (records_init spell 1700000000).bounded
  obtain ⟨⟨e', he', huntil⟩, hothers⟩ := lookup_add spell (by decide) hempty 1700000000
    (.ofAddr (address123 4)) .kNodeMisbehaving
  by_cases hkey : key = (SubNet.ofAddr (address123 4)).toString spell
  · subst hkey
    cases he'.symm.trans he
    rw [huntil]
    decide
  · cases (hothers key hkey).symm.trans he

/-- The network 1.2.3.0/24 is added, and none of its addresses is banned for it. -/
theorem subnet_not_banned :
    ¬ CoversSubnets spell 1700000000
      [.add 1700000000 (.ofPrefix (address123 0) 24) .kManuallyAdded] := by
  rintro ⟨s, hs, h⟩
  have hcovers : (Ledger.run 1700000000
      [.add 1700000000 (.ofPrefix (address123 0) 24) .kManuallyAdded]).Covers (address123 4) := by
    refine ⟨⟨.ofPrefix (address123 0) 24, 1700086400⟩, ?_, by decide, by decide +kernel⟩
    exact List.mem_singleton_self _
  have hbanned := (h (address123 4)).mpr hcovers
  have hfree : (State.run spell 1700000000
      [.add 1700000000 (.ofPrefix (address123 0) 24) .kManuallyAdded]).toOption.all
        (fun s => !s.isBanned spell (address123 4)) = true := by
    decide +kernel
  rw [hs] at hfree
  change (!s.isBanned spell (address123 4)) = true at hfree
  rw [hbanned] at hfree
  cases hfree

end Examples

end BanLedgers
