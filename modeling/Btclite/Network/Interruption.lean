import Btclite.Network.Refusals
import Btclite.Network.Reports

/-!
# Interruption

The vector decoders call the process-wide interrupt when the sizes of the
entries add up to more than a block may have. For the vectors that a peer can
send, the size of an entry is what `Deserialize` of a class returns, and that
function has no return statement: the sizes are arbitrary.
-/

namespace Interruption

open Endian Serialize Agreement Address Messages Nodes Handlers MsgProcess Lifecycle Effects
open Refusals Reports Runs

section Readers

/-- Neither interrupts nor flows off the end of a function. -/
abbrev Untouched (s s' : Source) : Prop :=
  s'.interrupted = s.interrupted ∧ s'.memory.returned = s.memory.returned

abbrev Uninterrupted (s s' : Source) : Prop := s'.interrupted = s.interrupted

instance : Std.Refl Untouched := ⟨fun _ => ⟨rfl, rfl⟩⟩

instance : IsTrans Source Untouched :=
  ⟨fun _ _ _ h h' => ⟨h'.1.trans h.1, h'.2.trans h.2⟩⟩

instance : Std.Refl Uninterrupted := ⟨fun _ => rfl⟩

instance : IsTrans Source Uninterrupted := ⟨fun _ _ _ h h' => h'.trans h⟩

variable {A : Type}

theorem uninterrupted {r : Deserializer A} (h : Leads Untouched r) : Leads Uninterrupted r :=
  h.mono fun _ _ h => h.1

theorem drawStale_untouched (n : Nat) : Leads Untouched (drawStale n) := fun _ => ⟨rfl, rfl⟩

theorem read_untouched (n : Nat) : Leads Untouched (Source.read n) := by
  intro s
  rw [Source.read]
  by_cases h : s.rest.isEmpty
  · rw [if_pos h]
    exact ⟨rfl, rfl⟩
  · rw [if_neg h]
    exact ⟨rfl, rfl⟩

theorem readData_untouched (n : Nat) : Leads Untouched (readData n) :=
  Leads.bind (read_untouched n) fun _ => Leads.bind (drawStale_untouched _) fun _ => Leads.pure _

theorem serReadData_untouched (w : Nat) : Leads Untouched (serReadData w) :=
  Leads.bind (readData_untouched _) fun _ => Leads.pure _

theorem serReadBool_untouched : Leads Untouched serReadBool :=
  Leads.bind (readData_untouched 1) fun _ => Leads.pure _

theorem readWideVarInt_untouched (n : Nat) (least : U64) :
    Leads Untouched (readWideVarInt n least) := by
  refine Leads.bind (readData_untouched n) fun _ => ?_
  refine Leads.bind (drawStale_untouched _) fun _ => ?_
  exact Leads.ite (Leads.throw _) (Leads.pure _)

theorem serReadVarInt_untouched : Leads Untouched serReadVarInt := by
  refine Leads.bind (serReadData_untouched 8) fun _ => Leads.bind ?_ fun _ => ?_
  · exact Leads.ite (Leads.pure _) (Leads.ite (readWideVarInt_untouched 2 _)
      (Leads.ite (readWideVarInt_untouched 4 _) (readWideVarInt_untouched 8 _)))
  · exact Leads.ite (Leads.throw _) (Leads.pure _)

theorem readChar_untouched (c : Option Byte) : Leads Untouched (readChar c) := by
  refine Leads.bind (read_untouched 1) fun ⟨got, _⟩ => ?_
  cases got with
  | cons b _ => exact Leads.pure _
  | nil =>
    cases c with
    | some c => exact Leads.pure _
    | none => exact Leads.bind (drawStale_untouched 1) fun _ => Leads.pure _

theorem readChars_untouched (n : Nat) (c : Option Byte) : Leads Untouched (readChars n c) := by
  induction n generalizing c with
  | zero => exact Leads.pure _
  | succ n ih =>
    refine Leads.bind (readChar_untouched c) fun b => Leads.ite (Leads.pure _) ?_
    exact Leads.bind (ih _) fun _ => Leads.pure _

theorem deserializeString_untouched : Leads Untouched deserializeString :=
  Leads.bind serReadVarInt_untouched fun _ => Leads.bind (readChars_untouched _ _) fun _ =>
    Leads.pure _

theorem deserializeArray_untouched (n : Nat) : Leads Untouched (deserializeArray n) := by
  induction n with
  | zero => exact Leads.pure _
  | succ n ih =>
    exact Leads.bind (serReadData_untouched 8) fun _ => Leads.bind ih fun _ => Leads.pure _

theorem member_uninterrupted {r : Deserializer A} (h : Leads Untouched r) :
    Leads Uninterrupted (deserializeMember r) :=
  Leads.bind (uninterrupted h) fun _ => Leads.bind (fun _ => rfl) fun _ => Leads.pure _

theorem netAddr_untouched : Leads Untouched NetAddr.deserialize := by
  refine Leads.bind (Leads.map _ (serReadData_untouched 32)) fun _ => ?_
  refine Leads.bind (Leads.map _ (serReadData_untouched 64)) fun _ => ?_
  refine Leads.bind (Leads.map _ (deserializeArray_untouched 16)) fun _ => ?_
  exact Leads.bind (Leads.map _ (serReadData_untouched 16)) fun _ => Leads.pure _

theorem invVect_untouched : Leads Untouched InvVect.deserialize := by
  refine Leads.bind (Leads.map _ (serReadData_untouched 32)) fun _ => ?_
  exact Leads.bind (Leads.map _ (deserializeArray_untouched 32)) fun _ => Leads.pure _

/-- What the header's own source would tell is nothing, so `headerOfRaw` may forget it. -/
theorem header_uninterrupted : Leads Uninterrupted MessageHeader.deserialize := by
  refine uninterrupted (Leads.bind (Leads.map _ (serReadData_untouched 32)) fun _ => ?_)
  refine Leads.bind (Leads.map _ (deserializeArray_untouched 12)) fun _ => ?_
  refine Leads.bind (Leads.map _ (serReadData_untouched 32)) fun _ => ?_
  exact Leads.bind (Leads.map _ (serReadData_untouched 32)) fun _ => Leads.pure _

end Readers

section Vectors

/-- The size that a vector decoder has reached after some entries, from what `Deserialize`
happened to return for each. -/
def sizeAfter (returned : Nat → U64) (size : U64) : Nat → U64
  | 0 => size
  | k + 1 => sizeAfter (fun i => returned (i + 1)) (size + returned 0) k

/-- The size of a vector of this many entries goes above the limit on the way. -/
def Overflows (returned : Nat → U64) (count : Nat) (size : U64) : Prop :=
  ∃ k < count, kMaxBlockSize < sizeAfter returned size (k + 1)

theorem overflows_succ {returned : Nat → U64} {count : Nat} {size : U64} :
    Overflows returned (count + 1) size ↔ kMaxBlockSize < size + returned 0 ∨
      Overflows (fun i => returned (i + 1)) count (size + returned 0) := by
  constructor
  · rintro ⟨_ | k, hk, hover⟩
    · exact Or.inl hover
    · exact Or.inr ⟨k, Nat.lt_of_succ_lt_succ hk, hover⟩
  · rintro (hover | ⟨k, hk, hover⟩)
    · exact ⟨0, Nat.zero_lt_succ _, hover⟩
    · exact ⟨k + 1, Nat.succ_lt_succ hk, hover⟩

variable {A : Type} {entry : Deserializer A}

theorem interruptAbove_run (limit size : U64) (s : Source) :
    interruptAbove limit size s =
      .ok () { s with interrupted := s.interrupted || decide (limit < size) } := by
  rw [interruptAbove]
  by_cases h : limit < size
  · rw [if_pos h]
    simp [interrupt, h]
  · rw [if_neg h]
    simp only [h, decide_false, Bool.or_false]
    rfl

/-- The induction is on the entries that are left; each takes one value that a function
without a return statement yields. -/
theorem vectorElements_interrupts_iff (hentry : Leads Untouched entry) (htotal : Total entry)
    (count : Nat) (size : U64) (s : Source) :
    (endOf (vectorElements (deserializeMember entry) (interruptAbove kMaxBlockSize) count size
        s)).interrupted = true ↔
      s.interrupted = true ∨ Overflows s.memory.returned count size := by
  induction count generalizing size s with
  | zero => exact ⟨Or.inl, fun h => h.resolve_right fun ⟨k, hk, _⟩ => absurd hk (Nat.not_lt_zero k)⟩
  | succ count ih =>
    obtain ⟨v, s₁, hrun⟩ := htotal s
    obtain ⟨hflag, hreturned⟩ := hentry s
    rw [hrun] at hflag hreturned
    change s₁.interrupted = s.interrupted at hflag
    change s₁.memory.returned = s.memory.returned at hreturned
    have hmember : deserializeMember entry s = .ok (v, s.memory.returned 0)
        { s₁ with
          memory := { s₁.memory with returned := fun i => s₁.memory.returned (i + 1) } } := by
      rw [← hreturned]
      exact bind_ok_iff.mpr ⟨v, s₁, hrun, rfl⟩
    rw [vectorElements, endOf_bind hmember, endOf_bind (interruptAbove_run _ _ _),
      ← map_eq_pure_bind, endOf_map, ih, overflows_succ]
    simp only [hflag, hreturned, Bool.or_eq_true, decide_eq_true_eq, or_assoc]

theorem deserializeClassVector_interrupts_iff (hentry : Leads Untouched entry)
    (htotal : Total entry) (s : Source) :
    (endOf (deserializeClassVector (deserializeMember entry) s)).interrupted = true ↔
      s.interrupted = true ∨ ∃ count, serReadVarInt.value s = some count ∧
        Overflows s.memory.returned count.toNat 1 := by
  obtain ⟨hflag, hreturned⟩ := serReadVarInt_untouched s
  cases hrun : serReadVarInt s with
  | error failure s' =>
    rw [hrun] at hflag
    change s'.interrupted = s.interrupted at hflag
    have hend : endOf (deserializeClassVector (deserializeMember entry) s) = s' := by
      change endOf (EStateM.bind _ _ s) = _
      simp only [EStateM.bind, hrun]
      rfl
    rw [hend, hflag]
    simp [Deserializer.value, hrun]
  | ok count s' =>
    rw [hrun] at hflag hreturned
    change s'.interrupted = s.interrupted at hflag
    change s'.memory.returned = s.memory.returned at hreturned
    rw [deserializeClassVector, endOf_bind hrun, vectorElements_interrupts_iff hentry htotal,
      hflag, hreturned]
    simp [Deserializer.value, hrun]

end Vectors

section Messages

/-- The sizes that the entries of a vector are given add up to more than a block may have. -/
def Oversized (memory : Memory) (payload : List Byte) : Prop :=
  ∃ count, serReadVarInt.value ⟨payload, memory, false⟩ = some count ∧
    Overflows memory.returned count.toNat 1

/-- An addr or inv message whose entries are given such sizes. -/
structure Trips (env : Env) (header : MessageHeader) (payload : List Byte) : Prop where
  valid : header.isValid 0 = true
  command : header.command = kMsgAddr ∨ header.command = kMsgInv
  oversized : Oversized env.memory payload

theorem version_uninterrupted (self : Version) :
    Leads Uninterrupted (Version.deserialize self) := by
  have hword {w : Nat} : Leads Uninterrupted (serialRead (serReadData w)) :=
    Leads.map _ (uninterrupted (serReadData_untouched w))
  have haddr : Leads Uninterrupted (serialRead (deserializeMember NetAddr.deserialize)) :=
    Leads.map _ (member_uninterrupted netAddr_untouched)
  have hhead : Leads Uninterrupted (Version.deserializeHead self) :=
    Leads.bind hword fun _ => Leads.bind hword fun _ => Leads.bind hword fun _ =>
      Leads.bind haddr fun _ => Leads.bind haddr fun _ => Leads.bind hword fun _ => Leads.pure _
  refine Leads.bind hhead fun _ => ?_
  refine Leads.bind (Leads.map _ (uninterrupted deserializeString_untouched)) fun _ => ?_
  refine Leads.bind hword fun _ => Leads.ite ?_ (Leads.pure _)
  exact Leads.bind (Leads.map _ (uninterrupted serReadBool_untouched)) fun _ => Leads.pure _

theorem reject_uninterrupted (self : Reject) : Leads Uninterrupted (Reject.deserialize self) := by
  have hstring : Leads Uninterrupted (serialRead deserializeString) :=
    Leads.map _ (uninterrupted deserializeString_untouched)
  refine Leads.bind hstring fun _ => ?_
  refine Leads.bind (Leads.map _ (uninterrupted (serReadData_untouched 8))) fun _ => ?_
  refine Leads.bind hstring fun _ => Leads.ite ?_ (Leads.pure _)
  exact Leads.bind (Leads.map _ (uninterrupted (deserializeArray_untouched 32))) fun _ =>
    Leads.pure _

/-- Only the decoders of addr and inv can interrupt. -/
theorem decoder_interrupts_iff {command : List Byte} {protocolVersion : U32}
    {decode : Deserializer Message}
    (h : Message.decoder command protocolVersion = some decode) (payload : List Byte)
    (memory : Memory) : (endOf (decode ⟨payload, memory, false⟩)).interrupted = true ↔
      (command = kMsgAddr ∨ command = kMsgInv) ∧ Oversized memory payload := by
  have hword {w : Nat} : Leads Uninterrupted (serialRead (serReadData w)) :=
    Leads.map _ (uninterrupted (serReadData_untouched w))
  have hcalm : ∀ {command : List Byte} {r : Deserializer Message}, Leads Uninterrupted r →
      (command ≠ kMsgAddr ∧ command ≠ kMsgInv) →
      ((endOf (r ⟨payload, memory, false⟩)).interrupted = true ↔
        (command = kMsgAddr ∨ command = kMsgInv) ∧ Oversized memory payload) := fun hr ⟨h1, h2⟩ =>
    iff_of_false (by rw [hr]; simp) fun hor => hor.1.elim h1 h2
  have hvector {A : Type} {entry : Deserializer A} (hentry : Leads Untouched entry)
      (htotal : Total entry) {B : Type} (f : List A → B) (g : B → Message) :
      (endOf ((g <$> do let v ← serialRead (deserializeClassVector (deserializeMember entry))
                        pure (f v)) ⟨payload, memory, false⟩)).interrupted = true ↔
        Oversized memory payload := by
    rw [endOf_map, ← map_eq_pure_bind, endOf_map, serialRead, endOf_map,
      deserializeClassVector_interrupts_iff hentry htotal]
    simp [Oversized]
  cases Message.decodes_of_decoder h with
  | version => exact hcalm (Leads.map _ (version_uninterrupted _)) (by decide)
  | verack => exact hcalm (Leads.pure _) (by decide)
  | addr =>
    refine (hvector netAddr_untouched Advances.netAddr.total Addr.mk Message.addr).trans ?_
    simp
  | inv =>
    refine (hvector invVect_untouched Advances.invVect.total Messages.Inv.mk Message.inv).trans ?_
    simp
  | getaddr => exact hcalm (Leads.pure _) (by decide)
  | ping =>
    refine hcalm (Leads.map _ (Leads.ite ?_ (Leads.pure _))) (by decide)
    exact Leads.bind hword fun _ => Leads.pure _
  | pong => exact hcalm (Leads.map _ (Leads.bind hword fun _ => Leads.pure _)) (by decide)
  | reject => exact hcalm (Leads.map _ (reject_uninterrupted _)) (by decide)
  | sendheaders => exact hcalm (Leads.pure _) (by decide)
  | sendcmpct =>
    refine hcalm (Leads.map _ (Leads.bind ?_ fun _ => ?_)) (by decide)
    · exact Leads.map _ (uninterrupted serReadBool_untouched)
    · exact Leads.bind hword fun _ => Leads.pure _

theorem decoder_of_oversized {command : List Byte} (h : command = kMsgAddr ∨ command = kMsgInv)
    (protocolVersion : U32) : Message.decoder command protocolVersion ≠ none := by
  rcases h with rfl | rfl <;> simp [Message.decoder] <;> decide

/-- Decoding a message interrupts exactly if it trips. -/
theorem decoded_interrupts_iff (env : Env) (header : MessageHeader) (raw : List Byte)
    (node : Node) : ((decoded env header raw node).any fun r => (endOf r).interrupted) = true ↔
      Trips env header raw := by
  rw [decoded]
  cases hvalid : header.isValid 0 with
  | false => exact iff_of_false (by simp) fun h => Bool.false_ne_true (hvalid.symm.trans h.valid)
  | true =>
    cases hdecoder : Message.decoder header.command node.protocolVersion with
    | none =>
      exact iff_of_false (by simp) fun h => decoder_of_oversized h.command _ hdecoder
    | some decode =>
      refine Iff.trans ?_ ((decoder_interrupts_iff hdecoder raw env.memory).trans ?_)
      · simp
      · exact ⟨fun h => ⟨hvalid, h.1, h.2⟩, fun h => ⟨h.command, h.oversized⟩⟩

end Messages

section Runs

/-- The calls of the interrupt that a log tells of. -/
def interrupts (log : List Event) : Nat := log.count .interrupted

theorem interrupts_of_adds {w w' : Work} (h : Adds (fun e => e ≠ .interrupted) w w') :
    interrupts w'.log = interrupts w.log := by
  obtain ⟨events, hlog, hall⟩ := h
  have hnone : events.count .interrupted = 0 :=
    List.count_eq_zero.mpr fun hmem => hall _ hmem rfl
  rw [interrupts, hlog, List.count_append, hnone]
  rfl

theorem routine_not_interrupted (e : Event) (h : routine e = true) : e ≠ .interrupted := by
  rintro rfl
  cases h

theorem interrupts_ifThen (c : Bool) (w : Work) :
    interrupts (ifThen c (emit .interrupted) w).2.log =
      interrupts w.log + if c then 1 else 0 := by
  cases c with
  | false => rfl
  | true =>
    change (w.log ++ [Event.interrupted]).count .interrupted = _
    rw [List.count_append]
    rfl

/-- `ParseMsgData` interrupts once if its message trips, and never otherwise. -/
theorem parseMsgData_interrupts (env : Env) (header : MessageHeader) (raw : List Byte) (w : Work) :
    interrupts (parseMsgData env header raw w).2.log = interrupts w.log +
      if (decoded env header raw w.node).any fun r => (endOf r).interrupted then 1 else 0 := by
  have hemit : interrupts (emit (.dispatched header raw) w).2.log = interrupts w.log :=
    interrupts_of_adds (emit_adds (P := fun e => e ≠ .interrupted) Event.noConfusion w)
  cases hd : decoded env header raw w.node with
  | none =>
    rw [parseMsgData_of_none hd, hemit]
    rfl
  | some result =>
    cases result with
    | error failure s =>
      rw [parseMsgData_of_error hd, interrupts_ifThen, hemit]
      rfl
    | ok m s =>
      have hhandle := handleMsgData_adds routine_not_interrupted env header (m := m)
        fun _ _ _ => Event.noConfusion
      rw [parseMsgData_of_ok hd, interrupts_of_adds (hhandle _), interrupts_ifThen, hemit]
      rfl

/-- The next pass of the loop in `ParseMsg` finds a message that trips. -/
def PassTrips (env : Env) (raw : List Byte) (p : Peer) : Prop :=
  ∃ payload rest, Front env raw p payload rest ∧ Trips env (headerOfRaw env.memory raw) payload

theorem parseMsgPass_interrupts_iff (env : Env) (raw : List Byte) (p : Peer) :
    interrupts (parseMsgPass env raw p).2.work.log = interrupts p.work.log ↔
      ¬ PassTrips env raw p := by
  rcases parseMsgPass_cases env raw p with hrun | hrun | ⟨payload, rest, hfront, hrun⟩
  · refine iff_of_true ?_ fun ⟨payload, rest, hfront, _⟩ => hfront.not_returned hrun
    rw [hrun]
  · refine iff_of_true ?_ fun ⟨payload, rest, hfront, _⟩ => hfront.not_returned hrun
    rw [hrun]
    exact interrupts_of_adds ((disconnect_routine env p.work).mono routine_not_interrupted)
  · have hcount := parseMsgData_interrupts env (headerOfRaw env.memory raw) payload p.work
    have hwork : (parseMsgPass env raw p).2.work =
        (parseMsgData env (headerOfRaw env.memory raw) payload p.work).2 := by
      rw [hrun]
      rcases parseMsgData env (headerOfRaw env.memory raw) payload p.work with ⟨_ | _, w'⟩ <;> rfl
    have htrips : PassTrips env raw p ↔ Trips env (headerOfRaw env.memory raw) payload := by
      constructor
      · rintro ⟨payload', rest', hfront', h⟩
        rwa [hfront.unique hfront']
      · exact fun h => ⟨payload, rest, hfront, h⟩
    rw [hwork, hcount, htrips, ← decoded_interrupts_iff env _ payload p.work.node]
    split_ifs with h
    · exact iff_of_false (by omega) (fun hno => hno h)
    · exact iff_of_true rfl h

/-- A step of a peer at which some message trips. -/
def StepTrips (s : Lifecycle.State) : Act → Prop
  | .pass env => s.readers ≠ 0 ∧ ∃ raw,
    evbufferPullup s.peer.input MessageHeader.kSize = some raw ∧ PassTrips env raw s.peer
  | .arrive _ | .enter | .callback _ _ => False

/-- A step that is not possible does not happen. -/
def next (s : Lifecycle.State) (a : Act) : Lifecycle.State := (Lifecycle.step s a).getD s

theorem next_interrupts_iff (s : Lifecycle.State) (a : Act) :
    interrupts (next s a).peer.work.log = interrupts s.peer.work.log ↔ ¬ StepTrips s a := by
  cases a with
  | arrive bytes => exact iff_of_true rfl id
  | enter =>
    refine iff_of_true ?_ id
    rw [next, Lifecycle.step]
    split_ifs <;> rfl
  | callback env cb =>
    refine iff_of_true ?_ id
    exact interrupts_of_adds (callback_adds routine_not_interrupted env
      (fun _ _ => Event.noConfusion) cb s.peer.work)
  | pass env =>
    rw [next, Lifecycle.step, StepTrips]
    by_cases hreaders : s.readers = 0
    · rw [if_pos hreaders]
      exact iff_of_true rfl fun h => h.1 hreaders
    rw [if_neg hreaders]
    cases hpull : evbufferPullup s.peer.input MessageHeader.kSize with
    | none =>
      refine iff_of_true rfl ?_
      rintro ⟨-, raw, hraw, -⟩
      cases hraw
    | some raw =>
      have hpass := parseMsgPass_interrupts_iff env raw s.peer
      have hiff : (s.readers ≠ 0 ∧ ∃ raw', some raw = some raw' ∧ PassTrips env raw' s.peer) ↔
          PassTrips env raw s.peer := by
        simp [hreaders]
      rw [hiff, ← hpass]
      rcases hrun : parseMsgPass env raw s.peer with ⟨_ | _ | _, p⟩ <;>
        simp only [hrun, Option.getD_some]

/-- Whatever arrives and whatever else happens to a peer, the interrupt is never called
exactly if no pass of the run meets an addr or inv message whose entries are given sizes
that add up to more than a block. -/
theorem uninterrupted_iff (s : Lifecycle.State) (acts : List Act) :
    (∀ done, done <+: acts →
        interrupts (done.foldl next s).peer.work.log = interrupts s.peer.work.log) ↔
      Throughout next (fun s a => ¬ StepTrips s a) s acts := by
  refine always_iff_throughout
    (P := fun s' : Lifecycle.State => interrupts s'.peer.work.log = interrupts s.peer.work.log) rfl
    ?_
  intro done a _ hbefore
  rw [← next_interrupts_iff, hbefore]

end Runs

/-- An inv message with one entry of zeros. -/
def invMessage : WireMessage where
  header :=
    { magic := kTestnetMagic
      commandBytes := MessageHeader.paddedCommand kMsgInv
      payloadLength := 37 }
  payload := 1 :: List.replicate 36 0
  payload_length := rfl

/-- Surroundings in which `Deserialize` of a class returns 2 to the power of 32. -/
def garbageEnv : Env := { Env.alone default with memory := ⟨fun _ => 0, fun _ => 0x100000000⟩ }

/-- A peer that has not even sent its version interrupts the process with one entry. -/
theorem inv_interrupts :
    invMessage.WellFormed kTestnetMagic ∧
      interrupts (([.arrive invMessage.wire, .enter, .pass garbageEnv].foldl next
        ⟨⟨Work.inbound, []⟩, 0⟩).peer.work.log) = 1 :=
  ⟨⟨rfl, by decide⟩, by decide +kernel⟩

end Interruption
