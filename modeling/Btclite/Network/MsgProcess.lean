import Btclite.Network.Sessions
import Btclite.Network.WireFormats

/-!
# Parsing messages

`ParseMsg` and `ParseMsgData` of `msg_process.cpp` over the input buffer of a
peer. A pass of the loop in `ParseMsg` takes a header off the buffer, checks it,
waits for the payload, hands both to `ParseMsgData` and then takes the payload
off. An exception of a decoder leaves `ParseMsg` from the middle of a pass.
-/

namespace MsgProcess

open Endian Serialize Agreement Canonical CanonicalVectors Messages Nodes Handlers Sessions

section Headers

def header : Parser MessageHeader := do
  let magic ← word 32
  let commandBytes ← array 12
  let payloadLength ← word 32
  let checksum ← word 32
  pure { magic, commandBytes, payloadLength, checksum }

theorem header_agrees :
    Agrees view [] MessageHeader.deserialize header MessageHeader.serialize := by
  refine Agrees.bind (serReadData_agrees rfl) fun magic _ => ?_
  refine Agrees.bind (array_agrees 12) fun commandBytes _ => ?_
  refine Agrees.bind (serReadData_agrees rfl) fun payloadLength _ => ?_
  exact Agrees.bind (serReadData_agrees rfl) fun checksum _ => Agrees.pure rfl

theorem header_append (h : MessageHeader) (rest : List Byte) (m : Nat → Byte) :
    header ⟨h.serialize ++ rest, m⟩ = some (h, ⟨rest, m⟩) := by
  simp only [MessageHeader.serialize, List.append_assoc]
  refine strict_bind_some_iff.mpr ⟨h.magic, _, word_append rfl _ _ m, ?_⟩
  refine strict_bind_some_iff.mpr ⟨h.commandBytes, _, array_append _ _ m, ?_⟩
  refine strict_bind_some_iff.mpr ⟨h.payloadLength, _, word_append rfl _ _ m, ?_⟩
  exact strict_bind_some_iff.mpr ⟨h.checksum, _, word_append rfl _ _ m, rfl⟩

theorem header_length (h : MessageHeader) : h.serialize.length = MessageHeader.kSize := by
  simp [MessageHeader.serialize, serWriteData, MessageHeader.kSize, MessageHeader.kCommandSize]

/-- The constructor from raw data. -/
def headerOfRaw (memory : Memory) (raw : List Byte) : MessageHeader :=
  (MessageHeader.deserialize.value ⟨raw, memory, false⟩).getD {}

theorem headerOfRaw_serialize (memory : Memory) (h : MessageHeader) :
    headerOfRaw memory h.serialize = h := by
  have hstrict := header_append h [] memory.stale
  rw [List.append_nil] at hstrict
  obtain ⟨s', hrun, -⟩ := header_agrees.reads (s := ⟨h.serialize, memory, false⟩) hstrict
  rw [headerOfRaw, Deserializer.value_eq_some.mpr ⟨s', hrun⟩]
  rfl

/-- There are no bytes but those of a header. -/
theorem exists_serialize (b : Bytes 24) : ∃ h : MessageHeader, h.serialize = b.data := by
  obtain ⟨data, hsize⟩ := b
  have hword : ∀ low : List Byte, low.length = 4 →
      serWriteData (fromLittleEndian 32 low) = low := fun low hlow =>
    toLittleEndian_fromLittleEndian (w := 32) rfl low hlow
  have hcommand : ((data.drop 4).take 12).length = 12 := by
    simp only [List.length_take, List.length_drop]
    omega
  refine ⟨⟨fromLittleEndian 32 (data.take 4), ⟨(data.drop 4).take 12, hcommand⟩,
    fromLittleEndian 32 ((data.drop 16).take 4), fromLittleEndian 32 (data.drop 20)⟩, ?_⟩
  have hdrop : data.drop 16 = (data.drop 4).drop 12 := by rw [List.drop_drop]
  have hdrop' : data.drop 20 = (data.drop 16).drop 4 := by rw [List.drop_drop]
  simp only [MessageHeader.serialize]
  rw [hword _ (by simp only [List.length_take]; omega),
    hword _ (by simp only [List.length_take, List.length_drop]; omega),
    hword _ (by simp only [List.length_drop]; omega), hdrop', List.append_assoc,
    List.take_append_drop, hdrop, List.append_assoc, List.take_append_drop, List.take_append_drop]

/-- Headers and the bytes of one are the same thing, and a command is kept as far as its
field and its first zero byte allow. -/
theorem header_codec (memory : Memory) :
    (∀ b : Bytes 24, (headerOfRaw memory b.data).serialize = b.data) ∧
    (∀ (magic : U32) (command : List Byte) (payloadLength checksum : U32),
      headerOfRaw memory
          (MessageHeader.ofFields magic command payloadLength checksum).serialize =
        MessageHeader.ofFields magic command payloadLength checksum) ∧
    ∀ (h : MessageHeader) (command : List Byte),
      (h.setCommand command).command = (command.take 12).takeWhile (· ≠ 0#8) := by
  refine ⟨fun b => ?_, fun _ _ _ _ => headerOfRaw_serialize memory _, fun h command =>
    h.command_setCommand command⟩
  obtain ⟨h, hb⟩ := exists_serialize b
  rw [← hb, headerOfRaw_serialize]

end Headers

section Data

/-- What becomes of the payload before it is handled; nothing does if the header is not
valid or no class takes the command. -/
def decoded (env : Env) (header : MessageHeader) (raw : List Byte) (node : Node) :
    Option (EStateM.Result Failure Source Message) :=
  if !header.isValid 0 then none
  else (Message.decoder header.command node.protocolVersion).map
    fun decode => decode ⟨raw, env.memory, false⟩

def parseMsgData (env : Env) (header : MessageHeader) (raw : List Byte) :
    Handler (Except Failure Bool) := do
  emit (.dispatched header raw)
  let node ← getNode
  match decoded env header raw node with
  | none => pure (.ok false)
  | some (.error failure s) => do
    ifThen s.interrupted (emit .interrupted)
    pure (.error failure)
  | some (.ok m s) => do
    ifThen s.interrupted (emit .interrupted)
    let ret ← handleMsgData env header m
    pure (.ok ret)

section Ends

variable {env : Env} {header : MessageHeader} {raw : List Byte} {w : Work}

theorem parseMsgData_of_none (hd : decoded env header raw w.node = none) :
    parseMsgData env header raw w = (.ok false, (emit (.dispatched header raw) w).2) := by
  change (match decoded env header raw w.node with
    | none => _ | some (.error _ _) => _ | some (.ok _ _) => _ : Handler _) _ = _
  rw [hd]
  rfl

theorem parseMsgData_of_error {failure : Failure} {s : Source}
    (hd : decoded env header raw w.node = some (.error failure s)) :
    parseMsgData env header raw w = (.error failure,
      (ifThen s.interrupted (emit .interrupted) (emit (.dispatched header raw) w).2).2) := by
  change (match decoded env header raw w.node with
    | none => _ | some (.error _ _) => _ | some (.ok _ _) => _ : Handler _) _ = _
  rw [hd]
  rfl

theorem parseMsgData_of_ok {m : Message} {s : Source}
    (hd : decoded env header raw w.node = some (.ok m s)) :
    parseMsgData env header raw w =
      let w₁ := (ifThen s.interrupted (emit .interrupted) (emit (.dispatched header raw) w).2).2
      (.ok (handleMsgData env header m w₁).1, (handleMsgData env header m w₁).2) := by
  change (match decoded env header raw w.node with
    | none => _ | some (.error _ _) => _ | some (.ok _ _) => _ : Handler _) _ = _
  rw [hd]
  rfl

end Ends

/-- The ways `ParseMsgData` ends, each from the same node with the dispatch noted. -/
theorem parseMsgData_cases (env : Env) (header : MessageHeader) (raw : List Byte) (w : Work) :
    ∃ w₁, w₁.node = w.node ∧ session w₁ = (session w).after (.dispatch header raw) ∧
      ((decoded env header raw w.node = none ∧ parseMsgData env header raw w = (.ok false, w₁)) ∨
      (∃ failure s, decoded env header raw w.node = some (.error failure s) ∧
        parseMsgData env header raw w = (.error failure, w₁)) ∨
      ∃ m s, decoded env header raw w.node = some (.ok m s) ∧
        parseMsgData env header raw w =
          (.ok (handleMsgData env header m w₁).1, (handleMsgData env header m w₁).2)) := by
  have hemit : session (emit (.dispatched header raw) w).2 =
      (session w).after (.dispatch header raw) := emit_session _ w
  have hnode : ∀ c : Bool, (ifThen c (emit .interrupted) (emit (.dispatched header raw) w).2).2.node
      = w.node := by
    intro c
    cases c <;> rfl
  have hsession : ∀ c : Bool,
      session (ifThen c (emit .interrupted) (emit (.dispatched header raw) w).2).2 =
        (session w).after (.dispatch header raw) := fun c => by
    rw [ifThen_leaves (c := c) (emit_leaves rfl) (emit (.dispatched header raw) w).2, hemit]
  cases hd : decoded env header raw w.node with
  | none =>
    exact ⟨(emit (.dispatched header raw) w).2, rfl, hemit,
      Or.inl ⟨rfl, parseMsgData_of_none hd⟩⟩
  | some result =>
    cases result with
    | error failure s =>
      exact ⟨_, hnode s.interrupted, hsession s.interrupted,
        Or.inr (Or.inl ⟨failure, s, rfl, parseMsgData_of_error hd⟩)⟩
    | ok m s =>
      exact ⟨_, hnode s.interrupted, hsession s.interrupted,
        Or.inr (Or.inr ⟨m, s, rfl, parseMsgData_of_ok hd⟩)⟩

/-- The message that `ParseMsgData` hands to its handler. -/
def Delivers (env : Env) (header : MessageHeader) (raw : List Byte) (w : Work) (m : Message) :
    Prop :=
  ∃ s, decoded env header raw w.node = some (.ok m s) ∧ Admitted env header m w

theorem parseMsgData_reaches {D : Session → Action → Prop} (hD : Permissive D) {env : Env}
    {header : MessageHeader} {raw : List Byte} {w : Work}
    (hdispatch : D (session w) (.dispatch header raw))
    (hreceive : ∀ m, Delivers env header raw w m →
      D ((session w).after (.dispatch header raw)) (.receive m.command))
    (hest : ∀ s command, D s (.receive command) → D (s.after (.receive command)) .establish) :
    Reaches D (session w) (session (parseMsgData env header raw w).2) := by
  obtain ⟨w₁, hnode, hsession, hcases⟩ := parseMsgData_cases env header raw w
  refine (Reaches.single hdispatch trivial).trans ?_
  rw [← hsession]
  rcases hcases with ⟨-, hrun⟩ | ⟨failure, s, -, hrun⟩ | ⟨m, s, hd, hrun⟩
  · rw [hrun]
  · rw [hrun]
  · rw [hrun]
    refine handleMsgData_reaches hD (fun h => ?_) hest
    rw [hsession]
    refine hreceive m ⟨s, hd, ?_⟩
    rw [Admitted, hnode] at h
    exact h

def dispatched? : Event → Option (MessageHeader × List Byte)
  | .dispatched header payload => some (header, payload)
  | _ => none

/-- The calls of `ParseMsgData` that a log tells of. -/
def dispatches (log : List Event) : List (MessageHeader × List Byte) := log.filterMap dispatched?

theorem dispatched_of_plain (e : Event) (h : e.isPlain = true) : dispatched? e = none := by
  cases e with
  | dispatched header payload => cases h
  | _ => rfl

theorem dispatches_session (w : Work) : dispatches (session w).trace = dispatches w.log :=
  filterMap_session dispatched_of_plain w

theorem dispatches_note (s : Session) (e : Event) :
    dispatches (s.note e).trace = dispatches s.trace ++ (dispatched? e).toList :=
  filterMap_note dispatched? s e

/-- Nothing is dispatched. -/
def Undispatched (_ : Session) : Action → Prop
  | .dispatch _ _ => False
  | _ => True

theorem undispatched_permissive : Permissive Undispatched :=
  ⟨fun _ _ => trivial, fun _ => trivial, fun _ _ => trivial⟩

theorem dispatches_of_reaches {w w' : Work} (h : Reaches Undispatched (session w) (session w')) :
    dispatches w'.log = dispatches w.log := by
  refine filterMap_of_reaches dispatched_of_plain (fun s a hd => ?_) h
  cases a with
  | dispatch header payload => exact hd.elim
  | _ => rfl

/-- `ParseMsgData` is noted once, whatever comes of it. -/
theorem parseMsgData_dispatches (env : Env) (header : MessageHeader) (raw : List Byte)
    (w : Work) : dispatches (parseMsgData env header raw w).2.log =
      dispatches w.log ++ [(header, raw)] := by
  obtain ⟨w₁, -, hsession, hcases⟩ := parseMsgData_cases env header raw w
  have hw₁ : dispatches w₁.log = dispatches w.log ++ [(header, raw)] := by
    rw [← dispatches_session, hsession, Session.after, dispatches_note, dispatches_session]
    rfl
  rcases hcases with ⟨-, hrun⟩ | ⟨failure, s, -, hrun⟩ | ⟨m, s, -, hrun⟩
  · rw [hrun, hw₁]
  · rw [hrun, hw₁]
  · rw [hrun, ← hw₁]
    exact dispatches_of_reaches (handleMsgData_reaches undispatched_permissive
      (fun _ => trivial) fun _ _ _ => trivial)

theorem parseMsgData_frame (env : Env) (header : MessageHeader) (raw : List Byte) (w : Work) :
    (parseMsgData env header raw w).2.node.connection.bev = w.node.connection.bev :=
  (parseMsgData_reaches (D := fun _ _ => True) ⟨fun _ _ => trivial, fun _ => trivial,
    fun _ _ => trivial⟩ trivial (fun _ _ => trivial) fun _ _ _ => trivial).frame.2.2.1

end Data

section Buffer

def evbufferPullup (buf : List Byte) (size : Nat) : Option (List Byte) :=
  if size ≤ buf.length then some (buf.take size) else none

def evbufferDrain (buf : List Byte) (len : Nat) : List Byte := buf.drop len

structure Peer where
  work : Work
  input : List Byte

inductive Outcome where
  | parsed (ret : Bool)
  | returned
  | raised (failure : Failure)
deriving DecidableEq

def rejectMsg (env : Env) (work : Work) (input : List Byte) : Outcome × Peer :=
  (.returned, ⟨(disconnect env work).2, input⟩)

/-- One pass of the loop in `ParseMsg`, with `raw` the header pulled up before it. -/
def parseMsgPass (env : Env) (raw : List Byte) (p : Peer) : Outcome × Peer :=
  let header := headerOfRaw env.memory raw
  let input := evbufferDrain p.input MessageHeader.kSize
  if kMaxMessageSize < header.payloadLength then rejectMsg env p.work input
  else if header.magic ≠ env.msgMagic then rejectMsg env p.work input
  else
    match (if 0 < header.payloadLength then evbufferPullup input header.payloadLength.toNat
      else some []) with
    | none => (.returned, ⟨p.work, input⟩)
    | some payload =>
      match parseMsgData env header payload p.work with
      | (.ok ret, work) => (.parsed ret, ⟨work, evbufferDrain input header.payloadLength.toNat⟩)
      | (.error failure, work) => (.raised failure, ⟨work, input⟩)

/-- The loop; `envs` is what each pass finds outside. -/
def parseMsgLoop (envs : Nat → Env) : Nat → Bool → Peer → Except Failure Bool × Peer
  | 0, ret, p => (.ok ret, p)
  | fuel + 1, ret, p =>
    match evbufferPullup p.input MessageHeader.kSize with
    | none => (.ok ret, p)
    | some raw =>
      match parseMsgPass (envs 0) raw p with
      | (.parsed r, p) => parseMsgLoop (fun i => envs (i + 1)) fuel (ret && r) p
      | (.returned, p) => (.ok false, p)
      | (.raised failure, p) => (.error failure, p)

/-- `ParseMsg`. Every pass takes at least a header off the buffer, so the fuel lasts. -/
def parseMsg (envs : Nat → Env) (p : Peer) : Except Failure Bool × Peer :=
  if !p.work.node.connection.bev then (.ok false, p)
  else if p.work.node.isDisconnected then (.ok false, p)
  else
    match evbufferPullup p.input MessageHeader.kSize with
    | none => (.ok false, p)
    | some _ => parseMsgLoop envs p.input.length true p

/-- A message as it lies on the wire: a header and as many bytes as it announces. -/
structure WireMessage where
  header : MessageHeader
  payload : List Byte
  payload_length : payload.length = header.payloadLength.toNat

namespace WireMessage

def wire (m : WireMessage) : List Byte := m.header.serialize ++ m.payload

def size (m : WireMessage) : Nat := MessageHeader.kSize + m.payload.length

/-- The checks of `ParseMsg` on the header. -/
def WellFormed (magic : U32) (m : WireMessage) : Prop :=
  m.header.magic = magic ∧ m.header.payloadLength ≤ kMaxMessageSize

theorem wire_length (m : WireMessage) : m.wire.length = m.size := by
  rw [wire, List.length_append, header_length, size]

end WireMessage

theorem evbufferPullup_append {a : List Byte} {n : Nat} (h : a.length = n) (rest : List Byte) :
    evbufferPullup (a ++ rest) n = some a := by
  simp [evbufferPullup, ← h]

theorem evbufferPullup_eq_none {buf : List Byte} {n : Nat} :
    evbufferPullup buf n = none ↔ buf.length < n := by
  simp [evbufferPullup]

theorem evbufferPullup_eq_some {buf raw : List Byte} {n : Nat} :
    evbufferPullup buf n = some raw ↔ n ≤ buf.length ∧ raw = buf.take n := by
  simp [evbufferPullup, eq_comm]

/-- A payload of no bytes is always there. -/
theorem pullup_payload (input : List Byte) (len : U32) :
    (if 0 < len then evbufferPullup input len.toNat else some []) =
      evbufferPullup input len.toNat := by
  by_cases h : 0 < len
  · rw [if_pos h]
  · have hzero : len.toNat = 0 := by
      simpa [BitVec.lt_def] using h
    rw [if_neg h, hzero]
    simp [evbufferPullup]

/-- The buffer starts with the header `raw`, which `ParseMsg` accepts, and its payload. -/
structure Front (env : Env) (raw : List Byte) (p : Peer) (payload rest : List Byte) : Prop where
  size : (headerOfRaw env.memory raw).payloadLength ≤ kMaxMessageSize
  magic : (headerOfRaw env.memory raw).magic = env.msgMagic
  length : payload.length = (headerOfRaw env.memory raw).payloadLength.toNat
  input : p.input.drop MessageHeader.kSize = payload ++ rest

theorem parseMsgPass_front {env : Env} {raw payload rest : List Byte} {p : Peer}
    (h : Front env raw p payload rest) :
    parseMsgPass env raw p =
      match parseMsgData env (headerOfRaw env.memory raw) payload p.work with
      | (.ok ret, work) => (.parsed ret, ⟨work, rest⟩)
      | (.error failure, work) => (.raised failure, ⟨work, payload ++ rest⟩) := by
  rw [parseMsgPass, evbufferDrain, h.input, pullup_payload, ← h.length,
    evbufferPullup_append rfl, evbufferDrain, List.drop_left]
  simp only [if_neg (BitVec.not_lt.mpr h.size), if_neg (not_not.mpr h.magic)]

theorem Front.unique {env : Env} {raw payload rest payload' rest' : List Byte} {p : Peer}
    (h : Front env raw p payload rest) (h' : Front env raw p payload' rest') :
    payload = payload' :=
  (List.append_inj (h.input.symm.trans h'.input) (h.length.trans h'.length.symm)).1

/-- A pass that returns has not found a message at the front. -/
theorem Front.not_returned {env : Env} {raw payload rest : List Byte} {p p' : Peer}
    (h : Front env raw p payload rest) : parseMsgPass env raw p ≠ (.returned, p') := by
  rw [parseMsgPass_front h]
  rcases parseMsgData env (headerOfRaw env.memory raw) payload p.work with ⟨_ | _, w'⟩ <;> simp

/-- Everything a pass can come to. -/
theorem parseMsgPass_cases (env : Env) (raw : List Byte) (p : Peer) :
    (parseMsgPass env raw p = (.returned, ⟨p.work, p.input.drop MessageHeader.kSize⟩)) ∨
    (parseMsgPass env raw p =
      (.returned, ⟨(disconnect env p.work).2, p.input.drop MessageHeader.kSize⟩)) ∨
    ∃ payload rest, Front env raw p payload rest ∧
      parseMsgPass env raw p =
        match parseMsgData env (headerOfRaw env.memory raw) payload p.work with
        | (.ok ret, work) => (.parsed ret, ⟨work, rest⟩)
        | (.error failure, work) => (.raised failure, ⟨work, payload ++ rest⟩) := by
  by_cases h1 : kMaxMessageSize < (headerOfRaw env.memory raw).payloadLength
  · rw [parseMsgPass]
    simp only [if_pos h1]
    exact Or.inr (Or.inl rfl)
  by_cases h2 : (headerOfRaw env.memory raw).magic ≠ env.msgMagic
  · rw [parseMsgPass]
    simp only [if_neg h1, if_pos h2]
    exact Or.inr (Or.inl rfl)
  cases hpull : evbufferPullup (p.input.drop MessageHeader.kSize)
      (headerOfRaw env.memory raw).payloadLength.toNat with
  | none =>
    left
    rw [parseMsgPass, evbufferDrain, pullup_payload, hpull]
    simp only [if_neg h1, if_neg h2]
  | some payload =>
    rcases evbufferPullup_eq_some.mp hpull with ⟨hlen, rfl⟩
    have hfront : Front env raw p
        ((p.input.drop MessageHeader.kSize).take (headerOfRaw env.memory raw).payloadLength.toNat)
        ((p.input.drop MessageHeader.kSize).drop
          (headerOfRaw env.memory raw).payloadLength.toNat) :=
      ⟨BitVec.not_lt.mp h1, not_not.mp h2, List.length_take_of_le hlen,
        (List.take_append_drop _ _).symm⟩
    exact Or.inr (Or.inr ⟨_, _, hfront, parseMsgPass_front hfront⟩)

section WellFormed

variable {env : Env} {m : WireMessage} (h : m.WellFormed env.msgMagic)
include h

/-- A pass over a well-formed message, as much of its payload as has arrived. -/
theorem parseMsgPass_header (w : Work) (input : List Byte) :
    parseMsgPass env m.header.serialize ⟨w, m.header.serialize ++ input⟩ =
      match evbufferPullup input m.payload.length with
      | none => (.returned, ⟨w, input⟩)
      | some payload =>
        match parseMsgData env m.header payload w with
        | (.ok ret, work) => (.parsed ret, ⟨work, evbufferDrain input m.payload.length⟩)
        | (.error failure, work) => (.raised failure, ⟨work, input⟩) := by
  obtain ⟨hmagic, hsize⟩ := h
  have hdrain : evbufferDrain (m.header.serialize ++ input) MessageHeader.kSize = input := by
    rw [evbufferDrain, ← header_length m.header, List.drop_left]
  rw [parseMsgPass, headerOfRaw_serialize, hdrain, pullup_payload, m.payload_length]
  simp only [if_neg (BitVec.not_lt.mpr hsize), if_neg (not_not.mpr hmagic)]

theorem parseMsgPass_wire (w : Work) (rest : List Byte) :
    parseMsgPass env m.header.serialize ⟨w, m.wire ++ rest⟩ =
      match parseMsgData env m.header m.payload w with
      | (.ok ret, work) => (.parsed ret, ⟨work, rest⟩)
      | (.error failure, work) => (.raised failure, ⟨work, m.payload ++ rest⟩) := by
  rw [WireMessage.wire, List.append_assoc, parseMsgPass_header h,
    evbufferPullup_append rfl, evbufferDrain, List.drop_left]

end WellFormed

section Relations

variable {R : Peer → Peer → Prop} [Std.Refl R] [IsTrans Peer R]

/-- What every pass does to a peer, the loop does. -/
theorem parseMsgLoop_relates (hpass : ∀ env raw p, R p (parseMsgPass env raw p).2)
    (envs : Nat → Env) (fuel : Nat) (ret : Bool) (p : Peer) :
    R p (parseMsgLoop envs fuel ret p).2 := by
  induction fuel generalizing envs ret p with
  | zero => exact refl_of R p
  | succ fuel ih =>
    rw [parseMsgLoop]
    cases evbufferPullup p.input MessageHeader.kSize with
    | none => exact refl_of R p
    | some raw =>
      have hone := hpass (envs 0) raw p
      simp only
      rcases hrun : parseMsgPass (envs 0) raw p with ⟨r | _ | e, p'⟩ <;> rw [hrun] at hone
      · exact trans_of R hone (ih _ _ _)
      · exact hone
      · exact hone

theorem parseMsg_relates (hpass : ∀ env raw p, R p (parseMsgPass env raw p).2)
    (envs : Nat → Env) (p : Peer) : R p (parseMsg envs p).2 := by
  rw [parseMsg]
  split_ifs
  · exact refl_of R p
  · exact refl_of R p
  · cases evbufferPullup p.input MessageHeader.kSize with
    | none => exact refl_of R p
    | some raw => exact parseMsgLoop_relates hpass envs _ _ p

end Relations

/-- Every pass takes a header off the buffer. -/
theorem parseMsgPass_input (env : Env) (raw : List Byte) (p : Peer) :
    (parseMsgPass env raw p).2.input.length ≤ p.input.length - MessageHeader.kSize := by
  rcases parseMsgPass_cases env raw p with hrun | hrun | ⟨payload, rest, hfront, hrun⟩
  · rw [hrun, List.length_drop]
  · rw [hrun, List.length_drop]
  · have hlen := congrArg List.length hfront.input
    rw [List.length_drop, List.length_append] at hlen
    rw [hrun]
    rcases parseMsgData env (headerOfRaw env.memory raw) payload p.work with ⟨_ | _, w'⟩
    · simp [hlen]
    · simp only
      omega

/-- A pass moves the session by what `ParseMsgData` does, or disconnects it. -/
theorem parseMsgPass_reaches {D : Session → Action → Prop} (hD : Permissive D) {env : Env}
    {raw : List Byte} {p : Peer}
    (hdispatch : ∀ header payload, D (session p.work) (.dispatch header payload))
    (hreceive : ∀ payload rest m, Front env raw p payload rest →
      Delivers env (headerOfRaw env.memory raw) payload p.work m →
      D ((session p.work).after (.dispatch (headerOfRaw env.memory raw) payload))
        (.receive m.command))
    (hest : ∀ s command, D s (.receive command) → D (s.after (.receive command)) .establish) :
    Reaches D (session p.work) (session (parseMsgPass env raw p).2.work) := by
  rcases parseMsgPass_cases env raw p with hrun | hrun | ⟨payload, rest, hfront, hrun⟩
  · rw [hrun]
  · rw [hrun, disconnect_session]
    exact Reaches.single (hD.disconnect _) trivial
  · have hdata := parseMsgData_reaches hD (hdispatch _ payload)
      (fun m => hreceive payload rest m hfront) hest
    rw [hrun]
    rcases hresult : parseMsgData env (headerOfRaw env.memory raw) payload p.work with
      ⟨_ | _, w'⟩ <;> rw [hresult] at hdata <;> exact hdata

end Buffer

end MsgProcess
