import Btclite.Network.Checksum
import Btclite.Network.Framing
import Btclite.Network.Links
import Btclite.Network.RoundTrip
import Btclite.Network.Sizes

/-!
# Channels

What `SendMsg` writes at one end, cut into chunks of any size, and `ParseMsg`
reads at the other, where the handshake is completed. Messages without zero
bytes in their texts and with lengths of one byte reach their handlers with all
that the wire carries of them, each once and in order, exactly if no cut falls
between a header and the end of its payload.
-/

namespace Channels

open Endian Serialize Agreement Address Messages Nodes Handlers Sessions MsgProcess RoundTrip
open Framing Links Frames Effects

section Messages

variable {protocolVersion : U32} {m m' : Message}

/-- What the wire carries of a message to a peer of this protocol version. -/
def onWire (protocolVersion : U32) : Message → Message
  | .version m => .version (onWireVersion m)
  | .addr m => .addr (onWireAddr m)
  | .ping m => .ping (onWirePing { m with protocolVersion })
  | .reject m => .reject (onWireReject m)
  | m => m

/-- Both ends agree whether a ping has a nonce. -/
def Agreed (protocolVersion : U32) : Message → Prop
  | .ping m => kBip31Version ≤ m.protocolVersion ↔ kBip31Version ≤ protocolVersion
  | _ => True

/-- No text has a zero byte, and no length takes more than one byte. -/
def Plain : Message → Prop
  | .version m => 0#8 ∉ m.userAgent ∧ m.userAgent.length < 253
  | .addr m => m.addrList.length < 253
  | .inv m => m.invVects.length < 253
  | .reject m => m.message.length ≤ MessageHeader.kCommandSize ∧
      m.reason.length ≤ kMaxRejectMessageLength ∧ 0#8 ∉ m.message ∧ 0#8 ∉ m.reason
  | _ => True

/-- A message that survives the wire to a peer of this protocol version. -/
structure Parcel (protocolVersion : U32) where
  message : Message
  agreed : Agreed protocolVersion message
  plain : Plain message
  valid : message.isValid = true

theorem command_onWire (protocolVersion : U32) (m : Message) :
    (onWire protocolVersion m).command = m.command := by
  cases m <;> rfl

theorem serialize_onWire (h : Agreed protocolVersion m) :
    (onWire protocolVersion m).serialize = m.serialize := by
  cases m with
  | version v =>
    by_cases hrelay : kRelayedTxsVersion ≤ v.protocolVersion <;>
      simp [onWire, onWireVersion, Message.serialize, Version.serialize, Version.serializeHead,
        Version.serializeTail, hrelay]
  | addr m =>
    simp [onWire, onWireAddr, Message.serialize, Addr.serialize, serializeVector, List.flatMap_map]
  | ping m =>
    have hsame : kBip31Version ≤ m.protocolVersion ↔ kBip31Version ≤ protocolVersion := h
    by_cases hnonce : kBip31Version ≤ protocolVersion
    · simp [onWire, onWirePing, Message.serialize, Ping.serialize, hnonce, hsame.mpr hnonce]
    · simp [onWire, onWirePing, Message.serialize, Ping.serialize, hnonce, hsame.not.mpr hnonce]
  | reject m =>
    by_cases hdata : Reject.hasData m.message <;>
      simp [onWire, onWireReject, Message.serialize, Reject.serialize, hdata]
  | _ => rfl

theorem isValid_onWire (h : Agreed protocolVersion m) :
    (onWire protocolVersion m).isValid = m.isValid := by
  cases m with
  | addr m => simp [onWire, onWireAddr, Message.isValid, Addr.isValid]
  | ping m =>
    have hsame : kBip31Version ≤ m.protocolVersion ↔ kBip31Version ≤ protocolVersion := h
    by_cases hnonce : kBip31Version ≤ protocolVersion
    · have hold := BitVec.not_lt.mpr hnonce
      have hold' := BitVec.not_lt.mpr (hsame.mpr hnonce)
      simp [onWire, onWirePing, Message.isValid, Ping.isValid, hnonce, hold, hold']
    · have hold := BitVec.not_le.mp hnonce
      have hold' := BitVec.not_le.mp (hsame.not.mpr hnonce)
      simp [onWire, onWirePing, Message.isValid, Ping.isValid, hnonce, hold, hold']
  | reject m =>
    by_cases hdata : Reject.hasData m.message <;>
      simp [onWire, onWireReject, Message.isValid, Reject.isValid, hdata]
  | _ => rfl

/-- What is read for a message: it agrees on all that the wire carries. -/
structure Arrives (protocolVersion : U32) (m m' : Message) : Prop where
  agreed : Agreed protocolVersion m'
  same : onWire protocolVersion m' = onWire protocolVersion m

theorem Arrives.command (h : Arrives protocolVersion m m') : m'.command = m.command := by
  rw [← command_onWire protocolVersion m, ← command_onWire protocolVersion m', h.same]

theorem Arrives.serialize (h : Arrives protocolVersion m m') (hm : Agreed protocolVersion m) :
    m'.serialize = m.serialize := by
  rw [← serialize_onWire h.agreed, h.same, serialize_onWire hm]

theorem Arrives.isValid (h : Arrives protocolVersion m m') (hm : Agreed protocolVersion m) :
    m'.isValid = m.isValid := by
  rw [← isValid_onWire h.agreed, h.same, isValid_onWire hm]

/-- A reader that brings a message back, as a link of the chain of decoders. -/
theorem arrives_of_roundTrips {A : Type} {read : Deserializer A} {write : A → List Byte}
    {wire : A → A} {f : A → Message} {a : A} (h : RoundTrips read write wire a)
    (hwire : ∀ b, onWire protocolVersion (f b) = f (wire b))
    (hagreed : ∀ b, Agreed protocolVersion (f b)) (memory : Memory) :
    ∃ m' s', (f <$> read) ⟨write a, memory, false⟩ = .ok m' s' ∧
      Arrives protocolVersion (f a) m' := by
  obtain ⟨b, s', hrun, hsame, -⟩ := h [] memory false
  rw [List.append_nil] at hrun
  refine ⟨f b, s', map_ok_iff.mpr ⟨b, hrun, rfl⟩, hagreed b, ?_⟩
  rw [hwire, hwire, hsame]

theorem ping_arrives {m : Ping} (h : Agreed protocolVersion (.ping m)) (memory : Memory) :
    ∃ m' s', (Message.ping <$> Ping.deserialize { nonce := 0, protocolVersion })
        ⟨m.serialize, memory, false⟩ = .ok m' s' ∧ Arrives protocolVersion (.ping m) m' := by
  obtain ⟨b, s', hrun, hsame, -⟩ := ping_roundTrips { m with protocolVersion } [] memory false
  have hwrite : Ping.serialize { m with protocolVersion } = m.serialize := by
    have hiff : kBip31Version ≤ m.protocolVersion ↔ kBip31Version ≤ protocolVersion := h
    simp only [Ping.serialize, hiff]
  have hversion : b.protocolVersion = protocolVersion := Checksum.ping_protocolVersion hrun
  rw [List.append_nil, hwrite] at hrun
  refine ⟨.ping b, s', map_ok_iff.mpr ⟨b, hrun, rfl⟩, ?_, ?_⟩
  · exact iff_of_eq (congrArg (kBip31Version ≤ ·) hversion)
  · have hself : { b with protocolVersion } = b := by rw [← hversion]
    rw [onWire, onWire, hself, hsame]

/-- A message that survives the wire is read by its decoder. -/
theorem Parcel.decodes (p : Parcel protocolVersion) (memory : Memory) :
    ∃ decode, Message.decoder p.message.command protocolVersion = some decode ∧
      ∃ m' s', decode ⟨p.message.serialize, memory, false⟩ = .ok m' s' ∧
        Arrives protocolVersion p.message m' := by
  obtain ⟨m, hagreed, hplain, -⟩ := p
  have hempty : ∀ m : Message, Agreed protocolVersion m → ∃ m' s',
      (pure m : Deserializer Message) ⟨[], memory, false⟩ = .ok m' s' ∧
        Arrives protocolVersion m m' := fun m hm => ⟨m, _, rfl, hm, rfl⟩
  cases m with
  | version v =>
    have hcap : v.userAgent.length ≤ kMaxSubVersionSize := by
      have hlt := hplain.2
      simp only [kMaxSubVersionSize]
      omega
    exact ⟨_, rfl, arrives_of_roundTrips (f := .version)
      ((version_roundTrips_iff v hcap).mpr hplain) (fun _ => rfl) (fun _ => trivial) memory⟩
  | verack => exact ⟨_, rfl, hempty _ trivial⟩
  | addr m =>
    exact ⟨_, rfl, arrives_of_roundTrips (f := .addr) ((addr_roundTrips_iff m).mpr hplain)
      (fun _ => rfl) (fun _ => trivial) memory⟩
  | inv m =>
    exact ⟨_, rfl, arrives_of_roundTrips (f := .inv) ((inv_roundTrips_iff m).mpr hplain)
      (fun _ => rfl) (fun _ => trivial) memory⟩
  | getaddr => exact ⟨_, rfl, hempty _ trivial⟩
  | ping m => exact ⟨_, rfl, ping_arrives hagreed memory⟩
  | pong m =>
    exact ⟨_, rfl, arrives_of_roundTrips (f := .pong) (pong_roundTrips m)
      (fun _ => rfl) (fun _ => trivial) memory⟩
  | reject m =>
    obtain ⟨hmessage, hreason, hzeros⟩ := hplain
    exact ⟨_, rfl, arrives_of_roundTrips (f := .reject)
      ((reject_roundTrips_iff m hmessage hreason).mpr hzeros)
      (fun _ => rfl) (fun _ => trivial) memory⟩
  | sendheaders => exact ⟨_, rfl, hempty _ trivial⟩
  | sendcmpct m =>
    exact ⟨_, rfl, arrives_of_roundTrips (f := .sendcmpct) (sendCmpct_roundTrips m)
      (fun _ => rfl) (fun _ => trivial) memory⟩

end Messages

section Framed

variable {protocolVersion : U32}

theorem sum_map_const {A : Type} {f : A → Nat} {c : Nat} (h : ∀ a, f a = c) (l : List A) :
    (l.map f).sum = l.length * c := by
  rw [List.map_congr_left fun a _ => h a, List.map_const', List.sum_replicate, nsmul_eq_mul,
    Nat.cast_id]

theorem Plain.size_lt {m : Message} (h : Plain m) : m.serializedSize < 10000 := by
  have hone : ∀ n, n < 253 → varIntSize n = 1 := fun n hn => if_pos hn
  have haddr : ∀ a : NetAddr, a.serializedSize = 30 := fun _ => rfl
  cases m with
  | version v =>
    have hlt : v.userAgent.length < 253 := h.2
    simp only [Message.serializedSize, Version.serializedSize, hone _ hlt, haddr]
    split_ifs <;> omega
  | addr m =>
    have hlt : m.addrList.length < 253 := h
    simp only [Message.serializedSize, Addr.serializedSize, hone _ hlt, sum_map_const haddr]
    omega
  | inv m =>
    have hlt : m.invVects.length < 253 := h
    simp only [Message.serializedSize, Inv.serializedSize, hone _ hlt,
      sum_map_const (f := InvVect.serializedSize) (c := 36) fun _ => rfl]
    omega
  | ping m =>
    simp only [Message.serializedSize, Ping.serializedSize]
    split_ifs <;> omega
  | reject m =>
    obtain ⟨hmessage, hreason, -⟩ := h
    simp only [MessageHeader.kCommandSize, kMaxRejectMessageLength] at hmessage hreason
    simp only [Message.serializedSize, Reject.serializedSize, hone m.message.length (by omega),
      hone m.reason.length (by omega)]
    split_ifs <;> omega
  | _ =>
    simp only [Message.serializedSize, Pong.serializedSize, SendCmpct.serializedSize]
    omega

theorem Plain.length_eq {m : Message} (h : Plain m) :
    m.serialize.length = m.serializedSize := by
  refine (Sizes.length_iff ?_).mpr ?_
  · cases m with
    | addr m => exact Nat.lt_trans h (by decide)
    | inv m => exact Nat.lt_trans h (by decide)
    | _ => trivial
  · cases m with
    | version v =>
      have hlt : v.userAgent.length < 253 := h.2
      simp only [Sizes.Uncut, kMaxSubVersionSize]
      omega
    | reject m => exact ⟨h.1, h.2.1⟩
    | _ => trivial

/-- The message as `SendMsg` writes it. -/
def frame (env : Env) (p : Parcel protocolVersion) : WireMessage where
  header := headerOf env p.message
  payload := p.message.serialize
  payload_length := by
    have hless := p.plain.size_lt
    change _ = (BitVec.ofNat 32 p.message.serializedSize).toNat
    rw [p.plain.length_eq, BitVec.toNat_ofNat, Nat.mod_eq_of_lt (by omega)]

theorem command_known (m : Message) : m.command ∈ knownCommands := by
  cases m <;> simp [Message.command, knownCommands]

/-- Every command fits its field and is read back from it. -/
theorem command_headerOf (env : Env) (m : Message) : (headerOf env m).command = m.command := by
  have hfits : ∀ c ∈ knownCommands, (c.take 12).takeWhile (· ≠ 0#8) = c := by decide
  exact (MessageHeader.command_setCommand (headerOf env m) m.command).trans
    (hfits _ (command_known m))

theorem frame_wellFormed (env : Env) (p : Parcel protocolVersion) :
    (frame env p).WellFormed env.msgMagic := by
  refine ⟨rfl, ?_⟩
  have hless := p.plain.size_lt
  change BitVec.ofNat 32 p.message.serializedSize ≤ kMaxMessageSize
  rw [BitVec.le_def, BitVec.toNat_ofNat, Nat.mod_eq_of_lt (by omega)]
  have hmax : kMaxMessageSize.toNat = 4000000 := rfl
  omega

/-- The magic of one of the three networks. -/
def Networked (magic : U32) : Prop :=
  magic = kMainnetMagic ∨ magic = kTestnetMagic ∨ magic = kRegtestMagic

theorem headerOf_isValid {env : Env} (hmagic : Networked env.msgMagic)
    (p : Parcel protocolVersion) : (headerOf env p.message).isValid 0 = true := by
  have hlength := (frame_wellFormed env p).2
  have hknown : knownCommands.contains (headerOf env p.message).command = true := by
    rw [command_headerOf, List.contains_iff_mem]
    exact command_known p.message
  have hnone : ¬ ((0 : U32) = kMainnetMagic ∨ (0 : U32) = kTestnetMagic ∨
      (0 : U32) = kRegtestMagic) := by decide
  have hnet : (env.msgMagic == kMainnetMagic || env.msgMagic == kTestnetMagic ||
      env.msgMagic == kRegtestMagic) = true := by
    rcases hmagic with h | h | h <;> simp [h]
  rw [MessageHeader.isValid, if_neg hnone, hknown]
  exact Bool.and_eq_true_iff.mpr ⟨Bool.and_eq_true_iff.mpr ⟨hnet, rfl⟩, decide_eq_true hlength⟩

end Framed

section Receiving

variable {protocolVersion : U32}

/-- The handshake is completed at this protocol version, and the socket is there. -/
structure Settled (protocolVersion : U32) (w : Work) : Prop where
  bev : w.node.connection.bev = true
  version : w.node.protocolVersion = protocolVersion
  state : w.node.connection.connectionState = .kEstablished

theorem Settled.connected {w : Work} (h : Settled protocolVersion w) :
    w.node.isDisconnected = false := by
  simp [Node.isDisconnected, NodeConnection.isDisconnected, h.state]

theorem Settled.of_session {w w' : Work} (h : Settled protocolVersion w)
    (hbev : (session w').bev = (session w).bev)
    (hversion : (session w').protocolVersion = (session w).protocolVersion)
    (hstate : (session w').state = (session w).state) : Settled protocolVersion w' :=
  ⟨hbev.trans h.bev, hversion.trans h.version, hstate.trans h.state⟩

/-- No handler takes a settled connection out of that state. -/
theorem recvHandler_settled (env : Env) (m : Message) {w : Work} (hpv : protocolVersion ≠ 0)
    (h : Settled protocolVersion w) : Settled protocolVersion (recvHandler env m w).2 := by
  have hleaves : ∀ {k : Handler Bool}, Does Leaves k → Settled protocolVersion (k w).2 := by
    intro k hk
    have hsame : session (k w).2 = session w := hk w
    exact h.of_session (congrArg _ hsame) (congrArg _ hsame) (congrArg _ hsame)
  cases m with
  | version v =>
    have hsame := versionRecvHandler_session env v w
    rw [if_pos (by rw [h.version]; exact hpv)] at hsame
    exact h.of_session (congrArg _ hsame) (congrArg _ hsame) (congrArg _ hsame)
  | verack =>
    have hsame : session (recvHandler env .verack w).2 = (session w).after .establish :=
      verackRecvHandler_session env w
    have hstate : (session (recvHandler env .verack w).2).state = .kEstablished :=
      congrArg Session.state hsame
    refine h.of_session ?_ ?_ (hstate.trans h.state.symm)
    · rw [hsame]
      rfl
    · rw [hsame]
      rfl
  | _ => exact hleaves (recvHandler_leaves env nofun nofun)

variable (E : Env → Prop) (sender : Env)

/-- One handler after another: a message is noted as dispatched, counts as received with the
handshake completed, and its handler is run on what arrives of it. -/
inductive Handled : Work → List (Parcel protocolVersion) → Work → Prop
  | nil (w : Work) : Handled w [] w
  | cons {w w₁ w' : Work} {p : Parcel protocolVersion} {ps : List (Parcel protocolVersion)}
      {env : Env} {m : Message} (henv : E env) (harrives : Arrives protocolVersion p.message m)
      (hnode : w₁.node = w.node)
      (hnoted : session w₁ = (session w).after
        (.dispatch (headerOf sender p.message) p.message.serialize))
      (hrest : Handled
        (recvHandler env m (emit (.received p.message.command .kEstablished) w₁).2).2 ps w') :
      Handled w (p :: ps) w'

variable {E sender}

theorem Handled.append {w w' w'' : Work} {ps qs : List (Parcel protocolVersion)}
    (h : Handled E sender w ps w') (h' : Handled E sender w' qs w'') :
    Handled E sender w (ps ++ qs) w'' := by
  induction h with
  | nil w => exact h'
  | cons henv harrives hnode hnoted _ ih => exact .cons henv harrives hnode hnoted (ih h')

/-- The receiver hashes as the sender does, on the same network. -/
def Shared (sender env : Env) : Prop := env.sha256 = sender.sha256 ∧ env.msgMagic = sender.msgMagic

/-- A message that survives the wire gets through to its handler. -/
theorem parseMsgData_handled (hE : ∀ env, E env → Shared sender env)
    (hmagic : Networked sender.msgMagic) (hpv : protocolVersion ≠ 0)
    (p : Parcel protocolVersion) {env : Env} (henv : E env) {w : Work}
    (hw : Settled protocolVersion w) :
    ∃ ret w', parseMsgData env (frame sender p).header (frame sender p).payload w = (.ok ret, w') ∧
      Settled protocolVersion w' ∧ Handled E sender w [p] w' := by
  obtain ⟨decode, hdecoder, m, s, hrun, harrives⟩ := p.decodes env.memory
  have hdecoded : decoded env (headerOf sender p.message) p.message.serialize w.node =
      some (.ok m s) := by
    rw [decoded, headerOf_isValid hmagic p, command_headerOf, hw.version, hdecoder]
    exact congrArg some hrun
  obtain ⟨w₁, hnode, hnoted, hcases⟩ :=
    parseMsgData_cases env (headerOf sender p.message) p.message.serialize w
  have hw₁ : Settled protocolVersion w₁ := by
    obtain ⟨hbev, hversion, hstate⟩ := hw
    rw [← hnode] at hbev hversion hstate
    exact ⟨hbev, hversion, hstate⟩
  rcases hcases with ⟨hnone, -⟩ | ⟨failure, s', herror, -⟩ | ⟨m', s', hok, hdata⟩
  · rw [hdecoded] at hnone
    cases hnone
  · rw [hdecoded] at herror
    cases herror
  · rw [hdecoded] at hok
    cases hok
    have hadmitted : Admitted env (headerOf sender p.message) m w₁ := by
      refine ⟨?_, (harrives.isValid p.agreed).trans p.valid, ?_⟩
      · rw [harrives.serialize p.agreed, checksum, (hE env henv).1]
        rfl
      · refine (checkMisbehaving_iff m.command w₁).mpr (.inr ⟨?_, .inr hw₁.state⟩)
        exact fun hzero => hpv (hw₁.version.symm.trans hzero)
    have hhandler := handleMsgData_of_admitted hadmitted
    rw [hw₁.state, harrives.command] at hhandler
    refine ⟨_, _, hdata, ?_, .cons henv harrives hnode hnoted ?_⟩
    · rw [hhandler]
      exact recvHandler_settled env m hpv ⟨hw₁.bev, hw₁.version, hw₁.state⟩
    · rw [hhandler]
      exact .nil _

end Receiving

section Carrying

variable {E : Env → Prop} {Q : Work → List WireMessage → Prop}

/-- What is said of a node and of the messages still to come, and is carried on by each. -/
structure Carried (E : Env → Prop) (Q : Work → List WireMessage → Prop) : Prop where
  connected : ∀ w ms, Q w ms → w.node.isDisconnected = false
  bev : ∀ w ms, Q w ms → w.node.connection.bev = true
  step : ∀ w m ms env, Q w (m :: ms) → E env →
    ∃ ret w', parseMsgData env m.header m.payload w = (.ok ret, w') ∧ Q w' ms

theorem Carried.quiet (hQ : Carried E Q) {w : Work} {ms : List WireMessage} (h : Q w ms) :
    Quiet E w ms := by
  induction ms generalizing w with
  | nil => exact hQ.connected w [] h
  | cons m ms ih =>
    refine ⟨hQ.connected w _ h, fun env henv => ?_⟩
    obtain ⟨ret, w', hrun, h'⟩ := hQ.step w m ms env h henv
    exact ⟨ret, w', hrun, ih h'⟩

variable {magic : U32} {ms : List WireMessage} {w : Work}

theorem parseMsgLoop_carries (hQ : Carried E Q) (hE : ∀ env, E env → env.msgMagic = magic)
    (hwf : ∀ m ∈ ms, m.WellFormed magic) {envs : Nat → Env} (henvs : ∀ i, E (envs i)) {fuel : Nat}
    {ret : Bool} {input : List Byte} (hfuel : input.length ≤ fuel) (hin : input <+: wire ms)
    (h : Q w ms) :
    Q (parseMsgLoop envs fuel ret ⟨w, input⟩).2.work (arrived ms input).rest := by
  induction ms generalizing fuel ret envs w input with
  | nil =>
    obtain rfl : input = [] := List.prefix_nil.mp hin
    rw [parseMsgLoop_short (p := ⟨w, []⟩) (Nat.zero_lt_succ _)]
    exact h
  | cons m ms ih =>
    by_cases hshort : input.length < MessageHeader.kSize
    · rw [parseMsgLoop_short hshort, arrived_of_short hshort]
      exact h
    have hm : m.WellFormed (envs 0).msgMagic := by
      rw [hE _ (henvs 0)]
      exact hwf m List.mem_cons_self
    have hkSize : MessageHeader.kSize = 24 := rfl
    obtain ⟨fuel, rfl⟩ : ∃ n, fuel = n + 1 := ⟨fuel - 1, by omega⟩
    rcases prefix_wire_cases hin (not_lt.mp hshort) with ⟨rest, rfl, hrest⟩ | ⟨got, rfl, hgot⟩
    · obtain ⟨r, w', hrun, h'⟩ := hQ.step w m ms (envs 0) h (henvs 0)
      have hlen : rest.length ≤ fuel := by
        have hsize := size_ge m
        rw [List.length_append, m.wire_length] at hfuel
        omega
      rw [parseMsgLoop_wire hm hrun, arrived_cons]
      exact ih (fun m' hm' => hwf m' (List.mem_cons_of_mem _ hm')) (fun i => henvs (i + 1)) hlen
        hrest h'
    · rw [parseMsgLoop_header hm hgot, arrived_of_header hgot]
      exact h

/-- One call takes what has arrived, and carries on with the rest. -/
theorem parseMsg_carries (hQ : Carried E Q) (hE : ∀ env, E env → env.msgMagic = magic)
    (hwf : ∀ m ∈ ms, m.WellFormed magic) {envs : Nat → Env} (henvs : ∀ i, E (envs i))
    {input : List Byte} (hin : input <+: wire ms) (h : Q w ms) :
    Q (parseMsg envs ⟨w, input⟩).2.work (arrived ms input).rest := by
  rw [parseMsg, if_neg (by simp [hQ.bev w ms h]), if_neg (by simp [hQ.connected w ms h])]
  cases hpull : evbufferPullup input MessageHeader.kSize with
  | none =>
    rw [arrived_of_short (evbufferPullup_eq_none.mp hpull)]
    exact h
  | some raw => exact parseMsgLoop_carries hQ hE hwf henvs le_rfl hin h

theorem feed_carries (hQ : Carried E Q) (hE : ∀ env, E env → env.msgMagic = magic)
    (hwf : ∀ m ∈ ms, m.WellFormed magic) {envs : Nat → Nat → Env} (henvs : ∀ i j, E (envs i j))
    {part : List Byte} {cs : List (List Byte)} (hpart : part.length < MessageHeader.kSize)
    (hin : part ++ cs.flatten <+: wire ms) (hclean : CutsClean ms part cs) (h : Q w ms) :
    Q (feed envs cs ⟨w, part⟩).work (arrived ms (part ++ cs.flatten)).rest := by
  induction cs generalizing ms envs w part with
  | nil =>
    rw [List.flatten_nil, List.append_nil, arrived_of_short hpart]
    exact h
  | cons c cs ih =>
    obtain ⟨hfirst, hrest⟩ := cutsClean_cons.mp hclean
    rw [List.flatten_cons, ← List.append_assoc] at hin ⊢
    have hin' : part ++ c <+: wire ms := (List.prefix_append _ _).trans hin
    have hq := parseMsg_carries hQ hE hwf (henvs 0) hin' h
    have hfollows := parseMsg_follows hE hwf (henvs 0) hin' (hQ.quiet h) (hQ.bev w ms h)
    have hinput := hfollows.input
    rw [leftover, if_pos hfirst] at hinput
    have hms : (arrived ms (part ++ c)).done ++ (arrived ms (part ++ c)).rest = ms :=
      done_append_rest ms (part ++ c)
    have hall : (arrived ms (part ++ c ++ cs.flatten)).rest =
        (arrived (arrived ms (part ++ c)).rest
          ((arrived ms (part ++ c)).part ++ cs.flatten)).rest := by
      rw [arrived, progress_append]
      rfl
    rw [feed, hall]
    generalize (parseMsg (envs 0) ⟨w, part ++ c⟩).2 = r at hq hinput ⊢
    obtain ⟨work, input⟩ := r
    cases hinput
    have hpart := part_append_prefix WireMessage.wire_length hin
    exact ih (fun m hm => hwf m (hms ▸ List.mem_append_right _ hm)) (fun i => henvs (i + 1)) hfirst
      hpart hrest hq

end Carrying

section Delivery

variable {protocolVersion : U32} {E : Env → Prop} {sender : Env} {w : Work}

theorem arrived_wire (ms : List WireMessage) : arrived ms (wire ms) = ⟨ms, [], []⟩ := by
  induction ms with
  | nil => rfl
  | cons m ms ih =>
    have hcons : wire (m :: ms) = m.wire ++ wire ms := List.flatMap_cons
    rw [hcons, arrived_cons, ih]

/-- Some of the parcels were handled, and the others are still to come. -/
def Progressed (E : Env → Prop) (sender : Env) (w₀ : Work) (ps : List (Parcel protocolVersion))
    (w : Work) (ms : List WireMessage) : Prop :=
  Settled protocolVersion w ∧ ∃ done rest, ps = done ++ rest ∧ ms = rest.map (frame sender) ∧
    Handled E sender w₀ done w

theorem progressed_carried (hE : ∀ env, E env → Shared sender env)
    (hmagic : Networked sender.msgMagic) (hpv : protocolVersion ≠ 0) (w₀ : Work)
    (ps : List (Parcel protocolVersion)) : Carried E (Progressed E sender w₀ ps) where
  connected _ _ h := h.1.connected
  bev _ _ h := h.1.bev
  step w m ms env h henv := by
    obtain ⟨hw, done, rest, rfl, hms, hdone⟩ := h
    cases rest with
    | nil => cases hms
    | cons p rest =>
      rw [List.map_cons, List.cons.injEq] at hms
      obtain ⟨rfl, rfl⟩ := hms
      obtain ⟨ret, w', hrun, hw', hone⟩ := parseMsgData_handled hE hmagic hpv p henv hw
      exact ⟨ret, w', hrun, hw', done ++ [p], rest, by simp, rfl, hdone.append hone⟩

/-- What is handled was dispatched, and leaves the connection as it is. -/
theorem Handled.spec {w' : Work} {ps : List (Parcel protocolVersion)} (hpv : protocolVersion ≠ 0)
    (h : Handled E sender w ps w') (hw : Settled protocolVersion w) :
    Settled protocolVersion w' ∧
      dispatches w'.log = dispatches w.log ++ pairs (ps.map (frame sender)) := by
  induction h with
  | nil w => exact ⟨hw, by simp [pairs]⟩
  | @cons w w₁ w' p ps env m henv harrives hnode hnoted hrest ih =>
    have hw₁ : Settled protocolVersion w₁ := by
      obtain ⟨hbev, hversion, hstate⟩ := hw
      rw [← hnode] at hbev hversion hstate
      exact ⟨hbev, hversion, hstate⟩
    have hw₂ : Settled protocolVersion
        (emit (.received p.message.command .kEstablished) w₁).2 := ⟨hw₁.bev, hw₁.version, hw₁.state⟩
    have hlet : (session (emit (.received p.message.command .kEstablished) w₁).2).LetsIn
        m.command := .inr ⟨fun hzero => hpv (hw₁.version.symm.trans hzero), .inr hw₁.state⟩
    have hquiet : dispatches (recvHandler env m
        (emit (.received p.message.command .kEstablished) w₁).2).2.log =
          dispatches (emit (.received p.message.command .kEstablished) w₁).2.log := by
      exact dispatches_of_reaches (recvHandler_reaches (fun _ => trivial) (fun _ _ => trivial) env
        m _ hlet fun _ => trivial)
    have hfirst : dispatches w₁.log =
        dispatches w.log ++ [((frame sender p).header, (frame sender p).payload)] := by
      have hnote := dispatches_note (session w)
        (.dispatched (headerOf sender p.message) p.message.serialize)
      rw [← dispatches_session, hnoted, ← dispatches_session w]
      exact hnote
    have hreceived : dispatches (emit (.received p.message.command .kEstablished) w₁).2.log =
        dispatches w₁.log := by
      simp [emit, dispatches, dispatched?]
    obtain ⟨hw', hlog⟩ := ih (recvHandler_settled env m hpv hw₂)
    refine ⟨hw', ?_⟩
    rw [hlog, hquiet, hreceived, hfirst]
    simp [pairs]

/-- `SendMsg` of one message after another. -/
def sendAll (env : Env) : List (Parcel protocolVersion) → Handler Unit
  | [] => pure ()
  | p :: ps => do
    let _ ← sendMsg env p.message
    sendAll env ps

theorem sendMsg_log (p : Parcel protocolVersion) (hwritten : sender.written p.message = true)
    (hbev : w.node.connection.bev = true) :
    (sendMsg sender p.message w).2.log = w.log ++ [.sent (headerOf sender p.message) p.message] ∧
      (sendMsg sender p.message w).2.node.connection.bev = true := by
  have hsize : ((headerOf sender p.message).serialize ++ p.message.serialize).length =
      MessageHeader.kSize + p.message.serializedSize :=
    (Sizes.framed_length_iff _ _ _).mpr p.plain.length_eq
  simp only [sendMsg, bind, StateT.bind, getNode, hbev, Bool.not_true, Bool.false_eq_true,
    if_false, setConnection, setNode, ne_eq, hsize, not_true_eq_false, hwritten, emit]
  exact ⟨rfl, rfl⟩

/-- All that is written. -/
theorem sendAll_written (hwritten : ∀ m, sender.written m = true)
    (hbev : w.node.connection.bev = true) (ps : List (Parcel protocolVersion)) :
    (sendAll sender ps w).2.log.flatMap writtenBy =
      w.log.flatMap writtenBy ++ wire (ps.map (frame sender)) := by
  induction ps generalizing w with
  | nil => exact (List.append_nil _).symm
  | cons p ps ih =>
    obtain ⟨hlog, hbev'⟩ := sendMsg_log p (hwritten p.message) hbev
    refine (ih hbev').trans ?_
    rw [hlog]
    simp [wire, frame, writtenBy, WireMessage.wire]

/-- Messages sent to a peer whose handshake is completed are handled there each once and in
order, and nothing is left in its buffer, if and only if no chunk ends between the end of a
header and the end of its payload. -/
theorem delivered_iff (hE : ∀ env, E env → Shared sender env) (hmagic : Networked sender.msgMagic)
    (hwritten : ∀ m, sender.written m = true) (hpv : protocolVersion ≠ 0) {s : Work}
    (hbev : s.node.connection.bev = true) (hw : Settled protocolVersion w)
    (ps : List (Parcel protocolVersion)) {envs : Nat → Nat → Env} (henvs : ∀ i j, E (envs i j))
    {cs : List (List Byte)} (hcs : s.log.flatMap writtenBy ++ cs.flatten =
      (sendAll sender ps s).2.log.flatMap writtenBy) :
    (Handled E sender w ps (feed envs cs ⟨w, []⟩).work ∧ (feed envs cs ⟨w, []⟩).input = []) ↔
      CutsClean (ps.map (frame sender)) [] cs := by
  have hbytes : cs.flatten = wire (ps.map (frame sender)) := by
    rw [sendAll_written hwritten hbev] at hcs
    exact List.append_cancel_left hcs
  have hmagics : ∀ env, E env → env.msgMagic = sender.msgMagic := fun env henv => (hE env henv).2
  have hwf : ∀ m ∈ ps.map (frame sender), m.WellFormed sender.msgMagic := by
    intro m hm
    obtain ⟨p, -, rfl⟩ := List.mem_map.mp hm
    exact frame_wellFormed sender p
  have hcarried := progressed_carried (E := E) hE hmagic hpv w ps
  have hstart : Progressed E sender w ps w (ps.map (frame sender)) :=
    ⟨hw, [], ps, rfl, rfl, .nil w⟩
  have hin : [] ++ cs.flatten <+: wire (ps.map (frame sender)) := by rw [List.nil_append, hbytes]
  have hall : arrived (ps.map (frame sender)) ([] ++ cs.flatten) =
      ⟨ps.map (frame sender), [], []⟩ := by
    rw [List.nil_append, hbytes, arrived_wire]
  have hpart : ([] : List Byte).length < MessageHeader.kSize := Nat.zero_lt_succ _
  have hiff := feed_framed_iff hmagics hwf henvs hpart hin (hcarried.quiet hstart) hw.bev
  rw [hall] at hiff
  constructor
  · rintro ⟨hhandled, hinput⟩
    exact hiff.mp ⟨(hhandled.spec hpv hw).2, hinput⟩
  · intro hclean
    obtain ⟨hend, done, rest, rfl, hrest, hdone⟩ :=
      hall ▸ feed_carries hcarried hmagics hwf henvs hpart hin hclean hstart
    obtain rfl : rest = [] := List.map_eq_nil_iff.mp hrest.symm
    rw [List.append_nil]
    exact ⟨hdone, (hiff.mpr hclean).2⟩

/-- A ping and a `sendheaders`. -/
def pair : List (Parcel kProtocolVersion) :=
  [⟨.ping { nonce := 5 }, Iff.rfl, trivial, by decide⟩, ⟨.sendheaders, trivial, trivial, rfl⟩]

/-- A peer with which the handshake is completed. -/
def settledPeer : Work :=
  ⟨{ initializeNode 1 {} true false 1 with
    protocolVersion := kProtocolVersion
    connection := { addr := {}, connectionState := .kEstablished } }, []⟩

theorem settledPeer_settled : Settled kProtocolVersion settledPeer := ⟨rfl, rfl, rfl⟩

/-- Both messages in one chunk. -/
def pairChunks : List (List Byte) := [wire (pair.map (frame (.alone default)))]

theorem pairChunks_clean : CutsClean (pair.map (frame (.alone default))) [] pairChunks := by
  refine cutsClean_cons.mpr ⟨?_, fun p hp hpre => absurd (List.prefix_nil.mp hpre) hp⟩
  rw [List.nil_append, arrived_wire]
  exact Nat.zero_lt_succ _

theorem delivered_iff_pair :
    Handled (· = .alone default) (.alone default) settledPeer pair
        (feed (fun _ _ => .alone default) pairChunks ⟨settledPeer, []⟩).work ∧
      (feed (fun _ _ => .alone default) pairChunks ⟨settledPeer, []⟩).input = [] := by
  refine (delivered_iff (E := (· = .alone default)) (s := Work.inbound) ?_
    (.inr (.inl rfl)) (fun _ => rfl) (by decide) rfl settledPeer_settled pair
    (fun _ _ => rfl) ?_).mpr pairChunks_clean
  · rintro env rfl
    exact ⟨rfl, rfl⟩
  · rw [sendAll_written (fun _ => rfl) rfl pair, pairChunks, List.flatten_singleton]

end Delivery

end Channels
