import Btclite.Library.Runs
import Btclite.Network.Handlers

/-!
# Sessions

What a session with a peer is for: a version is accepted, then the connection is
established, and from then on the other messages reach their handlers. A session
keeps the protocol version, the connection state and those events that tell of
messages and states. Every handler moves the session of its node by at most one
action, named here.
-/

namespace Sessions

open Serialize Messages Nodes Handlers Effects Runs

structure Session where
  isInbound : Bool
  localHostNonce : U64
  bev : Bool
  protocolVersion : U32
  state : ConnectionState
  trace : List Event

def session (w : Work) : Session where
  isInbound := w.node.isInbound
  localHostNonce := w.node.localHostNonce
  bev := w.node.connection.bev
  protocolVersion := w.node.protocolVersion
  state := w.node.connection.connectionState
  trace := w.log.filter fun e => !e.isPlain

theorem isDisconnected_iff (w : Work) :
    w.node.isDisconnected = true ↔ (session w).state = .kDisconnected := by
  simp [Node.isDisconnected, NodeConnection.isDisconnected, session]

inductive Action where
  | dispatch (header : MessageHeader) (payload : List Endian.Byte)
  | refuse (command : List Endian.Byte)
  | receive (command : List Endian.Byte)
  | disconnect
  | accept (protocolVersion : U32)
  | establish

namespace Session

def note (s : Session) (e : Event) : Session := { s with trace := s.trace ++ [e] }

/-- Version messages are always let in, others once a version is accepted, and those
other than verack once the connection is established. -/
def LetsIn (s : Session) (command : List Endian.Byte) : Prop :=
  command = kMsgVersion ∨
    s.protocolVersion ≠ 0 ∧ (command = kMsgVerack ∨ s.state = .kEstablished)

def Enabled (s : Session) : Action → Prop
  | .receive command => s.LetsIn command
  | .accept v => s.protocolVersion = 0 ∧ kMinPeerProtoVersion ≤ v
  | .establish => s.protocolVersion ≠ 0
  | .dispatch _ _ | .refuse _ | .disconnect => True

def after (s : Session) : Action → Session
  | .dispatch header payload => s.note (.dispatched header payload)
  | .refuse command => s.note (.checksumError command)
  | .receive command => s.note (.received command s.state)
  | .disconnect => { s.note (.stateSet .kDisconnected) with state := .kDisconnected }
  | .accept v => { s.note (.versionAccepted v) with protocolVersion := v }
  | .establish => { s.note (.stateSet .kEstablished) with state := .kEstablished }

end Session

/-- Actions a disconnected session may still take. -/
def Action.isQuiet : Action → Bool
  | .receive _ | .establish => false
  | _ => true

def Session.Next (s : Session) (a : Action) (s' : Session) : Prop :=
  s.Enabled a ∧ s' = s.after a

abbrev Reaches (D : Session → Action → Prop) : Session → Session → Prop := Run Session.Next D

namespace Reaches

variable {D : Session → Action → Prop} {s s' : Session}

theorem single {a : Action} (hd : D s a) (he : s.Enabled a) : Reaches D s (s.after a) :=
  Run.single hd ⟨he, rfl⟩

/-- What no action changes, and that the trace only grows. -/
theorem frame (h : Reaches D s s') : s'.isInbound = s.isInbound ∧
    s'.localHostNonce = s.localHostNonce ∧ s'.bev = s.bev ∧ s.trace <+: s'.trace := by
  refine Run.preserves (P := fun t => t.isInbound = s.isInbound ∧
    t.localHostNonce = s.localHostNonce ∧ t.bev = s.bev ∧ s.trace <+: t.trace) ?_ h
    ⟨rfl, rfl, rfl, List.prefix_rfl⟩
  rintro t a _ ⟨h1, h2, h3, h4⟩ - ⟨-, rfl⟩
  cases a <;> exact ⟨h1, h2, h3, h4.trans (List.prefix_append _ _)⟩

end Reaches

/-! What a trace tells of one kind of event. -/

section Traces

variable {A : Type} {kind : Event → Option A}

theorem filterMap_session (hplain : ∀ e, e.isPlain = true → kind e = none) (w : Work) :
    (session w).trace.filterMap kind = w.log.filterMap kind := by
  rw [session, List.filterMap_filter]
  congr 1
  funext e
  cases he : e.isPlain with
  | false => rfl
  | true => simp [hplain e he]

theorem filterMap_note (kind : Event → Option A) (s : Session) (e : Event) :
    (s.note e).trace.filterMap kind = s.trace.filterMap kind ++ (kind e).toList := by
  cases h : kind e <;> simp [Session.note, h]

/-- The event that tells of an action. -/
def Session.event (s : Session) : Action → Event
  | .dispatch header payload => .dispatched header payload
  | .refuse command => .checksumError command
  | .receive command => .received command s.state
  | .disconnect => .stateSet .kDisconnected
  | .accept v => .versionAccepted v
  | .establish => .stateSet .kEstablished

theorem after_trace (s : Session) (a : Action) :
    (s.after a).trace = (s.note (s.event a)).trace := by
  cases a <;> rfl

theorem filterMap_of_reaches {D : Session → Action → Prop} {w w' : Work}
    (hplain : ∀ e, e.isPlain = true → kind e = none)
    (hD : ∀ s a, D s a → kind (s.event a) = none) (h : Reaches D (session w) (session w')) :
    w'.log.filterMap kind = w.log.filterMap kind := by
  rw [← filterMap_session hplain w', ← filterMap_session hplain w]
  refine Run.preserves (P := fun s =>
    s.trace.filterMap kind = (session w).trace.filterMap kind) ?_ h rfl
  rintro s a _ hs hd ⟨-, rfl⟩
  rw [after_trace, filterMap_note, hD s a hd, hs]
  simp

end Traces

section Handlers

/-- The session is left where it was. -/
abbrev Leaves (w w' : Work) : Prop := session w' = session w

instance : Std.Refl Leaves := ⟨fun _ => rfl⟩

instance : IsTrans Work Leaves := ⟨fun _ _ _ h h' => h'.trans h⟩

theorem getNode_leaves : Does Leaves getNode := fun _ => rfl

theorem setNode_leaves {f : Node → Node} (h : ∀ n log, session ⟨f n, log⟩ = session ⟨n, log⟩) :
    Does Leaves (setNode f) := fun w => h w.node w.log

theorem emit_session (e : Event) (w : Work) :
    session (emit e w).2 = if e.isPlain then session w else (session w).note e := by
  by_cases h : e.isPlain <;> simp [emit, session, Session.note, h]

theorem emit_leaves {e : Event} (h : e.isPlain) : Does Leaves (emit e) := fun w => by
  rw [Leaves, emit_session, if_pos h]

theorem pure_leaves {A : Type} (a : A) : Does Leaves (pure a : Handler A) := Does.pure a

theorem ifThen_leaves {c : Prop} [Decidable c] {m : Handler Unit} (hm : Does Leaves m) :
    Does Leaves (ifThen c m) :=
  Does.ite (fun _ => hm) fun _ => pure_leaves ()

theorem misbehaving_leaves (howmuch : U32) : Does Leaves (misbehaving howmuch) :=
  ifThen_leaves (setNode_leaves fun _ _ => rfl)

theorem disconnectNodeCb_leaves (env : Env) : Does Leaves (disconnectNodeCb env) := by
  refine Does.bind (setNode_leaves fun _ _ => rfl) fun _ => ?_
  refine Does.bind getNode_leaves fun node => ?_
  exact Does.bind (ifThen_leaves (emit_leaves rfl)) fun _ => emit_leaves rfl

theorem setConnectionState_session (env : Env) (state : ConnectionState) (w : Work) :
    session (setConnectionState env state w).2 =
      { (session w).note (.stateSet state) with state := state } := by
  have hrest : Does Leaves (do
      let node ← getNode
      ifThen (state = .kDisconnected ∧ node.connection.disconnectCb) (disconnectNodeCb env) :
        Handler Unit) :=
    Does.bind getNode_leaves fun node => ifThen_leaves (disconnectNodeCb_leaves env)
  calc session (setConnectionState env state w).2 =
      session (emit (.stateSet state)
        (setConnection (fun c => { c with connectionState := state }) w).2).2 := hrest _
    _ = _ := by
      rw [emit_session, if_neg (by simp [Event.isPlain])]
      rfl

theorem disconnect_session (env : Env) (w : Work) :
    session (disconnect env w).2 = (session w).after .disconnect :=
  setConnectionState_session env .kDisconnected w

theorem sendMsg_leaves (env : Env) (m : Message) : Does Leaves (sendMsg env m) := by
  refine Does.bind getNode_leaves fun node => ?_
  refine Does.ite (fun _ => pure_leaves _) fun _ => ?_
  refine Does.bind (setNode_leaves fun _ _ => rfl) fun _ => ?_
  refine Does.ite (fun _ => pure_leaves _) fun _ => ?_
  refine Does.ite (fun _ => pure_leaves _) fun _ => ?_
  refine Does.bind (emit_leaves rfl) fun _ => ?_
  exact Does.bind (setNode_leaves fun _ _ => rfl) fun _ => pure_leaves _

theorem sendVersion_leaves (env : Env) : Does Leaves (sendVersion env) :=
  Does.bind getNode_leaves fun _ => sendMsg_leaves env _

theorem sends_leaves (env : Env) (m : Message) :
    Does Leaves (do let _ ← sendMsg env m; pure () : Handler Unit) :=
  Does.bind (sendMsg_leaves env m) fun _ => pure_leaves ()

theorem setLocalAddr_leaves (addr : Address.NetAddr) : Does Leaves (setLocalAddr addr) := by
  refine setNode_leaves fun n log => ?_
  by_cases h : n.connection.localAddr.isValid <;> simp [session, h]

theorem introduce_leaves (env : Env) (v : Version) : Does Leaves (introduce env v) := by
  refine Does.bind (ifThen_leaves (setNode_leaves fun _ _ => rfl)) fun _ => ?_
  refine Does.bind getNode_leaves fun node => ?_
  refine Does.bind (ifThen_leaves ?_) fun _ => emit_leaves rfl
  refine Does.bind (ifThen_leaves (emit_leaves rfl)) fun _ => ?_
  refine Does.bind (ifThen_leaves ?_) fun _ => ifThen_leaves (emit_leaves rfl)
  exact Does.bind (sendMsg_leaves env _) fun _ => setNode_leaves fun _ _ => rfl

theorem greet_session (env : Env) (v : Version) (w : Work) :
    session (greet env v w).2 = (session w).note (.versionAccepted v.protocolVersion) := by
  have hrest : Does Leaves (do
      let node ← getNode
      let _ ← (if node.isInbound then sendVersion env else pure true)
      let _ ← sendMsg env .verack
      setNode fun n => { n with services := v.services }
      setLocalAddr v.addrRecv
      setNode fun n => { n with startHeight := v.startHeight, relayTxes := v.relay } :
        Handler Unit) := by
    refine Does.bind getNode_leaves fun node => ?_
    refine Does.bind (Does.ite (fun _ => sendVersion_leaves env) fun _ => pure_leaves _) fun _ => ?_
    refine Does.bind (sendMsg_leaves env _) fun _ => ?_
    refine Does.bind (setNode_leaves fun _ _ => rfl) fun _ => ?_
    exact Does.bind (setLocalAddr_leaves _) fun _ => setNode_leaves fun _ _ => rfl
  refine (hrest (emit (.versionAccepted v.protocolVersion) w).2).trans ?_
  rw [emit_session, if_neg (by simp [Event.isPlain])]

theorem accept_session (env : Env) (v : Version) (w : Work) :
    session (accept env v w).2 = (session w).after (.accept v.protocolVersion) := by
  refine (introduce_leaves env v _).trans ?_
  change { session (greet env v w).2 with protocolVersion := v.protocolVersion } = _
  rw [greet_session]
  rfl

/-- The checks of `Version::RecvHandler` that end in a disconnection. -/
def Refused (env : Env) (n : Node) (v : Version) : Prop :=
  (n.isInbound = false ∧ n.connection.manual = false ∧ isServiceFlagDesirable v.services = false) ∨
    (v.services &&& reservedServiceBits ≠ 0 ∧ env.timeSeconds < reservedUntil) ∨
    v.protocolVersion < kMinPeerProtoVersion ∨
    (n.isInbound = true ∧ checkIncomingNonce env.singletonNodes v.nonce = false)

instance (env : Env) (n : Node) (v : Version) : Decidable (Refused env n v) :=
  inferInstanceAs (Decidable (_ ∨ _ ∨ _ ∨ _))

theorem versionRecvHandler_session (env : Env) (v : Version) (w : Work) :
    session (versionRecvHandler env v w).2 =
      if w.node.protocolVersion ≠ 0 then session w
      else if Refused env w.node v then (session w).after .disconnect
      else (session w).after (.accept v.protocolVersion) := by
  have hset : Does Leaves (ifThen (!w.node.isInbound && env.peersSize.isSome)
      (emit (.servicesSet v.services))) := ifThen_leaves (emit_leaves rfl)
  have hend : ∀ b : Bool, Does (fun w w' => session w' = (session w).after .disconnect)
      (do disconnect env; pure b : Handler Bool) := fun b w => disconnect_session env w
  by_cases hv : w.node.protocolVersion ≠ 0
  · rw [if_pos hv]
    change session ((if w.node.protocolVersion ≠ 0 then _ else _ : Handler Bool) w).2 = _
    rw [if_pos hv]
    exact misbehaving_leaves 1 w
  rw [if_neg hv, ← hset w]
  change session ((if w.node.protocolVersion ≠ 0 then _ else _ : Handler Bool) w).2 = _
  rw [if_neg hv]
  change session ((if !w.node.isInbound && !w.node.connection.manual &&
      !isServiceFlagDesirable v.services then _ else _ : Handler Bool)
        (ifThen (!w.node.isInbound && env.peersSize.isSome)
          (emit (.servicesSet v.services)) w).2).2 = _
  generalize (ifThen (!w.node.isInbound && env.peersSize.isSome)
      (emit (.servicesSet v.services)) w).2 = w₁
  by_cases h1 : (!w.node.isInbound && !w.node.connection.manual &&
      !isServiceFlagDesirable v.services) = true
  · have hrefused : Refused env w.node v := Or.inl (by simpa [and_assoc] using h1)
    rw [if_pos h1, if_pos hrefused]
    exact hend false w₁
  rw [if_neg h1]
  by_cases h2 : v.services &&& reservedServiceBits ≠ 0 ∧ env.timeSeconds < reservedUntil
  · have hrefused : Refused env w.node v := Or.inr (Or.inl h2)
    rw [if_pos h2, if_pos hrefused]
    exact hend false w₁
  rw [if_neg h2]
  by_cases h3 : v.protocolVersion < kMinPeerProtoVersion
  · have hrefused : Refused env w.node v := Or.inr (Or.inr (Or.inl h3))
    rw [if_pos h3, if_pos hrefused]
    exact hend false w₁
  rw [if_neg h3]
  by_cases h4 : (w.node.isInbound && !checkIncomingNonce env.singletonNodes v.nonce) = true
  · have hrefused : Refused env w.node v := Or.inr (Or.inr (Or.inr (by simpa using h4)))
    rw [if_pos h4, if_pos hrefused]
    exact hend true w₁
  · have hnone : ¬ Refused env w.node v := by
      rintro (h | h | h | h)
      · exact h1 (by simpa [and_assoc] using h)
      · exact h2 h
      · exact h3 h
      · exact h4 (by simpa using h)
    rw [if_neg h4, if_neg hnone]
    exact accept_session env v w₁

theorem negotiate_leaves (env : Env) : Does Leaves (negotiate env) := by
  refine Does.bind getNode_leaves fun node => ?_
  refine Does.bind (ifThen_leaves (sends_leaves env _)) fun _ => ifThen_leaves ?_
  exact Does.bind (ifThen_leaves (sends_leaves env _)) fun _ => sends_leaves env _

theorem settle_leaves (env : Env) : Does Leaves (settle env) := by
  refine Does.bind getNode_leaves fun node => ?_
  refine Does.bind (sendMsg_leaves env _) fun _ => ?_
  refine Does.bind (setNode_leaves fun _ _ => rfl) fun _ => ?_
  refine Does.bind (ifThen_leaves ?_) fun _ => setNode_leaves fun _ _ => rfl
  exact Does.bind (emit_leaves rfl) fun _ => setNode_leaves fun _ _ => rfl

theorem verackRecvHandler_session (env : Env) (w : Work) :
    session (verackRecvHandler env w).2 = (session w).after .establish := by
  calc session (verackRecvHandler env w).2 =
      session (setConnectionState env .kEstablished (negotiate env w).2).2 := settle_leaves env _
    _ = (session w).after .establish := by
      rw [setConnectionState_session, negotiate_leaves env w]
      rfl

theorem pingRecvHandler_leaves (env : Env) (m : Ping) : Does Leaves (pingRecvHandler env m) := by
  refine Does.bind getNode_leaves fun node => ?_
  exact Does.bind (ifThen_leaves (sends_leaves env _)) fun _ => pure_leaves true

theorem pongRecvHandler_leaves (m : Pong) : Does Leaves (pongRecvHandler m) := by
  refine Does.bind getNode_leaves fun node => ?_
  refine Does.ite (fun _ => pure_leaves false) fun _ => ?_
  refine Does.ite (fun _ => pure_leaves false) fun _ => ?_
  exact Does.bind (setNode_leaves fun _ _ => rfl) fun _ => pure_leaves true

theorem recvHandler_leaves (env : Env) {m : Message} (hversion : ∀ v, m ≠ .version v)
    (hverack : m ≠ .verack) : Does Leaves (recvHandler env m) := by
  cases m with
  | version v => exact absurd rfl (hversion v)
  | verack => exact absurd rfl hverack
  | ping m => exact pingRecvHandler_leaves env m
  | pong m => exact pongRecvHandler_leaves m
  | _ => exact pure_leaves true

end Handlers

section Messages

variable {D : Session → Action → Prop}

/-- A discipline that is not about these actions. -/
structure Permissive (D : Session → Action → Prop) : Prop where
  refuse : ∀ s command, D s (.refuse command)
  disconnect : ∀ s, D s .disconnect
  accept : ∀ s v, D s (.accept v)

/-- One message, once the gate has let it in. -/
theorem recvHandler_reaches (hdisconnect : ∀ s, D s .disconnect) (haccept : ∀ s v, D s (.accept v))
    (env : Env) (m : Message) (w : Work) (hlet : (session w).LetsIn m.command)
    (hest : m = .verack → D (session w) .establish) :
    Reaches D (session w) (session (recvHandler env m w).2) := by
  have hleaves : ∀ {h : Handler Bool}, Does Leaves h →
      Reaches D (session w) (session (h w).2) := fun h => by
    rw [h w]
  cases m with
  | version v =>
    rw [recvHandler, versionRecvHandler_session]
    split_ifs with hv hrefused
    · exact .refl
    · exact .single (hdisconnect _) trivial
    · have hmin : kMinPeerProtoVersion ≤ v.protocolVersion := by
        by_contra hlt
        exact hrefused (Or.inr (Or.inr (Or.inl (BitVec.not_le.mp hlt))))
      exact Reaches.single (haccept _ _) ⟨not_not.mp hv, hmin⟩
  | verack =>
    rw [recvHandler, verackRecvHandler_session]
    apply Reaches.single (hest rfl)
    rcases hlet with h | ⟨h, -⟩
    · exact absurd h (by decide)
    · exact h
  | _ => exact hleaves (recvHandler_leaves env nofun nofun)

theorem checkMisbehaving_iff (command : List Endian.Byte) (w : Work) :
    checkMisbehaving command w.node = true ↔ (session w).LetsIn command := by
  simp only [checkMisbehaving, Session.LetsIn, session, NodeConnection.isHandshakeCompleted]
  by_cases h1 : command = kMsgVersion <;> by_cases h2 : w.node.protocolVersion = 0 <;>
    by_cases h3 : command = kMsgVerack <;> simp [h1, h2, h3]

/-- What it takes for a message to be handed to its handler. -/
def Admitted (env : Env) (header : MessageHeader) (m : Message) (w : Work) : Prop :=
  header.checksum = checksum env m.serialize ∧ m.isValid = true ∧
    checkMisbehaving m.command w.node = true

theorem handleMsgData_of_admitted {env : Env} {header : MessageHeader} {m : Message} {w : Work}
    (h : Admitted env header m w) : handleMsgData env header m w =
      recvHandler env m (emit (.received m.command w.node.connection.connectionState) w).2 := by
  obtain ⟨h1, h2, h3⟩ := h
  change (if header.checksum ≠ checksum env m.serialize then _ else _ : Handler Bool) w = _
  rw [if_neg (not_not.mpr h1)]
  rw [h2, if_neg (by simp)]
  change (if !checkMisbehaving m.command w.node then _ else _ : Handler Bool) w = _
  rw [h3]
  rfl

theorem handleMsgData_of_not_admitted {env : Env} {header : MessageHeader} {m : Message}
    {w : Work} (h : ¬ Admitted env header m w) :
    session (handleMsgData env header m w).2 =
      if header.checksum = checksum env m.serialize then session w
      else (session w).after (.refuse m.command) := by
  change session ((if header.checksum ≠ checksum env m.serialize then _ else _ :
    Handler Bool) w).2 = _
  by_cases h1 : header.checksum = checksum env m.serialize
  · rw [if_neg (not_not.mpr h1), if_pos h1]
    by_cases h2 : m.isValid = true
    · rw [h2, if_neg (by simp)]
      change session ((if !checkMisbehaving m.command w.node then _ else _ :
        Handler Bool) w).2 = _
      have h3 : checkMisbehaving m.command w.node = false := by
        by_contra h3
        exact h ⟨h1, h2, by simpa using h3⟩
      rw [h3]
      exact misbehaving_leaves 1 w
    · rw [if_pos (by simpa using h2)]
      rfl
  · rw [if_pos h1, if_neg h1]
    exact emit_session _ w

/-- All of a message's way through the gate. A message is handed to its handler only
where the discipline lets it be received. -/
theorem handleMsgData_reaches {D : Session → Action → Prop} (hD : Permissive D) {env : Env}
    {header : MessageHeader} {m : Message} {w : Work}
    (hreceive : Admitted env header m w → D (session w) (.receive m.command))
    (hest : ∀ s command, D s (.receive command) → D (s.after (.receive command)) .establish) :
    Reaches D (session w) (session (handleMsgData env header m w).2) := by
  by_cases h : Admitted env header m w
  · have hlet := (checkMisbehaving_iff m.command w).mp h.2.2
    have hsession : session (emit (.received m.command w.node.connection.connectionState) w).2 =
        (session w).after (.receive m.command) := emit_session _ w
    rw [handleMsgData_of_admitted h]
    refine (Reaches.single (hreceive h) hlet).trans ?_
    rw [← hsession]
    refine recvHandler_reaches hD.disconnect hD.accept env m _ hlet fun _ => ?_
    rw [hsession]
    exact hest _ _ (hreceive h)
  · rw [handleMsgData_of_not_admitted h]
    split_ifs
    · exact .refl
    · exact .single (hD.refuse _ _) trivial

end Messages

end Sessions
