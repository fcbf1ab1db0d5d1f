import Btclite.Network.Handshake

/-!
# Connecting to self

The connector and the acceptor each keep their nodes in a registry of their own.
The version handler looks for the nonce of an inbound peer in a third one,
`SingletonNodes`, to which nothing ever adds a node: whoever connects to itself
passes the check.
-/

namespace SelfConnection

open Serialize Address Messages Nodes Handlers Sessions MsgProcess Lifecycle Handshake Relation

def kMaxPeerConnections : Nat := 125
def kMaxOutboundConnections : Nat := 8
def kMaxInboundConnections : Nat := kMaxPeerConnections - kMaxOutboundConnections

/-- The registries: `SingletonNodes`, `Connector::outbounds_` and `Acceptor::Inbounds()`. -/
structure World where
  singletonNodes : List Node := []
  outbounds : List Node := []
  inbounds : List Node := []

section Registries

def addNode (list : List Node) (n : Node) : List Node := list ++ [n]

def eraseNode (list : List Node) (id : Nat) : List Node := list.eraseP (·.id == id)

/-- The registries hold pointers: a node that changes, changes where it stands. -/
def storeNode (list : List Node) (n : Node) : List Node :=
  list.map fun m => if m.id = n.id then n else m

/-- A registry after one of its nodes did this work. -/
def settleNode (list : List Node) (w : Work) : List Node :=
  if .erased ∈ w.log then eraseNode (storeNode list w.node) w.node.id else storeNode list w.node

end Registries

/-- What a new connection is given, and what it meets outside. -/
structure Attempt where
  id : Nat
  nonce : U64
  addr : NetAddr
  manual : Bool := false
  isLocal : Bool := false
  isBanned : Bool := false
  hasSocket : Bool := true
  connects : Bool := true
  hasContext : Bool := true

/-- `Connector::ConnectNode`. -/
def connectNode (env : Env) (t : Attempt) (w : World) : Bool × World :=
  if !t.addr.isValid then (false, w)
  else if t.isLocal then (false, w)
  else if w.outbounds.any (·.connection.addr.sameEndpoint t.addr) then (false, w)
  else if t.isBanned then (false, w)
  else if !t.hasSocket then (false, w)
  else if !t.connects then (false, w)
  else
    let node := initializeNode t.id t.addr false t.manual t.nonce
    (true, { w with outbounds := addNode w.outbounds (sendVersion env ⟨node, []⟩).2.node })

/-- `Acceptor::AcceptConnCb`. The state callback is registered only where there is a context. -/
def acceptConnCb (t : Attempt) (w : World) : World :=
  if t.hasContext && t.isBanned then w
  else if kMaxInboundConnections ≤ w.inbounds.length then w
  else if !t.hasSocket then w
  else
    let node := initializeNode t.id t.addr true t.manual t.nonce
    let connection := { node.connection with disconnectCb := t.hasContext }
    { w with inbounds := addNode w.inbounds { node with connection } }

/-- What happens finds the registry of all nodes as it is. -/
def Sees (nodes : List Node) : Act → Prop
  | .pass env | .callback env _ => env.singletonNodes = nodes
  | .arrive _ | .enter => True

inductive Step : World → World → Prop where
  | connect (env : Env) (t : Attempt) (w : World) : Step w (connectNode env t w).2
  | accept (t : Attempt) (w : World) : Step w (acceptConnCb t w)
  | outbound (w : World) {s s' : State} {a : Act} (hmem : s.peer.work.node ∈ w.outbounds)
      (hlog : s.peer.work.log = []) (hsees : Sees w.singletonNodes a) (h : Next s a s') :
      Step w { w with outbounds := settleNode w.outbounds s'.peer.work }
  | inbound (w : World) {s s' : State} {a : Act} (hmem : s.peer.work.node ∈ w.inbounds)
      (hlog : s.peer.work.log = []) (hsees : Sees w.singletonNodes a) (h : Next s a s') :
      Step w { w with inbounds := settleNode w.inbounds s'.peer.work }
  /-- `DisconnectNode` of a node it found in the registry of all nodes. -/
  | disconnectNode (id : Nat) (w : World) :
      Step w { w with singletonNodes := eraseNode w.singletonNodes id }

abbrev Reachable (w : World) : Prop := ReflTransGen Step {} w

structure Consistent (w : World) : Prop where
  singletonNodes : w.singletonNodes = []
  outbounds : ∀ n ∈ w.outbounds, n.isInbound = false
  inbounds : ∀ n ∈ w.inbounds, n.isInbound = true

section Invariant

theorem mem_settleNode {list : List Node} {w : Work} {n : Node} (h : n ∈ settleNode list w) :
    n = w.node ∨ n ∈ list := by
  have hstore : ∀ m, m ∈ storeNode list w.node → m = w.node ∨ m ∈ list := by
    intro m hm
    rcases List.mem_map.mp hm with ⟨m', hm', rfl⟩
    split_ifs
    · exact Or.inl rfl
    · exact Or.inr hm'
  rw [settleNode] at h
  split_ifs at h
  · exact hstore n (List.mem_of_mem_eraseP h)
  · exact hstore n h

theorem next_isInbound {s s' : State} {a : Act} (h : Next s a s') :
    s'.peer.work.node.isInbound = s.peer.work.node.isInbound :=
  (step_reaches (C := Any) (D := fun _ _ => True)
    ⟨fun _ _ => trivial, fun _ => trivial, fun _ _ => trivial⟩ (fun _ _ _ => trivial)
    (fun _ _ _ _ _ _ _ _ _ _ => trivial) (fun _ _ _ => trivial) trivial h).frame.1

theorem settleNode_isInbound {list : List Node} {b : Bool} {s s' : State} {a : Act}
    (hlist : ∀ n ∈ list, n.isInbound = b) (hmem : s.peer.work.node ∈ list) (h : Next s a s') :
    ∀ n ∈ settleNode list s'.peer.work, n.isInbound = b := by
  intro n hn
  rcases mem_settleNode hn with rfl | hn
  · rw [next_isInbound h]
    exact hlist _ hmem
  · exact hlist n hn

theorem connectNode_outbounds (env : Env) (t : Attempt) (w : World) :
    (connectNode env t w).2.singletonNodes = w.singletonNodes ∧
      (connectNode env t w).2.inbounds = w.inbounds ∧
      ∀ n ∈ (connectNode env t w).2.outbounds, n ∈ w.outbounds ∨ n.isInbound = false := by
  rw [connectNode]
  split_ifs
  all_goals refine ⟨rfl, rfl, ?_⟩
  all_goals intro n hn
  iterate 6 exact Or.inl hn
  rcases List.mem_append.mp hn with hn | hn
  · exact Or.inl hn
  · right
    rw [List.mem_singleton.mp hn]
    have hsend := sendVersion_leaves env ⟨initializeNode t.id t.addr false t.manual t.nonce, []⟩
    exact congrArg Session.isInbound hsend

theorem acceptConnCb_inbounds (t : Attempt) (w : World) :
    (acceptConnCb t w).singletonNodes = w.singletonNodes ∧
      (acceptConnCb t w).outbounds = w.outbounds ∧
      ∀ n ∈ (acceptConnCb t w).inbounds, n ∈ w.inbounds ∨ n.isInbound = true := by
  rw [acceptConnCb]
  split_ifs
  all_goals refine ⟨rfl, rfl, ?_⟩
  all_goals intro n hn
  iterate 3 exact Or.inl hn
  rcases List.mem_append.mp hn with hn | hn
  · exact Or.inl hn
  · right
    rw [List.mem_singleton.mp hn]
    rfl

theorem Consistent.step {w w' : World} (hw : Consistent w) (h : Step w w') : Consistent w' := by
  rcases hw with ⟨hnone, hout, hin⟩
  cases h with
  | connect env t =>
    rcases connectNode_outbounds env t w with ⟨h1, h2, h3⟩
    refine ⟨h1.trans hnone, fun n hn => ?_, fun n hn => hin n (h2 ▸ hn)⟩
    rcases h3 n hn with hold | hnew
    · exact hout n hold
    · exact hnew
  | accept t =>
    rcases acceptConnCb_inbounds t w with ⟨h1, h2, h3⟩
    refine ⟨h1.trans hnone, fun n hn => hout n (h2 ▸ hn), fun n hn => ?_⟩
    rcases h3 n hn with hold | hnew
    · exact hin n hold
    · exact hnew
  | outbound _ hmem _ _ hnext => exact ⟨hnone, settleNode_isInbound hout hmem hnext, hin⟩
  | inbound _ hmem _ _ hnext => exact ⟨hnone, hout, settleNode_isInbound hin hmem hnext⟩
  | disconnectNode id =>
    refine ⟨?_, hout, hin⟩
    simp [hnone, eraseNode]

theorem consistent_of_reachable {w : World} (h : Reachable w) : Consistent w := by
  induction h with
  | refl => exact ⟨rfl, by simp, by simp⟩
  | tail _ hstep ih => exact ih.step hstep

end Invariant

section Detection

variable {w : World} {n : Node} {env : Env} {v : Version}

/-- The registry of the connector would have told. -/
theorem outbound_nonce_found {o : Node} (hw : Reachable w) (ho : o ∈ w.outbounds)
    (hopen : o.connection.isHandshakeCompleted = false) (hnonce : v.nonce = o.localHostNonce) :
    checkIncomingNonce w.outbounds v.nonce = false := by
  have hout := (consistent_of_reachable hw).outbounds o ho
  rw [checkIncomingNonce, List.all_eq_false]
  exact ⟨o, ho, by simp [hopen, hout, hnonce]⟩

/-- Whatever the nonce of its version message, an inbound node ends disconnected and with
the protocol version it had, if and only if one of the checks that have nothing to do with
the nonce disconnects it, or it had a version already and was disconnected before. -/
theorem version_disconnects_iff (hw : Reachable w) (hn : n ∈ w.inbounds)
    (henv : env.singletonNodes = w.singletonNodes) (log : List Event) :
    ((versionRecvHandler env v ⟨n, log⟩).2.node.isDisconnected = true ∧
      (versionRecvHandler env v ⟨n, log⟩).2.node.protocolVersion = n.protocolVersion) ↔
    (n.protocolVersion = kUnknownProtoVersion ∧
      ((v.services &&& reservedServiceBits ≠ 0 ∧ env.timeSeconds < reservedUntil) ∨
        v.protocolVersion < kMinPeerProtoVersion)) ∨
    (n.protocolVersion ≠ kUnknownProtoVersion ∧ n.isDisconnected = true) := by
  rcases consistent_of_reachable hw with ⟨hnone, -, hin⟩
  have hinbound := hin n hn
  have hrefused : Refused env n v ↔
      (v.services &&& reservedServiceBits ≠ 0 ∧ env.timeSeconds < reservedUntil) ∨
        v.protocolVersion < kMinPeerProtoVersion := by
    simp [Refused, hinbound, henv, hnone, checkIncomingNonce]
  have hsession := versionRecvHandler_session env v ⟨n, log⟩
  have hstate := congrArg Session.state hsession
  have hversion := congrArg Session.protocolVersion hsession
  rw [isDisconnected_iff]
  change (_ ∧ (session (versionRecvHandler env v ⟨n, log⟩).2).protocolVersion = _) ↔ _
  rw [hstate, hversion]
  by_cases hv : n.protocolVersion = kUnknownProtoVersion
  · have hv' : ¬ n.protocolVersion ≠ 0 := not_not.mpr hv
    rw [if_neg hv']
    by_cases hr : Refused env n v
    · rw [if_pos hr]
      exact iff_of_true ⟨rfl, rfl⟩ (Or.inl ⟨hv, hrefused.mp hr⟩)
    · rw [if_neg hr]
      refine iff_of_false ?_ ?_
      · rintro ⟨-, hsame⟩
        have hzero : v.protocolVersion = kUnknownProtoVersion := hsame.trans hv
        refine hr (hrefused.mpr (Or.inr ?_))
        rw [hzero]
        decide
      · rintro (⟨-, h⟩ | ⟨h, -⟩)
        · exact hr (hrefused.mpr h)
        · exact h hv
  · have hv' : n.protocolVersion ≠ 0 := hv
    rw [if_pos hv', ← isDisconnected_iff]
    constructor
    · rintro ⟨hdown, -⟩
      exact Or.inr ⟨hv, hdown⟩
    · rintro (⟨h, -⟩ | ⟨-, hdown⟩)
      · exact absurd h hv
      · exact ⟨hdown, rfl⟩

/-- A connection from this host to itself, seen from both ends. -/
def selfWorld : World :=
  acceptConnCb { id := 2, nonce := 8, addr := outboundAddr }
    (connectNode (.alone default) { id := 1, nonce := 7, addr := outboundAddr } {}).2

theorem selfWorld_reachable : Reachable selfWorld :=
  (ReflTransGen.single (.connect (.alone default) { id := 1, nonce := 7, addr := outboundAddr }
    {})).tail (.accept { id := 2, nonce := 8, addr := outboundAddr } _)

def selfVersion : Version where
  protocolVersion := kProtocolVersion
  services := 1
  timestamp := 1700000000
  addrRecv := outboundAddr
  nonce := 7

def selfInbound : Node := initializeNode 2 outboundAddr true false 8

theorem selfInbound_mem : selfInbound ∈ selfWorld.inbounds := by decide +kernel

theorem version_disconnects_iff_self :
    ((versionRecvHandler (.alone default) selfVersion ⟨selfInbound, []⟩).2.node.isDisconnected =
          true ∧
        (versionRecvHandler (.alone default) selfVersion
          ⟨selfInbound, []⟩).2.node.protocolVersion = selfInbound.protocolVersion) ↔
      (selfInbound.protocolVersion = kUnknownProtoVersion ∧
        ((selfVersion.services &&& reservedServiceBits ≠ 0 ∧
            (Env.alone default).timeSeconds < reservedUntil) ∨
          selfVersion.protocolVersion < kMinPeerProtoVersion)) ∨
      (selfInbound.protocolVersion ≠ kUnknownProtoVersion ∧ selfInbound.isDisconnected = true) :=
  version_disconnects_iff selfWorld_reachable selfInbound_mem rfl []

/-- The version message comes from the outbound end, whose handshake is open; the inbound
end accepts it. -/
theorem self_connection_accepted :
    Reachable selfWorld ∧ selfInbound ∈ selfWorld.inbounds ∧ selfVersion.isValid = true ∧
      (∃ o ∈ selfWorld.outbounds, o.isDisconnected = false ∧
        o.connection.isHandshakeCompleted = false ∧ selfVersion.nonce = o.localHostNonce) ∧
      (versionRecvHandler (.alone default) selfVersion ⟨selfInbound, []⟩).2.node.isDisconnected =
        false ∧
      (versionRecvHandler (.alone default) selfVersion ⟨selfInbound, []⟩).2.node.protocolVersion =
        kProtocolVersion := by
  refine ⟨selfWorld_reachable, selfInbound_mem, ?_⟩
  decide +kernel

end Detection

end SelfConnection
