import Btclite.Network.Messages
import Mathlib.Data.List.Basic

/-!
# Nodes

A connected peer as the message handlers see it, the registry of nodes, and the
steps handlers are made of. A handler runs over the node and a log of what it
does to the outside: messages written, timers started, peers and states set.
The log also notes where the accepting part of the version handler starts.
-/

namespace Nodes

open Endian Serialize Address Messages

inductive ConnectionState where
  | kInitialState
  | kEstablished
  | kDisconnected
deriving DecidableEq

/-- `NodeConnection`. Of the state callbacks only the one for `kDisconnected` is ever set. -/
structure NodeConnection where
  bev : Bool := true
  addr : NetAddr
  localAddr : NetAddr := {}
  manual : Bool := false
  connectionState : ConnectionState := .kInitialState
  disconnectCb : Bool := true
  socketNoMsg : Bool := true
deriving DecidableEq

namespace NodeConnection

def isHandshakeCompleted (c : NodeConnection) : Bool := c.connectionState == .kEstablished

def isDisconnected (c : NodeConnection) : Bool := c.connectionState == .kDisconnected

end NodeConnection

/-- Which timers of a node are set. -/
structure NodeTimers where
  noMsgTimer : Bool := true
  noSendingTimer : Bool := false
  noReceivingTimer : Bool := false
  shakehandsTimer : Bool := true
  pingTimer : Bool := false
  advertiseLocalAddrTimer : Bool := false
  broadcastAddrsTimer : Bool := false
deriving DecidableEq

def NodeTimers.stopped : NodeTimers where
  noMsgTimer := false
  shakehandsTimer := false

structure Misbehavior where
  shouldBan : Bool := false
  score : U32 := 0
deriving DecidableEq

structure Node where
  id : Nat
  isInbound : Bool := true
  services : U64 := 0
  localHostNonce : U64
  protocolVersion : U32 := kUnknownProtoVersion
  startHeight : U32 := 0
  connection : NodeConnection
  sentGetaddr : Bool := false
  relayTxes : Bool := false
  pingNonceSent : U64 := 0
  timers : NodeTimers := {}
  misbehavior : Misbehavior := {}
  isWitness : Bool := false
deriving DecidableEq

namespace Node

def shouldUpdateTime (n : Node) : Bool :=
  n.misbehavior.score == 0 && n.connection.connectionState == .kEstablished

def isDisconnected (n : Node) : Bool := n.connection.isDisconnected

end Node

/-- The loop of `Nodes::CheckIncomingNonce`. -/
def checkIncomingNonce (list : List Node) (nonce : U64) : Bool :=
  list.all fun n =>
    !(!n.connection.isHandshakeCompleted && !n.isInbound && n.localHostNonce == nonce)

inductive Event where
  | dispatched (header : MessageHeader) (payload : List Byte)
  | interrupted
  | checksumError (command : List Byte)
  | received (command : List Byte) (state : ConnectionState)
  | stateSet (state : ConnectionState)
  | versionAccepted (protocolVersion : U32)
  | sent (header : MessageHeader) (message : Message)
  | servicesSet (services : U64)
  | peerTried
  | peerTimeUpdated
  | peerBanned
  | timeDataAdded (offset : U64)
  | localAddrAdvertised (discoveredAddrFirst : Bool)
  | erased
deriving DecidableEq

namespace Event

/-- Events that tell nothing about which messages are handled or how far the session is. -/
def isPlain : Event → Bool
  | dispatched _ _ => false
  | checksumError _ => false
  | received _ _ => false
  | stateSet _ => false
  | versionAccepted _ => false
  | _ => true

end Event

/-- What a handler finds outside the node. -/
structure Env where
  sha256 : List Byte → Hash256
  msgMagic : U32
  advertiseLocalAddr : Bool
  localService : U64
  peersSize : Option Nat
  activeChainHeight : U32
  timeSeconds : U64
  singletonNodes : List Node
  randUint64 : U64
  userAgent : List Byte
  written : Message → Bool
  interrupted : Bool
  hasBanList : Bool
  memory : Memory

/-- Surroundings with no other node, no peers and no ban list. -/
def Env.alone (sha256 : List Byte → Hash256) : Env where
  sha256
  msgMagic := kTestnetMagic
  advertiseLocalAddr := false
  localService := kNodeNetwork
  peersSize := none
  activeChainHeight := 0
  timeSeconds := 1700000000
  singletonNodes := []
  randUint64 := 1
  userAgent := []
  written _ := true
  interrupted := false
  hasBanList := false
  memory := ⟨fun _ => 0, fun _ => 0⟩

/-- The same, with a hash function that knows a few digests. -/
def Env.hashing (digests : List (List Byte × Hash256)) : Env :=
  .alone fun bytes => (digests.lookup bytes).getD default

/-- The node that `Nodes::InitializeNode` makes, with the nonce drawn for it. -/
def initializeNode (id : Nat) (addr : NetAddr) (isInbound manual : Bool) (nonce : U64) : Node where
  id
  isInbound
  localHostNonce := nonce
  connection := { addr, manual }

structure Work where
  node : Node
  log : List Event

/-- An inbound peer that has just connected. -/
def Work.inbound : Work := ⟨initializeNode 1 {} true false 1, []⟩

abbrev Handler (A : Type) : Type := StateM Work A

section Steps

def getNode : Handler Node := fun w => (w.node, w)

def setNode (f : Node → Node) : Handler Unit := fun w => ((), { w with node := f w.node })

def emit (e : Event) : Handler Unit := fun w => ((), { w with log := w.log ++ [e] })

/-- An `if` with no `else`. -/
def ifThen (c : Prop) [Decidable c] (m : Handler Unit) : Handler Unit := if c then m else pure ()

def setConnection (f : NodeConnection → NodeConnection) : Handler Unit :=
  setNode fun n => { n with connection := f n.connection }

def kDefaultBanscoreThreshold : U32 := 100

/-- `Misbehavior::Misbehaving`. -/
def misbehaving (howmuch : U32) : Handler Unit :=
  ifThen (howmuch ≠ 0) <| setNode fun n =>
    let score := n.misbehavior.score + howmuch
    { n with misbehavior :=
      { shouldBan := if kDefaultBanscoreThreshold ≤ score ∧
            score - howmuch < kDefaultBanscoreThreshold then true else n.misbehavior.shouldBan
        score } }

def stopAllTimers : Handler Unit := setNode fun n => { n with timers := .stopped }

/-- `DisconnectNodeCb`, registered by the connector and the acceptor. -/
def disconnectNodeCb (env : Env) : Handler Unit := do
  stopAllTimers
  let node ← getNode
  ifThen (env.peersSize.isSome && node.shouldUpdateTime) (emit .peerTimeUpdated)
  emit .erased

def setConnectionState (env : Env) (state : ConnectionState) : Handler Unit := do
  setConnection fun c => { c with connectionState := state }
  emit (.stateSet state)
  let node ← getNode
  ifThen (state = .kDisconnected ∧ node.connection.disconnectCb) (disconnectNodeCb env)

def disconnect (env : Env) : Handler Unit := setConnectionState env .kDisconnected

/-- `set_local_addr` keeps an address that is already valid. -/
def setLocalAddr (addr : NetAddr) : Handler Unit :=
  setConnection fun c => if c.localAddr.isValid then c else { c with localAddr := addr }

end Steps

section Callbacks

def inactivityTimeoutCb (env : Env) : Handler Unit := do
  let node ← getNode
  ifThen (!(env.interrupted || node.isDisconnected)) (disconnect env)

def socketNoMsgTimeoutCb (env : Env) : Handler Unit := do
  let node ← getNode
  ifThen (!(env.interrupted || node.isDisconnected) && node.connection.socketNoMsg)
    (disconnect env)

def shakeHandsTimeoutCb (env : Env) : Handler Unit := do
  let node ← getNode
  ifThen (!(env.interrupted || node.isDisconnected) && !node.connection.isHandshakeCompleted)
    (disconnect env)

/-- `CheckBanned`; a manual peer is spared and a local address is not put on the list. -/
def checkBanned (env : Env) : Handler Bool := do
  let node ← getNode
  if !node.misbehavior.shouldBan then pure false
  else do
    setNode fun n => { n with misbehavior := { n.misbehavior with shouldBan := false } }
    if node.connection.manual then pure true
    else do
      disconnect env
      ifThen (!node.connection.addr.isLocal && env.hasBanList) (emit .peerBanned)
      pure true

/-- `ConnEventCb` on end of file or on a socket error that is not retried. -/
def connEventCb (env : Env) : Handler Unit := do
  let node ← getNode
  ifThen (!node.isDisconnected) (disconnect env)

/-- What `ConnReadCb` does before it queues `ParseMsg`. -/
def connReadCb : Handler Unit :=
  setNode fun n => { n with
    connection := { n.connection with socketNoMsg := false }
    timers := { n.timers with noReceivingTimer := true } }

end Callbacks

end Nodes
