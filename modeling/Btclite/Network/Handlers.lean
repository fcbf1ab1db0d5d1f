import Btclite.Library.Effects
import Btclite.Network.Nodes

/-!
# Message handlers

`SendMsg`, the `RecvHandler` of every message and the gate in front of them.
Each handler either leaves the session alone, or disconnects, or is one of the
two that advance the handshake.
-/

namespace Handlers

open Endian Serialize Address Messages Nodes Effects

/-- The checksum a header carries: the first four bytes of the hash of what is written. -/
def checksum (env : Env) (bytes : List Byte) : U32 :=
  fromLittleEndian 32 ((env.sha256 bytes).data.take 4)

def headerOf (env : Env) (m : Message) : MessageHeader where
  magic := env.msgMagic
  commandBytes := MessageHeader.paddedCommand m.command
  payloadLength := BitVec.ofNat 32 m.serializedSize
  checksum := checksum env m.serialize

section Sending

def sendMsg (env : Env) (m : Message) : Handler Bool := do
  let node ← getNode
  if !node.connection.bev then pure false
  else do
    setConnection fun c => { c with socketNoMsg := false }
    if ((headerOf env m).serialize ++ m.serialize).length ≠
        MessageHeader.kSize + m.serializedSize then pure false
    else if !env.written m then pure false
    else do
      emit (.sent (headerOf env m) m)
      setNode fun n => { n with timers := { n.timers with noSendingTimer := true } }
      pure true

def sendVersion (env : Env) : Handler Bool := do
  let node ← getNode
  sendMsg env (.version
    { protocolVersion := kProtocolVersion
      services := node.services
      timestamp := env.timeSeconds
      addrRecv := node.connection.addr
      addrFrom := { services := node.services }
      nonce := node.localHostNonce
      userAgent := env.userAgent
      startHeight := env.activeChainHeight
      relay := true })

/-- The ping a peer of this protocol version is sent. -/
def pingFor (env : Env) (node : Node) : Message :=
  .ping
    { nonce := env.randUint64
      protocolVersion := if node.protocolVersion < kBip31Version then 0 else kProtocolVersion }

/-- `PingTimeoutCb`. -/
def pingTimeoutCb (env : Env) : Handler Unit := do
  let node ← getNode
  if env.interrupted || node.isDisconnected then pure ()
  else if node.pingNonceSent ≠ 0 then disconnect env
  else do
    let _ ← sendMsg env (pingFor env node)
    pure ()

end Sending

section Receiving

/-- The part of `Version::RecvHandler` in front of the one that stores the version. -/
def greet (env : Env) (v : Version) : Handler Unit := do
  emit (.versionAccepted v.protocolVersion)
  let node ← getNode
  let _ ← (if node.isInbound then sendVersion env else pure true)
  let _ ← sendMsg env .verack
  setNode fun n => { n with services := v.services }
  setLocalAddr v.addrRecv
  setNode fun n => { n with startHeight := v.startHeight, relayTxes := v.relay }

/-- The part behind it: witness flag, address exchange with outbound peers, time. -/
def introduce (env : Env) (v : Version) : Handler Unit := do
  ifThen (v.services &&& kNodeWitness ≠ 0) (setNode fun n => { n with isWitness := true })
  let node ← getNode
  ifThen (!node.isInbound) do
    ifThen env.advertiseLocalAddr (emit (.localAddrAdvertised true))
    ifThen (kAddrTimeVersion ≤ node.protocolVersion || env.peersSize.any (· < 1000)) do
      let _ ← sendMsg env .getaddr
      setNode fun n => { n with sentGetaddr := true }
    ifThen env.peersSize.isSome (emit .peerTried)
  emit (.timeDataAdded (v.timestamp - env.timeSeconds))

def accept (env : Env) (v : Version) : Handler Unit := do
  greet env v
  setNode fun n => { n with protocolVersion := v.protocolVersion }
  introduce env v

/-- Bits 5 and 7, which are refused until this time. -/
def reservedServiceBits : U64 := 1#64 <<< 7 ||| 1#64 <<< 5
def reservedUntil : U64 := 1533096000

def versionRecvHandler (env : Env) (v : Version) : Handler Bool := do
  let node ← getNode
  if node.protocolVersion ≠ 0 then do
    misbehaving 1
    pure false
  else do
    ifThen (!node.isInbound && env.peersSize.isSome) (emit (.servicesSet v.services))
    if !node.isInbound && !node.connection.manual && !isServiceFlagDesirable v.services then do
      disconnect env
      pure false
    else if v.services &&& reservedServiceBits ≠ 0 ∧ env.timeSeconds < reservedUntil then do
      disconnect env
      pure false
    else if v.protocolVersion < kMinPeerProtoVersion then do
      disconnect env
      pure false
    else if node.isInbound && !checkIncomingNonce env.singletonNodes v.nonce then do
      disconnect env
      pure true
    else do
      accept env v
      pure true

/-- What `Verack::RecvHandler` sends before the connection is established. -/
def negotiate (env : Env) : Handler Unit := do
  let node ← getNode
  ifThen (kSendheadersVersion ≤ node.protocolVersion) do
    let _ ← sendMsg env .sendheaders
    pure ()
  ifThen (kShortIdsBlocksVersion ≤ node.protocolVersion) do
    ifThen (env.localService &&& kNodeWitness ≠ 0) do
      let _ ← sendMsg env (.sendcmpct { highBandwidthMode := false, version := 2 })
      pure ()
    let _ ← sendMsg env (.sendcmpct { highBandwidthMode := false, version := 1 })
    pure ()

/-- What it does once the connection is established: ping and the periodic timers. -/
def settle (env : Env) : Handler Unit := do
  let node ← getNode
  let _ ← sendMsg env (pingFor env node)
  setNode fun n => { n with timers := { n.timers with pingTimer := true } }
  ifThen env.advertiseLocalAddr do
    emit (.localAddrAdvertised false)
    setNode fun n => { n with timers := { n.timers with advertiseLocalAddrTimer := true } }
  setNode fun n => { n with timers := { n.timers with broadcastAddrsTimer := true } }

def verackRecvHandler (env : Env) : Handler Bool := do
  negotiate env
  setConnectionState env .kEstablished
  settle env
  pure true

def pingRecvHandler (env : Env) (m : Ping) : Handler Bool := do
  let node ← getNode
  ifThen (kBip31Version ≤ node.protocolVersion) do
    let _ ← sendMsg env (.pong { nonce := m.nonce })
    pure ()
  pure true

def pongRecvHandler (m : Pong) : Handler Bool := do
  let node ← getNode
  if node.pingNonceSent = 0 then pure false
  else if node.pingNonceSent ≠ m.nonce then pure false
  else do
    setNode fun n => { n with pingNonceSent := 0 }
    pure true

def recvHandler (env : Env) : Message → Handler Bool
  | .version m => versionRecvHandler env m
  | .verack => verackRecvHandler env
  | .ping m => pingRecvHandler env m
  | .pong m => pongRecvHandler m
  | .addr _ | .inv _ | .getaddr | .reject _ | .sendheaders | .sendcmpct _ => pure true

/-- `CheckMisbehaving`: a version message comes first, then a verack. -/
def checkMisbehaving (command : List Byte) (node : Node) : Bool :=
  if command ≠ kMsgVersion ∧ node.protocolVersion = 0 then false
  else if command ≠ kMsgVersion ∧ command ≠ kMsgVerack ∧
      !node.connection.isHandshakeCompleted then false
  else true

/-- `HandleMsgData`. The checksum is taken of what the decoded message writes. -/
def handleMsgData (env : Env) (header : MessageHeader) (m : Message) : Handler Bool := do
  if header.checksum ≠ checksum env m.serialize then do
    emit (.checksumError m.command)
    pure false
  else if !m.isValid then pure false
  else do
    let node ← getNode
    if !checkMisbehaving m.command node then do
      misbehaving 1
      pure false
    else do
      emit (.received m.command node.connection.connectionState)
      recvHandler env m

end Receiving

end Handlers
