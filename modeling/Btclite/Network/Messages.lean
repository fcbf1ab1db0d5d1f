import Btclite.Network.Address

/-!
# Wire messages

The message classes under `protocol/`: their fields with the defaults a fresh
object has, what they write, what they read and which values they call valid.
A `Deserialize` that leaves some field of its object alone takes that object as
an argument.
-/

namespace Messages

open Endian Serialize Address

def kUnknownProtoVersion : U32 := 0
def kAddrTimeVersion : U32 := 31402
def kGetheadersVersion : U32 := 31800
def kBip31Version : U32 := 60000
def kRelayedTxsVersion : U32 := 70001
def kSendheadersVersion : U32 := 70012
def kShortIdsBlocksVersion : U32 := 70014
def kInvalidCbNoBanVersion : U32 := 70015

def kProtocolVersion : U32 := kInvalidCbNoBanVersion
def kMinPeerProtoVersion : U32 := kGetheadersVersion

def kNodeNetwork : U64 := 1#64 <<< 0
def kNodeWitness : U64 := 1#64 <<< 3
def kDesirableServiceFlags : U64 := kNodeNetwork ||| kNodeWitness

def isServiceFlagDesirable (services : U64) : Bool := kDesirableServiceFlags &&& ~~~services == 0

def kMaxMessageSize : U32 := 4000000
def kMaxSubVersionSize : Nat := 256
def kMaxRejectMessageLength : Nat := 111
def kMaxBlockLoactorSize : Nat := 32

def kMainnetMagic : U32 := 0xD9B4BEF9
def kTestnetMagic : U32 := 0x0709110B
def kRegtestMagic : U32 := 0xDAB5BFFA

section Commands

def ascii (s : List Char) : List Byte := s.map fun c => BitVec.ofNat 8 c.toNat

def kMsgVersion := ascii ['v', 'e', 'r', 's', 'i', 'o', 'n']
def kMsgVerack := ascii ['v', 'e', 'r', 'a', 'c', 'k']
def kMsgAddr := ascii ['a', 'd', 'd', 'r']
def kMsgInv := ascii ['i', 'n', 'v']
def kMsgGetData := ascii ['g', 'e', 't', 'd', 'a', 't', 'a']
def kMsgMerkleBlock := ascii ['m', 'e', 'r', 'k', 'l', 'e', 'b', 'l', 'o', 'c', 'k']
def kMsgGetBlocks := ascii ['g', 'e', 't', 'b', 'l', 'o', 'c', 'k', 's']
def kMsgGetHeaders := ascii ['g', 'e', 't', 'h', 'e', 'a', 'd', 'e', 'r', 's']
def kMsgTx := ascii ['t', 'x']
def kMsgHeaders := ascii ['h', 'e', 'a', 'd', 'e', 'r', 's']
def kMsgBlock := ascii ['b', 'l', 'o', 'c', 'k']
def kMsgGetAddr := ascii ['g', 'e', 't', 'a', 'd', 'd', 'r']
def kMsgMempool := ascii ['m', 'e', 'm', 'p', 'o', 'o', 'l']
def kMsgPing := ascii ['p', 'i', 'n', 'g']
def kMsgPong := ascii ['p', 'o', 'n', 'g']
def kMsgNotFound := ascii ['n', 'o', 't', 'f', 'o', 'u', 'n', 'd']
def kMsgFilterLoad := ascii ['f', 'i', 'l', 't', 'e', 'r', 'l', 'o', 'a', 'd']
def kMsgFilterAdd := ascii ['f', 'i', 'l', 't', 'e', 'r', 'a', 'd', 'd']
def kMsgFilterClear := ascii ['f', 'i', 'l', 't', 'e', 'r', 'c', 'l', 'e', 'a', 'r']
def kMsgReject := ascii ['r', 'e', 'j', 'e', 'c', 't']
def kMsgSendHeaders := ascii ['s', 'e', 'n', 'd', 'h', 'e', 'a', 'd', 'e', 'r', 's']
def kMsgFeeFilter := ascii ['f', 'e', 'e', 'f', 'i', 'l', 't', 'e', 'r']
def kMsgSendCmpct := ascii ['s', 'e', 'n', 'd', 'c', 'm', 'p', 'c', 't']
def kMsgCmpctBlock := ascii ['c', 'm', 'p', 'c', 't', 'b', 'l', 'o', 'c', 'k']
def kMsgGetBlockTxn := ascii ['g', 'e', 't', 'b', 'l', 'o', 'c', 'k', 't', 'x', 'n']
def kMsgBlockTxn := ascii ['b', 'l', 'o', 'c', 'k', 't', 'x', 'n']

/-- The commands `MessageHeader::IsValid` knows. -/
def knownCommands : List (List Byte) :=
  [kMsgVersion, kMsgVerack, kMsgAddr, kMsgInv, kMsgGetData, kMsgMerkleBlock, kMsgGetBlocks,
    kMsgGetHeaders, kMsgTx, kMsgHeaders, kMsgBlock, kMsgGetAddr, kMsgMempool, kMsgPing, kMsgPong,
    kMsgNotFound, kMsgFilterLoad, kMsgFilterAdd, kMsgFilterClear, kMsgReject, kMsgSendHeaders,
    kMsgFeeFilter, kMsgSendCmpct, kMsgCmpctBlock, kMsgGetBlockTxn, kMsgBlockTxn]

end Commands

structure MessageHeader where
  magic : U32 := 0
  commandBytes : Bytes 12 := Bytes.zero 12
  payloadLength : U32 := 0
  checksum : U32 := 0
deriving DecidableEq

namespace MessageHeader

def kCommandSize : Nat := 12
def kSize : Nat := 4 + kCommandSize + 4 + 4

/-- `command()`: up to the first zero byte. -/
def command (h : MessageHeader) : List Byte := h.commandBytes.data.takeWhile (· ≠ 0#8)

/-- `set_command`: cut to the field, then padded with zeros. -/
def paddedCommand (command : List Byte) : Bytes 12 where
  data := command.take 12 ++ List.replicate (12 - command.length) 0
  size_eq := by
    simp only [List.length_append, List.length_take, List.length_replicate]
    omega

/-- The bytes of the command are cleared first, so that what was there before is gone. -/
def setCommand (h : MessageHeader) (command : List Byte) : MessageHeader :=
  { h with commandBytes := paddedCommand command }

/-- The constructor from the fields. -/
def ofFields (magic : U32) (command : List Byte) (payloadLength checksum : U32) : MessageHeader :=
  setCommand { magic, payloadLength, checksum } command

/-- The padding ends the command where the text does not fill its field. -/
theorem command_setCommand (h : MessageHeader) (command : List Byte) :
    (h.setCommand command).command = (command.take 12).takeWhile (· ≠ 0#8) := by
  have hpadding : (List.replicate (12 - command.length) 0#8).takeWhile (· ≠ 0#8) = [] := by
    simp
  change (command.take 12 ++ List.replicate (12 - command.length) 0#8).takeWhile _ = _
  rw [List.takeWhile_append, hpadding, List.append_nil]
  split_ifs with hall
  · exact ((List.takeWhile_prefix _).eq_of_length hall).symm
  · rfl

/-- `IsValid`; without a known `magic` any of the three networks will do. -/
def isValid (h : MessageHeader) (magic : U32) : Bool :=
  (if magic = kMainnetMagic ∨ magic = kTestnetMagic ∨ magic = kRegtestMagic then
    h.magic == magic
  else h.magic == kMainnetMagic || h.magic == kTestnetMagic || h.magic == kRegtestMagic) &&
  knownCommands.contains h.command && decide (h.payloadLength ≤ kMaxMessageSize)

def serialize (h : MessageHeader) : List Byte :=
  serWriteData h.magic ++ h.commandBytes.data ++ serWriteData h.payloadLength ++
    serWriteData h.checksum

def deserialize : Deserializer MessageHeader := do
  let magic ← serialRead (serReadData 32)
  let commandBytes ← serialRead (deserializeArray 12)
  let payloadLength ← serialRead (serReadData 32)
  let checksum ← serialRead (serReadData 32)
  pure { magic, commandBytes, payloadLength, checksum }

end MessageHeader

structure Version where
  protocolVersion : U32 := kUnknownProtoVersion
  services : U64 := 0
  timestamp : U64 := 0
  addrRecv : NetAddr := {}
  addrFrom : NetAddr := {}
  nonce : U64 := 0
  userAgent : List Byte := []
  startHeight : U32 := 0
  relay : Bool := false
deriving DecidableEq

namespace Version

def isValid (v : Version) : Bool :=
  v.protocolVersion != kUnknownProtoVersion && v.services != 0 && v.timestamp != 0 &&
    v.addrRecv.isValid && v.nonce != 0

def serializedSize (v : Version) : Nat :=
  4 + 8 + 8 + v.addrRecv.serializedSize + v.addrFrom.serializedSize + 8 +
    varIntSize v.userAgent.length + v.userAgent.length + 4 +
    if kRelayedTxsVersion ≤ v.protocolVersion then 1 else 0

def serializeHead (v : Version) : List Byte :=
  serWriteData v.protocolVersion ++ serWriteData v.services ++ serWriteData v.timestamp ++
    v.addrRecv.serialize ++ v.addrFrom.serialize ++ serWriteData v.nonce

def serializeTail (v : Version) : List Byte :=
  serWriteData v.startHeight ++
    if kRelayedTxsVersion ≤ v.protocolVersion then serWriteBool v.relay else []

def serialize (v : Version) : List Byte :=
  v.serializeHead ++ serializeString (cutTo kMaxSubVersionSize v.userAgent) ++ v.serializeTail

/-- The fields in front of the user agent. -/
def deserializeHead (self : Version) : Deserializer Version := do
  let protocolVersion ← serialRead (serReadData 32)
  let services ← serialRead (serReadData 64)
  let timestamp ← serialRead (serReadData 64)
  let addrRecv ← serialRead (deserializeMember NetAddr.deserialize)
  let addrFrom ← serialRead (deserializeMember NetAddr.deserialize)
  let nonce ← serialRead (serReadData 64)
  pure { self with protocolVersion, services, timestamp, addrRecv, addrFrom, nonce }

/-- The fields behind the user agent. -/
def deserializeTail (self : Version) : Deserializer Version := do
  let startHeight ← serialRead (serReadData 32)
  if kRelayedTxsVersion ≤ self.protocolVersion then do
    let relay ← serialRead serReadBool
    pure { self with startHeight, relay }
  else pure { self with startHeight }

def deserialize (self : Version) : Deserializer Version := do
  let v ← deserializeHead self
  let userAgent ← serialRead deserializeString
  deserializeTail { v with userAgent := cutTo kMaxSubVersionSize userAgent }

/-- The user agent as it is read, before it is cut. -/
def readUserAgent (self : Version) : Deserializer (List Byte) := do
  let _ ← deserializeHead self
  serialRead deserializeString

end Version

structure Addr where
  addrList : List NetAddr := []
deriving DecidableEq

namespace Addr

def isValid (m : Addr) : Bool := !m.addrList.isEmpty

def serializedSize (m : Addr) : Nat :=
  varIntSize m.addrList.length + (m.addrList.map NetAddr.serializedSize).sum

def serialize (m : Addr) : List Byte := serializeVector NetAddr.serialize m.addrList

def deserialize : Deserializer Addr := do
  let addrList ← serialRead (deserializeClassVector (deserializeMember NetAddr.deserialize))
  pure { addrList }

end Addr

structure InvVect where
  type : U32 := 0
  hash : Hash256 := Bytes.zero 32
deriving DecidableEq

namespace InvVect

def serializedSize (_ : InvVect) : Nat := 4 + 32

def serialize (v : InvVect) : List Byte := serWriteData v.type ++ v.hash.data

def deserialize : Deserializer InvVect := do
  let type ← serialRead (serReadData 32)
  let hash ← serialRead (deserializeArray 32)
  pure { type, hash }

end InvVect

structure Inv where
  invVects : List InvVect := []
deriving DecidableEq

namespace Inv

def isValid (m : Inv) : Bool := !m.invVects.isEmpty

def serializedSize (m : Inv) : Nat :=
  varIntSize m.invVects.length + (m.invVects.map InvVect.serializedSize).sum

def serialize (m : Inv) : List Byte := serializeVector InvVect.serialize m.invVects

def deserialize : Deserializer Inv := do
  let invVects ← serialRead (deserializeClassVector (deserializeMember InvVect.deserialize))
  pure { invVects }

end Inv

structure GetBlocks where
  version : U32 := kUnknownProtoVersion
  hashes : List Hash256 := []
  hashStop : Hash256 := Bytes.zero 32
deriving DecidableEq

namespace GetBlocks

def isValid (m : GetBlocks) : Bool :=
  m.version != kUnknownProtoVersion &&
    (!m.hashes.isEmpty || decide (kMaxBlockLoactorSize < m.hashes.length))

def serializedSize (m : GetBlocks) : Nat :=
  4 + varIntSize m.hashes.length + m.hashes.length * 32 + 32

def serialize (m : GetBlocks) : List Byte :=
  serWriteData m.version ++ serializeVector Bytes.data m.hashes ++ m.hashStop.data

def deserialize : Deserializer GetBlocks := do
  let version ← serialRead (serReadData 32)
  let hashes ← serialRead (deserializeClassVector (deserializeArray 32))
  let hashStop ← serialRead (deserializeArray 32)
  pure { version, hashes, hashStop }

end GetBlocks

structure Ping where
  nonce : U64 := 0
  protocolVersion : U32 := kProtocolVersion
deriving DecidableEq

namespace Ping

def isValid (m : Ping) : Bool :=
  if m.protocolVersion < kBip31Version then true else m.nonce != 0

def serializedSize (m : Ping) : Nat := if m.protocolVersion < kBip31Version then 0 else 8

def serialize (m : Ping) : List Byte :=
  if kBip31Version ≤ m.protocolVersion then serWriteData m.nonce else []

def deserialize (self : Ping) : Deserializer Ping :=
  if kBip31Version ≤ self.protocolVersion then do
    let nonce ← serialRead (serReadData 64)
    pure { self with nonce }
  else pure self

end Ping

structure Pong where
  nonce : U64 := 0
deriving DecidableEq

namespace Pong

def isValid (m : Pong) : Bool := m.nonce != 0

def serializedSize (_ : Pong) : Nat := 8

def serialize (m : Pong) : List Byte := serWriteData m.nonce

def deserialize : Deserializer Pong := do
  let nonce ← serialRead (serReadData 64)
  pure { nonce }

end Pong

structure Reject where
  message : List Byte := []
  ccode : Byte := 0
  reason : List Byte := []
  data : Hash256 := Bytes.zero 32
deriving DecidableEq

namespace Reject

/-- The codes of `CCode` other than `kRejectUnknown`. -/
def knownCodes : List Byte := [0x01, 0x10, 0x11, 0x12, 0x40, 0x41, 0x42, 0x43]

def isValid (m : Reject) : Bool := knownCodes.contains m.ccode

/-- Only a rejected block or transaction carries its hash. -/
def hasData (message : List Byte) : Bool := message == kMsgBlock || message == kMsgTx

def serializedSize (m : Reject) : Nat :=
  varIntSize m.message.length + varIntSize m.reason.length + m.message.length +
    m.reason.length + 1 + if hasData m.message then 32 else 0

def serialize (m : Reject) : List Byte :=
  serializeString (cutTo MessageHeader.kCommandSize m.message) ++ serWriteData m.ccode ++
    serializeString (cutTo kMaxRejectMessageLength m.reason) ++
    if hasData m.message then m.data.data else []

def deserialize (self : Reject) : Deserializer Reject := do
  let message ← serialRead deserializeString
  let message := cutTo MessageHeader.kCommandSize message
  let ccode ← serialRead (serReadData 8)
  let reason ← serialRead deserializeString
  let reason := cutTo kMaxRejectMessageLength reason
  if hasData message then do
    let data ← serialRead (deserializeArray 32)
    pure { message, ccode, reason, data }
  else pure { message, ccode, reason, data := self.data }

end Reject

structure SendCmpct where
  highBandwidthMode : Bool := false
  version : U64 := 0
deriving DecidableEq

namespace SendCmpct

def isValid (m : SendCmpct) : Bool := m.version == 1 || m.version == 2

def serializedSize (_ : SendCmpct) : Nat := 1 + 8

def serialize (m : SendCmpct) : List Byte :=
  serWriteBool m.highBandwidthMode ++ serWriteData m.version

def deserialize : Deserializer SendCmpct := do
  let highBandwidthMode ← serialRead serReadBool
  let version ← serialRead (serReadData 64)
  pure { highBandwidthMode, version }

end SendCmpct

/-- The messages that `ParseMsgData` decodes and that `SendMsg` sends. -/
inductive Message where
  | version (m : Version)
  | verack
  | addr (m : Addr)
  | inv (m : Inv)
  | getaddr
  | ping (m : Ping)
  | pong (m : Pong)
  | reject (m : Reject)
  | sendheaders
  | sendcmpct (m : SendCmpct)
deriving DecidableEq

namespace Message

def command : Message → List Byte
  | version _ => kMsgVersion
  | verack => kMsgVerack
  | addr _ => kMsgAddr
  | inv _ => kMsgInv
  | getaddr => kMsgGetAddr
  | ping _ => kMsgPing
  | pong _ => kMsgPong
  | reject _ => kMsgReject
  | sendheaders => kMsgSendHeaders
  | sendcmpct _ => kMsgSendCmpct

def isValid : Message → Bool
  | version m => m.isValid
  | addr m => m.isValid
  | inv m => m.isValid
  | ping m => m.isValid
  | pong m => m.isValid
  | reject m => m.isValid
  | sendcmpct m => m.isValid
  | verack | getaddr | sendheaders => true

def serializedSize : Message → Nat
  | version m => m.serializedSize
  | addr m => m.serializedSize
  | inv m => m.serializedSize
  | ping m => m.serializedSize
  | pong m => m.serializedSize
  | reject m => m.serializedSize
  | sendcmpct m => m.serializedSize
  | verack | getaddr | sendheaders => 0

def serialize : Message → List Byte
  | version m => m.serialize
  | addr m => m.serialize
  | inv m => m.serialize
  | ping m => m.serialize
  | pong m => m.serialize
  | reject m => m.serialize
  | sendcmpct m => m.serialize
  | verack | getaddr | sendheaders => []

/-- The chain of `ParseMsgData` over the command; `none` is the unknown message. -/
def decoder (command : List Byte) (protocolVersion : U32) : Option (Deserializer Message) :=
  if command = kMsgVersion then some (version <$> Version.deserialize {})
  else if command = kMsgVerack then some (pure verack)
  else if command = kMsgAddr then some (addr <$> Addr.deserialize)
  else if command = kMsgInv then some (inv <$> Inv.deserialize)
  else if command = kMsgGetAddr then some (pure getaddr)
  else if command = kMsgPing then some (ping <$> Ping.deserialize { nonce := 0, protocolVersion })
  else if command = kMsgPong then some (pong <$> Pong.deserialize)
  else if command = kMsgReject then some (reject <$> Reject.deserialize {})
  else if command = kMsgSendHeaders then some (pure sendheaders)
  else if command = kMsgSendCmpct then some (sendcmpct <$> SendCmpct.deserialize)
  else none

/-- The links of the chain. -/
inductive Decodes (protocolVersion : U32) : List Byte → Deserializer Message → Prop
  | version : Decodes protocolVersion kMsgVersion (version <$> Version.deserialize {})
  | verack : Decodes protocolVersion kMsgVerack (pure verack)
  | addr : Decodes protocolVersion kMsgAddr (addr <$> Addr.deserialize)
  | inv : Decodes protocolVersion kMsgInv (inv <$> Inv.deserialize)
  | getaddr : Decodes protocolVersion kMsgGetAddr (pure getaddr)
  | ping : Decodes protocolVersion kMsgPing
      (ping <$> Ping.deserialize { nonce := 0, protocolVersion })
  | pong : Decodes protocolVersion kMsgPong (pong <$> Pong.deserialize)
  | reject : Decodes protocolVersion kMsgReject (reject <$> Reject.deserialize {})
  | sendheaders : Decodes protocolVersion kMsgSendHeaders (pure sendheaders)
  | sendcmpct : Decodes protocolVersion kMsgSendCmpct (sendcmpct <$> SendCmpct.deserialize)

theorem decodes_of_decoder {command : List Byte} {protocolVersion : U32}
    {decode : Deserializer Message} (h : decoder command protocolVersion = some decode) :
    Decodes protocolVersion command decode := by
  have link : ∀ {name : List Byte} {read : Deserializer Message}
      {rest : Option (Deserializer Message)}, Decodes protocolVersion name read →
      (rest = some decode → Decodes protocolVersion command decode) →
      (if command = name then some read else rest) = some decode →
      Decodes protocolVersion command decode := by
    intro name read rest hone hrest hif
    by_cases hname : command = name
    · rw [if_pos hname] at hif
      cases hif
      exact hname ▸ hone
    · rw [if_neg hname] at hif
      exact hrest hif
  refine link .version (link .verack (link .addr (link .inv (link .getaddr (link .ping
    (link .pong (link .reject (link .sendheaders (link .sendcmpct ?_))))))))) h
  exact fun hnone => absurd hnone (by simp)

end Message

end Messages
