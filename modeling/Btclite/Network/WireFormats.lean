import Btclite.Network.Messages

/-!
# Canonical message formats

One strict parser for each message class. Every class but `Version` agrees with
its parser on all inputs; in a `Version` message the user agent is long enough
to need a three-byte length, which the code may read over stale memory, so its
part is stated around the user agent.
-/

namespace WireFormats

open Endian Serialize Agreement Canonical CanonicalVectors Address Messages

def invVect : Parser InvVect := do
  let type ← word 32
  let hash ← array 32
  pure { type, hash }

def addr : Parser Addr := do
  let addrList ← vector NetAddr.canonical
  pure { addrList }

def inv : Parser Inv := do
  let invVects ← vector invVect
  pure { invVects }

def getBlocks : Parser GetBlocks := do
  let version ← word 32
  let hashes ← vector (array 32)
  let hashStop ← array 32
  pure { version, hashes, hashStop }

def ping (self : Ping) : Parser Ping :=
  if kBip31Version ≤ self.protocolVersion then do
    let nonce ← word 64
    pure { self with nonce }
  else pure self

def pong : Parser Pong := do
  let nonce ← word 64
  pure { nonce }

def sendCmpct : Parser SendCmpct := do
  let highBandwidthMode ← bool
  let version ← word 64
  pure { highBandwidthMode, version }

def reject (self : Reject) : Parser Reject := do
  let message ← string MessageHeader.kCommandSize
  let ccode ← word 8
  let reason ← string kMaxRejectMessageLength
  if Reject.hasData message then do
    let data ← array 32
    pure { message, ccode, reason, data }
  else pure { message, ccode, reason, data := self.data }

def versionHead (self : Version) : Parser Version := do
  let protocolVersion ← word 32
  let services ← word 64
  let timestamp ← word 64
  let addrRecv ← NetAddr.canonical
  let addrFrom ← NetAddr.canonical
  let nonce ← word 64
  pure { self with protocolVersion, services, timestamp, addrRecv, addrFrom, nonce }

def versionTail (self : Version) : Parser Version := do
  let startHeight ← word 32
  if kRelayedTxsVersion ≤ self.protocolVersion then do
    let relay ← bool
    pure { self with startHeight, relay }
  else pure { self with startHeight }

def version (self : Version) : Parser Version := do
  let v ← versionHead self
  let userAgent ← string kMaxSubVersionSize
  versionTail { v with userAgent }

section Agreeing

theorem invVect_agrees : Agrees view [] InvVect.deserialize invVect InvVect.serialize := by
  refine Agrees.bind (serReadData_agrees rfl) fun type _ => ?_
  exact Agrees.bind (array_agrees 32) fun hash _ => Agrees.pure rfl

theorem addr_agrees : Agrees view [] Addr.deserialize addr Addr.serialize := by
  refine Agrees.bind (deserializeClassVector_agrees
    (deserializeMember_agrees NetAddr.canonical_agrees)) fun addrList _ => ?_
  exact Agrees.pure rfl

theorem inv_agrees : Agrees view [] Inv.deserialize inv Inv.serialize := by
  refine Agrees.bind (deserializeClassVector_agrees
    (deserializeMember_agrees invVect_agrees)) fun invVects _ => ?_
  exact Agrees.pure rfl

theorem getBlocks_agrees :
    Agrees view [] GetBlocks.deserialize getBlocks GetBlocks.serialize := by
  refine Agrees.bind (serReadData_agrees rfl) fun version _ => ?_
  refine Agrees.bind (deserializeClassVector_agrees (array_agrees 32)) fun hashes _ => ?_
  exact Agrees.bind (array_agrees 32) fun hashStop _ => Agrees.pure rfl

theorem ping_agrees (self : Ping) :
    Agrees view [] (Ping.deserialize self) (ping self) Ping.serialize := by
  refine Agrees.ite (fun h => ?_) fun h => ?_
  · refine Agrees.bind (serReadData_agrees rfl) fun nonce _ => Agrees.pure ?_
    simp [Ping.serialize, h]
  · exact Agrees.pure (by simp [Ping.serialize, h])

theorem pong_agrees : Agrees view [] Pong.deserialize pong Pong.serialize :=
  Agrees.bind (serReadData_agrees rfl) fun _ _ => Agrees.pure rfl

theorem sendCmpct_agrees :
    Agrees view [] SendCmpct.deserialize sendCmpct SendCmpct.serialize := by
  refine Agrees.bind serReadBool_agrees fun highBandwidthMode _ => ?_
  exact Agrees.bind (serReadData_agrees rfl) fun version _ => Agrees.pure rfl

theorem reject_agrees (self : Reject) :
    Agrees view [] (Reject.deserialize self) (reject self) Reject.serialize := by
  refine Agrees.bind_map (cutTo MessageHeader.kCommandSize)
    (string_agrees (by decide)) fun message _ => ?_
  refine Agrees.bind (serReadData_agrees rfl) fun ccode _ => ?_
  refine Agrees.bind_map (cutTo kMaxRejectMessageLength)
    (string_agrees (by decide)) fun reason _ => ?_
  refine Agrees.ite (fun h => ?_) fun h => ?_
  · refine Agrees.bind (array_agrees 32) fun data _ => Agrees.pure ?_
    simp [Reject.serialize, h]
  · exact Agrees.pure (by simp [Reject.serialize, h])

theorem versionHead_agrees (self : Version) :
    Agrees view [] (Version.deserializeHead self) (versionHead self) Version.serializeHead := by
  refine Agrees.bind (serReadData_agrees rfl) fun protocolVersion _ => ?_
  refine Agrees.bind (serReadData_agrees rfl) fun services _ => ?_
  refine Agrees.bind (serReadData_agrees rfl) fun timestamp _ => ?_
  refine Agrees.bind (deserializeMember_agrees NetAddr.canonical_agrees) fun addrRecv _ => ?_
  refine Agrees.bind (deserializeMember_agrees NetAddr.canonical_agrees) fun addrFrom _ => ?_
  refine Agrees.bind (serReadData_agrees rfl) fun nonce _ => Agrees.pure ?_
  rfl

theorem versionTail_agrees (self : Version) :
    Agrees view [] (Version.deserializeTail self) (versionTail self) Version.serializeTail := by
  refine Agrees.bind (serReadData_agrees rfl) fun startHeight _ => ?_
  refine Agrees.ite (fun h => ?_) fun h => ?_
  · refine Agrees.bind serReadBool_agrees fun relay _ => Agrees.pure ?_
    simp [Version.serializeTail, h]
  · exact Agrees.pure (by simp [Version.serializeTail, h])

end Agreeing

end WireFormats
