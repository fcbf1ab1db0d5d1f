import Btclite.Library.Tables
import Btclite.Network.Address

/-!
# Peers

The address book of `peers.h`: a map of peers, two tables from groups to peers,
and the keys of the map in random order. Keys are hashes of an address or of its
group, under a secret of the book. What a call finds on the clock, draws at
random or shuffles is passed to it.
-/

namespace Peers

open Endian Serialize Address Tables

abbrev I64 := BitVec 64

structure Peer where
  addr : NetAddr := {}
  source : NetAddr := {}
  attempts : U32 := 0
  lastTry : I64 := 0
  lastSuccess : I64 := 0
deriving DecidableEq

/-- The part of a book that is a message, and goes to disk. -/
structure ProtoPeers where
  mapPeers : AList fun _ : U64 => Peer := ∅
  newTbl : AList fun _ : U64 => U64 := ∅
  triedTbl : AList fun _ : U64 => U64 := ∅
  key : Hash256

structure Book where
  protoPeers : ProtoPeers
  randOrderKeys : List U64 := []
  key : Hash256

/-- Ways not to return: following the end of a map, or an index out of range. -/
inductive Fault where
  | dangling
  | outOfRange
deriving DecidableEq

/-- A book as it is constructed. -/
def fresh (key : Hash256) : Book := { protoPeers := { key }, key }

section Judging

def kPeerHorizonDays : Nat := 30
def kPeerRetries : U32 := 3
def kMinPeerFailDays : Nat := 7
def kMaxPeerFailures : U32 := 10

def secondsOf (days : Nat) : I64 := BitVec.ofNat 64 (days * 24 * 60 * 60)

def isTerriblePeer (peer : Peer) (now : I64) : Bool :=
  let timestamp : I64 := peer.addr.timestamp.setWidth 64
  if peer.lastTry != 0 && (now - 60).sle peer.lastTry then false
  else if (now + 10 * 60).slt timestamp then true
  else if peer.addr.timestamp == 0 || (secondsOf kPeerHorizonDays).slt (now - timestamp) then true
  else if peer.lastSuccess == 0 && decide (kPeerRetries ≤ peer.attempts) then true
  else (secondsOf kMinPeerFailDays).slt (now - peer.lastSuccess) &&
    decide (kMaxPeerFailures ≤ peer.attempts)

end Judging

namespace Book

variable (sha256 : List Byte → Hash256) (s : Book)

/-- The vector starts with as many zeros as the address has bytes. -/
def mapKeyOf (key : Hash256) (ip : IpAddr) : U64 :=
  fromLittleEndian 64
    ((sha256 (key.data ++ serializeByteVector (List.replicate 16 0 ++ ip.data))).data.take 8)

def groupKeyOf (key : Hash256) (addr : NetAddr) : U64 :=
  fromLittleEndian 64 ((sha256 (key.data ++ serializeByteVector addr.getGroup)).data.take 8)

/-- `MakeMapKey`. -/
def makeMapKey (addr : NetAddr) (byGroup : Bool) : U64 :=
  if byGroup then groupKeyOf sha256 s.key addr else mapKeyOf sha256 s.key addr.ip

@[simp] theorem makeMapKey_false (addr : NetAddr) :
    s.makeMapKey sha256 addr false = mapKeyOf sha256 s.key addr.ip := rfl

@[simp] theorem makeMapKey_true (addr : NetAddr) :
    s.makeMapKey sha256 addr true = groupKeyOf sha256 s.key addr := rfl

section Access

abbrev mapPeers : AList fun _ : U64 => Peer := s.protoPeers.mapPeers

abbrev newTbl : AList fun _ : U64 => U64 := s.protoPeers.newTbl

abbrev triedTbl : AList fun _ : U64 => U64 := s.protoPeers.triedTbl

def setMapPeers (mapPeers : AList fun _ : U64 => Peer) : Book :=
  { s with protoPeers := { s.protoPeers with mapPeers } }

def setNewTbl (newTbl : AList fun _ : U64 => U64) : Book :=
  { s with protoPeers := { s.protoPeers with newTbl } }

def setTriedTbl (triedTbl : AList fun _ : U64 => U64) : Book :=
  { s with protoPeers := { s.protoPeers with triedTbl } }

/-- Whether the peer is there, and in which of the tables. -/
def find (mapKey groupKey : U64) : Option (Peer × Bool × Bool) :=
  (s.mapPeers.lookup mapKey).map fun peer =>
    (peer, s.newTbl.lookup groupKey == some mapKey, s.triedTbl.lookup groupKey == some mapKey)

/-- `Find` of an address. -/
def findAddr (addr : NetAddr) : Option (Peer × Bool × Bool) :=
  s.find (s.makeMapKey sha256 addr false) (s.makeMapKey sha256 addr true)

/-- `map_peers().find(key)->second`. -/
def peerAt (key : U64) : Except Fault Peer :=
  match s.mapPeers.lookup key with
  | some peer => .ok peer
  | none => .error .dangling

variable {s} in
theorem peerAt_ok {key : U64} {peer : Peer} (h : s.mapPeers.lookup key = some peer) :
    s.peerAt key = .ok peer := by
  rw [peerAt, h]

/-- The peer that holds the slot of a group, whether that is a tried one, and its key. -/
def findSameGroup (groupKey : U64) : Except Fault (Option (Peer × Bool × U64)) :=
  match s.newTbl.lookup groupKey with
  | some key => (fun peer => some (peer, false, key)) <$> s.peerAt key
  | none =>
    match s.triedTbl.lookup groupKey with
    | some key => (fun peer => some (peer, true, key)) <$> s.peerAt key
    | none => .ok none

def updatePeer (mapKey : U64) (f : Peer → Peer) : Except Fault Book :=
  (fun peer => s.setMapPeers (s.mapPeers.insert mapKey (f peer))) <$> s.peerAt mapKey

def eraseRand (key : U64) : Book :=
  { s with randOrderKeys := eraseBySwap key s.randOrderKeys }

/-- Take a peer out of the map and the order. -/
def erasePeer (key : U64) : Book :=
  (s.setMapPeers (s.mapPeers.erase key)).eraseRand key

end Access

section Operations

/-- Whether the time of a known peer is due for an update. -/
def isOutdated (existPeer : Peer) (addr : NetAddr) (timePenalty now : I64) : Bool :=
  let currentlyOnline := (now - addr.timestamp.setWidth 64).slt (24 * 60 * 60)
  let updateInterval : U32 := if currentlyOnline then 60 * 60 else 24 * 60 * 60
  addr.timestamp != 0 && (existPeer.addr.timestamp == 0 ||
    (existPeer.addr.timestamp.setWidth 64 : I64).slt
      ((addr.timestamp - updateInterval).setWidth 64 - timePenalty))

/-- The time of an address less the penalty, and no less than 0. -/
def penalised (addr : NetAddr) (timePenalty : I64) : U32 :=
  let time : I64 := addr.timestamp.setWidth 64 - timePenalty
  (if (0 : I64).slt time then time else 0).setWidth 32

/-- What a known address changes. -/
def refresh (mapKey : U64) (existPeer : Peer) (addr : NetAddr) (timePenalty now : I64) :
    Except Fault Book := do
  let s ← if isOutdated existPeer addr timePenalty now then
      s.updatePeer mapKey fun p =>
        { p with addr := { p.addr with timestamp := penalised addr timePenalty } }
    else pure s
  s.updatePeer mapKey fun p => { p with addr := { p.addr with
    services := existPeer.addr.services ||| addr.services } }

/-- An address that is there already is thrown out, refreshed or left alone. -/
def addKnown (mapKey groupKey : U64) (found : Peer × Bool × Bool) (addr : NetAddr)
    (timePenalty now nowOnline : I64) : Except Fault Book :=
  let (existPeer, isNew, isTried) := found
  if isTerriblePeer existPeer now then
    let s := if isNew then s.setNewTbl (s.newTbl.erase groupKey)
      else if isTried then s.setTriedTbl (s.triedTbl.erase groupKey)
      else s
    .ok (s.erasePeer mapKey)
  else if addr.timestamp == 0 || (existPeer.addr.timestamp != 0 &&
      decide (addr.timestamp ≤ existPeer.addr.timestamp)) then .ok s
  else s.refresh mapKey existPeer addr timePenalty nowOnline

/-- A terrible peer gives up the slot of the group; anyone else keeps it. -/
def makeRoom (groupKey : U64) (now : I64) : Except Fault (Bool × Book) := do
  match ← s.findSameGroup groupKey with
  | some (existPeer, isTried, key) =>
    if isTerriblePeer existPeer now then
      let s := if isTried then s.setTriedTbl (s.triedTbl.erase groupKey)
        else s.setNewTbl (s.newTbl.erase groupKey)
      pure (true, s.erasePeer key)
    else pure (false, s)
  | none => pure (true, s)

def addNewPeer (mapKey groupKey : U64) (addNew : Bool) (addr source : NetAddr) : Book :=
  let s := s.setMapPeers (insertNew mapKey { addr, source, attempts := 0 } s.mapPeers)
  let s := { s with randOrderKeys := s.randOrderKeys ++ [mapKey] }
  if addNew then s.setNewTbl (insertNew groupKey mapKey s.newTbl) else s

def add (addr source : NetAddr) (timePenalty now nowOnline : I64) :
    Except Fault (Bool × Book) := do
  let mapKey := s.makeMapKey sha256 addr false
  let groupKey := s.makeMapKey sha256 addr true
  if !addr.isRoutable then pure (false, s)
  else
    let timePenalty := if addr.sameEndpoint source then 0 else timePenalty
    match s.find mapKey groupKey with
    | some found =>
      let s ← s.addKnown mapKey groupKey found addr timePenalty now nowOnline
      pure (false, s)
    | none =>
      let (addNew, s) ← s.makeRoom groupKey now
      pure (true, s.addNewPeer mapKey groupKey addNew addr source)

/-- `Add` of a vector, with what each address finds on the clock. -/
def addAll (source : NetAddr) (timePenalty : I64) : Book → List (NetAddr × I64 × I64) →
    Except Fault (Bool × Book)
  | s, [] => pure (false, s)
  | s, (addr, now, nowOnline) :: rest => do
    let (added, s) ← s.add sha256 addr source timePenalty now nowOnline
    let (more, s) ← addAll source timePenalty s rest
    pure (added || more, s)

def makeTried (addr : NetAddr) (time : I64) : Except Fault (Bool × Book) := do
  let mapKey := s.makeMapKey sha256 addr false
  let groupKey := s.makeMapKey sha256 addr true
  match s.find mapKey groupKey with
  | none => pure (false, s)
  | some (existPeer, _, isTried) =>
    if !existPeer.addr.sameEndpoint addr then pure (false, s)
    else
      let s ← s.updatePeer mapKey fun p =>
        { p with lastSuccess := time, lastTry := time, attempts := 0 }
      if isTried then pure (false, s)
      else
        let s := s.setTriedTbl (insertNew groupKey mapKey s.triedTbl)
        pure (true, s.setNewTbl (s.newTbl.erase groupKey))

/-- Change a peer that is known under this very endpoint. -/
def updateKnown (addr : NetAddr) (f : Peer → Peer) : Except Fault (Bool × Book) := do
  let mapKey := s.makeMapKey sha256 addr false
  match s.find mapKey (s.makeMapKey sha256 addr true) with
  | none => pure (false, s)
  | some (existPeer, _, _) =>
    if !existPeer.addr.sameEndpoint addr then pure (false, s)
    else
      let s ← s.updatePeer mapKey f
      pure (true, s)

def setServices (addr : NetAddr) (services : U64) : Except Fault (Bool × Book) :=
  s.updateKnown sha256 addr fun p => { p with addr := { p.addr with services } }

def attempt (addr : NetAddr) (time : I64) : Except Fault (Bool × Book) :=
  s.updateKnown sha256 addr fun p => { p with lastTry := time, attempts := p.attempts + 1 }

def updateTime (addr : NetAddr) (time : I64) : Except Fault (Bool × Book) :=
  s.updateKnown sha256 addr fun p =>
    if (20 * 60 : I64).slt (time - p.addr.timestamp.setWidth 64) then
      { p with addr := { p.addr with timestamp := time.setWidth 32 } }
    else p

/-- The table that `Select` takes a peer from, if there is one to take. -/
def selectTable (newOnly : Bool) (coin : U64) : Option (AList fun _ : U64 => U64) :=
  if s.newTbl.entries.length = 0 ∧ s.triedTbl.entries.length = 0 then none
  else if newOnly = true ∧ s.newTbl.entries.length = 0 then none
  else if newOnly = false ∧ 0 < s.triedTbl.entries.length ∧
      (s.newTbl.entries.length = 0 ∨ coin = 0) then some s.triedTbl
  else some s.newTbl

/-- `Select`, with a coin and a position that were drawn. -/
def select (newOnly : Bool) (coin : U64) (randPos : Nat) : Except Fault (Option Peer) :=
  match s.selectTable newOnly coin with
  | none => pure none
  | some tbl =>
    match tbl.entries[randPos]? with
    | some slot => some <$> s.peerAt slot.2
    | none => .error .outOfRange

def kMaxGetaddrPct : Nat := 23
def kMaxGetaddrCount : Nat := 2500

/-- How many of the peers `GetAddrs` looks at. -/
def getAddrsCount : Nat :=
  if kMaxGetaddrPct * s.mapPeers.entries.length / 100 < kMaxGetaddrCount then
    kMaxGetaddrPct * s.mapPeers.entries.length / 100
  else kMaxGetaddrCount

/-- The addresses of those at the first places of the order that are not terrible. -/
def collect (now : Nat → I64) : Nat → Except Fault (List NetAddr)
  | 0 => pure []
  | i + 1 => do
    let out ← collect now i
    match s.randOrderKeys[i]? with
    | some key =>
      let peer ← s.peerAt key
      pure (if isTerriblePeer peer (now i) then out else out ++ [peer.addr])
    | none => .error .outOfRange

/-- `GetAddrs`, with the order as it was shuffled. -/
def getAddrs (order : List U64) (now : Nat → I64) : Except Fault (List NetAddr × Book) := do
  let s := { s with randOrderKeys := order }
  let out ← s.collect now s.getAddrsCount
  pure (out, s)

def clear : Book :=
  { s with
    protoPeers := { s.protoPeers with newTbl := ∅, triedTbl := ∅, mapPeers := ∅ }
    randOrderKeys := [] }

end Operations

section Storage

/-- `ParseFromIstream`; the secret and the random order are not part of the message. -/
def parseFromIstream (stored : ProtoPeers) : Book := { s with protoPeers := stored }

end Storage

end Book

/-- What `DumpPeers` leaves on disk. -/
def dumpPeers (peers : Book) : ProtoPeers := peers.protoPeers

def loadPeers (stored : ProtoPeers) (peers : Book) : Book := peers.clear.parseFromIstream stored

end Peers
