import Btclite.Utility.CanonicalVectors

/-!
# Network addresses

`NetAddr` of `network_address.h`: the message it holds, the address families it
tells apart and its thirty bytes on the wire. The port is kept in a 32-bit
field of which every accessor uses the low half. The scope id never crosses the
wire and is left out.
-/

namespace Address

open Endian Serialize Agreement Canonical CanonicalVectors

abbrev IpAddr := Bytes 16

def kPchIpv4 : List Byte := [0, 0, 0, 0, 0, 0, 0, 0, 0, 0, 0xff, 0xff]
def kPchOnionCat : List Byte := [0xFD, 0x87, 0xD8, 0x7E, 0xEB, 0x43]
def kBtcIpPrefix : List Byte := [0xFD, 0x6B, 0x88, 0xC0, 0x87, 0x24]

structure NetAddr where
  timestamp : U32 := 0
  services : U64 := 0
  ip : IpAddr := Bytes.zero 16
  protoPort : U32 := 0
deriving DecidableEq

namespace NetAddr

instance : Inhabited NetAddr := ⟨{}⟩

def port (a : NetAddr) : U16 := a.protoPort.setWidth 16

def getByte (a : NetAddr) (n : Nat) : Byte := a.ip.data.getD n 0

def isIpv4 (a : NetAddr) : Bool := a.ip.data.take 12 == kPchIpv4

def isTor (a : NetAddr) : Bool := a.ip.data.take 6 == kPchOnionCat

def isInternal (a : NetAddr) : Bool := a.ip.data.take 6 == kBtcIpPrefix

def isIpv6 (a : NetAddr) : Bool := !a.isIpv4 && !a.isTor && !a.isInternal

/-- The documentation range 2001:0DB8::/32. -/
def isRFC3849 (a : NetAddr) : Bool :=
  a.isIpv6 && a.getByte 0 == 0x20 && a.getByte 1 == 0x01 && a.getByte 2 == 0x0D &&
    a.getByte 3 == 0xB8

def isValid (a : NetAddr) : Bool :=
  if a.ip.data.take 9 == kPchIpv4.drop 3 then false
  else if a.ip.data == List.replicate 16 0 then false
  else if a.isRFC3849 then false
  else if a.isInternal then false
  else if a.isIpv4 && a.ip.data.drop 12 == [0xff, 0xff, 0xff, 0xff] then false
  else if a.isIpv4 && a.ip.data.drop 12 == [0, 0, 0, 0] then false
  else true

/-- A loopback address of either family. -/
def isLocal (a : NetAddr) : Bool :=
  (a.isIpv4 && (a.getByte 12 == 127 || a.getByte 12 == 0)) ||
    (a.isIpv6 && a.ip.data == List.replicate 15 0 ++ [1])

/-- An element of `ip`, as the machine loads it. -/
def protoIp (a : NetAddr) (n : Nat) : U32 := fromLittleEndian 32 ((a.ip.data.drop (4 * n)).take 4)

section Ranges

/-- Private networks: 10/8, 192.168/16 and 172.16/12. -/
def isRFC1918 (a : NetAddr) : Bool :=
  a.isIpv4 && (a.getByte 12 == 10 || (a.getByte 12 == 192 && a.getByte 13 == 168) ||
    (a.getByte 12 == 172 && decide (16 ≤ a.getByte 13) && decide (a.getByte 13 ≤ 31)))

def isRFC2544 (a : NetAddr) : Bool :=
  a.isIpv4 && a.getByte 12 == 198 && (a.getByte 13 == 18 || a.getByte 13 == 19)

def isRFC6598 (a : NetAddr) : Bool :=
  a.isIpv4 && a.getByte 12 == 100 && decide (64 ≤ a.getByte 13) && decide (a.getByte 13 ≤ 127)

def isRFC5737 (a : NetAddr) : Bool :=
  a.isIpv4 && ((a.getByte 12 == 192 && a.getByte 13 == 0 && a.getByte 14 == 2) ||
    (a.getByte 12 == 198 && a.getByte 13 == 51 && a.getByte 14 == 100) ||
    (a.getByte 12 == 203 && a.getByte 13 == 0 && a.getByte 14 == 113))

def isRFC3927 (a : NetAddr) : Bool := a.isIpv4 && a.getByte 12 == 169 && a.getByte 13 == 254

def isRFC3964 (a : NetAddr) : Bool := a.isIpv6 && a.getByte 0 == 0x20 && a.getByte 1 == 0x02

def isRFC4193 (a : NetAddr) : Bool := a.isIpv6 && a.getByte 0 &&& 0xFE == 0xFC

def isRFC4380 (a : NetAddr) : Bool :=
  a.isIpv6 && a.getByte 0 == 0x20 && a.getByte 1 == 0x01 && a.getByte 2 == 0 && a.getByte 3 == 0

def isRFC4843 (a : NetAddr) : Bool :=
  a.isIpv6 && a.getByte 0 == 0x20 && a.getByte 1 == 0x01 && a.getByte 2 == 0x00 &&
    a.getByte 3 &&& 0xF0 == 0x10

def isRFC4862 (a : NetAddr) : Bool := a.isIpv6 && a.protoIp 0 == 0x80FE && a.protoIp 1 == 0

def isRFC6052 (a : NetAddr) : Bool := a.isIpv6 && a.protoIp 0 == 0x9BFF6400 && a.protoIp 1 == 0

def isRFC6145 (a : NetAddr) : Bool :=
  a.isIpv6 && a.protoIp 0 == 0 && a.protoIp 1 == 0 && a.protoIp 2 == 0xFFFF

def isRoutable (a : NetAddr) : Bool :=
  a.isValid && !(a.isRFC1918 || a.isRFC2544 || a.isRFC3927 || a.isRFC4862 || a.isRFC6598 ||
    a.isRFC5737 || a.isRFC4193 || a.isRFC4843 || (a.isRFC4193 && !a.isTor) || a.isLocal ||
    a.isInternal)

def kAfUnroutable : Byte := 0
def kAfIpv4 : Byte := 1
def kAfIpv6 : Byte := 2
def kAfTor : Byte := 3
def kAfInternal : Byte := 4

/-- A family, and so many bits of the address; the last byte has ones for what is left out. -/
def groupBits (a : NetAddr) (af : Byte) (startByte bits : Nat) : List Byte :=
  af :: (List.range (bits / 8)).map (fun i => a.getByte (startByte + i)) ++
    if 0 < bits % 8 then [a.getByte (startByte + bits / 8) ||| ((1 <<< (8 - bits % 8)) - 1)]
    else []

/-- `GetGroup`. Local addresses are not routable, so what is set for them first is lost. -/
def getGroup (a : NetAddr) : List Byte :=
  if a.isInternal then a.groupBits kAfInternal 6 ((16 - 6) * 8)
  else if !a.isRoutable then a.groupBits kAfUnroutable 0 0
  else if a.isIpv4 || a.isRFC6145 || a.isRFC6052 then a.groupBits kAfIpv4 12 16
  else if a.isRFC3964 then a.groupBits kAfIpv4 2 16
  else if a.isRFC4380 then [kAfIpv4, a.getByte 12 ^^^ 0xFF, a.getByte 13 ^^^ 0xFF]
  else if a.isTor then a.groupBits kAfTor 6 4
  else if a.getByte 0 == 0x20 && a.getByte 1 == 0x01 && a.getByte 2 == 0x04 &&
    a.getByte 3 == 0x70 then a.groupBits kAfIpv6 0 36
  else a.groupBits kAfIpv6 0 32

theorem isRoutable_congr {a b : NetAddr} (h : a.ip = b.ip) : a.isRoutable = b.isRoutable := by
  calc a.isRoutable = ({ ip := a.ip } : NetAddr).isRoutable := rfl
    _ = ({ ip := b.ip } : NetAddr).isRoutable := by rw [h]
    _ = b.isRoutable := rfl

/-- Only where an address is decides its group, not when or what it serves. -/
theorem getGroup_congr {a b : NetAddr} (h : a.ip = b.ip) : a.getGroup = b.getGroup := by
  calc a.getGroup = ({ ip := a.ip } : NetAddr).getGroup := rfl
    _ = ({ ip := b.ip } : NetAddr).getGroup := by rw [h]
    _ = b.getGroup := rfl

end Ranges

/-- `operator==` compares where the address is, not when or what it serves. -/
def sameEndpoint (a b : NetAddr) : Bool := a.ip.data == b.ip.data && a.protoPort == b.protoPort

theorem ip_eq {a b : NetAddr} (h : a.sameEndpoint b = true) : a.ip = b.ip := by
  rw [sameEndpoint, Bool.and_eq_true, beq_iff_eq] at h
  exact Bytes.ext h.1

def serializedSize (_ : NetAddr) : Nat := 4 + 8 + 16 + 2

def serialize (a : NetAddr) : List Byte :=
  serWriteData a.timestamp ++ serWriteData a.services ++ a.ip.data ++ serWriteData a.port

def deserialize : Deserializer NetAddr := do
  let timestamp ← serialRead (serReadData 32)
  let services ← serialRead (serReadData 64)
  let ip ← serialRead (deserializeArray 16)
  let port ← serialRead (serReadData 16)
  pure { timestamp, services, ip, protoPort := port.setWidth 32 }

/-- The address with only what the wire carries of it. -/
def onWire (a : NetAddr) : NetAddr := { a with protoPort := a.port.setWidth 32 }

def canonical : Parser NetAddr := do
  let timestamp ← word 32
  let services ← word 64
  let ip ← array 16
  let port ← word 16
  pure { timestamp, services, ip, protoPort := port.setWidth 32 }

theorem serialize_length (a : NetAddr) : (serialize a).length = a.serializedSize := by
  simp [serialize, serializedSize, serWriteData]

theorem port_setWidth (p : U16) : (p.setWidth 32).setWidth 16 = p :=
  (BitVec.setWidth_setWidth_of_le p (by omega)).trans (BitVec.setWidth_eq p)

@[simp] theorem serialize_onWire (a : NetAddr) : a.onWire.serialize = a.serialize := by
  simp only [serialize, onWire, port, port_setWidth]

theorem canonical_agrees : Agrees view [] deserialize canonical serialize := by
  refine Agrees.bind (serReadData_agrees rfl) fun timestamp _ => ?_
  refine Agrees.bind (serReadData_agrees rfl) fun services _ => ?_
  refine Agrees.bind (array_agrees 16) fun ip _ => ?_
  refine Agrees.bind (serReadData_agrees rfl) fun p _ => Agrees.pure ?_
  simp only [serialize, port, port_setWidth, List.nil_append]

theorem canonical_append (a : NetAddr) (rest : List Byte) (m : Nat → Byte) :
    canonical ⟨a.serialize ++ rest, m⟩ = some (a.onWire, ⟨rest, m⟩) := by
  simp only [serialize, List.append_assoc]
  refine strict_bind_some_iff.mpr ⟨a.timestamp, _, word_append rfl _ _ m, ?_⟩
  refine strict_bind_some_iff.mpr ⟨a.services, _, word_append rfl _ _ m, ?_⟩
  refine strict_bind_some_iff.mpr ⟨a.ip, _, array_append _ _ m, ?_⟩
  exact strict_bind_some_iff.mpr ⟨a.port, _, word_append rfl _ _ m, rfl⟩

theorem canonical_keeps : Keeps AllDirty canonical (fun _ => True) := by
  refine Keeps.bind (word_keeps 32) fun _ _ => Keeps.bind (word_keeps 64) fun _ _ => ?_
  exact Keeps.bind (array_keeps 16) fun _ _ => Keeps.bind (word_keeps 16) fun _ _ =>
    Keeps.pure trivial

end NetAddr

end Address
