import Btclite.Library.Maxima
import Btclite.Network.Flooding
import Btclite.Network.Nodes

/-!
# Local addresses

`LocalService` of `net.cpp`: how well a peer reaches an address of ours, which of
them it is told of, and what is queued for it. The best address is looked for from
a rank below all others, so there is one unless there is no address at all.
-/

namespace LocalAddrs

open Endian Serialize Address Nodes Flooding Maxima

inductive AddrFamily where
  | kAfUnroutable
  | kAfIpv4
  | kAfIpv6
  | kAfTor
  | kAfInternal
  | kAfTeredo
deriving DecidableEq

inductive Reachability where
  | kReachUnreachable
  | kReachDefault
  | kReachTeredo
  | kReachIpv6Weak
  | kReachIpv4
  | kReachIpv6Strong
  | kReachPrivate
deriving DecidableEq

def Reachability.toInt : Reachability → Int
  | kReachUnreachable => 0
  | kReachDefault => 1
  | kReachTeredo => 2
  | kReachIpv6Weak => 3
  | kReachIpv4 => 4
  | kReachIpv6Strong => 5
  | kReachPrivate => 6

section Source

def getFamily (a : NetAddr) : AddrFamily :=
  if a.isInternal then .kAfInternal
  else if !a.isRoutable then .kAfUnroutable
  else if a.isIpv4 then .kAfIpv4
  else if a.isTor then .kAfTor
  else .kAfIpv6

def getExtFamily (a : NetAddr) : AddrFamily :=
  if a.isRFC4380 then .kAfTeredo else getFamily a

def getReachability (a addrPartner : NetAddr) : Reachability :=
  if !a.isRoutable || a.isInternal then .kReachUnreachable
  else
    let ourNet := getExtFamily a
    let theirNet := getExtFamily addrPartner
    let isTunnel := a.isRFC3964 || a.isRFC6052 || a.isRFC6145
    match theirNet with
    | .kAfIpv4 =>
      match ourNet with
      | .kAfIpv4 => .kReachIpv4
      | _ => .kReachDefault
    | .kAfIpv6 =>
      match ourNet with
      | .kAfTeredo => .kReachTeredo
      | .kAfIpv4 => .kReachIpv4
      | .kAfIpv6 => if isTunnel then .kReachIpv6Weak else .kReachIpv6Strong
      | _ => .kReachDefault
    | .kAfTor =>
      match ourNet with
      | .kAfIpv4 => .kReachIpv4
      | .kAfTor => .kReachPrivate
      | _ => .kReachDefault
    | .kAfTeredo =>
      match ourNet with
      | .kAfTeredo => .kReachTeredo
      | .kAfIpv6 => .kReachIpv6Weak
      | .kAfIpv4 => .kReachIpv4
      | _ => .kReachDefault
    | _ =>
      match ourNet with
      | .kAfTeredo => .kReachTeredo
      | .kAfIpv6 => .kReachIpv6Weak
      | .kAfIpv4 => .kReachIpv4
      | .kAfTor => .kReachPrivate
      | _ => .kReachDefault

/-- What the loop of `GetLocalAddr` compares. -/
def reachabilityFrom (peerAddr : NetAddr) (entry : NetAddr) : Int :=
  (getReachability entry peerAddr).toInt

/-- `GetLocalAddr`, where `out` is null or what it points to, and so in the result. -/
def getLocalAddr (localAddrs : List NetAddr) (peerAddr : NetAddr) (services adjustedTime : U64)
    (out : Option NetAddr) : Bool × Option NetAddr :=
  match out with
  | none => (false, none)
  | some _ =>
    let cleared : NetAddr := {}
    let best := localAddrs.foldl (fun best entry =>
      if best.1 < reachabilityFrom peerAddr entry then (reachabilityFrom peerAddr entry, entry)
      else best) (-1, cleared)
    (true, some { best.2 with services, timestamp := adjustedTime.setWidth 32 })

def isLocalAddrGood (c : NodeConnection) (discoverLocal : Bool) : Bool :=
  discoverLocal && c.addr.isRoutable && c.localAddr.isRoutable

/-- `AdvertiseLocalAddr`, on the addresses that are queued for the node. -/
def advertiseLocalAddr (sha256 : List Byte → Hash256) (localAddrs : List NetAddr)
    (adjustedTime : U64) (node : Node) (discoveredAddrFirst : Bool) (random : Nat)
    (f : FloodingAddrs) : FloodingAddrs :=
  if node.connection.isDisconnected then f
  else
    match getLocalAddr localAddrs node.connection.addr node.services adjustedTime
      (some {}) with
    | (true, some addrLocal) =>
      if discoveredAddrFirst && addrLocal.isRoutable then
        (f.pushAddrToSend sha256 addrLocal random).2
      else if isLocalAddrGood node.connection true then
        (f.pushAddrToSend sha256 node.connection.localAddr random).2
      else f
    | _ => f

end Source

section Choice

variable {localAddrs : List NetAddr} {peerAddr : NetAddr} {services adjustedTime : U64}

theorem reachabilityFrom_nonneg (peerAddr entry : NetAddr) :
    0 ≤ reachabilityFrom peerAddr entry := by
  rw [reachabilityFrom]
  cases getReachability entry peerAddr <;> decide

/-- What is pointed to in the end has the place of the first address that is reached best. -/
theorem getLocalAddr_some (hne : localAddrs ≠ []) (peerAddr : NetAddr)
    (services adjustedTime : U64) (old : NetAddr) :
    ∃ a, FirstMax (reachabilityFrom peerAddr) localAddrs a ∧
      getLocalAddr localAddrs peerAddr services adjustedTime (some old) =
        (true, some { a with services, timestamp := adjustedTime.setWidth 32 }) := by
  rcases foldl_better (f := reachabilityFrom peerAddr) localAddrs (-1, {}) with
    ⟨hall, -⟩ | ⟨a, ha, -, heq⟩
  · obtain ⟨a, rest, rfl⟩ := List.exists_cons_of_ne_nil hne
    have hle := hall a List.mem_cons_self
    have hnonneg := reachabilityFrom_nonneg peerAddr a
    exact absurd (hnonneg.trans hle) (by decide)
  · refine ⟨a, ha, ?_⟩
    rw [getLocalAddr]
    exact congrArg (fun best : Int × NetAddr =>
      (true, some { best.2 with services, timestamp := adjustedTime.setWidth 32 })) heq

/-- With no address of ours, what is pointed to is nowhere. -/
theorem getLocalAddr_nil (old : NetAddr) :
    getLocalAddr [] peerAddr services adjustedTime (some old) =
      (true, some { services, timestamp := adjustedTime.setWidth 32 }) := rfl

theorem isRoutable_cleared :
    ({ services, timestamp := adjustedTime.setWidth 32 } : NetAddr).isRoutable = false :=
  (NetAddr.isRoutable_congr (b := {}) rfl).trans (by decide)

end Choice

section Claims

variable (sha256 : List Byte → Hash256) (localAddrs : List NetAddr)

/-- True exactly for a pointer and an address of ours, and then the first one that is reached
best is pointed to. -/
def ChoosesBest (peerAddr : NetAddr) (services adjustedTime : U64) (out : Option NetAddr) : Prop :=
  let r := getLocalAddr localAddrs peerAddr services adjustedTime out
  (r.1 = true ↔ out.isSome = true ∧ localAddrs ≠ []) ∧
    (r.1 = true → ∃ a o, FirstMax (reachabilityFrom peerAddr) localAddrs a ∧ r.2 = some o ∧
      o.ip = a.ip ∧ o.protoPort = a.protoPort)

/-- What is queued for a node that was not queued before is ours or what the node reports. -/
def AdvertisesOurs : Prop :=
  ∀ (adjustedTime : U64) (node : Node) (discoveredAddrFirst : Bool) (random : Nat)
    (f : FloodingAddrs),
    ∀ addr ∈ (advertiseLocalAddr sha256 localAddrs adjustedTime node discoveredAddrFirst random
      f).addrsToSend,
      addr ∈ f.addrsToSend ∨ (∃ l ∈ localAddrs, addr.sameEndpoint l = true) ∨
        addr = node.connection.localAddr

end Claims

section Results

variable {sha256 : List Byte → Hash256} {localAddrs : List NetAddr}

theorem mem_pushAddrToSend {f : FloodingAddrs} {a addr : NetAddr} {random : Nat}
    (h : addr ∈ (f.pushAddrToSend sha256 a random).2.addrsToSend) :
    addr ∈ f.addrsToSend ∨ addr = a := by
  rw [FloodingAddrs.pushAddrToSend] at h
  split_ifs at h
  · exact Or.inl h
  · exact List.mem_or_eq_of_mem_set h
  · exact (List.mem_append.mp h).imp_right List.mem_singleton.mp

/-- Whatever is drawn, only an address that is routable or reported is pushed; what is pointed to
without an address of ours is neither. -/
theorem advertisesOurs : AdvertisesOurs sha256 localAddrs := by
  intro adjustedTime node discoveredAddrFirst random f addr haddr
  rw [advertiseLocalAddr] at haddr
  by_cases hdown : node.connection.isDisconnected = true
  · rw [if_pos hdown] at haddr
    exact Or.inl haddr
  rw [if_neg hdown] at haddr
  have hreported : ∀ {g : FloodingAddrs}, g = (if isLocalAddrGood node.connection true then
      (f.pushAddrToSend sha256 node.connection.localAddr random).2 else f) →
      addr ∈ g.addrsToSend → addr ∈ f.addrsToSend ∨ addr = node.connection.localAddr := by
    intro g hg hmem
    rw [hg] at hmem
    split_ifs at hmem
    · exact mem_pushAddrToSend hmem
    · exact Or.inl hmem
  by_cases hne : localAddrs = []
  · rw [hne, getLocalAddr_nil] at haddr
    simp only [isRoutable_cleared, Bool.and_false] at haddr
    exact (hreported rfl haddr).imp_right Or.inr
  · obtain ⟨a, ha, hget⟩ :=
      getLocalAddr_some hne node.connection.addr node.services adjustedTime {}
    rw [hget] at haddr
    dsimp only at haddr
    by_cases hfirst : (discoveredAddrFirst && NetAddr.isRoutable
        { a with services := node.services, timestamp := adjustedTime.setWidth 32 }) = true
    · rw [if_pos hfirst] at haddr
      rcases mem_pushAddrToSend haddr with hold | rfl
      · exact Or.inl hold
      · exact Or.inr (Or.inl ⟨a, ha.mem, by simp [NetAddr.sameEndpoint]⟩)
    · rw [if_neg hfirst] at haddr
      exact (hreported rfl haddr).imp_right Or.inr

theorem choosesBest_iff (localAddrs : List NetAddr) (peerAddr : NetAddr)
    (services adjustedTime : U64) (out : Option NetAddr) :
    ChoosesBest localAddrs peerAddr services adjustedTime out ↔ out = none ∨ localAddrs ≠ [] := by
  cases out with
  | none =>
    refine iff_of_true ⟨?_, ?_⟩ (Or.inl rfl)
    · simp [getLocalAddr]
    · intro h
      cases h
  | some old =>
    rw [or_iff_right (by simp)]
    constructor
    · rintro ⟨hreturns, -⟩
      exact (hreturns.mp rfl).2
    · intro hne
      obtain ⟨a, ha, hget⟩ := getLocalAddr_some hne peerAddr services adjustedTime old
      rw [ChoosesBest, hget]
      exact ⟨iff_of_true rfl ⟨rfl, hne⟩, fun _ => ⟨a, _, ha, rfl, rfl, rfl⟩⟩

/-- Only ours or what is reported is advertised, and the best of ours is chosen exactly if there
is one, or no place to put it. -/
theorem local_choice_iff (sha256 : List Byte → Hash256) (localAddrs : List NetAddr)
    (peerAddr : NetAddr) (services adjustedTime : U64) (out : Option NetAddr) :
    (ChoosesBest localAddrs peerAddr services adjustedTime out ∧
      AdvertisesOurs sha256 localAddrs) ↔ (out = none ∨ localAddrs ≠ []) := by
  rw [and_iff_left advertisesOurs]
  exact choosesBest_iff localAddrs peerAddr services adjustedTime out

/-- Without an address of ours the call still returns true. -/
theorem empty_list_not_chosen :
    ¬ (ChoosesBest [] endpoint 1 1700000000 (some {}) ∧ AdvertisesOurs endpointSha256 []) := by
  rintro ⟨⟨hreturns, -⟩, -⟩
  exact (hreturns.mp rfl).2 rfl

end Results

end LocalAddrs
