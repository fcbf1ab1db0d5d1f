import Btclite.Network.Connections
import Btclite.Network.Coverage
import Btclite.Network.HostLookup

/-!
# Seeding

`Connector::DnsLookup`, by which a node without peers comes to its first: it asks the seeds for
hosts of the wanted services, and adds their answers to the address book as if they were some
days old. The timer of the connector may then connect to them.
-/

namespace Seeding

open Loops Relation Endian Serialize Address Messages Nodes Tables Peers AddressBook BookEdits
open Coverage Selection Connections HostLookup

section Source

/-- What the lookup reads of a `Seed`. -/
structure Seed where
  host : List Char

/-- What a turn of the loop finds: an interrupt, and for each address the clock, the age that is
drawn for it, and the readings of `Add`. -/
structure Visit where
  interrupted : Bool := false
  timeSeconds : Nat → I64
  age : Nat → Distribution
  now : Nat → I64
  nowOnline : Nat → I64

/-- A name under which a seed answers with hosts of certain services. -/
def hostOf (seed : Seed) : List Char :=
  'x' :: (toString kDesirableServiceFlags.toNat).toList ++ '.' :: seed.host

variable (sha256 : List Byte → Hash256) (getaddrinfo : Resolver) (port : U16)

/-- `NetAddr::SetInternal`, of a new address. -/
def setInternal (name : List Byte) : Option NetAddr :=
  if name.isEmpty then none
  else some { ip := ⟨kBtcIpPrefix ++ (sha256 name).data.take 10, by
    rw [List.length_append, List.length_take, (sha256 name).size_eq]
    rfl⟩ }

/-- The address with the port and services that were asked for, and an age between 3 and 7
days. -/
def aged (v : Visit) (i : Nat) (addr : NetAddr) : NetAddr × I64 × I64 :=
  let time : I64 := v.timeSeconds i - 3 * 24 * 60 * 60 - randUint64 (v.age i) (4 * 24 * 60 * 60)
  ({ addr with
      protoPort := port.setWidth 32
      services := kDesirableServiceFlags
      timestamp := time.setWidth 32 }, v.now i, v.nowOnline i)

/-- `Connector::DnsLookup` from a seed on, with what was found before. -/
def dnsLookup : List (Seed × Visit) → Nat → Book → Except Fault (Bool × Book)
  | [], found, s => pure (decide (found ≠ 0), s)
  | (seed, v) :: rest, found, s =>
    if v.interrupted then pure (false, s)
    else
      match setInternal sha256 ((hostOf seed).map fun c => BitVec.ofNat 8 c.toNat) with
      | none => dnsLookup rest found s
      | some source =>
        match lookupHost getaddrinfo (hostOf seed) [] 256 true port with
        | (false, _) => dnsLookup rest found s
        | (true, addrs) => do
          let (_, s) ← s.addAll sha256 source 0 (addrs.mapIdx fun i addr => aged port v i addr)
          dnsLookup rest (found + addrs.length) s

end Source

section Clocks

def day : Nat := 24 * 60 * 60

/-- A reading of a clock within a day. -/
def Reads (start : Nat) (t : I64) : Prop := ∃ n, t = BitVec.ofNat 64 n ∧ start ≤ n ∧ n ≤ start + day

/-- Nothing interrupts a turn, and its clocks stay within a day. -/
structure Visit.Steady (v : Visit) (start : Nat) : Prop where
  goes : v.interrupted = false
  timeSeconds : ∀ i, Reads start (v.timeSeconds i)
  now : ∀ i, Reads start (v.now i)

/-- What an address of a seed says of itself. -/
structure Told (start : Nat) (port : U16) (addr : NetAddr) : Prop where
  protoPort : addr.protoPort = port.setWidth 32
  services : addr.services = kDesirableServiceFlags
  timestamp : ∃ n, addr.timestamp = BitVec.ofNat 32 n ∧ start ≤ n + 7 * day ∧
    n + 3 * day ≤ start + day

/-- A peer of a seed that nobody has tried to connect to. -/
structure Seeded (start : Nat) (port : U16) (p : Peer) : Prop where
  routable : p.addr.isRoutable = true
  told : Told start port p.addr
  attempts : p.attempts = 0
  lastTry : p.lastTry = 0
  lastSuccess : p.lastSuccess = 0

variable {start : Nat} {port : U16} {p : Peer} {v : Visit} {t : I64}

theorem toInt_ofNat_of_lt {n : Nat} (h : n < 2 ^ 63) : (BitVec.ofNat 64 n).toInt = n := by
  have hnat : (BitVec.ofNat 64 n).toNat = n := by
    rw [BitVec.toNat_ofNat]
    omega
  rw [BitVec.toInt_eq_toNat_of_lt (by omega), hnat]

theorem aged_told (hstart : 8 * day ≤ start) (hend : start + day < 2 ^ 32) {i : Nat}
    (hclock : Reads start (v.timeSeconds i)) (addr : NetAddr) :
    Told start port (aged port v i addr).1 := by
  obtain ⟨n, hn, hlow, hhigh⟩ := hclock
  have hdraw : (randUint64 (v.age i) (4 * 24 * 60 * 60)).toNat ≤ 4 * 24 * 60 * 60 :=
    randUint64_le (v.age i) (4 * 24 * 60 * 60)
  rw [day] at *
  have htime : v.timeSeconds i - 3 * 24 * 60 * 60 - randUint64 (v.age i) (4 * 24 * 60 * 60) =
      BitVec.ofNat 64 (n - 259200 - (randUint64 (v.age i) (4 * 24 * 60 * 60)).toNat) := by
    have hthree : (3 * 24 * 60 * 60 : I64) = BitVec.ofNat 64 259200 := rfl
    rw [← BitVec.ofNat_sub_ofNat_of_le _ _ (by omega) (by omega),
      ← BitVec.ofNat_sub_ofNat_of_le _ _ (by omega) (by omega), BitVec.ofNat_toNat,
      BitVec.setWidth_eq, hn, hthree]
  refine ⟨rfl, rfl, n - 259200 - (randUint64 (v.age i) (4 * 24 * 60 * 60)).toNat, ?_, ?_, ?_⟩
  · rw [aged, htime]
    apply BitVec.eq_of_toNat_eq
    rw [BitVec.toNat_setWidth, BitVec.toNat_ofNat, BitVec.toNat_ofNat]
    omega
  · rw [day]
    omega
  · rw [day]
    omega

/-- Untried peers of some days are not terrible. -/
theorem Seeded.fine (h : Seeded start port p) (hstart : 8 * day ≤ start)
    (hend : start + day < 2 ^ 32) (hclock : Reads start t) : isTerriblePeer p t = false := by
  obtain ⟨n, hn, hlow, hhigh⟩ := hclock
  obtain ⟨m, hm, hold, hyoung⟩ := h.told.timestamp
  rw [day] at *
  have hstamp : (p.addr.timestamp.setWidth 64 : I64) = BitVec.ofNat 64 m := by
    rw [hm]
    apply BitVec.eq_of_toNat_eq
    rw [BitVec.toNat_setWidth, BitVec.toNat_ofNat, BitVec.toNat_ofNat]
    omega
  have hzero : (p.addr.timestamp == 0) = false := by
    rw [beq_eq_false_iff_ne, hm]
    intro hno
    have hnat := congrArg BitVec.toNat hno
    rw [BitVec.toNat_ofNat] at hnat
    change m % 2 ^ 32 = 0 at hnat
    omega
  have hfuture : (t + 10 * 60).slt (p.addr.timestamp.setWidth 64) = false := by
    have hten : (10 * 60 : I64) = BitVec.ofNat 64 600 := rfl
    rw [hstamp, hn, hten, ← BitVec.ofNat_add, BitVec.slt_eq_decide, decide_eq_false_iff_not,
      toInt_ofNat_of_lt (by omega), toInt_ofNat_of_lt (by omega)]
    omega
  have hpast : (secondsOf kPeerHorizonDays).slt (t - p.addr.timestamp.setWidth 64) = false := by
    have hmonth : secondsOf kPeerHorizonDays = BitVec.ofNat 64 2592000 := rfl
    rw [hstamp, hn, hmonth, BitVec.ofNat_sub_ofNat_of_le _ _ (by omega) (by omega),
      BitVec.slt_eq_decide, decide_eq_false_iff_not, toInt_ofNat_of_lt (by omega),
      toInt_ofNat_of_lt (by omega)]
    omega
  have hretries : decide (kPeerRetries ≤ 0) = false := rfl
  have hfailures : decide (kMaxPeerFailures ≤ 0) = false := rfl
  simp only [isTerriblePeer, h.lastTry, h.attempts, hzero, hfuture, hpast, hretries, hfailures,
    bne_self_eq_false, Bool.false_and, Bool.false_or, Bool.and_false, Bool.false_eq_true, if_false]

end Clocks

section Planting

variable {sha256 : List Byte → Hash256} {key : Hash256} {U : Set IpAddr} {start : Nat} {port : U16}
  {s s' : Book} {k g : U64} {addr source : NetAddr} {now nowOnline : I64}

/-- A book of peers that seeds told of, each of whose groups has a slot. -/
structure Planted (sha256 : List Byte → Hash256) (key : Hash256) (U : Set IpAddr) (start : Nat)
    (port : U16) (s : Book) : Prop where
  sound : Sound sha256 key U s
  covered : Covered sha256 s
  seeded : ∀ k p, s.mapPeers.lookup k = some p → Seeded start port p

theorem fresh_planted : Planted sha256 key U start port (fresh key) where
  sound := fresh_sound
  covered := fun _ _ hp => nomatch hp
  seeded := fun _ _ hp => nomatch hp

/-- Peers come and change, and none goes. -/
structure Grown (start : Nat) (port : U16) (s s' : Book) : Prop where
  seeded : ∀ k p, s'.mapPeers.lookup k = some p → Seeded start port p
  stay : ∀ k, k ∈ s.mapPeers → k ∈ s'.mapPeers

theorem insert_grown {p : Peer} (h : ∀ k p, s.mapPeers.lookup k = some p → Seeded start port p)
    (hp : Seeded start port p) (hpeers : s'.mapPeers = s.mapPeers.insert k p) :
    Grown start port s s' := by
  refine ⟨fun k' q hq => ?_, fun k' hk' => ?_⟩
  · rw [hpeers] at hq
    by_cases hk : k' = k
    · subst hk
      obtain rfl : p = q := Option.some.inj ((AList.lookup_insert _).symm.trans hq)
      exact hp
    · exact h k' q ((AList.lookup_insert_ne hk).symm.trans hq)
  · rw [hpeers, AList.mem_insert]
    exact .inr hk'

theorem updatePeer_grown {f : Peer → Peer}
    (h : ∀ k p, s.mapPeers.lookup k = some p → Seeded start port p)
    (hf : ∀ p, Seeded start port p → Seeded start port (f p)) (hrun : s.updatePeer k f = .ok s') :
    Grown start port s s' := by
  obtain ⟨p, hp, rfl⟩ := updatePeer_ok hrun
  exact insert_grown h (hf p (h k p hp)) rfl

theorem penalised_zero (addr : NetAddr) : Book.penalised addr 0 = addr.timestamp := by
  have hlt := addr.timestamp.isLt
  have hnat : ((addr.timestamp.setWidth 64 : I64) - 0).toNat = addr.timestamp.toNat := by
    have hsame : (addr.timestamp.setWidth 64 : I64) - 0 = addr.timestamp.setWidth 64 :=
      BitVec.sub_zero _
    rw [hsame, BitVec.toNat_setWidth]
    omega
  have hint : ((addr.timestamp.setWidth 64 : I64) - 0).toInt = addr.timestamp.toNat := by
    rw [BitVec.toInt_eq_toNat_of_lt (by omega), hnat]
  have hnone : (0 : I64).toInt = 0 := rfl
  simp only [Book.penalised, BitVec.slt_eq_decide, hint, hnone, decide_eq_true_eq]
  apply BitVec.eq_of_toNat_eq
  split_ifs with hpos
  · rw [BitVec.toNat_setWidth, hnat]
    exact Nat.mod_eq_of_lt addr.timestamp.isLt
  · have hzero : addr.timestamp.toNat = 0 := by omega
    rw [hzero]
    rfl

theorem refresh_grown {p : Peer} (h : ∀ k p, s.mapPeers.lookup k = some p → Seeded start port p)
    (hp : Seeded start port p) (haddr : Told start port addr)
    (hrun : s.refresh k p addr 0 nowOnline = .ok s') : Grown start port s s' := by
  have hservices : p.addr.services ||| addr.services = kDesirableServiceFlags := by
    rw [hp.told.services, haddr.services, BitVec.or_self]
  rw [Book.refresh, hservices, penalised_zero] at hrun
  have hlast (q : Peer) (hq : Seeded start port q) : Seeded start port
      { q with addr := { q.addr with services := kDesirableServiceFlags } } :=
    { hq with told := { hq.told with services := rfl } }
  split_ifs at hrun
  · obtain ⟨s₁, h₁, h₂⟩ := bind_eq_ok.mp hrun
    have hfirst := updatePeer_grown
      (f := fun q => { q with addr := { q.addr with timestamp := addr.timestamp } }) h
      (fun q hq => { hq with told := { hq.told with timestamp := haddr.timestamp } }) h₁
    have hsecond := updatePeer_grown hfirst.seeded hlast h₂
    exact ⟨hsecond.seeded, fun k hk => hsecond.stay k (hfirst.stay k hk)⟩
  · exact updatePeer_grown h hlast hrun

/-- A book without terrible peers gives up no slot. -/
theorem makeRoom_calm (h : Sound sha256 key U s)
    (hfine : ∀ k p, s.mapPeers.lookup k = some p → isTerriblePeer p now = false)
    {r : Bool × Book} (hrun : s.makeRoom g now = .ok r) : r.2 = s := by
  rcases h.makeRoom_cases g now with ⟨hgo, -, -⟩ | ⟨p, k, hp, -, -, hgo⟩
  · cases hgo.symm.trans hrun
    rfl
  · rw [hfine k p hp] at hgo
    cases hgo.symm.trans hrun
    rfl

theorem addKnown_grown {p : Peer} {isNew isTried : Bool}
    (h : ∀ k p, s.mapPeers.lookup k = some p → Seeded start port p)
    (hp : Seeded start port p) (haddr : Told start port addr)
    (hfine : isTerriblePeer p now = false)
    (hrun : s.addKnown k g (p, isNew, isTried) addr 0 now nowOnline = .ok s') :
    Grown start port s s' := by
  rw [Book.addKnown, hfine] at hrun
  simp only [Bool.false_eq_true, if_false] at hrun
  split_ifs at hrun
  · cases hrun
    exact ⟨h, fun _ hk => hk⟩
  · exact refresh_grown h hp haddr hrun

/-- An address that a seed tells of is in the book afterwards, if it can be routed to. -/
theorem Planted.add (h : Planted sha256 key U start port s)
    (hinj : U.InjOn (Book.mapKeyOf sha256 key)) (hstart : 8 * day ≤ start)
    (hend : start + day < 2 ^ 32) (hip : addr.ip ∈ U) (haddr : Told start port addr)
    (hnow : Reads start now) (source : NetAddr) (nowOnline : I64) :
    ∃ r, s.add sha256 addr source 0 now nowOnline = .ok r ∧ Planted sha256 key U start port r.2 ∧
      Grown start port s r.2 ∧
      (addr.isRoutable = true → Book.mapKeyOf sha256 key addr.ip ∈ r.2.mapPeers) := by
  obtain ⟨r, hrun, hsound⟩ := h.sound.add hinj hip source 0 now nowOnline
  have hfine (k : U64) (p : Peer) (hp : s.mapPeers.lookup k = some p) :
      isTerriblePeer p now = false := (h.seeded k p hp).fine hstart hend hnow
  have hcovered : Covered sha256 r.2 := by
    refine (add_covered_iff h.sound h.covered hrun).mpr fun p _ hp hterrible => ?_
    rw [hfine _ p hp] at hterrible
    cases hterrible
  suffices hgrown : Grown start port s r.2 ∧
      (addr.isRoutable = true → Book.mapKeyOf sha256 key addr.ip ∈ r.2.mapPeers) from
    ⟨r, hrun, ⟨hsound, hcovered, hgrown.1.seeded⟩, hgrown⟩
  obtain hkey := h.sound.key_eq
  simp only [Book.add, ite_self] at hrun
  cases hroutable : addr.isRoutable with
  | false =>
    rw [hroutable] at hrun
    cases hrun
    exact ⟨⟨h.seeded, fun _ hk => hk⟩, Bool.noConfusion⟩
  | true =>
    rw [hroutable] at hrun
    cases hp : s.mapPeers.lookup (s.makeMapKey sha256 addr false) with
    | some p =>
      simp only [Book.find, hp, Option.map_some] at hrun
      obtain ⟨s₁, hknown, hrun⟩ := bind_eq_ok.mp hrun
      cases hrun
      have hgrown := addKnown_grown h.seeded (h.seeded _ p hp) haddr (hfine _ p hp) hknown
      refine ⟨hgrown, fun _ => hgrown.stay _ ?_⟩
      rw [← hkey]
      exact lookup_eq_some_mem hp
    | none =>
      simp only [Book.find, hp, Option.map_none] at hrun
      obtain ⟨room, hroom, hrun⟩ := bind_eq_ok.mp hrun
      cases hrun
      have hsame := makeRoom_calm h.sound hfine hroom
      have hpeers : (s.addNewPeer (s.makeMapKey sha256 addr false) (s.makeMapKey sha256 addr true)
          room.1 addr source).mapPeers = s.mapPeers.insert (s.makeMapKey sha256 addr false)
            { addr, source, attempts := 0 } := addNewPeer_mapPeers (AList.lookup_eq_none.mp hp)
      rw [hsame]
      refine ⟨insert_grown h.seeded ⟨hroutable, haddr, rfl, rfl, rfl⟩ hpeers, fun _ => ?_⟩
      rw [hpeers, AList.mem_insert, ← hkey]
      exact .inl rfl

theorem Planted.addAll (h : Planted sha256 key U start port s)
    (hinj : U.InjOn (Book.mapKeyOf sha256 key)) (hstart : 8 * day ≤ start)
    (hend : start + day < 2 ^ 32) (source : NetAddr) {addrs : List (NetAddr × I64 × I64)}
    (haddrs : ∀ a ∈ addrs, a.1.ip ∈ U ∧ Told start port a.1 ∧ Reads start a.2.1) :
    ∃ r, Book.addAll sha256 source 0 s addrs = .ok r ∧ Planted sha256 key U start port r.2 ∧
      (∀ k, k ∈ s.mapPeers → k ∈ r.2.mapPeers) ∧
      ∀ a ∈ addrs, a.1.isRoutable = true → Book.mapKeyOf sha256 key a.1.ip ∈ r.2.mapPeers := by
  induction addrs generalizing s with
  | nil => exact ⟨(false, s), rfl, h, fun _ hk => hk, fun a ha => nomatch ha⟩
  | cons a rest ih =>
    obtain ⟨addr, now, nowOnline⟩ := a
    obtain ⟨hip, htold, hnow⟩ := haddrs _ List.mem_cons_self
    obtain ⟨⟨added, s₁⟩, hrun, h₁, hgrown, hin⟩ :=
      h.add hinj hstart hend hip htold hnow source nowOnline
    obtain ⟨⟨more, s₂⟩, hrest, h₂, hstay, hall⟩ :=
      ih h₁ fun a ha => haddrs a (List.mem_cons_of_mem _ ha)
    refine ⟨(added || more, s₂), ?_, h₂, fun k hk => hstay k (hgrown.stay k hk), ?_⟩
    · rw [Book.addAll, hrun]
      dsimp only [bind, Except.bind]
      rw [hrest]
      rfl
    · rintro a ha hroutable
      rcases List.mem_cons.mp ha with rfl | ha
      · exact hstay _ (hin hroutable)
      · exact hall a ha hroutable

end Planting

section Answers

variable {sha256 : List Byte → Hash256} {getaddrinfo : Resolver} {key : Hash256} {U : Set IpAddr}
  {start : Nat} {port : U16} {s : Book} {seeds : List (Seed × Visit)}

/-- What the seeds answer, up to 256 addresses each. -/
def answers (getaddrinfo : Resolver) (port : U16) (seeds : List (Seed × Visit)) : List NetAddr :=
  seeds.flatMap fun x => (lookupHost getaddrinfo (hostOf x.1) [] 256 true port).2

theorem lookupIntern_fst (name : List Char) :
    (lookupIntern getaddrinfo name 256 true port).1 = true ↔
      (lookupIntern getaddrinfo name 256 true port).2 ≠ [] := by
  rw [lookupIntern]
  split
  · simp
  · rw [decide_eq_true_iff, List.length_pos_iff]

theorem lookupHost_fst (name : List Char) :
    (lookupHost getaddrinfo name [] 256 true port).1 = true ↔
      (lookupHost getaddrinfo name [] 256 true port).2 ≠ [] := by
  rw [lookupHost]
  by_cases hempty : name.isEmpty = true
  · rw [if_pos hempty]
    simp
  · rw [if_neg hempty]
    exact lookupIntern_fst _

theorem aged_ip {v : Visit} {i : Nat} {addr : NetAddr} : (aged port v i addr).1.ip = addr.ip := rfl

theorem aged_isRoutable {v : Visit} {i : Nat} {addr : NetAddr} :
    (aged port v i addr).1.isRoutable = addr.isRoutable := NetAddr.isRoutable_congr aged_ip

theorem mem_mapIdx_aged {v : Visit} {addrs : List NetAddr} {a : NetAddr × I64 × I64} :
    a ∈ addrs.mapIdx (fun i addr => aged port v i addr) ↔
      ∃ i addr, addrs[i]? = some addr ∧ aged port v i addr = a := by
  rw [List.mem_iff_getElem?]
  refine exists_congr fun i => ?_
  rw [List.getElem?_mapIdx, Option.map_eq_some_iff]

/-- What one seed answered is in the book afterwards. -/
theorem Planted.addAged (h : Planted sha256 key U start port s)
    (hinj : U.InjOn (Book.mapKeyOf sha256 key)) (hstart : 8 * day ≤ start)
    (hend : start + day < 2 ^ 32) {v : Visit} (hv : v.Steady start) (source : NetAddr)
    {addrs : List NetAddr} (hU : ∀ a ∈ addrs, a.ip ∈ U) :
    ∃ r, Book.addAll sha256 source 0 s (addrs.mapIdx fun i addr => aged port v i addr) = .ok r ∧
      Planted sha256 key U start port r.2 ∧ (∀ k, k ∈ s.mapPeers → k ∈ r.2.mapPeers) ∧
      ∀ a ∈ addrs, a.isRoutable = true → Book.mapKeyOf sha256 key a.ip ∈ r.2.mapPeers := by
  have hlist : ∀ a ∈ addrs.mapIdx (fun i addr => aged port v i addr),
      a.1.ip ∈ U ∧ Told start port a.1 ∧ Reads start a.2.1 := fun a ha => by
    obtain ⟨i, addr, hi, rfl⟩ := mem_mapIdx_aged.mp ha
    rw [aged_ip]
    exact ⟨hU addr (List.mem_of_getElem? hi), aged_told hstart hend (hv.timeSeconds i) addr,
      hv.now i⟩
  obtain ⟨r, hrun, h', hstay, hall⟩ := h.addAll hinj hstart hend source hlist
  refine ⟨r, hrun, h', hstay, fun a ha hroutable => ?_⟩
  obtain ⟨i, hi⟩ := List.mem_iff_getElem?.mp ha
  have hin := hall _ (mem_mapIdx_aged.mpr ⟨i, a, hi, rfl⟩) (aged_isRoutable.trans hroutable)
  rwa [aged_ip] at hin

theorem dnsLookup_planted (h : Planted sha256 key U start port s)
    (hinj : U.InjOn (Book.mapKeyOf sha256 key)) (hstart : 8 * day ≤ start)
    (hend : start + day < 2 ^ 32) (hsteady : ∀ x ∈ seeds, x.2.Steady start)
    (hU : ∀ a ∈ answers getaddrinfo port seeds, a.ip ∈ U) (found : Nat) :
    ∃ r s', dnsLookup sha256 getaddrinfo port seeds found s = .ok (r, s') ∧
      Planted sha256 key U start port s' ∧ (∀ k, k ∈ s.mapPeers → k ∈ s'.mapPeers) ∧
      (∀ a ∈ answers getaddrinfo port seeds, a.isRoutable = true →
        Book.mapKeyOf sha256 key a.ip ∈ s'.mapPeers) ∧
      (r = true ↔ found ≠ 0 ∨ answers getaddrinfo port seeds ≠ []) := by
  induction seeds generalizing s found with
  | nil =>
    have hnone : answers getaddrinfo port [] = [] := rfl
    refine ⟨_, s, rfl, h, fun _ hk => hk, ?_, ?_⟩
    · rw [hnone]
      exact fun a ha => nomatch ha
    · rw [hnone, decide_eq_true_iff]
      simp
  | cons x rest ih =>
    obtain ⟨seed, v⟩ := x
    obtain ⟨hv, hsteady⟩ : v.Steady start ∧ ∀ x ∈ rest, x.2.Steady start :=
      List.forall_mem_cons.mp hsteady
    have hanswers : answers getaddrinfo port ((seed, v) :: rest) =
        (lookupHost getaddrinfo (hostOf seed) [] 256 true port).2 ++
          answers getaddrinfo port rest := List.flatMap_cons
    have hfst : (lookupHost getaddrinfo (hostOf seed) [] 256 true port).1 = true ↔ _ :=
      lookupHost_fst _
    rw [hanswers] at hU ⊢
    obtain ⟨hfirst, hrest⟩ := List.forall_mem_append.mp hU
    obtain ⟨source, hsource⟩ : ∃ source, setInternal sha256
        ((hostOf seed).map fun c => BitVec.ofNat 8 c.toNat) = some source := ⟨_, rfl⟩
    rw [dnsLookup, if_neg (by simp [hv.goes]), hsource]
    dsimp only
    generalize lookupHost getaddrinfo (hostOf seed) [] 256 true port = answer at *
    obtain ⟨ok, addrs⟩ := answer
    dsimp only at hfst hfirst ⊢
    cases ok with
    | false =>
      obtain rfl : addrs = [] := by
        by_contra hne
        exact Bool.false_ne_true (hfst.mpr hne)
      obtain ⟨r, s', hrun, h', hstay, hall, hr⟩ := ih h hsteady hrest found
      exact ⟨r, s', hrun, h', hstay, hall, hr⟩
    | true =>
      have hne : addrs ≠ [] := hfst.mp rfl
      obtain ⟨⟨added, s₁⟩, hadd, h₁, hstay₁, hall₁⟩ :=
        h.addAged hinj hstart hend hv source hfirst
      obtain ⟨r, s', hrun, h', hstay, hall, hr⟩ := ih h₁ hsteady hrest (found + addrs.length)
      refine ⟨r, s', ?_, h', fun k hk => hstay k (hstay₁ k hk), ?_, ?_⟩
      · dsimp only [bind, Except.bind]
        rw [hadd]
        exact hrun
      · intro a ha hroutable
        rcases List.mem_append.mp ha with ha | ha
        · exact hstay _ (hall₁ a ha hroutable)
        · exact hall a ha hroutable
      · rw [hr]
        have hpos := List.length_pos_iff.mpr hne
        exact iff_of_true (.inl (by omega)) (.inr (List.append_ne_nil_of_left_ne_nil hne _))

end Answers

section Results

variable {sha256 : List Byte → Hash256} {getaddrinfo : Resolver} {key : Hash256} {U : Set IpAddr}
  {start : Nat} {port : U16} {s : Book} {seeds : List (Seed × Visit)} {p : Peer} {o : Outside}
  {t : Timeout}

/-- The timer takes such a peer at its first try. -/
theorem Seeded.suits (h : Seeded start port p) (hend : start + day < 2 ^ 32) (hday : 600 ≤ start)
    (hnow : Reads start t.now) (hport : t.defaultPort = port) : suits t 0 p = true := by
  obtain ⟨n, hn, hlow, hhigh⟩ := hnow
  have hold : (600 : I64).sle (t.now - 0) = true := by
    have hsame : t.now - 0 = t.now := BitVec.sub_zero _
    have hsix : (600 : I64) = BitVec.ofNat 64 600 := rfl
    rw [day] at *
    rw [hsame, hn, hsix, BitVec.sle_eq_decide, decide_eq_true_iff, toInt_ofNat_of_lt (by omega),
      toInt_ofNat_of_lt (by omega)]
    omega
  have hdesirable : isServiceFlagDesirable kDesirableServiceFlags = true := by decide
  rw [Connections.suits, if_pos (Nat.zero_le _), h.lastTry, hold, h.told.protoPort, hport,
    h.told.services, hdesirable, beq_self_eq_true]
  rfl

/-- The group of an address in the book has a slot. -/
theorem Planted.slot_of_mem (h : Planted sha256 key U start port s)
    (hinj : U.InjOn (Book.mapKeyOf sha256 key)) {a : NetAddr} (ha : a.ip ∈ U)
    (hin : Book.mapKeyOf sha256 key a.ip ∈ s.mapPeers) :
    ∃ k p, Eligible s false (Book.groupKeyOf sha256 key a) k ∧ s.mapPeers.lookup k = some p ∧
      Book.groupKeyOf sha256 key p.addr = Book.groupKeyOf sha256 key a := by
  obtain ⟨q, hq⟩ := exists_lookup hin
  have hip := h.sound.sameIp hinj ha hq
  have hgroup : s.makeMapKey sha256 q.addr true = Book.groupKeyOf sha256 key a := by
    rw [Book.makeMapKey_true, h.sound.key_eq, Book.groupKeyOf, Book.groupKeyOf,
      NetAddr.getGroup_congr hip]
  obtain ⟨k, hslot⟩ : ∃ k, Eligible s false (Book.groupKeyOf sha256 key a) k := by
    rw [← hgroup]
    rcases h.covered _ q hq with hnew | htried
    · obtain ⟨k, hk⟩ := exists_lookup hnew
      exact ⟨k, .inl hk⟩
    · obtain ⟨k, hk⟩ := exists_lookup htried
      exact ⟨k, .inr ⟨rfl, hk⟩⟩
  obtain ⟨p, hp, hpgroup⟩ := eligible_peer h.sound hslot
  exact ⟨k, p, hslot, hp, hpgroup⟩

/-- With an empty book and no connections, the group of every address that is routable and in the
answers has a slot, with a peer to which the timer connects for some draws, unless it is local or
banned. -/
theorem seeds_reach (hstart : 8 * day ≤ start) (hend : start + day < 2 ^ 32)
    (hsteady : ∀ x ∈ seeds, x.2.Steady start)
    (hinj : Set.InjOn (Book.mapKeyOf sha256 key)
      {ip | ∃ a ∈ answers getaddrinfo port seeds, a.ip = ip}) :
    ∃ r s, dnsLookup sha256 getaddrinfo port seeds 0 (fresh key) = .ok (r, s) ∧
      (r = true ↔ answers getaddrinfo port seeds ≠ []) ∧
      (∀ k p, s.mapPeers.lookup k = some p → Seeded start port p ∧
        ∃ a ∈ answers getaddrinfo port seeds, a.ip = p.addr.ip) ∧
      ∀ a ∈ answers getaddrinfo port seeds, a.isRoutable = true → ∃ k p,
        s.mapPeers.lookup k = some p ∧
        Book.groupKeyOf sha256 key p.addr = Book.groupKeyOf sha256 key a ∧
        ∀ (o : Outside) (t : Timeout), t.isValid = true → t.interrupted 0 = false →
          Reads start t.now → t.defaultPort = port → o.hasBase = true → o.hasSocket = true →
          o.connects = true → isLocal o.localAddrs p.addr = false → o.isBanned p.addr = false →
          ∃ coin position w', outboundTimeOutCb sha256 o { t with coin, position } { book := s } =
              .ok (true, w') ∧ w'.outbounds.map (·.connection.addr) = [p.addr] := by
  have hU (a : NetAddr) (ha : a ∈ answers getaddrinfo port seeds) :
      a.ip ∈ {ip | ∃ a ∈ answers getaddrinfo port seeds, a.ip = ip} := ⟨a, ha, rfl⟩
  obtain ⟨r, s, hrun, hs, -, hall, hr⟩ :=
    dnsLookup_planted fresh_planted hinj hstart hend hsteady hU 0
  rw [or_iff_right (by decide)] at hr
  refine ⟨r, s, hrun, hr, fun k p hp => ⟨hs.seeded k p hp, (hs.sound.keyed k p hp).1⟩, ?_⟩
  intro a ha hroutable
  obtain ⟨k, p, hslot, hp, hpgroup⟩ := hs.slot_of_mem hinj ⟨a, ha, rfl⟩ (hall a ha hroutable)
  have hseeded := hs.seeded k p hp
  refine ⟨k, p, hp, hpgroup, fun o t hvalid hgoes hnow hport hbase hsocket hconnects helse hfree =>
    ?_⟩
  have hopen : Connectable o { book := s } p.addr := by
    have hroutable := hseeded.routable
    rw [NetAddr.isRoutable, Bool.and_eq_true] at hroutable
    refine ⟨hroutable.1, helse, fun n hn => ?_, hfree⟩
    cases hn
  obtain ⟨coin, position, hconnect⟩ := exists_outboundTimeOutCb (w := { book := s }) hs.sound hvalid
    hgoes hbase hsocket hconnects (show 0 < SelfConnection.kMaxOutboundConnections by decide)
    hslot hp
    (hseeded.suits hend (le_trans (by decide) hstart) hnow hport) hopen
  refine ⟨coin, position, _, hconnect, ?_⟩
  exact congrArg (fun i => [Identity.addr i]) (opened_identity o p.addr false 0)

/-- A resolver that knows one host, whatever it is asked. -/
def oneAnswer : Resolver := fun _ _ => some [.inet ⟨[8, 8, 8, 8], rfl⟩]

def visit : Visit where
  timeSeconds := fun _ => 1700000000
  age := fun _ => heads
  now := fun _ => 1700000000
  nowOnline := fun _ => 1700000000

theorem seeds_reach_resolver : ∃ s,
    dnsLookup resolverSha256 oneAnswer 8333 [(⟨['s', 'e', 'e', 'd']⟩, visit)] 0
      (fresh (Bytes.zero 32)) = .ok (true, s) ∧
    ∃ coin position w', outboundTimeOutCb resolverSha256 serverOutside
        { serverTimeout with coin, position } { book := s } = .ok (true, w') ∧
      w'.outbounds.map (·.connection.addr.ip) = [resolver.ip] := by
  have hanswers : answers oneAnswer 8333 [(⟨['s', 'e', 'e', 'd']⟩, visit)] =
      [{ resolver with timestamp := 0, services := 0 }] := by decide +kernel
  have hclock (t : I64) (ht : t = 1700000000 ∨ t = 1700000090) : Reads 1700000000 t := by
    rcases ht with rfl | rfl
    · exact ⟨1700000000, rfl, by decide, by decide⟩
    · exact ⟨1700000090, rfl, by decide, by decide⟩
  have hsteady : visit.Steady 1700000000 :=
    ⟨rfl, fun _ => hclock _ (.inl rfl), fun _ => hclock _ (.inl rfl)⟩
  obtain ⟨r, s, hrun, hr, hpeers, hall⟩ := seeds_reach (show 8 * day ≤ 1700000000 by decide)
    (by decide) (List.forall_mem_singleton.mpr hsteady)
    (Set.Subsingleton.injOn (fun i hi j hj => by
      rw [hanswers] at hi hj
      obtain ⟨a, ha, rfl⟩ := hi
      obtain ⟨b, hb, rfl⟩ := hj
      rw [List.mem_singleton.mp ha, List.mem_singleton.mp hb]) _)
  rw [hanswers] at hr hpeers hall
  obtain rfl := hr.mpr (List.cons_ne_nil _ _)
  obtain ⟨k, p, hp, -, hgo⟩ := hall _ List.mem_cons_self (by decide)
  obtain ⟨coin, position, w', hconnect, hopen⟩ :=
    hgo serverOutside serverTimeout rfl rfl (hclock _ (.inr rfl)) rfl rfl rfl rfl rfl rfl
  refine ⟨s, hrun, coin, position, w', hconnect, ?_⟩
  obtain ⟨-, a, ha, hip⟩ := hpeers k p hp
  rw [List.mem_singleton.mp ha] at hip
  have hips := congrArg (List.map (·.ip)) hopen
  rw [List.map_map] at hips
  rw [hip]
  exact hips

end Results

end Seeding
