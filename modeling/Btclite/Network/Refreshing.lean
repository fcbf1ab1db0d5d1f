import Btclite.Network.BookEdits

/-!
# Refreshing addresses

An address that is added again may bring a newer time and more services. The time is taken
over, less a penalty, if it is newer by an interval and the penalty together, or if none was
known. The interval is subtracted as a word of 32 bits, which is what it is meant to be only
for times that are no smaller.
-/

namespace Refreshing

open Loops Endian Serialize Address Tables Peers Runs AddressBook BookEdits

section Times

variable {addr source : NetAddr} {p : Peer} {time : U32} {timePenalty now : I64}

/-- The interval that has to pass between two times of an address. -/
def updateInterval (addr : NetAddr) (now : I64) : U32 :=
  if (now - addr.timestamp.setWidth 64).slt (24 * 60 * 60) then 60 * 60 else 24 * 60 * 60

/-- Who announces itself is not held to the penalty. -/
def penaltyOf (addr source : NetAddr) (timePenalty : I64) : I64 :=
  if addr.sameEndpoint source then 0 else timePenalty

theorem penaltyOf_nonneg (addr source : NetAddr) (h : 0 ≤ timePenalty.toInt) :
    0 ≤ (penaltyOf addr source timePenalty).toInt := by
  rw [penaltyOf]
  split_ifs
  · exact Int.le_refl 0
  · exact h

theorem setWidth_toInt (time : U32) : (time.setWidth 64 : I64).toInt = time.toNat := by
  have hlt := time.isLt
  have hwidth : (time.setWidth 64).toNat = time.toNat := by
    rw [BitVec.toNat_setWidth]
    omega
  rw [BitVec.toInt_eq_toNat_of_lt (by omega), hwidth]

/-- A time less a penalty stays within a word of 64 bits. -/
theorem sub_toInt (time : U32) (h : 0 ≤ timePenalty.toInt) :
    ((time.setWidth 64 : I64) - timePenalty).toInt = time.toNat - timePenalty.toInt := by
  have hlt := time.isLt
  have hle := BitVec.toInt_lt (x := timePenalty)
  rw [BitVec.toInt_sub, setWidth_toInt, Int.bmod_eq_of_le (by omega) (by omega)]

theorem penalised_toNat (h : 0 ≤ timePenalty.toInt) :
    (Book.penalised addr timePenalty).toNat =
      ((addr.timestamp.toNat : Int) - timePenalty.toInt).toNat := by
  have hlt := addr.timestamp.isLt
  have hsub := sub_toInt addr.timestamp h
  have hzero : (0 : I64).toInt = 0 := rfl
  simp only [Book.penalised, BitVec.slt_iff_toInt_lt, hsub, hzero]
  split_ifs with hpos
  · have hwide : ((addr.timestamp.setWidth 64 : I64) - timePenalty).toNat =
        ((addr.timestamp.toNat : Int) - timePenalty.toInt).toNat := by
      rw [← hsub, BitVec.toInt_eq_toNat_of_lt]
      · rfl
      · have := BitVec.toInt_eq_toNat_cond ((addr.timestamp.setWidth 64 : I64) - timePenalty)
        split_ifs at this with hsmall
        · exact hsmall
        · omega
    rw [BitVec.toNat_setWidth, hwide]
    omega
  · exact (Int.toNat_of_nonpos (by omega)).symm

theorem updateInterval_pos (addr : NetAddr) (now : I64) : 0 < (updateInterval addr now).toNat := by
  rw [updateInterval]
  split_ifs
  · decide
  · decide

/-- When a time is taken over that is no smaller than the interval. -/
theorem isOutdated_iff (hpenalty : 0 ≤ timePenalty.toInt)
    (hinterval : updateInterval addr now ≤ addr.timestamp) :
    Book.isOutdated p addr timePenalty now = true ↔ p.addr.timestamp = 0 ∨
      (p.addr.timestamp.toNat : Int) + (updateInterval addr now).toNat + timePenalty.toInt <
        addr.timestamp.toNat := by
  have hpos := updateInterval_pos addr now
  have hle : (updateInterval addr now).toNat ≤ addr.timestamp.toNat := hinterval
  have hsome : addr.timestamp ≠ 0 := by
    intro hzero
    rw [hzero] at hle
    exact absurd (hpos.trans_le hle) (by decide)
  change (addr.timestamp != 0 && (p.addr.timestamp == 0 ||
    (p.addr.timestamp.setWidth 64 : I64).slt
      ((addr.timestamp - updateInterval addr now).setWidth 64 - timePenalty))) = true ↔ _
  rw [Bool.and_eq_true, bne_iff_ne, Bool.or_eq_true, beq_iff_eq, BitVec.slt_iff_toInt_lt,
    setWidth_toInt, sub_toInt _ hpenalty, BitVec.toNat_sub_of_le hinterval, Nat.cast_sub hle]
  constructor
  · rintro ⟨-, hzero | hlate⟩
    · exact .inl hzero
    · exact .inr (by omega)
  · rintro (hzero | hlate)
    · exact ⟨hsome, .inl hzero⟩
    · exact ⟨hsome, .inr (by omega)⟩

end Times

section Adding

variable {sha256 : List Byte → Hash256} {key : Hash256} {s : Book} {k g : U64}
  {addr source : NetAddr} {p : Peer} {timePenalty now nowOnline : I64}

theorem refresh_run (hp : s.mapPeers.lookup k = some p) : ∃ s' p',
    s.refresh k p addr timePenalty now = .ok s' ∧ s'.mapPeers.lookup k = some p' ∧
      p'.addr.services = p.addr.services ||| addr.services ∧
      p'.addr.timestamp = if Book.isOutdated p addr timePenalty now then
        Book.penalised addr timePenalty else p.addr.timestamp := by
  rw [Book.refresh]
  split_ifs with houtdated
  · rw [updatePeer_run hp]
    exact ⟨_, _, updatePeer_run (AList.lookup_insert _), AList.lookup_insert _, rfl, rfl⟩
  · exact ⟨_, _, updatePeer_run hp, AList.lookup_insert _, rfl, rfl⟩

/-- What an address that is there already brings is looked at only if it is newer. -/
theorem addKnown_run (hp : s.mapPeers.lookup k = some p) (hterrible : isTerriblePeer p now = false)
    (g : U64) (isNew isTried : Bool) (addr : NetAddr) (timePenalty nowOnline : I64) : ∃ s' p',
      s.addKnown k g (p, isNew, isTried) addr timePenalty now nowOnline = .ok s' ∧
      s'.mapPeers.lookup k = some p' ∧
      p'.addr.services = (if p.addr.timestamp < addr.timestamp then
        p.addr.services ||| addr.services else p.addr.services) ∧
      p'.addr.timestamp = if p.addr.timestamp < addr.timestamp ∧
        Book.isOutdated p addr timePenalty nowOnline then
          Book.penalised addr timePenalty else p.addr.timestamp := by
  have hold : (addr.timestamp == 0 || (p.addr.timestamp != 0 &&
      decide (addr.timestamp ≤ p.addr.timestamp))) = true ↔
      ¬ p.addr.timestamp < addr.timestamp := by
    rw [BitVec.not_lt, Bool.or_eq_true, beq_iff_eq, Bool.and_eq_true, bne_iff_ne,
      decide_eq_true_iff]
    constructor
    · rintro (hzero | ⟨-, hle⟩)
      · rw [hzero]
        exact Nat.zero_le _
      · exact hle
    · intro hle
      by_cases hzero : p.addr.timestamp = 0
      · rw [hzero] at hle
        exact .inl (BitVec.eq_of_toNat_eq (Nat.le_zero.mp hle))
      · exact .inr ⟨hzero, hle⟩
  rw [Book.addKnown]
  simp only [hterrible, Bool.false_eq_true, if_false]
  by_cases hnewer : p.addr.timestamp < addr.timestamp
  · rw [if_neg (fun h => hold.mp h hnewer)]
    simp only [hnewer, if_true, true_and]
    exact refresh_run hp
  · rw [if_pos (hold.mpr hnewer)]
    simp only [hnewer, if_false, false_and]
    exact ⟨s, p, rfl, hp, rfl, rfl⟩

theorem add_run (h : Kept sha256 key s)
    (hp : s.mapPeers.lookup (Book.mapKeyOf sha256 key addr.ip) = some p)
    (hip : p.addr.ip = addr.ip) (hterrible : isTerriblePeer p now = false) (source : NetAddr)
    (timePenalty nowOnline : I64) : ∃ s' p',
      s.add sha256 addr source timePenalty now nowOnline = .ok (false, s') ∧
      s'.mapPeers.lookup (Book.mapKeyOf sha256 key addr.ip) = some p' ∧
      p'.addr.services = (if p.addr.timestamp < addr.timestamp then
        p.addr.services ||| addr.services else p.addr.services) ∧
      p'.addr.timestamp = if p.addr.timestamp < addr.timestamp ∧
        Book.isOutdated p addr (penaltyOf addr source timePenalty) nowOnline then
          Book.penalised addr (penaltyOf addr source timePenalty) else p.addr.timestamp := by
  obtain rfl := h.key_eq
  have hroutable : addr.isRoutable = true := by
    rw [← NetAddr.isRoutable_congr hip]
    exact h.routable _ p hp
  have hknown := addKnown_run hp hterrible (Book.groupKeyOf sha256 s.key addr)
    (s.newTbl.lookup (Book.groupKeyOf sha256 s.key addr) ==
      some (Book.mapKeyOf sha256 s.key addr.ip))
    (s.triedTbl.lookup (Book.groupKeyOf sha256 s.key addr) ==
      some (Book.mapKeyOf sha256 s.key addr.ip))
    addr (penaltyOf addr source timePenalty) nowOnline
  obtain ⟨s', p', hrun, hp', hservices, htime⟩ := hknown
  refine ⟨s', p', ?_, hp', hservices, htime⟩
  rw [Book.add, hroutable]
  simp only [Bool.not_true, Bool.false_eq_true, if_false, Book.makeMapKey_false,
    Book.makeMapKey_true, Book.find, hp, Option.map_some]
  exact bind_eq_ok.mpr ⟨s', hrun, rfl⟩

end Adding

section Reachable

variable {sha256 : List Byte → Hash256} {key : Hash256} {U : Set IpAddr} {s : Book}

/-- Adding again an address that is there and not terrible. The services come with a newer
time. The stored time is never made smaller, unless by a newer time below the interval that is
newer by less than the penalty. A time no smaller than the interval makes it larger only if it
is newer by more than the interval and the penalty, or if none was stored. -/
theorem readded_newer (h : Reachable sha256 U key s) {addr : NetAddr} {p : Peer}
    (hp : s.mapPeers.lookup (Book.mapKeyOf sha256 key addr.ip) = some p)
    (hip : p.addr.ip = addr.ip) {now : I64} (hterrible : isTerriblePeer p now = false)
    (source : NetAddr) {timePenalty : I64} (hpenalty : 0 ≤ timePenalty.toInt) (nowOnline : I64) :
    ∃ s' p', s.add sha256 addr source timePenalty now nowOnline = .ok (false, s') ∧
      s'.mapPeers.lookup (Book.mapKeyOf sha256 key addr.ip) = some p' ∧
      p'.addr.services = (if p.addr.timestamp < addr.timestamp then
        p.addr.services ||| addr.services else p.addr.services) ∧
      (¬ (addr.timestamp < updateInterval addr nowOnline ∧ p.addr.timestamp < addr.timestamp ∧
          (addr.timestamp.toNat : Int) < p.addr.timestamp.toNat +
            (penaltyOf addr source timePenalty).toInt) →
        p.addr.timestamp ≤ p'.addr.timestamp) ∧
      (updateInterval addr nowOnline ≤ addr.timestamp → p.addr.timestamp < p'.addr.timestamp →
        p.addr.timestamp = 0 ∨
          (p.addr.timestamp.toNat : Int) + (updateInterval addr nowOnline).toNat +
            (penaltyOf addr source timePenalty).toInt < addr.timestamp.toNat) := by
  obtain ⟨s', p', hrun, hp', hservices, htime⟩ :=
    add_run (kept_of_reachable h) hp hip hterrible source timePenalty nowOnline
  refine ⟨s', p', hrun, hp', hservices, ?_⟩
  have hnonneg := penaltyOf_nonneg addr source hpenalty
  split_ifs at htime with hlate
  · obtain ⟨hnewer, hlate⟩ := hlate
    have htaken := (congrArg BitVec.toNat htime).trans (penalised_toNat hnonneg)
    refine ⟨fun hspared => ?_, fun hinterval _ => (isOutdated_iff hnonneg hinterval).mp hlate⟩
    rw [BitVec.le_def, htaken]
    by_cases hearly : addr.timestamp < updateInterval addr nowOnline
    · have hless : ¬ (addr.timestamp.toNat : Int) < p.addr.timestamp.toNat +
          (penaltyOf addr source timePenalty).toInt :=
        fun hless => hspared ⟨hearly, hnewer, hless⟩
      omega
    · obtain hzero | hlate := (isOutdated_iff hnonneg (BitVec.not_lt.mp hearly)).mp hlate
      · rw [hzero]
        exact Nat.zero_le _
      · omega
  · rw [htime]
    exact ⟨fun _ => BitVec.le_refl _, fun _ hlt => absurd hlt (BitVec.lt_irrefl _)⟩

section Example

/-- The same address as it was long ago. -/
def resolverAt (time : U32) : NetAddr := { resolver with timestamp := time }

def earlyPeer (time : U32) : Peer :=
  { addr := resolverAt time, source := resolver, attempts := 1, lastTry := 1700000000 }

/-- The book after the address was added with an early time and then tried. -/
def earlyTried (time : U32) : Book :=
  let s := (fresh (Bytes.zero 32)).addNewPeer resolverKey resolverGroup true (resolverAt time)
    resolver
  s.setMapPeers (s.mapPeers.insert resolverKey (earlyPeer time))

theorem earlyTried_reachable (time : U32) :
    Reachable resolverSha256 {resolver.ip} (Bytes.zero 32) (earlyTried time) := by
  have hadd : Reachable resolverSha256 {resolver.ip} (Bytes.zero 32)
      ((fresh (Bytes.zero 32)).addNewPeer resolverKey resolverGroup true (resolverAt time)
        resolver) := by
    refine Run.single (a := .add (resolverAt time) resolver 0 1700000000 1700000000) rfl ?_
    rfl
  refine hadd.tail ⟨.attempt (resolverAt time) 1700000000, trivial, ?_⟩
  rfl

theorem readded_newer_early : ∃ s' p',
    (earlyTried 100000).add resolverSha256 (resolverAt 1700000000) {} 7200 1700000000 1700000000 =
      .ok (false, s') ∧
    s'.mapPeers.lookup (Book.mapKeyOf resolverSha256 (Bytes.zero 32) resolver.ip) = some p' ∧
    p'.addr.services = (if (100000 : U32) < 1700000000 then resolver.services ||| resolver.services
      else resolver.services) ∧
    (¬ ((1700000000 : U32) < updateInterval (resolverAt 1700000000) 1700000000 ∧
        (100000 : U32) < 1700000000 ∧
        (1700000000 : Int) < 100000 + (penaltyOf (resolverAt 1700000000) {} 7200).toInt) →
      100000 ≤ p'.addr.timestamp) ∧
    (updateInterval (resolverAt 1700000000) 1700000000 ≤ 1700000000 →
      100000 < p'.addr.timestamp → (100000 : U32) = 0 ∨
        (100000 : Int) + (updateInterval (resolverAt 1700000000) 1700000000).toNat +
          (penaltyOf (resolverAt 1700000000) {} 7200).toInt < 1700000000) :=
  readded_newer (earlyTried_reachable 100000)
    (show (earlyTried 100000).mapPeers.lookup
      (Book.mapKeyOf resolverSha256 (Bytes.zero 32) (resolverAt 1700000000).ip) =
        some (earlyPeer 100000) from rfl)
    rfl (by decide) {} (by decide) 1700000000

/-- The interval wraps around below the start of the clock, and the time goes down by the
penalty. A time that was never known is taken over at once, and one that an address
announces itself is without the penalty. -/
theorem early_time_lowered :
    (Reachable resolverSha256 {resolver.ip} (Bytes.zero 32) (earlyTried 100) ∧
      (earlyTried 100).mapPeers.lookup resolverKey = some (earlyPeer 100) ∧
      isTerriblePeer (earlyPeer 100) 1700000000 = false ∧
      ∃ s' p', (earlyTried 100).add resolverSha256 (resolverAt 200) {} 150 1700000000 1700000000 =
          .ok (false, s') ∧
        s'.mapPeers.lookup resolverKey = some p' ∧ p'.addr.timestamp = 50) ∧
    (Reachable resolverSha256 {resolver.ip} (Bytes.zero 32) (earlyTried 0) ∧
      (earlyTried 0).mapPeers.lookup resolverKey = some (earlyPeer 0) ∧
      isTerriblePeer (earlyPeer 0) 1700000000 = false ∧
      ∃ s' p', (earlyTried 0).add resolverSha256 (resolverAt 86400) {} 0 1700000000 1700000000 =
          .ok (false, s') ∧
        s'.mapPeers.lookup resolverKey = some p' ∧ p'.addr.timestamp = 86400) ∧
    (Reachable resolverSha256 {resolver.ip} (Bytes.zero 32) (earlyTried 100000) ∧
      (earlyTried 100000).mapPeers.lookup resolverKey = some (earlyPeer 100000) ∧
      isTerriblePeer (earlyPeer 100000) 1700000000 = false ∧
      ∃ s' p', (earlyTried 100000).add resolverSha256 (resolverAt 300000) resolver 1000000
          1700000000 1700000000 = .ok (false, s') ∧
        s'.mapPeers.lookup resolverKey = some p' ∧ p'.addr.timestamp = 300000) :=
  ⟨⟨earlyTried_reachable 100, rfl, by decide, _, _, rfl, rfl, rfl⟩,
    ⟨earlyTried_reachable 0, rfl, by decide, _, _, rfl, rfl, rfl⟩,
    ⟨earlyTried_reachable 100000, rfl, by decide, _, _, rfl, rfl, rfl⟩⟩

end Example

end Reachable

end Refreshing
