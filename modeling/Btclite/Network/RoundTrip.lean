import Btclite.Network.WireFormats

/-!
# Round trips of the wire messages

A message that is written and read again, in front of any further bytes and
whatever memory held before, comes back on every field it writes exactly when
none of its strings holds a zero byte and every length fits in one byte. The
string reader stops at the first zero byte, and a longer length is read into
the low bytes of a word whose other bytes are stale.
-/

namespace RoundTrip

open Endian Serialize Agreement Canonical CanonicalVectors Address Messages

/-! Each message with only the fields that the wire carries. -/

section OnWire

def onWireAddr (m : Addr) : Addr := ⟨m.addrList.map NetAddr.onWire⟩

def onWirePing (m : Ping) : Ping :=
  if kBip31Version ≤ m.protocolVersion then m else { m with nonce := 0 }

def onWireReject (m : Reject) : Reject :=
  if Reject.hasData m.message then m else { m with data := Bytes.zero 32 }

def onWireVersion (m : Version) : Version :=
  { m with
    addrRecv := m.addrRecv.onWire
    addrFrom := m.addrFrom.onWire
    relay := if kRelayedTxsVersion ≤ m.protocolVersion then m.relay else false }

end OnWire

def RoundTrips {A : Type} (read : Deserializer A) (write : A → List Byte) (onWire : A → A)
    (m : A) : Prop :=
  ∀ (rest : List Byte) (memory : Memory) (interrupted : Bool), ∃ m' s',
    read ⟨write m ++ rest, memory, interrupted⟩ = .ok m' s' ∧
      onWire m' = onWire m ∧ s'.rest = rest

section General

variable {A : Type} {read : Deserializer A} {p : Parser A} {write : A → List Byte}
variable {onWire : A → A} {P : A → Prop}

def dirtyMemory : Memory := ⟨fun _ => 0xff, fun _ => 0⟩

theorem roundTrips_iff {m : A} (h : Agrees view [] read p write)
    (hwrite : ∀ a, write (onWire a) = write a) (hidem : onWire (onWire m) = onWire m)
    (hclean : ∀ a b, onWire a = onWire b → P a → P b)
    (hread : P m → ∀ rest stale, p ⟨write m ++ rest, stale⟩ = some (onWire m, ⟨rest, stale⟩))
    (hkeeps : Keeps AllDirty p P) :
    RoundTrips read write onWire m ↔ P m := by
  constructor
  · intro hm
    obtain ⟨m', s', hrun, hsame, -⟩ := hm [] dirtyMemory false
    have hw : write m' = write m := by rw [← hwrite m', hsame, hwrite]
    have hp := h.accepts hrun (by rw [hw]; simp)
    have hdirty : AllDirty (view.cursor ⟨write m ++ [], dirtyMemory, false⟩) := by
      intro i
      change 0xff#8 ≠ 0#8
      decide
    exact hclean m' m hsame (hkeeps _ _ _ hdirty hp).1
  · intro hm rest memory interrupted
    obtain ⟨s', hrun, hcur, -⟩ := h.reads (s := ⟨write m ++ rest, memory, interrupted⟩)
      (hread hm rest memory.stale)
    exact ⟨onWire m, s', hrun, hidem, congrArg Cursor.rest hcur⟩

end General

section Small

theorem addr_roundTrips_iff (m : Addr) :
    RoundTrips Addr.deserialize Addr.serialize onWireAddr m ↔ m.addrList.length < 253 := by
  refine roundTrips_iff (P := fun m : Addr => m.addrList.length < 253)
    WireFormats.addr_agrees ?_ ?_ ?_ ?_ ?_
  · intro a
    simp [Addr.serialize, onWireAddr, serializeVector, List.flatMap_map]
  · simp [onWireAddr, NetAddr.onWire, NetAddr.port]
  · intro a b h ha
    have hlen := congrArg (fun m : Addr => m.addrList.length) h
    simp only [onWireAddr, List.length_map] at hlen
    omega
  · intro hlen rest stale
    have hv := vector_append NetAddr.onWire hlen NetAddr.canonical_append rest stale
    exact strict_bind_some_iff.mpr ⟨_, _, hv, rfl⟩
  · exact Keeps.bind (vector_keeps NetAddr.canonical_keeps) fun l hl => Keeps.pure hl.1

theorem inv_roundTrips_iff (m : Inv) :
    RoundTrips Inv.deserialize Inv.serialize id m ↔ m.invVects.length < 253 := by
  refine roundTrips_iff (P := fun m : Inv => m.invVects.length < 253)
    WireFormats.inv_agrees (fun _ => rfl) rfl (fun a b h ha => (show a = b from h) ▸ ha) ?_ ?_
  · intro hlen rest stale
    have hone : ∀ (v : InvVect) rest stale,
        WireFormats.invVect ⟨v.serialize ++ rest, stale⟩ = some (id v, ⟨rest, stale⟩) := by
      intro v rest stale
      rw [InvVect.serialize, List.append_assoc]
      refine strict_bind_some_iff.mpr ⟨v.type, _, word_append rfl _ _ stale, ?_⟩
      exact strict_bind_some_iff.mpr ⟨v.hash, _, array_append _ _ stale, rfl⟩
    have hv := vector_append id hlen hone rest stale
    rw [List.map_id] at hv
    exact strict_bind_some_iff.mpr ⟨_, _, hv, rfl⟩
  · have hkeeps : Keeps AllDirty WireFormats.invVect (fun _ => True) :=
      Keeps.bind (word_keeps 32) fun _ _ => Keeps.bind (array_keeps 32) fun _ _ =>
        Keeps.pure trivial
    exact Keeps.bind (vector_keeps hkeeps) fun l hl => Keeps.pure hl.1

theorem getBlocks_roundTrips_iff (m : GetBlocks) :
    RoundTrips GetBlocks.deserialize GetBlocks.serialize id m ↔ m.hashes.length < 253 := by
  refine roundTrips_iff (P := fun m : GetBlocks => m.hashes.length < 253)
    WireFormats.getBlocks_agrees (fun _ => rfl) rfl (fun a b h ha => (show a = b from h) ▸ ha) ?_ ?_
  · intro hlen rest stale
    have hv := vector_append id hlen array_append (m.hashStop.data ++ rest) stale
    rw [List.map_id] at hv
    rw [GetBlocks.serialize, List.append_assoc, List.append_assoc]
    refine strict_bind_some_iff.mpr ⟨m.version, _, word_append rfl _ _ stale, ?_⟩
    refine strict_bind_some_iff.mpr ⟨m.hashes, _, hv, ?_⟩
    exact strict_bind_some_iff.mpr ⟨m.hashStop, _, array_append _ _ stale, rfl⟩
  · refine Keeps.bind (word_keeps 32) fun _ _ => ?_
    refine Keeps.bind (vector_keeps (array_keeps 32)) fun l hl => ?_
    exact Keeps.bind (array_keeps 32) fun _ _ => Keeps.pure hl.1

theorem ping_roundTrips (m : Ping) :
    RoundTrips (Ping.deserialize { protocolVersion := m.protocolVersion }) Ping.serialize
      onWirePing m := by
  refine (roundTrips_iff (P := fun _ : Ping => True) (WireFormats.ping_agrees _)
    ?_ ?_ (fun _ _ _ _ => trivial) ?_ ?_).mpr trivial
  · intro a
    by_cases h : kBip31Version ≤ a.protocolVersion <;> simp [onWirePing, Ping.serialize, h]
  · by_cases h : kBip31Version ≤ m.protocolVersion <;> simp [onWirePing, h]
  · intro _ rest stale
    by_cases h : kBip31Version ≤ m.protocolVersion
    · simp only [WireFormats.ping, onWirePing, Ping.serialize, h, if_true]
      exact strict_bind_some_iff.mpr ⟨m.nonce, _, word_append rfl _ _ stale, rfl⟩
    · simp only [WireFormats.ping, onWirePing, Ping.serialize, h, if_false]
      rfl
  · refine Keeps.ite (fun _ => ?_) fun _ => Keeps.pure trivial
    exact Keeps.bind (word_keeps 64) fun _ _ => Keeps.pure trivial

theorem pong_roundTrips (m : Pong) :
    RoundTrips Pong.deserialize Pong.serialize id m := by
  refine (roundTrips_iff (P := fun _ : Pong => True) WireFormats.pong_agrees
    (fun _ => rfl) rfl (fun _ _ _ _ => trivial) ?_ ?_).mpr trivial
  · intro _ rest stale
    exact strict_bind_some_iff.mpr ⟨m.nonce, _, word_append rfl _ _ stale, rfl⟩
  · exact Keeps.bind (word_keeps 64) fun _ _ => Keeps.pure trivial

theorem sendCmpct_roundTrips (m : SendCmpct) :
    RoundTrips SendCmpct.deserialize SendCmpct.serialize id m := by
  refine (roundTrips_iff (P := fun _ : SendCmpct => True) WireFormats.sendCmpct_agrees
    (fun _ => rfl) rfl (fun _ _ _ _ => trivial) ?_ ?_).mpr trivial
  · intro _ rest stale
    rw [SendCmpct.serialize, List.append_assoc]
    refine strict_bind_some_iff.mpr ⟨m.highBandwidthMode, _, bool_append _ _ stale, ?_⟩
    exact strict_bind_some_iff.mpr ⟨m.version, _, word_append rfl _ _ stale, rfl⟩
  · refine Keeps.bind bool_keeps fun _ _ => ?_
    exact Keeps.bind (word_keeps 64) fun _ _ => Keeps.pure trivial

theorem reject_roundTrips_iff (m : Reject)
    (hmessage : m.message.length ≤ MessageHeader.kCommandSize)
    (hreason : m.reason.length ≤ kMaxRejectMessageLength) :
    RoundTrips (Reject.deserialize {}) Reject.serialize onWireReject m ↔
      0#8 ∉ m.message ∧ 0#8 ∉ m.reason := by
  refine roundTrips_iff (P := fun m : Reject => 0#8 ∉ m.message ∧ 0#8 ∉ m.reason)
    (WireFormats.reject_agrees {}) ?_ ?_ ?_ ?_ ?_
  · intro a
    by_cases h : Reject.hasData a.message <;> simp [onWireReject, Reject.serialize, h]
  · by_cases h : Reject.hasData m.message <;> simp [onWireReject, h]
  · intro a b h ha
    have hm : ∀ r : Reject, (onWireReject r).message = r.message ∧
        (onWireReject r).reason = r.reason := by
      intro r
      by_cases hr : Reject.hasData r.message <;> simp [onWireReject, hr]
    rw [← (hm b).1, ← (hm b).2, ← h, (hm a).1, (hm a).2]
    exact ha
  · rintro ⟨hz, hz'⟩ rest stale
    have hsmall : m.message.length < 253 ∧ m.reason.length < 253 := by
      simp only [MessageHeader.kCommandSize, kMaxRejectMessageLength] at hmessage hreason
      omega
    rw [Reject.serialize, cutTo_of_le hmessage, cutTo_of_le hreason]
    simp only [List.append_assoc]
    refine strict_bind_some_iff.mpr ⟨m.message, _,
      string_append hz hsmall.1 hmessage _ stale, ?_⟩
    refine strict_bind_some_iff.mpr ⟨m.ccode, _, word_append rfl _ _ stale, ?_⟩
    refine strict_bind_some_iff.mpr ⟨m.reason, _,
      string_append hz' hsmall.2 hreason _ stale, ?_⟩
    by_cases h : Reject.hasData m.message
    · simp only [onWireReject, h, if_true]
      exact strict_bind_some_iff.mpr ⟨m.data, _, array_append _ _ stale, rfl⟩
    · simp only [onWireReject, h]
      rfl
  · refine Keeps.bind (string_keeps _) fun message hm => ?_
    refine Keeps.bind (word_keeps 8) fun _ _ => ?_
    refine Keeps.bind (string_keeps _) fun reason hr => ?_
    refine Keeps.ite (fun _ => ?_) fun _ => Keeps.pure ⟨hm.1, hr.1⟩
    exact Keeps.bind (array_keeps 32) fun _ _ => Keeps.pure ⟨hm.1, hr.1⟩

end Small

section VersionMessage

/-- What `deserializeHead` makes of its object for the head of `m`. -/
def headOf (self m : Version) : Version :=
  { self with
    protocolVersion := m.protocolVersion
    services := m.services
    timestamp := m.timestamp
    addrRecv := m.addrRecv.onWire
    addrFrom := m.addrFrom.onWire
    nonce := m.nonce }

theorem versionHead_append (self m : Version) (rest : List Byte) (stale : Nat → Byte) :
    WireFormats.versionHead self ⟨m.serializeHead ++ rest, stale⟩ =
      some (headOf self m, ⟨rest, stale⟩) := by
  simp only [Version.serializeHead, List.append_assoc]
  refine strict_bind_some_iff.mpr ⟨m.protocolVersion, _, word_append rfl _ _ stale, ?_⟩
  refine strict_bind_some_iff.mpr ⟨m.services, _, word_append rfl _ _ stale, ?_⟩
  refine strict_bind_some_iff.mpr ⟨m.timestamp, _, word_append rfl _ _ stale, ?_⟩
  refine strict_bind_some_iff.mpr ⟨_, _, NetAddr.canonical_append m.addrRecv _ stale, ?_⟩
  refine strict_bind_some_iff.mpr ⟨_, _, NetAddr.canonical_append m.addrFrom _ stale, ?_⟩
  exact strict_bind_some_iff.mpr ⟨m.nonce, _, word_append rfl _ _ stale, rfl⟩

theorem versionTail_append (m : Version) (rest : List Byte) (stale : Nat → Byte) :
    WireFormats.versionTail { headOf {} m with userAgent := m.userAgent }
      ⟨m.serializeTail ++ rest, stale⟩ = some (onWireVersion m, ⟨rest, stale⟩) := by
  rw [Version.serializeTail, List.append_assoc]
  refine strict_bind_some_iff.mpr ⟨m.startHeight, _, word_append rfl _ _ stale, ?_⟩
  change (if kRelayedTxsVersion ≤ m.protocolVersion then _ else _ : Parser Version) _ = _
  by_cases h : kRelayedTxsVersion ≤ m.protocolVersion
  · rw [if_pos h, if_pos h, onWireVersion, if_pos h]
    exact strict_bind_some_iff.mpr ⟨m.relay, _, bool_append _ _ stale, rfl⟩
  · rw [if_neg h, if_neg h, onWireVersion, if_neg h]
    rfl

theorem version_append {m : Version} (hz : 0#8 ∉ m.userAgent) (hlen : m.userAgent.length < 253)
    (rest : List Byte) (stale : Nat → Byte) :
    WireFormats.version {} ⟨m.serialize ++ rest, stale⟩ =
      some (onWireVersion m, ⟨rest, stale⟩) := by
  have hcap : m.userAgent.length ≤ kMaxSubVersionSize := by
    simp only [kMaxSubVersionSize]
    omega
  rw [Version.serialize, cutTo_of_le hcap]
  simp only [List.append_assoc]
  refine strict_bind_some_iff.mpr ⟨headOf {} m, _, versionHead_append {} m _ stale, ?_⟩
  refine strict_bind_some_iff.mpr ⟨m.userAgent, _, string_append hz hlen hcap _ stale, ?_⟩
  exact versionTail_append m rest stale

theorem deserializeTail_frame {v v' : Version} {s s' : Source}
    (h : Version.deserializeTail v s = .ok v' s') :
    ∃ startHeight relay, v' = { v with startHeight, relay } := by
  obtain ⟨startHeight, s₁, -, h⟩ := bind_ok_iff.mp h
  split_ifs at h
  · obtain ⟨relay, s₂, -, h⟩ := bind_ok_iff.mp h
    obtain ⟨rfl, -⟩ := pure_ok_iff.mp h
    exact ⟨startHeight, relay, rfl⟩
  · obtain ⟨rfl, -⟩ := pure_ok_iff.mp h
    exact ⟨startHeight, v.relay, rfl⟩

theorem version_reads {self v : Version} {c : Cursor} {s : Source}
    (h : WireFormats.version self (view.cursor s) = some (v, c)) :
    ∃ s', Version.deserialize self s = .ok v s' ∧ view.cursor s' = c ∧
      s.rest = v.serialize ++ c.rest := by
  obtain ⟨v₁, c₁, hhead, h⟩ := strict_bind_some_iff.mp h
  obtain ⟨userAgent, c₂, hstring, htail⟩ := strict_bind_some_iff.mp h
  obtain ⟨s₁, hrun₁, rfl, hrest₁⟩ := (WireFormats.versionHead_agrees self).reads hhead
  obtain ⟨s₂, hrun₂, rfl, hrest₂, hcap⟩ := string_reads hstring
  obtain ⟨s₃, hrun₃, rfl, hrest₃⟩ := (WireFormats.versionTail_agrees _).reads htail
  simp only [unread_cursor, rest_cursor] at hrest₁ hrest₂ hrest₃
  have hrun : Version.deserialize self s = .ok v s₃ := by
    refine bind_ok_iff.mpr ⟨v₁, s₁, hrun₁, bind_ok_iff.mpr ⟨userAgent, s₂, hrun₂, ?_⟩⟩
    rw [cutTo_of_le hcap]
    exact hrun₃
  obtain ⟨startHeight, relay, rfl⟩ := deserializeTail_frame hrun₃
  refine ⟨s₃, hrun, rfl, ?_⟩
  rw [hrest₁, hrest₂, hrest₃, Version.serialize, cutTo_of_le hcap, List.append_assoc,
    List.append_assoc]
  rfl

/-- A marked length is refused when the memory under it is all ones. -/
theorem serReadVarInt_dirty {n : Nat} {s s' : Source} {v : U64} {tail : List Byte}
    (hn : 253 ≤ n) (hn' : n < 2 ^ 16)
    (hs : s.rest = serWriteVarInt (BitVec.ofNat 64 n) ++ tail)
    (hdirty : ∀ i, s.memory.stale i = 0xff#8) : serReadVarInt s ≠ .ok v s' := by
  intro h
  have hlist : (List.replicate n (0 : Byte)).length = n := List.length_replicate ..
  have hs' : s.rest =
      serWriteVarInt (BitVec.ofNat 64 (List.replicate n (0 : Byte)).length) ++ tail := by
    rw [hlist]
    exact hs
  obtain ⟨hform, -, -, -, -⟩ := wide_length (by omega) (by omega) hs'
  rw [serReadVarInt_run, hform] at h
  simp only at h
  split_ifs at h with h1 h2
  have hmax : (wideValue 2 (skip 1 s)).toNat < 2 ^ 32 := by
    simp only [kMaxVardataSize, BitVec.lt_def, BitVec.toNat_ofNat] at h2
    omega
  have hhigh := (toLittleEndian_wideValue (n := 2) (by omega) (skip 1 s)).2
  have hzero : (wideValue 2 (skip 1 s) >>> (8 * 2)) >>> (8 * 2) = 0#64 := by
    apply BitVec.eq_of_toNat_eq
    rw [← BitVec.shiftRight_add, BitVec.toNat_ushiftRight, Nat.shiftRight_eq_div_pow,
      Nat.div_eq_of_lt (by omega)]
    rfl
  have hsplit := toLittleEndian_add 2 4 (wideValue 2 (skip 1 s) >>> (8 * 2))
  rw [hzero, toLittleEndian_zero] at hsplit
  have hmem : 0#8 ∈ (List.range 6).map (skip 2 (skip 1 s)).memory.stale := by
    change toLittleEndian 6 _ = (List.range 6).map _ at hhigh
    rw [← hhigh, hsplit]
    simp
  obtain ⟨i, -, hi⟩ := List.mem_map.mp hmem
  have : (skip 2 (skip 1 s)).memory.stale i = 0xff#8 := hdirty _
  rw [this] at hi
  exact absurd hi (by decide)

theorem version_roundTrips_iff (m : Version)
    (hagent : m.userAgent.length ≤ kMaxSubVersionSize) :
    RoundTrips (Version.deserialize {}) Version.serialize onWireVersion m ↔
      0#8 ∉ m.userAgent ∧ m.userAgent.length < 253 := by
  constructor
  · intro hm
    obtain ⟨m', s', hrun, hsame, -⟩ := hm [] dirtyMemory false
    have hcap : kMaxSubVersionSize = 256 := rfl
    obtain ⟨v₁, s₁, hhead, hrun⟩ := bind_ok_iff.mp hrun
    obtain ⟨out, s₂, hstring, htail⟩ := bind_ok_iff.mp hrun
    have hcursor := versionHead_append {} m
      (serializeString m.userAgent ++ (m.serializeTail ++ [])) dirtyMemory.stale
    obtain ⟨t, ht, hcur, -⟩ := (WireFormats.versionHead_agrees {}).reads
      (s := ⟨m.serialize ++ [], dirtyMemory, false⟩) (by
        rw [Version.serialize, cutTo_of_le hagent]
        simp only [List.append_assoc]
        exact hcursor)
    rw [hhead] at ht
    cases ht
    have hrest : s₁.rest = serializeString m.userAgent ++ (m.serializeTail ++ []) :=
      congrArg Cursor.rest hcur
    have hstale : s₁.memory.stale = dirtyMemory.stale := congrArg Cursor.stale hcur
    obtain ⟨size, s₃, hsize, hchars⟩ := deserializeString_ok_iff.mp hstring
    have hwrite : s₁.rest = serWriteVarInt (BitVec.ofNat 64 m.userAgent.length) ++
        (m.userAgent ++ (m.serializeTail ++ [])) := by
      rw [hrest, serializeString, List.append_assoc]
    have hlen : m.userAgent.length < 253 := by
      by_contra hlen
      exact serReadVarInt_dirty (by omega) (by omega) hwrite
        (fun i => congrFun hstale i) hsize
    have hsize' : size = BitVec.ofNat 64 m.userAgent.length := by
      have hone : (BitVec.ofNat 64 m.userAgent.length).toNat < 253 := by
        rw [BitVec.toNat_ofNat]
        omega
      have hvar := varInt_append hone (m.userAgent ++ (m.serializeTail ++ [])) s₁.memory.stale
      rw [← hwrite] at hvar
      obtain ⟨t, ht, -, -⟩ := serReadVarInt_agrees.reads (s := s₁) hvar
      rw [hsize] at ht
      cases ht
      rfl
    have hshort : out.length ≤ kMaxSubVersionSize := by
      have := (readChars_bounds hchars).2
      rw [hsize', BitVec.toNat_ofNat] at this
      omega
    have hout : out = m.userAgent := by
      obtain ⟨startHeight, relay, rfl⟩ := deserializeTail_frame htail
      have hsame' := congrArg Version.userAgent hsame
      simpa only [onWireVersion, cutTo_of_le hshort] using hsame'
    exact ⟨hout ▸ (readChars_bounds hchars).1, hlen⟩
  · rintro ⟨hz, hlen⟩ rest memory interrupted
    obtain ⟨s', hrun, hcur, -⟩ := version_reads (s := ⟨m.serialize ++ rest, memory, interrupted⟩)
      (version_append hz hlen rest memory.stale)
    refine ⟨onWireVersion m, s', hrun, ?_, congrArg Cursor.rest hcur⟩
    by_cases h : kRelayedTxsVersion ≤ m.protocolVersion <;>
      simp [onWireVersion, h, NetAddr.onWire, NetAddr.port]

end VersionMessage

/-- When each of the eight messages survives the wire. -/
theorem messages_roundTrip_iff (version : Version) (reject : Reject) (addr : Addr) (inv : Inv)
    (getBlocks : GetBlocks) (ping : Ping) (pong : Pong) (sendCmpct : SendCmpct) :
    (version.userAgent.length ≤ kMaxSubVersionSize →
      (RoundTrips (Version.deserialize {}) Version.serialize onWireVersion version ↔
        0#8 ∉ version.userAgent ∧ version.userAgent.length < 253)) ∧
    (reject.message.length ≤ MessageHeader.kCommandSize →
      reject.reason.length ≤ kMaxRejectMessageLength →
      (RoundTrips (Reject.deserialize {}) Reject.serialize onWireReject reject ↔
        0#8 ∉ reject.message ∧ 0#8 ∉ reject.reason)) ∧
    (addr.addrList.length ≤ kMaxVardataSize.toNat →
      (RoundTrips Addr.deserialize Addr.serialize onWireAddr addr ↔
        addr.addrList.length < 253)) ∧
    (inv.invVects.length ≤ kMaxVardataSize.toNat →
      (RoundTrips Inv.deserialize Inv.serialize id inv ↔ inv.invVects.length < 253)) ∧
    (getBlocks.hashes.length ≤ kMaxVardataSize.toNat →
      (RoundTrips GetBlocks.deserialize GetBlocks.serialize id getBlocks ↔
        getBlocks.hashes.length < 253)) ∧
    RoundTrips (Ping.deserialize { protocolVersion := ping.protocolVersion })
      Ping.serialize onWirePing ping ∧
    RoundTrips Pong.deserialize Pong.serialize id pong ∧
    RoundTrips SendCmpct.deserialize SendCmpct.serialize id sendCmpct :=
  ⟨version_roundTrips_iff version, reject_roundTrips_iff reject,
    fun _ => addr_roundTrips_iff addr, fun _ => inv_roundTrips_iff inv,
    fun _ => getBlocks_roundTrips_iff getBlocks, ping_roundTrips ping, pong_roundTrips pong,
    sendCmpct_roundTrips sendCmpct⟩

theorem messages_roundTrip_plain_agent :
    RoundTrips (Version.deserialize {}) Version.serialize onWireVersion
      { protocolVersion := kProtocolVersion, userAgent := ascii ['/', 'x', '/'], relay := true } :=
  ((messages_roundTrip_iff _ {} {} {} {} {} {} {}).1 (by decide)).mpr (by decide)

/-- The user agent `a\0b` comes back as `a`. -/
theorem zero_byte_agent_lost :
    ([0x61, 0x00, 0x62] : List Byte).length ≤ kMaxSubVersionSize ∧
      ¬ RoundTrips (Version.deserialize {}) Version.serialize onWireVersion
        { userAgent := [0x61, 0x00, 0x62] } := by
  refine ⟨by decide, fun h => ?_⟩
  have hclean := (version_roundTrips_iff _ (by decide)).mp h
  exact hclean.1 (by decide)

end RoundTrip
