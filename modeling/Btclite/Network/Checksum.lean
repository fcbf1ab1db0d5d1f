import Btclite.Network.Disconnection
import Btclite.Network.Refusals
import Btclite.Network.Soundness

/-!
# Checksums

`HandleMsgData` takes the checksum of what the decoded message would be written
as. These are the bytes received exactly when the payload is canonical. One that
is not is handled under the checksum of other bytes, or refused under its own.
-/

namespace Checksum

open Endian Serialize Agreement Canonical CanonicalVectors Address Messages Nodes Handlers Sessions
open MsgProcess RoundTrip Soundness Disconnection Runs

section Formats

/-- What the payload of a command has to look like. -/
def format (command : List Byte) (protocolVersion : U32) : Option (Parser Message) :=
  if command = kMsgVersion then some (Message.version <$> WireFormats.version {})
  else if command = kMsgVerack then some (pure Message.verack)
  else if command = kMsgAddr then some (Message.addr <$> WireFormats.addr)
  else if command = kMsgInv then some (Message.inv <$> WireFormats.inv)
  else if command = kMsgGetAddr then some (pure Message.getaddr)
  else if command = kMsgPing then
    some (Message.ping <$> WireFormats.ping { nonce := 0, protocolVersion })
  else if command = kMsgPong then some (Message.pong <$> WireFormats.pong)
  else if command = kMsgReject then some (Message.reject <$> WireFormats.reject {})
  else if command = kMsgSendHeaders then some (pure Message.sendheaders)
  else if command = kMsgSendCmpct then some (Message.sendcmpct <$> WireFormats.sendCmpct)
  else none

theorem format_agrees {command : List Byte} {protocolVersion : U32}
    {decode : Deserializer Message}
    (h : Message.decoder command protocolVersion = some decode) (hv : command ≠ kMsgVersion) :
    ∃ p, format command protocolVersion = some p ∧ Agrees view [] decode p Message.serialize := by
  cases Message.decodes_of_decoder h with
  | version => exact absurd rfl hv
  | verack => exact ⟨_, rfl, Agrees.pure rfl⟩
  | addr => exact ⟨_, rfl, WireFormats.addr_agrees.map _ fun _ _ => rfl⟩
  | inv => exact ⟨_, rfl, WireFormats.inv_agrees.map _ fun _ _ => rfl⟩
  | getaddr => exact ⟨_, rfl, Agrees.pure rfl⟩
  | ping => exact ⟨_, rfl, (WireFormats.ping_agrees _).map _ fun _ _ => rfl⟩
  | pong => exact ⟨_, rfl, WireFormats.pong_agrees.map _ fun _ _ => rfl⟩
  | reject => exact ⟨_, rfl, (WireFormats.reject_agrees _).map _ fun _ _ => rfl⟩
  | sendheaders => exact ⟨_, rfl, Agrees.pure rfl⟩
  | sendcmpct => exact ⟨_, rfl, WireFormats.sendCmpct_agrees.map _ fun _ _ => rfl⟩

/-- Some message of the command is written as these bytes. -/
def Encodes (command : List Byte) (protocolVersion : U32) (raw : List Byte) : Prop :=
  ∃ m : Message, m.command = command ∧
    (∀ ping, m = .ping ping → ping.protocolVersion = protocolVersion) ∧ m.serialize = raw

theorem ping_protocolVersion {self m : Ping} {s s' : Source}
    (h : Ping.deserialize self s = .ok m s') : m.protocolVersion = self.protocolVersion := by
  rw [Ping.deserialize] at h
  split_ifs at h
  · obtain ⟨nonce, s₁, -, h⟩ := bind_ok_iff.mp h
    obtain ⟨rfl, -⟩ := pure_ok_iff.mp h
    rfl
  · obtain ⟨rfl, -⟩ := pure_ok_iff.mp h
    rfl

theorem decoder_encodes {command : List Byte} {protocolVersion : U32}
    {decode : Deserializer Message} {m : Message} {s s' : Source}
    (h : Message.decoder command protocolVersion = some decode) (hrun : decode s = .ok m s') :
    Encodes command protocolVersion m.serialize := by
  have hmap : ∀ {A : Type} {read : Deserializer A} {f : A → Message}, (f <$> read) s = .ok m s' →
      ∃ v, read s = .ok v s' ∧ f v = m := fun h => map_ok_iff.mp h
  cases Message.decodes_of_decoder h with
  | ping =>
    obtain ⟨v, hread, rfl⟩ := hmap hrun
    refine ⟨.ping v, rfl, ?_, rfl⟩
    rintro _ ⟨⟩
    exact ping_protocolVersion hread
  | verack | getaddr | sendheaders =>
    obtain ⟨rfl, -⟩ := pure_ok_iff.mp hrun
    exact ⟨_, rfl, by simp, rfl⟩
  | _ =>
    obtain ⟨v, -, rfl⟩ := hmap hrun
    exact ⟨_, rfl, by simp, rfl⟩

end Formats

section Stale

/-- Memory under which a three-byte length reads 65536 too much, with one byte behind it. -/
def misleading (byte : Byte) : Memory where
  stale i := if i = 0 then 1#8 else if i < 6 then 0#8 else byte
  returned _ := 0

theorem serReadVarInt_misleading {s : Source} {agent tail : List Byte} {byte : Byte}
    (hlen : 253 ≤ agent.length) (hlen' : agent.length < 2 ^ 16)
    (hs : s.rest = serWriteVarInt (BitVec.ofNat 64 agent.length) ++ tail)
    (hmem : s.memory.stale = (misleading byte).stale) :
    ∃ size s', serReadVarInt s = .ok size s' ∧ 2 ^ 16 ≤ size.toNat ∧ s'.rest = tail ∧
      ∀ i, s'.memory.stale i = byte := by
  obtain ⟨hform, hrest, hafter, -, hstale⟩ := wide_length hlen hlen' hs
  obtain ⟨-, -, hbuffer, hskip⟩ := wide_length_reads hlen hlen' hs
  have hlarge : 2 ^ 16 ≤ (wideValue 2 (skip 1 s)).toNat := by
    by_contra hlt
    have h0 := hstale.mp (by omega) 0 (by omega)
    rw [hmem] at h0
    cases h0
  have hsmall : (wideValue 2 (skip 1 s)).toNat < 2 ^ 24 := by
    have hbytes : (List.range (8 - 2)).map (misleading byte).stale =
        [1#8] ++ List.replicate 5 0#8 := rfl
    have hlt := fromLittleEndian_toNat_lt 64
      (toLittleEndian 2 (BitVec.ofNat 64 agent.length) ++ [1#8])
    rw [wideValue, hskip, hmem, hbuffer, hbytes, ← List.append_assoc, fromLittleEndian_append_zero]
    simpa using hlt
  refine ⟨_, _, ?_, hlarge, hrest, fun i => ?_⟩
  · have hleast : ¬ wideValue 2 (skip 1 s) < kVarint16bits.setWidth 64 := by
      simp only [BitVec.lt_def, kVarint16bits, BitVec.toNat_setWidth, BitVec.toNat_ofNat]
      omega
    have hmax : ¬ kMaxVardataSize < wideValue 2 (skip 1 s) := by
      simp only [BitVec.lt_def, kMaxVardataSize, BitVec.toNat_ofNat]
      omega
    rw [serReadVarInt_run, hform]
    simp only [if_neg hleast, if_neg hmax]
  · have hbehind : ¬ 6 + i < 6 := by omega
    rw [hafter, hmem]
    simp [misleading, hbehind]

/-- Where less is left than the last fields take, the last byte is a stale one. -/
theorem deserializeTail_last {v v' : Version} {t t' : Source} {byte : Byte}
    (h : Version.deserializeTail v t = .ok v' t') (hshort : t.rest.length < tailSize v)
    (hstale : ∀ i, t.memory.stale i = byte) (hbyte : byte = 0#8 ∨ byte = 1#8) :
    v'.serializeTail.getLast? = some byte := by
  rw [deserializeTail_ok h]
  rw [tailSize] at hshort
  have hmap : ∀ n, (List.range n).map t.memory.stale = List.replicate n byte := by
    intro n
    exact List.eq_replicate_iff.mpr ⟨by simp, by simp [hstale]⟩
  by_cases hrelay : kRelayedTxsVersion ≤ v.protocolVersion
  · rw [if_pos hrelay] at hshort ⊢
    have hnone : t.rest.drop 4 = [] := List.drop_eq_nil_of_le (by omega)
    have hflag : buffer 1 (skip 4 t) = [byte] := by
      simp [buffer, skip, hnone, hstale]
    rw [hflag, List.getLast?_append]
    rcases hbyte with rfl | rfl <;> rfl
  · rw [if_neg hrelay] at hshort ⊢
    obtain ⟨k, hk⟩ : ∃ k, 4 - t.rest.length = k + 1 := ⟨3 - t.rest.length, by omega⟩
    rw [List.append_nil, buffer, hmap, hk, List.replicate_succ', ← List.append_assoc,
      List.getLast?_concat]

theorem serializeTail_length (v : Version) : v.serializeTail.length = tailSize v := by
  rw [Version.serializeTail, tailSize, List.length_append]
  by_cases hrelay : kRelayedTxsVersion ≤ v.protocolVersion
  · rw [if_pos hrelay, if_pos hrelay]
    simp [serWriteData, serWriteBool]
  · rw [if_neg hrelay, if_neg hrelay]
    simp [serWriteData]

/-- A version whose user agent has a three-byte length is read as another one under some
memory: the reader takes all that follows for the agent and ends with a stale byte. -/
theorem version_misread {v : Version} {agent : List Byte}
    (hagent : cutTo kMaxSubVersionSize v.userAgent = agent) (hz : 0#8 ∉ agent)
    (hlen : 253 ≤ agent.length) :
    ∃ memory m s', Version.deserialize {} ⟨v.serialize, memory, false⟩ = .ok m s' ∧
      m.serialize ≠ v.serialize := by
  have hcap : agent.length ≤ 256 := by
    rw [← hagent, cutTo_eq_take, List.length_take]
    simp only [kMaxSubVersionSize]
    omega
  obtain ⟨byte, hbyte, hlast⟩ : ∃ byte, (byte = 0#8 ∨ byte = 1#8) ∧
      v.serialize.getLast? ≠ some byte := by
    by_cases h : v.serialize.getLast? = some 0#8
    · exact ⟨1#8, Or.inr rfl, by rw [h]; decide⟩
    · exact ⟨0#8, Or.inl rfl, h⟩
  have hlayout : v.serialize = v.serializeHead ++
      (serWriteVarInt (BitVec.ofNat 64 agent.length) ++ (agent ++ v.serializeTail)) := by
    rw [Version.serialize, hagent, serializeString]
    simp only [List.append_assoc]
  have hhead := versionHead_append {} v
    (serWriteVarInt (BitVec.ofNat 64 agent.length) ++ (agent ++ v.serializeTail))
    (misleading byte).stale
  rw [← hlayout] at hhead
  obtain ⟨s₁, hrun₁, hcursor, -⟩ := (WireFormats.versionHead_agrees {}).reads
    (s := ⟨v.serialize, misleading byte, false⟩) hhead
  have hrest₁ := congrArg Cursor.rest hcursor
  have hstale₁ := congrArg Cursor.stale hcursor
  simp only [rest_cursor] at hrest₁
  obtain ⟨size, s₂, hsize, hlarge, hrest₂, hstale₂⟩ :=
    serReadVarInt_misleading hlen (by omega) hrest₁ hstale₁
  obtain ⟨out, s₃, hchars⟩ := Refusals.readChars_total size.toNat none s₂
  have htail : tailSize v ≤ 5 := by
    rw [tailSize]
    split_ifs <;> omega
  have hlen₂ : s₂.rest.length = agent.length + tailSize v := by
    rw [hrest₂, List.length_append, serializeTail_length]
  obtain ⟨hmemory, hends⟩ := readChars_ends hchars (by omega) fun hnil => by
    rw [hnil, List.length_nil] at hlen₂
    omega
  have hshort : s₃.rest.length < tailSize v := by
    rcases hends with hnil | hend
    · rw [hnil, tailSize]
      split_ifs <;> simp
    · -- the zero byte that ended the string is none of the agent's
      have hout : agent.length ≤ out.length := by
        by_contra hlt
        have hpre : out ++ [0#8] <+: agent := by
          have hout₂ : out ++ [0#8] <+: s₂.rest := ⟨s₃.rest, by simp [hend]⟩
          have hagent₂ : agent <+: s₂.rest := ⟨v.serializeTail, hrest₂.symm⟩
          exact List.prefix_of_prefix_length_le hout₂ hagent₂ (by simp; omega)
        exact hz (hpre.subset (by simp))
      rw [hend, List.length_append, List.length_cons] at hlen₂
      omega
  obtain ⟨m, s₄, hrun₄⟩ := Refusals.deserializeTail_total
    { headOf {} v with userAgent := cutTo kMaxSubVersionSize out } s₃
  have hm := deserializeTail_last hrun₄ hshort (fun i => by rw [hmemory]; exact hstale₂ i) hbyte
  refine ⟨misleading byte, m, s₄, bind_ok_iff.mpr ⟨_, s₁, hrun₁, bind_ok_iff.mpr
    ⟨out, s₃, deserializeString_ok_iff.mpr ⟨size, s₂, hsize, hchars⟩, hrun₄⟩⟩, fun hsame => ?_⟩
  rw [← hsame, Version.serialize, List.getLast?_append, hm] at hlast
  exact hlast rfl

end Stale

section Exactness

/-- All of the payload is what the command's format calls for. -/
def Exact (memory : Memory) (header : MessageHeader) (raw : List Byte) (node : Node) : Prop :=
  ∃ p m c, format header.command node.protocolVersion = some p ∧
    p ⟨raw, memory.stale⟩ = some (m, c) ∧ c.rest = []

variable {env : Env} {header : MessageHeader} {raw : List Byte} {node : Node} {m : Message}
variable {s : Source}

theorem decoded_ok_iff : decoded env header raw node = some (.ok m s) ↔
    header.isValid 0 = true ∧ ∃ decode,
      Message.decoder header.command node.protocolVersion = some decode ∧
        decode ⟨raw, env.memory, false⟩ = .ok m s := by
  rw [decoded]
  cases header.isValid 0 <;> simp

theorem serialize_of_exact (hd : decoded env header raw node = some (.ok m s))
    (h : Exact env.memory header raw node) : m.serialize = raw := by
  obtain ⟨-, decode, hdecoder, hrun⟩ := decoded_ok_iff.mp hd
  obtain ⟨p, m', c, hp, hparse, hend⟩ := h
  by_cases hv : header.command = kMsgVersion
  · rw [hv] at hdecoder hp
    cases hdecoder
    cases hp
    obtain ⟨v, hread, rfl⟩ := map_ok_iff.mp hrun
    rw [map_eq_pure_bind, strict_bind_some_iff] at hparse
    obtain ⟨v', c', hparse, hpure⟩ := hparse
    obtain ⟨rfl, rfl⟩ := strict_pure_some_iff.mp hpure
    obtain ⟨s', hread', -, hrest⟩ := version_reads (s := ⟨raw, env.memory, false⟩) hparse
    rw [hread] at hread'
    cases hread'
    rw [hend, List.append_nil] at hrest
    exact hrest.symm
  · obtain ⟨p', hp', hagrees⟩ := format_agrees hdecoder hv
    rw [hp] at hp'
    cases hp'
    exact (hagrees.whole_iff hrun).mpr ⟨m', c, hparse, hend⟩

theorem version_agent {self v : Version} {t t' : Source}
    (h : Version.deserialize self t = .ok v t') :
    v.userAgent.length ≤ kMaxSubVersionSize ∧ 0#8 ∉ v.userAgent := by
  obtain ⟨v₁, s₁, -, h⟩ := bind_ok_iff.mp h
  obtain ⟨agent, s₂, hagent, htail⟩ := bind_ok_iff.mp h
  obtain ⟨startHeight, relay, rfl⟩ := deserializeTail_frame htail
  obtain ⟨size, s₃, -, hchars⟩ := deserializeString_ok_iff.mp hagent
  have hcut : cutTo kMaxSubVersionSize agent = agent.take kMaxSubVersionSize := cutTo_eq_take _ _
  constructor
  · change (cutTo kMaxSubVersionSize agent).length ≤ _
    rw [hcut, List.length_take]
    omega
  · change 0#8 ∉ cutTo kMaxSubVersionSize agent
    rw [hcut]
    exact fun hmem => (readChars_bounds hchars).1 (List.mem_of_mem_take hmem)

/-- A payload that is written back as it was, without being exact, is a version message,
and under some memory it is not written back. -/
theorem exact_or_misread (hd : decoded env header raw node = some (.ok m s))
    (hm : m.serialize = raw) : Exact env.memory header raw node ∨
      ∃ memory m' s', decoded { env with memory } header raw node = some (.ok m' s') ∧
        m'.serialize ≠ raw := by
  obtain ⟨hvalid, decode, hdecoder, hrun⟩ := decoded_ok_iff.mp hd
  by_cases hv : header.command = kMsgVersion
  · have hdecoder' := hdecoder
    rw [hv] at hdecoder'
    cases hdecoder'
    obtain ⟨v, hread, rfl⟩ := map_ok_iff.mp hrun
    obtain ⟨hcap, hz⟩ := version_agent hread
    by_cases hlen : v.userAgent.length < 253
    · left
      have hstrict := version_append hz hlen [] env.memory.stale
      rw [List.append_nil] at hstrict
      refine ⟨_, .version (onWireVersion v), ⟨[], env.memory.stale⟩, by rw [hv]; rfl, ?_, rfl⟩
      rw [map_eq_pure_bind, strict_bind_some_iff]
      exact ⟨_, _, hm ▸ hstrict, rfl⟩
    · right
      obtain ⟨memory, m', s', hread', hne⟩ :=
        version_misread (cutTo_of_le hcap) hz (not_lt.mp hlen)
      refine ⟨memory, .version m', s', decoded_ok_iff.mpr ⟨hvalid, _, hdecoder, ?_⟩, hm ▸ hne⟩
      exact map_ok_iff.mpr ⟨m', hm ▸ hread', rfl⟩
  · left
    obtain ⟨p, hp, hagrees⟩ := format_agrees hdecoder hv
    obtain ⟨m', c, hparse, hend⟩ := (hagrees.whole_iff hrun).mp hm
    exact ⟨p, m', c, hp, hparse, hend⟩

end Exactness

section Outcomes

def refused? : Event → Option (List Byte)
  | .checksumError command => some command
  | _ => none

/-- The commands rejected for their checksum. -/
def refusals (log : List Event) : List (List Byte) := log.filterMap refused?

theorem refused_of_plain (e : Event) (h : e.isPlain = true) : refused? e = none := by
  cases e with
  | checksumError command => cases h
  | _ => rfl

/-- Nothing is received. -/
def Unreceived (_ : Session) : Action → Prop
  | .receive _ => False
  | _ => True

/-- Nothing is rejected for its checksum. -/
def Unrefused (_ : Session) : Action → Prop
  | .refuse _ => False
  | _ => True

variable {env : Env} {header : MessageHeader} {raw : List Byte} {w : Work}

/-- A handler runs only for a message that is delivered. -/
theorem handled_of_not_delivers (h : ∀ m, ¬ Delivers env header raw w m) :
    handled (parseMsgData env header raw w).2.log = handled w.log := by
  have hreach : Reaches Unreceived (session w) (session (parseMsgData env header raw w).2) := by
    refine parseMsgData_reaches ⟨fun _ _ => trivial, fun _ => trivial, fun _ _ => trivial⟩
      trivial (fun m hm => absurd hm (h m)) fun _ _ hreceive => hreceive.elim
  refine filterMap_of_reaches handled_of_plain (fun s a hd => ?_) hreach
  cases a with
  | receive command => exact hd.elim
  | _ => rfl

/-- What is decoded is rejected exactly when the header carries another checksum. -/
theorem refusals_eq_iff : refusals (parseMsgData env header raw w).2.log = refusals w.log ↔
    ∀ m s, decoded env header raw w.node = some (.ok m s) →
      header.checksum = checksum env m.serialize := by
  obtain ⟨w₁, hnode, hsession, hcases⟩ := parseMsgData_cases env header raw w
  have hw₁ : refusals w₁.log = refusals w.log := by
    refine (filterMap_session refused_of_plain w₁).symm.trans ?_
    rw [hsession, Session.after, filterMap_note, filterMap_session refused_of_plain]
    exact List.append_nil _
  rcases hcases with ⟨hd, hrun⟩ | ⟨failure, s, hd, hrun⟩ | ⟨m, s, hd, hrun⟩
  · rw [hrun, hd]
    exact iff_of_true hw₁ (by simp)
  · rw [hrun, hd]
    exact iff_of_true hw₁ (by simp)
  · rw [hrun, hd]
    have hunadmitted : ¬ Admitted env header m w₁ →
        refusals (handleMsgData env header m w₁).2.log = refusals w₁.log ++
          if header.checksum = checksum env m.serialize then [] else [m.command] := by
      intro h
      refine (filterMap_session refused_of_plain _).symm.trans ?_
      rw [handleMsgData_of_not_admitted h]
      split_ifs
      · rw [List.append_nil]
        exact filterMap_session refused_of_plain w₁
      · rw [Session.after, filterMap_note, filterMap_session refused_of_plain]
        rfl
    by_cases hsum : header.checksum = checksum env m.serialize
    · refine iff_of_true ?_ (by rintro _ _ ⟨⟩; exact hsum)
      rw [← hw₁]
      by_cases hadmitted : Admitted env header m w₁
      · have hreach := recvHandler_reaches (D := Unrefused) (fun _ => trivial)
          (fun _ _ => trivial) env m
          (emit (.received m.command w₁.node.connection.connectionState) w₁).2
          ((checkMisbehaving_iff m.command w₁).mp hadmitted.2.2) fun _ => trivial
        rw [handleMsgData_of_admitted hadmitted]
        refine (filterMap_of_reaches refused_of_plain (fun s a hd => ?_) hreach).trans ?_
        · cases a with
          | refuse command => exact hd.elim
          | _ => rfl
        · exact List.filterMap_append.trans (List.append_nil _)
      · rw [hunadmitted hadmitted, if_pos hsum, List.append_nil]
    · refine iff_of_false ?_ fun h => hsum (h m s rfl)
      rw [hunadmitted fun h => hsum h.1, if_neg hsum, hw₁]
      simp

end Outcomes

section Integrity

variable (env : Env) (header : MessageHeader) (raw : List Byte) (w : Work)

/-- The run of `ParseMsgData` on a payload, for a header with this checksum and over this
memory. -/
def parsed (memory : Memory) (sum : U32) : Work :=
  (parseMsgData { env with memory } { header with checksum := sum } raw w).2

/-- A message is handled only under the checksum of the payload as it was received, and
under that checksum no payload that encodes a message is rejected for it. -/
structure Integrity : Prop where
  handles : ∀ memory sum, handled (parsed env header raw w memory sum).log ≠ handled w.log →
    sum = checksum env raw
  accepts : Encodes header.command w.node.protocolVersion raw → ∀ memory,
    refusals (parsed env header raw w memory (checksum env raw)).log = refusals w.log

/-- No message comes of the payload: the header is not valid, no class takes the command,
or its decoder refuses a length. -/
def Undecodable (memory : Memory) : Prop :=
  header.isValid 0 = false ∨
    Message.decoder header.command w.node.protocolVersion = none ∨
    Refusals.Refused header.command ⟨raw, memory, false⟩

variable {env header raw w} in
theorem undecodable_iff {memory : Memory} : Undecodable header raw w memory ↔
    ∀ m s, decoded { env with memory } header raw w.node ≠ some (.ok m s) := by
  constructor
  · rintro h m s hd
    obtain ⟨hvalid, decode, hdecoder, hrun⟩ := decoded_ok_iff.mp hd
    rcases h with h | h | h
    · rw [hvalid] at h
      cases h
    · rw [hdecoder] at h
      cases h
    · obtain ⟨failure, s', hraises⟩ := (Refusals.decoder_raises_iff hdecoder _).mpr h
      rw [hrun] at hraises
      cases hraises
  · intro h
    cases hvalid : header.isValid 0 with
    | false => exact Or.inl hvalid
    | true =>
      cases hdecoder : Message.decoder header.command w.node.protocolVersion with
      | none => exact Or.inr (Or.inl hdecoder)
      | some decode =>
        refine Or.inr (Or.inr ((Refusals.decoder_raises_iff hdecoder _).mp ?_))
        cases hrun : decode ⟨raw, memory, false⟩ with
        | ok m s => exact absurd (decoded_ok_iff.mpr ⟨hvalid, decode, hdecoder, hrun⟩) (h m s)
        | error failure s => exact ⟨failure, s, hrun⟩

/-- What comes of the payload is not valid, or is stopped by the gate. -/
def Barred (memory : Memory) : Prop :=
  ∀ m s, decoded { env with memory } header raw w.node = some (.ok m s) →
    ¬ (m.isValid = true ∧ checkMisbehaving m.command w.node = true)

/-- If no other payload has its checksum, a payload meets with integrity exactly when,
whatever memory holds, it is undecodable, or exact, or else encodes nothing and is barred. -/
theorem integrity_iff
    (hcollision : ∀ bytes, checksum env bytes = checksum env raw → bytes = raw) :
    Integrity env header raw w ↔ ∀ memory, Undecodable header raw w memory ∨
      Exact memory header raw w.node ∨
      (¬ Encodes header.command w.node.protocolVersion raw ∧ Barred env header raw w memory) := by
  constructor
  · rintro ⟨hhandles, haccepts⟩ memory
    by_cases hdead : Undecodable header raw w memory
    · exact Or.inl hdead
    right
    -- a payload that encodes a message is written back as it was, whatever memory holds
    have hback : Encodes header.command w.node.protocolVersion raw → ∀ memory m s,
        decoded { env with memory } header raw w.node = some (.ok m s) → m.serialize = raw := by
      intro hencodes memory m s hd
      exact hcollision _ (refusals_eq_iff.mp (haccepts hencodes memory) m s hd).symm
    have hexact : ∀ m s, decoded { env with memory } header raw w.node = some (.ok m s) →
        m.serialize = raw → Exact memory header raw w.node := by
      intro m s hd hm
      rcases exact_or_misread hd hm with h | ⟨memory', m', s', hd', hne⟩
      · exact h
      · obtain ⟨-, decode, hdecoder, hrun⟩ := decoded_ok_iff.mp hd
        exact absurd (hback (hm ▸ decoder_encodes hdecoder hrun) memory' m' s' hd') hne
    by_cases hencodes : Encodes header.command w.node.protocolVersion raw
    · left
      have hiff : Undecodable header raw w memory ↔
          ∀ m s, decoded { env with memory } header raw w.node ≠ some (.ok m s) := undecodable_iff
      rw [hiff] at hdead
      push Not at hdead
      rcases hdead with ⟨m, s, hd⟩
      exact hexact m s hd (hback hencodes memory m s hd)
    · by_cases hbarred : Barred env header raw w memory
      · exact Or.inr ⟨hencodes, hbarred⟩
      · left
        simp only [Barred, not_forall, not_not] at hbarred
        rcases hbarred with ⟨m, s, hd, hvalid, hgate⟩
        -- under the checksum of what it is written back as, the message is handled
        have hdelivers : Delivers { env with memory }
            { header with checksum := checksum env m.serialize } raw w m :=
          ⟨s, hd, rfl, hvalid, hgate⟩
        have hsum := hhandles memory (checksum env m.serialize) fun hsame => by
          have hpre := delivers_handled hdelivers
          have hlen := hpre.length_le
          rw [List.length_append] at hlen
          have heq := congrArg List.length hsame
          simp only [parsed] at heq
          simp only [List.length_singleton] at hlen
          omega
        exact hexact m s hd (hcollision _ hsum)
  · intro h
    constructor
    · intro memory sum hhandled
      obtain ⟨m, s, hd, hsum, hvalid, hgate⟩ : ∃ m, Delivers { env with memory }
          { header with checksum := sum } raw w m := by
        by_contra hnone
        exact hhandled (handled_of_not_delivers (not_exists.mp hnone))
      rcases h memory with hdead | hexact | ⟨-, hbarred⟩
      · exact absurd hd (undecodable_iff.mp hdead m s)
      · have hm : m.serialize = raw := serialize_of_exact hd hexact
        exact hm ▸ hsum
      · exact absurd ⟨hvalid, hgate⟩ (hbarred m s hd)
    · intro hencodes memory
      refine refusals_eq_iff.mpr fun m s hd => ?_
      rcases h memory with hdead | hexact | ⟨hnone, -⟩
      · exact absurd hd (undecodable_iff.mp hdead m s)
      · have hm : m.serialize = raw := serialize_of_exact hd hexact
        exact hm ▸ rfl
      · exact absurd hencodes hnone

end Integrity

section Examples

def emptyDigest : Hash256 :=
  hashOf 0xe3b0c44298fc1c149afbf4c8996fb92427ae41e4649b934ca495991b7852b855

def plainHeader (command : List Byte) (payloadLength : U32) : MessageHeader where
  magic := kTestnetMagic
  commandBytes := MessageHeader.paddedCommand command
  payloadLength

/-- A node that has accepted a version. -/
def greeted : Work :=
  { Work.inbound with node := { Work.inbound.node with protocolVersion := kProtocolVersion } }

/-- The payload of a pong. -/
def nonceBytes : List Byte := [1, 2, 3, 4, 5, 6, 7, 8]

def nonceDigest : Hash256 :=
  hashOf 0x66840dda154e8a113c31dd0ad32f7f3a366a80e8136979d8f5a101d3d29d6f72

theorem integrity_iff_pong :
    Integrity (.hashing [(nonceBytes, nonceDigest)]) (plainHeader kMsgPong 8) nonceBytes
      greeted := by
  apply (integrity_iff (.hashing [(nonceBytes, nonceDigest)]) (plainHeader kMsgPong 8) nonceBytes
    greeted ?_).mpr
  · exact fun memory => .inr (.inl ⟨_, _, _, rfl, rfl, rfl⟩)
  · intro bytes hsum
    by_contra hne
    have hzero : checksum (.hashing [(nonceBytes, nonceDigest)]) bytes = 0 := by
      have hnone : [(nonceBytes, nonceDigest)].lookup bytes = none := by simp [hne]
      rw [checksum, Env.hashing, Env.alone]
      simp only [hnone]
      rfl
    exact absurd (hzero.symm.trans hsum) (by decide)

/-- A verack with a payload of one byte, and a reject for a message named by a zero byte. -/
def digests : List (List Byte × Hash256) :=
  [([], emptyDigest),
    ([0xaa], hashOf 0xbceef655b5a034911f1c3718ce056531b45ef03b4c7b1f15629e867294011a7d),
    ([0x01, 0x00, 0x01, 0x00],
      hashOf 0x507503b51960cceda8d924904fb85377fe7d177fb8dfcf56b24e4557644ed486),
    ([0x00, 0x01, 0x00],
      hashOf 0xfaee935763044f124d7526755a5058a33f9402a595994d59eddd4be8546ff201)]

/-- The one is handled under the checksum of no bytes at all, the other is rejected under
its own. -/
theorem wrong_checksum_handled :
    (handled (parsed (.hashing digests) (plainHeader kMsgVerack 1) [0xaa] greeted
        ⟨fun _ => 0, fun _ => 0⟩ 0x42c4b0e3).log = [kMsgVerack] ∧
      (0x42c4b0e3 : U32) ≠ checksum (.hashing digests) [0xaa]) ∧
    Encodes kMsgReject kProtocolVersion [0x01, 0x00, 0x01, 0x00] ∧
      refusals (parsed (.hashing digests) (plainHeader kMsgReject 4) [0x01, 0x00, 0x01, 0x00]
        greeted ⟨fun _ => 0, fun _ => 0⟩
        (checksum (.hashing digests) [0x01, 0x00, 0x01, 0x00])).log = [kMsgReject] := by
  refine ⟨by decide +kernel, ?_, by decide +kernel⟩
  exact ⟨.reject { message := [0x00], ccode := 0x01 }, rfl, by simp, rfl⟩

end Examples

end Checksum
