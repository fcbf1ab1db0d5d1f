import Btclite.Network.Dialogues
import Btclite.Network.Reports
import Btclite.Network.RoundTrip
import Btclite.Network.Sizes

/-!
# Two nodes of this program

A node that connects and a node that accepts, joined by a connection that
delivers what either of them writes, in order and in chunks of any size. The
version of the connecting node offers no services, so the accepting node refuses
it and says nothing, and neither of them ever hears anything it accepts.
-/

namespace Links

open Endian Serialize Agreement Messages Nodes Handlers Sessions MsgProcess Lifecycle Effects
open Reports Assertions Handshake Dialogues

section Hushing

/-- Nothing is told or accepted with this event. -/
def calm : Event → Bool
  | .sent _ _ | .received _ _ | .versionAccepted _ | .stateSet .kEstablished => false
  | _ => true

/-- What becomes of a node that neither says nor hears anything. -/
structure Hushed (w w' : Work) : Prop where
  adds : Adds (fun e => calm e = true) w w'
  protocolVersion : w'.node.protocolVersion = w.node.protocolVersion
  speaking : Speaking w'.node → Speaking w.node
  disconnected : w.node.isDisconnected = true → w'.node.isDisconnected = true

instance : Std.Refl Hushed := ⟨fun w => ⟨refl_of _ w, rfl, fun h => h, fun h => h⟩⟩

instance : IsTrans Work Hushed where
  trans _ _ _ h h' := ⟨trans_of _ h.adds h'.adds, h'.protocolVersion.trans h.protocolVersion,
    fun hs => h.speaking (h'.speaking hs), fun hd => h'.disconnected (h.disconnected hd)⟩

theorem getNode_hushed : Does Hushed getNode := fun w => refl_of Hushed w

theorem setNode_hushed {f : Node → Node}
    (hversion : ∀ n, (f n).protocolVersion = n.protocolVersion)
    (hspeaking : ∀ n, Speaking (f n) → Speaking n)
    (hdisconnected : ∀ n : Node, n.isDisconnected = true → (f n).isDisconnected = true) :
    Does Hushed (setNode f) :=
  fun w => ⟨Adds.of_log_eq rfl, hversion w.node, hspeaking w.node, hdisconnected w.node⟩

theorem emit_hushed {e : Event} (h : calm e = true) : Does Hushed (emit e) :=
  fun w => ⟨emit_adds h w, rfl, fun h => h, fun h => h⟩

theorem ifThen_hushed {c : Prop} [Decidable c] {m : Handler Unit} (hm : Does Hushed m) :
    Does Hushed (ifThen c m) :=
  Does.ite (fun _ => hm) fun _ => Does.pure ()

theorem disconnectNodeCb_hushed (env : Env) : Does Hushed (disconnectNodeCb env) := by
  refine Does.bind (setNode_hushed (fun _ => rfl) ?_ fun _ h => h) fun _ => ?_
  · rintro n (h | h | h)
    · exact Or.inl h
    · cases h
    · cases h
  · refine Does.bind getNode_hushed fun node => ?_
    exact Does.bind (ifThen_hushed (emit_hushed rfl)) fun _ => emit_hushed rfl

theorem disconnect_hushed (env : Env) : Does Hushed (disconnect env) := by
  refine Does.bind (setNode_hushed (fun _ => rfl) ?_ fun _ _ => rfl) fun _ => ?_
  · rintro n (h | h)
    · cases h
    · exact Or.inr h
  · refine Does.bind (emit_hushed rfl) fun _ => ?_
    exact Does.bind getNode_hushed fun node => ifThen_hushed (disconnectNodeCb_hushed env)

theorem disconnect_isDisconnected (env : Env) (w : Work) :
    (disconnect env w).2.node.isDisconnected = true := by
  rw [isDisconnected_iff, disconnect_session]
  rfl

theorem checkBanned_hushed (env : Env) : Does Hushed (checkBanned env) := by
  refine Does.bind getNode_hushed fun node => Does.ite (fun _ => Does.pure _) fun _ => ?_
  refine Does.bind (setNode_hushed (fun _ => rfl) (fun _ h => h) fun _ h => h) fun _ => ?_
  refine Does.ite (fun _ => Does.pure _) fun _ => Does.bind (disconnect_hushed env) fun _ => ?_
  exact Does.bind (ifThen_hushed (emit_hushed rfl)) fun _ => Does.pure _

/-- A message that is not valid is refused. -/
theorem handleMsgData_hushed (env : Env) (header : MessageHeader) {m : Message}
    (hm : m.isValid = false) : Does Hushed (handleMsgData env header m) := by
  refine Does.ite (fun _ => ?_) fun _ => Does.ite (fun _ => Does.pure _) fun hvalid => ?_
  · exact Does.bind (emit_hushed rfl) fun _ => Does.pure _
  · simp [hm] at hvalid

theorem parseMsgData_hushed {env : Env} {header : MessageHeader} {raw : List Byte} {w : Work}
    (hinvalid : ∀ m s, decoded env header raw w.node = some (.ok m s) → m.isValid = false) :
    Hushed w (parseMsgData env header raw w).2 := by
  have hinterrupted : ∀ c : Bool, Does Hushed (ifThen c (emit .interrupted)) := fun c =>
    ifThen_hushed (emit_hushed rfl)
  have hdispatched : Does Hushed (emit (.dispatched header raw)) := emit_hushed rfl
  rcases hd : decoded env header raw w.node with _ | ⟨m, s⟩ | ⟨failure, s⟩
  · rw [parseMsgData_of_none hd]
    exact hdispatched w
  · rw [parseMsgData_of_ok hd]
    have hstart := trans_of Hushed (hdispatched w) (hinterrupted s.interrupted _)
    exact trans_of Hushed hstart (handleMsgData_hushed env header (hinvalid m s hd) _)
  · rw [parseMsgData_of_error hd]
    exact trans_of Hushed (hdispatched w) (hinterrupted s.interrupted _)

/-- While a node has handled no verack, the callbacks that send are not due. -/
theorem callback_hushed {env : Env} {cb : Callback} {s : State}
    (hhonest : Honest s (.callback env cb)) (hspeaking : ¬ Speaking s.peer.work.node) :
    Hushed s.peer.work (cb.run env s.peer.work).2 := by
  have hif : ∀ c : Node → Bool, Does Hushed
      (do let node ← getNode; ifThen (c node) (disconnect env) : Handler Unit) := fun c =>
    Does.bind getNode_hushed fun node => ifThen_hushed (disconnect_hushed env)
  cases cb with
  | inactivityTimeout => exact hif _ _
  | socketNoMsgTimeout => exact hif _ _
  | shakeHandsTimeout => exact hif _ _
  | pingTimeout => exact absurd (Or.inr (Or.inl hhonest)) hspeaking
  | checkBanned => exact checkBanned_hushed env _
  | connEvent => exact hif _ _
  | send m => exact absurd (Or.inr (Or.inr hhonest.1)) hspeaking

theorem connReadCb_hushed : Does Hushed connReadCb :=
  setNode_hushed (fun _ => rfl) (fun _ h => h) fun _ h => h

end Hushing

section Greetings

/-- A version message as a node of this program writes it: it offers no services. -/
structure Greeting (header : MessageHeader) (v : Version) : Prop where
  command : header.command = kMsgVersion
  length : v.serialize.length = header.payloadLength.toNat
  protocolVersion : v.protocolVersion = kProtocolVersion
  services : v.services = 0

/-- The services are read where they are written, whatever the user agent is. -/
theorem deserialize_services {v v' : Version} {memory : Memory} {interrupted : Bool} {s' : Source}
    (h : Version.deserialize {} ⟨v.serialize, memory, interrupted⟩ = .ok v' s') :
    v'.services = v.services := by
  obtain ⟨v₁, s₁, hhead, h⟩ := bind_ok_iff.mp h
  obtain ⟨agent, s₂, -, htail⟩ := bind_ok_iff.mp h
  have hcursor := RoundTrip.versionHead_append {} v
    (serializeString (cutTo kMaxSubVersionSize v.userAgent) ++ v.serializeTail) memory.stale
  obtain ⟨t, ht, -, -⟩ := (WireFormats.versionHead_agrees {}).reads
    (s := ⟨v.serialize, memory, interrupted⟩) (by
      rw [Version.serialize, List.append_assoc]
      exact hcursor)
  rw [hhead] at ht
  cases ht
  obtain ⟨startHeight, relay, rfl⟩ := RoundTrip.deserializeTail_frame htail
  rfl

/-- What the version is decoded to is not valid. -/
theorem Greeting.invalid {header : MessageHeader} {v : Version} (h : Greeting header v) (env : Env)
    (node : Node) (m : Message) (s : Source)
    (hd : decoded env header v.serialize node = some (.ok m s)) : m.isValid = false := by
  rw [decoded, h.command] at hd
  split_ifs at hd
  rw [Message.decoder, if_pos rfl, Option.map_some, Option.some.injEq] at hd
  rw [map_eq_pure_bind] at hd
  obtain ⟨v', s', hrun, hpure⟩ := bind_ok_iff.mp hd
  obtain ⟨rfl, -⟩ := pure_ok_iff.mp hpure
  have hzero := (deserialize_services hrun).trans h.services
  simp [Message.isValid, Version.isValid, hzero]

end Greetings

section Listening

/-- A node steps by itself: its calls of `ParseMsg` come one after another, and the magic it looks
for is not the protocol version it tells. -/
structure Local (s : State) (a : Act) : Prop where
  honest : Honest s a
  byItself : ∀ bytes, a ≠ .arrive bytes
  alone : a = .enter → s.readers = 0
  magic : ∀ env, a = .pass env → env.msgMagic ≠ kProtocolVersion

/-- How much of the one message `ParseMsg` has taken off a stream that ends with it. -/
inductive Phase (header : MessageHeader) (v : Version) (s : State) (unread : List Byte) : Prop
  | whole (h : s.peer.input ++ unread = header.serialize ++ v.serialize)
  | headless (h : s.peer.input ++ unread = v.serialize)
  | empty (h : s.peer.input ++ unread = [])
  | closed (hreaders : s.readers = 0) (hdown : s.peer.work.node.isDisconnected = true)

structure Listens (header : MessageHeader) (v : Version) (s : State) (unread : List Byte) :
    Prop where
  protocolVersion : s.peer.work.node.protocolVersion = kUnknownProtoVersion
  silent : ¬ Speaking s.peer.work.node
  alone : s.readers ≤ 1
  phase : Phase header v s unread

variable {header : MessageHeader} {v : Version} {s s' : State} {unread : List Byte}

theorem Listens.hushed (h : Listens header v s unread) {w : Work} {input unread' : List Byte}
    {readers : Nat} (hwork : Hushed s.peer.work w) (halone : readers ≤ 1)
    (hphase : Phase header v ⟨⟨w, input⟩, readers⟩ unread') :
    Listens header v ⟨⟨w, input⟩, readers⟩ unread' :=
  ⟨hwork.protocolVersion.trans h.protocolVersion, fun hs => h.silent (hwork.speaking hs), halone,
    hphase⟩

theorem Listens.arrive (bytes rest : List Byte) (h : Listens header v s (bytes ++ rest))
    (hnext : Next s (.arrive bytes) s') :
    Hushed s.peer.work s'.peer.work ∧ Listens header v s' rest := by
  cases hnext
  have hwork := connReadCb_hushed s.peer.work
  refine ⟨hwork, h.hushed hwork h.alone ?_⟩
  cases h.phase with
  | whole h => exact .whole (by simpa using h)
  | headless h => exact .headless (by simpa using h)
  | empty h => exact .empty (by simpa using h)
  | closed hreaders hdown => exact .closed hreaders (hwork.disconnected hdown)

theorem parseMsgPass_reject {env : Env} {raw : List Byte} {p : Peer}
    (h : (headerOfRaw env.memory raw).magic ≠ env.msgMagic) :
    parseMsgPass env raw p =
      (.returned, ⟨(disconnect env p.work).2, p.input.drop MessageHeader.kSize⟩) := by
  rw [parseMsgPass]
  simp only [h, ne_eq, not_false_eq_true, if_true]
  split_ifs <;> rfl

/-- Where a header is looked for in the payload, the protocol version stands for the magic. -/
theorem magic_of_payload (hg : Greeting header v) (memory : Memory) {input raw : List Byte}
    (hinput : input ++ unread = v.serialize)
    (hraw : evbufferPullup input MessageHeader.kSize = some raw) :
    (headerOfRaw memory raw).magic = kProtocolVersion := by
  obtain ⟨hlen, rfl⟩ := evbufferPullup_eq_some.mp hraw
  have hsize : (input.take MessageHeader.kSize).length = 24 := List.length_take_of_le hlen
  obtain ⟨h, hh⟩ := exists_serialize ⟨input.take MessageHeader.kSize, hsize⟩
  simp only at hh
  rw [← hh, headerOfRaw_serialize]
  have hword : ∀ w : U32, (serWriteData w).length = 4 := fun w => by simp [serWriteData]
  have hpayload : serWriteData h.magic <+: v.serialize := by
    rw [← hinput]
    refine List.IsPrefix.trans ?_ ((List.take_prefix MessageHeader.kSize input).trans
      (List.prefix_append _ _))
    rw [← hh]
    simp only [MessageHeader.serialize, List.append_assoc]
    exact List.prefix_append _ _
  have hversion : serWriteData kProtocolVersion <+: v.serialize := by
    rw [Version.serialize, Version.serializeHead, hg.protocolVersion]
    simp only [List.append_assoc]
    exact List.prefix_append _ _
  have hsame : serWriteData h.magic = serWriteData kProtocolVersion :=
    (List.prefix_of_prefix_length_le hpayload hversion (by rw [hword, hword])).eq_of_length
      (by rw [hword, hword])
  exact toLittleEndian_injective rfl hsame

/-- What a pass does to the calls that are in their loop. -/
theorem pass_cases {env : Env} (h : Next s (.pass env) s') :
    s.readers ≠ 0 ∧
    ((evbufferPullup s.peer.input MessageHeader.kSize = none ∧
        s' = ⟨s.peer, s.readers - 1⟩) ∨
      ∃ raw outcome p, evbufferPullup s.peer.input MessageHeader.kSize = some raw ∧
        parseMsgPass env raw s.peer = (outcome, p) ∧
        s' = ⟨p, match outcome with | .parsed _ => s.readers | _ => s.readers - 1⟩) := by
  simp only [Next, step] at h
  split_ifs at h with hreaders
  refine ⟨hreaders, ?_⟩
  cases hpull : evbufferPullup s.peer.input MessageHeader.kSize with
  | none =>
    rw [hpull] at h
    cases h
    exact Or.inl ⟨rfl, rfl⟩
  | some raw =>
    rw [hpull] at h
    refine Or.inr ⟨raw, ?_⟩
    rcases hrun : parseMsgPass env raw s.peer with ⟨ret | _ | failure, p⟩ <;>
      simp only [hrun] at h <;> cases h <;> exact ⟨_, _, rfl, rfl, rfl⟩

/-- A call that disconnects the node leaves the loop. -/
theorem Listens.disconnect (h : Listens header v s unread) (env : Env) (input : List Byte) :
    Hushed s.peer.work (disconnect env s.peer.work).2 ∧
      Listens header v ⟨⟨(disconnect env s.peer.work).2, input⟩, s.readers - 1⟩ unread := by
  have hone := h.alone
  have hwork := disconnect_hushed env s.peer.work
  refine ⟨hwork, h.hushed hwork (by omega) (.closed (Nat.sub_eq_zero_of_le hone) ?_)⟩
  exact disconnect_isDisconnected env s.peer.work

/-- A pass over the message from its start. -/
theorem Listens.pass_whole (hg : Greeting header v) {env : Env} (h : Listens header v s unread)
    (hstream : s.peer.input ++ unread = header.serialize ++ v.serialize)
    (hnext : Next s (.pass env) s') :
    Hushed s.peer.work s'.peer.work ∧ Listens header v s' unread := by
  have hone := h.alone
  obtain ⟨hreaders, ⟨-, rfl⟩ | ⟨raw, outcome, p, hraw, hrun, rfl⟩⟩ := pass_cases hnext
  · have hwork : Hushed s.peer.work s.peer.work := refl_of Hushed _
    exact ⟨hwork, h.hushed hwork (by omega) (.whole hstream)⟩
  obtain ⟨hlen, rfl⟩ := evbufferPullup_eq_some.mp hraw
  have hprefix : header.serialize <+: s.peer.input :=
    List.prefix_of_prefix_length_le (List.prefix_append _ _)
      (hstream ▸ List.prefix_append s.peer.input unread) (by rwa [header_length])
  obtain ⟨got, hgot⟩ := hprefix
  have htake : s.peer.input.take MessageHeader.kSize = header.serialize := by
    rw [← hgot, ← header_length header, List.take_left]
  have hdrop : s.peer.input.drop MessageHeader.kSize = got := by
    rw [← hgot, ← header_length header, List.drop_left]
  have hrest : got ++ unread = v.serialize := by
    rw [← hgot, List.append_assoc] at hstream
    exact List.append_cancel_left hstream
  rw [htake] at hrun
  rcases parseMsgPass_cases env header.serialize s.peer with hpass | hpass |
    ⟨payload, rest, hfront, hpass⟩
  · -- the payload has not arrived
    rw [hpass] at hrun
    cases hrun
    have hwork : Hushed s.peer.work s.peer.work := refl_of Hushed _
    refine ⟨hwork, h.hushed hwork ((Nat.sub_le _ _).trans hone) (.headless ?_)⟩
    rw [hdrop]
    exact hrest
  · rw [hpass] at hrun
    cases hrun
    exact h.disconnect env _
  · -- all of it has: it is the version
    have hlength := hfront.length
    have hinput := hfront.input
    rw [headerOfRaw_serialize, ← hg.length] at hlength
    rw [hdrop] at hinput
    have hsplit : payload ++ (rest ++ unread) = v.serialize ++ [] := by
      rw [← List.append_assoc, ← hinput, List.append_nil]
      exact hrest
    obtain ⟨rfl, hnone⟩ := List.append_inj hsplit hlength
    rw [headerOfRaw_serialize] at hpass
    have hdata := parseMsgData_hushed (w := s.peer.work) (hg.invalid env s.peer.work.node)
    rw [hpass] at hrun
    rcases hresult : parseMsgData env header v.serialize s.peer.work with ⟨_ | _, w⟩ <;>
      rw [hresult] at hrun hdata <;> cases hrun
    · refine ⟨hdata, h.hushed hdata ((Nat.sub_le _ _).trans hone) (.headless ?_)⟩
      rw [List.append_assoc, hnone, List.append_nil]
    · exact ⟨hdata, h.hushed hdata hone (.empty hnone)⟩

theorem Listens.pass (hg : Greeting header v) {env : Env} (h : Listens header v s unread)
    (hmagic : env.msgMagic ≠ kProtocolVersion) (hnext : Next s (.pass env) s') :
    Hushed s.peer.work s'.peer.work ∧ Listens header v s' unread := by
  have hone := h.alone
  have hsame : Hushed s.peer.work s.peer.work := refl_of Hushed _
  cases h.phase with
  | whole hstream => exact h.pass_whole hg hstream hnext
  | headless hstream =>
    obtain ⟨hreaders, ⟨-, rfl⟩ | ⟨raw, outcome, p, hraw, hrun, rfl⟩⟩ := pass_cases hnext
    · exact ⟨hsame, h.hushed hsame (by omega) (.headless hstream)⟩
    · have hreject : (headerOfRaw env.memory raw).magic ≠ env.msgMagic := by
        rw [magic_of_payload hg env.memory hstream hraw]
        exact hmagic.symm
      rw [parseMsgPass_reject hreject] at hrun
      cases hrun
      exact h.disconnect env _
  | empty hstream =>
    have hshort : s.peer.input = [] := (List.append_eq_nil_iff.mp hstream).1
    obtain ⟨hreaders, ⟨-, rfl⟩ | ⟨raw, outcome, p, hraw, -⟩⟩ := pass_cases hnext
    · exact ⟨hsame, h.hushed hsame (by omega) (.empty hstream)⟩
    · rw [hshort] at hraw
      cases hraw
  | closed hreaders hdown => exact absurd hreaders (pass_cases hnext).1

/-- Whatever such a node does by itself, it says and accepts nothing. -/
theorem Listens.local (hg : Greeting header v) {a : Act} (h : Listens header v s unread)
    (ha : Local s a) (hnext : Next s a s') :
    Hushed s.peer.work s'.peer.work ∧ Listens header v s' unread := by
  cases a with
  | arrive bytes => exact absurd rfl (ha.byItself bytes)
  | enter =>
    simp only [Next, step, Option.ite_none_right_eq_some, Option.some.injEq] at hnext
    obtain ⟨⟨-, hup, -⟩, rfl⟩ := hnext
    have hsame : Hushed s.peer.work s.peer.work := refl_of Hushed _
    refine ⟨hsame, h.hushed hsame (by rw [ha.alone rfl]) ?_⟩
    cases h.phase with
    | whole h => exact .whole h
    | headless h => exact .headless h
    | empty h => exact .empty h
    | closed hreaders hdown => exact absurd hdown hup
  | pass env => exact h.pass hg (ha.magic env rfl) hnext
  | callback env cb =>
    cases hnext
    have hwork := callback_hushed ha.honest h.silent
    refine ⟨hwork, h.hushed hwork h.alone ?_⟩
    cases h.phase with
    | whole h => exact .whole h
    | headless h => exact .headless h
    | empty h => exact .empty h
    | closed hreaders hdown => exact .closed hreaders (hwork.disconnected hdown)

end Listening

section Pairs

/-- Two nodes and a connection between them. What is on the way is what the log of one tells was
written, less as many bytes as have arrived at the other. -/
structure Link where
  client : State
  server : State
  toServer : Nat := 0
  toClient : Nat := 0

def writtenBy : Event → List Byte
  | .sent header m => header.serialize ++ m.serialize
  | _ => []

def written (s : State) : List Byte := s.peer.work.log.flatMap writtenBy

inductive Step : Link → Link → Prop
  | client {l s' a} (ha : Local l.client a) (h : Next l.client a s') :
    Step l { l with client := s' }
  | server {l s' a} (ha : Local l.server a) (h : Next l.server a s') :
    Step l { l with server := s' }
  | toServer {l s' bytes} (hbytes : bytes <+: (written l.client).drop l.toServer)
      (h : Next l.server (.arrive bytes) s') :
    Step l { l with server := s', toServer := l.toServer + bytes.length }
  | toClient {l s' bytes} (hbytes : bytes <+: (written l.server).drop l.toClient)
      (h : Next l.client (.arrive bytes) s') :
    Step l { l with client := s', toClient := l.toClient + bytes.length }

/-- A node that has connected, with its version on the way, and the one that accepted it. -/
def joined (env : Env) (c n : Node) : Link where
  client := ⟨⟨opened env c, []⟩, 0⟩
  server := ⟨⟨opened env n, []⟩, 0⟩

theorem written_of_adds {s s' : State}
    (h : Adds (fun e => calm e = true) s.peer.work s'.peer.work) : written s' = written s := by
  obtain ⟨events, hlog, hall⟩ := h
  have hnone : events.flatMap writtenBy = [] := by
    rw [List.flatMap_eq_nil_iff]
    intro e he
    cases e with
    | sent header m =>
      have hcalm : calm (.sent header m) = true := hall _ he
      exact absurd hcalm Bool.false_ne_true
    | _ => rfl
  rw [written, written, hlog, List.flatMap_append, hnone, List.append_nil]

/-- Both listen, and since they were joined nothing was said. -/
structure Silent (header : MessageHeader) (v : Version) (l₀ l : Link) : Prop where
  client : Listens header v l.client ((written l.server).drop l.toClient)
  server : Listens header v l.server ((written l.client).drop l.toServer)
  clientLog : Adds (fun e => calm e = true) l₀.client.peer.work l.client.peer.work
  serverLog : Adds (fun e => calm e = true) l₀.server.peer.work l.server.peer.work

theorem Silent.step {header : MessageHeader} {v : Version} {l₀ l l' : Link}
    (hg : Greeting header v) (h : Silent header v l₀ l) (hstep : Step l l') :
    Silent header v l₀ l' := by
  obtain ⟨hclient, hserver, hclientLog, hserverLog⟩ := h
  cases hstep with
  | client ha hnext =>
    obtain ⟨hwork, hlistens⟩ := hclient.local hg ha hnext
    refine ⟨hlistens, ?_, trans_of _ hclientLog hwork.adds, hserverLog⟩
    rw [written_of_adds hwork.adds]
    exact hserver
  | server ha hnext =>
    obtain ⟨hwork, hlistens⟩ := hserver.local hg ha hnext
    refine ⟨?_, hlistens, hclientLog, trans_of _ hserverLog hwork.adds⟩
    rw [written_of_adds hwork.adds]
    exact hclient
  | @toServer s' bytes hbytes hnext =>
    obtain ⟨rest, hrest⟩ := hbytes
    rw [← hrest] at hserver
    obtain ⟨hwork, hlistens⟩ := hserver.arrive bytes rest hnext
    refine ⟨?_, ?_, hclientLog, trans_of _ hserverLog hwork.adds⟩
    · rw [written_of_adds hwork.adds]
      exact hclient
    · simp only
      rw [← List.drop_drop, ← hrest, List.drop_left]
      exact hlistens
  | @toClient s' bytes hbytes hnext =>
    obtain ⟨rest, hrest⟩ := hbytes
    rw [← hrest] at hclient
    obtain ⟨hwork, hlistens⟩ := hclient.arrive bytes rest hnext
    refine ⟨?_, ?_, trans_of _ hclientLog hwork.adds, hserverLog⟩
    · simp only
      rw [← List.drop_drop, ← hrest, List.drop_left]
      exact hlistens
    · rw [written_of_adds hwork.adds]
      exact hserver

/-- A node that has said nothing, with this log. -/
structure Quiet (log : List Event) (w : Work) : Prop where
  protocolVersion : w.node.protocolVersion = kUnknownProtoVersion
  silent : ¬ Speaking w.node
  log : w.log = log

/-- `SendMsg` notes what it has written, which is as long as its header tells. -/
theorem sendMsg_quiet (env : Env) (m : Message) :
    Meets (Quiet []) (sendMsg env m) fun _ w => Quiet [] w ∨
      Quiet [.sent (headerOf env m) m] w ∧ m.serialize.length = m.serializedSize := by
  have hnode : ∀ {log : List Event} (f : Node → Node),
      (∀ n, (f n).protocolVersion = n.protocolVersion) → (∀ n, Speaking (f n) → Speaking n) →
      Meets (Quiet log) (setNode f) fun _ => Quiet log := fun f hversion hspeaking w hw =>
    ⟨(hversion _).trans hw.protocolVersion, fun h => hw.silent (hspeaking _ h), hw.log⟩
  refine Meets.bind (Q := fun _ => Quiet []) (fun w hw => hw) fun node => ?_
  refine Meets.ite (fun _ => Meets.pure fun _ => Or.inl) fun _ => ?_
  refine Meets.bind (hnode _ (fun _ => rfl) fun _ h => h) fun _ => ?_
  refine Meets.ite (fun _ => Meets.pure fun _ => Or.inl) fun hsize => ?_
  refine Meets.ite (fun _ => Meets.pure fun _ => Or.inl) fun _ => ?_
  have hlength : m.serialize.length = m.serializedSize :=
    (Sizes.framed_length_iff _ _ _).mp (not_not.mp hsize)
  refine Meets.bind (Q := fun _ => Quiet [.sent (headerOf env m) m]) (fun w hw => ?_) fun _ => ?_
  · exact ⟨hw.protocolVersion, hw.silent, by simp [emit, hw.log]⟩
  · exact Meets.bind (hnode _ (fun _ => rfl) fun _ h => h) fun _ =>
      Meets.pure fun _ hw => Or.inr ⟨hw, hlength⟩

/-- The version `SendVersion` sends to a node that has told no services. -/
def versionFor (env : Env) (n : Node) : Version where
  protocolVersion := kProtocolVersion
  timestamp := env.timeSeconds
  addrRecv := n.connection.addr
  nonce := n.localHostNonce
  userAgent := env.userAgent
  startHeight := env.activeChainHeight
  relay := true

theorem headerOf_greeting (env : Env) {v : Version}
    (hversion : v.protocolVersion = kProtocolVersion) (hservices : v.services = 0)
    (hlength : v.serialize.length = v.serializedSize) :
    Greeting (headerOf env (.version v)) v := by
  refine ⟨?_, ?_, hversion, hservices⟩
  · change (MessageHeader.paddedCommand kMsgVersion).data.takeWhile _ = _
    decide
  · have hbound : v.serializedSize < 2 ^ 32 := by
      have hcap : v.userAgent.length ≤ 256 := (Sizes.version_length_iff v).mp hlength
      have hfield : varIntSize v.userAgent.length ≤ 9 := by
        simp only [varIntSize]
        split_ifs <;> omega
      have haddr : ∀ a : Address.NetAddr, a.serializedSize = 30 := fun _ => rfl
      rw [Version.serializedSize, haddr, haddr]
      split_ifs <;> omega
    change v.serialize.length = (BitVec.ofNat 32 v.serializedSize).toNat
    rw [BitVec.toNat_ofNat, Nat.mod_eq_of_lt hbound, hlength]

theorem exists_greeting : ∃ header v, Greeting header v :=
  ⟨_, { protocolVersion := kProtocolVersion },
    headerOf_greeting (.alone fun _ => default) rfl rfl (by decide)⟩

/-- What an outbound node has said when it is left alone: its version, or nothing. -/
theorem opened_quiet (env : Env) {c : Node} (hnew : New c) (houtbound : c.isInbound = false) :
    Quiet [] (opened env c) ∨ ∃ header v, Greeting header v ∧
      Quiet [.sent header (.version v)] (opened env c) := by
  have hstart : Quiet [] ⟨c, []⟩ := ⟨hnew.protocolVersion, hnew.silent, rfl⟩
  have hversion : opened env c = (sendMsg env (.version (versionFor env c)) ⟨c, []⟩).2 := by
    rw [opened, if_neg (by simp [houtbound])]
    change (sendMsg env (.version { versionFor env c with
      services := c.services
      addrFrom := { services := c.services } }) ⟨c, []⟩).2 = _
    rw [hnew.services]
    rfl
  rw [hversion]
  rcases sendMsg_quiet env (.version (versionFor env c)) _ hstart with hquiet | ⟨hsent, hlength⟩
  · exact Or.inl hquiet
  · exact Or.inr ⟨_, _, headerOf_greeting env rfl rfl hlength, hsent⟩

theorem Listens.of_quiet {header : MessageHeader} {v : Version} {log : List Event} {w : Work}
    {unread : List Byte} (h : Quiet log w)
    (hunread : unread = [] ∨ unread = header.serialize ++ v.serialize) :
    Listens header v ⟨⟨w, []⟩, 0⟩ unread := by
  refine ⟨h.protocolVersion, h.silent, Nat.zero_le 1, ?_⟩
  rcases hunread with rfl | rfl
  · exact .empty rfl
  · exact .whole rfl

theorem joined_silent (env : Env) {c n : Node} (hc : New c) (houtbound : c.isInbound = false)
    (hn : New n) (hinbound : n.isInbound = true) :
    ∃ header v, Greeting header v ∧ Silent header v (joined env c n) (joined env c n) := by
  have hserver : Quiet [] (opened env n) := by
    rw [opened, if_pos hinbound]
    exact ⟨hn.protocolVersion, hn.silent, rfl⟩
  have hunread : (written (joined env c n).server).drop (joined env c n).toClient = [] := by
    simp [joined, written, hserver.log]
  rcases opened_quiet env hc houtbound with hclient | ⟨header, v, hg, hclient⟩
  · obtain ⟨header, v, hg⟩ := exists_greeting
    refine ⟨header, v, hg, .of_quiet hclient (Or.inl hunread), .of_quiet hserver (Or.inl ?_),
      refl_of _ _, refl_of _ _⟩
    simp [joined, written, hclient.log]
  · refine ⟨header, v, hg, .of_quiet hclient (Or.inl hunread), .of_quiet hserver (Or.inr ?_),
      refl_of _ _, refl_of _ _⟩
    simp [joined, written, hclient.log, writtenBy, Message.serialize]

/-- However the bytes are cut and in whatever order the two nodes and the connection take their
steps, nothing is said after the first version, no message is handled, no version accepted, and
neither connection is established. -/
theorem never_shake_hands {env : Env} {c n : Node} (hc : New c) (houtbound : c.isInbound = false)
    (hn : New n) (hinbound : n.isInbound = true) {l : Link}
    (hrun : Relation.ReflTransGen Step (joined env c n) l) :
    (∃ events, l.client.peer.work.log = (opened env c).log ++ events ∧
      ∀ e ∈ events, calm e = true) ∧
    (∀ e ∈ l.server.peer.work.log, calm e = true) ∧
    (∀ s, s = l.client ∨ s = l.server →
      s.peer.work.node.protocolVersion = kUnknownProtoVersion ∧
      s.peer.work.node.connection.isHandshakeCompleted = false) := by
  obtain ⟨header, v, hg, hstart⟩ := joined_silent env hc houtbound hn hinbound
  have hsilent : Silent header v (joined env c n) l := by
    induction hrun with
    | refl => exact hstart
    | tail _ hstep ih => exact ih.step hg hstep
  have hserver : (joined env c n).server.peer.work.log = [] := by
    simp [joined, opened, hinbound]
  refine ⟨hsilent.clientLog, ?_, ?_⟩
  · obtain ⟨events, hlog, hall⟩ := hsilent.serverLog
    rw [hserver, List.nil_append] at hlog
    rw [hlog]
    exact hall
  · have hlistens : ∀ {s : State} {unread : List Byte}, Listens header v s unread →
        s.peer.work.node.protocolVersion = kUnknownProtoVersion ∧
          s.peer.work.node.connection.isHandshakeCompleted = false := fun h =>
      ⟨h.protocolVersion, Bool.eq_false_iff.mpr fun hdone => h.silent (Or.inl hdone)⟩
    rintro s (rfl | rfl)
    · exact hlistens hsilent.client
    · exact hlistens hsilent.server

/-- A node that has just been accepted, with these bytes in its buffer and a call of `ParseMsg`
in its loop. -/
def delivered (bytes : List Byte) : State := ⟨⟨(connReadCb Work.inbound).2, bytes⟩, 1⟩

/-- All that was written arrives at once and is parsed. -/
theorem delivered_run {l : Link} {s : State} {env : Env}
    (hserver : l.server = ⟨⟨Work.inbound, []⟩, 0⟩) (hstart : l.toServer = 0)
    (hlength : MessageHeader.kSize ≤ (written l.client).length)
    (hmagic : env.msgMagic ≠ kProtocolVersion)
    (hpass : Next (delivered (written l.client)) (.pass env) s) :
    Relation.ReflTransGen Step l
      { l with
        server := s
        toServer := l.toServer + (written l.client).length } := by
  have hundelivered : (written l.client).drop l.toServer = written l.client := by
    rw [hstart, List.drop_zero]
  have hprefix : written l.client <+: (written l.client).drop l.toServer :=
    hundelivered.symm ▸ List.prefix_rfl
  have harrive : Next l.server (.arrive (written l.client))
      ⟨(delivered (written l.client)).peer, 0⟩ := by
    rw [hserver]
    rfl
  have hup : (delivered (written l.client)).peer.work.node.isDisconnected = false := rfl
  have henter : Next ⟨(delivered (written l.client)).peer, 0⟩ .enter
      (delivered (written l.client)) := by
    rw [Next, step, if_pos ⟨rfl, by simp [hup], hlength⟩]
    rfl
  have hlocalEnter : ∀ p : Peer, Local ⟨p, 0⟩ .enter := fun p =>
    ⟨trivial, by simp, fun _ => rfl, by simp⟩
  have hlocalPass : ∀ s : State, Local s (.pass env) := by
    refine fun s => ⟨trivial, by simp, by simp, ?_⟩
    rintro env ⟨⟩
    exact hmagic
  exact ((Relation.ReflTransGen.single (.toServer hprefix harrive)).tail
    (.server (hlocalEnter _) henter)).tail (.server (hlocalPass _) hpass)

/-- The accepting node has parsed all of the version, and refused it. -/
theorem never_shake_hands_delivered :
    ∃ l, Relation.ReflTransGen Step (joined outboundEnv outboundNode Work.inbound.node) l ∧
      (dispatches l.server.peer.work.log).length = 1 ∧
      ∀ e ∈ l.server.peer.work.log, calm e = true := by
  have hn : New Work.inbound.node := ⟨rfl, rfl, by simp [Speaking]; decide⟩
  have hserver : (joined outboundEnv outboundNode Work.inbound.node).server =
      ⟨⟨Work.inbound, []⟩, 0⟩ := by
    have hinbound : Work.inbound.node.isInbound = true := rfl
    simp only [joined, opened, hinbound, if_true]
    rfl
  have hlength : MessageHeader.kSize ≤
      (written (joined outboundEnv outboundNode Work.inbound.node).client).length := by
    decide +kernel
  have hparse : ((step (delivered
      (written (joined outboundEnv outboundNode Work.inbound.node).client)) (.pass outboundEnv)).map
        fun s => (dispatches s.peer.work.log).length) = some 1 := by
    decide +kernel
  obtain ⟨s, hpass, hone⟩ := Option.map_eq_some_iff.mp hparse
  have hrun := delivered_run hserver rfl hlength (by decide) hpass
  obtain ⟨-, hcalm, -⟩ := never_shake_hands outboundNode_new rfl hn rfl hrun
  exact ⟨_, hrun, hone, hcalm⟩

end Pairs

end Links
