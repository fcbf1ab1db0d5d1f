import Btclite.Library.Assertions
import Btclite.Network.Handshake

/-!
# Dialogues

What a node says to its peer, as a language of its log: which commands it may
send after what it has handled, in which order, and what is in the messages it
fills in itself. Every run of a node keeps to it.
-/

namespace Dialogues

open Address Serialize Messages Nodes Handlers Sessions MsgProcess Lifecycle Assertions Runs

/-- How far the talk with a peer has come. The commands that are `due` may be sent in this
order, and any of them may fail to be written. -/
structure Dialogue where
  isInbound : Bool
  localHostNonce : U64
  addr : NetAddr
  protocolVersion : U32 := kUnknownProtoVersion
  /-- A verack has been handled. -/
  settled : Bool := false
  due : List (List Endian.Byte)

section Language

/-- The side that connects speaks first. -/
def begun (n : Node) : Dialogue where
  isInbound := n.isInbound
  localHostNonce := n.localHostNonce
  addr := n.connection.addr
  due := if n.isInbound then [] else [kMsgVersion]

/-- What a version is answered with once it is accepted. -/
def greetings (isInbound : Bool) : List (List Endian.Byte) :=
  if isInbound then [kMsgVersion, kMsgVerack] else [kMsgVerack, kMsgGetAddr]

def replies (protocolVersion : U32) (command : List Endian.Byte) : List (List Endian.Byte) :=
  if command = kMsgVerack then
    (if kSendheadersVersion ≤ protocolVersion then [kMsgSendHeaders] else []) ++
      (if kShortIdsBlocksVersion ≤ protocolVersion then [kMsgSendCmpct, kMsgSendCmpct] else []) ++
      [kMsgPing]
  else if command = kMsgPing ∧ kBip31Version ≤ protocolVersion then [kMsgPong]
  else []

/-- The message is filled in for this peer. -/
def fits (d : Dialogue) : Message → Bool
  | .version v => decide (v.protocolVersion = kProtocolVersion ∧ v.services = 0 ∧
      v.addrRecv = d.addr ∧ v.addrFrom = {} ∧ v.nonce = d.localHostNonce)
  | .ping m => decide (m.protocolVersion =
      if d.protocolVersion < kBip31Version then 0 else kProtocolVersion)
  | .sendcmpct m => !m.highBandwidthMode
  | _ => true

/-- A handled message is in turn. -/
def InTurn (d : Dialogue) (command : List Endian.Byte) : Prop :=
  command = kMsgVersion ∨
    d.protocolVersion ≠ kUnknownProtoVersion ∧ (command = kMsgVerack ∨ d.settled = true)

instance (d : Dialogue) (command : List Endian.Byte) : Decidable (InTurn d command) :=
  inferInstanceAs (Decidable (_ ∨ _ ∧ (_ ∨ _)))

def next (d : Dialogue) : Event → Option Dialogue
  | .received command _ =>
    if InTurn d command then
      some { d with
        settled := d.settled || command == kMsgVerack
        due := replies d.protocolVersion command }
    else none
  | .versionAccepted v =>
    if d.protocolVersion = kUnknownProtoVersion ∧ kMinPeerProtoVersion ≤ v then
      some { d with protocolVersion := v, due := greetings d.isInbound }
    else none
  | .sent _ m =>
    if fits d m then
      match d.due.dropWhile (· ≠ m.command) with
      | _ :: due => some { d with due }
      | [] => if d.settled ∧ (m.command = kMsgPing ∨ m.command = kMsgAddr) then some d else none
    else none
  | _ => some d

/-- Where the dialogue of a node stands after what a log tells, if the log keeps to it. -/
def after (n : Node) (log : List Event) : Option Dialogue := log.foldlM next (begun n)

theorem after_concat (n : Node) (log : List Event) (e : Event) :
    after n (log ++ [e]) = (after n log).bind (next · e) := by
  simp [after, List.foldlM_append]

end Language

/-- Where the handlers of a node are in its dialogue: the version as the dialogue and as the
node have it, whether the services are still unknown, and what is to be sent next. -/
structure Stage where
  told : U32
  known : U32
  blank : Bool
  settled : Bool := false
  rest : List (List Endian.Byte) := []

/-- Between two messages the node and the dialogue have the same version. -/
def Stage.idle (protocolVersion : U32) : Stage where
  told := protocolVersion
  known := protocolVersion
  blank := protocolVersion == kUnknownProtoVersion

/-- What is set on a node only once a verack is handled. -/
def Speaking (node : Node) : Prop :=
  node.connection.isHandshakeCompleted = true ∨ node.timers.pingTimer = true ∨
    node.timers.broadcastAddrsTimer = true

/-- The node is still the one that began, at this stage. -/
structure Matches (n : Node) (g : Stage) (node : Node) : Prop where
  isInbound : node.isInbound = n.isInbound
  localHostNonce : node.localHostNonce = n.localHostNonce
  addr : node.connection.addr = n.connection.addr
  protocolVersion : node.protocolVersion = g.known
  services : g.blank = true → node.services = 0

/-- What the dialogue sees of a node. -/
def profile (node : Node) : Bool × U64 × NetAddr × U32 × U64 :=
  (node.isInbound, node.localHostNonce, node.connection.addr, node.protocolVersion, node.services)

theorem Matches.congr {n : Node} {g g' : Stage} {node node' : Node} (h : Matches n g node)
    (hprofile : profile node' = profile node) (hknown : g'.known = g.known)
    (hblank : g'.blank = g.blank) : Matches n g' node' := by
  simp only [profile, Prod.mk.injEq] at hprofile
  obtain ⟨h1, h2, h3, h4, h5⟩ := hprofile
  refine ⟨h1.trans h.1, h2.trans h.2, h3.trans h.3, ?_, fun hb => h5.trans (h.5 (hblank ▸ hb))⟩
  rw [h4, h.4, hknown]

/-- The dialogue of the node has come to this stage. -/
structure Stands (n : Node) (g : Stage) (node : Node) (d : Dialogue) : Prop where
  isInbound : d.isInbound = n.isInbound
  localHostNonce : d.localHostNonce = n.localHostNonce
  addr : d.addr = n.connection.addr
  protocolVersion : d.protocolVersion = g.told
  settled : g.settled = true ∨ Speaking node → d.settled = true
  due : g.rest <:+ d.due

structure Talks (n : Node) (g : Stage) (w : Work) : Prop where
  node : Matches n g w.node
  spoken : ∃ d, after n w.log = some d ∧ Stands n g w.node d

section Steps

variable {n : Node} {g : Stage} {A : Type} {Q : A → Work → Prop}

/-- Some of what was to be sent is not. -/
theorem Talks.skip {rest : List (List Endian.Byte)} {w : Work} (h : Talks n g w)
    (hrest : rest <:+ g.rest) : Talks n { g with rest } w := by
  obtain ⟨hm, d, hd, hs⟩ := h
  exact ⟨hm.congr rfl rfl rfl, d, hd, hs.isInbound, hs.localHostNonce, hs.addr,
    hs.protocolVersion, hs.settled, hrest.trans hs.due⟩

theorem node_meets {k : Node → Handler A}
    (h : ∀ node, Matches n g node → Meets (Talks n g) (k node) Q) :
    Meets (Talks n g) (getNode >>= k) Q :=
  fun w hw => h w.node hw.node w hw

theorem setNode_meets {g' : Stage} {f : Node → Node}
    (hnode : ∀ m, Matches n g m → Matches n g' (f m))
    (htold : g'.told = g.told) (hsettled : g'.settled = g.settled) (hrest : g'.rest = g.rest)
    (hspeaking : ∀ m, Speaking (f m) → g.settled = true ∨ Speaking m) :
    Meets (Talks n g) (setNode f) fun _ => Talks n g' := by
  rintro w ⟨hm, d, hd, hs⟩
  refine ⟨hnode _ hm, d, hd, hs.isInbound, hs.localHostNonce, hs.addr, ?_, ?_, ?_⟩
  · rw [hs.protocolVersion, htold]
  · rintro (h | h)
    · exact hs.settled (Or.inl (hsettled ▸ h))
    · exact hs.settled (hspeaking _ h)
  · rw [hrest]
    exact hs.due

/-- An event that moves the dialogue from one stage to another. -/
theorem emit_meets {g' : Stage} {e : Event} (hknown : g'.known = g.known)
    (hblank : g'.blank = g.blank)
    (hnext : ∀ m d, Matches n g m → Stands n g m d → ∃ d', next d e = some d' ∧ Stands n g' m d') :
    Meets (Talks n g) (emit e) fun _ => Talks n g' := by
  rintro w ⟨hm, d, hd, hs⟩
  obtain ⟨d', hd', hs'⟩ := hnext w.node d hm hs
  refine ⟨hm.congr rfl hknown hblank, d', ?_, hs'⟩
  change after n (w.log ++ [e]) = some d'
  rw [after_concat, hd]
  exact hd'

theorem emit_plain {e : Event} (he : ∀ d, next d e = some d) :
    Meets (Talks n g) (emit e) fun _ => Talks n g :=
  emit_meets rfl rfl fun _ d _ hs => ⟨d, he d, hs⟩

theorem ifThen_meets {c : Prop} [Decidable c] {m : Handler Unit}
    (hm : c → Meets (Talks n g) m fun _ => Talks n g) :
    Meets (Talks n g) (ifThen c m) fun _ => Talks n g :=
  Meets.ite hm fun _ => Meets.pure fun _ h => h

/-- A change of the node that the dialogue does not see. -/
theorem setNode_keeps {f : Node → Node} (hprofile : ∀ m, profile (f m) = profile m)
    (hspeaking : ∀ m, Speaking (f m) → g.settled = true ∨ Speaking m) :
    Meets (Talks n g) (setNode f) fun _ => Talks n g :=
  setNode_meets (fun m h => h.congr (hprofile m) rfl rfl) rfl rfl rfl hspeaking

/-- Of the commands that are due one is sent: those in front of it are not sent any more. -/
theorem dropWhile_of_suffix {command : List Endian.Byte} {rest due : List (List Endian.Byte)}
    (h : command :: rest <:+ due) :
    ∃ due', due.dropWhile (· ≠ command) = command :: due' ∧ rest <:+ due' := by
  obtain ⟨front, rfl⟩ := h
  induction front with
  | nil => exact ⟨rest, by simp, List.suffix_refl _⟩
  | cons c front ih =>
    by_cases hc : c = command
    · exact ⟨front ++ command :: rest, by simp [hc], (List.suffix_cons _ _).trans
        (List.suffix_append _ _)⟩
    · simpa [List.dropWhile_cons, hc] using ih

/-- A message whose report moves the dialogue on, if it can be written. -/
theorem sendMsg_of_next (env : Env) {m : Message} {rest : List (List Endian.Byte)}
    (hrest : rest <:+ g.rest) (hnext : ∀ node d, Stands n g node d →
      ∃ due, next d (.sent (headerOf env m) m) = some { d with due } ∧ rest <:+ due) :
    Meets (Talks n g) (sendMsg env m) fun _ => Talks n { g with rest } := by
  have hskip : ∀ w, Talks n g w → Talks n { g with rest } w := fun w hw => hw.skip hrest
  refine node_meets fun node _ => Meets.ite (fun _ => Meets.pure hskip) fun _ => ?_
  refine Meets.bind (setNode_keeps (fun _ => rfl) fun _ h => Or.inr h) fun _ => ?_
  refine Meets.ite (fun _ => Meets.pure hskip) fun _ => ?_
  refine Meets.ite (fun _ => Meets.pure hskip) fun _ => ?_
  refine Meets.bind (Q := fun _ => Talks n { g with rest }) (emit_meets rfl rfl ?_) fun _ => ?_
  · intro node d _ hs
    obtain ⟨due, hdue, hsuffix⟩ := hnext node d hs
    exact ⟨_, hdue, hs.isInbound, hs.localHostNonce, hs.addr, hs.protocolVersion, hs.settled,
      hsuffix⟩
  · refine Meets.bind (setNode_keeps (fun _ => rfl) fun _ h => Or.inr h) fun _ => ?_
    exact Meets.pure fun _ h => h

/-- A message that is next to be sent. -/
theorem sendMsg_meets (env : Env) {m : Message} {rest : List (List Endian.Byte)}
    (hrest : g.rest = m.command :: rest) (hfits : ∀ node d, Stands n g node d → fits d m = true) :
    Meets (Talks n g) (sendMsg env m) fun _ => Talks n { g with rest } := by
  refine sendMsg_of_next env (by rw [hrest]; exact List.suffix_cons _ _) fun node d hs => ?_
  have hdue := hs.due
  rw [hrest] at hdue
  obtain ⟨due, hdrop, hsuffix⟩ := dropWhile_of_suffix hdue
  refine ⟨due, ?_, hsuffix⟩
  simp only [next, hfits node d hs, if_true, hdrop]

/-- A message that is sent unasked. -/
theorem sendMsg_unasked (env : Env) {m : Message} (hsettled : g.settled = true)
    (hcommand : m.command = kMsgPing ∨ m.command = kMsgAddr)
    (hfits : ∀ node d, Stands n g node d → fits d m = true) :
    Meets (Talks n g) (sendMsg env m) fun _ => Talks n { g with rest := [] } := by
  refine sendMsg_of_next env List.nil_suffix fun node d hs => ?_
  cases hdrop : d.due.dropWhile (· ≠ m.command) with
  | nil =>
    refine ⟨d.due, ?_, List.nil_suffix⟩
    simp only [next, hfits node d hs, if_true, hdrop]
    rw [if_pos ⟨hs.settled (Or.inl hsettled), hcommand⟩]
  | cons c due =>
    refine ⟨due, ?_, List.nil_suffix⟩
    simp only [next, hfits node d hs, if_true, hdrop]

theorem disconnectNodeCb_meets (env : Env) :
    Meets (Talks n g) (disconnectNodeCb env) fun _ => Talks n g := by
  refine Meets.bind (setNode_keeps (fun _ => rfl) ?_) fun _ => ?_
  · rintro m (h | h | h)
    · exact Or.inr (Or.inl h)
    · cases h
    · cases h
  · refine node_meets fun node _ => Meets.bind (Q := fun _ => Talks n g) ?_ fun _ => ?_
    · exact ifThen_meets fun _ => emit_plain fun _ => rfl
    · exact emit_plain fun _ => rfl

theorem setConnectionState_meets (env : Env) {state : ConnectionState}
    (hstate : state = .kEstablished → g.settled = true) :
    Meets (Talks n g) (setConnectionState env state) fun _ => Talks n g := by
  refine Meets.bind (setNode_keeps (fun _ => rfl) ?_) fun _ => ?_
  · rintro m (h | h)
    · exact Or.inl (hstate (by simpa [NodeConnection.isHandshakeCompleted] using h))
    · exact Or.inr (Or.inr h)
  · refine Meets.bind (emit_plain fun _ => rfl) fun _ => ?_
    exact node_meets fun node _ => ifThen_meets fun _ => disconnectNodeCb_meets env

theorem disconnect_meets (env : Env) : Meets (Talks n g) (disconnect env) fun _ => Talks n g :=
  setConnectionState_meets env (by simp)

theorem setLocalAddr_meets (addr : NetAddr) :
    Meets (Talks n g) (setLocalAddr addr) fun _ => Talks n g := by
  refine setNode_keeps (fun m => ?_) fun m h => ?_
  · by_cases hvalid : m.connection.localAddr.isValid = true <;> simp [hvalid, profile]
  · by_cases hvalid : m.connection.localAddr.isValid = true
    · simpa [hvalid] using Or.inr h
    · simpa [hvalid, Speaking, NodeConnection.isHandshakeCompleted] using Or.inr h

theorem misbehaving_meets (howmuch : U32) :
    Meets (Talks n g) (misbehaving howmuch) fun _ => Talks n g :=
  ifThen_meets fun _ => setNode_keeps (fun _ => rfl) fun _ h => Or.inr h

/-- The services of a node are those the peer told, and none until it has: the version that is
sent before offers nothing. -/
theorem sendVersion_meets (env : Env) {rest : List (List Endian.Byte)}
    (hrest : g.rest = kMsgVersion :: rest) (hblank : g.blank = true) :
    Meets (Talks n g) (sendVersion env) fun _ => Talks n { g with rest } := by
  refine node_meets fun node hm => sendMsg_meets env hrest fun m d hs => ?_
  have hzero := hm.services hblank
  simp [fits, hzero, hs.addr, hm.addr, hs.localHostNonce, hm.localHostNonce]

theorem pingFor_fits (env : Env) {node : Node} (hm : Matches n g node)
    (hknown : g.known = g.told) (m : Node) (d : Dialogue) (hs : Stands n g m d) :
    fits d (pingFor env node) = true := by
  simp [fits, pingFor, hs.protocolVersion, hm.protocolVersion, hknown]

end Steps

section Receiving

variable {n : Node}

/-- Between two messages a node keeps to its dialogue. -/
def Keeps (n : Node) (w : Work) : Prop := ∃ pv, Talks n (.idle pv) w

/-- The stage in the handler of a version that is accepted. -/
def greeting (v : U32) (rest : List (List Endian.Byte)) : Stage where
  told := v
  known := kUnknownProtoVersion
  blank := true
  rest

theorem greet_meets (env : Env) (v : Version) (hv : kMinPeerProtoVersion ≤ v.protocolVersion) :
    Meets (Talks n (.idle kUnknownProtoVersion)) (greet env v) fun _ => Talks n
      { greeting v.protocolVersion (if n.isInbound then [] else [kMsgGetAddr]) with
        blank := false } := by
  let rest : List (List Endian.Byte) := if n.isInbound then [] else [kMsgGetAddr]
  refine Meets.bind (Q := fun _ => Talks n (greeting v.protocolVersion (greetings n.isInbound)))
    (emit_meets rfl rfl ?_) fun _ => ?_
  · intro m d hm hs
    refine ⟨{ d with protocolVersion := v.protocolVersion, due := greetings d.isInbound }, ?_,
      hs.isInbound, hs.localHostNonce, hs.addr, rfl, hs.settled, ?_⟩
    · have hzero : d.protocolVersion = kUnknownProtoVersion := hs.protocolVersion
      simp only [next, hzero, hv, and_self, if_true]
    · rw [hs.isInbound]
      exact List.suffix_refl _
  refine node_meets fun node hm => ?_
  refine Meets.bind (Q := fun _ => Talks n (greeting v.protocolVersion (kMsgVerack :: rest)))
    ?_ fun _ => ?_
  · rw [hm.isInbound]
    cases hin : n.isInbound with
    | true =>
      rw [if_pos rfl]
      have hsend := sendVersion_meets (n := n) (g := greeting v.protocolVersion (greetings true))
        env rfl rfl
      simpa [rest, hin, greeting] using hsend
    | false =>
      refine Meets.pure fun _ h => ?_
      simpa [rest, hin, greeting, greetings] using h
  refine Meets.bind (Q := fun _ => Talks n (greeting v.protocolVersion rest))
    (sendMsg_meets env rfl fun _ _ _ => rfl) fun _ => ?_
  refine Meets.bind (Q := fun _ => Talks n { greeting v.protocolVersion rest with blank := false })
    (setNode_meets (fun m h => ⟨h.1, h.2, h.3, h.4, by simp⟩) rfl rfl rfl fun _ h => Or.inr h)
    fun _ => ?_
  refine Meets.bind (setLocalAddr_meets _) fun _ => ?_
  exact setNode_keeps (fun _ => rfl) fun _ h => Or.inr h

theorem introduce_meets (env : Env) (v : Version) {g : Stage}
    (hrest : n.isInbound = false → g.rest = [kMsgGetAddr]) :
    Meets (Talks n g) (introduce env v) fun _ => Talks n { g with rest := [] } := by
  refine Meets.bind (ifThen_meets fun _ =>
    setNode_keeps (fun _ => rfl) fun _ h => Or.inr h) fun _ => ?_
  refine node_meets fun node hm => ?_
  have hskip : ∀ w, Talks n g w → Talks n { g with rest := [] } w := fun w hw =>
    hw.skip List.nil_suffix
  refine Meets.bind (Q := fun _ => Talks n { g with rest := [] }) (Meets.ite (fun hout => ?_)
    fun _ => Meets.pure hskip) fun _ => emit_plain fun _ => rfl
  have hin : n.isInbound = false := by
    rw [← hm.isInbound]
    simpa using hout
  refine Meets.bind (ifThen_meets fun _ => emit_plain fun _ => rfl) fun _ => ?_
  refine Meets.bind (Q := fun _ => Talks n { g with rest := [] }) (Meets.ite (fun _ => ?_)
    fun _ => Meets.pure hskip) fun _ => ifThen_meets fun _ => emit_plain fun _ => rfl
  refine Meets.bind (sendMsg_meets env (hrest hin) fun _ _ _ => rfl) fun _ => ?_
  exact setNode_keeps (fun _ => rfl) fun _ h => Or.inr h

theorem accept_meets (env : Env) (v : Version) (hv : kMinPeerProtoVersion ≤ v.protocolVersion) :
    Meets (Talks n (.idle kUnknownProtoVersion)) (accept env v) fun _ =>
      Talks n (.idle v.protocolVersion) := by
  have hidle : Stage.idle v.protocolVersion =
      { told := v.protocolVersion, known := v.protocolVersion, blank := false } := by
    have hne : (v.protocolVersion == kUnknownProtoVersion) = false := by
      rw [beq_eq_false_iff_ne]
      intro h
      rw [h] at hv
      exact absurd hv (by decide)
    rw [Stage.idle, hne]
  refine Meets.bind (greet_meets env v hv) fun _ => ?_
  refine Meets.bind (Q := fun _ => Talks n { greeting v.protocolVersion
      (if n.isInbound then [] else [kMsgGetAddr]) with
        known := v.protocolVersion
        blank := false }) (setNode_meets ?_ rfl rfl rfl fun _ h => Or.inr h) fun _ => ?_
  · exact fun m h => ⟨h.1, h.2, h.3, rfl, by simp⟩
  · rw [hidle]
    exact introduce_meets env v fun h => by simp [greeting, h]

theorem versionRecvHandler_meets (env : Env) (v : Version) :
    Meets (Keeps n) (versionRecvHandler env v) fun _ => Keeps n := by
  rintro w ⟨pv, hw⟩
  have hkeeps : ∀ {pv : U32} {w : Work}, Talks n (.idle pv) w → Keeps n w := fun h => ⟨_, h⟩
  refine node_meets (Q := fun _ => Keeps n) (fun node hm => ?_) w hw
  refine Meets.ite (fun _ => ?_) fun hzero => ?_
  · exact Meets.bind (misbehaving_meets 1) fun _ => Meets.pure fun _ => hkeeps
  have hpv : pv = kUnknownProtoVersion := hm.protocolVersion.symm.trans (not_not.mp hzero)
  subst hpv
  have hend : ∀ b : Bool, Meets (Talks n (.idle kUnknownProtoVersion))
      (do disconnect env; pure b : Handler Bool) fun _ => Keeps n := fun b =>
    Meets.bind (disconnect_meets env) fun _ => Meets.pure fun _ => hkeeps
  refine Meets.bind (ifThen_meets fun _ => emit_plain fun _ => rfl) fun _ => ?_
  refine Meets.ite (fun _ => hend _) fun _ => Meets.ite (fun _ => hend _) fun _ =>
    Meets.ite (fun _ => hend _) fun hmin => Meets.ite (fun _ => hend _) fun _ => ?_
  exact Meets.bind (accept_meets env v (BitVec.not_lt.mp hmin)) fun _ => Meets.pure fun _ => hkeeps

/-- The stage in the handler of a verack. -/
def settling (pv : U32) (rest : List (List Endian.Byte)) : Stage :=
  { Stage.idle pv with settled := true, rest }

theorem Talks.keeps {pv : U32} {g : Stage} {w : Work} (h : Talks n g w)
    (hg : { g with settled := false, rest := [] } = Stage.idle pv) : Keeps n w := by
  obtain ⟨hm, d, hd, hs⟩ := h.skip List.nil_suffix
  refine ⟨pv, ?_⟩
  rw [← hg]
  exact ⟨hm.congr rfl rfl rfl, d, hd, hs.isInbound, hs.localHostNonce, hs.addr,
    hs.protocolVersion, fun h => hs.settled (Or.inr (h.resolve_left (by simp))), hs.due⟩

theorem negotiate_meets (env : Env) (pv : U32) :
    Meets (Talks n (settling pv (replies pv kMsgVerack))) (negotiate env) fun _ =>
      Talks n (settling pv [kMsgPing]) := by
  let headers : List (List Endian.Byte) :=
    if kSendheadersVersion ≤ pv then [kMsgSendHeaders] else []
  let compact : List (List Endian.Byte) :=
    if kShortIdsBlocksVersion ≤ pv then [kMsgSendCmpct, kMsgSendCmpct] else []
  have hreplies : replies pv kMsgVerack = headers ++ compact ++ [kMsgPing] := by
    rw [replies, if_pos rfl]
  have hcompact : ∀ {rest} (m : SendCmpct), m.highBandwidthMode = false →
      Meets (Talks n (settling pv (kMsgSendCmpct :: rest)))
        (do let _ ← sendMsg env (.sendcmpct m); pure () : Handler Unit) fun _ =>
          Talks n (settling pv rest) := fun m hm =>
    Meets.bind (sendMsg_meets env rfl fun _ _ _ => by simp [fits, hm]) fun _ =>
      Meets.pure fun _ h => h
  rw [hreplies]
  refine node_meets fun node hm => ?_
  have hpv : node.protocolVersion = pv := hm.protocolVersion
  rw [hpv]
  refine Meets.bind (Q := fun _ => Talks n (settling pv (compact ++ [kMsgPing])))
    (Meets.ite (fun h => ?_) fun h => ?_) fun _ => Meets.ite (fun h => ?_) fun h => ?_
  · simp only [headers, if_pos h]
    exact Meets.bind (sendMsg_meets env rfl fun _ _ _ => rfl) fun _ => Meets.pure fun _ h => h
  · simp only [headers, if_neg h]
    exact Meets.pure fun _ h => h
  · simp only [compact, if_pos h]
    refine Meets.bind (Q := fun _ => Talks n (settling pv [kMsgSendCmpct, kMsgPing]))
      (Meets.ite (fun _ => hcompact _ rfl) fun _ => Meets.pure fun w hw => ?_) fun _ => ?_
    · exact hw.skip (List.suffix_cons _ _)
    · exact hcompact _ rfl
  · simp only [compact, if_neg h]
    exact Meets.pure fun _ h => h

theorem settle_meets (env : Env) (pv : U32) :
    Meets (Talks n (settling pv [kMsgPing])) (settle env) fun _ => Talks n (settling pv []) := by
  have htimer : ∀ f : Node → Node, (∀ m, profile (f m) = profile m) →
      Meets (Talks n (settling pv [])) (setNode f) fun _ => Talks n (settling pv []) := fun f h =>
    setNode_keeps h fun _ _ => Or.inl rfl
  refine node_meets fun node hm => ?_
  refine Meets.bind (sendMsg_meets env rfl (pingFor_fits env hm rfl)) fun _ => ?_
  refine Meets.bind (htimer _ fun _ => rfl) fun _ => ?_
  refine Meets.bind (ifThen_meets fun _ => ?_) fun _ =>
    htimer _ fun _ => rfl
  exact Meets.bind (emit_plain fun _ => rfl) fun _ =>
    htimer _ fun _ => rfl

theorem verackRecvHandler_meets (env : Env) (pv : U32) :
    Meets (Talks n (settling pv (replies pv kMsgVerack))) (verackRecvHandler env) fun _ =>
      Keeps n := by
  refine Meets.bind (negotiate_meets env pv) fun _ => ?_
  refine Meets.bind (setConnectionState_meets env fun _ => rfl) fun _ => ?_
  exact Meets.bind (settle_meets env pv) fun _ => Meets.pure fun _ h => h.keeps rfl

theorem pingRecvHandler_meets (env : Env) (m : Ping) (pv : U32) :
    Meets (Talks n { Stage.idle pv with rest := replies pv kMsgPing }) (pingRecvHandler env m)
      fun _ => Keeps n := by
  refine node_meets fun node hm => ?_
  have hpv : node.protocolVersion = pv := hm.protocolVersion
  rw [hpv]
  refine Meets.bind (Q := fun _ => Keeps n) (Meets.ite (fun h => ?_) fun _ =>
    Meets.pure fun _ h => h.keeps rfl) fun _ => Meets.pure fun _ h => h
  have hreplies : replies pv kMsgPing = [kMsgPong] := by
    rw [replies, if_neg (by decide), if_pos ⟨rfl, h⟩]
  rw [hreplies]
  exact Meets.bind (sendMsg_meets env rfl fun _ _ _ => rfl) fun _ =>
    Meets.pure fun _ h => h.keeps rfl

theorem pongRecvHandler_meets (m : Pong) :
    Meets (Keeps n) (pongRecvHandler m) fun _ => Keeps n := by
  rintro w ⟨pv, hw⟩
  refine node_meets (Q := fun _ => Keeps n) (fun node _ => ?_) w hw
  have hkeeps : ∀ b : Bool, Meets (Talks n (.idle pv)) (pure b : Handler Bool) fun _ => Keeps n :=
    fun b => Meets.pure fun _ h => ⟨pv, h⟩
  refine Meets.ite (fun _ => hkeeps _) fun _ => Meets.ite (fun _ => hkeeps _) fun _ => ?_
  exact Meets.bind (setNode_keeps (fun _ => rfl) fun _ h => Or.inr h)
    fun _ => hkeeps _

/-- The stage in the handler of a message. -/
def handling (pv : U32) (command : List Endian.Byte) : Stage :=
  { Stage.idle pv with settled := command == kMsgVerack, rest := replies pv command }

theorem recvHandler_meets (env : Env) (m : Message) (pv : U32) :
    Meets (Talks n (handling pv m.command)) (recvHandler env m) fun _ => Keeps n := by
  have hidle : ∀ b : Bool, ∀ g : Stage, { g with settled := false, rest := [] } = Stage.idle pv →
      Meets (Talks n g) (pure b : Handler Bool) fun _ => Keeps n := fun b g hg =>
    Meets.pure fun _ h => h.keeps hg
  cases m with
  | version v => exact fun w hw => versionRecvHandler_meets env v w (hw.keeps rfl)
  | verack => exact verackRecvHandler_meets env pv
  | ping m => exact pingRecvHandler_meets env m pv
  | pong m => exact fun w hw => pongRecvHandler_meets m w (hw.keeps rfl)
  | addr m => exact hidle _ _ rfl
  | inv m => exact hidle _ _ rfl
  | getaddr => exact hidle _ _ rfl
  | reject m => exact hidle _ _ rfl
  | sendheaders => exact hidle _ _ rfl
  | sendcmpct m => exact hidle _ _ rfl

/-- A message that passes `CheckMisbehaving` is in turn. -/
theorem inTurn_of_check {g : Stage} {command : List Endian.Byte} {node : Node} {d : Dialogue}
    (hcheck : checkMisbehaving command node = true) (hm : Matches n g node)
    (hs : Stands n g node d) (hg : g.known = g.told) : InTurn d command := by
  rw [checkMisbehaving, hm.protocolVersion, hg, ← hs.protocolVersion] at hcheck
  by_cases hversion : command = kMsgVersion
  · exact Or.inl hversion
  by_cases hzero : d.protocolVersion = 0
  · simp [hversion, hzero] at hcheck
  refine Or.inr ⟨hzero, ?_⟩
  by_cases hverack : command = kMsgVerack
  · exact Or.inl hverack
  · refine Or.inr (hs.settled (Or.inr (Or.inl ?_)))
    have hdone : ¬ d.protocolVersion = 0 ∧ node.connection.isHandshakeCompleted = true := by
      simpa [hversion, hverack] using hcheck
    exact hdone.2

theorem handleMsgData_meets (env : Env) (header : MessageHeader) (m : Message) :
    Meets (Keeps n) (handleMsgData env header m) fun _ => Keeps n := by
  rintro w ⟨pv, hw⟩
  have hkeeps : ∀ b : Bool, Meets (Talks n (.idle pv)) (pure b : Handler Bool) fun _ => Keeps n :=
    fun b => Meets.pure fun _ h => ⟨pv, h⟩
  suffices h : Meets (Talks n (.idle pv)) (handleMsgData env header m) fun _ => Keeps n from h w hw
  refine Meets.ite (fun _ => ?_) fun _ => Meets.ite (fun _ => hkeeps _) fun _ => ?_
  · exact Meets.bind (emit_plain fun _ => rfl) fun _ => hkeeps _
  rintro w hw
  by_cases hcheck : checkMisbehaving m.command w.node = true
  · change Keeps n ((if !checkMisbehaving m.command w.node then _ else _ : Handler Bool) w).2
    rw [if_neg (by simp [hcheck])]
    refine Meets.bind (P := fun w' => Talks n (.idle pv) w' ∧ w' = w)
      (Q := fun _ => Talks n (handling pv m.command)) ?_
      (fun _ => recvHandler_meets env m pv) w ⟨hw, rfl⟩
    rintro w' ⟨⟨hm, d, hd, hs⟩, rfl⟩
    refine ⟨hm.congr rfl rfl rfl, { d with
      settled := d.settled || m.command == kMsgVerack
      due := replies d.protocolVersion m.command }, ?_, hs.isInbound, hs.localHostNonce, hs.addr,
      hs.protocolVersion, ?_, ?_⟩
    · change after n (w'.log ++ [_]) = _
      rw [after_concat, hd]
      simp only [Option.bind_some, next, if_pos (inTurn_of_check hcheck hm hs rfl)]
    · rintro (h | h)
      · simpa [handling] using Or.inr h
      · simpa using Or.inl (hs.settled (Or.inr h))
    · rw [show d.protocolVersion = pv from hs.protocolVersion]
      exact List.suffix_refl _
  · change Keeps n ((if !checkMisbehaving m.command w.node then _ else _ : Handler Bool) w).2
    rw [if_pos (by simpa using hcheck)]
    exact Meets.bind (misbehaving_meets 1) (fun _ => hkeeps _) w hw

theorem parseMsgData_meets (env : Env) (header : MessageHeader) (raw : List Endian.Byte) :
    Meets (Keeps n) (parseMsgData env header raw) fun _ => Keeps n := by
  rintro w ⟨pv, hw⟩
  refine Meets.bind (emit_plain fun _ => rfl) (fun _ =>
    node_meets (Q := fun _ => Keeps n) fun node _ => ?_) w hw
  have hinterrupted : ∀ c : Bool, Meets (Talks n (.idle pv))
      (ifThen c (emit .interrupted) : Handler Unit) fun _ => Talks n (.idle pv) := fun c =>
    ifThen_meets fun _ => emit_plain fun _ => rfl
  rcases decoded env header raw node with _ | ⟨m, s⟩ | ⟨failure, s⟩
  · exact Meets.pure fun _ h => ⟨pv, h⟩
  · refine Meets.bind (hinterrupted _) fun _ => ?_
    refine Meets.bind (Q := fun _ => Keeps n) (fun w hw => ?_) fun _ => Meets.pure fun _ h => h
    exact handleMsgData_meets env header m w ⟨pv, hw⟩
  · exact Meets.bind (hinterrupted _) fun _ => Meets.pure fun _ h => ⟨pv, h⟩

theorem parseMsgPass_keeps (env : Env) (raw : List Endian.Byte) {p : Peer} (h : Keeps n p.work) :
    Keeps n (parseMsgPass env raw p).2.work := by
  rcases parseMsgPass_cases env raw p with hrun | hrun | ⟨payload, rest, -, hrun⟩
  · rw [hrun]
    exact h
  · obtain ⟨pv, hw⟩ := h
    rw [hrun]
    exact ⟨pv, disconnect_meets env p.work hw⟩
  · have hdata := parseMsgData_meets env (headerOfRaw env.memory raw) payload p.work h
    rw [hrun]
    rcases hresult : parseMsgData env (headerOfRaw env.memory raw) payload p.work with
      ⟨_ | _, w'⟩ <;> rw [hresult] at hdata <;> exact hdata

end Receiving

section Conformance

variable {n : Node}

/-- A timer of the node fires only while it is set, and from outside the handlers nothing is sent
but addresses, by the timer for them. -/
def Honest (s : State) : Act → Prop
  | .callback _ .pingTimeout => s.peer.work.node.timers.pingTimer = true
  | .callback _ (.send m) =>
    s.peer.work.node.timers.broadcastAddrsTimer = true ∧ ∃ a, m = .addr a
  | _ => True

/-- A node that speaks has handled a verack. -/
theorem Talks.settled {pv : U32} {w : Work} (h : Talks n (.idle pv) w) (hw : Speaking w.node) :
    Talks n (settling pv []) w := by
  obtain ⟨hm, d, hd, hs⟩ := h
  exact ⟨hm.congr rfl rfl rfl, d, hd, hs.isInbound, hs.localHostNonce, hs.addr,
    hs.protocolVersion, fun _ => hs.settled (Or.inr hw), List.nil_suffix⟩

theorem pingTimeoutCb_keeps (env : Env) {w : Work} (h : Keeps n w) (hw : Speaking w.node) :
    Keeps n (pingTimeoutCb env w).2 := by
  obtain ⟨pv, h⟩ := h
  refine node_meets (Q := fun _ => Keeps n) (fun node hm => ?_) w (h.settled hw)
  refine Meets.ite (fun _ => Meets.pure fun _ h => h.keeps rfl) fun _ => Meets.ite (fun _ => ?_)
    fun _ => ?_
  · exact (disconnect_meets env).weaken (fun _ h => h) fun _ _ h => h.keeps rfl
  · exact Meets.bind (sendMsg_unasked env rfl (Or.inl rfl) (pingFor_fits env hm rfl)) fun _ =>
      Meets.pure fun _ h => h.keeps rfl

theorem checkBanned_meets (env : Env) {g : Stage} :
    Meets (Talks n g) (checkBanned env) fun _ => Talks n g := by
  refine node_meets fun node _ => Meets.ite (fun _ => Meets.pure fun _ h => h) fun _ => ?_
  refine Meets.bind (setNode_keeps (fun _ => rfl) fun _ h => Or.inr h) fun _ => ?_
  refine Meets.ite (fun _ => Meets.pure fun _ h => h) fun _ => ?_
  refine Meets.bind (disconnect_meets env) fun _ => ?_
  exact Meets.bind (ifThen_meets fun _ => emit_plain fun _ => rfl) fun _ => Meets.pure fun _ h => h

theorem callback_keeps (env : Env) (cb : Callback) {s : State} (h : Keeps n s.peer.work)
    (hhonest : Honest s (.callback env cb)) : Keeps n (cb.run env s.peer.work).2 := by
  obtain ⟨pv, hw⟩ := h
  have hif : ∀ c : Node → Bool, Keeps n
      ((do let node ← getNode; ifThen (c node) (disconnect env) : Handler Unit) s.peer.work).2 :=
    fun c => ⟨pv, node_meets (Q := fun _ => Talks n (.idle pv))
      (fun node _ => ifThen_meets fun _ => disconnect_meets env) s.peer.work hw⟩
  cases cb with
  | inactivityTimeout => exact hif _
  | socketNoMsgTimeout => exact hif _
  | shakeHandsTimeout => exact hif _
  | pingTimeout => exact pingTimeoutCb_keeps env ⟨pv, hw⟩ (Or.inr (Or.inl hhonest))
  | checkBanned => exact ⟨pv, checkBanned_meets env s.peer.work hw⟩
  | connEvent => exact hif _
  | send m =>
    obtain ⟨htimer, a, rfl⟩ := hhonest
    have hsend := sendMsg_unasked (n := n) (g := settling pv []) (m := .addr a) env rfl (Or.inr rfl)
      (fun _ _ _ => rfl)
    exact (hsend _ (hw.settled (Or.inr (Or.inr htimer)))).keeps rfl

theorem step_keeps {s s' : State} {a : Act} (h : Keeps n s.peer.work) (hhonest : Honest s a)
    (hnext : Next s a s') : Keeps n s'.peer.work := by
  rcases step_cases hnext with ⟨bytes, -, hpeer⟩ | hpeer | ⟨env, raw, rfl, -, hpeer⟩ |
    ⟨env, cb, rfl, hpeer⟩
  · obtain ⟨pv, hw⟩ := h
    have hread : Meets (Talks n (.idle pv)) connReadCb fun _ => Talks n (.idle pv) :=
      setNode_keeps (fun _ => rfl) fun _ h => Or.inr h
    rw [hpeer]
    exact ⟨pv, hread s.peer.work hw⟩
  · rw [hpeer]
    exact h
  · rw [hpeer]
    exact parseMsgPass_keeps env raw h
  · rw [hpeer]
    exact callback_keeps env cb h hhonest

theorem run_keeps {s s' : State} (h : Keeps n s.peer.work) (hrun : Run Next Honest s s') :
    Keeps n s'.peer.work :=
  Run.preserves (P := fun s => Keeps n s.peer.work) (fun _ _ _ => step_keeps) hrun h

/-- A node before the first message. -/
structure New (n : Node) : Prop where
  protocolVersion : n.protocolVersion = kUnknownProtoVersion
  services : n.services = 0
  silent : ¬ Speaking n

/-- A node as the acceptor leaves it, or the connector, which sends it the version. -/
def opened (env : Env) (n : Node) : Work :=
  if n.isInbound then ⟨n, []⟩ else (sendVersion env ⟨n, []⟩).2

theorem opened_keeps (env : Env) (h : New n) : Keeps n (opened env n) := by
  have hbegun : Talks n { Stage.idle kUnknownProtoVersion with rest := (begun n).due }
      ⟨n, []⟩ := by
    refine ⟨⟨rfl, rfl, rfl, h.protocolVersion, fun _ => h.services⟩, begun n, rfl, rfl, rfl, rfl,
      rfl, ?_, List.suffix_refl _⟩
    rintro (hs | hs)
    · cases hs
    · exact absurd hs h.silent
  rw [opened]
  cases hin : n.isInbound with
  | true => exact hbegun.keeps rfl
  | false =>
    have hdue : (begun n).due = [kMsgVersion] := by simp [begun, hin]
    exact (sendVersion_meets env hdue rfl _ hbegun).keeps rfl

/-- Whatever arrives and in whatever order the steps come, what a node says keeps to its dialogue,
which is at the version the node has. -/
theorem run_conforms {env : Env} {s s' : State} (hnew : New n)
    (hopened : s.peer.work = opened env n) (hrun : Run Next Honest s s') :
    ∃ d, after n s'.peer.work.log = some d ∧
      d.protocolVersion = s'.peer.work.node.protocolVersion ∧
      (s'.peer.work.node.connection.isHandshakeCompleted = true → d.settled = true) := by
  obtain ⟨pv, hm, d, hd, hs⟩ := run_keeps (hopened ▸ opened_keeps env hnew) hrun
  exact ⟨d, hd, hs.protocolVersion.trans hm.protocolVersion.symm,
    fun h => hs.settled (Or.inr (Or.inl h))⟩

end Conformance

section Outbound

open Handshake

def outboundNode : Node := initializeNode 2 outboundAddr false false 9

/-- An outbound node that has told its version, with a version and a verack in its buffer. -/
def outboundStart : State where
  peer := ⟨opened outboundEnv outboundNode, (outboundPeer [versionMessage 60002, .verack]).input⟩

theorem outboundNode_new : New outboundNode := ⟨rfl, rfl, by simp [Speaking]; decide⟩

theorem outboundStart_opened : outboundStart.peer.work = opened outboundEnv outboundNode := by
  rw [outboundStart]

def outboundEnd : State := ⟨(parseMsg (fun _ => outboundEnv) outboundStart.peer).2, 0⟩

theorem outboundEnd_run : Run Next Honest outboundStart outboundEnd :=
  parseMsg_run (fun _ _ => trivial) (fun _ => trivial) (fun _ => outboundEnv) outboundStart.peer

/-- Once both are handled, what is said is the version, verack, getaddr and a ping. -/
theorem run_conforms_outbound :
    ∃ s, Run Next Honest outboundStart s ∧
      s.peer.work.node.connection.isHandshakeCompleted = true ∧
      ∃ d, after outboundNode s.peer.work.log = some d ∧ d.protocolVersion = 60002 ∧
        d.settled = true := by
  have hstate : outboundEnd.peer.work.node.connection.isHandshakeCompleted = true := by
    decide +kernel
  have hversion : outboundEnd.peer.work.node.protocolVersion = 60002 := by
    decide +kernel
  obtain ⟨d, hd, hpv, hsettled⟩ :=
    run_conforms outboundNode_new outboundStart_opened outboundEnd_run
  exact ⟨outboundEnd, outboundEnd_run, hstate, d, hd, hpv.trans hversion, hsettled hstate⟩

end Outbound

section Order

variable {n : Node}

def sentVersion? : Event → Option Version
  | .sent _ (.version v) => some v
  | _ => none

def versionsSent (log : List Event) : List Version := log.filterMap sentVersion?

theorem versionsSent_concat (log : List Event) (e : Event) :
    versionsSent (log ++ [e]) = versionsSent log ++ (sentVersion? e).toList := by
  cases h : sentVersion? e <;> simp [versionsSent, h]

def firstCommands : List (List Endian.Byte) := [kMsgVersion, kMsgVerack, kMsgGetAddr]

/-- What has to have happened before a message with this command is sent. -/
def Preceded (n : Node) (log : List Event) (command : List Endian.Byte) : Prop :=
  n.isInbound = false ∧ command = kMsgVersion ∨
    (∃ v, .versionAccepted v ∈ log) ∧
      (command ∈ firstCommands ∨ ∃ state, .received kMsgVerack state ∈ log)

/-- What a log tells if it keeps to the dialogue. A version that may still be answered counts as
one that is due. -/
structure Ordered (n : Node) (log : List Event) (d : Dialogue) : Prop where
  isInbound : d.isInbound = n.isInbound
  told : d.protocolVersion ≠ kUnknownProtoVersion → ∃ v, .versionAccepted v ∈ log
  settled : d.settled = true →
    d.protocolVersion ≠ kUnknownProtoVersion ∧ ∃ state, .received kMsgVerack state ∈ log
  due : ∀ command ∈ d.due, Preceded n log command
  sent : ∀ l₁ header m l₂, log = l₁ ++ .sent header m :: l₂ → Preceded n l₁ m.command
  versions : (versionsSent log).length + d.due.count kMsgVersion +
    (if d.isInbound = true ∧ d.protocolVersion = kUnknownProtoVersion then 1 else 0) ≤ 1
  blank : ∀ v ∈ versionsSent log, v.services = 0

theorem Preceded.mono {log : List Event} {command : List Endian.Byte}
    (h : Preceded n log command) (e : Event) : Preceded n (log ++ [e]) command := by
  rcases h with h | ⟨⟨v, hv⟩, h⟩
  · exact Or.inl h
  · refine Or.inr ⟨⟨v, List.mem_append_left _ hv⟩, h.imp_right ?_⟩
    rintro ⟨state, hstate⟩
    exact ⟨state, List.mem_append_left _ hstate⟩

theorem replies_version (pv : U32) (command : List Endian.Byte) :
    kMsgVersion ∉ replies pv command := by
  have hne : ∀ c ∈ [kMsgSendHeaders, kMsgSendCmpct, kMsgPing, kMsgPong], kMsgVersion ≠ c := by
    decide
  simp only [List.mem_cons, List.not_mem_nil, or_false, forall_eq_or_imp, forall_eq] at hne
  obtain ⟨h1, h2, h3, h4⟩ := hne
  rw [replies]
  split_ifs <;> simp [h1, h2, h3, h4]

theorem replies_eq_nil {pv : U32} {command : List Endian.Byte} (hverack : command ≠ kMsgVerack)
    (hping : command ≠ kMsgPing) : replies pv command = [] := by
  rw [replies, if_neg hverack, if_neg fun h => hping h.1]

theorem dropWhile_eq_cons {command c : List Endian.Byte} {rest due : List (List Endian.Byte)}
    (h : due.dropWhile (· ≠ command) = c :: rest) : c = command ∧ c :: rest <:+ due := by
  induction due with
  | nil => cases h
  | cons x due ih =>
    by_cases hx : x = command
    · rw [List.dropWhile_cons, if_neg (by simp [hx])] at h
      cases h
      exact ⟨hx, List.suffix_refl _⟩
    · rw [List.dropWhile_cons, if_pos (by simpa using hx)] at h
      obtain ⟨hc, hsuffix⟩ := ih h
      exact ⟨hc, hsuffix.trans (List.suffix_cons _ _)⟩

theorem command_eq_version {m : Message} (h : m.command = kMsgVersion) : ∃ v, m = .version v := by
  cases m with
  | version v => exact ⟨v, rfl⟩
  | _ => exact absurd h (by simp [Message.command]; decide)

theorem sent_concat {log : List Event} {e : Event}
    (h : ∀ l₁ header m l₂, log = l₁ ++ .sent header m :: l₂ → Preceded n l₁ m.command)
    (he : ∀ header m, e = .sent header m → Preceded n log m.command) :
    ∀ l₁ header m l₂, log ++ [e] = l₁ ++ .sent header m :: l₂ → Preceded n l₁ m.command := by
  intro l₁ header m l₂ hsplit
  rcases List.eq_nil_or_concat l₂ with rfl | ⟨l₂, e', rfl⟩
  · obtain ⟨rfl, hlast⟩ := List.append_inj' hsplit rfl
    exact he header m (List.cons.inj hlast).1
  · have hsplit' : log ++ [e] = (l₁ ++ .sent header m :: l₂) ++ [e'] := by
      simpa using hsplit
    exact h l₁ header m l₂ (List.append_inj' hsplit' rfl).1

theorem versionsSent_length (log : List Event) (header : MessageHeader) (m : Message) :
    (versionsSent (log ++ [.sent header m])).length =
      (versionsSent log).length + if m.command = kMsgVersion then 1 else 0 := by
  rw [versionsSent_concat, List.length_append]
  by_cases hversion : m.command = kMsgVersion
  · obtain ⟨v, rfl⟩ := command_eq_version hversion
    rfl
  · rw [if_neg hversion]
    cases m with
    | version v => exact absurd rfl hversion
    | _ => rfl

/-- A version that fits the dialogue tells of no services. -/
theorem versionsSent_blank {log : List Event} {d : Dialogue} {m : Message}
    (h : ∀ v ∈ versionsSent log, v.services = 0) (hfits : fits d m = true)
    (header : MessageHeader) :
    ∀ v ∈ versionsSent (log ++ [.sent header m]), v.services = 0 := by
  intro v hv
  rw [versionsSent_concat] at hv
  rcases List.mem_append.mp hv with hv | hv
  · exact h v hv
  · cases m with
    | version v' =>
      obtain rfl : v = v' := by simpa [sentVersion?] using hv
      simp only [fits, decide_eq_true_eq] at hfits
      exact hfits.2.1
    | _ => simp [sentVersion?] at hv

section Steps

variable {log : List Event} {d d' : Dialogue} (h : Ordered n log d)
include h

/-- An event that the dialogue does not see. -/
theorem Ordered.unseen {e : Event} (hsent : ∀ header m, e ≠ .sent header m) :
    Ordered n (log ++ [e]) d := by
  have hversions : versionsSent (log ++ [e]) = versionsSent log := by
    cases e with
    | sent header m => exact absurd rfl (hsent header m)
    | _ => simp [versionsSent_concat, sentVersion?]
  refine ⟨h.isInbound, fun hd => ?_, fun hd => ?_, fun c hc => (h.due c hc).mono e,
    sent_concat h.sent fun header m he => absurd he (hsent header m), ?_, ?_⟩
  · obtain ⟨v, hv⟩ := h.told hd
    exact ⟨v, List.mem_append_left _ hv⟩
  · obtain ⟨hpv, state, hstate⟩ := h.settled hd
    exact ⟨hpv, state, List.mem_append_left _ hstate⟩
  · rw [hversions]
    exact h.versions
  · rw [hversions]
    exact h.blank

theorem Ordered.received {command : List Endian.Byte} {state : ConnectionState}
    (hnext : next d (.received command state) = some d') :
    Ordered n (log ++ [.received command state]) d' := by
  obtain ⟨hin, htold, hsettled, hdue, hsent, hversions, hblank⟩ :=
    h.unseen (e := .received command state) (by simp)
  simp only [next, Option.ite_none_right_eq_some, Option.some.injEq] at hnext
  obtain ⟨hturn, rfl⟩ := hnext
  have hverack : command = kMsgVerack → d.protocolVersion ≠ kUnknownProtoVersion := by
    rintro rfl
    exact (hturn.resolve_left (by decide)).1
  refine ⟨hin, htold, ?_, ?_, hsent, ?_, hblank⟩
  · intro hd
    rcases Bool.or_eq_true _ _ ▸ hd with hd | hd
    · exact hsettled hd
    · have hcommand := beq_iff_eq.mp hd
      exact ⟨hverack hcommand, state, by simp [hcommand]⟩
  · intro c hc
    by_cases hv : command = kMsgVerack
    · exact Or.inr ⟨htold (hverack hv), Or.inr ⟨state, by simp [hv]⟩⟩
    by_cases hping : command = kMsgPing
    · have hset : d.settled = true := by
        subst hping
        exact (hturn.resolve_left (by decide)).2.resolve_left (by decide)
      obtain ⟨hpv, hstate⟩ := hsettled hset
      exact Or.inr ⟨htold hpv, Or.inr hstate⟩
    · have hc' : c ∈ replies d.protocolVersion command := hc
      rw [replies_eq_nil hv hping] at hc'
      cases hc'
  · have hnone := List.count_eq_zero_of_not_mem (replies_version d.protocolVersion command)
    simp only [hnone]
    omega

theorem Ordered.versionAccepted {v : U32} (hnext : next d (.versionAccepted v) = some d') :
    Ordered n (log ++ [.versionAccepted v]) d' := by
  obtain ⟨hin, htold, hsettled, hdue, hsent, hversions, hblank⟩ :=
    h.unseen (e := .versionAccepted v) (by simp)
  simp only [next, Option.ite_none_right_eq_some, Option.some.injEq] at hnext
  obtain ⟨⟨hzero, hmin⟩, rfl⟩ := hnext
  have hmem : ∃ v', Event.versionAccepted v' ∈ log ++ [.versionAccepted v] := ⟨v, by simp⟩
  have hne : v ≠ kUnknownProtoVersion := by
    rintro rfl
    exact absurd hmin (by decide)
  have hfirst : ∀ b : Bool, ∀ c ∈ greetings b, c ∈ firstCommands := by
    decide
  have hcount : (greetings true).count kMsgVersion = 1 ∧
      (greetings false).count kMsgVersion = 0 := by
    decide
  refine ⟨hin, fun _ => hmem, fun hd => ⟨hne, (hsettled hd).2⟩,
    fun c hc => Or.inr ⟨hmem, Or.inl (hfirst _ c hc)⟩, hsent, ?_, hblank⟩
  cases hd : d.isInbound with
  | true =>
    simp only [hd, hzero, and_self, if_true] at hversions
    simp only [hne, and_false, if_false, hcount.1]
    omega
  | false =>
    simp only [hne, and_false, if_false, hcount.2]
    omega

theorem Ordered.sends {header : MessageHeader} {m : Message}
    (hnext : next d (.sent header m) = some d') : Ordered n (log ++ [.sent header m]) d' := by
  simp only [next, Option.ite_none_right_eq_some] at hnext
  obtain ⟨hfits, hnext⟩ := hnext
  have htold : d.protocolVersion ≠ kUnknownProtoVersion →
      ∃ v, Event.versionAccepted v ∈ log ++ [.sent header m] := fun hd =>
    (h.told hd).imp fun v hv => List.mem_append_left _ hv
  have hsettled : d.settled = true → d.protocolVersion ≠ kUnknownProtoVersion ∧
      ∃ state, Event.received kMsgVerack state ∈ log ++ [.sent header m] := fun hd =>
    (h.settled hd).imp_right fun hd => hd.imp fun state hstate => List.mem_append_left _ hstate
  have hblank := versionsSent_blank h.blank hfits header
  have hlength := versionsSent_length log header m
  have hversions := h.versions
  cases hdrop : d.due.dropWhile (· ≠ m.command) with
  | nil =>
    simp only [hdrop, Option.ite_none_right_eq_some, Option.some.injEq] at hnext
    obtain ⟨⟨hset, hcommand⟩, rfl⟩ := hnext
    have hne : m.command ≠ kMsgVersion := by
      rcases hcommand with hcommand | hcommand <;> rw [hcommand] <;> decide
    refine ⟨h.isInbound, htold, hsettled, fun c hc => (h.due c hc).mono _,
      sent_concat h.sent ?_, ?_, hblank⟩
    · rintro header' m' heq
      cases heq
      obtain ⟨hpv, hstate⟩ := h.settled hset
      exact Or.inr ⟨h.told hpv, Or.inr hstate⟩
    · rw [hlength, if_neg hne]
      exact hversions
  | cons c due =>
    obtain ⟨rfl, hsuffix⟩ := dropWhile_eq_cons hdrop
    simp only [hdrop, Option.some.injEq] at hnext
    subst hnext
    refine ⟨h.isInbound, htold, hsettled, ?_, sent_concat h.sent ?_, ?_, hblank⟩
    · intro c hc
      exact (h.due c (hsuffix.subset (List.mem_cons_of_mem _ hc))).mono _
    · rintro header' m' heq
      cases heq
      exact h.due _ (hsuffix.subset List.mem_cons_self)
    · have hcount := hsuffix.sublist.count_le kMsgVersion
      rw [hlength]
      rw [List.count_cons] at hcount
      simp only [beq_iff_eq] at hcount
      simp only
      omega

end Steps

theorem ordered_of_after {log : List Event} {d : Dialogue} (h : after n log = some d) :
    Ordered n log d := by
  induction log using List.reverseRecOn generalizing d with
  | nil =>
    obtain rfl : begun n = d := Option.some.inj h
    refine ⟨rfl, fun hd => absurd rfl hd, fun hd => by simp [begun] at hd, ?_, ?_, ?_, ?_⟩
    · intro c hc
      cases hin : n.isInbound with
      | true => simp [begun, hin] at hc
      | false => exact Or.inl ⟨hin, by simpa [begun, hin] using hc⟩
    · simp
    · cases hin : n.isInbound <;> simp [begun, hin, versionsSent, kUnknownProtoVersion]
    · simp [versionsSent]
  | append_singleton log e ih =>
    rw [after_concat, Option.bind_eq_some_iff] at h
    obtain ⟨d₀, hbefore, hnext⟩ := h
    have hordered := ih hbefore
    cases e with
    | received command state => exact hordered.received hnext
    | versionAccepted v => exact hordered.versionAccepted hnext
    | sent header m => exact hordered.sends hnext
    | _ =>
      cases hnext
      exact hordered.unseen (by simp)

/-- In every run, a node tells its version once at most, and that version is not valid: it offers
no services. An inbound node says nothing before it has accepted the version of its peer; what goes
beyond the greetings comes after a verack. -/
theorem greetings_ordered {env : Env} {s s' : State} (hnew : New n)
    (hopened : s.peer.work = opened env n) (hrun : Run Next Honest s s') :
    (versionsSent s'.peer.work.log).length ≤ 1 ∧
    (∀ header v, .sent header (.version v) ∈ s'.peer.work.log → Version.isValid v = false) ∧
    ∀ l₁ header m l₂, s'.peer.work.log = l₁ ++ .sent header m :: l₂ →
      Preceded n l₁ m.command := by
  obtain ⟨-, -, d, hd, -⟩ := run_keeps (hopened ▸ opened_keeps env hnew) hrun
  have hordered := ordered_of_after hd
  refine ⟨?_, ?_, hordered.sent⟩
  · have := hordered.versions
    omega
  · intro header v hv
    have hzero := hordered.blank v (List.mem_filterMap.mpr ⟨_, hv, rfl⟩)
    simp [Version.isValid, hzero]

/-- What an outbound node has told once a version and a verack are handled. -/
theorem greetings_ordered_outbound :
    ∃ s, Run Next Honest outboundStart s ∧ (versionsSent s.peer.work.log).length = 1 ∧
      (∀ header v, .sent header (.version v) ∈ s.peer.work.log → Version.isValid v = false) ∧
      ∀ l₁ header m l₂, s.peer.work.log = l₁ ++ .sent header m :: l₂ →
        Preceded outboundNode l₁ m.command := by
  have hversions : (versionsSent outboundEnd.peer.work.log).length = 1 := by
    decide +kernel
  obtain ⟨-, hinvalid, hpreceded⟩ :=
    greetings_ordered outboundNode_new outboundStart_opened outboundEnd_run
  exact ⟨outboundEnd, outboundEnd_run, hversions, hinvalid, hpreceded⟩

end Order

end Dialogues
