import Btclite.Network.Lifecycle

/-!
# The handshake

What every session keeps: messages other than version and verack are handled
only while the connection is established, that happens only once a version is
accepted, and a version is accepted once. Peers keep it with their sessions.
-/

namespace Handshake

open Serialize Messages Nodes Handlers Sessions MsgProcess Lifecycle Runs

def accepted? : Event → Option U32
  | .versionAccepted v => some v
  | _ => none

/-- The versions that `Version::RecvHandler` accepted. -/
def accepted (log : List Event) : List U32 := log.filterMap accepted?

theorem accepted_session (w : Work) : accepted (session w).trace = accepted w.log := by
  rw [accepted, session, List.filterMap_filter]
  congr 1
  funext e
  cases e <;> rfl

/-- What is handled, and in which state of the connection. -/
def Gated (e : Event) : Prop :=
  ∀ command state, e = .received command state →
    command = kMsgVersion ∨ command = kMsgVerack ∨ state = .kEstablished

structure Sound (s : Session) : Prop where
  gated : ∀ e ∈ s.trace, Gated e
  once : (s.protocolVersion = kUnknownProtoVersion ∧ accepted s.trace = []) ∨
    (kMinPeerProtoVersion ≤ s.protocolVersion ∧ accepted s.trace = [s.protocolVersion])
  ordered : ∀ l₁ l₂, s.trace = l₁ ++ .stateSet .kEstablished :: l₂ → accepted l₁ ≠ []
  established : s.state = .kEstablished → s.protocolVersion ≠ kUnknownProtoVersion

section Trace

variable {s : Session} {e : Event}

theorem gated_note (h : ∀ e ∈ s.trace, Gated e) (he : Gated e) :
    ∀ e' ∈ (s.note e).trace, Gated e' := by
  intro e' he'
  rcases List.mem_append.mp he' with h' | h'
  · exact h e' h'
  · exact List.mem_singleton.mp h' ▸ he

theorem ordered_note
    (h : ∀ l₁ l₂, s.trace = l₁ ++ .stateSet .kEstablished :: l₂ → accepted l₁ ≠ [])
    (he : e = .stateSet .kEstablished → accepted s.trace ≠ []) :
    ∀ l₁ l₂, (s.note e).trace = l₁ ++ .stateSet .kEstablished :: l₂ → accepted l₁ ≠ [] := by
  intro l₁ l₂ hsplit
  rcases List.eq_nil_or_concat l₂ with rfl | ⟨l₂, e', rfl⟩
  · rcases List.append_inj' hsplit rfl with ⟨rfl, he'⟩
    exact he (List.cons.inj he').1
  · have hsplit' : s.trace ++ [e] = (l₁ ++ .stateSet .kEstablished :: l₂) ++ [e'] := by
      simpa [Session.note] using hsplit
    exact h l₁ l₂ (List.append_inj' hsplit' rfl).1

theorem accepted_note (s : Session) (e : Event) :
    accepted (s.note e).trace = accepted s.trace ++ (accepted? e).toList := by
  cases h : accepted? e <;> simp [accepted, Session.note, h]

end Trace

/-- An action that neither is handled nor sets or accepts anything. -/
theorem Sound.note {s : Session} (h : Sound s) {e : Event} (hgated : Gated e)
    (haccepted : accepted? e = none) (hstate : e ≠ .stateSet .kEstablished) :
    Sound (s.note e) where
  gated := gated_note h.gated hgated
  once := by
    rw [accepted_note, haccepted, Option.toList_none, List.append_nil]
    exact h.once
  ordered := ordered_note h.ordered fun he => absurd he hstate
  established := h.established

theorem Sound.after {s : Session} (h : Sound s) {a : Action} (he : s.Enabled a) :
    Sound (s.after a) := by
  have hplain : ∀ {e : Event}, (∀ c st, e ≠ .received c st) → Gated e :=
    fun hne c st he => absurd he (hne c st)
  cases a with
  | dispatch header payload => exact h.note (hplain (by simp)) rfl (by simp)
  | refuse command => exact h.note (hplain (by simp)) rfl (by simp)
  | receive command =>
    refine h.note ?_ rfl (by simp)
    rintro c st heq
    cases heq
    rcases he with hversion | ⟨-, hverack | hest⟩
    · exact Or.inl hversion
    · exact Or.inr (Or.inl hverack)
    · exact Or.inr (Or.inr hest)
  | disconnect =>
    have hnote := h.note (e := .stateSet .kDisconnected) (hplain (by simp)) rfl (by simp)
    exact ⟨hnote.gated, hnote.once, hnote.ordered, by simp [Session.after]⟩
  | accept v =>
    rcases he with ⟨hzero, hmin⟩
    have hnone : accepted s.trace = [] := by
      rcases h.once with ⟨-, hnone⟩ | ⟨hlow, -⟩
      · exact hnone
      · rw [hzero] at hlow
        exact absurd hlow (by decide)
    have hgated : Gated (.versionAccepted v) := hplain (by simp)
    constructor
    · exact gated_note h.gated hgated
    · right
      refine ⟨hmin, ?_⟩
      change accepted (s.note _).trace = _
      rw [accepted_note, hnone]
      rfl
    · exact ordered_note h.ordered (by simp)
    · rintro - hv
      have hv' : v = 0 := hv
      rw [hv'] at hmin
      exact absurd hmin (by decide)
  | establish =>
    have hsome : accepted s.trace ≠ [] := by
      rcases h.once with ⟨hzero, -⟩ | ⟨-, hone⟩
      · exact absurd hzero he
      · simp [hone]
    have hnote : accepted (s.note (.stateSet .kEstablished)).trace = accepted s.trace := by
      rw [accepted_note]
      simp [accepted?]
    have hgated : Gated (.stateSet .kEstablished) := hplain (by simp)
    constructor
    · exact gated_note h.gated hgated
    · change _ ∧ accepted (s.note (.stateSet .kEstablished)).trace = _ ∨
        _ ∧ accepted (s.note (.stateSet .kEstablished)).trace = _
      rw [hnote]
      exact h.once
    · exact ordered_note h.ordered fun _ => hsome
    · exact fun _ => he

/-- A node that has just been made. -/
structure Fresh (s : State) : Prop where
  protocolVersion : s.peer.work.node.protocolVersion = kUnknownProtoVersion
  state : s.peer.work.node.connection.connectionState = .kInitialState
  log : s.peer.work.log = []

theorem Fresh.sound {s : State} (h : Fresh s) : Sound (session s.peer.work) where
  gated := by simp [session, h.log]
  once := by simp [session, h.log, h.protocolVersion, accepted]
  ordered := by simp [session, h.log]
  established := by simp [session, h.state]

/-- A run of a peer is one of its session. -/
theorem run_reaches {s s' : State} (h : Run Next Any s s') :
    Reaches (fun _ _ => True) (session s.peer.work) (session s'.peer.work) := by
  refine Run.simulates (f := fun s : State => session s.peer.work) ?_ h
  intro s a s' hC hnext
  exact step_reaches ⟨fun _ _ => trivial, fun _ => trivial, fun _ _ => trivial⟩
    (fun _ _ _ => trivial) (fun _ _ _ _ _ _ _ _ _ _ => trivial) (fun _ _ _ => trivial) hC hnext

theorem run_sound {s s' : State} (hs : Sound (session s.peer.work)) (h : Run Next Any s s') :
    Sound (session s'.peer.work) :=
  Run.preserves (fun _ _ _ hs _ ⟨he, heq⟩ => heq ▸ hs.after he) (run_reaches h) hs

/-- From a fresh node, over any run: which messages are handled in which state, what comes
before the connection is established, and that one version is accepted and kept. -/
theorem handshake_safe {s s' s'' : State} (hfresh : Fresh s) (hrun : Run Next Any s s')
    (hlater : Run Next Any s' s'') :
    (∀ command state, .received command state ∈ s'.peer.work.log →
      command = kMsgVersion ∨ command = kMsgVerack ∨ state = .kEstablished) ∧
    (∀ l₁ l₂, s'.peer.work.log = l₁ ++ .stateSet .kEstablished :: l₂ →
      accepted l₁ = [s'.peer.work.node.protocolVersion] ∧
        kMinPeerProtoVersion ≤ s'.peer.work.node.protocolVersion) ∧
    (s'.peer.work.node.connection.connectionState = .kEstablished →
      accepted s'.peer.work.log = [s'.peer.work.node.protocolVersion] ∧
        kMinPeerProtoVersion ≤ s'.peer.work.node.protocolVersion) ∧
    (accepted s'.peer.work.log).length ≤ 1 ∧
    (accepted s'.peer.work.log ≠ [] →
      accepted s''.peer.work.log = accepted s'.peer.work.log ∧
        s''.peer.work.node.protocolVersion = s'.peer.work.node.protocolVersion) := by
  have hsound := run_sound hfresh.sound hrun
  have hsound' := run_sound hsound hlater
  have hone : accepted s'.peer.work.log ≠ [] →
      accepted s'.peer.work.log = [s'.peer.work.node.protocolVersion] ∧
        kMinPeerProtoVersion ≤ s'.peer.work.node.protocolVersion := by
    intro hne
    rw [← accepted_session] at hne ⊢
    rcases hsound.once with ⟨-, hnone⟩ | ⟨hmin, hone⟩
    · exact absurd hnone hne
    · exact ⟨hone, hmin⟩
  refine ⟨?_, ?_, ?_, ?_, ?_⟩
  · intro command state hmem
    refine hsound.gated (.received command state) ?_ command state rfl
    exact List.mem_filter.mpr ⟨hmem, rfl⟩
  · intro l₁ l₂ hsplit
    have htrace : (session s'.peer.work).trace = l₁.filter (fun e => !e.isPlain) ++
        .stateSet .kEstablished :: l₂.filter (fun e => !e.isPlain) := by
      simp [session, hsplit, Event.isPlain]
    have hbefore : accepted l₁ ≠ [] := by
      rw [← accepted_session ⟨s'.peer.work.node, l₁⟩]
      exact hsound.ordered _ _ htrace
    have hall : accepted s'.peer.work.log ≠ [] := by
      rw [hsplit, accepted, List.filterMap_append]
      exact fun hnil => hbefore (List.append_eq_nil_iff.mp hnil).1
    rcases hone hall with ⟨hlist, hmin⟩
    refine ⟨?_, hmin⟩
    rw [hsplit, accepted, List.filterMap_append] at hlist
    rcases List.append_eq_singleton_iff.mp hlist with ⟨hnil, -⟩ | ⟨hlist, -⟩
    · exact absurd hnil hbefore
    · exact hlist
  · intro hest
    apply hone
    have hsome := hsound.established hest
    rw [← accepted_session]
    rcases hsound.once with ⟨hzero, -⟩ | ⟨-, hone⟩
    · exact absurd hzero hsome
    · simp [hone]
  · rw [← accepted_session]
    rcases hsound.once with ⟨-, hnone⟩ | ⟨-, hone⟩
    · simp [hnone]
    · simp [hone]
  · intro hne
    have hgrows : accepted s'.peer.work.log <+: accepted s''.peer.work.log := by
      rw [← accepted_session, ← accepted_session s''.peer.work]
      exact (run_reaches hlater).frame.2.2.2.filterMap _
    rcases hone hne with ⟨hlist, -⟩
    rw [hlist] at hgrows ⊢
    rcases hsound'.once with ⟨-, hnone⟩ | ⟨-, hone'⟩
    · rw [← accepted_session s''.peer.work, hnone] at hgrows
      simp at hgrows
    · rw [accepted_session] at hone'
      rw [hone'] at hgrows ⊢
      have hsame : s'.peer.work.node.protocolVersion = (session s''.peer.work).protocolVersion := by
        simpa using hgrows
      exact ⟨by rw [hsame], hsame.symm⟩

section Outbound

def outboundAddr : Address.NetAddr where
  services := 9
  ip := ⟨[0, 0, 0, 0, 0, 0, 0, 0, 0, 0, 0xff, 0xff, 1, 2, 3, 4], rfl⟩
  protoPort := 18333

def versionMessage (protocolVersion : U32) : Message :=
  .version
    { protocolVersion
      services := 9
      timestamp := 1700000000
      addrRecv := outboundAddr
      nonce := 5 }

/-- SHA-256 on what is received and sent here. -/
def outboundEnv : Env := .hashing
  [((versionMessage 209).serialize,
      hashOf 0x1b4b23d37eb47cff61fa381a214da506eb811bda7032d903d1f9bb44c0b62007),
    ((versionMessage 60002).serialize,
      hashOf 0xbfdd501e5a00980e788fc8308e37c3ef81767c075f782db08e33a722c245cb3c),
    ([], hashOf 0xe3b0c44298fc1c149afbf4c8996fb92427ae41e4649b934ca495991b7852b855),
    (Message.serialize (.pong { nonce := 1 }),
      hashOf 0x7c9fa136d4413fa6173637e883b6998d32e1d675f88cddff9dcbcf331820f4b8)]

/-- A fresh outbound node with these messages in its buffer. -/
def outboundPeer (ms : List Message) : Peer where
  work := ⟨initializeNode 2 outboundAddr false false 9, []⟩
  input := ms.flatMap fun m => (headerOf outboundEnv m).serialize ++ m.serialize

theorem handshake_safe_outbound :
    ∃ p, Run Next Any ⟨outboundPeer [versionMessage 60002, .verack], 0⟩ ⟨p, 0⟩ ∧
      p.work.node.connection.connectionState = .kEstablished ∧
      accepted p.work.log = [p.work.node.protocolVersion] ∧
      kMinPeerProtoVersion ≤ p.work.node.protocolVersion := by
  have hstate : (parseMsg (fun _ => outboundEnv)
      (outboundPeer [versionMessage 60002, .verack])).2.work.node.connection.connectionState =
        .kEstablished := by
    decide +kernel
  have hrun := parseMsg_run (C := Any) (fun _ _ => trivial) (fun _ => trivial)
    (fun _ => outboundEnv) (outboundPeer [versionMessage 60002, .verack])
  generalize (parseMsg (fun _ => outboundEnv)
    (outboundPeer [versionMessage 60002, .verack])).2 = p at hstate hrun
  have hfresh : Fresh ⟨outboundPeer [versionMessage 60002, .verack], 0⟩ := ⟨rfl, rfl, rfl⟩
  have hsafe := handshake_safe hfresh hrun .refl
  exact ⟨p, hrun, hstate, hsafe.2.2.1 hstate⟩

end Outbound

end Handshake
