import Btclite.Network.Handshake

/-!
# Disconnection

A disconnected peer should stay so and have no more messages handled. `ParseMsg`
asks for the connection state before its loop and not in it, and the handler of
verack writes the state without asking. So it holds of runs in which no pass
finds a disconnected node and, in front of the buffer, one of the messages the
gate lets in all the same.
-/

namespace Disconnection

open Serialize Messages Nodes Handlers Sessions MsgProcess Lifecycle Handshake Runs

def handled? : Event → Option (List Endian.Byte)
  | .received command _ => some command
  | _ => none

/-- The commands whose `RecvHandler` has run. -/
def handled (log : List Event) : List (List Endian.Byte) := log.filterMap handled?

theorem handled_of_plain (e : Event) (h : e.isPlain = true) : handled? e = none := by
  cases e with
  | received command state => cases h
  | _ => rfl

theorem handled_session (w : Work) : handled (session w).trace = handled w.log :=
  filterMap_session handled_of_plain w

theorem handled_note (s : Session) (e : Event) :
    handled (s.note e).trace = handled s.trace ++ (handled? e).toList :=
  filterMap_note handled? s e

/-- What may still be noted of a disconnected peer. -/
def Final (e : Event) : Prop :=
  handled? e = none ∧ ∀ state, e = .stateSet state → state = .kDisconnected

theorem final_of_plain {e : Event} (h : e.isPlain = true) : Final e := by
  cases e with
  | stateSet state => exact absurd h (by simp [Event.isPlain])
  | received command state => exact absurd h (by simp [Event.isPlain])
  | _ => exact ⟨rfl, by simp⟩

/-- The discipline under which a disconnection is final. -/
def Quieted (s : Session) (a : Action) : Prop := s.state = .kDisconnected → a.isQuiet = true

theorem quieted_permissive : Permissive Quieted :=
  ⟨fun _ _ _ => rfl, fun _ _ => rfl, fun _ _ _ => rfl⟩

structure Settled (s : Session) : Prop where
  closed : .stateSet .kDisconnected ∈ s.trace → s.state = .kDisconnected
  final : s.trace.Pairwise fun a b => a = .stateSet .kDisconnected → Final b

theorem Settled.note {s : Session} (h : Settled s) {e : Event}
    (he : s.state = .kDisconnected → Final e) :
    (s.note e).trace.Pairwise fun a b => a = .stateSet .kDisconnected → Final b := by
  refine List.pairwise_append.mpr ⟨h.final, List.pairwise_singleton _ _, ?_⟩
  rintro a ha b hb rfl
  rw [List.mem_singleton.mp hb]
  exact he (h.closed ha)

theorem Settled.after {s : Session} (h : Settled s) {a : Action} (hq : Quieted s a) :
    Settled (s.after a) := by
  have hmem : ∀ {e : Event}, e ≠ .stateSet .kDisconnected →
      .stateSet .kDisconnected ∈ (s.note e).trace → s.state = .kDisconnected := by
    intro e hne hin
    rcases List.mem_append.mp hin with hin | hin
    · exact h.closed hin
    · exact absurd (List.mem_singleton.mp hin).symm hne
  cases a with
  | dispatch header payload => exact ⟨hmem (by simp), h.note fun _ => ⟨rfl, by simp⟩⟩
  | refuse command => exact ⟨hmem (by simp), h.note fun _ => ⟨rfl, by simp⟩⟩
  | receive command =>
    exact ⟨hmem (by simp), h.note fun hs => absurd (hq hs) (by simp [Action.isQuiet])⟩
  | disconnect => exact ⟨fun _ => rfl, h.note fun _ => ⟨rfl, by simp⟩⟩
  | accept v => exact ⟨hmem (by simp), h.note fun _ => ⟨rfl, by simp⟩⟩
  | establish =>
    have hopen : s.state ≠ .kDisconnected := fun hs => absurd (hq hs) (by simp [Action.isQuiet])
    refine ⟨fun hin => absurd (hmem (by simp) hin) hopen, h.note fun hs => absurd hs hopen⟩

/-- On a disconnected node, the buffer starts with a message that is handled all the same:
well framed, decoded, valid and with the right checksum, and either a version message or,
once a version was accepted, a verack. -/
def Intrudes (env : Env) (p : Peer) : Prop :=
  p.work.node.isDisconnected = true ∧ ∃ raw payload rest m source,
    evbufferPullup p.input MessageHeader.kSize = some raw ∧ Front env raw p payload rest ∧
    decoded env (headerOfRaw env.memory raw) payload p.work.node = some (.ok m source) ∧
    (headerOfRaw env.memory raw).checksum = checksum env m.serialize ∧ m.isValid = true ∧
    (m.command = kMsgVersion ∨
      m.command = kMsgVerack ∧ p.work.node.protocolVersion ≠ kUnknownProtoVersion)

/-- No pass meets such a message. -/
def Unintruded (s : State) : Act → Prop
  | .pass env => ¬ Intrudes env s.peer
  | _ => True

theorem step_quieted {s s' : State} {a : Act} (hC : Unintruded s a) (h : Next s a s') :
    Reaches Quieted (session s.peer.work) (session s'.peer.work) := by
  refine step_reaches quieted_permissive (fun _ _ _ _ => rfl) ?_ (fun _ _ h => h) hC h
  rintro s env raw payload rest m hC hraw hfront ⟨source, hdecoded, hsum, hvalid, hgate⟩ hstate
  have hdown : (session s.peer.work).state = .kDisconnected := hstate
  refine absurd ⟨?_, raw, payload, rest, m, source, hraw, hfront, hdecoded, hsum, hvalid, ?_⟩ hC
  · simpa [Node.isDisconnected, NodeConnection.isDisconnected, session] using hdown
  · rcases (checkMisbehaving_iff m.command s.peer.work).mp hgate with hv | ⟨hpv, hv | hest⟩
    · exact Or.inl hv
    · exact Or.inr ⟨hv, hpv⟩
    · rw [hdown] at hest
      cases hest

theorem run_quieted {s s' : State} (h : Run Next Unintruded s s') :
    Reaches Quieted (session s.peer.work) (session s'.peer.work) :=
  Run.simulates (f := fun s : State => session s.peer.work)
    (fun _ _ _ hC hnext => step_quieted hC hnext) h

/-- A disconnected session stays disconnected and nothing more is handled. -/
theorem disconnected_final {s s' : Session} (h : Reaches Quieted s s')
    (hs : s.state = .kDisconnected) :
    s'.state = .kDisconnected ∧ handled s'.trace = handled s.trace := by
  refine Run.preserves (P := fun t => t.state = .kDisconnected ∧ handled t.trace = handled s.trace)
    ?_ h ⟨hs, rfl⟩
  rintro t a _ ⟨hstate, hhandled⟩ hq ⟨-, rfl⟩
  have hquiet := hq hstate
  have hnote : ∀ e, handled? e = none → handled (t.note e).trace = handled s.trace := by
    intro e he
    rw [handled_note, he, hhandled]
    simp
  cases a with
  | dispatch header payload => exact ⟨hstate, hnote _ rfl⟩
  | refuse command => exact ⟨hstate, hnote _ rfl⟩
  | receive command => exact absurd hquiet (by simp [Action.isQuiet])
  | disconnect => exact ⟨rfl, hnote _ rfl⟩
  | accept v => exact ⟨hstate, hnote _ rfl⟩
  | establish => exact absurd hquiet (by simp [Action.isQuiet])

/-- In every run whose passes meet no such message, a disconnection is final: the state
stays, and neither in a later step nor later in the same one is a message handled. -/
theorem disconnection_final {s s' : State} (hrun : Run Next Unintruded s s') :
    (s.peer.work.node.isDisconnected = true →
      s'.peer.work.node.isDisconnected = true ∧
        handled s'.peer.work.log = handled s.peer.work.log) ∧
    (s.peer.work.log = [] →
      s'.peer.work.log.Pairwise fun a b => a = .stateSet .kDisconnected → Final b) := by
  have hreach := run_quieted hrun
  constructor
  · intro hdown
    rcases disconnected_final hreach ((isDisconnected_iff _).mp hdown) with ⟨hstate, hhandled⟩
    rw [handled_session, handled_session] at hhandled
    exact ⟨(isDisconnected_iff _).mpr hstate, hhandled⟩
  · intro hlog
    have hsettled : Settled (session s'.peer.work) := by
      refine Run.preserves (fun _ _ _ ht hq ⟨_, heq⟩ => heq ▸ ht.after hq) hreach ?_
      constructor <;> simp [session, hlog]
    -- events the session does not keep neither disconnect nor are ruled out
    refine (List.pairwise_filter.mp hsettled.final).imp ?_
    rintro a b hab rfl
    by_cases hb : b.isPlain = true
    · exact final_of_plain hb
    · exact hab rfl (by simpa using hb) rfl

/-- A message that is delivered is handled. -/
theorem delivers_handled {env : Env} {header : MessageHeader} {raw : List Endian.Byte} {w : Work}
    {m : Message} (h : Delivers env header raw w m) :
    handled w.log ++ [m.command] <+: handled (parseMsgData env header raw w).2.log := by
  rcases h with ⟨s, hdecoded, hadmitted⟩
  rcases parseMsgData_cases env header raw w with
    ⟨w₁, hnode, hsession, ⟨hd, -⟩ | ⟨failure, s', hd, -⟩ | ⟨m', s', hd, hrun⟩⟩
  · rw [hdecoded] at hd
    cases hd
  · rw [hdecoded] at hd
    cases hd
  rw [hdecoded] at hd
  cases hd
  have hlet := (checkMisbehaving_iff m.command w).mp hadmitted.2.2
  have hadmitted₁ : Admitted env header m w₁ := by rwa [Admitted, hnode]
  have hreceived : session (emit (.received m.command w₁.node.connection.connectionState) w₁).2 =
      ((session w).after (.dispatch header raw)).after (.receive m.command) := by
    rw [← hsession]
    exact emit_session _ w₁
  have hgrows := (recvHandler_reaches (D := fun _ _ => True) (fun _ => trivial)
    (fun _ _ => trivial) env m
    (emit (.received m.command w₁.node.connection.connectionState) w₁).2
    (by rw [hreceived]; exact hlet) fun _ => trivial).frame.2.2.2
  have hstart : handled w.log ++ [m.command] = handled (session
      (emit (.received m.command w₁.node.connection.connectionState) w₁).2).trace := by
    rw [hreceived]
    simp [Session.after, handled_note, handled_session, handled?]
  rw [hrun, handleMsgData_of_admitted hadmitted₁, hstart, ← handled_session]
  exact hgrows.filterMap _

/-- The condition leaves out nothing else: such a message is handled. -/
theorem intrusion_handled {env : Env} {p : Peer} (h : Intrudes env p) :
    ∃ raw m, evbufferPullup p.input MessageHeader.kSize = some raw ∧
      handled p.work.log ++ [Message.command m] <+:
        handled (parseMsgPass env raw p).2.work.log := by
  rcases h with
    ⟨-, raw, payload, rest, m, source, hraw, hfront, hdecoded, hsum, hvalid, hgate⟩
  have hlet : (session p.work).LetsIn m.command := by
    rcases hgate with h | ⟨h, hpv⟩
    · exact Or.inl h
    · exact Or.inr ⟨hpv, Or.inl h⟩
  have hdelivers : Delivers env (headerOfRaw env.memory raw) payload p.work m :=
    ⟨source, hdecoded, hsum, hvalid, (checkMisbehaving_iff m.command p.work).mpr hlet⟩
  have hhandled := delivers_handled hdelivers
  refine ⟨raw, m, hraw, ?_⟩
  rw [parseMsgPass_front hfront]
  rcases hresult : parseMsgData env (headerOfRaw env.memory raw) payload p.work with
    ⟨_ | _, w'⟩ <;> rw [hresult] at hhandled <;> exact hhandled

/-- An obsolete version is received while the connection is up, and disconnects it. -/
theorem disconnection_final_obsolete :
    ∃ s, Run Next Unintruded ⟨outboundPeer [versionMessage 209], 1⟩ s ∧
      s.peer.work.node.isDisconnected = true ∧
      s.peer.work.log.Pairwise fun a b => a = .stateSet .kDisconnected → Final b := by
  have hpass : (step ⟨outboundPeer [versionMessage 209], 1⟩ (.pass outboundEnv)).map
      (fun s => s.peer.work.node.isDisconnected) = some true := by
    decide +kernel
  rcases Option.map_eq_some_iff.mp hpass with ⟨s, hnext, hdown⟩
  have hup : ¬ Intrudes outboundEnv (outboundPeer [versionMessage 209]) := by
    rintro ⟨h, -⟩
    exact absurd h (by decide)
  have hrun : Run Next Unintruded ⟨outboundPeer [versionMessage 209], 1⟩ s :=
    Run.single (a := .pass outboundEnv) hup hnext
  exact ⟨s, hrun, hdown, (disconnection_final hrun).2 rfl⟩

def noted : Event → Bool
  | .received _ _ | .stateSet _ => true
  | _ => false

/-- Behind it in the same buffer, a second version and a verack are handled all the same,
and the connection is established. -/
theorem established_after_disconnection :
    Run Next Any
        ⟨outboundPeer [versionMessage 209, versionMessage 60002, .verack], 0⟩
        ⟨(parseMsg (fun _ => outboundEnv)
          (outboundPeer [versionMessage 209, versionMessage 60002, .verack])).2, 0⟩ ∧
      (parseMsg (fun _ => outboundEnv) (outboundPeer
        [versionMessage 209, versionMessage 60002, .verack])).2.work.log.filter noted =
          [.received kMsgVersion .kInitialState, .stateSet .kDisconnected,
            .received kMsgVersion .kDisconnected, .received kMsgVerack .kDisconnected,
            .stateSet .kEstablished] := by
  refine ⟨parseMsg_run (fun _ _ => trivial) (fun _ => trivial) _ _, ?_⟩
  decide +kernel

end Disconnection
