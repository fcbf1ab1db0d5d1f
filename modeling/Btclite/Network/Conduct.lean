import Btclite.Network.Lifecycle

/-!
# Conduct

How a peer stands with us: its misbehaviour, the pong it owes, its address and
whether it was connected by hand. Handlers leave that alone but for two things:
a message out of turn or a second version costs a point, and a pong settles the
ping it answers. So it is told exactly what a pass over the buffer does to it.
-/

namespace Conduct

open Serialize Address Messages Nodes Handlers MsgProcess Lifecycle Effects

structure Standing where
  misbehavior : Misbehavior
  pingNonceSent : U64
  addr : NetAddr
  manual : Bool

def standing (w : Work) : Standing where
  misbehavior := w.node.misbehavior
  pingNonceSent := w.node.pingNonceSent
  addr := w.node.connection.addr
  manual := w.node.connection.manual

abbrev Steady (w w' : Work) : Prop := standing w' = standing w

instance : Std.Refl Steady := ⟨fun _ => rfl⟩

instance : IsTrans Work Steady := ⟨fun _ _ _ h h' => h'.trans h⟩

section Steps

theorem getNode_steady : Does Steady getNode := fun _ => rfl

theorem setNode_steady {f : Node → Node} (h : ∀ n log, standing ⟨f n, log⟩ = standing ⟨n, log⟩) :
    Does Steady (setNode f) := fun w => h w.node w.log

theorem emit_steady (e : Event) : Does Steady (emit e) := fun _ => rfl

theorem pure_steady {A : Type} (a : A) : Does Steady (pure a : Handler A) := Does.pure a

theorem ifThen_steady {c : Prop} [Decidable c] {m : Handler Unit} (hm : Does Steady m) :
    Does Steady (ifThen c m) :=
  Does.ite (fun _ => hm) fun _ => pure_steady ()

theorem disconnectNodeCb_steady (env : Env) : Does Steady (disconnectNodeCb env) := by
  refine Does.bind (setNode_steady fun _ _ => rfl) fun _ => ?_
  refine Does.bind getNode_steady fun node => ?_
  exact Does.bind (ifThen_steady (emit_steady _)) fun _ => emit_steady _

theorem setConnectionState_steady (env : Env) (state : ConnectionState) :
    Does Steady (setConnectionState env state) := by
  refine Does.bind (setNode_steady fun _ _ => rfl) fun _ => ?_
  refine Does.bind (emit_steady _) fun _ => ?_
  exact Does.bind getNode_steady fun node => ifThen_steady (disconnectNodeCb_steady env)

theorem disconnect_steady (env : Env) : Does Steady (disconnect env) :=
  setConnectionState_steady env .kDisconnected

theorem setLocalAddr_steady (addr : NetAddr) : Does Steady (setLocalAddr addr) := by
  refine setNode_steady fun n log => ?_
  by_cases h : n.connection.localAddr.isValid <;> simp [standing, h]

theorem sendMsg_steady (env : Env) (m : Message) : Does Steady (sendMsg env m) := by
  refine Does.bind getNode_steady fun node => ?_
  refine Does.ite (fun _ => pure_steady _) fun _ => ?_
  refine Does.bind (setNode_steady fun _ _ => rfl) fun _ => ?_
  refine Does.ite (fun _ => pure_steady _) fun _ => ?_
  refine Does.ite (fun _ => pure_steady _) fun _ => ?_
  refine Does.bind (emit_steady _) fun _ => ?_
  exact Does.bind (setNode_steady fun _ _ => rfl) fun _ => pure_steady _

theorem sends_steady (env : Env) (m : Message) :
    Does Steady (do let _ ← sendMsg env m; pure () : Handler Unit) :=
  Does.bind (sendMsg_steady env m) fun _ => pure_steady ()

end Steps

section Receiving

theorem greet_steady (env : Env) (v : Version) : Does Steady (greet env v) := by
  refine Does.bind (emit_steady _) fun _ => ?_
  refine Does.bind getNode_steady fun node => ?_
  refine Does.bind (Does.ite (fun _ => ?_) fun _ => pure_steady _) fun _ => ?_
  · exact Does.bind getNode_steady fun _ => sendMsg_steady env _
  refine Does.bind (sendMsg_steady env _) fun _ => ?_
  refine Does.bind (setNode_steady fun _ _ => rfl) fun _ => ?_
  exact Does.bind (setLocalAddr_steady _) fun _ => setNode_steady fun _ _ => rfl

theorem introduce_steady (env : Env) (v : Version) : Does Steady (introduce env v) := by
  refine Does.bind (ifThen_steady (setNode_steady fun _ _ => rfl)) fun _ => ?_
  refine Does.bind getNode_steady fun node => ?_
  refine Does.bind (ifThen_steady ?_) fun _ => emit_steady _
  refine Does.bind (ifThen_steady (emit_steady _)) fun _ => ?_
  refine Does.bind (ifThen_steady ?_) fun _ => ifThen_steady (emit_steady _)
  exact Does.bind (sendMsg_steady env _) fun _ => setNode_steady fun _ _ => rfl

theorem accept_steady (env : Env) (v : Version) : Does Steady (accept env v) := by
  refine Does.bind (greet_steady env v) fun _ => ?_
  exact Does.bind (setNode_steady fun _ _ => rfl) fun _ => introduce_steady env v

/-- A first version, accepted or not. -/
theorem versionRecvHandler_steady (env : Env) (v : Version) {w : Work}
    (hv : w.node.protocolVersion = 0) : Steady w (versionRecvHandler env v w).2 := by
  change Steady w ((if w.node.protocolVersion ≠ 0 then _ else _ : Handler Bool) w).2
  rw [if_neg (not_not.mpr hv)]
  refine Does.bind (ifThen_steady (emit_steady _)) (fun _ => ?_) w
  refine Does.ite (fun _ => ?_) fun _ => Does.ite (fun _ => ?_) fun _ =>
    Does.ite (fun _ => ?_) fun _ => Does.ite (fun _ => ?_) fun _ => ?_
  · exact Does.bind (disconnect_steady env) fun _ => pure_steady _
  · exact Does.bind (disconnect_steady env) fun _ => pure_steady _
  · exact Does.bind (disconnect_steady env) fun _ => pure_steady _
  · exact Does.bind (disconnect_steady env) fun _ => pure_steady _
  · exact Does.bind (accept_steady env v) fun _ => pure_steady _

theorem negotiate_steady (env : Env) : Does Steady (negotiate env) := by
  refine Does.bind getNode_steady fun node => ?_
  refine Does.bind (ifThen_steady (sends_steady env _)) fun _ => ifThen_steady ?_
  exact Does.bind (ifThen_steady (sends_steady env _)) fun _ => sends_steady env _

theorem settle_steady (env : Env) : Does Steady (settle env) := by
  refine Does.bind getNode_steady fun node => ?_
  refine Does.bind (sendMsg_steady env _) fun _ => ?_
  refine Does.bind (setNode_steady fun _ _ => rfl) fun _ => ?_
  refine Does.bind (ifThen_steady ?_) fun _ => setNode_steady fun _ _ => rfl
  exact Does.bind (emit_steady _) fun _ => setNode_steady fun _ _ => rfl

theorem verackRecvHandler_steady (env : Env) : Does Steady (verackRecvHandler env) := by
  refine Does.bind (negotiate_steady env) fun _ => ?_
  refine Does.bind (setConnectionState_steady env _) fun _ => ?_
  exact Does.bind (settle_steady env) fun _ => pure_steady true

theorem pingRecvHandler_steady (env : Env) (m : Ping) : Does Steady (pingRecvHandler env m) := by
  refine Does.bind getNode_steady fun node => ?_
  exact Does.bind (ifThen_steady (sends_steady env _)) fun _ => pure_steady true

end Receiving

/-- One more point of misbehaviour. -/
def charged (b : Misbehavior) : Misbehavior where
  shouldBan := if kDefaultBanscoreThreshold ≤ b.score + 1 ∧ b.score < kDefaultBanscoreThreshold
    then true else b.shouldBan
  score := b.score + 1

theorem misbehaving_standing (w : Work) : standing (misbehaving 1 w).2 =
    { standing w with misbehavior := charged w.node.misbehavior } := by
  have hback : w.node.misbehavior.score + 1 - 1 = w.node.misbehavior.score :=
    BitVec.add_sub_cancel _ _
  rw [misbehaving, ifThen, if_pos (by decide)]
  simp only [setNode, standing, charged, hback]

section Messages

/-- A message that is counted as misbehaviour: it comes out of turn, or is a second version. -/
def Offends (env : Env) (header : MessageHeader) (m : Message) (n : Node) : Prop :=
  header.checksum = checksum env m.serialize ∧ m.isValid = true ∧
    (checkMisbehaving m.command n = false ∨ (∃ v, m = .version v) ∧ n.protocolVersion ≠ 0)

/-- What becomes of a standing: charged or not, and perhaps no pong is owed any more. -/
structure Moves (offends : Prop) (w w' : Work) : Prop where
  charged : offends → w'.node.misbehavior = charged w.node.misbehavior
  spared : ¬ offends → w'.node.misbehavior = w.node.misbehavior
  addr : w'.node.connection.addr = w.node.connection.addr
  manual : w'.node.connection.manual = w.node.connection.manual
  ping : w'.node.pingNonceSent = w.node.pingNonceSent ∨ w'.node.pingNonceSent = 0

variable {offends : Prop} {w w' : Work}

theorem Moves.of_steady (h : Steady w w') (hno : ¬ offends) : Moves offends w w' := by
  simp only [Steady, standing, Standing.mk.injEq] at h
  obtain ⟨h1, h2, h3, h4⟩ := h
  exact ⟨fun ho => absurd ho hno, fun _ => h1, h3, h4, Or.inl h2⟩

theorem Moves.of_charged (h : standing w' =
    { standing w with misbehavior := Conduct.charged w.node.misbehavior }) (ho : offends) :
    Moves offends w w' := by
  simp only [standing, Standing.mk.injEq] at h
  obtain ⟨h1, h2, h3, h4⟩ := h
  exact ⟨fun _ => h1, fun hno => absurd ho hno, h3, h4, Or.inl h2⟩

theorem Moves.congr {o o' : Prop} (h : Moves o w w') (ho : o ↔ o') : Moves o' w w' :=
  ⟨fun h' => h.charged (ho.mpr h'), fun h' => h.spared fun h'' => h' (ho.mp h''), h.addr, h.manual,
    h.ping⟩

theorem Moves.of_node_eq {w₁ : Work} (h : Moves offends w₁ w') (hnode : w₁.node = w.node) :
    Moves offends w w' := by
  obtain ⟨h1, h2, h3, h4, h5⟩ := h
  rw [hnode] at h1 h2 h3 h4 h5
  exact ⟨h1, h2, h3, h4, h5⟩

theorem pongRecvHandler_moves (m : Pong) (w : Work) (hno : ¬ offends) :
    Moves offends w (pongRecvHandler m w).2 := by
  change Moves offends w ((if w.node.pingNonceSent = 0 then _ else _ : Handler Bool) w).2
  by_cases h0 : w.node.pingNonceSent = 0
  · rw [if_pos h0]
    exact Moves.of_steady rfl hno
  rw [if_neg h0]
  by_cases hn : w.node.pingNonceSent ≠ m.nonce
  · rw [if_pos hn]
    exact Moves.of_steady rfl hno
  · rw [if_neg hn]
    exact ⟨fun ho => absurd ho hno, fun _ => rfl, rfl, rfl, Or.inr rfl⟩

theorem recvHandler_moves (env : Env) (m : Message) (w : Work) :
    Moves ((∃ v, m = .version v) ∧ w.node.protocolVersion ≠ 0) w (recvHandler env m w).2 := by
  have hno : ∀ {m : Message}, (∀ v, m ≠ .version v) →
      ¬ ((∃ v, m = .version v) ∧ w.node.protocolVersion ≠ 0) := by
    rintro m hm ⟨⟨v, hv⟩, -⟩
    exact hm v hv
  cases m with
  | version v =>
    by_cases hv : w.node.protocolVersion = 0
    · exact Moves.of_steady (versionRecvHandler_steady env v hv) fun h => h.2 hv
    · refine Moves.of_charged ?_ ⟨⟨v, rfl⟩, hv⟩
      change standing ((if w.node.protocolVersion ≠ 0 then _ else _ : Handler Bool) w).2 = _
      rw [if_pos hv]
      exact misbehaving_standing w
  | verack => exact Moves.of_steady (verackRecvHandler_steady env w) (hno (by simp))
  | ping m => exact Moves.of_steady (pingRecvHandler_steady env m w) (hno (by simp))
  | pong m => exact pongRecvHandler_moves m w (hno (by simp))
  | addr m => exact Moves.of_steady rfl (hno (by simp))
  | inv m => exact Moves.of_steady rfl (hno (by simp))
  | getaddr => exact Moves.of_steady rfl (hno (by simp))
  | reject m => exact Moves.of_steady rfl (hno (by simp))
  | sendheaders => exact Moves.of_steady rfl (hno (by simp))
  | sendcmpct m => exact Moves.of_steady rfl (hno (by simp))

theorem handleMsgData_moves (env : Env) (header : MessageHeader) (m : Message) (w : Work) :
    Moves (Offends env header m w.node) w (handleMsgData env header m w).2 := by
  change Moves _ w ((if header.checksum ≠ checksum env m.serialize then _ else _ :
    Handler Bool) w).2
  by_cases h1 : header.checksum = checksum env m.serialize
  · rw [if_neg (not_not.mpr h1)]
    by_cases h2 : m.isValid = true
    · rw [if_neg (by simp [h2])]
      change Moves _ w ((if !checkMisbehaving m.command w.node then _ else _ : Handler Bool) w).2
      cases h3 : checkMisbehaving m.command w.node with
      | false => exact Moves.of_charged (misbehaving_standing w) ⟨h1, h2, Or.inl h3⟩
      | true =>
        have hoffends : (∃ v, m = .version v) ∧ w.node.protocolVersion ≠ 0 ↔
            Offends env header m w.node := by
          simp [Offends, h1, h2, h3]
        have hrecv := recvHandler_moves env m
          (emit (.received m.command w.node.connection.connectionState) w).2
        exact (Moves.of_node_eq (w := w) hrecv rfl).congr hoffends
    · rw [if_pos (by simpa using h2)]
      exact Moves.of_steady rfl fun h => h2 h.2.1
  · rw [if_pos h1]
    exact Moves.of_steady rfl fun h => h1 h.1

end Messages

section Passes

/-- The buffer starts with a message that is counted as misbehaviour. -/
def Misbehaves (env : Env) (raw : List Endian.Byte) (p : Peer) : Prop :=
  ∃ payload rest m source, Front env raw p payload rest ∧
    decoded env (headerOfRaw env.memory raw) payload p.work.node = some (.ok m source) ∧
    Offends env (headerOfRaw env.memory raw) m p.work.node

theorem parseMsgData_moves (env : Env) (header : MessageHeader) (raw : List Endian.Byte)
    (w : Work) :
    Moves (∃ m source, decoded env header raw w.node = some (.ok m source) ∧
      Offends env header m w.node) w (parseMsgData env header raw w).2 := by
  obtain ⟨w₁, hnode, -, hcases⟩ := parseMsgData_cases env header raw w
  have hsteady : Steady w w₁ := by
    simp only [Steady, standing, hnode]
  rcases hcases with ⟨hd, hrun⟩ | ⟨failure, s, hd, hrun⟩ | ⟨m, s, hd, hrun⟩
  · rw [hrun]
    apply Moves.of_steady hsteady
    rintro ⟨m, s, hsome, -⟩
    rw [hd] at hsome
    cases hsome
  · rw [hrun]
    apply Moves.of_steady hsteady
    rintro ⟨m, s, hsome, -⟩
    rw [hd] at hsome
    cases hsome
  · rw [hrun]
    refine ((handleMsgData_moves env header m w₁).of_node_eq hnode).congr ?_
    rw [hnode]
    constructor
    · intro h
      exact ⟨m, s, hd, h⟩
    · rintro ⟨m', s', hsome, h⟩
      rw [hd] at hsome
      cases hsome
      exact h

theorem parseMsgPass_moves (env : Env) (raw : List Endian.Byte) (p : Peer) :
    Moves (Misbehaves env raw p) p.work (parseMsgPass env raw p).2.work := by
  -- what a pass returns from without a message is no front
  have hshort : ∀ w', parseMsgPass env raw p = (.returned, w') → ¬ Misbehaves env raw p := by
    rintro w' hrun ⟨payload, rest, m, source, hfront, -, -⟩
    exact hfront.not_returned hrun
  rcases parseMsgPass_cases env raw p with hrun | hrun | ⟨payload, rest, hfront, hrun⟩
  · have hno := hshort _ hrun
    rw [hrun]
    exact Moves.of_steady rfl hno
  · have hno := hshort _ hrun
    rw [hrun]
    exact Moves.of_steady (disconnect_steady env p.work) hno
  · have hiff : (∃ m source, decoded env (headerOfRaw env.memory raw) payload p.work.node =
        some (.ok m source) ∧ Offends env (headerOfRaw env.memory raw) m p.work.node) ↔
          Misbehaves env raw p := by
      constructor
      · rintro ⟨m, source, hd, ho⟩
        exact ⟨payload, rest, m, source, hfront, hd, ho⟩
      · rintro ⟨payload', rest', m, source, hfront', hd, ho⟩
        rw [← hfront.unique hfront'] at hd
        exact ⟨m, source, hd, ho⟩
    have hmoves := (parseMsgData_moves env (headerOfRaw env.memory raw) payload p.work).congr hiff
    rw [hrun]
    rcases hdata : parseMsgData env (headerOfRaw env.memory raw) payload p.work with ⟨_ | _, w'⟩ <;>
      rw [hdata] at hmoves <;> exact hmoves

theorem pingTimeoutCb_steady (env : Env) : Does Steady (pingTimeoutCb env) := by
  refine Does.bind getNode_steady fun node => ?_
  refine Does.ite (fun _ => pure_steady ()) fun _ => ?_
  exact Does.ite (fun _ => disconnect_steady env) fun _ => sends_steady env _

/-- Nothing calls `CheckBanned`; the other callbacks leave a standing alone. -/
theorem callback_steady (env : Env) {cb : Callback} (hcb : cb ≠ .checkBanned) :
    Does Steady (cb.run env) := by
  have hif : ∀ c : Node → Bool, Does Steady
      (do let node ← getNode; ifThen (c node) (disconnect env) : Handler Unit) := fun c =>
    Does.bind getNode_steady fun node => ifThen_steady (disconnect_steady env)
  cases cb with
  | inactivityTimeout => exact hif _
  | socketNoMsgTimeout => exact hif _
  | shakeHandsTimeout => exact hif _
  | pingTimeout => exact pingTimeoutCb_steady env
  | checkBanned => exact absurd rfl hcb
  | connEvent => exact hif _
  | send m => exact sends_steady env m

end Passes

end Conduct
