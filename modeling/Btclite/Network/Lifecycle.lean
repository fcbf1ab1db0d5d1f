import Btclite.Network.MsgProcess

/-!
# The life of a peer

A node and its input buffer over any run: bytes arrive, `ParseMsg` calls enter
their loop and make passes over the buffer, timers fire and the socket closes,
in any order. Every step moves the session of the node, so that what sessions
keep is kept by peers.
-/

namespace Lifecycle

open Serialize Messages Nodes Handlers Sessions MsgProcess Effects Runs

inductive Callback where
  | inactivityTimeout
  | socketNoMsgTimeout
  | shakeHandsTimeout
  | pingTimeout
  | checkBanned
  | connEvent
  | send (m : Message)

def Callback.run (env : Env) : Callback → Handler Unit
  | inactivityTimeout => inactivityTimeoutCb env
  | socketNoMsgTimeout => socketNoMsgTimeoutCb env
  | shakeHandsTimeout => shakeHandsTimeoutCb env
  | pingTimeout => pingTimeoutCb env
  | checkBanned => do
    let _ ← Nodes.checkBanned env
    pure ()
  | connEvent => connEventCb env
  | send m => do
    let _ ← sendMsg env m
    pure ()

/-- A peer, and how many calls of `ParseMsg` are in their loop. -/
structure State where
  peer : Peer
  readers : Nat := 0

inductive Act where
  | arrive (bytes : List Endian.Byte)
  | enter
  | pass (env : Env)
  | callback (env : Env) (cb : Callback)

def step (s : State) : Act → Option State
  | .arrive bytes =>
    some { s with peer := ⟨(connReadCb s.peer.work).2, s.peer.input ++ bytes⟩ }
  | .enter =>
    if s.peer.work.node.connection.bev ∧ ¬ s.peer.work.node.isDisconnected ∧
        MessageHeader.kSize ≤ s.peer.input.length then
      some { s with readers := s.readers + 1 }
    else none
  | .pass env =>
    if s.readers = 0 then none
    else
      match evbufferPullup s.peer.input MessageHeader.kSize with
      | none => some { s with readers := s.readers - 1 }
      | some raw =>
        match parseMsgPass env raw s.peer with
        | (.parsed _, p) => some { s with peer := p }
        | (_, p) => some { peer := p, readers := s.readers - 1 }
  | .callback env cb => some { s with peer := ⟨(cb.run env s.peer.work).2, s.peer.input⟩ }

def Next (s : State) (a : Act) (s' : State) : Prop := step s a = some s'

/-- Every order of steps whatever. -/
def Any (_ : State) (_ : Act) : Prop := True

/-- What a step does to the node and the buffer. -/
theorem step_cases {s s' : State} {a : Act} (h : Next s a s') :
    (∃ bytes, a = .arrive bytes ∧
      s'.peer = ⟨(connReadCb s.peer.work).2, s.peer.input ++ bytes⟩) ∨
    s'.peer = s.peer ∨
    (∃ env raw, a = .pass env ∧ evbufferPullup s.peer.input MessageHeader.kSize = some raw ∧
      s'.peer = (parseMsgPass env raw s.peer).2) ∨
    ∃ env cb, a = .callback env cb ∧
      s'.peer = ⟨((cb : Callback).run env s.peer.work).2, s.peer.input⟩ := by
  cases a with
  | arrive bytes =>
    cases h
    exact Or.inl ⟨bytes, rfl, rfl⟩
  | enter =>
    simp only [Next, step, Option.ite_none_right_eq_some] at h
    rcases h with ⟨-, h⟩
    cases h
    exact Or.inr (Or.inl rfl)
  | pass env =>
    simp only [Next, step] at h
    split_ifs at h with hreaders
    cases hpull : evbufferPullup s.peer.input MessageHeader.kSize with
    | none =>
      rw [hpull] at h
      cases h
      exact Or.inr (Or.inl rfl)
    | some raw =>
      rw [hpull] at h
      refine Or.inr (Or.inr (Or.inl ⟨env, raw, rfl, rfl, ?_⟩))
      rcases hrun : parseMsgPass env raw s.peer with ⟨_ | _ | _, p⟩ <;>
        simp only [hrun] at h <;> cases h <;> rfl
  | callback env cb =>
    cases h
    exact Or.inr (Or.inr (Or.inr ⟨env, cb, rfl, rfl⟩))

section Calls

variable {C : State → Act → Prop}

/-- The loop of one call, while `n` others are in theirs. -/
theorem parseMsgLoop_run (hC : ∀ s env, C s (.pass env)) (envs : Nat → Env) {fuel : Nat}
    (ret : Bool) {p : Peer} (n : Nat) (hfuel : p.input.length ≤ fuel) :
    Run Next C ⟨p, n + 1⟩ ⟨(parseMsgLoop envs fuel ret p).2, n⟩ := by
  induction fuel generalizing envs ret p with
  | zero =>
    have hpull : evbufferPullup p.input MessageHeader.kSize = none :=
      evbufferPullup_eq_none.mpr (Nat.lt_of_le_of_lt hfuel (Nat.zero_lt_succ _))
    apply Run.single (hC _ (envs 0))
    simp [Next, step, hpull, parseMsgLoop]
  | succ fuel ih =>
    cases hpull : evbufferPullup p.input MessageHeader.kSize with
    | none =>
      apply Run.single (hC _ (envs 0))
      simp [Next, step, hpull, parseMsgLoop]
    | some raw =>
      have hlen := (evbufferPullup_eq_some.mp hpull).1
      rw [parseMsgLoop, hpull]
      simp only
      rcases hrun : parseMsgPass (envs 0) raw p with ⟨r | _ | e, p'⟩
      · have hone : Next ⟨p, n + 1⟩ (.pass (envs 0)) ⟨p', n + 1⟩ := by
          simp [Next, step, hpull, hrun]
        have hless : p'.input.length ≤ fuel := by
          have hsize : MessageHeader.kSize = 24 := rfl
          have htaken : p'.input.length ≤ p.input.length - MessageHeader.kSize := by
            simpa only [hrun] using parseMsgPass_input (envs 0) raw p
          omega
        exact (Run.single (hC _ _) hone).trans (ih _ _ hless)
      · apply Run.single (hC _ (envs 0))
        simp [Next, step, hpull, hrun]
      · apply Run.single (hC _ (envs 0))
        simp [Next, step, hpull, hrun]

/-- A call of `ParseMsg` with nothing in between is a run. -/
theorem parseMsg_run (hC : ∀ s env, C s (.pass env)) (henter : ∀ s, C s .enter)
    (envs : Nat → Env) (p : Peer) : Run Next C ⟨p, 0⟩ ⟨(parseMsg envs p).2, 0⟩ := by
  rw [parseMsg]
  split_ifs with h1 h2
  · exact .refl
  · exact .refl
  cases hpull : evbufferPullup p.input MessageHeader.kSize with
  | none => exact .refl
  | some raw =>
    have hlen := (evbufferPullup_eq_some.mp hpull).1
    have hbegin : Next ⟨p, 0⟩ .enter ⟨p, 1⟩ := by
      rw [Next, step, if_pos ⟨by simpa using h1, h2, hlen⟩]
    exact (Run.single (henter _) hbegin).trans (parseMsgLoop_run hC envs true 0 le_rfl)

end Calls

section Callbacks

/-- A callback leaves the session alone or disconnects it. -/
def Ends (w w' : Work) : Prop := Leaves w w' ∨ session w' = (session w).after .disconnect

theorem disconnectIf_ends (env : Env) (c : Node → Bool) :
    Does Ends (do let node ← getNode; ifThen (c node) (disconnect env) : Handler Unit) := by
  intro w
  by_cases h : c w.node = true
  · right
    change session ((if c w.node = true then disconnect env else pure () : Handler Unit) w).2 = _
    rw [if_pos h, disconnect_session]
  · left
    change session ((if c w.node = true then disconnect env else pure () : Handler Unit) w).2 = _
    rw [if_neg h]
    rfl

theorem checkBanned_ends (env : Env) : Does Ends (checkBanned env) := by
  intro w
  change Ends w ((if !w.node.misbehavior.shouldBan then _ else _ : Handler Bool) w).2
  by_cases h : w.node.misbehavior.shouldBan = true
  · rw [h]
    change Ends w ((if w.node.connection.manual then _ else _ : Handler Bool) _).2
    by_cases hmanual : w.node.connection.manual = true
    · rw [if_pos hmanual]
      exact Or.inl rfl
    · rw [if_neg hmanual]
      right
      have hban : ∀ c : Bool, Does Leaves
          (do ifThen c (emit .peerBanned); pure true : Handler Bool) := fun c =>
        Does.bind (ifThen_leaves (emit_leaves rfl)) fun _ => pure_leaves true
      exact (hban _ _).trans (disconnect_session env _)
  · rw [if_pos (by simpa using h)]
    exact Or.inl rfl

theorem pingTimeoutCb_ends (env : Env) : Does Ends (pingTimeoutCb env) := by
  intro w
  change Ends w ((if env.interrupted || w.node.isDisconnected then _ else _ : Handler Unit) w).2
  by_cases h : (env.interrupted || w.node.isDisconnected) = true
  · rw [if_pos h]
    exact Or.inl rfl
  rw [if_neg h]
  by_cases hping : w.node.pingNonceSent ≠ 0
  · rw [if_pos hping]
    exact Or.inr (disconnect_session env w)
  · rw [if_neg hping]
    exact Or.inl (sends_leaves env _ w)

theorem callback_ends (env : Env) (cb : Callback) : Does Ends (cb.run env) := by
  cases cb with
  | inactivityTimeout => exact disconnectIf_ends env _
  | socketNoMsgTimeout => exact disconnectIf_ends env _
  | shakeHandsTimeout => exact disconnectIf_ends env _
  | pingTimeout => exact pingTimeoutCb_ends env
  | checkBanned => exact fun w => checkBanned_ends env w
  | connEvent => exact disconnectIf_ends env _
  | send m => exact fun w => Or.inl (sends_leaves env m w)

end Callbacks

/-- A step of a peer is a run of its session. `D` must let through what the pass of a
discipline `C` delivers. -/
theorem step_reaches {C : State → Act → Prop} {D : Session → Action → Prop}
    (hD : Permissive D) (hdispatch : ∀ s header payload, D s (.dispatch header payload))
    (hreceive : ∀ s env raw payload rest m, C s (.pass env) →
      evbufferPullup s.peer.input MessageHeader.kSize = some raw →
      Front env raw s.peer payload rest →
      Delivers env (headerOfRaw env.memory raw) payload s.peer.work m →
      D ((session s.peer.work).after (.dispatch (headerOfRaw env.memory raw) payload))
        (.receive m.command))
    (hest : ∀ s command, D s (.receive command) → D (s.after (.receive command)) .establish)
    {s s' : State} {a : Act} (hC : C s a) (h : Next s a s') :
    Reaches D (session s.peer.work) (session s'.peer.work) := by
  rcases step_cases h with ⟨bytes, -, hpeer⟩ | hpeer | ⟨env, raw, rfl, hraw, hpeer⟩ |
    ⟨env, cb, -, hpeer⟩
  · rw [hpeer]
    exact .refl
  · rw [hpeer]
  · rw [hpeer]
    exact parseMsgPass_reaches hD (hdispatch _)
      (fun payload rest m => hreceive s env raw payload rest m hC hraw) hest
  · rw [hpeer]
    rcases callback_ends env cb s.peer.work with hsame | hend
    · rw [hsame]
    · rw [hend]
      exact Reaches.single (hD.disconnect _) trivial

end Lifecycle
