import Btclite.Network.Departures
import Btclite.Network.Lifecycle

/-!
# Which timers of a node are set

The log of a handler tells which timers of its node are set: a message that is
sent leaves one behind, and `StopAllTimers` is run where the node is erased.
Only verack sets others. A handler does one of the two: it goes on in the same
state of the connection, or it ends the connection and sends nothing.
-/

namespace TimerFlags

open Serialize Messages Nodes Handlers Sessions Lifecycle Departures Effects

/-- What an event tells of the timers. -/
def noted (timers : NodeTimers) : Event → NodeTimers
  | .sent _ _ => { timers with noSendingTimer := true }
  | .erased => .stopped
  | _ => timers

def isSent : Event → Bool
  | .sent _ _ => true
  | _ => false

/-- The log grows by events of one kind, which tell what the timers are now. -/
def Follows (P : Event → Prop) (w w' : Work) : Prop :=
  ∃ events, w'.log = w.log ++ events ∧ (∀ e ∈ events, P e) ∧
    w'.node.timers = events.foldl noted w.node.timers

section Relations

variable {P : Event → Prop} {w w' w'' : Work}

theorem Follows.trans (h : Follows P w w') (h' : Follows P w' w'') : Follows P w w'' := by
  obtain ⟨events, hlog, hall, htimers⟩ := h
  obtain ⟨events', hlog', hall', htimers'⟩ := h'
  refine ⟨events ++ events', ?_, ?_, ?_⟩
  · rw [hlog', hlog, List.append_assoc]
  · intro e he
    rcases List.mem_append.mp he with he | he
    · exact hall e he
    · exact hall' e he
  · rw [htimers', htimers, List.foldl_append]

theorem Follows.mono {Q : Event → Prop} (h : Follows P w w') (hPQ : ∀ e, P e → Q e) :
    Follows Q w w' := by
  obtain ⟨events, hlog, hall, htimers⟩ := h
  exact ⟨events, hlog, fun e he => hPQ e (hall e he), htimers⟩

/-- The connection stays in its state. -/
structure Stays (P : Event → Prop) (w w' : Work) : Prop where
  follows : Follows P w w'
  state : w'.node.connection.connectionState = w.node.connection.connectionState

/-- Nothing is sent or erased. -/
abbrev Mute : Work → Work → Prop := Stays fun e => e ≠ .erased ∧ isSent e = false

/-- Messages may be sent. -/
abbrev Calm : Work → Work → Prop := Stays fun e => e ≠ .erased

/-- The connection is closed, and nothing is sent. -/
structure Ending (w w' : Work) : Prop where
  follows : Follows (fun e => isSent e = false) w w'
  state : w'.node.isDisconnected = true

def Moves (w w' : Work) : Prop := Calm w w' ∨ Ending w w'

instance : Std.Refl (Stays P) := ⟨fun _ => ⟨⟨[], by simp, by simp, rfl⟩, rfl⟩⟩

instance : IsTrans Work (Stays P) where
  trans _ _ _ h h' := ⟨h.follows.trans h'.follows, h'.state.trans h.state⟩

theorem Stays.mono {Q : Event → Prop} (h : Stays P w w') (hPQ : ∀ e, P e → Q e) :
    Stays Q w w' :=
  ⟨h.follows.mono hPQ, h.state⟩

theorem Stays.isDisconnected (h : Stays P w w') :
    w'.node.isDisconnected = w.node.isDisconnected := by
  simp only [Node.isDisconnected, NodeConnection.isDisconnected, h.state]

theorem mute_ending (h : Mute w w') (h' : Ending w' w'') : Ending w w'' :=
  ⟨(h.follows.mono fun _ he => he.2).trans h'.follows, h'.state⟩

theorem ending_mute (h : Ending w w') (h' : Mute w' w'') : Ending w w'' :=
  ⟨h.follows.trans (h'.follows.mono fun _ he => he.2), h'.isDisconnected.trans h.state⟩

theorem mute_moves (h : Mute w w') (h' : Moves w' w'') : Moves w w'' := by
  rcases h' with h' | h'
  · exact Or.inl (trans_of _ (h.mono fun _ he => he.1) h')
  · exact Or.inr (mute_ending h h')

variable {A B : Type} {m : Handler A} {k : A → Handler B}

theorem bind_moves (hm : Does Mute m) (hk : ∀ a, Does Moves (k a)) : Does Moves (m >>= k) :=
  fun w => mute_moves (hm w) (hk (m w).1 (m w).2)

theorem moves_of_calm (hm : Does Calm m) : Does Moves m := fun w => Or.inl (hm w)

end Relations

section Steps

variable {P : Event → Prop}

theorem getNode_stays : Does (Stays P) getNode :=
  fun _ => ⟨⟨[], by simp [getNode], by simp, rfl⟩, rfl⟩

theorem setNode_stays {f : Node → Node} (htimers : ∀ n, (f n).timers = n.timers)
    (hstate : ∀ n, (f n).connection.connectionState = n.connection.connectionState) :
    Does (Stays P) (setNode f) :=
  fun w => ⟨⟨[], by simp [setNode], by simp, htimers w.node⟩, hstate w.node⟩

theorem emit_stays {e : Event} (h : P e) (hnoted : ∀ timers, noted timers e = timers) :
    Does (Stays P) (emit e) :=
  fun w => ⟨⟨[e], rfl, by simpa using h, (hnoted w.node.timers).symm⟩, rfl⟩

theorem ifThen_stays {c : Prop} [Decidable c] {m : Handler Unit} (hm : Does (Stays P) m) :
    Does (Stays P) (ifThen c m) :=
  Does.ite (fun _ => hm) fun _ => Does.pure ()

theorem misbehaving_stays (howmuch : U32) : Does (Stays P) (misbehaving howmuch) :=
  ifThen_stays (setNode_stays (fun _ => rfl) fun _ => rfl)

theorem sendMsg_calm (env : Env) (m : Message) : Does Calm (sendMsg env m) := by
  refine Does.bind getNode_stays fun node => ?_
  refine Does.ite (fun _ => Does.pure _) fun _ => ?_
  refine Does.bind (setNode_stays (fun _ => rfl) fun _ => rfl) fun _ => ?_
  refine Does.ite (fun _ => Does.pure _) fun _ => ?_
  refine Does.ite (fun _ => Does.pure _) fun _ => ?_
  exact fun w => ⟨⟨[.sent (headerOf env m) m], rfl, by simp, rfl⟩, rfl⟩

theorem sends_calm (env : Env) (m : Message) :
    Does Calm (do let _ ← sendMsg env m; pure () : Handler Unit) :=
  Does.bind (sendMsg_calm env m) fun _ => Does.pure ()

theorem disconnect_ending (env : Env) : Does Ending (disconnect env) := by
  intro w
  rw [disconnect_run]
  split_ifs
  · exact ⟨⟨[.stateSet .kDisconnected, .erased], by simp, by simp [isSent], rfl⟩, rfl⟩
  · exact ⟨⟨[.stateSet .kDisconnected], rfl, by simp [isSent], rfl⟩, rfl⟩

theorem disconnectNode_ending (env : Env) : Does Ending (disconnectNode env) := by
  intro w
  obtain ⟨events, hlog, hall, -⟩ := (disconnect_ending env w).follows
  rw [disconnectNode_run, hlog]
  refine ⟨⟨events ++ [.erased], by simp, ?_, by simp [noted, quiet]⟩, rfl⟩
  intro e he
  rcases List.mem_append.mp he with he | he
  · exact hall e he
  · rw [List.mem_singleton.mp he]
    rfl

/-- A callback that at most ends the connection. -/
def Quits (w w' : Work) : Prop := Mute w w' ∨ Ending w w'

theorem quits_moves {A : Type} {m : Handler A} (hm : Does Quits m) : Does Moves m :=
  fun w => (hm w).imp_left fun h => h.mono fun _ he => he.1

theorem disconnectIf_quits (env : Env) (c : Node → Bool) :
    Does Quits (do let node ← getNode; ifThen (c node) (disconnect env) : Handler Unit) := by
  intro w
  change Quits w ((if c w.node = true then disconnect env else pure () : Handler Unit) w).2
  split_ifs
  · exact Or.inr (disconnect_ending env w)
  · exact Or.inl (refl_of _ w)

theorem checkBanned_quits (env : Env) : Does Quits (checkBanned env) := by
  intro w
  change Quits w ((if !w.node.misbehavior.shouldBan then _ else _ : Handler Bool) w).2
  by_cases h : w.node.misbehavior.shouldBan = true
  · rw [h]
    have hset : Mute w (setNode (fun n =>
        { n with misbehavior := { n.misbehavior with shouldBan := false } }) w).2 :=
      ⟨⟨[], by simp [setNode], by simp, rfl⟩, rfl⟩
    change Quits w ((if w.node.connection.manual then _ else _ : Handler Bool) _).2
    by_cases hmanual : w.node.connection.manual = true
    · rw [if_pos hmanual]
      exact Or.inl hset
    · rw [if_neg hmanual]
      have hban : ∀ c : Bool, Does Mute
          (do ifThen c (emit .peerBanned); pure true : Handler Bool) := by
        intro c
        refine Does.bind (ifThen_stays ?_) fun _ => Does.pure true
        exact emit_stays (by simp [isSent]) fun _ => rfl
      exact Or.inr (ending_mute (mute_ending hset (disconnect_ending env _)) (hban _ _))
  · rw [if_pos (by simpa using h)]
    exact Or.inl (refl_of _ w)

end Steps

section Receiving

theorem greet_calm (env : Env) (v : Version) : Does Calm (greet env v) := by
  refine Does.bind (emit_stays (by simp) fun _ => rfl) fun _ => ?_
  refine Does.bind getNode_stays fun node => ?_
  refine Does.bind (Does.ite (fun _ => ?_) fun _ => Does.pure _) fun _ => ?_
  · exact Does.bind getNode_stays fun _ => sendMsg_calm env _
  refine Does.bind (sendMsg_calm env _) fun _ => ?_
  refine Does.bind (setNode_stays (fun _ => rfl) fun _ => rfl) fun _ => ?_
  refine Does.bind (setNode_stays (fun _ => rfl) fun n => ?_) fun _ =>
    setNode_stays (fun _ => rfl) fun _ => rfl
  dsimp only
  split <;> rfl

theorem introduce_calm (env : Env) (v : Version) : Does Calm (introduce env v) := by
  refine Does.bind (ifThen_stays (setNode_stays (fun _ => rfl) fun _ => rfl)) fun _ => ?_
  refine Does.bind getNode_stays fun node => ?_
  refine Does.bind (ifThen_stays ?_) fun _ => emit_stays (by simp) fun _ => rfl
  refine Does.bind (ifThen_stays (emit_stays (by simp) fun _ => rfl)) fun _ => ?_
  refine Does.bind (ifThen_stays ?_) fun _ => ifThen_stays (emit_stays (by simp) fun _ => rfl)
  exact Does.bind (sendMsg_calm env _) fun _ => setNode_stays (fun _ => rfl) fun _ => rfl

theorem versionRecvHandler_moves (env : Env) (v : Version) :
    Does Moves (versionRecvHandler env v) := by
  have hend : ∀ b : Bool, Does Moves (do disconnect env; pure b : Handler Bool) := fun b w =>
    Or.inr (disconnect_ending env w)
  refine bind_moves getNode_stays fun node => Does.ite (fun _ => ?_) fun _ => ?_
  · exact moves_of_calm (Does.bind (misbehaving_stays 1) fun _ => Does.pure _)
  refine bind_moves (ifThen_stays (emit_stays (by simp [isSent]) fun _ => rfl)) fun _ => ?_
  refine Does.ite (fun _ => hend _) fun _ => Does.ite (fun _ => hend _) fun _ =>
    Does.ite (fun _ => hend _) fun _ => Does.ite (fun _ => hend _) fun _ => ?_
  refine moves_of_calm (Does.bind (Does.bind (greet_calm env v) fun _ => ?_) fun _ => Does.pure _)
  exact Does.bind (setNode_stays (fun _ => rfl) fun _ => rfl) fun _ => introduce_calm env v

theorem negotiate_calm (env : Env) : Does Calm (negotiate env) := by
  refine Does.bind getNode_stays fun node => ?_
  refine Does.bind (ifThen_stays (sends_calm env _)) fun _ => ifThen_stays ?_
  exact Does.bind (ifThen_stays (sends_calm env _)) fun _ => sends_calm env _

theorem recvHandler_moves (env : Env) {m : Message} (hm : m ≠ .verack) :
    Does Moves (recvHandler env m) := by
  cases m with
  | version v => exact versionRecvHandler_moves env v
  | verack => exact absurd rfl hm
  | ping m =>
    refine moves_of_calm (Does.bind getNode_stays fun node => ?_)
    exact Does.bind (ifThen_stays (sends_calm env _)) fun _ => Does.pure _
  | pong m =>
    refine moves_of_calm (Does.bind getNode_stays fun node => ?_)
    refine Does.ite (fun _ => Does.pure _) fun _ => Does.ite (fun _ => Does.pure _) fun _ => ?_
    exact Does.bind (setNode_stays (fun _ => rfl) fun _ => rfl) fun _ => Does.pure _
  | addr m => exact moves_of_calm (Does.pure _)
  | inv m => exact moves_of_calm (Does.pure _)
  | getaddr => exact moves_of_calm (Does.pure _)
  | reject m => exact moves_of_calm (Does.pure _)
  | sendheaders => exact moves_of_calm (Does.pure _)
  | sendcmpct m => exact moves_of_calm (Does.pure _)

variable {env : Env} {header : MessageHeader} {m : Message} {w : Work}

theorem handleMsgData_mute (h : ¬ Admitted env header m w) :
    Mute w (handleMsgData env header m w).2 := by
  change Mute w ((if header.checksum ≠ checksum env m.serialize then _ else _ :
    Handler Bool) w).2
  by_cases h1 : header.checksum ≠ checksum env m.serialize
  · rw [if_pos h1]
    exact emit_stays (by simp [isSent]) (fun _ => rfl) w
  rw [if_neg h1]
  by_cases h2 : m.isValid = true
  · rw [h2, if_neg (by simp)]
    change Mute w ((if !checkMisbehaving m.command w.node then _ else _ : Handler Bool) w).2
    have h3 : checkMisbehaving m.command w.node = false := by
      by_contra h3
      exact h ⟨not_not.mp h1, h2, by simpa using h3⟩
    rw [h3]
    exact misbehaving_stays 1 w
  · rw [if_pos (by simpa using h2)]
    exact refl_of _ w

theorem received_mute (command : List Endian.Byte) (w : Work) :
    Mute w (emit (.received command w.node.connection.connectionState) w).2 :=
  emit_stays (by simp [isSent]) (fun _ => rfl) w

/-- A message that is not a verack which gets to its handler. -/
theorem handleMsgData_moves (h : ¬ (m = .verack ∧ Admitted env header m w)) :
    Moves w (handleMsgData env header m w).2 := by
  by_cases hin : Admitted env header m w
  · have hm : m ≠ .verack := fun hm => h ⟨hm, hin⟩
    rw [handleMsgData_of_admitted hin]
    exact mute_moves (received_mute _ w) (recvHandler_moves env hm _)
  · exact Or.inl ((handleMsgData_mute hin).mono fun _ he => he.1)

/-- The timers that verack sets. -/
def settled (advertise : Bool) (timers : NodeTimers) : NodeTimers :=
  { timers with
    pingTimer := true
    advertiseLocalAddrTimer := advertise || timers.advertiseLocalAddrTimer
    broadcastAddrsTimer := true }

theorem settle_run (env : Env) (w : Work) :
    (settle env w).2 =
      let sent := (sendMsg env (pingFor env w.node) w).2
      let advertised := if env.advertiseLocalAddr then [.localAddrAdvertised false] else []
      { node := { sent.node with
          timers := settled env.advertiseLocalAddr sent.node.timers }
        log := sent.log ++ advertised } := by
  change ((do
    setNode fun n => { n with timers := { n.timers with pingTimer := true } }
    ifThen env.advertiseLocalAddr do
      emit (.localAddrAdvertised false)
      setNode fun n => { n with timers := { n.timers with advertiseLocalAddrTimer := true } }
    setNode fun n => { n with timers := { n.timers with broadcastAddrsTimer := true } } :
      Handler Unit) (sendMsg env (pingFor env w.node) w).2).2 = _
  generalize (sendMsg env (pingFor env w.node) w).2 = sent
  cases env.advertiseLocalAddr with
  | true => rfl
  | false =>
    rw [ifThen, if_neg Bool.false_ne_true]
    exact congrArg (Work.mk _) (List.append_nil sent.log).symm

/-- A node with its connection established. -/
def opened (n : Node) : Node :=
  { n with connection := { n.connection with connectionState := .kEstablished } }

theorem establish_run (env : Env) (w : Work) :
    (setConnectionState env .kEstablished w).2 =
      ⟨opened w.node, w.log ++ [.stateSet .kEstablished]⟩ := by
  change ((ifThen (ConnectionState.kEstablished = .kDisconnected ∧ w.node.connection.disconnectCb)
    (disconnectNodeCb env) : Handler Unit) _).2 = _
  rw [ifThen, if_neg (by simp)]
  rfl

/-- A verack which gets to its handler sets the periodic timers and erases nothing. -/
theorem verack_follows (h : Admitted env header .verack w) :
    ∃ events, (handleMsgData env header .verack w).2.log = w.log ++ events ∧
      (∀ e ∈ events, e ≠ .erased) ∧ .stateSet .kEstablished ∈ events ∧
      (handleMsgData env header .verack w).2.node.timers =
        settled env.advertiseLocalAddr (events.foldl noted w.node.timers) := by
  have hbefore : Calm w (negotiate env
      (emit (.received kMsgVerack w.node.connection.connectionState) w).2).2 :=
    trans_of _ ((received_mute kMsgVerack w).mono fun _ he => he.1) (negotiate_calm env _)
  rw [handleMsgData_of_admitted h]
  change ∃ events, (settle env (setConnectionState env .kEstablished (negotiate env
      (emit (.received kMsgVerack w.node.connection.connectionState) w).2).2).2).2.log = _ ∧ _ ∧ _ ∧
    (settle env (setConnectionState env .kEstablished (negotiate env
      (emit (.received kMsgVerack w.node.connection.connectionState) w).2).2).2).2.node.timers = _
  generalize (negotiate env
    (emit (.received kMsgVerack w.node.connection.connectionState) w).2).2 = w₁ at hbefore ⊢
  obtain ⟨events, hlog, hall, htimers⟩ := hbefore.follows
  rw [establish_run, settle_run]
  obtain ⟨sent, hlog', hall', htimers'⟩ := (sendMsg_calm env (pingFor env (opened w₁.node))
    ⟨opened w₁.node, w₁.log ++ [.stateSet .kEstablished]⟩).follows
  refine ⟨events ++ [.stateSet .kEstablished] ++ sent ++
    if env.advertiseLocalAddr then [.localAddrAdvertised false] else [], ?_, ?_, ?_, ?_⟩
  · dsimp only
    rw [hlog', hlog]
    simp only [List.append_assoc]
  · intro e he
    simp only [List.mem_append, List.mem_singleton] at he
    rcases he with ((he | rfl) | he) | he
    · exact hall e he
    · simp
    · exact hall' e he
    · split_ifs at he
      · rw [List.mem_singleton.mp he]
        simp
      · exact absurd he List.not_mem_nil
  · simp
  · have hlast : ∀ timers, (if env.advertiseLocalAddr then [.localAddrAdvertised false]
        else []).foldl noted timers = timers := by
      intro timers
      split_ifs <;> rfl
    have hopened : (opened w₁.node).timers = events.foldl noted w.node.timers := htimers
    simp only [htimers', hopened, List.foldl_append, hlast]
    rfl

end Receiving

end TimerFlags
