import Btclite.Network.Lifecycle

/-!
# What handlers report

A handler only ever adds to the log. Calls of `ParseMsgData`, interrupts and
pings have one place each that reports them; all other reports are routine, and
the handlers of all messages but verack make no others.
-/

namespace Reports

open Serialize Messages Nodes Handlers MsgProcess Lifecycle Effects

/-- Every event but a dispatch, an interrupt and a ping that is sent. -/
def routine : Event → Bool
  | .dispatched _ _ | .interrupted | .sent _ (.ping _) => false
  | _ => true

/-- The log grows by events of one kind. -/
def Adds (P : Event → Prop) (w w' : Work) : Prop :=
  ∃ events, w'.log = w.log ++ events ∧ ∀ e ∈ events, P e

abbrev Routine : Work → Work → Prop := Adds fun e => routine e = true

variable {P : Event → Prop}

instance : Std.Refl (Adds P) := ⟨fun w => ⟨[], (List.append_nil _).symm, by simp⟩⟩

instance : IsTrans Work (Adds P) where
  trans := by
    rintro w w' w'' ⟨events, hlog, hall⟩ ⟨events', hlog', hall'⟩
    refine ⟨events ++ events', by rw [hlog', hlog, List.append_assoc], fun e he => ?_⟩
    rcases List.mem_append.mp he with he | he
    · exact hall e he
    · exact hall' e he

theorem Adds.mono {Q : Event → Prop} {w w' : Work} (h : Adds P w w') (hPQ : ∀ e, P e → Q e) :
    Adds Q w w' := by
  obtain ⟨events, hlog, hall⟩ := h
  exact ⟨events, hlog, fun e he => hPQ e (hall e he)⟩

theorem Adds.of_log_eq {w w' : Work} (h : w'.log = w.log) : Adds P w w' :=
  ⟨[], by rw [h, List.append_nil], by simp⟩

/-- What is found in the events of a log is found in as many places as before, if none of
the new ones has it. -/
theorem Adds.filterMap_log {A : Type} {f : Event → Option A} {w w' : Work} (h : Adds P w w')
    (hf : ∀ e, P e → f e = none) : w'.log.filterMap f = w.log.filterMap f := by
  obtain ⟨events, hlog, hall⟩ := h
  have hnone : events.filterMap f = [] :=
    List.filterMap_eq_nil_iff.mpr fun e he => hf e (hall e he)
  rw [hlog, List.filterMap_append, hnone, List.append_nil]

section Steps

theorem getNode_adds : Does (Adds P) getNode := fun _ => Adds.of_log_eq rfl

theorem setNode_adds (f : Node → Node) : Does (Adds P) (setNode f) := fun _ => Adds.of_log_eq rfl

theorem emit_adds {e : Event} (h : P e) : Does (Adds P) (emit e) :=
  fun _ => ⟨[e], rfl, by simpa using h⟩

theorem ifThen_adds {c : Prop} [Decidable c] {m : Handler Unit} (hm : Does (Adds P) m) :
    Does (Adds P) (ifThen c m) :=
  Does.ite (fun _ => hm) fun _ => Does.pure ()

theorem sendMsg_adds (env : Env) {m : Message} (h : P (.sent (headerOf env m) m)) :
    Does (Adds P) (sendMsg env m) := by
  refine Does.bind getNode_adds fun node => ?_
  refine Does.ite (fun _ => Does.pure _) fun _ => ?_
  refine Does.bind (setNode_adds _) fun _ => ?_
  refine Does.ite (fun _ => Does.pure _) fun _ => ?_
  refine Does.ite (fun _ => Does.pure _) fun _ => ?_
  refine Does.bind (emit_adds h) fun _ => ?_
  exact Does.bind (setNode_adds _) fun _ => Does.pure _

theorem sends_adds (env : Env) {m : Message} (h : P (.sent (headerOf env m) m)) :
    Does (Adds P) (do let _ ← sendMsg env m; pure () : Handler Unit) :=
  Does.bind (sendMsg_adds env h) fun _ => Does.pure ()

theorem setConnectionState_routine (env : Env) (state : ConnectionState) :
    Does Routine (setConnectionState env state) := by
  refine Does.bind (setNode_adds _) fun _ => ?_
  refine Does.bind (emit_adds rfl) fun _ => ?_
  refine Does.bind getNode_adds fun node => ifThen_adds ?_
  refine Does.bind (setNode_adds _) fun _ => Does.bind getNode_adds fun node => ?_
  exact Does.bind (ifThen_adds (emit_adds rfl)) fun _ => emit_adds rfl

theorem disconnect_routine (env : Env) : Does Routine (disconnect env) :=
  setConnectionState_routine env .kDisconnected

theorem misbehaving_routine (howmuch : U32) : Does Routine (misbehaving howmuch) :=
  ifThen_adds (setNode_adds _)

end Steps

section Receiving

theorem greet_routine (env : Env) (v : Version) : Does Routine (greet env v) := by
  refine Does.bind (emit_adds rfl) fun _ => ?_
  refine Does.bind getNode_adds fun node => ?_
  refine Does.bind (Does.ite (fun _ => ?_) fun _ => Does.pure _) fun _ => ?_
  · exact Does.bind getNode_adds fun _ => sendMsg_adds env rfl
  refine Does.bind (sendMsg_adds env rfl) fun _ => ?_
  refine Does.bind (setNode_adds _) fun _ => ?_
  exact Does.bind (setNode_adds _) fun _ => setNode_adds _

theorem introduce_routine (env : Env) (v : Version) : Does Routine (introduce env v) := by
  refine Does.bind (ifThen_adds (setNode_adds _)) fun _ => ?_
  refine Does.bind getNode_adds fun node => ?_
  refine Does.bind (ifThen_adds ?_) fun _ => emit_adds rfl
  refine Does.bind (ifThen_adds (emit_adds rfl)) fun _ => ?_
  refine Does.bind (ifThen_adds ?_) fun _ => ifThen_adds (emit_adds rfl)
  exact Does.bind (sendMsg_adds env rfl) fun _ => setNode_adds _

theorem versionRecvHandler_routine (env : Env) (v : Version) :
    Does Routine (versionRecvHandler env v) := by
  have hend : ∀ b : Bool, Does Routine (do disconnect env; pure b : Handler Bool) := fun b =>
    Does.bind (disconnect_routine env) fun _ => Does.pure b
  refine Does.bind getNode_adds fun node => Does.ite (fun _ => ?_) fun _ => ?_
  · exact Does.bind (misbehaving_routine 1) fun _ => Does.pure _
  refine Does.bind (ifThen_adds (emit_adds rfl)) fun _ => ?_
  refine Does.ite (fun _ => hend _) fun _ => Does.ite (fun _ => hend _) fun _ =>
    Does.ite (fun _ => hend _) fun _ => Does.ite (fun _ => hend _) fun _ => ?_
  refine Does.bind ?_ fun _ => Does.pure _
  refine Does.bind (greet_routine env v) fun _ => ?_
  exact Does.bind (setNode_adds _) fun _ => introduce_routine env v

theorem negotiate_routine (env : Env) : Does Routine (negotiate env) := by
  refine Does.bind getNode_adds fun node => ?_
  refine Does.bind (ifThen_adds (sends_adds env rfl)) fun _ => ifThen_adds ?_
  exact Does.bind (ifThen_adds (sends_adds env rfl)) fun _ => sends_adds env rfl

/-- A message other than verack is handled with routine reports. -/
theorem recvHandler_routine (env : Env) {m : Message} (hm : m ≠ .verack) :
    Does Routine (recvHandler env m) := by
  cases m with
  | version v => exact versionRecvHandler_routine env v
  | verack => exact absurd rfl hm
  | ping m =>
    refine Does.bind getNode_adds fun node => ?_
    exact Does.bind (ifThen_adds (sends_adds env rfl)) fun _ => Does.pure _
  | pong m =>
    refine Does.bind getNode_adds fun node => Does.ite (fun _ => Does.pure _) fun _ => ?_
    refine Does.ite (fun _ => Does.pure _) fun _ => ?_
    exact Does.bind (setNode_adds _) fun _ => Does.pure _
  | addr m => exact Does.pure _
  | inv m => exact Does.pure _
  | getaddr => exact Does.pure _
  | reject m => exact Does.pure _
  | sendheaders => exact Does.pure _
  | sendcmpct m => exact Does.pure _

variable (hroutine : ∀ e, routine e = true → P e)
include hroutine

theorem verackRecvHandler_adds (env : Env) (hping : ∀ header m, P (.sent header (.ping m))) :
    Does (Adds P) (verackRecvHandler env) := by
  have hmono {A : Type} {m : Handler A} (h : Does Routine m) : Does (Adds P) m :=
    fun w => (h w).mono hroutine
  refine Does.bind (hmono (negotiate_routine env)) fun _ => ?_
  refine Does.bind (hmono (setConnectionState_routine env _)) fun _ => ?_
  refine Does.bind (Does.bind getNode_adds fun node => ?_) fun _ => Does.pure true
  refine Does.bind (sendMsg_adds env (hping _ _)) fun _ => ?_
  refine Does.bind (setNode_adds _) fun _ => ?_
  refine Does.bind (ifThen_adds ?_) fun _ => setNode_adds _
  exact Does.bind (emit_adds (hroutine _ rfl)) fun _ => setNode_adds _

theorem handleMsgData_adds (env : Env) (header : MessageHeader) {m : Message}
    (hping : m = .verack → ∀ header m, P (.sent header (.ping m))) :
    Does (Adds P) (handleMsgData env header m) := by
  refine Does.ite (fun _ => ?_) fun _ => Does.ite (fun _ => Does.pure _) fun _ => ?_
  · exact Does.bind (emit_adds (hroutine _ rfl)) fun _ => Does.pure _
  refine Does.bind getNode_adds fun node => Does.ite (fun _ => ?_) fun _ => ?_
  · exact Does.bind (ifThen_adds (setNode_adds _)) fun _ => Does.pure _
  refine Does.bind (emit_adds (hroutine _ rfl)) fun _ => ?_
  by_cases hm : m = .verack
  · rw [hm]
    exact verackRecvHandler_adds hroutine env (hping hm)
  · exact fun w => (recvHandler_routine env hm w).mono hroutine

theorem callback_adds (env : Env) (hsent : ∀ header m, P (.sent header m)) (cb : Callback) :
    Does (Adds P) (cb.run env) := by
  have hmono {A : Type} {m : Handler A} (h : Does Routine m) : Does (Adds P) m :=
    fun w => (h w).mono hroutine
  have hif : ∀ c : Node → Bool, Does (Adds P)
      (do let node ← getNode; ifThen (c node) (disconnect env) : Handler Unit) := fun c =>
    Does.bind getNode_adds fun node => ifThen_adds (hmono (disconnect_routine env))
  cases cb with
  | inactivityTimeout => exact hif _
  | socketNoMsgTimeout => exact hif _
  | shakeHandsTimeout => exact hif _
  | pingTimeout =>
    refine Does.bind getNode_adds fun node => Does.ite (fun _ => Does.pure ()) fun _ => ?_
    exact Does.ite (fun _ => hmono (disconnect_routine env)) fun _ => sends_adds env (hsent _ _)
  | checkBanned =>
    refine Does.bind (Does.bind getNode_adds fun node => ?_) fun _ => Does.pure ()
    refine Does.ite (fun _ => Does.pure _) fun _ => Does.bind (setNode_adds _) fun _ => ?_
    refine Does.ite (fun _ => Does.pure _) fun _ => ?_
    refine Does.bind (hmono (disconnect_routine env)) fun _ => ?_
    exact Does.bind (ifThen_adds (emit_adds (hroutine _ rfl))) fun _ => Does.pure _
  | connEvent => exact hif _
  | send m => exact sends_adds env (hsent _ m)

end Receiving

end Reports
