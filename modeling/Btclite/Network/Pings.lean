import Btclite.Network.Conduct
import Btclite.Network.Handshake
import Btclite.Network.Reports

/-!
# Pings

`ping_nonce_sent` is meant to hold the nonce of the last ping until its pong
arrives. Neither `Verack::RecvHandler` nor `PingTimeoutCb` writes it when they
send a ping, so no pong is ever expected. A world here also remembers which ping
is in fact outstanding, to compare.
-/

namespace Pings

open Serialize Messages Nodes Handlers Sessions Lifecycle Conduct Effects Reports Runs

def sentPing? : Event → Option U64
  | .sent _ (.ping m) => some m.nonce
  | _ => none

/-- The nonces of the pings that a log tells of. -/
def pings (log : List Event) : List U64 := log.filterMap sentPing?

/-- A message is handed to `HandleMsgData`, or the ping timer expires. -/
inductive Act where
  | receive (env : Env) (header : MessageHeader) (m : Message)
  | expire (env : Env)

def Act.handle : Act → Handler Unit
  | receive env header m => do
    let _ ← handleMsgData env header m
    pure ()
  | expire env => pingTimeoutCb env

/-- The node, and the nonce of the last ping sent while the peer has not answered it. -/
structure World where
  work : Work
  outstanding : Option U64

instance (env : Env) (header : MessageHeader) (m : Message) (w : Work) :
    Decidable (Admitted env header m w) := inferInstanceAs (Decidable (_ ∧ _ ∧ _))

namespace World

/-- The message is the pong that the outstanding ping asks for. -/
def answered (w : World) : Act → Bool
  | .receive env header (.pong m) =>
    decide (Admitted env header (.pong m) w.work) && w.outstanding == some m.nonce
  | _ => false

def step (w : World) (act : Act) : World where
  work := (act.handle w.work).2
  outstanding :=
    if (pings w.work.log).length < (pings (act.handle w.work).2.log).length then
      (pings (act.handle w.work).2.log).getLast?
    else if w.answered act then none
    else w.outstanding

def start (id : Nat) (addr : Address.NetAddr) (isInbound manual : Bool) (nonce : U64) : World :=
  ⟨⟨initializeNode id addr isInbound manual nonce, []⟩, none⟩

/-- An established peer whose pings carry nonces. -/
def Live (w : World) : Prop :=
  w.work.node.connection.connectionState = .kEstablished ∧
    kBip31Version ≤ w.work.node.protocolVersion

instance (w : World) : Decidable w.Live := inferInstanceAs (Decidable (_ ∧ _))

/-- What an outstanding ping is for: its pong is accepted and settles it, any other pong is
refused and leaves it, and the next expiry of the timer disconnects the peer. -/
structure Checks (w : World) (act : Act) : Prop where
  pong : ∀ env header m n, act = .receive env header (.pong m) →
    Admitted env header (.pong m) w.work → w.Live → w.outstanding = some n →
    (m.nonce = n → (handleMsgData env header (.pong m) w.work).1 = true ∧
      (w.step act).work.node.pingNonceSent = 0) ∧
    (m.nonce ≠ n → (handleMsgData env header (.pong m) w.work).1 = false ∧
      (w.step act).work.node.pingNonceSent = n ∧ n ≠ 0)
  expiry : ∀ env n, act = .expire env → env.interrupted = false → w.Live →
    w.outstanding = some n →
    (w.step act).work.node.isDisconnected = true ∧
      pings (w.step act).work.log = pings w.work.log

/-- No pong is handled and the timer does not expire while a ping is outstanding. -/
structure Untested (w : World) (act : Act) : Prop where
  pong : ∀ env header m n, act = .receive env header (.pong m) →
    Admitted env header (.pong m) w.work → w.Live → w.outstanding ≠ some n
  expiry : ∀ env n, act = .expire env → env.interrupted = false → w.Live →
    w.outstanding ≠ some n

end World

section Steps

variable {w : World}

/-- No ping is on record, as when the node was made. -/
def Unrecorded (w : World) : Prop := w.work.node.pingNonceSent = 0

/-- Neither of the two places that send pings writes the record. -/
theorem step_unrecorded (w : World) (act : Act) (h : Unrecorded w) :
    Unrecorded (w.step act) := by
  cases act with
  | receive env header m =>
    rcases (handleMsgData_moves env header m w.work).ping with hsame | hzero
    · exact hsame.trans h
    · exact hzero
  | expire env => exact (congrArg Standing.pingNonceSent (pingTimeoutCb_steady env w.work)).trans h

/-- No message but verack makes a ping outstanding. -/
theorem step_outstanding (env : Env) (header : MessageHeader) {m : Message} (hm : m ≠ .verack) :
    (w.step (.receive env header m)).outstanding =
      if w.answered (.receive env header m) then none else w.outstanding := by
  have hroutine : ∀ e, routine e = true → routine e = true := fun _ h => h
  have hadds := handleMsgData_adds hroutine env header (fun h => absurd h hm) w.work
  have hpings : pings (handleMsgData env header m w.work).2.log = pings w.work.log := by
    refine hadds.filterMap_log fun e he => ?_
    cases e with
    | sent header m => cases m <;> first | rfl | cases he
    | _ => rfl
  change (if (pings w.work.log).length < (pings (handleMsgData env header m w.work).2.log).length
    then _ else _) = _
  rw [hpings, if_neg (Nat.lt_irrefl _)]

/-- Every pong is refused as unsolicited. -/
theorem pong_refused (h : Unrecorded w) {env : Env} {header : MessageHeader} {m : Pong}
    (hadmitted : Admitted env header (.pong m) w.work) :
    (handleMsgData env header (.pong m) w.work).1 = false := by
  rw [handleMsgData_of_admitted hadmitted]
  change ((if w.work.node.pingNonceSent = 0 then _ else _ : Handler Bool) _).1 = _
  have hzero : w.work.node.pingNonceSent = 0 := h
  rw [if_pos hzero]
  rfl

/-- A timer that expires leaves the state of the connection alone. -/
theorem expire_state (h : Unrecorded w) (env : Env) :
    (w.step (.expire env)).work.node.connection.connectionState =
      w.work.node.connection.connectionState := by
  change (pingTimeoutCb env w.work).2.node.connection.connectionState = _
  change ((if env.interrupted || w.work.node.isDisconnected then _ else _ : Handler Unit)
    w.work).2.node.connection.connectionState = _
  by_cases hdown : (env.interrupted || w.work.node.isDisconnected) = true
  · rw [if_pos hdown]
    rfl
  rw [if_neg hdown]
  have hzero : w.work.node.pingNonceSent = 0 := h
  rw [if_neg (not_not.mpr hzero)]
  exact congrArg Session.state (sends_leaves env (pingFor env w.work.node) w.work)

theorem checks_iff_untested_step (act : Act) (h : Unrecorded w) :
    w.Checks act ↔ w.Untested act := by
  constructor
  · rintro ⟨hpong, hexpiry⟩
    constructor
    · intro env header m n hact hadmitted hlive hout
      obtain ⟨hmatch, hother⟩ := hpong env header m n hact hadmitted hlive hout
      by_cases hn : m.nonce = n
      · have hrefused := pong_refused h hadmitted
        rw [(hmatch hn).1] at hrefused
        cases hrefused
      · obtain ⟨-, hrecord, hne⟩ := hother hn
        exact hne (hrecord.symm.trans (step_unrecorded w act h))
    · intro env n hact hup hlive hout
      have hdown := (hexpiry env n hact hup hlive hout).1
      rw [hact, Node.isDisconnected, NodeConnection.isDisconnected, expire_state h,
        hlive.1] at hdown
      cases hdown
  · rintro ⟨hpong, hexpiry⟩
    constructor
    · intro env header m n hact hadmitted hlive hout
      exact absurd hout (hpong env header m n hact hadmitted hlive)
    · intro env n hact hup hlive hout
      exact absurd hout (hexpiry env n hact hup hlive)

end Steps

/-- Whatever messages arrive from the first one on and however often the timer expires, the
check works exactly as long as it is not needed. -/
theorem checks_iff_untested (id : Nat) (addr : Address.NetAddr) (isInbound manual : Bool)
    (nonce : U64) (acts : List Act) :
    Throughout World.step World.Checks (World.start id addr isInbound manual nonce) acts ↔
      Throughout World.step World.Untested (World.start id addr isInbound manual nonce) acts :=
  throughout_congr (P := Unrecorded) rfl (fun w act h _ => step_unrecorded w act h)
    fun _ act h => checks_iff_untested_step act h

section Outbound

open Handshake

def receiveHere (m : Message) : Act := .receive outboundEnv (headerOf outboundEnv m) m

def outboundStart : World := World.start 2 outboundAddr false false 9

/-- Once the verack is in, a ping with nonce 1 is out. Its pong is refused, and the timer
does not disconnect the peer but sends the next ping. -/
theorem ping_forgotten :
    ¬ Throughout World.step World.Checks outboundStart
        [receiveHere (versionMessage 60002), receiveHere .verack,
          receiveHere (.pong { nonce := 1 })] ∧
      ¬ Throughout World.step World.Checks outboundStart
        [receiveHere (versionMessage 60002), receiveHere .verack, .expire outboundEnv] := by
  have hlive : World.Live ((outboundStart.step (receiveHere (versionMessage 60002))).step
      (receiveHere .verack)) := by
    decide +kernel
  have hout : ((outboundStart.step (receiveHere (versionMessage 60002))).step
      (receiveHere .verack)).outstanding = some 1 := by
    decide +kernel
  constructor
  · rintro ⟨-, -, hchecks, -⟩
    have hpong := (hchecks.pong _ _ _ 1 rfl (by decide +kernel) hlive hout).1 rfl
    exact absurd hpong.1 (by decide +kernel)
  · rintro ⟨-, -, hchecks, -⟩
    exact absurd (hchecks.expiry _ 1 rfl rfl hlive hout).1 (by decide +kernel)

end Outbound

end Pings
