import Btclite.Network.Pings
import Btclite.Network.TimerFlags
import Btclite.Utility.TimerFiring
import Mathlib.Logic.Function.Basic

/-!
# The timers of a node

A node holds its timers in seven slots, which are filled from four places and
emptied in one. A world here is a node with its slots and those timers of
`TimerMng` that have been started for it; the timers of other nodes are left
out. What is sent fills a slot whenever it is empty, and verack fills three
without a look at what is in them.
-/

namespace TimerSlots

open Serialize Messages Nodes Handlers Sessions Departures TimerFlags Timers Effects Runs

inductive Slot where
  | noMsgTimer
  | noSendingTimer
  | noReceivingTimer
  | shakehandsTimer
  | pingTimer
  | advertiseLocalAddrTimer
  | broadcastAddrsTimer
deriving DecidableEq

/-- The timers a node may have that verack starts. -/
def Slot.IsPeriodic : Slot → Prop
  | .pingTimer | .advertiseLocalAddrTimer | .broadcastAddrsTimer => True
  | _ => False

/-- The slots in the order in which they are stopped. -/
def Slot.all : List Slot :=
  [noMsgTimer, noSendingTimer, noReceivingTimer, shakehandsTimer, pingTimer,
    advertiseLocalAddrTimer, broadcastAddrsTimer]

def Slot.isSet (timers : NodeTimers) : Slot → Bool
  | .noMsgTimer => timers.noMsgTimer
  | .noSendingTimer => timers.noSendingTimer
  | .noReceivingTimer => timers.noReceivingTimer
  | .shakehandsTimer => timers.shakehandsTimer
  | .pingTimer => timers.pingTimer
  | .advertiseLocalAddrTimer => timers.advertiseLocalAddrTimer
  | .broadcastAddrsTimer => timers.broadcastAddrsTimer

def kNoMsgTimeout : Nat := 60
def kNoSendingTimeout : Nat := 2 * 60
def kNoReceivingTimeoutBip31 : Nat := 2 * 60
def kNoReceivingTimeout : Nat := 90 * 60
def kShakeHandsTimeout : Nat := 60
def kPingInterval : Nat := 2 * 60
def kRelayAddrsInterval : Nat := 30

def noReceivingTimeout (n : Node) : Nat :=
  if kBip31Version < n.protocolVersion then kNoReceivingTimeoutBip31 else kNoReceivingTimeout

/-- The node, its slots, the manager, what each timer was started for, and how many there
were when `StopAllTimers` was first run. -/
structure World where
  work : Work
  slots : Slot → Option Nat := fun _ => none
  mng : TimerMng := {}
  kinds : List Slot := []
  stoppedAt : Option Nat := none

/-- What a timer finds outside when it fires: the address messages there are to relay,
whether blocks are still downloaded, and the next interval. -/
structure Firing where
  env : Env
  addrs : List Addr
  initialBlockDownload : Bool
  interval : Nat
  now : Millis

namespace World

section Slots

/-- A slot is set to what `StartTimer` returns. -/
def start (k : Slot) (timeout interval : Nat) (now : Millis) (w : World) : World :=
  if timeout = 0 then { w with slots := Function.update w.slots k none }
  else
    { w with
      slots := Function.update w.slots k (some w.mng.cfgs.length)
      mng := w.mng.startTimer timeout interval now
      kinds := w.kinds ++ [k] }

/-- The timer in a slot is reset, or one is started for it. -/
def touch (k : Slot) (timeout : Nat) (now : Millis) (w : World) : World :=
  match w.slots k with
  | some timer => { w with mng := w.mng.reset timer 0 0 now }
  | none => w.start k timeout 0 now

def stopTimer (k : Slot) (w : World) : World :=
  match w.slots k with
  | some timer => { w with mng := w.mng.stopTimer timer }
  | none => w

def stopSlot (w : World) (k : Slot) : World :=
  { w.stopTimer k with slots := Function.update w.slots k none }

def stopAllTimers (w : World) : World :=
  { Slot.all.foldl stopSlot w with stoppedAt := some (w.stoppedAt.getD w.mng.cfgs.length) }

def setInterval (k : Slot) (interval : Nat) (w : World) : World :=
  match w.slots k with
  | some timer => { w with mng := w.mng.setInterval timer interval }
  | none => w

end Slots

section Handlers

/-- What is done about the timers where a handler reports this. -/
def observe (now : Millis) (w : World) : Nodes.Event → World
  | .sent _ _ => w.touch .noSendingTimer (kNoSendingTimeout * 1000) now
  | .erased => w.stopAllTimers
  | _ => w

def perform {A : Type} (h : Handler A) (now : Millis) (w : World) : World :=
  let work := (h w.work).2
  (work.log.drop w.work.log.length).foldl (observe now) { w with work }

/-- `ConnReadCb`, which finds no node when it has been erased. -/
def read (now : Millis) (w : World) : World :=
  if w.stoppedAt.isSome then w
  else
    { w with work := (connReadCb w.work).2 }.touch .noReceivingTimer
      (noReceivingTimeout w.work.node * 1000) now

/-- The end of `Verack::RecvHandler`. -/
def settle (advertise : Bool) (advertiseTimeout : Nat) (now : Millis) (w : World) : World :=
  let w := w.start .pingTimer (kPingInterval * 1000) (kPingInterval * 1000) now
  let w := if advertise then w.start .advertiseLocalAddrTimer advertiseTimeout 0 now else w
  w.start .broadcastAddrsTimer (kRelayAddrsInterval * 1000) 0 now

/-- `HandleMsgData`. -/
def receive (env : Env) (header : MessageHeader) (m : Message) (advertiseTimeout : Nat)
    (now : Millis) (w : World) : World :=
  let handled := w.perform (handleMsgData env header m) now
  if m = .verack ∧ Admitted env header m w.work then
    handled.settle env.advertiseLocalAddr advertiseTimeout now
  else handled

end Handlers

section Callbacks

def inactivityTimeoutCb (f : Firing) (w : World) : World :=
  w.perform (Nodes.inactivityTimeoutCb f.env) f.now

def socketNoMsgTimeoutCb (f : Firing) (w : World) : World :=
  w.perform (Nodes.socketNoMsgTimeoutCb f.env) f.now

def shakeHandsTimeoutCb (f : Firing) (w : World) : World :=
  w.perform (Nodes.shakeHandsTimeoutCb f.env) f.now

/-- A ping that is not answered has its timer stopped, with the pointer left in the slot. -/
def pingTimeoutCb (f : Firing) (w : World) : World :=
  let stopped :=
    if !(f.env.interrupted || w.work.node.isDisconnected) && w.work.node.pingNonceSent != 0 then
      w.stopTimer .pingTimer
    else w
  stopped.perform (Handlers.pingTimeoutCb f.env) f.now

def advertiseLocalTimeoutCb (f : Firing) (w : World) : World :=
  if f.env.interrupted || w.work.node.isDisconnected then w
  else
    let advertised := if f.initialBlockDownload then w
      else w.perform (emit (.localAddrAdvertised false)) f.now
    advertised.setInterval .advertiseLocalAddrTimer f.interval

def relayFloodingAddrsTimeoutCb (f : Firing) (w : World) : World :=
  if f.env.interrupted || w.work.node.isDisconnected then w
  else
    (f.addrs.foldl (fun w m => w.perform (sendMsg f.env (.addr m)) f.now) w).setInterval
      .broadcastAddrsTimer f.interval

/-- The callback of the timer in a slot. -/
def fire (f : Firing) (w : World) : Slot → World
  | .noMsgTimer => w.socketNoMsgTimeoutCb f
  | .noSendingTimer | .noReceivingTimer => w.inactivityTimeoutCb f
  | .shakehandsTimer => w.shakeHandsTimeoutCb f
  | .pingTimer => w.pingTimeoutCb f
  | .advertiseLocalAddrTimer => w.advertiseLocalTimeoutCb f
  | .broadcastAddrsTimer => w.relayFloodingAddrsTimeoutCb f

def invokeTimerCb (i : Nat) (f : Firing) (w : World) : World :=
  match w.mng.running[i]? with
  | some (timer, .taken) =>
    let invoked := { w with mng := w.mng.invokeTimerCb i }
    match w.kinds[timer]? with
    | some k => invoked.fire f k
    | none => invoked
  | _ => w

end Callbacks

/-- `Nodes::InitializeNode`. -/
def initializeNode (id : Nat) (addr : Address.NetAddr) (isInbound manual : Bool) (nonce : U64)
    (now : Millis) : World :=
  (start .noMsgTimer (kNoMsgTimeout * 1000) 0 now
    { work := ⟨Nodes.initializeNode id addr isInbound manual nonce, []⟩ }).start
      .shakehandsTimer (kShakeHandsTimeout * 1000) 0 now

/-- The timers of one kind that the manager holds. -/
def held (w : World) (k : Slot) : List Nat := w.mng.timers.filter fun t => w.kinds[t]? = some k

end World

/-- Bytes come in, a message is handled or its header refused, something is sent, the node
is disconnected in one of the ways there are, or the manager goes on. -/
inductive Act where
  | read (now : Millis)
  | receive (env : Env) (header : MessageHeader) (m : Message) (advertiseTimeout : Nat)
    (now : Millis)
  | reject (env : Env) (now : Millis)
  | send (env : Env) (m : Message) (now : Millis)
  | checkBanned (env : Env) (now : Millis)
  | connEvent (env : Env) (now : Millis)
  | disconnectNode (env : Env) (now : Millis)
  | check (now : Millis)
  | take
  | invoke (i : Nat) (f : Firing)
  | returned (i : Nat)
  | rearm (i : Nat) (now : Millis)
  | completed (i : Nat)

def step (w : World) : Act → World
  | .read now => w.read now
  | .receive env header m advertiseTimeout now => w.receive env header m advertiseTimeout now
  | .reject env now => w.perform (disconnect env) now
  | .send env m now => w.perform (sendMsg env m) now
  | .checkBanned env now => w.perform (checkBanned env) now
  | .connEvent env now => w.perform (connEventCb env) now
  | .disconnectNode env now => w.perform (disconnectNode env) now
  | .check now => { w with mng := w.mng.checkTimers now }
  | .take => { w with mng := w.mng.takeTask }
  | .invoke i f => w.invokeTimerCb i f
  | .returned i => { w with mng := w.mng.callbackReturned i }
  | .rearm i now => { w with mng := w.mng.rearm i now }
  | .completed i => { w with mng := w.mng.completed i }

/-- The manager holds at most one timer of each periodic kind, and none at all from when
the node is disconnected, when none is started any more either. To get here the end of its list
was not erased. -/
structure Tidy (w : World) : Prop where
  defined : Defined w.mng
  single : ∀ k : Slot, k.IsPeriodic → (w.held k).length ≤ 1
  none_left : ∀ n, w.stoppedAt = some n → w.mng.timers = [] ∧ w.mng.cfgs.length = n

/-- The handler sends nothing that gets out. -/
def Silent {A : Type} (h : Handler A) (w : Work) : Prop :=
  ∀ e ∈ (h w).2.log.drop w.log.length, isSent e = false

/-- Verack is handled once at most, and neither is it handled nor anything sent once the
node has been disconnected. -/
def Timely (w : World) : Act → Prop
  | .receive env header m _ _ =>
    (m = .verack ∧ Admitted env header m w.work →
      .stateSet .kEstablished ∉ w.work.log ∧ w.stoppedAt = none) ∧
    (w.stoppedAt.isSome → Silent (handleMsgData env header m) w.work)
  | .send env m _ => w.stoppedAt.isSome → Silent (sendMsg env m) w.work
  | _ => True

section Removals

/-- The timers that are stopped if the handler closes the connection. -/
def World.stops {A : Type} (h : Handler A) (w : World) : List Nat :=
  if .erased ∈ (h w.work).2.log.drop w.work.log.length then Slot.all.filterMap w.slots else []

/-- The timers that a callback stops. -/
def World.callbackStops (f : Firing) (w : World) : Slot → List Nat
  | .noMsgTimer => w.stops (Nodes.socketNoMsgTimeoutCb f.env)
  | .noSendingTimer | .noReceivingTimer => w.stops (Nodes.inactivityTimeoutCb f.env)
  | .shakehandsTimer => w.stops (Nodes.shakeHandsTimeoutCb f.env)
  | .pingTimer =>
    let stops := w.stops (Handlers.pingTimeoutCb f.env)
    if !(f.env.interrupted || w.work.node.isDisconnected) && w.work.node.pingNonceSent != 0 then
      (w.slots .pingTimer).toList ++ stops
    else stops
  | .advertiseLocalAddrTimer | .broadcastAddrsTimer => []

/-- The timers that a step looks for in the manager's list in order to remove them. -/
def asked (w : World) : Act → List Nat
  | .receive env header m _ _ => w.stops (handleMsgData env header m)
  | .reject env _ => w.stops (disconnect env)
  | .checkBanned env _ => w.stops (checkBanned env)
  | .connEvent env _ => w.stops (connEventCb env)
  | .disconnectNode env _ => w.stops (disconnectNode env)
  | .invoke i f =>
    match w.mng.running[i]? with
    | some (timer, .taken) => (w.kinds[timer]?).elim [] (w.callbackStops f)
    | _ => []
  | .completed i =>
    match w.mng.running[i]? with
    | some (timer, .removing) => [timer]
    | _ => []
  | _ => []

/-- The manager's list has these timers, and none of them is there twice. -/
def Present (m : TimerMng) (ts : List Nat) : Prop := ts.Nodup ∧ ts ⊆ m.timers

instance (m : TimerMng) (ts : List Nat) : Decidable (Present m ts) :=
  inferInstanceAs (Decidable (_ ∧ _))

end Removals

/-- Verack and what is sent come in time, and a timer is looked for to be removed only while
the manager's list has it. -/
def Orderly (w : World) (a : Act) : Prop := Timely w a ∧ Present w.mng (asked w a)

section Owning

variable {w : World} {k : Slot} {m' : TimerMng} {now : Millis}

/-- Every timer in the manager is in the slot it was started for, and when the node has been
disconnected the slots are empty and stay so. -/
structure Owned (w : World) : Prop where
  nodup : w.mng.timers.Nodup
  kinds : w.kinds.length = w.mng.cfgs.length
  held : ∀ t ∈ w.mng.timers, ∃ k, w.kinds[t]? = some k ∧ w.slots k = some t
  empty : w.stoppedAt.isSome → ∀ k, w.slots k = none
  none_more : ∀ n, w.stoppedAt = some n → w.mng.cfgs.length = n

/-- Timers are taken out of the list at most. -/
def Shrinks (m m' : TimerMng) : Prop :=
  m'.timers.Sublist m.timers ∧ m'.cfgs.length = m.cfgs.length

theorem shrinks_of_spares {m : TimerMng} (h : Spares m m') : Shrinks m m' :=
  ⟨h.timers ▸ List.Sublist.refl _, h.cfgs⟩

theorem shrinks_of_removes {m : TimerMng} {t : Nat} (h : Removes m t m') : Shrinks m m' :=
  ⟨h.timers ▸ List.erase_sublist, h.cfgs⟩

theorem Owned.shrink (h : Owned w) (hm : Shrinks w.mng m') : Owned { w with mng := m' } where
  nodup := h.nodup.sublist hm.1
  kinds := h.kinds.trans hm.2.symm
  held := fun t ht => h.held t (hm.1.subset ht)
  empty := h.empty
  none_more := fun n hn => hm.2.trans (h.none_more n hn)

theorem Owned.of_work (h : Owned w) (work : Work) : Owned { w with work } :=
  ⟨h.nodup, h.kinds, h.held, h.empty, h.none_more⟩

/-- The manager holds no timer of a kind whose slot is empty. -/
theorem Owned.start (h : Owned w) (hslot : w.slots k = none) (hstop : w.stoppedAt = none)
    (timeout interval : Nat) (now : Millis) : Owned (w.start k timeout interval now) := by
  unfold World.start
  split_ifs with htimeout
  · have hsame : Function.update w.slots k none = w.slots := by
      rw [← hslot, Function.update_eq_self]
    rw [hsame]
    exact h
  have htimers : (w.mng.startTimer timeout interval now).timers =
      w.mng.timers ++ [w.mng.cfgs.length] := by
    simp [TimerMng.startTimer, htimeout]
  have hcfgs : (w.mng.startTimer timeout interval now).cfgs.length =
      w.mng.cfgs.length + 1 := by
    simp [TimerMng.startTimer, htimeout]
  have hbound : ∀ t ∈ w.mng.timers, t < w.kinds.length := by
    intro t ht
    obtain ⟨k', hk', -⟩ := h.held t ht
    exact (List.getElem?_eq_some_iff.mp hk').1
  constructor
  · rw [htimers]
    apply h.nodup.append (List.nodup_singleton _)
    intro t ht hnew
    have hlt := hbound t ht
    rw [List.mem_singleton.mp hnew, h.kinds] at hlt
    exact Nat.lt_irrefl _ hlt
  · rw [hcfgs, List.length_append, h.kinds, List.length_singleton]
  · intro t ht
    rw [htimers] at ht
    rcases List.mem_append.mp ht with ht | ht
    · obtain ⟨k', hk', hslot'⟩ := h.held t ht
      have hne : k' ≠ k := by
        rintro rfl
        rw [hslot] at hslot'
        cases hslot'
      refine ⟨k', ?_, ?_⟩
      · rw [List.getElem?_append_left (hbound t ht)]
        exact hk'
      · change Function.update w.slots k _ k' = some t
        rw [Function.update_of_ne hne]
        exact hslot'
    · rw [List.mem_singleton.mp ht]
      refine ⟨k, ?_, Function.update_self ..⟩
      rw [← h.kinds, List.getElem?_append_right (Nat.le_refl _), Nat.sub_self]
      rfl
  · intro hsome
    rw [hstop] at hsome
    cases hsome
  · intro n hn
    rw [hstop] at hn
    cases hn

theorem Owned.touch (h : Owned w) (hstop : w.stoppedAt = none) (timeout : Nat) (now : Millis) :
    Owned (w.touch k timeout now) := by
  unfold World.touch
  split
  · exact h.shrink (shrinks_of_spares (spares_reset ..))
  · next hslot => exact h.start hslot hstop timeout 0 now

theorem Owned.stopTimer (h : Owned w) (k : Slot) : Owned (w.stopTimer k) := by
  unfold World.stopTimer
  split
  · exact h.shrink (shrinks_of_removes (removes_stopTimer ..))
  · exact h

theorem Owned.setInterval (h : Owned w) (k : Slot) (interval : Nat) :
    Owned (w.setInterval k interval) := by
  unfold World.setInterval
  split
  · exact h.shrink (shrinks_of_spares (spares_setInterval ..))
  · exact h

/-- What stopping a slot does not touch. -/
theorem stopSlot_frame (w : World) (k : Slot) :
    (w.stopSlot k).work = w.work ∧ (w.stopSlot k).kinds = w.kinds ∧
      (w.stopSlot k).stoppedAt = w.stoppedAt ∧
      (w.stopSlot k).mng.cfgs.length = w.mng.cfgs.length := by
  unfold World.stopSlot World.stopTimer
  cases w.slots k with
  | none => exact ⟨rfl, rfl, rfl, rfl⟩
  | some t => exact ⟨rfl, rfl, rfl, rfl⟩

theorem Owned.stopSlot (h : Owned w) (k : Slot) : Owned (w.stopSlot k) := by
  have hstopped := h.stopTimer k
  obtain ⟨-, hkinds, hstop, hcfgs⟩ := stopSlot_frame w k
  constructor
  · exact hstopped.nodup
  · exact hstopped.kinds
  · intro t ht
    have hslots : (w.stopTimer k).slots = w.slots := by
      unfold World.stopTimer
      split <;> rfl
    obtain ⟨k', hk', hslot⟩ := hstopped.held t ht
    refine ⟨k', hk', ?_⟩
    rw [hslots] at hslot
    have hne : k' ≠ k := by
      rintro rfl
      have hgone : t ∉ (w.stopTimer k').mng.timers := by
        simp only [World.stopTimer, hslot]
        exact h.nodup.not_mem_erase
      exact hgone ht
    simp only [World.stopSlot, Function.update_of_ne hne]
    exact hslot
  · intro hsome k'
    rw [hstop] at hsome
    simp only [World.stopSlot]
    by_cases hk : k' = k
    · rw [hk, Function.update_self]
    · rw [Function.update_of_ne hk]
      exact h.empty hsome k'
  · intro n hn
    rw [hcfgs]
    exact h.none_more n (hstop ▸ hn)

/-- The slots are stopped one after the other. -/
theorem foldl_stopSlot (ks : List Slot) (w : World) :
    (ks.foldl World.stopSlot w).work = w.work ∧
      (ks.foldl World.stopSlot w).stoppedAt = w.stoppedAt ∧
      (ks.foldl World.stopSlot w).mng.cfgs.length = w.mng.cfgs.length ∧
      ∀ k, k ∈ ks ∨ w.slots k = none → (ks.foldl World.stopSlot w).slots k = none := by
  induction ks generalizing w with
  | nil => exact ⟨rfl, rfl, rfl, fun k hk => hk.resolve_left List.not_mem_nil⟩
  | cons k ks ih =>
    obtain ⟨hwork, -, hstop, hcfgs⟩ := stopSlot_frame w k
    obtain ⟨ihwork, ihstop, ihcfgs, ihnone⟩ := ih (w.stopSlot k)
    refine ⟨ihwork.trans hwork, ihstop.trans hstop, ihcfgs.trans hcfgs, ?_⟩
    intro k' hk'
    apply ihnone
    by_cases heq : k' = k
    · right
      rw [heq, World.stopSlot]
      exact Function.update_self ..
    · rcases hk' with hk' | hk'
      · exact Or.inl ((List.mem_cons.mp hk').resolve_left heq)
      · right
        simp only [World.stopSlot, Function.update_of_ne heq]
        exact hk'

theorem stopAllTimers_work (w : World) : w.stopAllTimers.work = w.work :=
  (foldl_stopSlot Slot.all w).1

theorem stopAllTimers_slots (w : World) (k : Slot) : w.stopAllTimers.slots k = none := by
  apply (foldl_stopSlot Slot.all w).2.2.2 k
  left
  cases k <;> simp [Slot.all]

theorem Owned.foldl_stopSlot (ks : List Slot) (h : Owned w) :
    Owned (ks.foldl World.stopSlot w) :=
  List.foldlRecOn ks World.stopSlot h fun _ hw k _ => hw.stopSlot k

theorem Owned.stopAllTimers (h : Owned w) : Owned w.stopAllTimers := by
  have howned := h.foldl_stopSlot Slot.all
  constructor
  · exact howned.nodup
  · exact howned.kinds
  · exact howned.held
  · exact fun _ k => stopAllTimers_slots w k
  · intro n hn
    change some (w.stoppedAt.getD w.mng.cfgs.length) = some n at hn
    change (Slot.all.foldl World.stopSlot w).mng.cfgs.length = n
    rw [(TimerSlots.foldl_stopSlot Slot.all w).2.2.1]
    cases hstop : w.stoppedAt with
    | none =>
      rw [hstop] at hn
      exact Option.some.inj hn
    | some n' =>
      rw [hstop] at hn
      rw [h.none_more n' hstop]
      exact Option.some.inj hn

end Owning

section Performing

variable {w : World} {k : Slot} {now : Millis} {es : List Nodes.Event}

theorem start_frame (w : World) (k : Slot) (timeout interval : Nat) (now : Millis) :
    (w.start k timeout interval now).work = w.work ∧
      (w.start k timeout interval now).stoppedAt = w.stoppedAt ∧
      ∀ k', k' ≠ k → (w.start k timeout interval now).slots k' = w.slots k' := by
  unfold World.start
  split_ifs
  · exact ⟨rfl, rfl, fun _ hk => Function.update_of_ne hk ..⟩
  · exact ⟨rfl, rfl, fun _ hk => Function.update_of_ne hk ..⟩

theorem touch_frame (w : World) (k : Slot) (timeout : Nat) (now : Millis) :
    (w.touch k timeout now).work = w.work ∧ (w.touch k timeout now).stoppedAt = w.stoppedAt ∧
      ∀ k', k' ≠ k → (w.touch k timeout now).slots k' = w.slots k' := by
  unfold World.touch
  split
  · exact ⟨rfl, rfl, fun _ _ => rfl⟩
  · exact start_frame w k timeout 0 now

theorem Slot.IsPeriodic.ne_sending (h : k.IsPeriodic) : k ≠ .noSendingTimer := by
  rintro rfl
  exact h

theorem observe_work (now : Millis) (w : World) (e : Nodes.Event) :
    (w.observe now e).work = w.work := by
  cases e with
  | sent header m => exact (touch_frame ..).1
  | erased => exact stopAllTimers_work w
  | _ => rfl

theorem observe_slots (hk : k.IsPeriodic) (h : w.slots k = none) (e : Nodes.Event) :
    (w.observe now e).slots k = none := by
  cases e with
  | sent header m => exact ((touch_frame ..).2.2 k hk.ne_sending).trans h
  | erased => exact stopAllTimers_slots w k
  | _ => exact h

theorem foldl_observe_work (now : Millis) (es : List Nodes.Event) (w : World) :
    (es.foldl (World.observe now) w).work = w.work := by
  refine List.foldlRecOn es _ (motive := fun w' : World => w'.work = w.work) rfl ?_
  exact fun w' hw e _ => (observe_work now w' e).trans hw

theorem foldl_observe_slots (hk : k.IsPeriodic) (h : w.slots k = none) :
    (es.foldl (World.observe now) w).slots k = none := by
  refine List.foldlRecOn es _ (motive := fun w' : World => w'.slots k = none) h ?_
  exact fun w' hw e _ => observe_slots hk hw e

/-- Before the node is erased, what is sent keeps the slots in order. -/
theorem Owned.foldl_sent (h : Owned w) (hstop : w.stoppedAt = none)
    (hes : ∀ e ∈ es, e ≠ .erased) (now : Millis) :
    Owned (es.foldl (World.observe now) w) ∧
      (es.foldl (World.observe now) w).stoppedAt = none := by
  refine List.foldlRecOn es _ (motive := fun w => Owned w ∧ w.stoppedAt = none) ⟨h, hstop⟩ ?_
  rintro w ⟨hw, hstop⟩ e he
  cases e with
  | sent header m => exact ⟨hw.touch hstop .., (touch_frame ..).2.1.trans hstop⟩
  | erased => exact absurd rfl (hes _ he)
  | _ => exact ⟨hw, hstop⟩

/-- So does the node being erased, once more or for the first time. -/
theorem Owned.foldl_unsent (h : Owned w) (hes : ∀ e ∈ es, isSent e = false) :
    Owned (es.foldl (World.observe now) w) := by
  refine List.foldlRecOn es _ h ?_
  intro w hw e he
  cases e with
  | sent header m => exact absurd (hes _ he) (by simp [isSent])
  | erased => exact hw.stopAllTimers
  | _ => exact hw

theorem foldl_mute (hes : ∀ e ∈ es, e ≠ .erased ∧ isSent e = false) :
    es.foldl (World.observe now) w = w := by
  refine List.foldlRecOn es _ (motive := fun w' : World => w' = w) rfl ?_
  rintro _ rfl e he
  cases e with
  | sent header m => exact absurd (hes _ he).2 (by simp [isSent])
  | erased => exact absurd rfl (hes _ he).1
  | _ => rfl

/-- Besides, the periodic slots are empty until the connection is established, and a node
that has been disconnected stays so. -/
structure Sound (w : World) : Prop extends Owned w where
  fresh : .stateSet .kEstablished ∉ w.work.log → ∀ k : Slot, k.IsPeriodic → w.slots k = none
  down : w.stoppedAt.isSome → w.work.node.isDisconnected = true

variable {A : Type} {h : Handler A}

theorem perform_of_log {es : List Nodes.Event} (hlog : (h w.work).2.log = w.work.log ++ es) :
    w.perform h now = es.foldl (World.observe now) { w with work := (h w.work).2 } := by
  unfold World.perform
  dsimp only
  rw [hlog, List.drop_left]

theorem perform_eq {P : Nodes.Event → Prop} (hf : Follows P w.work (h w.work).2)
    (now : Millis) :
    ∃ es, (h w.work).2.log = w.work.log ++ es ∧ (∀ e ∈ es, P e) ∧
      w.perform h now = es.foldl (World.observe now) { w with work := (h w.work).2 } := by
  obtain ⟨es, hlog, hall, -⟩ := hf
  exact ⟨es, hlog, hall, perform_of_log hlog⟩

theorem perform_sound (hs : Sound w) (hmoves : Moves w.work (h w.work).2)
    (hsilent : w.stoppedAt.isSome → Silent h w.work) (now : Millis) :
    Sound (w.perform h now) := by
  have hfresh : ∀ {es : List Nodes.Event}, (h w.work).2.log = w.work.log ++ es →
      .stateSet .kEstablished ∉ (h w.work).2.log → ∀ k : Slot, k.IsPeriodic →
      (es.foldl (World.observe now) { w with work := (h w.work).2 }).slots k = none := by
    intro es hlog hnone k hk
    apply foldl_observe_slots hk
    apply hs.fresh _ k hk
    exact fun hmem => hnone (hlog ▸ List.mem_append_left es hmem)
  rcases hmoves with hcalm | hending
  · obtain ⟨es, hlog, hall, hrun⟩ := perform_eq hcalm.follows now
    rw [hrun]
    by_cases hstop : w.stoppedAt = none
    · obtain ⟨howned, hnone⟩ := (hs.toOwned.of_work (h w.work).2).foldl_sent hstop hall now
      refine ⟨howned, ?_, ?_⟩
      · rw [foldl_observe_work]
        exact hfresh hlog
      · rw [hnone]
        exact fun hsome => absurd hsome (by simp)
    · have hunsent := hsilent (Option.isSome_iff_ne_none.mpr hstop)
      rw [Silent, hlog, List.drop_left] at hunsent
      rw [foldl_mute fun e he => ⟨hall e he, hunsent e he⟩]
      refine ⟨hs.toOwned.of_work _, ?_, ?_⟩
      · intro hnone k hk
        have hslot := hfresh hlog hnone k hk
        rwa [foldl_mute fun e he => ⟨hall e he, hunsent e he⟩] at hslot
      · intro hsome
        exact hcalm.isDisconnected.trans (hs.down hsome)
  · obtain ⟨es, hlog, hall, hrun⟩ := perform_eq hending.follows now
    rw [hrun]
    refine ⟨(hs.toOwned.of_work _).foldl_unsent hall, ?_, ?_⟩
    · rw [foldl_observe_work]
      exact hfresh hlog
    · rw [foldl_observe_work]
      exact fun _ => hending.state

end Performing

section Steps

variable {w : World} {m' : TimerMng} {now : Millis} {f : Firing}

theorem Sound.of_frame {w' : World} (hs : Sound w) (howned : Owned w') (hwork : w'.work = w.work)
    (hslots : w'.slots = w.slots) (hstop : w'.stoppedAt = w.stoppedAt) : Sound w' where
  toOwned := howned
  fresh := by
    rw [hwork, hslots]
    exact hs.fresh
  down := by
    rw [hwork, hstop]
    exact hs.down

theorem Sound.shrink (hs : Sound w) (hm : Shrinks w.mng m') : Sound { w with mng := m' } :=
  hs.of_frame (hs.toOwned.shrink hm) rfl rfl rfl

theorem Sound.stopTimer (hs : Sound w) (k : Slot) : Sound (w.stopTimer k) := by
  have howned := hs.toOwned.stopTimer k
  unfold World.stopTimer at howned ⊢
  split at howned
  · exact hs.of_frame howned rfl rfl rfl
  · exact hs

theorem Sound.setInterval (hs : Sound w) (k : Slot) (interval : Nat) :
    Sound (w.setInterval k interval) := by
  have howned := hs.toOwned.setInterval k interval
  unfold World.setInterval at howned ⊢
  split at howned
  · exact hs.of_frame howned rfl rfl rfl
  · exact hs

theorem silent_of_unsent {A : Type} {h : Handler A} {w : Work}
    (hf : Follows (fun e => isSent e = false) w (h w).2) : Silent h w := by
  obtain ⟨es, hlog, hall, -⟩ := hf
  rw [Silent, hlog, List.drop_left]
  exact hall

theorem silent_of_quits {A : Type} {h : Handler A} {w : Work} (hq : Quits w (h w).2) :
    Silent h w := by
  rcases hq with hmute | hending
  · exact silent_of_unsent (hmute.follows.mono fun _ he => he.2)
  · exact silent_of_unsent hending.follows

theorem perform_quits {A : Type} {h : Handler A} (hs : Sound w) (hq : Does Quits h)
    (now : Millis) : Sound (w.perform h now) :=
  perform_sound hs (quits_moves hq w.work) (fun _ => silent_of_quits (hq w.work)) now

theorem perform_sends {A : Type} {h : Handler A} (hs : Sound w) (hc : Does Calm h)
    (hstop : w.stoppedAt = none) (now : Millis) :
    Sound (w.perform h now) ∧ (w.perform h now).stoppedAt = none := by
  constructor
  · exact perform_sound hs (Or.inl (hc w.work)) (by simp [hstop]) now
  · obtain ⟨es, -, hall, hrun⟩ := perform_eq (hc w.work).follows now
    rw [hrun]
    exact ((hs.toOwned.of_work (h w.work).2).foldl_sent hstop hall now).2

theorem settle_sound {advertise : Bool} {timeout : Nat} (howned : Owned w)
    (hlog : .stateSet .kEstablished ∈ w.work.log) (hstop : w.stoppedAt = none)
    (hslots : ∀ k : Slot, k.IsPeriodic → w.slots k = none) :
    Sound (w.settle advertise timeout now) := by
  let w₁ := w.start .pingTimer (kPingInterval * 1000) (kPingInterval * 1000) now
  let w₂ := if advertise then w₁.start .advertiseLocalAddrTimer timeout 0 now else w₁
  obtain ⟨hwork₁, hstop₁, hframe₁⟩ := start_frame w .pingTimer (kPingInterval * 1000)
    (kPingInterval * 1000) now
  have howned₁ : Owned w₁ := howned.start (hslots .pingTimer trivial) hstop ..
  have hadvertise : w₁.slots .advertiseLocalAddrTimer = none :=
    (hframe₁ _ (by simp)).trans (hslots .advertiseLocalAddrTimer trivial)
  have hsecond : Owned w₂ ∧ w₂.work = w₁.work ∧ w₂.stoppedAt = w₁.stoppedAt ∧
      w₂.slots .broadcastAddrsTimer = w₁.slots .broadcastAddrsTimer := by
    dsimp only [w₂]
    split_ifs
    · obtain ⟨hwork₂, hstop₂, hframe₂⟩ := start_frame w₁ .advertiseLocalAddrTimer timeout 0 now
      exact ⟨howned₁.start hadvertise (hstop₁.trans hstop) .., hwork₂, hstop₂, hframe₂ _ (by simp)⟩
    · exact ⟨howned₁, rfl, rfl, rfl⟩
  obtain ⟨howned₂, hwork₂, hstop₂, hslot₂⟩ := hsecond
  have hbroadcast : w₂.slots .broadcastAddrsTimer = none :=
    hslot₂.trans ((hframe₁ _ (by simp)).trans (hslots .broadcastAddrsTimer trivial))
  have hstop' : w₂.stoppedAt = none := hstop₂.trans (hstop₁.trans hstop)
  obtain ⟨hwork₃, hstop₃, -⟩ := start_frame w₂ .broadcastAddrsTimer (kRelayAddrsInterval * 1000)
    0 now
  change Sound (w₂.start .broadcastAddrsTimer (kRelayAddrsInterval * 1000) 0 now)
  refine ⟨howned₂.start hbroadcast hstop' .., ?_, ?_⟩
  · rw [hwork₃, hwork₂, hwork₁]
    exact fun hnone => absurd hlog hnone
  · rw [hstop₃, hstop']
    exact fun hsome => absurd hsome (by simp)

theorem receive_sound {env : Env} {header : MessageHeader} {m : Message} {timeout : Nat}
    (hs : Sound w) (ho : Timely w (.receive env header m timeout now)) :
    Sound (w.receive env header m timeout now) := by
  obtain ⟨hverack, hsilent⟩ := ho
  unfold World.receive
  split_ifs with hin
  · obtain ⟨hnone, hstop⟩ := hverack hin
    obtain ⟨rfl, hin⟩ := hin
    obtain ⟨es, hlog, hall, hest, -⟩ := verack_follows hin
    obtain ⟨howned, hstop'⟩ := (hs.toOwned.of_work
      (handleMsgData env header .verack w.work).2).foldl_sent hstop hall now
    rw [perform_of_log hlog]
    apply settle_sound howned
    · rw [foldl_observe_work, hlog]
      exact List.mem_append_right _ hest
    · exact hstop'
    · exact fun k hk => foldl_observe_slots hk (hs.fresh hnone k hk)
  · exact perform_sound hs (handleMsgData_moves hin) hsilent now

theorem read_sound (hs : Sound w) (now : Millis) : Sound (w.read now) := by
  unfold World.read
  split_ifs with hstop
  · exact hs
  have hnone : w.stoppedAt = none := by simpa using hstop
  obtain ⟨hwork, hstop', hslots⟩ := touch_frame { w with work := (connReadCb w.work).2 }
    .noReceivingTimer (noReceivingTimeout w.work.node * 1000) now
  refine ⟨(hs.toOwned.of_work (connReadCb w.work).2).touch hnone .., ?_, ?_⟩
  · rw [hwork]
    intro hlog k hk
    have hne : k ≠ .noReceivingTimer := by
      rintro rfl
      exact hk
    exact (hslots k hne).trans (hs.fresh hlog k hk)
  · rw [hstop', hnone]
    exact fun hsome => absurd hsome (by simp)

theorem advertise_sound (hs : Sound w) (f : Firing) :
    Sound (w.advertiseLocalTimeoutCb f) := by
  unfold World.advertiseLocalTimeoutCb
  split_ifs
  · exact hs
  · exact hs.setInterval ..
  · apply Sound.setInterval
    exact perform_quits hs (fun _ => Or.inl
      (emit_stays (by simp [isSent]) (fun _ => rfl) _)) f.now

/-- A node that is not disconnected has its timers, so that they may be touched. -/
theorem relay_sound (hs : Sound w) (f : Firing) :
    Sound (w.relayFloodingAddrsTimeoutCb f) := by
  unfold World.relayFloodingAddrsTimeoutCb
  split_ifs with hend
  · exact hs
  have hup : w.stoppedAt = none := by
    by_contra hstop
    exact hend (by simp [hs.down (Option.isSome_iff_ne_none.mpr hstop)])
  apply Sound.setInterval
  refine (List.foldlRecOn f.addrs _ (motive := fun w => Sound w ∧ w.stoppedAt = none)
    ⟨hs, hup⟩ ?_).1
  rintro w ⟨hs, hstop⟩ m -
  exact perform_sends hs (sendMsg_calm f.env _) hstop f.now

theorem pingTimeoutCb_effect (env : Env) (w : Work) : Moves w (Handlers.pingTimeoutCb env w).2 ∧
    (w.node.isDisconnected = true → Silent (Handlers.pingTimeoutCb env) w) := by
  have hquiet : (env.interrupted || w.node.isDisconnected) = true →
      (Handlers.pingTimeoutCb env w).2 = w := by
    intro h
    change ((if env.interrupted || w.node.isDisconnected then pure () else _ :
      Handler Unit) w).2 = w
    rw [if_pos h]
    rfl
  constructor
  · by_cases h : (env.interrupted || w.node.isDisconnected) = true
    · rw [hquiet h]
      exact Or.inl (refl_of _ w)
    · change Moves w ((if env.interrupted || w.node.isDisconnected then _ else _ :
        Handler Unit) w).2
      rw [if_neg h]
      split_ifs
      · exact Or.inr (disconnect_ending env w)
      · exact Or.inl (sends_calm env _ w)
  · intro hdown
    apply silent_of_quits
    rw [hquiet (by simp [hdown])]
    exact Or.inl (refl_of _ w)

theorem ping_sound (hs : Sound w) (f : Firing) : Sound (w.pingTimeoutCb f) := by
  unfold World.pingTimeoutCb
  have hstopped : ∀ w : World, Sound w →
      Sound (w.perform (Handlers.pingTimeoutCb f.env) f.now) := fun w hs =>
    perform_sound hs (pingTimeoutCb_effect f.env w.work).1
      (fun hsome => (pingTimeoutCb_effect f.env w.work).2 (hs.down hsome)) f.now
  split_ifs
  · exact hstopped _ (hs.stopTimer .pingTimer)
  · exact hstopped w hs

theorem fire_sound (hs : Sound w) (f : Firing) (k : Slot) : Sound (w.fire f k) := by
  cases k with
  | noMsgTimer => exact perform_quits hs (disconnectIf_quits f.env _) f.now
  | noSendingTimer => exact perform_quits hs (disconnectIf_quits f.env _) f.now
  | noReceivingTimer => exact perform_quits hs (disconnectIf_quits f.env _) f.now
  | shakehandsTimer => exact perform_quits hs (disconnectIf_quits f.env _) f.now
  | pingTimer => exact ping_sound hs f
  | advertiseLocalAddrTimer => exact advertise_sound hs f
  | broadcastAddrsTimer => exact relay_sound hs f

theorem invoke_sound (hs : Sound w) (i : Nat) (f : Firing) : Sound (w.invokeTimerCb i f) := by
  unfold World.invokeTimerCb
  have hinvoked := hs.shrink (shrinks_of_spares (spares_invokeTimerCb w.mng i))
  split
  · split
    · exact fire_sound hinvoked f _
    · exact hinvoked
  · exact hs

theorem completed_shrinks (m : TimerMng) (i : Nat) : Shrinks m (m.completed i) := by
  unfold TimerMng.completed
  split
  · exact ⟨List.erase_sublist, rfl⟩
  · exact ⟨List.Sublist.refl _, rfl⟩

theorem step_sound (hs : Sound w) {a : Act} (ho : Timely w a) : Sound (step w a) := by
  cases a with
  | read now => exact read_sound hs now
  | receive env header m timeout now => exact receive_sound hs ho
  | reject env now => exact perform_quits hs (fun w => Or.inr (disconnect_ending env w)) now
  | send env m now => exact perform_sound hs (Or.inl (sendMsg_calm env m w.work)) ho now
  | checkBanned env now => exact perform_quits hs (checkBanned_quits env) now
  | connEvent env now => exact perform_quits hs (disconnectIf_quits env _) now
  | disconnectNode env now =>
    exact perform_quits hs (fun w => Or.inr (disconnectNode_ending env w)) now
  | check now => exact hs.shrink (shrinks_of_spares (spares_checkTimers w.mng now))
  | take => exact hs.shrink (shrinks_of_spares (spares_takeTask w.mng))
  | invoke i f => exact invoke_sound hs i f
  | returned i => exact hs.shrink (shrinks_of_spares (spares_callbackReturned w.mng i))
  | rearm i now => exact hs.shrink (shrinks_of_spares (spares_rearm w.mng i now))
  | completed i => exact hs.shrink (completed_shrinks w.mng i)

theorem initializeNode_sound (id : Nat) (addr : Address.NetAddr) (isInbound manual : Bool)
    (nonce : U64) (now : Millis) :
    Sound (World.initializeNode id addr isInbound manual nonce now) := by
  let w : World := { work := ⟨Nodes.initializeNode id addr isInbound manual nonce, []⟩ }
  have hw : Owned w := ⟨List.nodup_nil, rfl, by simp [w], by simp [w], by simp [w]⟩
  have hstart := hw.start (k := .noMsgTimer) rfl rfl (kNoMsgTimeout * 1000) 0 now
  have hrunning : (World.initializeNode id addr isInbound manual nonce now).stoppedAt = none :=
    (start_frame ..).2.1.trans (start_frame ..).2.1
  refine ⟨hstart.start rfl rfl (kShakeHandsTimeout * 1000) 0 now, ?_, by simp [hrunning]⟩
  intro _ k hk
  obtain ⟨-, -, hframe⟩ := start_frame (w.start .noMsgTimer (kNoMsgTimeout * 1000) 0 now)
    .shakehandsTimer (kShakeHandsTimeout * 1000) 0 now
  obtain ⟨-, -, hframe'⟩ := start_frame w .noMsgTimer (kNoMsgTimeout * 1000) 0 now
  have hne : k ≠ .shakehandsTimer := by
    rintro rfl
    exact hk
  have hne' : k ≠ .noMsgTimer := by
    rintro rfl
    exact hk
  exact (hframe k hne).trans (hframe' k hne')

theorem Owned.tidy (h : Owned w) (hd : Defined w.mng) : Tidy w := by
  refine ⟨hd, ?_, ?_⟩
  · intro k _
    have hall : ∀ t ∈ w.held k, w.slots k = some t := by
      intro t ht
      obtain ⟨hmem, hkind⟩ := List.mem_filter.mp ht
      obtain ⟨k', hk', hslot⟩ := h.held t hmem
      have hsame : k' = k := Option.some.inj (hk'.symm.trans (of_decide_eq_true hkind))
      exact hsame ▸ hslot
    have hnodup : (w.held k).Nodup := h.nodup.filter _
    match hheld : w.held k with
    | [] => exact Nat.zero_le _
    | [_] => exact Nat.le_refl _
    | t :: t' :: _ =>
      rw [hheld] at hall hnodup
      have hfirst := hall t List.mem_cons_self
      have hsecond := hall t' (List.mem_cons_of_mem _ List.mem_cons_self)
      have hsame : t = t' := Option.some.inj (hfirst.symm.trans hsecond)
      exact absurd (hsame ▸ List.mem_cons_self) (List.nodup_cons.mp hnodup).1
  · intro n hn
    refine ⟨List.eq_nil_iff_forall_not_mem.mpr fun t ht => ?_, h.none_more n hn⟩
    obtain ⟨k, -, hslot⟩ := h.held t ht
    rw [h.empty (by rw [hn]; rfl) k] at hslot
    cases hslot

end Steps

section Stopping

variable {w : World} {m : TimerMng} {t : Nat} {ts : List Nat} {now : Millis}
  {es : List Nodes.Event} {A : Type} {h : Handler A}

theorem Present.stopTimer (hts : Present m (t :: ts)) : Present (m.stopTimer t) ts := by
  obtain ⟨hnodup, hsub⟩ := hts
  obtain ⟨hnew, hnodup⟩ := List.nodup_cons.mp hnodup
  refine ⟨hnodup, fun t' ht' => ?_⟩
  have hne : t' ≠ t := by
    rintro rfl
    exact hnew ht'
  rw [(removes_stopTimer m t).timers]
  exact (List.mem_erase_of_ne hne).mpr (hsub (List.mem_cons_of_mem t ht'))

theorem defined_stopTimer (hd : Defined m) (hts : Present m (t :: ts)) :
    Defined (m.stopTimer t) :=
  (removes_stopTimer m t).defined_iff.mpr ⟨hd, hts.2 List.mem_cons_self⟩

theorem defined_foldl_stopTimer (hd : Defined m) (hts : Present m ts) :
    Defined (ts.foldl TimerMng.stopTimer m) := by
  induction ts generalizing m with
  | nil => exact hd
  | cons t ts ih => exact ih (defined_stopTimer hd hts) hts.stopTimer

theorem foldl_stopSlot_mng {ks : List Slot} (hks : ks.Nodup) (w : World) :
    (ks.foldl World.stopSlot w).mng =
      (ks.filterMap w.slots).foldl TimerMng.stopTimer w.mng := by
  induction ks generalizing w with
  | nil => rfl
  | cons k ks ih =>
    obtain ⟨hnew, hks⟩ := List.nodup_cons.mp hks
    have hslots : ks.filterMap (w.stopSlot k).slots = ks.filterMap w.slots := by
      apply List.filterMap_congr
      intro k' hk'
      have hne : k' ≠ k := by
        rintro rfl
        exact hnew hk'
      exact Function.update_of_ne hne ..
    rw [List.foldl_cons, ih hks, hslots, List.filterMap_cons]
    cases hslot : w.slots k with
    | none => simp only [World.stopSlot, World.stopTimer, hslot]
    | some t => simp only [World.stopSlot, World.stopTimer, hslot, List.foldl_cons]

theorem stopAllTimers_mng (w : World) :
    w.stopAllTimers.mng = (Slot.all.filterMap w.slots).foldl TimerMng.stopTimer w.mng :=
  foldl_stopSlot_mng (by decide) w

/-- The slots are emptied the first time, and then there is nothing left to stop. -/
theorem foldl_unsent_mng (hes : ∀ e ∈ es, isSent e = false) :
    (es.foldl (World.observe now) w).mng =
      (if .erased ∈ es then Slot.all.filterMap w.slots else []).foldl
        TimerMng.stopTimer w.mng := by
  induction es generalizing w with
  | nil => rfl
  | cons e es ih =>
    obtain ⟨he, hes⟩ := List.forall_mem_cons.mp hes
    rw [List.foldl_cons, ih hes]
    cases e with
    | sent header m => exact absurd he (by simp [isSent])
    | erased =>
      have hempty : Slot.all.filterMap w.stopAllTimers.slots = [] :=
        List.filterMap_eq_nil_iff.mpr fun k _ => stopAllTimers_slots w k
      simp only [World.observe, hempty, ite_self, List.foldl_nil, List.mem_cons_self, if_true]
      exact stopAllTimers_mng w
    | _ => simp [World.observe]

theorem start_defined (hd : Defined w.mng) (k : Slot) (timeout interval : Nat) (now : Millis) :
    Defined (w.start k timeout interval now).mng := by
  unfold World.start
  split_ifs with htimeout
  · exact hd
  · exact (starts_startTimer w.mng htimeout).log.defined_iff.mpr hd

theorem touch_defined (hd : Defined w.mng) (k : Slot) (timeout : Nat) (now : Millis) :
    Defined (w.touch k timeout now).mng := by
  unfold World.touch
  split
  · exact (spares_reset ..).log.defined_iff.mpr hd
  · exact start_defined hd _ _ _ _

theorem setInterval_defined (hd : Defined w.mng) (k : Slot) (interval : Nat) :
    Defined (w.setInterval k interval).mng := by
  unfold World.setInterval
  split
  · exact (spares_setInterval ..).log.defined_iff.mpr hd
  · exact hd

theorem foldl_sent_defined (hd : Defined w.mng) (hes : ∀ e ∈ es, e ≠ .erased) (now : Millis) :
    Defined (es.foldl (World.observe now) w).mng := by
  refine List.foldlRecOn es _ (motive := fun w : World => Defined w.mng) hd ?_
  intro w hw e he
  cases e with
  | sent header m => exact touch_defined hw _ _ _
  | erased => exact absurd rfl (hes _ he)
  | _ => exact hw

theorem calm_defined (hcalm : Calm w.work (h w.work).2) (hd : Defined w.mng) (now : Millis) :
    Defined (w.perform h now).mng := by
  obtain ⟨es, -, hall, hrun⟩ := perform_eq hcalm.follows now
  rw [hrun]
  exact foldl_sent_defined (w := { w with work := (h w.work).2 }) hd hall now

theorem perform_defined (hmoves : Moves w.work (h w.work).2) (hd : Defined w.mng)
    (hts : Present w.mng (w.stops h)) (now : Millis) : Defined (w.perform h now).mng := by
  rcases hmoves with hcalm | hending
  · exact calm_defined hcalm hd now
  · obtain ⟨es, hlog, hall, hrun⟩ := perform_eq hending.follows now
    rw [World.stops, hlog, List.drop_left] at hts
    rw [hrun, foldl_unsent_mng hall]
    exact defined_foldl_stopTimer hd hts

theorem quits_defined (hq : Does Quits h) (hd : Defined w.mng)
    (hts : Present w.mng (w.stops h)) (now : Millis) : Defined (w.perform h now).mng :=
  perform_defined (quits_moves hq w.work) hd hts now

theorem receive_defined {env : Env} {header : MessageHeader} {m : Message} {timeout : Nat}
    (hd : Defined w.mng) (hts : Present w.mng (w.stops (handleMsgData env header m))) :
    Defined (w.receive env header m timeout now).mng := by
  unfold World.receive
  split_ifs with hin
  · obtain ⟨rfl, hin⟩ := hin
    obtain ⟨es, hlog, hall, -⟩ := verack_follows hin
    rw [perform_of_log hlog]
    unfold World.settle
    apply start_defined
    have hsent := foldl_sent_defined
      (w := { w with work := (handleMsgData env header .verack w.work).2 }) hd hall now
    split_ifs
    · exact start_defined (start_defined hsent _ _ _ _) _ _ _ _
    · exact start_defined hsent _ _ _ _
  · exact perform_defined (handleMsgData_moves hin) hd hts now

theorem fire_defined {f : Firing} (hd : Defined w.mng) {k : Slot}
    (hts : Present w.mng (w.callbackStops f k)) : Defined (w.fire f k).mng := by
  cases k with
  | noMsgTimer => exact quits_defined (disconnectIf_quits f.env _) hd hts f.now
  | noSendingTimer => exact quits_defined (disconnectIf_quits f.env _) hd hts f.now
  | noReceivingTimer => exact quits_defined (disconnectIf_quits f.env _) hd hts f.now
  | shakehandsTimer => exact quits_defined (disconnectIf_quits f.env _) hd hts f.now
  | pingTimer =>
    have hmoves := (pingTimeoutCb_effect f.env w.work).1
    simp only [World.fire, World.pingTimeoutCb, World.callbackStops] at hts ⊢
    split_ifs at hts ⊢
    · unfold World.stopTimer
      cases hslot : w.slots .pingTimer with
      | none =>
        rw [hslot] at hts
        exact perform_defined hmoves hd hts f.now
      | some timer =>
        rw [hslot] at hts
        exact perform_defined (w := { w with mng := w.mng.stopTimer timer }) hmoves
          (defined_stopTimer hd hts) hts.stopTimer f.now
    · exact perform_defined hmoves hd hts f.now
  | advertiseLocalAddrTimer =>
    simp only [World.fire, World.advertiseLocalTimeoutCb]
    split_ifs
    · exact hd
    · exact setInterval_defined hd _ _
    · exact setInterval_defined
        (calm_defined (h := emit (.localAddrAdvertised false))
          (emit_stays (by simp) (fun _ => rfl) _) hd f.now) _ _
  | broadcastAddrsTimer =>
    simp only [World.fire, World.relayFloodingAddrsTimeoutCb]
    split_ifs
    · exact hd
    · apply setInterval_defined
      refine List.foldlRecOn f.addrs _ (motive := fun w : World => Defined w.mng) hd ?_
      exact fun w hw m _ => calm_defined (sendMsg_calm f.env _ w.work) hw f.now

theorem invoke_defined {i : Nat} {f : Firing} (hd : Defined w.mng)
    (hts : Present w.mng (asked w (.invoke i f))) : Defined (w.invokeTimerCb i f).mng := by
  have hspares := spares_invokeTimerCb w.mng i
  have hinvoked := hspares.log.defined_iff.mpr hd
  simp only [asked] at hts
  unfold World.invokeTimerCb
  split
  · next timer hi =>
    rw [hi] at hts
    dsimp only at hts ⊢
    cases hkind : w.kinds[timer]? with
    | none => exact hinvoked
    | some k =>
      rw [hkind] at hts
      apply fire_defined (w := { w with mng := w.mng.invokeTimerCb i }) hinvoked
      exact ⟨hts.1, hspares.timers ▸ hts.2⟩
  · exact hd

theorem completed_defined {i : Nat} (hd : Defined w.mng)
    (hts : Present w.mng (asked w (.completed i))) : Defined (w.mng.completed i) := by
  by_cases hi : ∃ timer, w.mng.running[i]? = some (timer, .removing)
  · obtain ⟨timer, hi⟩ := hi
    rw [asked, hi] at hts
    exact (removes_completed hi).defined_iff.mpr ⟨hd, hts.2 List.mem_cons_self⟩
  · have hsame : w.mng.completed i = w.mng := by
      unfold TimerMng.completed
      grind
    rw [hsame]
    exact hd

theorem step_defined {a : Act} (hd : Defined w.mng) (hts : Present w.mng (asked w a)) :
    Defined (step w a).mng := by
  cases a with
  | read now =>
    simp only [step, World.read]
    split_ifs
    · exact hd
    · exact touch_defined (w := { w with work := (connReadCb w.work).2 }) hd _ _ _
  | receive env header m timeout now => exact receive_defined hd hts
  | reject env now => exact perform_defined (Or.inr (disconnect_ending env w.work)) hd hts now
  | send env m now => exact calm_defined (sendMsg_calm env m w.work) hd now
  | checkBanned env now => exact quits_defined (checkBanned_quits env) hd hts now
  | connEvent env now => exact quits_defined (disconnectIf_quits env _) hd hts now
  | disconnectNode env now =>
    exact perform_defined (Or.inr (disconnectNode_ending env w.work)) hd hts now
  | check now => exact (spares_checkTimers w.mng now).log.defined_iff.mpr hd
  | take => exact (spares_takeTask w.mng).log.defined_iff.mpr hd
  | invoke i f => exact invoke_defined hd hts
  | returned i => exact (spares_callbackReturned w.mng i).log.defined_iff.mpr hd
  | rearm i now => exact (spares_rearm w.mng i now).log.defined_iff.mpr hd
  | completed i => exact completed_defined hd hts

theorem initializeNode_defined (id : Nat) (addr : Address.NetAddr) (isInbound manual : Bool)
    (nonce : U64) (now : Millis) :
    Defined (World.initializeNode id addr isInbound manual nonce now).mng :=
  start_defined (start_defined (w := { work := _ }) (fun _ => List.not_mem_nil) _ _ _ _) _ _ _ _

end Stopping

section Agreement

/-- The flags which the handlers keep tell which slots are filled. Only the advertising
timer may lack, for it has been started with a random timeout. -/
structure Agree (timers : NodeTimers) (slots : Slot → Option Nat) : Prop where
  eq : ∀ k : Slot, k ≠ .advertiseLocalAddrTimer → k.isSet timers = (slots k).isSome
  advertise : (slots .advertiseLocalAddrTimer).isSome → timers.advertiseLocalAddrTimer = true

variable {w : World} {timers : NodeTimers} {now : Millis}

theorem start_isSome (w : World) (k : Slot) {timeout : Nat} (h : timeout ≠ 0) (interval : Nat)
    (now : Millis) : ((w.start k timeout interval now).slots k).isSome = true := by
  simp [World.start, h]

theorem touch_isSome (w : World) (k : Slot) {timeout : Nat} (h : timeout ≠ 0) (now : Millis) :
    ((w.touch k timeout now).slots k).isSome = true := by
  unfold World.touch
  split
  · next hslot => simp [hslot]
  · exact start_isSome w k h 0 now

theorem Agree.observe (h : Agree timers w.slots) (e : Nodes.Event) :
    Agree (noted timers e) (w.observe now e).slots := by
  cases e with
  | sent header m =>
    have hframe := (touch_frame w .noSendingTimer (kNoSendingTimeout * 1000) now).2.2
    constructor
    · intro k hk
      by_cases hsending : k = .noSendingTimer
      · rw [hsending]
        exact (touch_isSome w .noSendingTimer (by decide) now).symm
      · rw [World.observe, hframe k hsending, ← h.eq k hk]
        cases k <;> first | rfl | exact absurd rfl hsending
    · rw [World.observe, hframe _ (by simp)]
      exact h.advertise
  | erased =>
    constructor
    · intro k _
      rw [World.observe, stopAllTimers_slots]
      cases k <;> rfl
    · rw [World.observe, stopAllTimers_slots]
      exact fun hsome => absurd hsome (by simp)
  | _ => exact h

theorem Agree.foldl (h : Agree timers w.slots) (es : List Nodes.Event) (now : Millis) :
    Agree (es.foldl noted timers) (es.foldl (World.observe now) w).slots := by
  induction es generalizing timers w with
  | nil => exact h
  | cons e es ih => exact ih (h.observe e)

/-- The flags and the slots of one world. -/
abbrev World.Agrees (w : World) : Prop := Agree w.work.node.timers w.slots

theorem perform_agrees {A : Type} {h : Handler A} {P : Nodes.Event → Prop} (hw : w.Agrees)
    (hf : Follows P w.work (h w.work).2) (now : Millis) : (w.perform h now).Agrees := by
  obtain ⟨es, hlog, -, htimers⟩ := hf
  rw [World.Agrees, perform_of_log hlog, foldl_observe_work, htimers]
  exact Agree.foldl (w := { w with work := (h w.work).2 }) hw es now

theorem moves_agrees {A : Type} {h : Handler A} (hw : w.Agrees)
    (hmoves : Moves w.work (h w.work).2) (now : Millis) : (w.perform h now).Agrees := by
  rcases hmoves with hcalm | hending
  · exact perform_agrees hw hcalm.follows now
  · exact perform_agrees hw hending.follows now

theorem quits_agrees {A : Type} {h : Handler A} (hw : w.Agrees) (hq : Does Quits h)
    (now : Millis) : (w.perform h now).Agrees :=
  moves_agrees hw (quits_moves hq w.work) now

theorem Agree.settle {advertise : Bool} (timeout : Nat) (h : Agree timers w.slots) :
    Agree (settled advertise timers) (w.settle advertise timeout now).slots := by
  let w₁ := w.start .pingTimer (kPingInterval * 1000) (kPingInterval * 1000) now
  let w₂ := if advertise then w₁.start .advertiseLocalAddrTimer timeout 0 now else w₁
  have hframe₁ := (start_frame w .pingTimer (kPingInterval * 1000) (kPingInterval * 1000) now).2.2
  have hframe₂ : ∀ k : Slot, k ≠ .advertiseLocalAddrTimer → w₂.slots k = w₁.slots k := by
    intro k hk
    dsimp only [w₂]
    split_ifs
    · exact (start_frame w₁ .advertiseLocalAddrTimer timeout 0 now).2.2 k hk
    · rfl
  have hframe₃ := (start_frame w₂ .broadcastAddrsTimer (kRelayAddrsInterval * 1000) 0 now).2.2
  have hother : ∀ k : Slot, ¬ k.IsPeriodic →
      (w.settle advertise timeout now).slots k = w.slots k := by
    intro k hk
    have hne : k ≠ .broadcastAddrsTimer ∧ k ≠ .advertiseLocalAddrTimer ∧ k ≠ .pingTimer := by
      refine ⟨?_, ?_, ?_⟩ <;> rintro rfl <;> exact hk trivial
    exact (hframe₃ k hne.1).trans ((hframe₂ k hne.2.1).trans (hframe₁ k hne.2.2))
  constructor
  · intro k hk
    cases k with
    | pingTimer =>
      have hping : (w₁.slots .pingTimer).isSome = true :=
        start_isSome w .pingTimer (by decide) _ now
      rw [← hframe₂ _ (by simp), ← hframe₃ _ (by simp)] at hping
      exact hping.symm
    | broadcastAddrsTimer => exact (start_isSome w₂ .broadcastAddrsTimer (by decide) 0 now).symm
    | advertiseLocalAddrTimer => exact absurd rfl hk
    | noMsgTimer => exact (h.eq _ hk).trans (congrArg _ (hother _ id).symm)
    | noSendingTimer => exact (h.eq _ hk).trans (congrArg _ (hother _ id).symm)
    | noReceivingTimer => exact (h.eq _ hk).trans (congrArg _ (hother _ id).symm)
    | shakehandsTimer => exact (h.eq _ hk).trans (congrArg _ (hother _ id).symm)
  · intro hsome
    cases advertise with
    | true => rfl
    | false =>
      have hsame : (w.settle false timeout now).slots .advertiseLocalAddrTimer =
          w.slots .advertiseLocalAddrTimer :=
        (hframe₃ _ (by simp)).trans (hframe₁ _ (by simp))
      rw [hsame] at hsome
      exact (Bool.false_or _).trans (h.advertise hsome)

theorem receive_agrees (hw : w.Agrees) (env : Env) (header : MessageHeader) (m : Message)
    (timeout : Nat) (now : Millis) : (w.receive env header m timeout now).Agrees := by
  unfold World.receive
  split_ifs with hin
  · obtain ⟨rfl, hin⟩ := hin
    obtain ⟨es, hlog, -, -, htimers⟩ := verack_follows hin
    have hfold := Agree.foldl (w := { w with work := (handleMsgData env header .verack w.work).2 })
      hw es now
    have hwork : ∀ (advertise : Bool) (w : World),
        (w.settle advertise timeout now).work = w.work := by
      intro advertise w
      cases advertise <;> simp [World.settle, (start_frame ..).1]
    rw [World.Agrees, hwork, perform_of_log hlog, foldl_observe_work, htimers]
    exact hfold.settle timeout
  · exact moves_agrees hw (handleMsgData_moves hin) now

theorem setInterval_agrees (hw : w.Agrees) (k : Slot) (interval : Nat) :
    (w.setInterval k interval).Agrees := by
  unfold World.setInterval
  split <;> exact hw

theorem fire_agrees (hw : w.Agrees) (f : Firing) (k : Slot) : (w.fire f k).Agrees := by
  cases k with
  | noMsgTimer => exact quits_agrees hw (disconnectIf_quits f.env _) f.now
  | noSendingTimer => exact quits_agrees hw (disconnectIf_quits f.env _) f.now
  | noReceivingTimer => exact quits_agrees hw (disconnectIf_quits f.env _) f.now
  | shakehandsTimer => exact quits_agrees hw (disconnectIf_quits f.env _) f.now
  | pingTimer =>
    simp only [World.fire, World.pingTimeoutCb]
    split_ifs
    · refine moves_agrees ?_ (pingTimeoutCb_effect f.env _).1 f.now
      unfold World.stopTimer
      split <;> exact hw
    · exact moves_agrees hw (pingTimeoutCb_effect f.env _).1 f.now
  | advertiseLocalAddrTimer =>
    simp only [World.fire, World.advertiseLocalTimeoutCb]
    split_ifs
    · exact hw
    · exact setInterval_agrees hw ..
    · exact setInterval_agrees (quits_agrees hw (fun _ => Or.inl
        (emit_stays (by simp [isSent]) (fun _ => rfl) _)) f.now) ..
  | broadcastAddrsTimer =>
    simp only [World.fire, World.relayFloodingAddrsTimeoutCb]
    split_ifs
    · exact hw
    · apply setInterval_agrees
      refine List.foldlRecOn f.addrs _ (motive := World.Agrees) hw ?_
      exact fun w hw m _ => moves_agrees hw (Or.inl (sendMsg_calm f.env _ w.work)) f.now

theorem read_agrees (hw : w.Agrees) (now : Millis) : (w.read now).Agrees := by
  unfold World.read
  split_ifs
  · exact hw
  obtain ⟨hwork, -, hframe⟩ := touch_frame { w with work := (connReadCb w.work).2 }
    .noReceivingTimer (noReceivingTimeout w.work.node * 1000) now
  have hpositive : noReceivingTimeout w.work.node * 1000 ≠ 0 := by
    unfold noReceivingTimeout
    split_ifs <;> decide
  rw [World.Agrees, hwork]
  constructor
  · intro k hk
    by_cases hreceiving : k = .noReceivingTimer
    · rw [hreceiving]
      exact (touch_isSome _ .noReceivingTimer hpositive now).symm
    · rw [hframe k hreceiving]
      refine Eq.trans ?_ (hw.eq k hk)
      cases k <;> first | rfl | exact absurd rfl hreceiving
  · rw [hframe _ (by simp)]
    exact hw.advertise

theorem step_agrees (hw : w.Agrees) (a : Act) : (step w a).Agrees := by
  cases a with
  | read now => exact read_agrees hw now
  | receive env header m timeout now => exact receive_agrees hw env header m timeout now
  | reject env now => exact quits_agrees hw (fun w => Or.inr (disconnect_ending env w)) now
  | send env m now => exact moves_agrees hw (Or.inl (sendMsg_calm env m w.work)) now
  | checkBanned env now => exact quits_agrees hw (checkBanned_quits env) now
  | connEvent env now => exact quits_agrees hw (disconnectIf_quits env _) now
  | disconnectNode env now =>
    exact quits_agrees hw (fun w => Or.inr (disconnectNode_ending env w)) now
  | invoke i f =>
    simp only [step, World.invokeTimerCb]
    split
    · have hinvoked : World.Agrees { w with mng := w.mng.invokeTimerCb i } := hw
      split
      · exact fire_agrees hinvoked f _
      · exact hinvoked
    · exact hw
  | check now => exact hw
  | take => exact hw
  | returned i => exact hw
  | rearm i now => exact hw
  | completed i => exact hw

/-- In every run the handlers' flags and the slots tell the same. -/
theorem run_agrees (id : Nat) (addr : Address.NetAddr) (isInbound manual : Bool) (nonce : U64)
    (now : Millis) (acts : List Act) :
    (acts.foldl step
      (World.initializeNode id addr isInbound manual nonce now)).Agrees := by
  refine List.foldlRecOn acts _ (motive := World.Agrees) ?_ fun w hw a _ => step_agrees hw a
  constructor
  · intro k _
    cases k <;> rfl
  · exact fun hsome => absurd hsome Bool.false_ne_true

end Agreement

/-- As long as verack is handled only once, nothing is done for a node that has been
disconnected, and no timer is removed that is not there any more, its timers do not leak. -/
theorem tidy_of_orderly (id : Nat) (addr : Address.NetAddr) (isInbound manual : Bool)
    (nonce : U64) (now : Millis) (acts : List Act)
    (h : Throughout step Orderly (World.initializeNode id addr isInbound manual nonce now) acts) :
    ∀ done, done <+: acts →
      Tidy (done.foldl step (World.initializeNode id addr isInbound manual nonce now)) := by
  intro done hdone
  obtain ⟨hsound, hdefined⟩ := always_of_throughout (P := fun w => Sound w ∧ Defined w.mng)
    ⟨initializeNode_sound id addr isInbound manual nonce now,
      initializeNode_defined id addr isInbound manual nonce now⟩
    (fun _ _ hw ho => ⟨step_sound hw.1 ho.1, step_defined hw.2 ho.2⟩) h done hdone
  exact hsound.tidy hdefined

section Outbound

open Handshake

def receiveHere (m : Message) : Act := .receive outboundEnv (headerOf outboundEnv m) m 60000 0

def outboundStart : World := World.initializeNode 2 outboundAddr false false 9 0

/-- A handshake, and later the socket is closed. -/
def briefSession : List Act :=
  [receiveHere (versionMessage 60002), receiveHere .verack, .connEvent outboundEnv 1,
    .check 60000]

theorem tidy_briefSession : Tidy (briefSession.foldl step outboundStart) := by
  refine tidy_of_orderly 2 outboundAddr false false 9 0 briefSession
    ⟨⟨⟨?_, ?_⟩, ?_⟩, ⟨⟨?_, ?_⟩, ?_⟩, ⟨trivial, ?_⟩, ⟨trivial, ?_⟩, trivial⟩
    briefSession List.prefix_rfl
  · rintro ⟨hm, -⟩
    cases hm
  · exact fun hstop => absurd hstop (by decide)
  · decide +kernel
  · exact fun _ => ⟨by decide +kernel, by decide +kernel⟩
  · exact fun hstop => absurd hstop (by decide +kernel)
  · decide +kernel
  · decide +kernel
  · decide +kernel

/-- A second verack starts a second ping timer, and a node that has been disconnected gets
timers when a version and a verack behind the refused one are handled. -/
theorem timers_leak :
    ¬ Tidy ([receiveHere (versionMessage 60002), receiveHere .verack,
        receiveHere .verack].foldl step outboundStart) ∧
      ¬ Tidy ([receiveHere (versionMessage 209), receiveHere (versionMessage 60002),
        receiveHere .verack].foldl step outboundStart) := by
  constructor
  · intro h
    have hping := h.single .pingTimer trivial
    revert hping
    decide +kernel
  · intro h
    have hstop := h.none_left 2 (by decide +kernel)
    revert hstop
    decide +kernel

end Outbound

end TimerSlots
