import Btclite.Network.TimerSlots
import Mathlib.Data.Nat.GCD.Basic

/-!
# Random intervals

`IntervalNextSend` draws microseconds, and timers are set with milliseconds. The
three callers multiply by 1000 where they would have to divide, and what they
get is cut to 32 bits.
-/

namespace Intervals

open Messages Nodes Handlers Sessions TimerFlags Timers TimerSlots Effects

section Property

/-- What `IntervalNextSend` returns, in microseconds. -/
abbrev Draw := Fin (2 ^ 40)

/-- What the callers make of it, which has 64 bits. -/
def argument (x : Draw) : Nat := x * 1000

/-- A value handed over as `uint32_t`. -/
def toUint32 (n : Nat) : Nat := n % 2 ^ 32

/-- The draw in milliseconds. -/
def rounded (x : Draw) : Nat := (x + 500) / 1000

/-- The timer in a slot. -/
def cfg (w : World) (k : Slot) : Option TimerCfg := (w.slots k).bind (w.mng.cfgs[·]?)

inductive Place where
  | advertiseLocalTimeoutCb
  | relayFloodingAddrsTimeoutCb
  | verack (header : MessageHeader)

namespace Place

def run (x : Draw) (f : Firing) (w : World) : Place → World
  | .advertiseLocalTimeoutCb =>
    w.advertiseLocalTimeoutCb { f with interval := toUint32 (argument x) }
  | .relayFloodingAddrsTimeoutCb =>
    w.relayFloodingAddrsTimeoutCb { f with interval := toUint32 (argument x) }
  | .verack header => w.receive f.env header .verack (toUint32 (argument x)) f.now

/-- What is found in the timer afterwards. Verack may start none. -/
def installed (x : Draw) (f : Firing) (w : World) : Place → Option Nat
  | .advertiseLocalTimeoutCb =>
    (cfg (run x f w .advertiseLocalTimeoutCb) .advertiseLocalAddrTimer).map (·.interval)
  | .relayFloodingAddrsTimeoutCb =>
    (cfg (run x f w .relayFloodingAddrsTimeoutCb) .broadcastAddrsTimer).map (·.interval)
  | .verack header =>
    (cfg (run x f w (.verack header)) .advertiseLocalAddrTimer).map (·.timeout)

/-- The call gets as far as the timer, and the callbacks have one to set. -/
def Installs (f : Firing) (w : World) : Place → Prop
  | .advertiseLocalTimeoutCb =>
    (f.env.interrupted || w.work.node.isDisconnected) = false ∧
      (cfg w .advertiseLocalAddrTimer).isSome
  | .relayFloodingAddrsTimeoutCb =>
    (f.env.interrupted || w.work.node.isDisconnected) = false ∧
      (cfg w .broadcastAddrsTimer).isSome
  | .verack header => Admitted f.env header .verack w.work ∧ f.env.advertiseLocalAddr = true

end Place

/-- The timer is set with the draw in milliseconds, and nothing is cut off on the way. -/
structure UnitsKept (x : Draw) (f : Firing) (w : World) (p : Place) : Prop where
  whole : p.Installs f w → toUint32 (argument x) = argument x
  rounded : p.Installs f w → ∀ v ∈ p.installed x f w, v = rounded x

end Property

section Timers

variable {w : World} {k k' : Slot}

theorem cfg_isSome_iff :
    (cfg w k).isSome ↔ ∃ t, w.slots k = some t ∧ t < w.mng.cfgs.length := by
  unfold cfg
  cases hslot : w.slots k with
  | none => simp
  | some t => simp

theorem cfg_setInterval (h : (cfg w k).isSome) (interval : Nat) :
    (cfg (w.setInterval k interval) k).map (·.interval) = some interval := by
  obtain ⟨t, hslot, hlt⟩ := cfg_isSome_iff.mp h
  simp [cfg, World.setInterval, TimerMng.setInterval, TimerMng.setCfg, TimerMng.emit, hslot,
    List.getElem?_eq_getElem hlt]

theorem cfg_start (w : World) (k : Slot) (timeout interval : Nat) (now : Millis) :
    (cfg (w.start k timeout interval now) k).map (·.timeout) =
      if timeout = 0 then none else some timeout := by
  unfold cfg World.start
  split_ifs with htimeout
  · simp
  · simp [TimerMng.startTimer, htimeout]

/-- A timer that is started leaves those in the other slots alone. -/
theorem cfg_start_of_ne (hk : k' ≠ k) (h : ∀ t, w.slots k' = some t → t < w.mng.cfgs.length)
    (timeout interval : Nat) (now : Millis) :
    cfg (w.start k timeout interval now) k' = cfg w k' := by
  unfold cfg
  rw [(start_frame w k timeout interval now).2.2 k' hk]
  cases hslot : w.slots k' with
  | none => rfl
  | some t =>
    unfold World.start
    split_ifs with htimeout
    · rfl
    · simp only [Option.bind_some, TimerMng.startTimer, if_neg htimeout]
      exact List.getElem?_append_left (h t hslot)

theorem start_slot_lt (w : World) (k : Slot) (timeout interval : Nat) (now : Millis) :
    ∀ t, (w.start k timeout interval now).slots k = some t →
      t < (w.start k timeout interval now).mng.cfgs.length := by
  intro t ht
  unfold World.start at ht ⊢
  split_ifs at ht ⊢ with htimeout
  · simp at ht
  · simp only [Function.update_self, Option.some.injEq] at ht
    simp [TimerMng.startTimer, htimeout, ← ht]

/-- The slot is left as it is, and so are the timers before the new ones. -/
def SlotStays (k : Slot) (w w' : World) : Prop :=
  w'.slots k = w.slots k ∧ w.mng.cfgs.length ≤ w'.mng.cfgs.length

theorem SlotStays.isSome {w' : World} (h : SlotStays k w w') (hsome : (cfg w k).isSome) :
    (cfg w' k).isSome := by
  obtain ⟨t, hslot, hlt⟩ := cfg_isSome_iff.mp hsome
  exact cfg_isSome_iff.mpr ⟨t, h.1.trans hslot, Nat.lt_of_lt_of_le hlt h.2⟩

theorem touch_stays (hk : k' ≠ k) (timeout : Nat) (now : Millis) :
    SlotStays k' w (w.touch k timeout now) := by
  refine ⟨(touch_frame w k timeout now).2.2 k' hk, ?_⟩
  unfold World.touch
  split
  · simp [TimerMng.reset, TimerMng.setCfg, TimerMng.emit]
  · unfold World.start
    split_ifs with htimeout
    · exact Nat.le_refl _
    · simp [TimerMng.startTimer, htimeout]

/-- What a handler sends touches only the timer for sending. -/
theorem perform_stays {A : Type} {h : Handler A} (hc : Does Calm h) (hk : k.IsPeriodic)
    (w : World) (now : Millis) : SlotStays k w (w.perform h now) := by
  obtain ⟨es, -, hall, hrun⟩ := perform_eq (hc w.work).follows now
  rw [hrun]
  refine List.foldlRecOn es _ (motive := SlotStays k w) ⟨rfl, Nat.le_refl _⟩ ?_
  intro w' hw e he
  cases e with
  | sent header m =>
    have htouch := touch_stays (w := w') hk.ne_sending (kNoSendingTimeout * 1000) now
    exact ⟨htouch.1.trans hw.1, hw.2.trans htouch.2⟩
  | erased => exact absurd rfl (hall _ he)
  | _ => exact hw

end Timers

section Places

variable {x : Draw} {f : Firing} {w : World}

theorem advertiseLocal_installed (h : Place.advertiseLocalTimeoutCb.Installs f w) :
    Place.advertiseLocalTimeoutCb.installed x f w = some (toUint32 (argument x)) := by
  obtain ⟨hup, hsome⟩ := h
  simp only [Place.installed, Place.run, World.advertiseLocalTimeoutCb, hup,
    Bool.false_eq_true, if_false]
  apply cfg_setInterval
  split_ifs
  · exact hsome
  · have hcalm : Does Calm (emit (.localAddrAdvertised false)) :=
      emit_stays (by simp) fun _ => rfl
    exact (perform_stays (k := .advertiseLocalAddrTimer) hcalm trivial w f.now).isSome hsome

theorem relayFloodingAddrs_installed (h : Place.relayFloodingAddrsTimeoutCb.Installs f w) :
    Place.relayFloodingAddrsTimeoutCb.installed x f w = some (toUint32 (argument x)) := by
  obtain ⟨hup, hsome⟩ := h
  simp only [Place.installed, Place.run, World.relayFloodingAddrsTimeoutCb, hup,
    Bool.false_eq_true, if_false]
  apply cfg_setInterval
  refine List.foldlRecOn f.addrs _
    (motive := fun w => (cfg w .broadcastAddrsTimer).isSome) hsome ?_
  intro w hw m _
  exact (perform_stays (k := .broadcastAddrsTimer) (sendMsg_calm f.env _) trivial w f.now).isSome hw

theorem verack_installed {header : MessageHeader} (h : (Place.verack header).Installs f w) :
    (Place.verack header).installed x f w =
      if toUint32 (argument x) = 0 then none else some (toUint32 (argument x)) := by
  obtain ⟨hin, hadvertise⟩ := h
  simp only [Place.installed, Place.run, World.receive, true_and, if_pos hin, hadvertise,
    World.settle, if_true]
  rw [cfg_start_of_ne (by simp) (start_slot_lt _ _ _ _ _)]
  exact cfg_start ..

/-- A timer is set with what is left of the argument, and verack starts none when that is 0. -/
theorem installed_cases {p : Place} (h : p.Installs f w) :
    p.installed x f w = some (toUint32 (argument x)) ∨
      toUint32 (argument x) = 0 ∧ p.installed x f w = none := by
  cases p with
  | advertiseLocalTimeoutCb => exact Or.inl (advertiseLocal_installed h)
  | relayFloodingAddrsTimeoutCb => exact Or.inl (relayFloodingAddrs_installed h)
  | verack header =>
    rw [verack_installed h]
    by_cases hzero : toUint32 (argument x) = 0
    · exact Or.inr ⟨hzero, if_pos hzero⟩
    · exact Or.inl (if_neg hzero)

theorem mem_installed {p : Place} (h : p.Installs f w) {v : Nat} (hv : v ∈ p.installed x f w) :
    v = toUint32 (argument x) := by
  rcases installed_cases (x := x) h with hset | ⟨-, hnone⟩
  · rw [hset] at hv
    exact (Option.mem_some_iff.mp hv).symm
  · rw [hnone] at hv
    cases hv

theorem installed_of_ne {p : Place} (h : p.Installs f w) (hx : toUint32 (argument x) ≠ 0) :
    p.installed x f w = some (toUint32 (argument x)) :=
  (installed_cases h).resolve_right fun hzero => hx hzero.1

/-- For one draw in 2 ^ 29 verack starts no timer. -/
theorem verack_starts_none_iff {header : MessageHeader} (h : (Place.verack header).Installs f w) :
    (Place.verack header).installed x f w = none ↔ 2 ^ 29 ∣ x.val := by
  have hcoprime : Nat.Coprime (2 ^ 29) 125 := by decide
  have hzero : toUint32 (argument x) = 0 ↔ 2 ^ 29 ∣ x.val := by
    calc toUint32 (argument x) = 0
        ↔ 2 ^ 29 * 8 ∣ x.val * 125 * 8 := by
          rw [toUint32, argument, ← Nat.dvd_iff_mod_eq_zero, Nat.mul_assoc]
          rfl
      _ ↔ 2 ^ 29 ∣ x.val * 125 := Nat.mul_dvd_mul_iff_right (by decide)
      _ ↔ 2 ^ 29 ∣ x.val := hcoprime.dvd_mul_right
  rw [verack_installed h, ← hzero]
  simp

end Places

section Units

variable (x : Draw) (f : Firing) (w : World) (p : Place)

/-- No draw but 0 keeps its unit. -/
theorem unitsKept_iff : UnitsKept x f w p ↔ (p.Installs f w → x = 0) := by
  constructor
  · intro h hin
    by_contra hx
    have hpositive : x.val ≠ 0 := fun hzero => hx (Fin.ext hzero)
    have hwhole := h.whole hin
    have hne : toUint32 (argument x) ≠ 0 := by
      rw [hwhole, argument]
      omega
    have hvalue := h.rounded hin _ (installed_of_ne hin hne)
    rw [hwhole, argument, rounded] at hvalue
    omega
  · intro h
    constructor
    · intro hin
      rw [h hin]
      rfl
    · intro hin v hv
      rw [mem_installed hin hv, h hin]
      rfl

end Units

section Session

open Handshake

def relayFiring : Firing := ⟨outboundEnv, [], false, 0, ⟨30000, by decide⟩⟩

def established : World :=
  [receiveHere (versionMessage 60002), receiveHere .verack].foldl step outboundStart

/-- A draw of 30 seconds is installed as about 49 days. -/
theorem relay_interval_not_kept :
    Place.relayFloodingAddrsTimeoutCb.installed 30000000 relayFiring established =
        some 4230196224 ∧
      ¬ UnitsKept 30000000 relayFiring established .relayFloodingAddrsTimeoutCb := by
  have hinstalled : Place.relayFloodingAddrsTimeoutCb.installed 30000000 relayFiring established =
      some 4230196224 := by
    decide +kernel
  refine ⟨hinstalled, fun h => ?_⟩
  have hin : Place.relayFloodingAddrsTimeoutCb.Installs relayFiring established := by
    constructor <;> decide +kernel
  have hvalue := h.rounded hin _ hinstalled
  revert hvalue
  decide

end Session

end Intervals
