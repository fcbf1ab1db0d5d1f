import Btclite.Network.BanLists
import Btclite.Network.Conduct

/-!
# Banning

A peer whose misbehaviour reaches the threshold should be disconnected and put
on the ban list by `CheckBanned`. Nothing calls it, and `ParseMsg` is not even
given the list: so a peer that was let in for not being banned is never banned,
and the rule holds of just those runs in which no message reaches the threshold.
-/

namespace Banning

open Serialize Address Messages Nodes Handlers MsgProcess Lifecycle Conduct BanLists

/-- A pass of the loop in `ParseMsg`: what is outside, the header pulled up and the peer. -/
structure Pass where
  env : Env
  raw : List Endian.Byte
  peer : Peer

namespace Pass

def after (pass : Pass) : Peer := (parseMsgPass pass.env pass.raw pass.peer).2

/-- Its message raises the score to the threshold or above. -/
def Raises (pass : Pass) : Prop :=
  pass.peer.work.node.misbehavior.score < pass.after.work.node.misbehavior.score ∧
    kDefaultBanscoreThreshold ≤ pass.after.work.node.misbehavior.score

instance (pass : Pass) : Decidable pass.Raises := inferInstanceAs (Decidable (_ ∧ _))

/-- In front of it is a message that counts as misbehaviour, and the score is up to it. -/
def Crosses (pass : Pass) : Prop :=
  kDefaultBanscoreThreshold ≤ pass.peer.work.node.misbehavior.score + 1 ∧
    Misbehaves pass.env pass.raw pass.peer

theorem raises_iff_crosses (pass : Pass) : pass.Raises ↔ pass.Crosses := by
  have hmoves := parseMsgPass_moves pass.env pass.raw pass.peer
  rw [Raises, Crosses, after]
  by_cases h : Misbehaves pass.env pass.raw pass.peer
  · rw [hmoves.charged h, charged]
    simp only [h, and_true, and_iff_right_iff_imp, BitVec.le_def, BitVec.lt_def, BitVec.toNat_add]
    intro hle
    have hthreshold : kDefaultBanscoreThreshold.toNat = 100 := rfl
    have hone : (1 : U32).toNat = 1 := rfl
    have hlt := pass.peer.work.node.misbehavior.score.isLt
    omega
  · rw [hmoves.spared h]
    simp [h]

end Pass

/-- The passes of the loop, as `parseMsgLoop` makes them. -/
def loopPasses (envs : Nat → Env) : Nat → Peer → List Pass
  | 0, _ => []
  | fuel + 1, p =>
    match evbufferPullup p.input MessageHeader.kSize with
    | none => []
    | some raw =>
      ⟨envs 0, raw, p⟩ ::
        match parseMsgPass (envs 0) raw p with
        | (.parsed _, p') => loopPasses (fun i => envs (i + 1)) fuel p'
        | _ => []

/-- The passes of one call of `ParseMsg`. -/
def passes (envs : Nat → Env) (p : Peer) : List Pass :=
  if !p.work.node.connection.bev || p.work.node.isDisconnected then []
  else loopPasses envs p.input.length p

theorem parseMsgLoop_last (envs : Nat → Env) (fuel : Nat) (ret : Bool) (p : Peer) :
    (parseMsgLoop envs fuel ret p).2 =
      ((loopPasses envs fuel p).getLast?.map Pass.after).getD p := by
  induction fuel generalizing envs ret p with
  | zero => rfl
  | succ fuel ih =>
    rw [parseMsgLoop, loopPasses]
    cases evbufferPullup p.input MessageHeader.kSize with
    | none => rfl
    | some raw =>
      have hafter : (⟨envs 0, raw, p⟩ : Pass).after = (parseMsgPass (envs 0) raw p).2 := rfl
      simp only
      rcases hrun : parseMsgPass (envs 0) raw p with ⟨r | _ | e, p'⟩
      · simp only [ih, List.getLast?_cons]
        rw [hrun] at hafter
        cases (loopPasses (fun i => envs (i + 1)) fuel p').getLast? with
        | none => exact hafter.symm
        | some last => rfl
      · rw [hrun] at hafter
        exact hafter.symm
      · rw [hrun] at hafter
        exact hafter.symm

/-- A call leaves the peer as its last pass does. -/
theorem parseMsg_last (envs : Nat → Env) (p : Peer) :
    (MsgProcess.parseMsg envs p).2 = ((passes envs p).getLast?.map Pass.after).getD p := by
  rw [MsgProcess.parseMsg, passes]
  by_cases hbev : (!p.work.node.connection.bev) = true
  · rw [if_pos hbev, hbev]
    rfl
  by_cases hdown : p.work.node.isDisconnected = true
  · rw [if_neg hbev, if_pos hdown, hdown, Bool.or_true]
    rfl
  rw [if_neg hbev, if_neg hdown, if_neg (by simp [hbev, hdown])]
  cases hpull : evbufferPullup p.input MessageHeader.kSize with
  | some raw => exact parseMsgLoop_last envs _ true p
  | none =>
    cases hlen : p.input.length with
    | zero => rfl
    | succ n =>
      rw [loopPasses, hpull]
      rfl

/-- A connection: the peer, the ban list of the context, and the clock. -/
structure World where
  peer : Peer
  banList : BanMap
  now : Nat

/-- What happens to a connection. Nothing in the program calls `CheckBanned`. -/
inductive Act where
  | arrive (bytes : List Endian.Byte)
  | parseMsg (envs : Nat → Env) (elapsed : Nat)
  | callback (env : Env) (cb : Callback) (called : cb ≠ .checkBanned)

namespace World

def step (w : World) : Act → World
  | .arrive bytes => { w with peer := ⟨(connReadCb w.peer.work).2, w.peer.input ++ bytes⟩ }
  | .parseMsg envs elapsed =>
    { w with peer := (MsgProcess.parseMsg envs w.peer).2, now := w.now + elapsed }
  | .callback env cb _ => { w with peer := ⟨(cb.run env w.peer.work).2, w.peer.input⟩ }

/-- What holds of every act when it comes. -/
def Throughout (P : World → Act → Prop) (w : World) : List Act → Prop
  | [] => True
  | act :: acts => P w act ∧ Throughout P (w.step act) acts

variable (base32Encode : List Endian.Byte → List Char)

def addr (w : World) : NetAddr := w.peer.work.node.connection.addr

def Banned (w : World) : Prop := BannedAt base32Encode w.now w.addr w.banList

/-- The acceptor and the connector turn a banned address away. -/
def letIn (banList : BanMap) (now : Nat) (peer : Peer) : Option World :=
  if isBanned base32Encode now peer.work.node.connection.addr banList then none
  else some ⟨peer, banList, now⟩

/-- When a call of `ParseMsg` has raised the score to the threshold, it leaves the peer
disconnected and banned. -/
def Enforces (w : World) (act : Act) : Prop :=
  ∀ envs elapsed, act = .parseMsg envs elapsed → (∃ pass ∈ passes envs w.peer, pass.Raises) →
    (w.step act).peer.work.node.isDisconnected = true ∧ (w.step act).Banned base32Encode

/-- No pass of a call of `ParseMsg` finds a message that reaches the threshold. -/
def Tame (w : World) (act : Act) : Prop :=
  ∀ envs elapsed, act = .parseMsg envs elapsed → ∀ pass ∈ passes envs w.peer, ¬ pass.Crosses

end World

section Runs

variable {base32Encode : List Endian.Byte → List Char} {w : World}

theorem parseMsg_addr (envs : Nat → Env) (p : Peer) :
    (MsgProcess.parseMsg envs p).2.work.node.connection.addr = p.work.node.connection.addr := by
  have hrefl : Std.Refl fun p p' : Peer =>
      p'.work.node.connection.addr = p.work.node.connection.addr := ⟨fun _ => rfl⟩
  have htrans : IsTrans Peer fun p p' =>
      p'.work.node.connection.addr = p.work.node.connection.addr :=
    ⟨fun _ _ _ h h' => h'.trans h⟩
  exact parseMsg_relates (R := fun p p' : Peer =>
      p'.work.node.connection.addr = p.work.node.connection.addr)
    (fun env raw p => (parseMsgPass_moves env raw p).addr) envs p

theorem step_addr (w : World) (act : Act) : (w.step act).addr = w.addr := by
  cases act with
  | arrive bytes => rfl
  | parseMsg envs elapsed => exact parseMsg_addr envs w.peer
  | callback env cb called =>
    exact congrArg Standing.addr (callback_steady env called w.peer.work)

/-- No step adds to the ban list, and the clock goes on. -/
theorem step_banned {act : Act} (h : (w.step act).Banned base32Encode) :
    w.Banned base32Encode := by
  have haddr := step_addr w act
  cases act with
  | arrive bytes => exact h
  | parseMsg envs elapsed =>
    rw [World.Banned, haddr] at h
    exact BannedAt.antitone h (Int.ofNat_le.mpr (Nat.le_add_right _ _))
  | callback env cb called =>
    rw [World.Banned, haddr] at h
    exact h

/-- For a peer that is not banned, the rule asks for what never happens. -/
theorem enforces_iff_tame (h : ¬ w.Banned base32Encode) (act : Act) :
    w.Enforces base32Encode act ↔ w.Tame act := by
  constructor
  · intro henf envs elapsed hact pass hpass hcross
    have hraises := (pass.raises_iff_crosses).mpr hcross
    exact h (step_banned (henf envs elapsed hact ⟨pass, hpass, hraises⟩).2)
  · rintro htame envs elapsed hact ⟨pass, hpass, hraises⟩
    exact absurd ((pass.raises_iff_crosses).mp hraises) (htame envs elapsed hact pass hpass)

theorem letIn_eq_some {banList : BanMap} {now : Nat} {peer : Peer}
    (h : World.letIn base32Encode banList now peer = some w) : ¬ w.Banned base32Encode := by
  rw [World.letIn] at h
  split_ifs at h with hbanned
  cases h
  exact hbanned

/-- A connection that was let in keeps the rule throughout a run exactly if no pass of the
run meets a message that takes the score to the threshold. -/
theorem enforced_iff_tame {banList : BanMap} {now : Nat} {peer : Peer}
    (h : World.letIn base32Encode banList now peer = some w) (acts : List Act) :
    w.Throughout (World.Enforces base32Encode) acts ↔ w.Throughout World.Tame acts := by
  have hrun : ∀ (acts : List Act) (w : World), ¬ w.Banned base32Encode →
      (w.Throughout (World.Enforces base32Encode) acts ↔ w.Throughout World.Tame acts) := by
    intro acts
    induction acts with
    | nil => exact fun _ _ => Iff.rfl
    | cons act acts ih =>
      intro w hfree
      exact and_congr (enforces_iff_tame hfree act) (ih _ fun hb => hfree (step_banned hb))
  exact hrun acts w (letIn_eq_some h)

end Runs

/-- SHA-256 on the payload of a message that has none. -/
def unrulyEnv : Env := .hashing
  [([], hashOf 0xe3b0c44298fc1c149afbf4c8996fb92427ae41e4649b934ca495991b7852b855)]

/-- An inbound peer at 1.2.3.4 that asks for addresses before it sends its version. -/
def unrulyPeer (n : Nat) : Peer where
  work := ⟨initializeNode 1 (address123 4) true false 1, []⟩
  input := (List.replicate n (headerOf unrulyEnv .getaddr).serialize).flatten

def unrulyWorld (n : Nat) : World := ⟨unrulyPeer n, ∅, 1700000000⟩

theorem enforced_iff_tame_unruly :
    (unrulyWorld 2).Throughout (World.Enforces spell) [.parseMsg (fun _ => unrulyEnv) 1] ↔
      (unrulyWorld 2).Throughout World.Tame [.parseMsg (fun _ => unrulyEnv) 1] := by
  have hletIn : World.letIn spell ∅ 1700000000 (unrulyPeer 2) = some (unrulyWorld 2) := by
    rw [World.letIn, if_neg (by decide +kernel)]
    rfl
  exact enforced_iff_tame hletIn [.parseMsg (fun _ => unrulyEnv) 1]

/-- The hundredth such message takes the score to the threshold, and the peer is neither
disconnected nor banned. -/
theorem threshold_unpunished :
    World.letIn spell ∅ 1700000000 (unrulyPeer 100) = some (unrulyWorld 100) ∧
      (unrulyPeer 100).work.node.connection.manual = false ∧
      (address123 4).isLocal = false ∧
      ¬ (unrulyWorld 100).Throughout (World.Enforces spell)
        [.parseMsg (fun _ => unrulyEnv) 0] := by
  refine ⟨?_, rfl, by decide, ?_⟩
  · rw [World.letIn, if_neg (by decide +kernel)]
    rfl
  rintro ⟨henforces, -⟩
  have hraised : (passes (fun _ => unrulyEnv) (unrulyPeer 100))[99]?.any
      (fun pass => pass.Raises) = true := by
    decide +kernel
  rcases (Option.any_eq_true _ _).mp hraised with ⟨pass, hpass, hraises⟩
  have hend := henforces (fun _ => unrulyEnv) 0 rfl
    ⟨pass, List.mem_of_getElem? hpass, of_decide_eq_true hraises⟩
  have hfree : isBanned spell 1700000000 (address123 4) ∅ = false := by decide +kernel
  have hbanned : isBanned spell 1700000000 (address123 4) ∅ = true := step_banned hend.2
  rw [hfree] at hbanned
  cases hbanned

end Banning
