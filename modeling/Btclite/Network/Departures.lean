import Btclite.Network.Nodes
import Mathlib.Tactic.SplitIfs

/-!
# Departures

The two ways in which a node is disconnected: its connection's `Disconnect`,
with the callback that the connector and the acceptor register, and
`DisconnectNode`. Both ask whether the peer's time should be updated when the
connection is already in the state that rules it out.
-/

namespace Departures

open Nodes

/-- `DisconnectNode`, on the nodes and peers that are singletons. -/
def disconnectNode (env : Env) : Handler Unit := do
  setConnectionState env .kDisconnected
  stopAllTimers
  let node ← getNode
  ifThen node.shouldUpdateTime (emit .peerTimeUpdated)
  emit .erased

section Runs

/-- A node with its connection closed. -/
def closed (n : Node) : Node :=
  { n with connection := { n.connection with connectionState := .kDisconnected } }

def quiet (n : Node) : Node := { n with timers := .stopped }

theorem shouldUpdateTime_closed (n : Node) : (closed n).shouldUpdateTime = false :=
  Bool.and_false _

/-- By the time the callback looks at the connection, it is closed. -/
theorem disconnectNodeCb_run (env : Env) (n : Node) (log : List Event) :
    (disconnectNodeCb env ⟨closed n, log⟩).2 = ⟨quiet (closed n), log ++ [.erased]⟩ := by
  have hkeeps : ¬ (env.peersSize.isSome && (quiet (closed n)).shouldUpdateTime) = true := by
    change ¬ (_ && (closed n).shouldUpdateTime) = true
    rw [shouldUpdateTime_closed, Bool.and_false]
    exact Bool.false_ne_true
  change ((do
    ifThen (env.peersSize.isSome && (quiet (closed n)).shouldUpdateTime) (emit .peerTimeUpdated)
    emit .erased : Handler Unit) ⟨quiet (closed n), log⟩).2 = _
  rw [ifThen, if_neg hkeeps]
  rfl

/-- `Disconnect`, with the callback registered or not. -/
theorem disconnect_run (env : Env) (w : Work) :
    (disconnect env w).2 =
      if w.node.connection.disconnectCb then
        ⟨quiet (closed w.node), w.log ++ [.stateSet .kDisconnected] ++ [.erased]⟩
      else ⟨closed w.node, w.log ++ [.stateSet .kDisconnected]⟩ := by
  change ((ifThen (ConnectionState.kDisconnected = .kDisconnected ∧ w.node.connection.disconnectCb)
    (disconnectNodeCb env) : Handler Unit)
      ⟨closed w.node, w.log ++ [.stateSet .kDisconnected]⟩).2 = _
  by_cases hcb : w.node.connection.disconnectCb = true
  · rw [ifThen, if_pos ⟨rfl, hcb⟩, if_pos hcb, disconnectNodeCb_run]
  · rw [ifThen, if_neg fun h => hcb h.2, if_neg hcb]
    rfl

theorem disconnectNode_run (env : Env) (w : Work) :
    (disconnectNode env w).2 =
      ⟨quiet (closed w.node), (disconnect env w).2.log ++ [.erased]⟩ := by
  have hnode : quiet (disconnect env w).2.node = quiet (closed w.node) := by
    rw [disconnect_run]
    split_ifs
    · rfl
    · rfl
  have hkeeps : ¬ (quiet (closed w.node)).shouldUpdateTime = true := by
    change ¬ (closed w.node).shouldUpdateTime = true
    rw [shouldUpdateTime_closed]
    exact Bool.false_ne_true
  change ((do
    ifThen (quiet (disconnect env w).2.node).shouldUpdateTime (emit .peerTimeUpdated)
    emit .erased : Handler Unit)
      ⟨quiet (disconnect env w).2.node, (disconnect env w).2.log⟩).2 = _
  rw [hnode, ifThen, if_neg hkeeps]
  rfl

end Runs

section Updates

/-- How often `UpdateTime` has been called for the node. -/
def timeUpdates (w : Work) : Nat := w.log.count .peerTimeUpdated

/-- A disconnection updates the peer's time once if it was a good peer, and not otherwise. -/
def RefreshesGood (disconnection : Handler Unit) (w : Work) : Prop :=
  timeUpdates (disconnection w).2 = timeUpdates w +
    if w.node.connection.connectionState = .kEstablished ∧ w.node.misbehavior.score = 0 then 1
    else 0

theorem disconnect_timeUpdates (env : Env) (w : Work) :
    timeUpdates (disconnect env w).2 = timeUpdates w := by
  rw [disconnect_run]
  split_ifs
  · simp [timeUpdates]
  · simp [timeUpdates]

theorem disconnectNode_timeUpdates (env : Env) (w : Work) :
    timeUpdates (disconnectNode env w).2 = timeUpdates w := by
  rw [disconnectNode_run, ← disconnect_timeUpdates env w]
  simp [timeUpdates]

theorem refreshesGood_iff {disconnection : Handler Unit} {w : Work}
    (h : timeUpdates (disconnection w).2 = timeUpdates w) :
    RefreshesGood disconnection w ↔
      w.node.connection.connectionState ≠ .kEstablished ∨ w.node.misbehavior.score ≠ 0 := by
  rw [RefreshesGood, h, ← not_and_or]
  split_ifs with hgood
  · exact iff_of_false (Nat.ne_of_lt (Nat.lt_succ_self _)) (not_not_intro hgood)
  · exact iff_of_true rfl hgood

end Updates

/-- Neither way of disconnecting a node updates the time of a peer, whether good or not. -/
theorem refreshes_iff_not_good (env : Env) (w : Work) :
    (RefreshesGood (disconnect env) w ↔
        w.node.connection.connectionState ≠ .kEstablished ∨ w.node.misbehavior.score ≠ 0) ∧
      (RefreshesGood (disconnectNode env) w ↔
        w.node.connection.connectionState ≠ .kEstablished ∨ w.node.misbehavior.score ≠ 0) := by
  constructor
  · exact refreshesGood_iff (disconnect_timeUpdates env w)
  · exact refreshesGood_iff (disconnectNode_timeUpdates env w)

/-- Surroundings with a list of peers. -/
def withPeers : Env := { Env.hashing [] with peersSize := some 1 }

/-- An inbound peer with which the handshake is completed. -/
def establishedPeer : Work :=
  ⟨{ Work.inbound.node with
    connection := { Work.inbound.node.connection with connectionState := .kEstablished } }, []⟩

theorem good_peer_forgotten :
    establishedPeer.node.shouldUpdateTime = true ∧
      (disconnect withPeers establishedPeer).2.log = [.stateSet .kDisconnected, .erased] ∧
      timeUpdates (disconnectNode withPeers establishedPeer).2 = 0 := by
  decide

end Departures
