import Btclite.Library.Runs
import Btclite.Library.Tables
import Btclite.Network.Departures
import Mathlib.Logic.Function.Basic

/-!
# The node counters

Four process-wide numbers say for how many nodes a flag is set. The setters
adjust them when they change a flag, and so does the constructor; nothing does
when a node is destroyed with flags that are still set.
-/

namespace NodeCounters

open Serialize Messages Nodes Departures Runs

/-- A node with the state of block synchronisation that is counted. -/
structure SyncNode where
  node : Node
  syncStarted : Bool := false
  protect : Bool := false
  numValidHeaders : Int := 0

/-- `Node::IsPreferedDownload`. -/
def isPreferedDownload (n : Node) : Bool :=
  let isClient := n.services &&& kNodeNetwork == 0
  !n.isInbound && !isClient

/-- What is counted. -/
inductive Counter where
  | numPreferedDownload
  | numSyncStarted
  | numProtected
  | numValidatedDownload
deriving DecidableEq

/-- The flag of a node that a counter counts. -/
def Counter.flag : Counter → SyncNode → Bool
  | .numPreferedDownload, n => isPreferedDownload n.node
  | .numSyncStarted, n => n.syncStarted
  | .numProtected, n => n.protect
  | .numValidatedDownload, n => decide (0 < n.numValidHeaders)

/-- The nodes that are alive, and the counters, which are `int`. -/
structure World where
  nodes : List SyncNode
  counters : Counter → Int

def World.start : World := ⟨[], fun _ => 0⟩

section Operations

/-- A setter takes the flag off its counter, sets it and adds it again. -/
def recount (k : Counter) (set : SyncNode → SyncNode) (i : Nat) (w : World) : World :=
  match w.nodes[i]? with
  | none => w
  | some n =>
    { nodes := w.nodes.set i (set n)
      counters := Function.update w.counters k
        (w.counters k - (k.flag n).toInt + (k.flag (set n)).toInt) }

def setServices (services : U64) : Nat → World → World :=
  recount .numPreferedDownload fun n => { n with node := { n.node with services } }

def setSyncStarted (syncStarted : Bool) : Nat → World → World :=
  recount .numSyncStarted fun n => { n with syncStarted }

def setProtect (protect : Bool) : Nat → World → World :=
  recount .numProtected fun n => { n with protect }

def setNumValidHeaders (numValidHeaders : Int) : Nat → World → World :=
  recount .numValidatedDownload fun n => { n with numValidHeaders }

/-- The constructor of `Node`. -/
def create (node : Node) (w : World) : World :=
  { nodes := w.nodes ++ [{ node }]
    counters := Function.update w.counters .numPreferedDownload
      (w.counters .numPreferedDownload + (isPreferedDownload node).toInt) }

/-- A node is run through one of the two ways of disconnecting it. -/
def depart (disconnection : Handler Unit) (i : Nat) (w : World) : World :=
  match w.nodes[i]? with
  | none => w
  | some n =>
    { w with nodes := w.nodes.set i { n with node := (disconnection ⟨n.node, []⟩).2.node } }

/-- `Node` has no destructor of its own. -/
def destroy (i : Nat) (w : World) : World := { w with nodes := w.nodes.eraseIdx i }

end Operations

inductive Act where
  | create (id : Nat) (addr : Address.NetAddr) (isInbound manual : Bool) (nonce : U64)
  | setServices (i : Nat) (services : U64)
  | setSyncStarted (i : Nat) (syncStarted : Bool)
  | setProtect (i : Nat) (protect : Bool)
  | setNumValidHeaders (i : Nat) (numValidHeaders : Int)
  | disconnect (i : Nat) (env : Env)
  | disconnectNode (i : Nat) (env : Env)
  | destroy (i : Nat)

def step (w : World) : Act → World
  | .create id addr isInbound manual nonce =>
    create (initializeNode id addr isInbound manual nonce) w
  | .setServices i services => setServices services i w
  | .setSyncStarted i syncStarted => setSyncStarted syncStarted i w
  | .setProtect i protect => setProtect protect i w
  | .setNumValidHeaders i numValidHeaders => setNumValidHeaders numValidHeaders i w
  | .disconnect i env => depart (disconnect env) i w
  | .disconnectNode i env => depart (disconnectNode env) i w
  | .destroy i => destroy i w

/-- Each counter is the number of nodes alive whose flag is set. -/
def Right (w : World) : Prop := ∀ k : Counter, w.counters k = w.nodes.countP k.flag

/-- No node is destroyed with a flag set. -/
def Unflagged (w : World) : Act → Prop
  | .destroy i => ∀ n, w.nodes[i]? = some n → ∀ k : Counter, k.flag n = false
  | _ => True

section Counting

variable {A : Type} {p : A → Bool} {l : List A} {i : Nat} {n : A}

theorem toInt_eq (b : Bool) : b.toInt = if b then 1 else 0 := by cases b <;> rfl

theorem counted_eraseIdx (h : l[i]? = some n) :
    (l.countP p : Int) = (l.eraseIdx i).countP p + (p n).toInt := by
  rw [toInt_eq, Tables.countP_eraseIdx h]
  split <;> simp

theorem counted_concat (p : A → Bool) (l : List A) (n : A) :
    ((l ++ [n]).countP p : Int) = l.countP p + (p n).toInt := by
  rw [toInt_eq, List.countP_append, List.countP_singleton]
  split <;> simp

theorem counted_set (h : l[i]? = some n) (n' : A) :
    ((l.set i n').countP p : Int) = l.countP p - (p n).toInt + (p n').toInt := by
  have hset := Tables.countP_set (p := p) h n'
  rw [toInt_eq, toInt_eq]
  split_ifs at hset ⊢ <;> omega

end Counting

section Steps

variable {w : World}

theorem create_right (h : Right w) (n : Node) : Right (create n w) := by
  intro k
  have hk := h k
  simp only [create, counted_concat]
  cases k with
  | numPreferedDownload =>
    rw [Function.update_self, hk]
    rfl
  | numSyncStarted => exact hk.trans (Int.add_zero _).symm
  | numProtected => exact hk.trans (Int.add_zero _).symm
  | numValidatedDownload => exact hk.trans (Int.add_zero _).symm

theorem recount_right (h : Right w) {k : Counter} {set : SyncNode → SyncNode} (i : Nat)
    (hothers : ∀ k', k' ≠ k → ∀ n, Counter.flag k' (set n) = Counter.flag k' n) :
    Right (recount k set i w) := by
  intro k'
  cases hn : w.nodes[i]? with
  | none =>
    simp only [recount, hn]
    exact h k'
  | some n =>
    simp only [recount, hn]
    rw [counted_set hn]
    by_cases hk : k' = k
    · rw [hk, Function.update_self, h k]
    · rw [Function.update_of_ne hk, hothers k' hk, h k']
      omega

theorem depart_right (h : Right w) {disconnection : Handler Unit} (i : Nat)
    (hnode : ∀ n, isPreferedDownload (disconnection ⟨n, []⟩).2.node = isPreferedDownload n) :
    Right (depart disconnection i w) := by
  intro k
  cases hn : w.nodes[i]? with
  | none =>
    simp only [depart, hn]
    exact h k
  | some n =>
    simp only [depart, hn]
    rw [counted_set hn, h k]
    have hflag : Counter.flag k { n with node := (disconnection ⟨n.node, []⟩).2.node } =
        Counter.flag k n := by
      cases k with
      | numPreferedDownload => exact hnode n.node
      | numSyncStarted => rfl
      | numProtected => rfl
      | numValidatedDownload => rfl
    rw [hflag]
    omega

/-- The counters stay right at the end of a node exactly if it has no flag set. -/
theorem destroy_right_iff (h : Right w) (i : Nat) :
    Right (destroy i w) ↔ Unflagged w (.destroy i) := by
  cases hn : w.nodes[i]? with
  | none =>
    have hsame : destroy i w = w := by
      rw [destroy, List.eraseIdx_of_length_le (List.getElem?_eq_none_iff.mp hn)]
    rw [hsame]
    refine iff_of_true h fun n hsome => ?_
    rw [hn] at hsome
    cases hsome
  | some n =>
    have hone (k : Counter) : (destroy i w).counters k =
        (destroy i w).nodes.countP k.flag + (k.flag n).toInt :=
      (h k).trans (counted_eraseIdx hn)
    constructor
    · intro hright n' hn' k
      obtain rfl : n = n' := Option.some.inj (hn.symm.trans hn')
      have hk := hone k
      rw [hright k] at hk
      cases hflag : k.flag n with
      | false => rfl
      | true => simp [hflag] at hk
    · intro hclean k
      rw [hone k, hclean n hn k]
      simp

theorem disconnect_flag (env : Env) (n : Node) :
    isPreferedDownload (disconnect env ⟨n, []⟩).2.node = isPreferedDownload n := by
  rw [disconnect_run]
  split_ifs
  · rfl
  · rfl

theorem disconnectNode_flag (env : Env) (n : Node) :
    isPreferedDownload (disconnectNode env ⟨n, []⟩).2.node = isPreferedDownload n := by
  rw [disconnectNode_run]
  rfl

/-- Every act keeps the counters right, but for the end of a node with a flag set. -/
theorem step_right_iff (h : Right w) (a : Act) : Right (step w a) ↔ Unflagged w a := by
  cases a with
  | create id addr isInbound manual nonce => exact iff_of_true (create_right h _) trivial
  | setServices i services =>
    refine iff_of_true (recount_right h i fun k hk n => ?_) trivial
    cases k with
    | numPreferedDownload => exact absurd rfl hk
    | _ => rfl
  | setSyncStarted i syncStarted =>
    refine iff_of_true (recount_right h i fun k hk n => ?_) trivial
    cases k with
    | numSyncStarted => exact absurd rfl hk
    | _ => rfl
  | setProtect i protect =>
    refine iff_of_true (recount_right h i fun k hk n => ?_) trivial
    cases k with
    | numProtected => exact absurd rfl hk
    | _ => rfl
  | setNumValidHeaders i numValidHeaders =>
    refine iff_of_true (recount_right h i fun k hk n => ?_) trivial
    cases k with
    | numValidatedDownload => exact absurd rfl hk
    | _ => rfl
  | disconnect i env => exact iff_of_true (depart_right h i (disconnect_flag env)) trivial
  | disconnectNode i env => exact iff_of_true (depart_right h i (disconnectNode_flag env)) trivial
  | destroy i => exact destroy_right_iff h i

end Steps

/-- The counters are right all the time exactly if no node is destroyed with a flag set. -/
theorem counted_iff_unflagged (acts : List Act) :
    (∀ done, done <+: acts → Right (done.foldl step .start)) ↔
      Throughout step Unflagged .start acts :=
  always_iff_throughout (fun _ => rfl) fun _ a _ h => step_right_iff h a

/-- A node is destroyed that had started to synchronise. -/
theorem started_node_counted_for_ever :
    ([Act.create 1 {} true false 1, .setSyncStarted 0 true, .destroy 0].foldl step
        .start).counters .numSyncStarted = 1 ∧
      ([Act.create 1 {} true false 1, .setSyncStarted 0 true, .destroy 0].foldl step
        .start).nodes.length = 0 := by
  decide

end NodeCounters
