import Btclite.Network.BookEdits
import Btclite.Network.Selection
import Btclite.Network.SelfConnection
import Btclite.Network.TimerFlags

/-!
# Connections

The connector and the acceptor over any run. `P2P::Start` either connects to the
addresses it was given or lets a timer connect to peers of the address book, and
the acceptor takes in whoever comes; nodes do what they do, the handlers of a node
write to the book, and a node that is disconnected is erased. Each call is one step.
In the program a node is in its registry from `InitializeNode` on, and gets its
callbacks only after that; nothing else adds to the same registry meanwhile.
-/

namespace Connections

open Endian Serialize Address Messages Nodes Handlers MsgProcess Lifecycle Peers AddressBook Runs
open Departures Effects Selection SelfConnection

section Source

/-- The book, what `GetNewNodeId` has counted, `Connector::outbounds_` and
`Acceptor::Inbounds()`. -/
structure World where
  book : Book
  lastNodeId : Nat := 0
  outbounds : List Node := []
  inbounds : List Node := []

/-- What a call finds outside: sockets, the lists of local and banned addresses, the clock. -/
structure Outside where
  env : Env
  hasBase : Bool := true
  localAddrs : List NetAddr := []
  isBanned : NetAddr → Bool := fun _ => false
  hasSocket : Bool := true
  connects : Bool := true
  nonce : U64
  attemptTime : I64

/-- `LocalService::IsLocal`. -/
def isLocal (localAddrs : List NetAddr) (addr : NetAddr) : Bool := localAddrs.any addr.sameEndpoint

variable (sha256 : List Byte → Hash256)

/-- `Connector::ConnectNode`. The attempt is noted before it is known how it ends. -/
def connectNode (o : Outside) (addr : NetAddr) (manual : Bool) (w : World) :
    Except Fault (Bool × World) :=
  if !o.hasBase then .ok (false, w)
  else if !addr.isValid then .ok (false, w)
  else if isLocal o.localAddrs addr then .ok (false, w)
  else if w.outbounds.any (·.connection.addr.sameEndpoint addr) then .ok (false, w)
  else if o.isBanned addr then .ok (false, w)
  else if !o.hasSocket then .ok (false, w)
  else do
    let (_, book) ← w.book.attempt sha256 addr o.attemptTime
    if !o.connects then pure (false, { w with book })
    else
      let node := initializeNode w.lastNodeId addr false manual o.nonce
      pure (true, { w with
        book
        lastNodeId := w.lastNodeId + 1
        outbounds := addNode w.outbounds (sendVersion o.env ⟨node, []⟩).2.node })

/-- What the timer of the connector finds: the adjusted time, the port of the network, and
what `Select` draws at each try. -/
structure Timeout where
  isValid : Bool := true
  now : I64
  defaultPort : U16
  interrupted : Nat → Bool := fun _ => false
  iter : Iteration
  coin : Nat → Distribution
  position : Nat → Distribution

/-- The peers that are good enough after so many tries. -/
def suits (t : Timeout) (tries : Nat) (peer : Peers.Peer) : Bool :=
  if tries ≤ 30 then
    (600 : I64).sle (t.now - peer.lastTry) && peer.addr.protoPort == t.defaultPort.setWidth 32 &&
      isServiceFlagDesirable peer.addr.services
  else if tries ≤ 50 then
    peer.addr.protoPort == t.defaultPort.setWidth 32 && isServiceFlagDesirable peer.addr.services
  else isServiceFlagDesirable peer.addr.services

/-- The loop of `OutboundTimeOutCb`, with `n` more tries to make. -/
def outboundTries (o : Outside) (t : Timeout) (w : World) :
    Nat → Nat → Peers.Peer → Except Fault (Bool × World)
  | 0, _, _ => .ok (false, w)
  | n + 1, tries, peer =>
    if t.interrupted tries then .ok (false, w)
    else do
      match ← selectInto w.book t.iter (t.coin tries) (t.position tries) (some peer) false with
      | (true, some peer, _) =>
        if !peer.addr.isValid || isLocal o.localAddrs peer.addr then pure (false, w)
        else if suits t tries peer then connectNode sha256 o peer.addr false w
        else outboundTries o t w n (tries + 1) peer
      | _ => pure (false, w)

/-- `Connector::OutboundTimeOutCb`. -/
def outboundTimeOutCb (o : Outside) (t : Timeout) (w : World) : Except Fault (Bool × World) :=
  if !t.isValid then .ok (false, w)
  else if kMaxOutboundConnections ≤ w.outbounds.length then .ok (false, w)
  else outboundTries sha256 o t w 101 0 {}

/-- `Acceptor::AcceptConnCb`; `P2P::Init` has given it a context. -/
def acceptConnCb (o : Outside) (addr : NetAddr) (w : World) : World :=
  if o.isBanned addr then w
  else if kMaxInboundConnections ≤ w.inbounds.length then w
  else if !o.hasBase || !o.hasSocket then w
  else
    let node := initializeNode w.lastNodeId addr true false o.nonce
    { w with lastNodeId := w.lastNodeId + 1, inbounds := addNode w.inbounds node }

end Source

section Stepping

/-- What a handler of the node at this address tells the book. -/
def callOf (addr : NetAddr) (now : I64) : Event → Option Call
  | .servicesSet services => some (.setServices addr services)
  | .peerTried => some (.makeTried addr now)
  | .peerTimeUpdated => some (.updateTime addr now)
  | _ => none

variable (sha256 : List Byte → Hash256)

def settleBook (now : I64) (w : Work) (book : Book) : Except Fault Book :=
  (w.log.filterMap (callOf w.node.connection.addr now)).foldlM (fun book c => c.run sha256 book)
    book

/-- A node of a registry, and what the thread that works on it finds in its buffer. -/
structure Worker where
  node : Node
  input : List Byte := []
  readers : Nat := 0

inductive Act where
  | outboundTimeOut (o : Outside) (t : Timeout)
  | connect (o : Outside) (addr : NetAddr)
  | accept (o : Outside) (addr : NetAddr)
  | outbound (worker : Worker) (act : Lifecycle.Act) (now : I64)
  | inbound (worker : Worker) (act : Lifecycle.Act) (now : I64)
  | book (c : Call)

def work (worker : Worker) (act : Lifecycle.Act) : Option Work :=
  (Lifecycle.step ⟨⟨⟨worker.node, []⟩, worker.input⟩, worker.readers⟩ act).map (·.peer.work)

def step (w : World) : Act → Except Fault World
  | .outboundTimeOut o t => Prod.snd <$> outboundTimeOutCb sha256 o t w
  | .connect o addr => Prod.snd <$> connectNode sha256 o addr true w
  | .accept o addr => .ok (acceptConnCb o addr w)
  | .outbound worker act now =>
    match work worker act with
    | none => .ok w
    | some done => do
      let book ← settleBook sha256 now done w.book
      pure { w with book, outbounds := settleNode w.outbounds done }
  | .inbound worker act now =>
    match work worker act with
    | none => .ok w
    | some done => do
      let book ← settleBook sha256 now done w.book
      pure { w with book, inbounds := settleNode w.inbounds done }
  | .book c => (fun book => { w with book }) <$> c.run sha256 w.book

/-- What may happen: the timer runs unless addresses were given to connect to, and the nodes
that work are registered. -/
def Allowed (U : Set IpAddr) (given : Bool) (w : World) : Act → Prop
  | .outboundTimeOut _ _ => given = false
  | .connect _ _ => given = true
  | .accept _ _ => True
  | .outbound worker _ _ => worker.node ∈ w.outbounds
  | .inbound worker _ _ => worker.node ∈ w.inbounds
  | .book c => c.Allowed U w.book

/-- What becomes of a new book and empty registries. -/
abbrev Reachable (U : Set IpAddr) (given : Bool) (key : Hash256) : World → Prop :=
  Run (fun w a w' => step sha256 w a = .ok w') (Allowed U given) { book := fresh key }

end Stepping

section Keeping

/-- What no handler changes of a node. -/
structure Identity where
  id : Nat
  isInbound : Bool
  addr : NetAddr
  manual : Bool
  disconnectCb : Bool
deriving DecidableEq

def identity (n : Node) : Identity where
  id := n.id
  isInbound := n.isInbound
  addr := n.connection.addr
  manual := n.connection.manual
  disconnectCb := n.connection.disconnectCb

/-- A node stays who it is, and is erased when it is disconnected. -/
structure Kept (w w' : Work) : Prop where
  identity : identity w'.node = identity w.node
  log : w.log <+: w'.log
  left : w'.node.isDisconnected = true → w.node.isDisconnected = true ∨
    w.node.connection.disconnectCb = false ∨ .erased ∈ w'.log

instance : Std.Refl Kept := ⟨fun _ => ⟨rfl, List.prefix_refl _, Or.inl⟩⟩

instance : IsTrans Work Kept where
  trans w w' w'' h h' := by
    refine ⟨h'.identity.trans h.identity, h.log.trans h'.log, fun hdown => ?_⟩
    rcases h'.left hdown with hdown' | hcb | herased
    · rcases h.left hdown' with hold | hcb | herased
      · exact .inl hold
      · exact .inr (.inl hcb)
      · exact .inr (.inr (h'.log.subset herased))
    · have hsame := congrArg Identity.disconnectCb h.identity
      exact .inr (.inl (hsame.symm.trans hcb))
    · exact .inr (.inr herased)

theorem getNode_kept : Does Kept getNode := fun w => refl_of _ w

theorem setNode_kept {f : Node → Node} (hsame : ∀ n, identity (f n) = identity n)
    (hstate : ∀ n, (f n).isDisconnected = n.isDisconnected) : Does Kept (setNode f) :=
  fun w => ⟨hsame w.node, List.prefix_refl _, fun h => .inl ((hstate w.node).symm.trans h)⟩

theorem emit_kept (e : Event) : Does Kept (emit e) :=
  fun _ => ⟨rfl, List.prefix_append _ _, Or.inl⟩

theorem ifThen_kept {c : Prop} [Decidable c] {m : Handler Unit} (hm : Does Kept m) :
    Does Kept (ifThen c m) :=
  Does.ite (fun _ => hm) fun _ => Does.pure ()

theorem disconnect_kept (env : Env) : Does Kept (disconnect env) := by
  intro w
  rw [disconnect_run]
  split_ifs with hcb
  · refine ⟨rfl, ?_, fun _ => .inr (.inr (by simp))⟩
    rw [List.append_assoc]
    exact List.prefix_append _ _
  · exact ⟨rfl, List.prefix_append _ _, fun _ => .inr (.inl (by simpa using hcb))⟩

theorem establish_kept (env : Env) : Does Kept (setConnectionState env .kEstablished) := by
  intro w
  rw [TimerFlags.establish_run]
  exact ⟨rfl, List.prefix_append _ _, fun h => nomatch h⟩

theorem misbehaving_kept (howmuch : U32) : Does Kept (misbehaving howmuch) :=
  ifThen_kept (setNode_kept (fun _ => rfl) fun _ => rfl)

theorem setLocalAddr_kept (addr : NetAddr) : Does Kept (setLocalAddr addr) := by
  refine setNode_kept (fun n => ?_) fun n => ?_
  · by_cases h : n.connection.localAddr.isValid <;> simp [identity, h]
  · by_cases h : n.connection.localAddr.isValid <;>
      simp [Node.isDisconnected, NodeConnection.isDisconnected, h]

theorem sendMsg_kept (env : Env) (m : Message) : Does Kept (sendMsg env m) := by
  refine Does.bind getNode_kept fun node => ?_
  refine Does.ite (fun _ => Does.pure _) fun _ => ?_
  refine Does.bind (setNode_kept (fun _ => rfl) fun _ => rfl) fun _ => ?_
  refine Does.ite (fun _ => Does.pure _) fun _ => ?_
  refine Does.ite (fun _ => Does.pure _) fun _ => ?_
  refine Does.bind (emit_kept _) fun _ => ?_
  exact Does.bind (setNode_kept (fun _ => rfl) fun _ => rfl) fun _ => Does.pure _

theorem sends_kept (env : Env) (m : Message) :
    Does Kept (do let _ ← sendMsg env m; pure () : Handler Unit) :=
  Does.bind (sendMsg_kept env m) fun _ => Does.pure ()

theorem sendVersion_kept (env : Env) : Does Kept (sendVersion env) :=
  Does.bind getNode_kept fun _ => sendMsg_kept env _

theorem greet_kept (env : Env) (v : Version) : Does Kept (greet env v) := by
  refine Does.bind (emit_kept _) fun _ => ?_
  refine Does.bind getNode_kept fun node => ?_
  refine Does.bind (Does.ite (fun _ => sendVersion_kept env) fun _ => Does.pure _) fun _ => ?_
  refine Does.bind (sendMsg_kept env _) fun _ => ?_
  refine Does.bind (setNode_kept (fun _ => rfl) fun _ => rfl) fun _ => ?_
  exact Does.bind (setLocalAddr_kept _) fun _ => setNode_kept (fun _ => rfl) fun _ => rfl

theorem introduce_kept (env : Env) (v : Version) : Does Kept (introduce env v) := by
  refine Does.bind (ifThen_kept (setNode_kept (fun _ => rfl) fun _ => rfl)) fun _ => ?_
  refine Does.bind getNode_kept fun node => ?_
  refine Does.bind (ifThen_kept ?_) fun _ => emit_kept _
  refine Does.bind (ifThen_kept (emit_kept _)) fun _ => ?_
  refine Does.bind (ifThen_kept ?_) fun _ => ifThen_kept (emit_kept _)
  exact Does.bind (sendMsg_kept env _) fun _ => setNode_kept (fun _ => rfl) fun _ => rfl

theorem versionRecvHandler_kept (env : Env) (v : Version) :
    Does Kept (versionRecvHandler env v) := by
  have hend : ∀ b : Bool, Does Kept (do disconnect env; pure b : Handler Bool) := fun b =>
    Does.bind (disconnect_kept env) fun _ => Does.pure b
  refine Does.bind getNode_kept fun node => Does.ite (fun _ => ?_) fun _ => ?_
  · exact Does.bind (misbehaving_kept 1) fun _ => Does.pure _
  refine Does.bind (ifThen_kept (emit_kept _)) fun _ => ?_
  refine Does.ite (fun _ => hend _) fun _ => Does.ite (fun _ => hend _) fun _ =>
    Does.ite (fun _ => hend _) fun _ => Does.ite (fun _ => hend _) fun _ => ?_
  refine Does.bind (Does.bind (greet_kept env v) fun _ => ?_) fun _ => Does.pure _
  exact Does.bind (setNode_kept (fun _ => rfl) fun _ => rfl) fun _ => introduce_kept env v

theorem negotiate_kept (env : Env) : Does Kept (negotiate env) := by
  refine Does.bind getNode_kept fun node => ?_
  refine Does.bind (ifThen_kept (sends_kept env _)) fun _ => ifThen_kept ?_
  exact Does.bind (ifThen_kept (sends_kept env _)) fun _ => sends_kept env _

theorem settle_kept (env : Env) : Does Kept (settle env) := by
  refine Does.bind getNode_kept fun node => ?_
  refine Does.bind (sendMsg_kept env _) fun _ => ?_
  refine Does.bind (setNode_kept (fun _ => rfl) fun _ => rfl) fun _ => ?_
  refine Does.bind (ifThen_kept ?_) fun _ => setNode_kept (fun _ => rfl) fun _ => rfl
  exact Does.bind (emit_kept _) fun _ => setNode_kept (fun _ => rfl) fun _ => rfl

theorem recvHandler_kept (env : Env) (m : Message) : Does Kept (recvHandler env m) := by
  cases m with
  | version v => exact versionRecvHandler_kept env v
  | verack =>
    refine Does.bind (negotiate_kept env) fun _ => ?_
    refine Does.bind (establish_kept env) fun _ => ?_
    exact Does.bind (settle_kept env) fun _ => Does.pure true
  | ping m =>
    refine Does.bind getNode_kept fun node => ?_
    exact Does.bind (ifThen_kept (sends_kept env _)) fun _ => Does.pure _
  | pong m =>
    refine Does.bind getNode_kept fun node => ?_
    refine Does.ite (fun _ => Does.pure _) fun _ => Does.ite (fun _ => Does.pure _) fun _ => ?_
    exact Does.bind (setNode_kept (fun _ => rfl) fun _ => rfl) fun _ => Does.pure _
  | addr m => exact Does.pure _
  | inv m => exact Does.pure _
  | getaddr => exact Does.pure _
  | reject m => exact Does.pure _
  | sendheaders => exact Does.pure _
  | sendcmpct m => exact Does.pure _

theorem handleMsgData_kept (env : Env) (header : MessageHeader) (m : Message) :
    Does Kept (handleMsgData env header m) := by
  refine Does.ite (fun _ => ?_) fun _ => Does.ite (fun _ => Does.pure _) fun _ => ?_
  · exact Does.bind (emit_kept _) fun _ => Does.pure _
  refine Does.bind getNode_kept fun node => Does.ite (fun _ => ?_) fun _ => ?_
  · exact Does.bind (misbehaving_kept 1) fun _ => Does.pure _
  · exact Does.bind (emit_kept _) fun _ => recvHandler_kept env m

theorem parseMsgData_kept (env : Env) (header : MessageHeader) (raw : List Byte) :
    Does Kept (parseMsgData env header raw) := by
  refine Does.bind (emit_kept _) fun _ => Does.bind getNode_kept fun node => ?_
  rcases decoded env header raw node with _ | (⟨m, s⟩ | ⟨failure, s⟩)
  · exact Does.pure _
  · refine Does.bind (ifThen_kept (emit_kept _)) fun _ => ?_
    exact Does.bind (handleMsgData_kept env header m) fun _ => Does.pure _
  · exact Does.bind (ifThen_kept (emit_kept _)) fun _ => Does.pure _

theorem parseMsgPass_kept (env : Env) (raw : List Byte) (p : MsgProcess.Peer) :
    Kept p.work (parseMsgPass env raw p).2.work := by
  rcases parseMsgPass_cases env raw p with hrun | hrun | ⟨payload, rest, -, hrun⟩
  · rw [hrun]
    exact refl_of _ p.work
  · rw [hrun]
    exact disconnect_kept env p.work
  · have hdata := parseMsgData_kept env (headerOfRaw env.memory raw) payload p.work
    rw [hrun]
    rcases hrun' : parseMsgData env (headerOfRaw env.memory raw) payload p.work with
      ⟨_ | _, w'⟩ <;> rw [hrun'] at hdata <;> exact hdata

theorem callback_kept (env : Env) (cb : Callback) : Does Kept (cb.run env) := by
  have hif : ∀ c : Node → Bool, Does Kept
      (do let node ← getNode; ifThen (c node) (disconnect env) : Handler Unit) := fun c =>
    Does.bind getNode_kept fun node => ifThen_kept (disconnect_kept env)
  cases cb with
  | inactivityTimeout => exact hif _
  | socketNoMsgTimeout => exact hif _
  | shakeHandsTimeout => exact hif _
  | pingTimeout =>
    refine Does.bind getNode_kept fun node => Does.ite (fun _ => Does.pure ()) fun _ => ?_
    exact Does.ite (fun _ => disconnect_kept env) fun _ => sends_kept env _
  | checkBanned =>
    refine Does.bind ?_ fun _ => Does.pure ()
    refine Does.bind getNode_kept fun node => Does.ite (fun _ => Does.pure _) fun _ => ?_
    refine Does.bind (setNode_kept (fun _ => rfl) fun _ => rfl) fun _ => ?_
    refine Does.ite (fun _ => Does.pure _) fun _ => Does.bind (disconnect_kept env) fun _ => ?_
    exact Does.bind (ifThen_kept (emit_kept _)) fun _ => Does.pure _
  | connEvent => exact hif _
  | send m => exact sends_kept env m

theorem work_kept {worker : Worker} {act : Lifecycle.Act} {done : Work}
    (h : work worker act = some done) : Kept ⟨worker.node, []⟩ done := by
  obtain ⟨s', hnext, rfl⟩ := Option.map_eq_some_iff.mp h
  rcases step_cases hnext with ⟨bytes, -, hpeer⟩ | hpeer | ⟨env, raw, -, -, hpeer⟩ |
    ⟨env, cb, -, hpeer⟩ <;> rw [hpeer]
  · exact setNode_kept (f := fun n => { n with
      connection := { n.connection with socketNoMsg := false }
      timers := { n.timers with noReceivingTimer := true } }) (fun _ => rfl) (fun _ => rfl) _
  · exact refl_of _ _
  · exact parseMsgPass_kept env raw ⟨⟨worker.node, []⟩, worker.input⟩
  · exact callback_kept env cb _

end Keeping

section Registries

variable {list : List Node} {n m : Node} {w : Work}

/-- The node that changes is the one that is registered under its number. -/
theorem storeNode_identity (hmem : n ∈ list) (hnodup : (list.map Node.id).Nodup)
    (hsame : identity m = identity n) :
    (storeNode list m).map identity = list.map identity := by
  rw [storeNode, List.map_map]
  refine List.map_congr_left fun k hk => ?_
  have hid : m.id = n.id := congrArg Identity.id hsame
  by_cases h : k.id = m.id
  · obtain rfl : k = n := List.inj_on_of_nodup_map hnodup hk hmem (h.trans hid)
    rw [Function.comp_apply, if_pos h, hsame]
  · rw [Function.comp_apply, if_neg h]

theorem settleNode_identity (hmem : n ∈ list) (hnodup : (list.map Node.id).Nodup)
    (hsame : identity w.node = identity n) :
    ((settleNode list w).map identity).Sublist (list.map identity) := by
  have hstore := storeNode_identity hmem hnodup hsame
  rw [settleNode]
  split_ifs
  · rw [← hstore]
    exact List.eraseP_sublist.map identity
  · rw [hstore]

theorem id_ne_of_mem_eraseNode (hnodup : (list.map Node.id).Nodup) {id : Nat}
    (h : m ∈ eraseNode list id) : m.id ≠ id := by
  intro hid
  obtain ⟨k, before, after, hbefore, hk, hlist, herase⟩ :=
    List.exists_of_eraseP (p := fun k : Node => k.id == id) (List.mem_of_mem_eraseP h)
      (beq_iff_eq.mpr hid)
  rw [eraseNode, herase] at h
  rcases List.mem_append.mp h with hm | hm
  · exact hbefore m hm (beq_iff_eq.mpr hid)
  · have hrest : (k.id :: after.map Node.id).Nodup := by
      rw [hlist, List.map_append, List.map_cons] at hnodup
      exact hnodup.of_append_right
    refine (List.nodup_cons.mp hrest).1 (List.mem_map.mpr ⟨m, hm, ?_⟩)
    rw [hid, beq_iff_eq.mp hk]

/-- An erased node is not there any more. -/
theorem mem_settleNode_of_erased (hnodup : (list.map Node.id).Nodup) (hmem : n ∈ list)
    (hsame : identity w.node = identity n) (herased : .erased ∈ w.log)
    (h : m ∈ settleNode list w) : m ∈ list := by
  have hids : ((storeNode list w.node).map Node.id).Nodup := by
    have hstore := congrArg (List.map Identity.id) (storeNode_identity hmem hnodup hsame)
    rw [List.map_map, List.map_map] at hstore
    exact hstore ▸ hnodup
  rw [settleNode, if_pos herased] at h
  have hid := id_ne_of_mem_eraseNode hids h
  obtain ⟨k, hk, hkm⟩ := List.mem_map.mp (List.mem_of_mem_eraseP h)
  split_ifs at hkm with hsame
  · exact absurd (congrArg Node.id hkm).symm hid
  · exact hkm ▸ hk

/-- The nodes of a registry are numbered apart, are of one kind, and are connected. -/
structure Registered (lastNodeId : Nat) (P : Identity → Prop) (list : List Node) : Prop where
  ids : (list.map Node.id).Nodup
  counted : ∀ n ∈ list, n.id < lastNodeId
  kind : ∀ n ∈ list, P (identity n)
  connected : ∀ n ∈ list, n.isDisconnected = false

variable {lastNodeId : Nat} {P : Identity → Prop}

theorem Registered.later {lastNodeId' : Nat} (h : Registered lastNodeId P list)
    (hle : lastNodeId ≤ lastNodeId') : Registered lastNodeId' P list :=
  ⟨h.ids, fun n hn => Nat.lt_of_lt_of_le (h.counted n hn) hle, h.kind, h.connected⟩

/-- A node that is new takes the next number. -/
theorem Registered.addNode (h : Registered lastNodeId P list) (hid : n.id = lastNodeId)
    (hkind : P (identity n)) (hconnected : n.isDisconnected = false) :
    Registered (lastNodeId + 1) P (addNode list n) := by
  have hmem : ∀ m ∈ SelfConnection.addNode list n, m ∈ list ∨ m = n := by
    intro m hm
    exact (List.mem_append.mp hm).imp_right List.mem_singleton.mp
  refine ⟨?_, fun m hm => ?_, fun m hm => ?_, fun m hm => ?_⟩
  · rw [SelfConnection.addNode, List.map_append, List.map_singleton]
    refine List.nodup_append.mpr ⟨h.ids, List.nodup_singleton _, fun i hi j hj => ?_⟩
    obtain ⟨m, hm, rfl⟩ := List.mem_map.mp hi
    rw [List.mem_singleton.mp hj, hid]
    exact Nat.ne_of_lt (h.counted m hm)
  · rcases hmem m hm with hm | rfl
    · exact Nat.lt_succ_of_lt (h.counted m hm)
    · omega
  · rcases hmem m hm with hm | rfl
    · exact h.kind m hm
    · exact hkind
  · rcases hmem m hm with hm | rfl
    · exact h.connected m hm
    · exact hconnected

/-- A node does its work, and stays unless that ended its connection. -/
theorem Registered.settleNode (h : Registered lastNodeId P list) (hmem : n ∈ list)
    (hcb : n.connection.disconnectCb = true) (hkept : Kept ⟨n, []⟩ w) :
    Registered lastNodeId P (settleNode list w) := by
  have hsub := settleNode_identity hmem h.ids hkept.identity
  have hold : ∀ m ∈ SelfConnection.settleNode list w, ∃ k ∈ list, identity k = identity m :=
    fun m hm => List.mem_map.mp (hsub.subset (List.mem_map_of_mem hm))
  refine ⟨?_, fun m hm => ?_, fun m hm => ?_, fun m hm => ?_⟩
  · have hids := hsub.map Identity.id
    rw [List.map_map, List.map_map] at hids
    exact h.ids.sublist hids
  · obtain ⟨k, hk, hkm⟩ := hold m hm
    have hid : k.id = m.id := congrArg Identity.id hkm
    exact hid ▸ h.counted k hk
  · obtain ⟨k, hk, hkm⟩ := hold m hm
    exact hkm ▸ h.kind k hk
  · by_cases herased : .erased ∈ w.log
    · exact h.connected m (mem_settleNode_of_erased h.ids hmem hkept.identity herased hm)
    rcases mem_settleNode hm with rfl | hm
    · rw [← Bool.not_eq_true]
      intro hdown
      rcases hkept.left hdown with hdown | hno | hgone
      · rw [h.connected n hmem] at hdown
        cases hdown
      · rw [hcb] at hno
        cases hno
      · exact herased hgone
    · exact h.connected m hm

end Registries

section Opening

variable {sha256 : List Byte → Hash256} {key : Hash256} {U : Set IpAddr} {w : World}
  {o : Outside} {addr : NetAddr} {manual : Bool}

/-- The node that is registered for a new connection. -/
def opened (o : Outside) (addr : NetAddr) (manual : Bool) (lastNodeId : Nat) : Node :=
  (sendVersion o.env ⟨initializeNode lastNodeId addr false manual o.nonce, []⟩).2.node

theorem opened_identity (o : Outside) (addr : NetAddr) (manual : Bool) (lastNodeId : Nat) :
    identity (opened o addr manual lastNodeId) =
    ⟨lastNodeId, false, addr, manual, true⟩ :=
  (sendVersion_kept o.env ⟨initializeNode lastNodeId addr false manual o.nonce, []⟩).identity

theorem opened_connected (lastNodeId : Nat) :
    (opened o addr manual lastNodeId).isDisconnected = false := by
  have hleaves := Sessions.sendVersion_leaves o.env
    ⟨initializeNode lastNodeId addr false manual o.nonce, []⟩
  have hstate := congrArg Sessions.Session.state hleaves
  rw [Node.isDisconnected, NodeConnection.isDisconnected, opened, beq_eq_false_iff_ne]
  intro hdown
  cases hstate.symm.trans hdown

/-- An address to which a connection may be opened. -/
structure Connectable (o : Outside) (w : World) (addr : NetAddr) : Prop where
  valid : addr.isValid = true
  elsewhere : isLocal o.localAddrs addr = false
  apart : ∀ n ∈ w.outbounds, n.connection.addr.sameEndpoint addr = false
  free : o.isBanned addr = false

/-- A connection is refused, or tried in vain, or opened; then the attempt is in the book. -/
theorem connectNode_cases (h : Sound sha256 key U w.book) (o : Outside) (addr : NetAddr)
    (manual : Bool) :
    connectNode sha256 o addr manual w = .ok (false, w) ∨
      Connectable o w addr ∧ ∃ known book,
        w.book.attempt sha256 addr o.attemptTime = .ok (known, book) ∧ Sound sha256 key U book ∧
        (connectNode sha256 o addr manual w = .ok (false, { w with book }) ∨
          connectNode sha256 o addr manual w = .ok (true, { w with
            book
            lastNodeId := w.lastNodeId + 1
            outbounds := addNode w.outbounds (opened o addr manual w.lastNodeId) })) := by
  obtain ⟨⟨known, book⟩, hattempt, hbook⟩ : ∃ r, w.book.attempt sha256 addr o.attemptTime = .ok r ∧
      Sound sha256 key U r.2 := by
    refine h.updateKnown (fun p => ?_) addr
    rfl
  have hopen (h2 : ¬ (!addr.isValid) = true) (h3 : ¬ isLocal o.localAddrs addr = true)
      (h4 : ¬ (w.outbounds.any (·.connection.addr.sameEndpoint addr)) = true)
      (h5 : ¬ o.isBanned addr = true) : Connectable o w addr :=
    ⟨by simpa using h2, by simpa using h3, by simpa using h4, by simpa using h5⟩
  generalize hrun : connectNode sha256 o addr manual w = run
  rw [connectNode, hattempt] at hrun
  split_ifs at hrun with h1 h2 h3 h4 h5 h6 h7
  · exact .inl hrun.symm
  · exact .inl hrun.symm
  · exact .inl hrun.symm
  · exact .inl hrun.symm
  · exact .inl hrun.symm
  · exact .inl hrun.symm
  · exact .inr ⟨hopen h2 h3 h4 h5, known, book, hattempt, hbook, .inl hrun.symm⟩
  · exact .inr ⟨hopen h2 h3 h4 h5, known, book, hattempt, hbook, .inr hrun.symm⟩

/-- The peer of a slot of the book, which the timer may connect to at this try. -/
structure Candidate (o : Outside) (t : Timeout) (w : World) (tries : Nat) (p : Peers.Peer) :
    Prop where
  slot : ∃ g k, Eligible w.book false g k ∧ w.book.mapPeers.lookup k = some p
  valid : p.addr.isValid = true
  elsewhere : isLocal o.localAddrs p.addr = false
  suits : suits t tries p = true

/-- The loop gives up or connects to a candidate. -/
theorem outboundTries_cases (h : Sound sha256 key U w.book) (o : Outside) (t : Timeout)
    (n tries : Nat) (peer : Peers.Peer) :
    outboundTries sha256 o t w n tries peer = .ok (false, w) ∨
      ∃ last p, last < tries + n ∧ Candidate o t w last p ∧
        outboundTries sha256 o t w n tries peer = connectNode sha256 o p.addr false w := by
  induction n generalizing tries peer with
  | zero => exact .inl rfl
  | succ n ih =>
    rw [outboundTries]
    split_ifs with hstop
    · exact .inl rfl
    obtain ⟨ret, out, hselect, -, -, hfound⟩ :=
      selectInto_total h t.iter (t.coin tries) (t.position tries) (some peer) false
    rw [hselect]
    cases ret with
    | false => exact .inl rfl
    | true =>
      obtain ⟨g, k, p, hslot, hp, rfl⟩ := hfound rfl
      change (if (!p.addr.isValid || isLocal o.localAddrs p.addr) = true then _ else _ :
          Except Fault (Bool × World)) = _ ∨ ∃ last q, _ ∧ _ ∧
        (if (!p.addr.isValid || isLocal o.localAddrs p.addr) = true then _ else _ :
          Except Fault (Bool × World)) = _
      split_ifs with hbad hsuits
      · exact .inl rfl
      · have hgood : p.addr.isValid = true ∧ isLocal o.localAddrs p.addr = false := by
          simpa using hbad
        exact .inr ⟨tries, p, by omega, ⟨⟨g, k, hslot, hp⟩, hgood.1, hgood.2, hsuits⟩, rfl⟩
      · rcases ih (tries + 1) p with hnone | ⟨last, q, hlast, hq, hrun⟩
        · exact .inl hnone
        · exact .inr ⟨last, q, by omega, hq, hrun⟩

theorem outboundTimeOutCb_cases (h : Sound sha256 key U w.book) (o : Outside) (t : Timeout) :
    outboundTimeOutCb sha256 o t w = .ok (false, w) ∨
      w.outbounds.length < kMaxOutboundConnections ∧ ∃ tries p, tries ≤ 100 ∧
        Candidate o t w tries p ∧
        outboundTimeOutCb sha256 o t w = connectNode sha256 o p.addr false w := by
  rw [outboundTimeOutCb]
  split_ifs with h1 h2
  · exact .inl rfl
  · exact .inl rfl
  rcases outboundTries_cases h o t 101 0 {} with hnone | ⟨last, p, hlast, hp, hrun⟩
  · exact .inl hnone
  · exact .inr ⟨Nat.lt_of_not_le h2, last, p, by omega, hp, hrun⟩

end Opening

section Runs

variable {sha256 : List Byte → Hash256} {key : Hash256} {U : Set IpAddr} {given : Bool}
  {w w' : World}

/-- What the nodes of the connector are. -/
def Outgoing (given : Bool) (i : Identity) : Prop :=
  i.isInbound = false ∧ i.manual = given ∧ i.addr.isValid = true ∧ i.disconnectCb = true

def Incoming (i : Identity) : Prop := i.isInbound = true ∧ i.disconnectCb = true

structure WellFormed (sha256 : List Byte → Hash256) (key : Hash256) (U : Set IpAddr)
    (given : Bool) (w : World) : Prop where
  book : AddressBook.Reachable sha256 U key w.book
  outbounds : Registered w.lastNodeId (Outgoing given) w.outbounds
  inbounds : Registered w.lastNodeId Incoming w.inbounds
  apart : ∀ n ∈ w.outbounds, ∀ m ∈ w.inbounds, n.id ≠ m.id
  endpoints : w.outbounds.Pairwise fun n m =>
    n.connection.addr.sameEndpoint m.connection.addr = false
  fewOutbounds : given = false → w.outbounds.length ≤ kMaxOutboundConnections
  fewInbounds : w.inbounds.length ≤ kMaxInboundConnections

theorem settleBook_reachable (hinj : U.InjOn (Book.mapKeyOf sha256 key)) {book : Book}
    (h : AddressBook.Reachable sha256 U key book) (now : I64) (w : Work) :
    ∃ book', settleBook sha256 now w book = .ok book' ∧
      AddressBook.Reachable sha256 U key book' := by
  have hall : ∀ c ∈ w.log.filterMap (callOf w.node.connection.addr now), ∀ s,
      Call.Allowed U s c := by
    intro c hc s
    obtain ⟨e, -, he⟩ := List.mem_filterMap.mp hc
    cases e <;> cases he <;> trivial
  rw [settleBook]
  generalize w.log.filterMap (callOf w.node.connection.addr now) = calls at hall
  induction calls generalizing book with
  | nil => exact ⟨book, rfl, h⟩
  | cons c calls ih =>
    obtain ⟨book₁, hrun, -⟩ := (h.sound hinj).call hinj (hall c List.mem_cons_self book)
    have hone : AddressBook.Reachable sha256 U key book₁ :=
      h.tail ⟨c, hall c List.mem_cons_self book, hrun⟩
    rw [List.foldlM_cons, hrun]
    exact ih hone fun d hd => hall d (List.mem_cons_of_mem c hd)

theorem WellFormed.connectNode (h : WellFormed sha256 key U given w)
    (hinj : U.InjOn (Book.mapKeyOf sha256 key))
    (hroom : given = false → w.outbounds.length < kMaxOutboundConnections) (o : Outside)
    (addr : NetAddr) :
    ∃ r w', connectNode sha256 o addr given w = .ok (r, w') ∧
      WellFormed sha256 key U given w' := by
  rcases connectNode_cases (h.book.sound hinj) o addr given with
    hrun | ⟨hopen, known, book, hattempt, -, hrun⟩
  · exact ⟨false, w, hrun, h⟩
  have hbook : AddressBook.Reachable sha256 U key book := by
    refine h.book.tail ⟨.attempt addr o.attemptTime, trivial, ?_⟩
    change Prod.snd <$> w.book.attempt sha256 addr o.attemptTime = _
    rw [hattempt]
    rfl
  rcases hrun with hrun | hrun
  · exact ⟨false, _, hrun, { h with book := hbook }⟩
  have hid := opened_identity o addr given w.lastNodeId
  have hnode : (opened o addr given w.lastNodeId).id = w.lastNodeId :=
    congrArg Identity.id hid
  have haddr : (opened o addr given w.lastNodeId).connection.addr = addr :=
    congrArg Identity.addr hid
  refine ⟨true, _, hrun, ⟨hbook, h.outbounds.addNode hnode ?_ (opened_connected _),
    h.inbounds.later (Nat.le_succ _), fun n hn m hm => ?_, ?_, fun hauto => ?_, h.fewInbounds⟩⟩
  · rw [hid]
    exact ⟨rfl, rfl, hopen.valid, rfl⟩
  · rcases List.mem_append.mp hn with hn | hn
    · exact h.apart n hn m hm
    · rw [List.mem_singleton.mp hn, hnode]
      exact (Nat.ne_of_lt (h.inbounds.counted m hm)).symm
  · refine List.pairwise_append.mpr ⟨h.endpoints, List.pairwise_singleton _ _, fun n hn m hm => ?_⟩
    rw [List.mem_singleton.mp hm, haddr]
    exact hopen.apart n hn
  · change (w.outbounds ++ [opened o addr given w.lastNodeId]).length ≤ kMaxOutboundConnections
    have hlt := hroom hauto
    rw [List.length_append, List.length_singleton]
    omega

theorem WellFormed.accept (h : WellFormed sha256 key U given w) (o : Outside) (addr : NetAddr) :
    WellFormed sha256 key U given (acceptConnCb o addr w) := by
  rw [acceptConnCb]
  split_ifs with h1 h2 h3
  · exact h
  · exact h
  · exact h
  refine ⟨h.book, h.outbounds.later (Nat.le_succ _), h.inbounds.addNode rfl ⟨rfl, rfl⟩ rfl,
    fun n hn m hm => ?_, h.endpoints, h.fewOutbounds, ?_⟩
  · rcases List.mem_append.mp hm with hm | hm
    · exact h.apart n hn m hm
    · rw [List.mem_singleton.mp hm]
      exact Nat.ne_of_lt (h.outbounds.counted n hn)
  · change (w.inbounds ++ [_]).length ≤ kMaxInboundConnections
    rw [List.length_append, List.length_singleton]
    omega

/-- A node that worked is where it was, or gone. -/
theorem exists_of_mem_settleNode {list : List Node} {n m : Node} {done : Work} (hmem : n ∈ list)
    (hnodup : (list.map Node.id).Nodup) (hsame : identity done.node = identity n)
    (h : m ∈ settleNode list done) : ∃ k ∈ list, identity k = identity m :=
  List.mem_map.mp ((settleNode_identity hmem hnodup hsame).subset (List.mem_map_of_mem h))

theorem WellFormed.outbound (h : WellFormed sha256 key U given w) {n : Node} {done : Work}
    {book : Book} (hbook : AddressBook.Reachable sha256 U key book) (hmem : n ∈ w.outbounds)
    (hkept : Kept ⟨n, []⟩ done) :
    WellFormed sha256 key U given
      { w with book, outbounds := settleNode w.outbounds done } := by
  have hsub := settleNode_identity hmem h.outbounds.ids hkept.identity
  refine ⟨hbook, h.outbounds.settleNode hmem (h.outbounds.kind n hmem).2.2.2 hkept, h.inbounds,
    fun m hm k hk => ?_, ?_, fun hauto => ?_, h.fewInbounds⟩
  · obtain ⟨m', hm', hid⟩ :=
      exists_of_mem_settleNode hmem h.outbounds.ids hkept.identity hm
    have hsame : m'.id = m.id := congrArg Identity.id hid
    exact hsame ▸ h.apart m' hm' k hk
  · have hpairs : (w.outbounds.map identity).Pairwise fun i j =>
        i.addr.sameEndpoint j.addr = false := List.pairwise_map.mpr h.endpoints
    exact List.pairwise_map.mp (hpairs.sublist hsub)
  · have hlength := hsub.length_le
    rw [List.length_map, List.length_map] at hlength
    exact hlength.trans (h.fewOutbounds hauto)

theorem WellFormed.inbound (h : WellFormed sha256 key U given w) {n : Node} {done : Work}
    {book : Book} (hbook : AddressBook.Reachable sha256 U key book) (hmem : n ∈ w.inbounds)
    (hkept : Kept ⟨n, []⟩ done) :
    WellFormed sha256 key U given
      { w with book, inbounds := settleNode w.inbounds done } := by
  have hsub := settleNode_identity hmem h.inbounds.ids hkept.identity
  refine ⟨hbook, h.outbounds, h.inbounds.settleNode hmem (h.inbounds.kind n hmem).2 hkept,
    fun k hk m hm => ?_, h.endpoints, h.fewOutbounds, ?_⟩
  · obtain ⟨m', hm', hid⟩ := exists_of_mem_settleNode hmem h.inbounds.ids hkept.identity hm
    have hsame : m'.id = m.id := congrArg Identity.id hid
    exact hsame ▸ h.apart k hk m' hm'
  · have hlength := hsub.length_le
    rw [List.length_map, List.length_map] at hlength
    exact hlength.trans h.fewInbounds

/-- No step fails, and each leaves the registries and the book in order. -/
theorem WellFormed.step (h : WellFormed sha256 key U given w)
    (hinj : U.InjOn (Book.mapKeyOf sha256 key)) {a : Act} (ha : Allowed U given w a) :
    ∃ w', Connections.step sha256 w a = .ok w' ∧ WellFormed sha256 key U given w' := by
  cases a with
  | outboundTimeOut o t =>
    cases ha
    rcases outboundTimeOutCb_cases (h.book.sound hinj) o t with
      hrun | ⟨hroom, tries, p, -, -, hrun⟩
    · exact ⟨w, by rw [Connections.step, hrun]; rfl, h⟩
    · obtain ⟨r, w', hconnect, hw'⟩ := h.connectNode hinj (fun _ => hroom) o p.addr
      exact ⟨w', by rw [Connections.step, hrun, hconnect]; rfl, hw'⟩
  | connect o addr =>
    cases ha
    obtain ⟨r, w', hconnect, hw'⟩ := h.connectNode hinj (fun h => nomatch h) o addr
    exact ⟨w', by rw [Connections.step, hconnect]; rfl, hw'⟩
  | accept o addr => exact ⟨_, rfl, h.accept o addr⟩
  | outbound worker act now =>
    rw [Connections.step]
    cases hwork : work worker act with
    | none => exact ⟨w, rfl, h⟩
    | some done =>
      obtain ⟨book, hrun, hbook⟩ := settleBook_reachable hinj h.book now done
      refine ⟨_, ?_, h.outbound hbook ha (work_kept hwork)⟩
      dsimp only
      rw [hrun]
      rfl
  | inbound worker act now =>
    rw [Connections.step]
    cases hwork : work worker act with
    | none => exact ⟨w, rfl, h⟩
    | some done =>
      obtain ⟨book, hrun, hbook⟩ := settleBook_reachable hinj h.book now done
      refine ⟨_, ?_, h.inbound hbook ha (work_kept hwork)⟩
      dsimp only
      rw [hrun]
      rfl
  | book c =>
    obtain ⟨book, hrun, -⟩ := (h.book.sound hinj).call hinj ha
    refine ⟨{ w with book }, ?_, { h with book := h.book.tail ⟨c, ha, hrun⟩ }⟩
    rw [Connections.step, hrun]
    rfl

theorem wellFormed_of_reachable (hinj : U.InjOn (Book.mapKeyOf sha256 key))
    (h : Reachable sha256 U given key w) : WellFormed sha256 key U given w := by
  refine Run.preserves (P := WellFormed sha256 key U given) ?_ h ?_
  · intro s a s' hs ha hnext
    obtain ⟨s₁, hrun, hs₁⟩ := hs.step hinj ha
    cases hrun.symm.trans hnext
    exact hs₁
  · have hnew : ∀ P, Registered 0 P [] := fun P => ⟨List.nodup_nil, by simp, by simp, by simp⟩
    exact ⟨.refl, hnew _, hnew _, by simp, List.Pairwise.nil, by simp, by simp⟩

/-- In any run from a new book and empty registries, every node has a number of its own, is
connected, and is in the registry of its direction; no two connections that were opened go to the
same endpoint; there are no more of them than the limits allow. And whatever comes next, no call
on the book fails. -/
theorem registries_wellFormed (hinj : U.InjOn (Book.mapKeyOf sha256 key))
    (h : Reachable sha256 U given key w) :
    WellFormed sha256 key U given w ∧
      (given = false → w.outbounds.length + w.inbounds.length ≤ kMaxPeerConnections) ∧
      ∀ a, Allowed U given w a → ∃ w', step sha256 w a = .ok w' := by
  have hw := wellFormed_of_reachable hinj h
  refine ⟨hw, fun hauto => ?_, fun a ha => ?_⟩
  · have hout := hw.fewOutbounds hauto
    have hin := hw.fewInbounds
    have hall : kMaxPeerConnections = kMaxOutboundConnections + kMaxInboundConnections := rfl
    omega
  · obtain ⟨w', hrun, -⟩ := hw.step hinj ha
    exact ⟨w', hrun⟩

/-- A peer that serves what is wanted. -/
def server : NetAddr := { resolver with services := kDesirableServiceFlags }

def serverWorld : World where
  book := (fresh (Bytes.zero 32)).addNewPeer resolverKey resolverGroup true server server

theorem serverWorld_reachable :
    Reachable resolverSha256 {resolver.ip} false (Bytes.zero 32) serverWorld := by
  refine Run.single (a := .book (.add server server 0 1700000000 1700000000)) rfl ?_
  rfl

def serverOutside : Outside where
  env := .alone default
  nonce := 7
  attemptTime := 1700000100

def heads : Distribution := ⟨fun _ => 0, fun _ => Nat.zero_le _⟩

def serverTimeout : Timeout where
  now := 1700000090
  defaultPort := 8333
  iter := ⟨fun tbl => tbl.entries, fun _ => List.Perm.refl _⟩
  coin := fun _ => heads
  position := fun _ => heads

/-- Someone who connects. -/
def visitor : Outside where
  env := .alone default
  nonce := 8
  attemptTime := 1700000000

/-- The timer connects to the server, and then someone connects from there. -/
theorem registries_wellFormed_visited : ∃ w,
    Reachable resolverSha256 {resolver.ip} false (Bytes.zero 32) w ∧
      w.outbounds.length = 1 ∧ w.inbounds.length = 1 ∧
      WellFormed resolverSha256 (Bytes.zero 32) {resolver.ip} false w ∧
      ∃ w', step resolverSha256 w (.accept visitor resolver) = .ok w' := by
  obtain ⟨w, hrun, hout, hin⟩ : ∃ w, step resolverSha256 serverWorld
      (.outboundTimeOut serverOutside serverTimeout) = .ok w ∧
        w.outbounds.length = 1 ∧ w.inbounds = [] := ⟨_, rfl, rfl, rfl⟩
  have hdialled := serverWorld_reachable.tail
    ⟨.outboundTimeOut serverOutside serverTimeout, rfl, hrun⟩
  have hvisited := hdialled.tail ⟨.accept visitor resolver, trivial, rfl⟩
  obtain ⟨hw, -, hstep⟩ := registries_wellFormed (Set.injOn_singleton _ _) hvisited
  have hroom : kMaxInboundConnections ≠ 0 := by decide
  refine ⟨_, hvisited, ?_, ?_, hw, hstep _ trivial⟩
  · simpa [acceptConnCb, visitor, hin, hroom] using hout
  · simp [acceptConnCb, visitor, hin, hroom, addNode]

end Runs

section Timer

variable {sha256 : List Byte → Hash256} {key : Hash256} {U : Set IpAddr} {given : Bool}
  {w : World}

/-- The book with an attempt on a peer noted. -/
def noted (sha256 : List Byte → Hash256) (book : Book) (p : Peers.Peer) (time : I64) : Book :=
  book.setMapPeers (book.mapPeers.insert (Book.mapKeyOf sha256 book.key p.addr.ip)
    { p with lastTry := time, attempts := p.attempts + 1 })

theorem attempt_eq_noted {book : Book} (hsound : Sound sha256 key U book) {k : U64}
    {p : Peers.Peer} (hlookup : book.mapPeers.lookup k = some p) (time : I64) :
    book.attempt sha256 p.addr time = .ok (true, noted sha256 book p time) := by
  have hsame : (!p.addr.sameEndpoint p.addr) = false := by simp [NetAddr.sameEndpoint]
  have hp : book.mapPeers.lookup (Book.mapKeyOf sha256 book.key p.addr.ip) = some p := by
    rw [hsound.key_eq, (hsound.keyed k p hlookup).2]
    exact hlookup
  rw [Book.attempt, Book.updateKnown]
  simp only [Book.makeMapKey_false, Book.makeMapKey_true, Book.find, hp, Option.map_some, hsame]
  rw [BookEdits.updatePeer_run hp]
  rfl

/-- The first peer that `Select` comes upon is good enough. -/
theorem outboundTimeOutCb_of_first {o : Outside} {t : Timeout} {p : Peers.Peer}
    (hvalid : t.isValid = true) (hroom : w.outbounds.length < kMaxOutboundConnections)
    (hgoes : t.interrupted 0 = false)
    (hselect : selectInto w.book t.iter (t.coin 0) (t.position 0) (some {}) false =
      .ok (true, some p, w.book))
    (hp : Candidate o t w 0 p) :
    outboundTimeOutCb sha256 o t w = connectNode sha256 o p.addr false w := by
  rw [outboundTimeOutCb, if_neg (by simp [hvalid]), if_neg (Nat.not_le_of_lt hroom), outboundTries,
    if_neg (by simp [hgoes]), hselect]
  change (if (!p.addr.isValid || isLocal o.localAddrs p.addr) = true then _ else _ :
    Except Fault (Bool × World)) = _
  rw [if_neg (by simp [hp.valid, hp.elsewhere]), if_pos hp.suits]

/-- A socket for every connection that may be opened. -/
theorem connectNode_of_connectable {o : Outside} {addr : NetAddr} {manual known : Bool}
    {book : Book} (hbase : o.hasBase = true) (hsocket : o.hasSocket = true)
    (hconnects : o.connects = true)
    (hopen : Connectable o w addr)
    (hattempt : w.book.attempt sha256 addr o.attemptTime = .ok (known, book)) :
    connectNode sha256 o addr manual w = .ok (true, { w with
      book
      lastNodeId := w.lastNodeId + 1
      outbounds := addNode w.outbounds (opened o addr manual w.lastNodeId) }) := by
  have hapart : ¬ (w.outbounds.any (·.connection.addr.sameEndpoint addr)) = true := by
    simpa using hopen.apart
  rw [connectNode, if_neg (by simp [hbase]), if_neg (by simp [hopen.valid]),
    if_neg (by simp [hopen.elsewhere]), if_neg hapart, if_neg (by simp [hopen.free]),
    if_neg (by simp [hsocket]), hattempt]
  change (if (!o.connects) = true then _ else _ : Except Fault (Bool × World)) = _
  rw [if_neg (by simp [hconnects])]
  rfl

/-- A peer of a slot is connected to for some draws, if it is good enough at first. -/
theorem exists_outboundTimeOutCb (hsound : Sound sha256 key U w.book) {o : Outside} {t : Timeout}
    {g k : U64} {p : Peers.Peer} (hvalid : t.isValid = true) (hgoes : t.interrupted 0 = false)
    (hbase : o.hasBase = true) (hsocket : o.hasSocket = true) (hconnects : o.connects = true)
    (hroom : w.outbounds.length < kMaxOutboundConnections)
    (hslot : Eligible w.book false g k) (hp : w.book.mapPeers.lookup k = some p)
    (hsuits : suits t 0 p = true) (hopen : Connectable o w p.addr) :
    ∃ coin position, outboundTimeOutCb sha256 o { t with coin, position } w =
      .ok (true, { w with
        book := noted sha256 w.book p o.attemptTime
        lastNodeId := w.lastNodeId + 1
        outbounds := w.outbounds ++ [opened o p.addr false w.lastNodeId] }) := by
  obtain ⟨coin, position, q, hq, -, hselect⟩ := exists_selectInto hsound t.iter {} hslot
  cases hq.symm.trans hp
  refine ⟨fun _ => coin, fun _ => position, ?_⟩
  have hcandidate : Candidate o { t with coin := fun _ => coin, position := fun _ => position } w
      0 p := ⟨⟨g, k, hslot, hp⟩, hopen.valid, hopen.elsewhere, hsuits⟩
  rw [outboundTimeOutCb_of_first (t := { t with
    coin := fun _ => coin, position := fun _ => position }) hvalid hroom hgoes hselect hcandidate]
  exact connectNode_of_connectable hbase hsocket hconnects hopen
    (attempt_eq_noted hsound hp o.attemptTime)

/-- Whatever `Select` draws, the timer leaves everything as it is, or notes in the book that it
tried a routable peer of a slot, which is good enough for the tries it took, and opens at most that
connection. And each peer of a slot that is good enough at first and may be connected to is
connected to for some draws. -/
theorem outboundTimeOutCb_exact (hinj : U.InjOn (Book.mapKeyOf sha256 key))
    (h : Reachable sha256 U given key w) (o : Outside) (t : Timeout) :
    (∃ r w', outboundTimeOutCb sha256 o t w = .ok (r, w') ∧
      ((r = false ∧ w' = w) ∨
        w.outbounds.length < kMaxOutboundConnections ∧ ∃ tries p, tries ≤ 100 ∧
          Candidate o t w tries p ∧ p.addr.isRoutable = true ∧ Connectable o w p.addr ∧
          w' = { w with
            book := noted sha256 w.book p o.attemptTime
            lastNodeId := if r then w.lastNodeId + 1 else w.lastNodeId
            outbounds := if r then w.outbounds ++ [opened o p.addr false w.lastNodeId]
              else w.outbounds })) ∧
    (t.isValid = true → t.interrupted 0 = false → o.hasBase = true → o.hasSocket = true →
      o.connects = true → w.outbounds.length < kMaxOutboundConnections →
      ∀ g k p, Eligible w.book false g k → w.book.mapPeers.lookup k = some p →
        suits t 0 p = true → Connectable o w p.addr →
        ∃ coin position, outboundTimeOutCb sha256 o { t with coin, position } w =
          .ok (true, { w with
            book := noted sha256 w.book p o.attemptTime
            lastNodeId := w.lastNodeId + 1
            outbounds := w.outbounds ++ [opened o p.addr false w.lastNodeId] })) := by
  have hw := (wellFormed_of_reachable hinj h).book
  have hsound := hw.sound hinj
  refine ⟨?_, fun hvalid hgoes hbase hsocket hconnects hroom g k p hslot hp hsuits hopen => ?_⟩
  · rcases outboundTimeOutCb_cases hsound o t with hrun | ⟨hroom, tries, p, htries, hp, hrun⟩
    · exact ⟨false, w, hrun, .inl ⟨rfl, rfl⟩⟩
    obtain ⟨g, k, hslot, hlookup⟩ := hp.slot
    have hroutable := (BookEdits.kept_of_reachable hw).routable k p hlookup
    have hattempt := attempt_eq_noted hsound hlookup o.attemptTime
    rw [hrun]
    rcases connectNode_cases hsound o p.addr false with
      hno | ⟨hopen, known, book, hbook, -, hyes | hyes⟩
    · exact ⟨false, w, hno, .inl ⟨rfl, rfl⟩⟩
    · cases hattempt.symm.trans hbook
      exact ⟨false, _, hyes, .inr ⟨hroom, tries, p, htries, hp, hroutable, hopen, rfl⟩⟩
    · cases hattempt.symm.trans hbook
      exact ⟨true, _, hyes, .inr ⟨hroom, tries, p, htries, hp, hroutable, hopen, rfl⟩⟩
  · exact exists_outboundTimeOutCb hsound hvalid hgoes hbase hsocket hconnects hroom hslot hp hsuits
      hopen

theorem server_connectable : Connectable serverOutside serverWorld server where
  valid := by decide
  elsewhere := rfl
  apart := by simp [serverWorld]
  free := rfl

theorem outboundTimeOutCb_exact_server : ∃ coin position w',
    outboundTimeOutCb resolverSha256 serverOutside { serverTimeout with coin, position }
      serverWorld = .ok (true, w') ∧ w'.outbounds.length = 1 := by
  obtain ⟨coin, position, hrun⟩ :=
    (outboundTimeOutCb_exact (Set.injOn_singleton _ _) serverWorld_reachable serverOutside
      serverTimeout).2 rfl rfl rfl rfl rfl (by decide) resolverGroup resolverKey
      { addr := server, source := server } (.inl rfl) rfl (by decide) server_connectable
  exact ⟨coin, position, _, hrun, rfl⟩

end Timer

end Connections
