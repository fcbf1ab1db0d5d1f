import Btclite.Library.Runs
import Btclite.Network.Framing
import Mathlib.Logic.Function.Basic

/-!
# Read tasks

Every read of a connection queues a `ParseMsg` task, and the pool has several
threads. The tasks share the input buffer without a lock, so each pullup, drain
and call of `ParseMsgData` is a step that others come between. Messages keep
their order as long as no task takes a header while another is at a message.
-/

namespace Tasks

open Endian Serialize Messages Nodes MsgProcess Framing Runs

/-- Where a task is in `ParseMsg`, with the local values it holds there. -/
inductive Phase where
  | queued
  | pulledHeader (raw : List Byte)
  | drainedHeader (header : MessageHeader)
  | pulledPayload (header : MessageHeader) (payload : List Byte)
  | handled (header : MessageHeader)
  | drainedPayload
  | finished (outcome : Except Failure Bool)

namespace Phase

/-- Between the pullup of a header and the drain of its payload. -/
def AtMessage : Phase → Prop
  | pulledHeader _ | drainedHeader _ | pulledPayload _ _ | handled _ => True
  | queued | drainedPayload | finished _ => False

/-- In the loop, or about to look for the next header. -/
def Looping : Phase → Prop
  | queued | finished _ => False
  | _ => True

def isFinished : Phase → Bool
  | finished _ => true
  | _ => false

end Phase

structure Task where
  ret : Bool := true
  phase : Phase := .queued

/-- The pullup of a header, on which the loop goes on or ends. -/
def pullHeader (ret : Bool) (otherwise : Bool) (p : Peer) : Task :=
  match evbufferPullup p.input MessageHeader.kSize with
  | none => { ret, phase := .finished (.ok otherwise) }
  | some raw => { ret, phase := .pulledHeader raw }

/-- One atomic step of a task, with what it computes from it. -/
def Task.step (env : Env) (t : Task) (p : Peer) : Task × Peer :=
  match t.phase with
  | .queued =>
    if !p.work.node.connection.bev then ({ t with phase := .finished (.ok false) }, p)
    else if p.work.node.isDisconnected then ({ t with phase := .finished (.ok false) }, p)
    else (pullHeader t.ret false p, p)
  | .pulledHeader raw =>
    let header := headerOfRaw env.memory raw
    let input := evbufferDrain p.input MessageHeader.kSize
    if kMaxMessageSize < header.payloadLength then
      ({ t with phase := .finished (.ok false) }, ⟨(disconnect env p.work).2, input⟩)
    else if header.magic ≠ env.msgMagic then
      ({ t with phase := .finished (.ok false) }, ⟨(disconnect env p.work).2, input⟩)
    else ({ t with phase := .drainedHeader header }, ⟨p.work, input⟩)
  | .drainedHeader header =>
    match (if 0 < header.payloadLength then evbufferPullup p.input header.payloadLength.toNat
      else some []) with
    | none => ({ t with phase := .finished (.ok false) }, p)
    | some payload => ({ t with phase := .pulledPayload header payload }, p)
  | .pulledPayload header payload =>
    match parseMsgData env header payload p.work with
    | (.ok r, work) => (⟨t.ret && r, .handled header⟩, ⟨work, p.input⟩)
    | (.error failure, work) => ({ t with phase := .finished (.error failure) }, ⟨work, p.input⟩)
  | .handled header =>
    ({ t with phase := .drainedPayload },
      ⟨p.work, evbufferDrain p.input header.payloadLength.toNat⟩)
  | .drainedPayload => (pullHeader t.ret t.ret p, p)
  | .finished _ => (t, p)

/-- A peer and the tasks that were queued for it. -/
structure State (n : Nat) where
  peer : Peer
  tasks : Fin n → Task

/-- The next step of one of the tasks. -/
structure Act (n : Nat) where
  task : Fin n
  env : Env

variable {n : Nat}

namespace State

/-- What a step of a task leaves of it and of the peer. -/
def put (s : State n) (i : Fin n) (left : Task × Peer) : State n :=
  ⟨left.2, Function.update s.tasks i left.1⟩

variable {s : State n} {i j : Fin n} {left : Task × Peer}

@[simp] theorem put_peer : (s.put i left).peer = left.2 := rfl

@[simp] theorem put_same : (s.put i left).tasks i = left.1 := Function.update_self _ _ _

theorem put_ne (h : j ≠ i) : (s.put i left).tasks j = s.tasks j := Function.update_of_ne h _ _

end State

def Next (s : State n) (a : Act n) (s' : State n) : Prop :=
  (s.tasks a.task).phase.isFinished = false ∧
    s' = s.put a.task ((s.tasks a.task).step a.env s.peer)

/-- Tasks that were queued after all of the stream had arrived. -/
def start (n : Nat) (work : Work) (ms : List WireMessage) : State n :=
  ⟨⟨work, wire ms⟩, fun _ => {}⟩

/-- The next step pulls up a header that is there. -/
def TakesHeader (t : Task) (p : Peer) : Prop :=
  match t.phase with
  | .queued => p.work.node.isDisconnected = false ∧ MessageHeader.kSize ≤ p.input.length
  | .drainedPayload => MessageHeader.kSize ≤ p.input.length
  | _ => False

/-- The next step hands a payload to a decoder that raises. -/
def Raises (env : Env) (t : Task) (p : Peer) : Prop :=
  match t.phase with
  | .pulledPayload header payload =>
    ∃ failure s, decoded env header payload p.work.node = some (.error failure s)
  | _ => False

/-- No header is taken while another task is at a message, and no payload raises. -/
def Orderly (magic : U32) (s : State n) (a : Act n) : Prop :=
  a.env.msgMagic = magic ∧
    (TakesHeader (s.tasks a.task) s.peer →
      ∀ j, j ≠ a.task → ¬ (s.tasks j).phase.AtMessage) ∧
    ¬ Raises a.env (s.tasks a.task) s.peer

section Alone

/-- The four steps of a task at a message, with nothing in between, are a pass. -/
theorem steps_parseMsgPass (env : Env) (ret : Bool) (raw : List Byte) (p : Peer) :
    let t₁ := Task.step env ⟨ret, .pulledHeader raw⟩ p
    let t₂ := Task.step env t₁.1 t₁.2
    let t₃ := Task.step env t₂.1 t₂.2
    let t₄ := Task.step env t₃.1 t₃.2
    t₄.2 = (parseMsgPass env raw p).2 ∧
      t₄.1 = match (parseMsgPass env raw p).1 with
        | .parsed r => ⟨ret && r, .drainedPayload⟩
        | .returned => ⟨ret, .finished (.ok false)⟩
        | .raised failure => ⟨ret, .finished (.error failure)⟩ := by
  intro t₁ t₂ t₃ t₄
  rw [parseMsgPass]
  by_cases h1 : kMaxMessageSize < (headerOfRaw env.memory raw).payloadLength
  · simp [t₁, t₂, t₃, t₄, Task.step, rejectMsg, h1]
  by_cases h2 : (headerOfRaw env.memory raw).magic ≠ env.msgMagic
  · simp [t₁, t₂, t₃, t₄, Task.step, rejectMsg, h1, h2]
  have e₁ : t₁ = (⟨ret, .drainedHeader (headerOfRaw env.memory raw)⟩,
      ⟨p.work, evbufferDrain p.input MessageHeader.kSize⟩) := by
    simp only [t₁, Task.step, if_neg h1, if_neg h2]
  simp only [if_neg h1, if_neg h2, pullup_payload]
  cases hpull : evbufferPullup (evbufferDrain p.input MessageHeader.kSize)
      (headerOfRaw env.memory raw).payloadLength.toNat with
  | none =>
    have e₂ : t₂ = (⟨ret, .finished (.ok false)⟩, t₁.2) := by
      simp only [t₂, e₁, Task.step, (pullup_payload _ _).trans hpull]
    simp only [t₄, t₃, e₂, e₁, Task.step, and_self]
  | some payload =>
    have e₂ : t₂ = (⟨ret, .pulledPayload (headerOfRaw env.memory raw) payload⟩, t₁.2) := by
      simp only [t₂, e₁, Task.step, (pullup_payload _ _).trans hpull]
    rcases hdata : parseMsgData env (headerOfRaw env.memory raw) payload p.work with ⟨_ | r, w'⟩
    · simp only [t₄, t₃, e₂, e₁, Task.step, hdata, and_self]
    · simp only [t₄, t₃, e₂, e₁, Task.step, hdata, and_self]

end Alone

section Streams

variable {ms : List WireMessage} {before : List (MessageHeader × List Byte)} {s : State n}

/-- The buffer starts with a message, or is empty, and those in front of it are dispatched. -/
def Between (ms : List WireMessage) (before : List (MessageHeader × List Byte)) (p : Peer) :
    Prop :=
  ∃ done rest, ms = done ++ rest ∧ p.input = wire rest ∧
    dispatches p.work.log = before ++ pairs done

/-- A task that is at a message holds its parts, and what it has not drained is there. -/
def During (ms : List WireMessage) (before : List (MessageHeader × List Byte)) (p : Peer)
    (phase : Phase) : Prop :=
  ∃ done m rest, ms = done ++ m :: rest ∧
    match phase with
    | .pulledHeader raw => raw = m.header.serialize ∧ p.input = m.wire ++ wire rest ∧
        dispatches p.work.log = before ++ pairs done
    | .drainedHeader header => header = m.header ∧ p.input = m.payload ++ wire rest ∧
        dispatches p.work.log = before ++ pairs done
    | .pulledPayload header payload => header = m.header ∧ payload = m.payload ∧
        p.input = m.payload ++ wire rest ∧ dispatches p.work.log = before ++ pairs done
    | .handled header => header = m.header ∧ p.input = m.payload ++ wire rest ∧
        dispatches p.work.log = before ++ pairs (done ++ [m])
    | _ => False

/-- One task at most is at a message. Until the buffer holds no header any more, some task
is still to look for one. -/
structure InOrder (ms : List WireMessage) (before : List (MessageHeader × List Byte))
    (s : State n) : Prop where
  bev : s.peer.work.node.connection.bev = true
  current : ∃ cur : Option (Fin n), (∀ j, (s.tasks j).phase.AtMessage ↔ cur = some j) ∧
    match cur with
    | none => Between ms before s.peer
    | some i => During ms before s.peer (s.tasks i).phase
  looking : (∃ i, (s.tasks i).phase.Looping) ∨
    ((∀ i, (s.tasks i).phase = .queued) ∧ s.peer.work.node.isDisconnected = false) ∨
    s.peer.input.length < MessageHeader.kSize

theorem Phase.AtMessage.looping {phase : Phase} (h : phase.AtMessage) : phase.Looping := by
  cases phase <;> trivial

theorem inOrder_start {work : Work} (hbev : work.node.connection.bev = true)
    (hup : work.node.isDisconnected = false) :
    InOrder ms (dispatches work.log) (start n work ms) where
  bev := hbev
  current := by
    refine ⟨none, fun j => iff_of_false (fun h => h) (by simp), [], ms, rfl, rfl, ?_⟩
    exact (List.append_nil _).symm
  looking := Or.inr (Or.inl ⟨fun _ => rfl, hup⟩)

/-- A task that was at no message ends. -/
theorem InOrder.finish (h : InOrder ms before s) {i : Fin n} {t : Task}
    (hi : ¬ (s.tasks i).phase.AtMessage) (ht : ¬ t.phase.AtMessage)
    (hlooking : (∃ j, j ≠ i ∧ (s.tasks j).phase.Looping) ∨
      s.peer.input.length < MessageHeader.kSize) :
    InOrder ms before (s.put i (t, s.peer)) := by
  obtain ⟨hbev, ⟨cur, hcur, hat⟩, -⟩ := h
  refine ⟨hbev, ⟨cur, fun j => ?_, ?_⟩, ?_⟩
  · rw [← hcur j]
    by_cases hj : j = i
    · subst hj
      rw [State.put_same]
      exact iff_of_false ht hi
    · rw [State.put_ne hj]
  · cases cur with
    | none => exact hat
    | some k =>
      have hk : k ≠ i := by
        rintro rfl
        exact hi ((hcur k).mpr rfl)
      simp only [State.put_ne hk]
      exact hat
  · rcases hlooking with ⟨j, hj, hlooping⟩ | hshort
    · exact Or.inl ⟨j, by rwa [State.put_ne hj]⟩
    · exact Or.inr (Or.inr hshort)

/-- A task takes the header of the next message, and no other is at one. -/
theorem InOrder.enter (h : InOrder ms before s) {i : Fin n} {ret : Bool} {raw : List Byte}
    (hothers : ∀ j, ¬ (s.tasks j).phase.AtMessage)
    (hpull : evbufferPullup s.peer.input MessageHeader.kSize = some raw) :
    InOrder ms before (s.put i (⟨ret, .pulledHeader raw⟩, s.peer)) := by
  obtain ⟨hbev, ⟨cur, hcur, hat⟩, -⟩ := h
  have hnone : cur = none := by
    cases cur with
    | none => rfl
    | some k => exact absurd ((hcur k).mpr rfl) (hothers k)
  subst hnone
  obtain ⟨done, rest, hms, hinput, hlog⟩ := hat
  rcases evbufferPullup_eq_some.mp hpull with ⟨hlen, hraw⟩
  refine ⟨hbev, ⟨some i, fun j => ?_, ?_⟩, Or.inl ⟨i, ?_⟩⟩
  · by_cases hj : j = i
    · subst hj
      rw [State.put_same]
      exact iff_of_true trivial rfl
    · rw [State.put_ne hj]
      exact iff_of_false (hothers j) fun h => hj (Option.some.inj h).symm
  · simp only [State.put_same]
    cases rest with
    | nil =>
      rw [hinput] at hlen
      exact absurd hlen (by decide)
    | cons m rest =>
      have hwire : s.peer.input = m.wire ++ wire rest := by
        rw [hinput, wire, List.flatMap_cons, ← wire]
      refine ⟨done, m, rest, hms, ?_, hwire, hlog⟩
      rw [hraw, hwire, WireMessage.wire, List.append_assoc, ← header_length m.header,
        List.take_left]
  · rw [State.put_same]
    trivial

/-- A task goes on with the message it is at. -/
theorem InOrder.stay (h : InOrder ms before s) {i : Fin n} {t : Task} {p : Peer}
    (hi : (s.tasks i).phase.AtMessage) (ht : t.phase.AtMessage)
    (hbev : p.work.node.connection.bev = s.peer.work.node.connection.bev)
    (hduring : During ms before s.peer (s.tasks i).phase → During ms before p t.phase) :
    InOrder ms before (s.put i (t, p)) := by
  obtain ⟨hbev', ⟨cur, hcur, hat⟩, -⟩ := h
  have hsome : cur = some i := (hcur i).mp hi
  subst hsome
  refine ⟨hbev.trans hbev', ⟨some i, fun j => ?_, ?_⟩, Or.inl ⟨i, ?_⟩⟩
  · by_cases hj : j = i
    · subst hj
      rw [State.put_same]
      exact iff_of_true ht rfl
    · rw [State.put_ne hj]
      exact hcur j
  · simp only [State.put_same]
    exact hduring hat
  · rw [State.put_same]
    exact ht.looping

/-- A task drains the payload of its message. -/
theorem InOrder.leave (h : InOrder ms before s) {i : Fin n} {ret : Bool} {header : MessageHeader}
    (hi : (s.tasks i).phase = .handled header) :
    InOrder ms before (s.put i (⟨ret, .drainedPayload⟩,
      ⟨s.peer.work, evbufferDrain s.peer.input header.payloadLength.toNat⟩)) := by
  obtain ⟨hbev, ⟨cur, hcur, hat⟩, -⟩ := h
  have hsome : cur = some i := (hcur i).mp (by rw [hi]; trivial)
  subst hsome
  refine ⟨hbev, ⟨none, fun j => ?_, ?_⟩, Or.inl ⟨i, ?_⟩⟩
  · by_cases hj : j = i
    · subst hj
      rw [State.put_same]
      exact iff_of_false (fun h => h) (by simp)
    · rw [State.put_ne hj, hcur j]
      exact iff_of_false (fun h => hj (Option.some.inj h).symm) (by simp)
  · simp only [hi] at hat
    obtain ⟨done, m, rest, hms, rfl, hinput, hlog⟩ := hat
    refine ⟨done ++ [m], rest, by simp [hms], ?_, hlog⟩
    rw [State.put_peer, evbufferDrain, hinput, ← m.payload_length, List.drop_left]
  · rw [State.put_same]
    trivial

theorem InOrder.during (h : InOrder ms before s) {i : Fin n}
    (hi : (s.tasks i).phase.AtMessage) : During ms before s.peer (s.tasks i).phase := by
  obtain ⟨-, ⟨cur, hcur, hat⟩, -⟩ := h
  have hsome : cur = some i := (hcur i).mp hi
  subst hsome
  exact hat

/-- The task looks for a header: it takes the next one, or ends if there is none. -/
theorem InOrder.pullHeader (h : InOrder ms before s) {i : Fin n} {ret otherwise : Bool}
    (hi : ¬ (s.tasks i).phase.AtMessage)
    (hothers : MessageHeader.kSize ≤ s.peer.input.length →
      ∀ j, j ≠ i → ¬ (s.tasks j).phase.AtMessage) :
    InOrder ms before (s.put i (pullHeader ret otherwise s.peer, s.peer)) := by
  rw [Tasks.pullHeader]
  cases hpull : evbufferPullup s.peer.input MessageHeader.kSize with
  | none =>
    have hshort := evbufferPullup_eq_none.mp hpull
    exact h.finish hi (fun h => h) (Or.inr hshort)
  | some raw =>
    refine h.enter (fun j => ?_) hpull
    by_cases hj : j = i
    · rwa [hj]
    · exact hothers (evbufferPullup_eq_some.mp hpull).1 j hj

theorem parseMsgData_ok {env : Env} {header : MessageHeader} {raw : List Byte} {w : Work}
    (h : ¬ ∃ failure source, decoded env header raw w.node = some (.error failure source)) :
    ∃ ret w', parseMsgData env header raw w = (.ok ret, w') := by
  obtain ⟨w₁, -, -, ⟨-, hrun⟩ | ⟨failure, source, hd, -⟩ | ⟨m, source, -, hrun⟩⟩ :=
    parseMsgData_cases env header raw w
  · exact ⟨_, _, hrun⟩
  · exact absurd ⟨failure, source, hd⟩ h
  · exact ⟨_, _, hrun⟩

variable {magic : U32} (hwf : ∀ m ∈ ms, m.WellFormed magic)
include hwf

theorem InOrder.step (h : InOrder ms before s) {a : Act n} {s' : State n}
    (hD : Orderly magic s a) (hnext : Next s a s') : InOrder ms before s' := by
  obtain ⟨hlive, rfl⟩ := hnext
  obtain ⟨hmagic, hothers, hraises⟩ := hD
  have hin : ∀ {done m rest}, ms = done ++ m :: rest → m.WellFormed a.env.msgMagic := by
    rintro done m rest rfl
    rw [hmagic]
    exact hwf m (List.mem_append_right _ List.mem_cons_self)
  cases hphase : (s.tasks a.task).phase with
  | queued =>
    have hi : ¬ (s.tasks a.task).phase.AtMessage := by rw [hphase]; exact fun h => h
    rw [Task.step, hphase]
    simp only [h.bev, Bool.not_true, Bool.false_eq_true, if_false]
    by_cases hdown : s.peer.work.node.isDisconnected = true
    · rw [if_pos hdown]
      refine h.finish hi (fun h => h) ?_
      rcases h.looking with ⟨j, hj⟩ | ⟨-, hup⟩ | hshort
      · refine Or.inl ⟨j, ?_, hj⟩
        rintro rfl
        rw [hphase] at hj
        exact hj
      · rw [hdown] at hup
        cases hup
      · exact Or.inr hshort
    · rw [if_neg hdown]
      refine h.pullHeader hi fun hlen => hothers ?_
      rw [TakesHeader, hphase]
      exact ⟨by simpa using hdown, hlen⟩
  | pulledHeader raw =>
    have hi : (s.tasks a.task).phase.AtMessage := by rw [hphase]; trivial
    have hduring := h.during hi
    rw [hphase] at hduring
    obtain ⟨done, m, rest, hms, rfl, hinput, hlog⟩ := hduring
    obtain ⟨hm, hsize⟩ := hin hms
    rw [Task.step, hphase]
    simp only [headerOfRaw_serialize, if_neg (BitVec.not_lt.mpr hsize), if_neg (not_not.mpr hm)]
    refine h.stay hi trivial rfl fun _ => ⟨done, m, rest, hms, rfl, ?_, hlog⟩
    rw [evbufferDrain, hinput, WireMessage.wire, List.append_assoc, ← header_length m.header,
      List.drop_left]
  | drainedHeader header =>
    have hi : (s.tasks a.task).phase.AtMessage := by rw [hphase]; trivial
    have hduring := h.during hi
    rw [hphase] at hduring
    obtain ⟨done, m, rest, hms, rfl, hinput, hlog⟩ := hduring
    have hpull := evbufferPullup_append m.payload_length (wire rest)
    rw [← hinput] at hpull
    rw [Task.step, hphase]
    simp only [(pullup_payload _ _).trans hpull]
    exact h.stay hi trivial rfl fun _ => ⟨done, m, rest, hms, rfl, rfl, hinput, hlog⟩
  | pulledPayload header payload =>
    have hi : (s.tasks a.task).phase.AtMessage := by rw [hphase]; trivial
    have hduring := h.during hi
    rw [hphase] at hduring
    obtain ⟨done, m, rest, hms, rfl, rfl, hinput, hlog⟩ := hduring
    have hokay : ¬ ∃ failure source,
        decoded a.env m.header m.payload s.peer.work.node = some (.error failure source) := by
      simpa only [Raises, hphase] using hraises
    obtain ⟨r, w', hrun⟩ := parseMsgData_ok hokay
    have hbev := parseMsgData_frame a.env m.header m.payload s.peer.work
    have hdispatches := parseMsgData_dispatches a.env m.header m.payload s.peer.work
    rw [hrun] at hbev hdispatches
    rw [Task.step, hphase]
    simp only [hrun]
    refine h.stay hi trivial hbev fun _ => ⟨done, m, rest, hms, rfl, hinput, ?_⟩
    rw [hdispatches, hlog, pairs, pairs, List.map_append, List.append_assoc]
    rfl
  | handled header =>
    rw [Task.step, hphase]
    exact h.leave hphase
  | drainedPayload =>
    have hi : ¬ (s.tasks a.task).phase.AtMessage := by rw [hphase]; exact fun h => h
    rw [Task.step, hphase]
    refine h.pullHeader hi fun hlen => hothers ?_
    rw [TakesHeader, hphase]
    exact hlen
  | finished outcome =>
    rw [hphase] at hlive
    cases hlive

omit hwf in
/-- What is dispatched is a first part of the stream, and all of it once every task ended. -/
theorem InOrder.dispatched (h : InOrder ms before s) :
    (∃ done, done <+: ms ∧ dispatches s.peer.work.log = before ++ pairs done) ∧
      (0 < n → (∀ i, (s.tasks i).phase.isFinished = true) →
        dispatches s.peer.work.log = before ++ pairs ms) := by
  obtain ⟨hbev, ⟨cur, hcur, hat⟩, hlooking⟩ := h
  cases cur with
  | none =>
    obtain ⟨done, rest, rfl, hinput, hlog⟩ := hat
    refine ⟨⟨done, List.prefix_append _ _, hlog⟩, fun hn hend => ?_⟩
    have hshort : s.peer.input.length < MessageHeader.kSize := by
      rcases hlooking with ⟨i, hi⟩ | ⟨hqueued, -⟩ | hshort
      · have hfin := hend i
        cases hphase : (s.tasks i).phase <;> rw [hphase] at hi hfin <;>
          first | exact absurd hi id | cases hfin
      · have hfin := hend ⟨0, hn⟩
        rw [hqueued] at hfin
        cases hfin
      · exact hshort
    cases rest with
    | nil => rw [hlog, List.append_nil]
    | cons m rest =>
      have hlen : MessageHeader.kSize ≤ s.peer.input.length := by
        rw [hinput, wire, List.flatMap_cons, List.length_append, WireMessage.wire_length]
        exact (size_ge m).trans (Nat.le_add_right _ _)
      exact absurd hshort (Nat.not_lt.mpr hlen)
  | some i =>
    have hi : (s.tasks i).phase.AtMessage := (hcur i).mpr rfl
    refine ⟨?_, fun _ hend => ?_⟩
    · simp only at hat
      obtain ⟨done, m, rest, rfl, hwhere⟩ := hat
      cases hphase : (s.tasks i).phase <;> rw [hphase] at hwhere hi
      · exact absurd hi id
      · exact ⟨done, List.prefix_append _ _, hwhere.2.2⟩
      · exact ⟨done, List.prefix_append _ _, hwhere.2.2⟩
      · exact ⟨done, List.prefix_append _ _, hwhere.2.2.2⟩
      · exact ⟨done ++ [m], by simp, hwhere.2.2⟩
      · exact absurd hi id
      · exact absurd hi id
    · have hfin := hend i
      cases hphase : (s.tasks i).phase <;> rw [hphase] at hi hfin <;>
        first | exact absurd hi id | cases hfin

/-- In every run whose steps are orderly, however many tasks there are and whichever moves,
the messages are dispatched in the order of the stream, each with its own payload, and each
of them once by the time all tasks have ended. -/
theorem orderly_dispatches {work : Work} (hbev : work.node.connection.bev = true)
    (hup : work.node.isDisconnected = false) {s' : State n}
    (hrun : Run Next (Orderly magic) (start n work ms) s') :
    (∃ done, done <+: ms ∧
      dispatches s'.peer.work.log = dispatches work.log ++ pairs done) ∧
    (0 < n → (∀ i, (s'.tasks i).phase.isFinished = true) →
      dispatches s'.peer.work.log = dispatches work.log ++ pairs ms) := by
  have hend : InOrder ms (dispatches work.log) s' :=
    Run.preserves (fun _ _ _ h hD hnext => h.step hwf hD hnext) hrun
      (inOrder_start hbev hup)
  exact hend.dispatched

end Streams

section Schedules

instance (phase : Phase) : Decidable phase.AtMessage :=
  match phase with
  | .pulledHeader _ | .drainedHeader _ | .pulledPayload _ _ | .handled _ => isTrue trivial
  | .queued | .drainedPayload | .finished _ => isFalse id

instance (t : Task) (p : Peer) : Decidable (TakesHeader t p) :=
  match t with
  | ⟨_, .queued⟩ =>
    inferInstanceAs (Decidable (p.work.node.isDisconnected = false ∧
      MessageHeader.kSize ≤ p.input.length))
  | ⟨_, .drainedPayload⟩ => inferInstanceAs (Decidable (MessageHeader.kSize ≤ p.input.length))
  | ⟨_, .pulledHeader _⟩ | ⟨_, .drainedHeader _⟩ | ⟨_, .pulledPayload _ _⟩ | ⟨_, .handled _⟩
  | ⟨_, .finished _⟩ => isFalse id

def raised? : Option (EStateM.Result Failure Source Message) → Bool
  | some (.error _ _) => true
  | _ => false

theorem raises_iff {env : Env} {ret : Bool} {header : MessageHeader} {payload : List Byte}
    {p : Peer} : Raises env ⟨ret, .pulledPayload header payload⟩ p ↔
      raised? (decoded env header payload p.work.node) = true := by
  rw [Raises]
  rcases hd : decoded env header payload p.work.node with - | ⟨m, s⟩ | ⟨failure, s⟩
  · exact iff_of_false (by simp [hd]) (by simp [raised?])
  · exact iff_of_false (by simp [hd]) (by simp [raised?])
  · exact iff_of_true ⟨failure, s, hd⟩ rfl

instance (env : Env) (t : Task) (p : Peer) : Decidable (Raises env t p) :=
  match t with
  | ⟨_, .pulledPayload _ _⟩ => decidable_of_iff' _ raises_iff
  | ⟨_, .queued⟩ | ⟨_, .pulledHeader _⟩ | ⟨_, .drainedHeader _⟩ | ⟨_, .handled _⟩
  | ⟨_, .drainedPayload⟩ | ⟨_, .finished _⟩ => isFalse id

instance (magic : U32) (s : State n) (a : Act n) : Decidable (Orderly magic s a) :=
  inferInstanceAs (Decidable (_ ∧ _ ∧ _))

/-- The steps of these tasks in this order, if they are all allowed. -/
def schedule (D : State n → Act n → Prop) [∀ s a, Decidable (D s a)] (s : State n) :
    List (Act n) → Option (State n)
  | [] => some s
  | a :: acts =>
    if (s.tasks a.task).phase.isFinished = false ∧ D s a then
      schedule D (s.put a.task ((s.tasks a.task).step a.env s.peer)) acts
    else none

theorem schedule_run {D : State n → Act n → Prop} [∀ s a, Decidable (D s a)] {s s' : State n}
    {acts : List (Act n)} (h : schedule D s acts = some s') : Run Next D s s' := by
  induction acts generalizing s with
  | nil =>
    obtain rfl : s = s' := Option.some.inj h
    exact Relation.ReflTransGen.refl
  | cons a acts ih =>
    rw [schedule] at h
    by_cases hallowed : (s.tasks a.task).phase.isFinished = false ∧ D s a
    · rw [if_pos hallowed] at h
      exact (Run.single hallowed.2 ⟨hallowed.1, rfl⟩).trans (ih h)
    · rw [if_neg hallowed] at h
      cases h

/-- Where two tasks and a stream are left by these steps. -/
def endOf (D : State 2 → Act 2 → Prop) [∀ s a, Decidable (D s a)] (ms : List WireMessage)
    (acts : List (Act 2)) : State 2 :=
  (schedule D (start 2 Work.inbound ms) acts).getD (start 2 Work.inbound ms)

theorem endOf_run {D : State 2 → Act 2 → Prop} [∀ s a, Decidable (D s a)]
    {ms : List WireMessage} {acts : List (Act 2)}
    (h : (schedule D (start 2 Work.inbound ms) acts).isSome = true) :
    Run Next D (start 2 Work.inbound ms) (endOf D ms acts) := by
  obtain ⟨s', hs'⟩ := Option.isSome_iff_exists.mp h
  rw [endOf, hs', Option.getD_some]
  exact schedule_run hs'

/-- Task 0 goes as far as the drain of the first payload, task 1 takes over and sees the
stream through, and task 0 finds nothing left. -/
def handedOver : List (Act 2) :=
  ([0, 0, 0, 0, 0, 1, 1, 1, 1, 1, 1, 0] : List (Fin 2)).map fun i => ⟨i, .alone default⟩

theorem orderly_dispatches_handedOver :
    let s := endOf (Orderly kTestnetMagic) [txMessage, txMessage] handedOver
    (∃ done, done <+: [txMessage, txMessage] ∧
      dispatches s.peer.work.log = dispatches Work.inbound.log ++ pairs done) ∧
    (0 < 2 → (∀ i, (s.tasks i).phase.isFinished = true) →
      dispatches s.peer.work.log = dispatches Work.inbound.log ++ pairs [txMessage, txMessage]) :=
  orderly_dispatches (by simp [WireMessage.WellFormed, txMessage]; decide) rfl rfl
    (endOf_run (by decide +kernel))

/-- Both tasks pull up the first header before either of them drains it. -/
def pulledTwice : List (Act 2) :=
  ([0, 1, 0, 1, 0, 1] : List (Fin 2)).map fun i => ⟨i, .alone default⟩

/-- Both tasks have ended, and the message was never dispatched. -/
theorem pulledTwice_lost :
    let s := endOf (fun _ _ => True) [txMessage] pulledTwice
    txMessage.WellFormed kTestnetMagic ∧
      Run Next (fun _ _ => True) (start 2 Work.inbound [txMessage]) s ∧
      (∀ i, (s.tasks i).phase.isFinished = true) ∧
      dispatches s.peer.work.log ≠ dispatches Work.inbound.log ++ pairs [txMessage] :=
  ⟨⟨rfl, by decide⟩, endOf_run (by decide +kernel), by decide +kernel, by decide +kernel⟩

end Schedules

end Tasks
