import Btclite.Library.Frames
import Btclite.Network.MsgProcess

/-!
# Framing

`ParseMsg` keeps nothing between two calls but the input buffer. It has taken a
header off the buffer before it finds that the payload has not arrived, and it
does not put it back. So messages survive being cut anywhere but between the
end of a header and the end of its payload.
-/

namespace Framing

open Endian Serialize Messages Nodes Sessions MsgProcess Frames

def wire (ms : List WireMessage) : List Byte := ms.flatMap WireMessage.wire

def pairs (ms : List WireMessage) : List (MessageHeader × List Byte) :=
  ms.map fun m => (m.header, m.payload)

/-- How far the first bytes of a stream of messages reach. -/
def arrived (ms : List WireMessage) (bytes : List Byte) : Progress WireMessage Byte :=
  progress WireMessage.size ms bytes

/-- `ParseMsg` runs once after each chunk. -/
def feed (envs : Nat → Nat → Env) : List (List Byte) → Peer → Peer
  | [], p => p
  | c :: cs, p =>
    feed (fun i => envs (i + 1)) cs (parseMsg (envs 0) { p with input := p.input ++ c }).2

/-- Handled one after another, none of the messages raises an exception and the
connection stays up, whichever of the environments `E` each of them finds. -/
def Quiet (E : Env → Prop) : Work → List WireMessage → Prop
  | w, [] => w.node.isDisconnected = false
  | w, m :: ms => w.node.isDisconnected = false ∧ ∀ env, E env →
      ∃ ret w', parseMsgData env m.header m.payload w = (.ok ret, w') ∧ Quiet E w' ms

variable {E : Env → Prop} {ms : List WireMessage} {w : Work}

theorem Quiet.connected (h : Quiet E w ms) : w.node.isDisconnected = false := by
  cases ms with
  | nil => exact h
  | cons m ms => exact h.1

theorem dispatches_disconnect (env : Env) (w : Work) :
    dispatches (disconnect env w).2.log = dispatches w.log := by
  rw [← dispatches_session, disconnect_session]
  change dispatches ((session w).note _).trace = _
  rw [dispatches_note, dispatches_session]
  simp [dispatched?]

section Loop

variable {fuel : Nat} {ret : Bool} {envs : Nat → Env}

/-- What is left in the buffer of a message that is not complete. -/
def leftover (part : List Byte) : List Byte :=
  if part.length < MessageHeader.kSize then part else part.drop MessageHeader.kSize

theorem size_ge (m : WireMessage) : MessageHeader.kSize ≤ m.size := Nat.le_add_right _ _

theorem arrived_of_short {input : List Byte} (h : input.length < MessageHeader.kSize) :
    arrived ms input = ⟨[], ms, input⟩ :=
  progress_of_lt fun m _ _ => Nat.lt_of_lt_of_le h (size_ge m)

theorem parseMsgLoop_short {p : Peer} (h : p.input.length < MessageHeader.kSize) :
    parseMsgLoop envs fuel ret p = (.ok ret, p) := by
  cases fuel with
  | zero => rfl
  | succ fuel => rw [parseMsgLoop, evbufferPullup_eq_none.mpr h]

section First

variable {m : WireMessage} {rest got : List Byte}

theorem arrived_cons :
    arrived (m :: ms) (m.wire ++ rest) =
      { arrived ms rest with done := m :: (arrived ms rest).done } :=
  progress_cons (m.wire_length).symm

theorem arrived_of_header (hgot : got.length < m.payload.length) :
    arrived (m :: ms) (m.header.serialize ++ got) =
      ⟨[], m :: ms, m.header.serialize ++ got⟩ :=
  progress_of_lt fun m' rest hcons => by
    cases hcons
    rw [List.length_append, header_length, WireMessage.size]
    omega

/-- All of the next message is there, or its header is and its payload is not. -/
theorem prefix_wire_cases {input : List Byte} (hin : input <+: wire (m :: ms))
    (hlong : MessageHeader.kSize ≤ input.length) :
    (∃ rest, input = m.wire ++ rest ∧ rest <+: wire ms) ∨
      ∃ got, input = m.header.serialize ++ got ∧ got.length < m.payload.length := by
  rw [wire, List.flatMap_cons] at hin
  by_cases hall : m.size ≤ input.length
  · obtain ⟨rest, rfl⟩ := List.prefix_of_prefix_length_le (List.prefix_append _ _) hin
      (by rwa [m.wire_length])
    exact .inl ⟨rest, rfl, (List.prefix_append_right_inj _).mp hin⟩
  · rw [WireMessage.wire, List.append_assoc] at hin
    obtain ⟨got, rfl⟩ := List.prefix_of_prefix_length_le (List.prefix_append _ _) hin
      (by rwa [header_length])
    refine .inr ⟨got, rfl, ?_⟩
    rw [List.length_append, header_length, WireMessage.size] at hall
    omega

theorem parseMsgLoop_wire (hm : m.WellFormed (envs 0).msgMagic) {r : Bool} {w' : Work}
    (hrun : parseMsgData (envs 0) m.header m.payload w = (.ok r, w')) :
    parseMsgLoop envs (fuel + 1) ret ⟨w, m.wire ++ rest⟩ =
      parseMsgLoop (fun i => envs (i + 1)) fuel (ret && r) ⟨w', rest⟩ := by
  have hpull : evbufferPullup (m.wire ++ rest) MessageHeader.kSize = some m.header.serialize := by
    rw [WireMessage.wire, List.append_assoc, evbufferPullup_append (header_length _)]
  rw [parseMsgLoop, hpull]
  simp only [parseMsgPass_wire hm, hrun]

/-- The header is taken off the buffer, and nothing is handled. -/
theorem parseMsgLoop_header (hm : m.WellFormed (envs 0).msgMagic)
    (hgot : got.length < m.payload.length) :
    parseMsgLoop envs (fuel + 1) ret ⟨w, m.header.serialize ++ got⟩ = (.ok false, ⟨w, got⟩) := by
  rw [parseMsgLoop, evbufferPullup_append (header_length _)]
  simp only [parseMsgPass_header hm, evbufferPullup_eq_none.mpr hgot]

end First

/-- What a run of the loop over a part of the stream comes to. -/
structure Follows (E : Env → Prop) (ms : List WireMessage) (p p' : Peer) : Prop where
  dispatched : dispatches p'.work.log = dispatches p.work.log ++ pairs (arrived ms p.input).done
  input : p'.input = leftover (arrived ms p.input).part
  quiet : Quiet E p'.work (arrived ms p.input).rest
  bev : p'.work.node.connection.bev = p.work.node.connection.bev

theorem Follows.of_short {p : Peer} (h : p.input.length < MessageHeader.kSize)
    (hq : Quiet E p.work ms) : Follows E ms p p where
  dispatched := by simp [arrived_of_short h, pairs]
  input := by rw [arrived_of_short h, leftover, if_pos h]
  quiet := by rwa [arrived_of_short h]
  bev := rfl

theorem parseMsgLoop_follows {magic : U32} (hE : ∀ env, E env → env.msgMagic = magic)
    (hwf : ∀ m ∈ ms, m.WellFormed magic) (henvs : ∀ i, E (envs i)) {input : List Byte}
    (hfuel : input.length ≤ fuel) (hin : input <+: wire ms) (hq : Quiet E w ms) :
    Follows E ms ⟨w, input⟩ (parseMsgLoop envs fuel ret ⟨w, input⟩).2 := by
  induction ms generalizing fuel ret envs w input with
  | nil =>
    obtain rfl : input = [] := List.prefix_nil.mp hin
    have hshort : (⟨w, []⟩ : Peer).input.length < MessageHeader.kSize := Nat.zero_lt_succ _
    rw [parseMsgLoop_short hshort]
    exact Follows.of_short hshort hq
  | cons m ms ih =>
    by_cases hshort : input.length < MessageHeader.kSize
    · rw [parseMsgLoop_short hshort]
      exact Follows.of_short hshort hq
    have hm : m.WellFormed (envs 0).msgMagic := by
      rw [hE _ (henvs 0)]
      exact hwf m List.mem_cons_self
    have hkSize : MessageHeader.kSize = 24 := rfl
    obtain ⟨fuel, rfl⟩ : ∃ n, fuel = n + 1 := ⟨fuel - 1, by omega⟩
    rcases prefix_wire_cases hin (not_lt.mp hshort) with ⟨rest, rfl, hrest⟩ | ⟨got, rfl, hgot⟩
    · obtain ⟨r, w', hrun, hq'⟩ := hq.2 (envs 0) (henvs 0)
      rw [parseMsgLoop_wire hm hrun]
      have hlen : rest.length ≤ fuel := by
        have hsize := size_ge m
        rw [List.length_append, m.wire_length] at hfuel
        omega
      have hrec : Follows E ms ⟨w', rest⟩
          (parseMsgLoop (fun i => envs (i + 1)) fuel (ret && r) ⟨w', rest⟩).2 :=
        ih (fun m' hm' => hwf m' (List.mem_cons_of_mem _ hm')) (fun i => henvs (i + 1)) hlen
          hrest hq'
      have hdispatch := parseMsgData_dispatches (envs 0) m.header m.payload w
      have hbev := parseMsgData_frame (envs 0) m.header m.payload w
      rw [hrun] at hdispatch hbev
      refine ⟨?_, ?_, ?_, ?_⟩
      · rw [hrec.dispatched, hdispatch, arrived_cons]
        simp [pairs]
      · rw [hrec.input, arrived_cons]
      · rw [arrived_cons]
        exact hrec.quiet
      · exact hrec.bev.trans hbev
    · have hleft : leftover (m.header.serialize ++ got) = got := by
        rw [leftover, if_neg hshort, ← header_length m.header, List.drop_left]
      rw [parseMsgLoop_header hm hgot]
      refine ⟨?_, ?_, ?_, rfl⟩
      · simp [arrived_of_header hgot, pairs]
      · rw [arrived_of_header hgot, hleft]
      · rw [arrived_of_header hgot]
        exact hq

theorem parseMsg_follows {magic : U32} (hE : ∀ env, E env → env.msgMagic = magic)
    (hwf : ∀ m ∈ ms, m.WellFormed magic) (henvs : ∀ i, E (envs i)) {input : List Byte}
    (hin : input <+: wire ms) (hq : Quiet E w ms) (hbev : w.node.connection.bev = true) :
    Follows E ms ⟨w, input⟩ (parseMsg envs ⟨w, input⟩).2 := by
  rw [parseMsg, if_neg (by simp [hbev]), if_neg (by simp [hq.connected])]
  cases hpull : evbufferPullup input MessageHeader.kSize with
  | none => exact Follows.of_short (evbufferPullup_eq_none.mp hpull) hq
  | some raw => exact parseMsgLoop_follows hE hwf henvs le_rfl hin hq

end Loop

section Account

variable {envs : Nat → Env}

/-- The log grows, and so do the dispatches in it. -/
theorem parseMsgPass_extends (env : Env) (raw : List Byte) (p : Peer) :
    dispatches p.work.log <+: dispatches (parseMsgPass env raw p).2.work.log := by
  rcases parseMsgPass_cases env raw p with h | h | ⟨payload, rest, -, h⟩
  · rw [h]
  · rw [h, dispatches_disconnect]
  · have hdispatch := parseMsgData_dispatches env (headerOfRaw env.memory raw) payload p.work
    rw [h]
    rcases hrun : parseMsgData env (headerOfRaw env.memory raw) payload p.work with
      ⟨_ | _, w'⟩ <;> rw [hrun] at hdispatch <;> simp only [hdispatch] <;>
        exact List.prefix_append _ _

instance : Std.Refl fun p p' : Peer => dispatches p.work.log <+: dispatches p'.work.log :=
  ⟨fun _ => List.prefix_rfl⟩

instance : IsTrans Peer fun p p' => dispatches p.work.log <+: dispatches p'.work.log :=
  ⟨fun _ _ _ => List.IsPrefix.trans⟩

theorem parseMsgLoop_extends (envs : Nat → Env) (fuel : Nat) (ret : Bool) (p : Peer) :
    dispatches p.work.log <+: dispatches (parseMsgLoop envs fuel ret p).2.work.log :=
  parseMsgLoop_relates (R := fun p p' => dispatches p.work.log <+: dispatches p'.work.log)
    parseMsgPass_extends envs fuel ret p

theorem parseMsg_extends (envs : Nat → Env) (p : Peer) :
    dispatches p.work.log <+: dispatches (parseMsg envs p).2.work.log :=
  parseMsg_relates (R := fun p p' => dispatches p.work.log <+: dispatches p'.work.log)
    parseMsgPass_extends envs p

theorem feed_extends (envs : Nat → Nat → Env) (cs : List (List Byte)) (p : Peer) :
    dispatches p.work.log <+: dispatches (feed envs cs p).work.log := by
  induction cs generalizing envs p with
  | nil => exact List.prefix_rfl
  | cons c cs ih =>
    exact (parseMsg_extends (envs 0) { p with input := p.input ++ c }).trans (ih _ _)

/-- Each of the messages that were dispatched cost its size, of the `n` bytes there were. -/
def Accounted (E : Env → Prop) (ms : List WireMessage) (n : Nat) (p p' : Peer) : Prop :=
  ∃ done rest, ms = done ++ rest ∧
    dispatches p'.work.log = dispatches p.work.log ++ pairs done ∧
    (done.map WireMessage.size).sum + p'.input.length ≤ n ∧
    (Quiet E p'.work rest ∨ p'.work.node.isDisconnected = true)

theorem Accounted.of_same {p p' : Peer} {n : Nat}
    (hlog : dispatches p'.work.log = dispatches p.work.log) (hn : p'.input.length ≤ n)
    (h : Quiet E p'.work ms ∨ p'.work.node.isDisconnected = true) : Accounted E ms n p p' :=
  ⟨[], ms, rfl, by simpa [pairs] using hlog, by simpa using hn, h⟩

/-- If no more than the messages sent is dispatched, then each was paid for: a message
that is dispatched is the next one, and it raises nothing. -/
theorem parseMsgLoop_accounted {fuel : Nat} {ret : Bool} {p : Peer} (henvs : ∀ i, E (envs i))
    (hq : Quiet E p.work ms)
    (hfin : dispatches (parseMsgLoop envs fuel ret p).2.work.log <+:
      dispatches p.work.log ++ pairs ms) :
    Accounted E ms p.input.length p (parseMsgLoop envs fuel ret p).2 := by
  induction fuel generalizing ms envs ret p with
  | zero => exact .of_same rfl le_rfl (Or.inl hq)
  | succ fuel ih =>
    rw [parseMsgLoop] at hfin ⊢
    cases hpull : evbufferPullup p.input MessageHeader.kSize with
    | none => exact .of_same rfl le_rfl (Or.inl hq)
    | some raw =>
      have hlen := (evbufferPullup_eq_some.mp hpull).1
      simp only [hpull] at hfin ⊢
      rcases parseMsgPass_cases (envs 0) raw p with
        hrun | hrun | ⟨payload, rest, hfront, hrun⟩
      · simp only [hrun]
        exact .of_same rfl (by simp) (Or.inl hq)
      · simp only [hrun]
        refine .of_same (dispatches_disconnect _ _) (by simp) (Or.inr ?_)
        rw [isDisconnected_iff, disconnect_session]
        rfl
      · have hinput := hfront.input
        generalize headerOfRaw (envs 0).memory raw = header at hrun
        have hdispatch := parseMsgData_dispatches (envs 0) header payload p.work
        simp only [hrun] at hfin ⊢
        have hnext : dispatches p.work.log ++ [(header, payload)] <+:
            dispatches p.work.log ++ pairs ms := by
          rw [← hdispatch]
          refine List.IsPrefix.trans ?_ hfin
          rcases parseMsgData (envs 0) header payload p.work with ⟨_ | _, w'⟩
          · exact List.prefix_rfl
          · exact parseMsgLoop_extends _ fuel _ ⟨w', rest⟩
        cases ms with
        | nil =>
          have := hnext.length_le
          simp [pairs] at this
        | cons m ms =>
          obtain ⟨rfl, rfl⟩ : header = m.header ∧ payload = m.payload := by
            simpa [pairs] using hnext
          obtain ⟨r, w', hdata, hq'⟩ := hq.2 (envs 0) (henvs 0)
          simp only [hdata] at hfin hdispatch ⊢
          have hrec : Accounted E ms rest.length ⟨w', rest⟩
              (parseMsgLoop (fun i => envs (i + 1)) fuel (ret && r) ⟨w', rest⟩).2 :=
            ih (fun i => henvs (i + 1)) hq' (by
              rw [hdispatch]
              simpa [pairs] using hfin)
          obtain ⟨done, rest', rfl, hlog, hpaid, hend⟩ := hrec
          refine ⟨m :: done, rest', rfl, ?_, ?_, hend⟩
          · rw [hlog, hdispatch]
            simp [pairs]
          · have hsum := congrArg List.length hinput
            rw [List.length_drop, List.length_append] at hsum
            simp only [List.map_cons, List.sum_cons, WireMessage.size] at hpaid ⊢
            omega

theorem parseMsg_accounted {p : Peer} (henvs : ∀ i, E (envs i))
    (hq : Quiet E p.work ms ∨ p.work.node.isDisconnected = true)
    (hfin : dispatches (parseMsg envs p).2.work.log <+: dispatches p.work.log ++ pairs ms) :
    Accounted E ms p.input.length p (parseMsg envs p).2 := by
  rw [parseMsg] at hfin ⊢
  split_ifs at hfin ⊢ with h1 h2
  · exact .of_same rfl le_rfl hq
  · exact .of_same rfl le_rfl hq
  · rcases hq with hq | hq
    · cases hpull : evbufferPullup p.input MessageHeader.kSize with
      | none => exact .of_same rfl le_rfl (Or.inl hq)
      | some raw =>
        rw [hpull] at hfin
        exact parseMsgLoop_accounted henvs hq hfin
    · exact absurd hq h2

theorem feed_accounted {envs : Nat → Nat → Env} {cs : List (List Byte)} {p : Peer}
    (henvs : ∀ i j, E (envs i j)) (hq : Quiet E p.work ms ∨ p.work.node.isDisconnected = true)
    (hfin : dispatches (feed envs cs p).work.log <+: dispatches p.work.log ++ pairs ms) :
    Accounted E ms (p.input.length + cs.flatten.length) p (feed envs cs p) := by
  induction cs generalizing ms envs p with
  | nil => exact .of_same rfl (by simp [feed]) hq
  | cons c cs ih =>
    obtain ⟨done, rest, rfl, hlog, hpaid, hend⟩ := parseMsg_accounted
      (p := { p with input := p.input ++ c }) (henvs 0) hq ((feed_extends _ cs _).trans hfin)
    obtain ⟨done', rest', rfl, hlog', hpaid', hend'⟩ := ih (fun i => henvs (i + 1)) hend (by
      rw [hlog]
      simpa [pairs, feed] using hfin)
    refine ⟨done ++ done', rest', by simp, ?_, ?_, hend'⟩
    · rw [feed, hlog', hlog]
      simp [pairs]
    · simp only [List.map_append, List.sum_append, List.flatten_cons, List.length_append]
        at hpaid hpaid' ⊢
      rw [feed]
      omega

end Account

section Chunks

/-- No chunk ends between the end of a header and the end of its payload. -/
def CutsClean (ms : List WireMessage) (part : List Byte) (cs : List (List Byte)) : Prop :=
  ∀ p, p ≠ [] → p <+: cs → (arrived ms (part ++ p.flatten)).part.length < MessageHeader.kSize

theorem cutsClean_cons {part c : List Byte} {cs : List (List Byte)} :
    CutsClean ms part (c :: cs) ↔
      (arrived ms (part ++ c)).part.length < MessageHeader.kSize ∧
        CutsClean (arrived ms (part ++ c)).rest (arrived ms (part ++ c)).part cs := by
  have happend : ∀ p : List (List Byte), (arrived ms (part ++ (c :: p).flatten)).part =
      (arrived (arrived ms (part ++ c)).rest
        ((arrived ms (part ++ c)).part ++ p.flatten)).part := by
    intro p
    rw [List.flatten_cons, ← List.append_assoc, arrived, progress_append]
    rfl
  constructor
  · intro h
    constructor
    · simpa using h [c] (by simp) (by simp)
    · intro p hp hpre
      rw [← happend]
      exact h (c :: p) (by simp) ((List.prefix_cons_inj c).mpr hpre)
  · rintro ⟨hone, hrest⟩ p hp hpre
    cases p with
    | nil => exact absurd rfl hp
    | cons c' p =>
      obtain ⟨rfl, hpre'⟩ := List.cons_prefix_cons.mp hpre
      by_cases hnil : p = []
      · subst hnil
        simpa using hone
      · rw [happend]
        exact hrest p hnil hpre'

variable {magic : U32} {envs : Nat → Nat → Env}

/-- Chunk after chunk, from a buffer that holds less than a header. -/
theorem feed_framed_iff (hE : ∀ env, E env → env.msgMagic = magic)
    (hwf : ∀ m ∈ ms, m.WellFormed magic) (henvs : ∀ i j, E (envs i j)) {part : List Byte}
    {cs : List (List Byte)} (hpart : part.length < MessageHeader.kSize)
    (hin : part ++ cs.flatten <+: wire ms) (hq : Quiet E w ms)
    (hbev : w.node.connection.bev = true) :
    (dispatches (feed envs cs ⟨w, part⟩).work.log =
        dispatches w.log ++ pairs (arrived ms (part ++ cs.flatten)).done ∧
      (feed envs cs ⟨w, part⟩).input = (arrived ms (part ++ cs.flatten)).part) ↔
    CutsClean ms part cs := by
  induction cs generalizing ms envs w part with
  | nil =>
    refine iff_of_true ?_ fun p hp hpre => absurd (List.prefix_nil.mp hpre) hp
    simp [feed, arrived_of_short hpart, pairs]
  | cons c cs ih =>
    rw [List.flatten_cons, ← List.append_assoc] at hin
    have hfirst := parseMsg_follows hE hwf (henvs 0) ((List.prefix_append _ _).trans hin) hq hbev
    have hall : arrived ms (part ++ (c :: cs).flatten) =
        { arrived (arrived ms (part ++ c)).rest ((arrived ms (part ++ c)).part ++ cs.flatten) with
          done := (arrived ms (part ++ c)).done ++
            (arrived (arrived ms (part ++ c)).rest
              ((arrived ms (part ++ c)).part ++ cs.flatten)).done } := by
      rw [List.flatten_cons, ← List.append_assoc, arrived, progress_append]
      rfl
    have hms : (arrived ms (part ++ c)).done ++ (arrived ms (part ++ c)).rest = ms :=
      done_append_rest ms (part ++ c)
    have hrest : (arrived ms (part ++ c)).part ++ cs.flatten <+:
        wire (arrived ms (part ++ c)).rest :=
      part_append_prefix WireMessage.wire_length hin
    rw [cutsClean_cons, hall, feed]
    generalize (parseMsg (envs 0) ⟨w, part ++ c⟩).2 = r at hfirst ⊢
    obtain ⟨hdispatched, hinput, hquiet, hbev'⟩ := hfirst
    generalize arrived ms (part ++ c) = p₀ at *
    by_cases hclean : p₀.part.length < MessageHeader.kSize
    · rw [leftover, if_pos hclean] at hinput
      obtain ⟨work, input⟩ := r
      cases hinput
      have hrec := ih (fun m hm => hwf m (hms ▸ List.mem_append_right _ hm))
        (fun i => henvs (i + 1)) hclean hrest hquiet (hbev'.trans hbev)
      rw [and_iff_right hclean, ← hrec]
      simp only [hdispatched, pairs, List.map_append, List.append_assoc]
    · refine iff_of_false ?_ fun h => hclean h.1
      rintro ⟨hlog, hlast⟩
      change _ = (arrived p₀.rest (p₀.part ++ cs.flatten)).part at hlast
      rw [leftover, if_neg hclean] at hinput
      have hlog' : dispatches (feed (fun i => envs (i + 1)) cs r).work.log =
          dispatches r.work.log ++ pairs (arrived p₀.rest (p₀.part ++ cs.flatten)).done := by
        rw [hlog, hdispatched]
        simp [pairs]
      -- the bytes of the header that is gone are missing at the end
      have haccount : Accounted E p₀.rest (r.input.length + cs.flatten.length) r
          (feed (fun i => envs (i + 1)) cs r) :=
        feed_accounted (fun i => henvs (i + 1)) (Or.inl hquiet) (by
          rw [hlog']
          refine (List.prefix_append_right_inj _).mpr ?_
          exact List.IsPrefix.map _ ⟨_, done_append_rest _ _⟩)
      obtain ⟨done, rest, -, hdone, hpaid, -⟩ := haccount
      have hsame : pairs done = pairs (arrived p₀.rest (p₀.part ++ cs.flatten)).done :=
        List.append_cancel_left (hdone.symm.trans hlog')
      have hsizes : ∀ l : List WireMessage, (l.map WireMessage.size).sum =
          ((pairs l).map fun p => MessageHeader.kSize + p.2.length).sum := by
        intro l
        rw [pairs, List.map_map]
        rfl
      have htotal : ((arrived p₀.rest (p₀.part ++ cs.flatten)).done.map WireMessage.size).sum +
          (arrived p₀.rest (p₀.part ++ cs.flatten)).part.length =
            (p₀.part ++ cs.flatten).length := size_done_add_part _ _
      rw [hsizes, ← hsame, ← hsizes, List.length_append] at htotal
      rw [hlast, hinput, List.length_drop] at hpaid
      have : MessageHeader.kSize = 24 := rfl
      omega

/-- Chunks of a stream dispatch the messages that the whole of it dispatches, and leave
every byte of the message that is not complete, if and only if the cuts are clean. -/
theorem feed_iff_cutsClean (hE : ∀ env, E env → env.msgMagic = magic)
    (hwf : ∀ m ∈ ms, m.WellFormed magic) (henvs : ∀ i j, E (envs i j)) {envs' : Nat → Env}
    (henvs' : ∀ i, E (envs' i)) {cs : List (List Byte)} (hin : cs.flatten <+: wire ms)
    (hq : Quiet E w ms) (hbev : w.node.connection.bev = true) :
    (dispatches (feed envs cs ⟨w, []⟩).work.log =
        dispatches (parseMsg envs' ⟨w, cs.flatten⟩).2.work.log ∧
      (feed envs cs ⟨w, []⟩).input = (arrived ms cs.flatten).part) ↔ CutsClean ms [] cs := by
  have hpart : ([] : List Byte).length < MessageHeader.kSize := Nat.zero_lt_succ _
  rw [← feed_framed_iff hE hwf henvs hpart hin hq hbev,
    (parseMsg_follows hE hwf henvs' hin hq hbev).dispatched]
  rfl

/-- A message no class takes, with one byte of payload. -/
def txMessage : WireMessage where
  header :=
    { magic := kTestnetMagic
      commandBytes := MessageHeader.paddedCommand kMsgTx
      payloadLength := 1 }
  payload := [0x00]
  payload_length := rfl

/-- Two of them, cut inside the second header. -/
def txChunks : List (List Byte) :=
  [txMessage.wire ++ txMessage.wire.take 10, txMessage.wire.drop 10]

theorem feed_iff_cutsClean_tx :
    dispatches (feed (fun _ _ => .alone default) txChunks ⟨Work.inbound, []⟩).work.log =
        dispatches (parseMsg (fun _ => .alone default)
          ⟨Work.inbound, txChunks.flatten⟩).2.work.log ∧
      (feed (fun _ _ => .alone default) txChunks ⟨Work.inbound, []⟩).input =
        (arrived [txMessage, txMessage] txChunks.flatten).part := by
  have hmagic : ∀ env, env = Env.alone default → env.msgMagic = kTestnetMagic :=
    fun _ h => by rw [h]; rfl
  have htx : ∀ w : Work, parseMsgData (.alone default) txMessage.header txMessage.payload w =
      (.ok false, (emit (.dispatched txMessage.header txMessage.payload) w).2) := fun _ => rfl
  have hquiet : Quiet (fun env => env = .alone default) Work.inbound [txMessage, txMessage] := by
    refine ⟨rfl, ?_⟩
    rintro _ rfl
    refine ⟨false, _, htx _, rfl, ?_⟩
    rintro _ rfl
    exact ⟨false, _, htx _, rfl⟩
  have hwellFormed : ∀ m ∈ [txMessage, txMessage], WireMessage.WellFormed kTestnetMagic m := by
    simp [WireMessage.WellFormed, txMessage]
    decide
  refine (feed_iff_cutsClean (E := fun env => env = .alone default) hmagic hwellFormed
    (fun _ _ => rfl) (fun _ => rfl) (by decide) hquiet rfl).mpr ?_
  refine cutsClean_cons.mpr ⟨by decide, cutsClean_cons.mpr ⟨by decide, ?_⟩⟩
  intro p hp hprefix
  exact absurd (List.prefix_nil.mp hprefix) hp

/-- The header arrives first and the payload after it: the message is never dispatched. -/
theorem tx_cut_behind_header_lost :
    dispatches (feed (fun _ _ => .alone default)
        [txMessage.header.serialize, txMessage.payload] ⟨Work.inbound, []⟩).work.log = [] ∧
      dispatches (parseMsg (fun _ => .alone default) ⟨Work.inbound, txMessage.wire⟩).2.work.log =
        [(txMessage.header, txMessage.payload)] := by
  decide +kernel

end Chunks

end Framing
