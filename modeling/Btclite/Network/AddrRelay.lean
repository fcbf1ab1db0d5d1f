import Btclite.Network.Flooding
import Mathlib.Data.List.Nodup

/-!
# Relaying addresses

One run of `RelayFloodingAddrsTimeoutCb` that nobody disturbs. The loop looks in the
ring of known addresses for what it has put there itself, so what it tells the node
is told once as long as the ring keeps all that is added meanwhile.
-/

namespace AddrRelay

open Endian Serialize Address Flooding

section Telling

variable (sha256 : List Byte → Hash256)

/-- What the loop over the copied queue adds to messages, and what it leaves. -/
def tell (f : FloodingAddrs) : List NetAddr → List NetAddr × FloodingAddrs
  | [] => ([], f)
  | addr :: pending =>
    if f.isKnownAddr sha256 addr then tell f pending
    else
      let told := tell (f.addKnownAddr sha256 addr).2 pending
      (addr :: told.1, told.2)

variable {sha256} {f : FloodingAddrs} {pending : List NetAddr} {added : List U64} {addr : NetAddr}

theorem isKnownAddr_iff : f.isKnownAddr sha256 addr = true ↔ keyOf sha256 addr ∈ f.knownAddrs := by
  rw [FloodingAddrs.isKnownAddr, List.contains_iff_mem]

theorem knownAddrs_addKnownAddr (h : addr.isValid = true) :
    (f.addKnownAddr sha256 addr).2.knownAddrs = f.pushKnown (keyOf sha256 addr) := by
  rw [FloodingAddrs.addKnownAddr, if_neg (by simp [h])]

theorem tell_sublist (f : FloodingAddrs) (pending : List NetAddr) :
    (tell sha256 f pending).1.Sublist pending := by
  induction pending generalizing f with
  | nil => exact List.Sublist.refl _
  | cons addr pending ih =>
    rw [tell]
    split_ifs
    · exact (ih f).cons addr
    · exact (ih _).cons_cons addr

/-- While the ring keeps all that is added, no key is told that was added before, and the keys
that are told are told once and known in the end. -/
theorem tell_once (hvalid : ∀ addr ∈ pending, addr.isValid = true)
    (hsuffix : added <:+ f.knownAddrs) (hfew : added.length + pending.length ≤ kMaxKnownAddr) :
    ((tell sha256 f pending).1.map (keyOf sha256)).Nodup ∧
      (∀ addr ∈ (tell sha256 f pending).1, keyOf sha256 addr ∉ added) ∧
      added ++ (tell sha256 f pending).1.map (keyOf sha256) <:+
        (tell sha256 f pending).2.knownAddrs := by
  induction pending generalizing f added with
  | nil =>
    refine ⟨List.nodup_nil, fun addr haddr => absurd haddr List.not_mem_nil, ?_⟩
    rw [tell, List.map_nil, List.append_nil]
    exact hsuffix
  | cons addr pending ih =>
    rcases List.forall_mem_cons.mp hvalid with ⟨haddr, hvalid⟩
    rw [List.length_cons] at hfew
    rw [tell]
    split_ifs with hknown
    · exact ih hvalid hsuffix (by omega)
    · have hnew : keyOf sha256 addr ∉ added :=
        fun hmem => hknown (isKnownAddr_iff.mpr (hsuffix.mem hmem))
      have hpushed : added ++ [keyOf sha256 addr] <:+
          (f.addKnownAddr sha256 addr).2.knownAddrs := by
        rw [knownAddrs_addKnownAddr haddr]
        exact suffix_pushKnown hsuffix (by omega)
      obtain ⟨hnodup, hfresh, hlast⟩ := ih hvalid hpushed
        (by rw [List.length_append, List.length_singleton]; omega)
      refine ⟨List.nodup_cons.mpr ⟨?_, hnodup⟩, ?_, ?_⟩
      · intro hmem
        obtain ⟨other, hother, hkey⟩ := List.mem_map.mp hmem
        exact hfresh other hother (hkey ▸ List.mem_append_right _ (List.mem_singleton_self _))
      · refine List.forall_mem_cons.mpr ⟨hnew, fun other hother hmem => ?_⟩
        exact hfresh other hother (List.mem_append_left _ hmem)
      · rw [List.map_cons, List.append_cons]
        exact hlast

/-- What was not known is told, under its key. -/
theorem key_mem_tell (hvalid : ∀ addr ∈ pending, addr.isValid = true) (haddr : addr ∈ pending)
    (hunknown : keyOf sha256 addr ∉ f.knownAddrs) :
    keyOf sha256 addr ∈ (tell sha256 f pending).1.map (keyOf sha256) := by
  induction pending generalizing f with
  | nil => exact absurd haddr List.not_mem_nil
  | cons first pending ih =>
    rcases List.forall_mem_cons.mp hvalid with ⟨hfirst, hvalid⟩
    rw [tell]
    split_ifs with hknown
    · rcases List.mem_cons.mp haddr with rfl | haddr
      · exact absurd (isKnownAddr_iff.mp hknown) hunknown
      · exact ih hvalid haddr hunknown
    · by_cases hsame : keyOf sha256 addr = keyOf sha256 first
      · rw [List.map_cons, hsame]
        exact List.mem_cons_self
      · rcases List.mem_cons.mp haddr with rfl | haddr
        · exact absurd rfl hsame
        · refine List.mem_cons_of_mem _ (ih hvalid haddr fun hmem => ?_)
          rw [knownAddrs_addKnownAddr hfirst] at hmem
          exact (mem_pushKnown hmem).elim hunknown hsame

end Telling

section Undisturbed

variable (sha256 : List Byte → Hash256)

/-- So many steps of the callback on a connected node, with nothing in between. -/
def undisturbed (n : Nat) (s : State) : State :=
  (List.replicate n (Event.relay false false)).foldl (State.step sha256) s

def Reaches (s t : State) : Prop := ∃ n, undisturbed sha256 n s = t

variable {sha256} {s t : State}

theorem Reaches.refl (s : State) : Reaches sha256 s s := ⟨0, rfl⟩

theorem Reaches.step (h : Reaches sha256 (s.relay sha256 false false) t) : Reaches sha256 s t := by
  obtain ⟨n, hn⟩ := h
  exact ⟨n + 1, hn⟩

theorem undisturbed_add (m n : Nat) (s : State) :
    undisturbed sha256 (m + n) s = undisturbed sha256 n (undisturbed sha256 m s) := by
  rw [undisturbed, undisturbed, undisturbed, List.replicate_add, List.foldl_append]

theorem Reaches.trans {u : State} (h : Reaches sha256 s t) (h' : Reaches sha256 t u) :
    Reaches sha256 s u := by
  obtain ⟨m, rfl⟩ := h
  obtain ⟨n, rfl⟩ := h'
  exact ⟨m + n, undisturbed_add m n s⟩

/-- The callback that is over does nothing more. -/
theorem undisturbed_finished (h : s.phase = .finished) (n : Nat) : undisturbed sha256 n s = s := by
  induction n with
  | zero => rfl
  | succ n ih =>
    have hstay : s.relay sha256 false false = s := by
      rw [State.relay, h]
    rw [undisturbed, List.replicate_succ, List.foldl_cons, State.step, hstay]
    exact ih

/-- Messages that a receiver does not reject. -/
def Sized (messages : List (List NetAddr)) : Prop :=
  ∀ message ∈ messages, 1 ≤ message.length ∧ message.length ≤ 1000

theorem Sized.append {messages : List (List NetAddr)} (h : Sized messages) {draft : List NetAddr}
    (hpos : 1 ≤ draft.length) (hle : draft.length ≤ 1000) : Sized (messages ++ [draft]) := by
  intro message hmem
  rcases List.mem_append.mp hmem with hmem | hmem
  · exact h message hmem
  · rw [List.mem_singleton.mp hmem]
    exact ⟨hpos, hle⟩

/-- The loop comes to its end, with what is told in messages of the right size and the draft. -/
theorem reaches_checked {pending draft : List NetAddr} (hphase : s.phase = .checking pending draft)
    (hdraft : draft.length < 1000) (hsized : Sized s.messages) :
    ∃ messages draft', draft'.length < 1000 ∧ Sized messages ∧
      messages.flatten ++ draft' =
        s.messages.flatten ++ (draft ++ (tell sha256 s.flooding pending).1) ∧
      Reaches sha256 s
        { s with
          flooding := (tell sha256 s.flooding pending).2
          phase := .checking [] draft'
          messages } := by
  induction pending generalizing s draft with
  | nil =>
    refine ⟨s.messages, draft, hdraft, hsized, ?_, ?_⟩
    · rw [tell, List.append_nil]
    · rw [tell, ← hphase]
      exact Reaches.refl s
  | cons addr pending ih =>
    rw [tell]
    by_cases hknown : s.flooding.isKnownAddr sha256 addr = true
    · rw [if_pos hknown]
      have hskip : s.relay sha256 false false = { s with phase := .checking pending draft } := by
        rw [State.relay, hphase]
        exact if_pos hknown
      obtain ⟨messages, draft', hlt, hsized', hflat, hreach⟩ :=
        ih (s := { s with phase := .checking pending draft }) rfl hdraft hsized
      exact ⟨messages, draft', hlt, hsized', hflat, Reaches.step (hskip ▸ hreach)⟩
    · rw [if_neg hknown]
      have hfound : s.relay sha256 false false =
          { s with phase := .adding addr pending draft } := by
        rw [State.relay, hphase]
        exact if_neg hknown
      by_cases hfull : 1000 ≤ (draft ++ [addr]).length
      · have hsend : State.relay sha256 { s with phase := .adding addr pending draft } false false =
            { s with
              flooding := (s.flooding.addKnownAddr sha256 addr).2
              phase := .checking pending []
              messages := s.messages ++ [draft ++ [addr]] } := if_pos hfull
        have hsize : (draft ++ [addr]).length ≤ 1000 := by
          rw [List.length_append, List.length_singleton]
          exact hdraft
        obtain ⟨messages, draft', hlt, hsized', hflat, hreach⟩ :=
          ih (s := { s with
              flooding := (s.flooding.addKnownAddr sha256 addr).2
              phase := .checking pending []
              messages := s.messages ++ [draft ++ [addr]] }) rfl (by decide)
            (hsized.append (Nat.le_trans (by decide) hfull) hsize)
        refine ⟨messages, draft', hlt, hsized', ?_, ?_⟩
        · rw [hflat]
          simp
        · exact Reaches.step (hfound ▸ Reaches.step (hsend ▸ hreach))
      · have hkeep : State.relay sha256 { s with phase := .adding addr pending draft } false false =
            { s with
              flooding := (s.flooding.addKnownAddr sha256 addr).2
              phase := .checking pending (draft ++ [addr]) } := if_neg hfull
        obtain ⟨messages, draft', hlt, hsized', hflat, hreach⟩ :=
          ih (s := { s with
              flooding := (s.flooding.addKnownAddr sha256 addr).2
              phase := .checking pending (draft ++ [addr]) }) rfl (Nat.not_le.mp hfull) hsized
        refine ⟨messages, draft', hlt, hsized', ?_, ?_⟩
        · rw [hflat]
          simp
        · exact Reaches.step (hfound ▸ Reaches.step (hkeep ▸ hreach))

/-- The callback ends, having told what the loop tells. -/
theorem reaches_finished (f : FloodingAddrs) :
    ∃ messages, Sized messages ∧ messages.flatten = (tell sha256 f f.addrsToSend).1 ∧
      Reaches sha256 (fired f)
        { fired f with
          flooding := (tell sha256 f f.addrsToSend).2.clearSentAddr
          phase := .finished
          messages } := by
  obtain ⟨messages, draft, hdraft, hsized, hflat, hreach⟩ :=
    @reaches_checked sha256 { fired f with phase := .checking f.addrsToSend [] } f.addrsToSend []
      rfl (by decide) (fun message hmem => absurd hmem List.not_mem_nil)
  have hcopied : Reaches sha256 (fired f)
      { fired f with
        flooding := (tell sha256 f f.addrsToSend).2
        phase := .checking [] draft
        messages } := Reaches.step hreach
  have htold : messages.flatten ++ draft = (tell sha256 f f.addrsToSend).1 := hflat
  cases draft with
  | nil =>
    rw [List.append_nil] at htold
    exact ⟨messages, hsized, htold, hcopied.trans (Reaches.step (Reaches.step (Reaches.refl _)))⟩
  | cons addr draft =>
    refine ⟨messages ++ [addr :: draft], ?_, ?_, ?_⟩
    · exact hsized.append (Nat.succ_le_succ (Nat.zero_le _)) hdraft.le
    · rw [List.flatten_append, List.flatten_singleton, htold]
    · exact hcopied.trans (Reaches.step (Reaches.step (Reaches.refl _)))

end Undisturbed

section Results

variable {sha256 : List Byte → Hash256} {f : FloodingAddrs}

theorem keyOf_congr {a b : NetAddr} (h : a.sameEndpoint b = true) :
    keyOf sha256 a = keyOf sha256 b := by
  have hip := NetAddr.ip_eq h
  have hport : a.protoPort = b.protoPort := by
    simp only [NetAddr.sameEndpoint, Bool.and_eq_true, beq_iff_eq] at h
    exact h.2
  simp only [keyOf, getHash, NetAddr.protoIp, hip, hport]

/-- What a run that is over has sent and left. -/
structure Relayed (sha256 : List Byte → Hash256) (f : FloodingAddrs) (s : State) : Prop where
  finished : s.phase = .finished
  sized : ∀ message ∈ s.messages, 1 ≤ message.length ∧ message.length ≤ 1000
  inOrder : s.messages.flatten.Sublist f.addrsToSend
  once : ∀ addr ∈ f.addrsToSend, f.isKnownAddr sha256 addr = false →
    s.messages.flatten.countP (addr.sameEndpoint ·) = 1
  notTwice : s.messages.flatten.Pairwise fun a b => a.sameEndpoint b = false
  known : ∀ addr ∈ s.messages.flatten, s.flooding.isKnownAddr sha256 addr = true
  cleared : s.flooding.addrsToSend = []

/-- Where keys tell endpoints apart, an endpoint is among the told ones as often as its key. -/
theorem countP_sameEndpoint {told : List NetAddr} {addr : NetAddr}
    (hkeys : ∀ b ∈ told, keyOf sha256 addr = keyOf sha256 b → addr.sameEndpoint b = true) :
    told.countP (addr.sameEndpoint ·) = (told.map (keyOf sha256)).count (keyOf sha256 addr) := by
  rw [List.count, List.countP_map]
  refine List.countP_congr fun b hb => ?_
  rw [Function.comp_apply, beq_iff_eq]
  exact ⟨fun h => (keyOf_congr h).symm, fun h => hkeys b hb h.symm⟩

/-- A queue of valid addresses whose keys tell them apart is told as it should be. -/
theorem relay_undisturbed (hlen : f.addrsToSend.length ≤ kMaxAddrToSend)
    (hvalid : ∀ addr ∈ f.addrsToSend, addr.isValid = true)
    (hkeys : ∀ a ∈ f.addrsToSend, ∀ b ∈ f.addrsToSend,
      keyOf sha256 a = keyOf sha256 b → a.sameEndpoint b = true) :
    ∃ n, ∀ m, n ≤ m → Relayed sha256 f (undisturbed sha256 m (fired f)) := by
  obtain ⟨messages, hsized, hflat, n, hn⟩ := @reaches_finished sha256 f
  have hfew : ([] : List U64).length + f.addrsToSend.length ≤ kMaxKnownAddr :=
    Nat.le_trans (Nat.le_of_eq (Nat.zero_add _)) (Nat.le_trans hlen (by decide))
  obtain ⟨hnodup, -, hlast⟩ := @tell_once sha256 f f.addrsToSend [] hvalid List.nil_suffix hfew
  refine ⟨n, fun m hm => ?_⟩
  have hend : undisturbed sha256 m (fired f) =
      { fired f with
        flooding := (tell sha256 f f.addrsToSend).2.clearSentAddr
        phase := .finished
        messages } := by
    obtain ⟨more, rfl⟩ := Nat.exists_eq_add_of_le hm
    rw [undisturbed_add, hn]
    exact undisturbed_finished rfl more
  have hsub : messages.flatten.Sublist f.addrsToSend := hflat ▸ tell_sublist f f.addrsToSend
  rw [hend]
  refine ⟨rfl, hsized, hsub, fun addr haddr hunknown => ?_, ?_, fun addr haddr => ?_, rfl⟩
  · have hnot : keyOf sha256 addr ∉ f.knownAddrs := by
      rw [← isKnownAddr_iff, hunknown]
      decide
    have hmem := key_mem_tell hvalid haddr hnot
    dsimp only
    rw [countP_sameEndpoint fun b hb => hkeys addr haddr b (hsub.subset hb), hflat]
    exact List.nodup_iff_count_eq_one.mp hnodup _ hmem
  · dsimp only
    rw [hflat]
    refine (List.pairwise_map.mp hnodup).imp fun {a b} hne => ?_
    exact Bool.eq_false_iff.mpr fun hsame => hne (keyOf_congr hsame)
  · dsimp only at haddr
    rw [hflat] at haddr
    refine isKnownAddr_iff.mpr (hlast.mem ?_)
    rw [List.nil_append]
    exact List.mem_map_of_mem haddr

/-- Queued twice, told once. -/
theorem relay_undisturbed_again : ∃ n, ∀ m, n ≤ m →
    Relayed endpointSha256 { addrsToSend := [endpoint, endpoint] }
      (undisturbed endpointSha256 m (fired { addrsToSend := [endpoint, endpoint] })) := by
  have hall : ∀ addr ∈ [endpoint, endpoint], addr = endpoint := by simp
  refine relay_undisturbed (by decide) (fun addr haddr => ?_) fun a ha b hb _ => ?_
  · rw [hall addr haddr]
    decide
  · rw [hall a ha, hall b hb]
    decide

end Results

end AddrRelay
