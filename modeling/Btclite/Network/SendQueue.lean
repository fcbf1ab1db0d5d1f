import Btclite.Network.Flooding
import Btclite.Network.Selection

/-!
# The queue of addresses to send

The calls that change the queue of `FloodingAddrs`, in any order and with whatever
is drawn. A full queue is written to at a place that is drawn, and the place behind
its end can be drawn as well.
-/

namespace SendQueue

open Endian Serialize Address Runs Selection Flooding

inductive Fault where
  | outOfRange
deriving DecidableEq

inductive Call where
  | pushAddrToSend (addr : NetAddr) (dis : Distribution)
  | addKnownAddr (addr : NetAddr)
  | clearSentAddr

section Source

variable (sha256 : List Byte → Hash256) (f : FloodingAddrs)

/-- The place that is drawn in the queue. -/
def drawnIndex (dis : Distribution) : Nat :=
  (randUint64 dis (BitVec.ofNat 64 f.addrsToSend.length)).toNat

/-- `PushAddrToSend`, which raises where it writes outside of the queue. -/
def pushAddrToSend (addr : NetAddr) (dis : Distribution) : Except Fault (Bool × FloodingAddrs) :=
  if !addr.isValid || f.isKnownAddr sha256 addr then .ok (false, f)
  else if kMaxAddrToSend ≤ f.addrsToSend.length then
    if drawnIndex f dis < f.addrsToSend.length then
      .ok (true, { f with addrsToSend := f.addrsToSend.set (drawnIndex f dis) addr })
    else .error .outOfRange
  else .ok (true, { f with addrsToSend := f.addrsToSend ++ [addr] })

def call : Call → Except Fault FloodingAddrs
  | .pushAddrToSend addr dis => Prod.snd <$> pushAddrToSend sha256 f addr dis
  | .addKnownAddr addr => .ok (f.addKnownAddr sha256 addr).2
  | .clearSentAddr => .ok f.clearSentAddr

end Source

section Calls

variable (sha256 : List Byte → Hash256)

/-- The next call, unless one has written outside of the queue already. -/
def next (s : Except Fault FloodingAddrs) (c : Call) : Except Fault FloodingAddrs :=
  s.bind fun f => call sha256 f c

theorem next_ok (f : FloodingAddrs) (c : Call) : next sha256 (.ok f) c = call sha256 f c := rfl

/-- All addresses but one at most are still there. -/
def DisplacesAtMostOne (before after : List NetAddr) : Prop :=
  ∃ lost : List NetAddr, lost.length ≤ 1 ∧ before.Subperm (lost ++ after)

/-- The call returns, the queue has room for what is in it, and what was pushed is in it. -/
def Sound (s : Except Fault FloodingAddrs) (c : Call) : Prop :=
  ∃ f f', s = .ok f ∧ call sha256 f c = .ok f' ∧
    f.addrsToSend.length ≤ kMaxAddrToSend ∧ f'.addrsToSend.length ≤ kMaxAddrToSend ∧
    ∀ addr dis, c = .pushAddrToSend addr dis → pushAddrToSend sha256 f addr dis = .ok (true, f') →
      addr ∈ f'.addrsToSend ∧ DisplacesAtMostOne f.addrsToSend f'.addrsToSend

/-- Where the call overwrites an address, it has not drawn the length of the queue. -/
def DrawsInside (s : Except Fault FloodingAddrs) (c : Call) : Prop :=
  ∀ f addr dis, s = .ok f → c = .pushAddrToSend addr dis → addr.isValid = true →
    f.isKnownAddr sha256 addr = false → kMaxAddrToSend ≤ f.addrsToSend.length →
    drawnIndex f dis ≠ f.addrsToSend.length

end Calls

section Steps

variable {sha256 : List Byte → Hash256} {f : FloodingAddrs} {addr : NetAddr} {dis : Distribution}

theorem drawnIndex_le (hlen : f.addrsToSend.length ≤ kMaxAddrToSend) :
    drawnIndex f dis ≤ f.addrsToSend.length := by
  have hle := randUint64_le dis (BitVec.ofNat 64 f.addrsToSend.length)
  have hsmall : f.addrsToSend.length < 2 ^ 64 := Nat.lt_of_le_of_lt hlen (by decide)
  rw [BitVec.le_def, BitVec.toNat_ofNat, Nat.mod_eq_of_lt hsmall] at hle
  exact hle

/-- What a push that returns has done is what the callback takes it to do. -/
theorem pushAddrToSend_eq {r : Bool × FloodingAddrs}
    (h : pushAddrToSend sha256 f addr dis = .ok r) :
    r = f.pushAddrToSend sha256 addr (drawnIndex f dis) := by
  rw [pushAddrToSend] at h
  rw [FloodingAddrs.pushAddrToSend]
  split_ifs at h ⊢ <;> cases h <;> rfl

theorem displacesAtMostOne_append (l : List NetAddr) (a : NetAddr) :
    DisplacesAtMostOne l (l ++ [a]) :=
  ⟨[], Nat.zero_le _, (List.sublist_append_left l [a]).subperm⟩

/-- Only what stood in the place is displaced. -/
theorem displacesAtMostOne_set {l : List NetAddr} {i : Nat} (hi : i < l.length) (a : NetAddr) :
    DisplacesAtMostOne l (l.set i a) := by
  refine ⟨[l[i]], Nat.le_refl _, ?_⟩
  have hold : l.Perm (l[i] :: l.eraseIdx i) := (List.getElem_cons_eraseIdx_perm hi).symm
  have hnew : (a :: l.eraseIdx i).Perm (l.set i a) := (List.set_perm_cons_eraseIdx hi a).symm
  have hrest : (l.eraseIdx i).Subperm (l.set i a) :=
    (List.sublist_cons_self a _).subperm.trans hnew.subperm
  exact hold.subperm.trans ((List.subperm_cons l[i]).mpr hrest)

/-- A push, by what it finds: an address it refuses, a full queue, or room. -/
theorem push_cases (sha256 : List Byte → Hash256) (f : FloodingAddrs) (addr : NetAddr)
    (dis : Distribution) :
    (¬ (addr.isValid = true ∧ f.isKnownAddr sha256 addr = false) ∧
      pushAddrToSend sha256 f addr dis = .ok (false, f)) ∨
    ((addr.isValid = true ∧ f.isKnownAddr sha256 addr = false) ∧
      ((kMaxAddrToSend ≤ f.addrsToSend.length ∧ drawnIndex f dis < f.addrsToSend.length ∧
        pushAddrToSend sha256 f addr dis =
          .ok (true, { f with addrsToSend := f.addrsToSend.set (drawnIndex f dis) addr })) ∨
      (kMaxAddrToSend ≤ f.addrsToSend.length ∧ f.addrsToSend.length ≤ drawnIndex f dis ∧
        pushAddrToSend sha256 f addr dis = .error .outOfRange) ∨
      (f.addrsToSend.length < kMaxAddrToSend ∧ pushAddrToSend sha256 f addr dis =
        .ok (true, { f with addrsToSend := f.addrsToSend ++ [addr] })))) := by
  rw [pushAddrToSend]
  by_cases hgood : addr.isValid = true ∧ f.isKnownAddr sha256 addr = false
  · right
    refine ⟨hgood, ?_⟩
    rw [if_neg (by simp [hgood])]
    by_cases hfull : kMaxAddrToSend ≤ f.addrsToSend.length
    · rw [if_pos hfull]
      by_cases hin : drawnIndex f dis < f.addrsToSend.length
      · rw [if_pos hin]
        exact Or.inl ⟨hfull, hin, rfl⟩
      · rw [if_neg hin]
        exact Or.inr (Or.inl ⟨hfull, Nat.not_lt.mp hin, rfl⟩)
    · rw [if_neg hfull]
      exact Or.inr (Or.inr ⟨Nat.not_le.mp hfull, rfl⟩)
  · left
    refine ⟨hgood, if_pos ?_⟩
    rw [Bool.or_eq_true, Bool.not_eq_true']
    by_contra hnot
    rw [not_or] at hnot
    exact hgood ⟨Bool.eq_true_of_not_eq_false hnot.1, Bool.eq_false_iff.mpr hnot.2⟩

/-- A push on a queue within its bound. -/
theorem push_sound (hlen : f.addrsToSend.length ≤ kMaxAddrToSend) (addr : NetAddr)
    (dis : Distribution) :
    Sound sha256 (.ok f) (.pushAddrToSend addr dis) ↔
      DrawsInside sha256 (.ok f) (.pushAddrToSend addr dis) := by
  have hreturns : ∀ {b f'}, pushAddrToSend sha256 f addr dis = .ok (b, f') →
      f'.addrsToSend.length ≤ kMaxAddrToSend →
      (b = true → addr ∈ f'.addrsToSend ∧ DisplacesAtMostOne f.addrsToSend f'.addrsToSend) →
      Sound sha256 (.ok f) (.pushAddrToSend addr dis) := by
    intro b f' hpush hlen' hpushed
    refine ⟨f, f', rfl, by rw [call, hpush]; rfl, hlen, hlen', fun a d hc hret => ?_⟩
    cases hc
    rw [hpush] at hret
    cases hret
    exact hpushed rfl
  rcases push_cases sha256 f addr dis with
    ⟨hbad, hpush⟩ | ⟨hgood, ⟨hfull, hin, hpush⟩ | ⟨hfull, hout, hpush⟩ | ⟨hroom, hpush⟩⟩
  · refine iff_of_true (hreturns hpush hlen (fun h => Bool.noConfusion h)) ?_
    intro g a d hs hc hvalid hknown
    cases hs
    cases hc
    exact absurd ⟨hvalid, hknown⟩ hbad
  · refine iff_of_true (hreturns hpush ?_ fun _ => ⟨?_, displacesAtMostOne_set hin addr⟩) ?_
    · rw [List.length_set]
      exact hlen
    · exact List.mem_set hin addr
    · intro g a d hs hc _ _ _
      cases hs
      cases hc
      exact Nat.ne_of_lt hin
  · refine iff_of_false ?_ fun hinside => ?_
    · rintro ⟨g, g', hs, hcall, -⟩
      cases hs
      rw [call, hpush] at hcall
      cases hcall
    · have heq := Nat.le_antisymm (drawnIndex_le hlen) hout
      exact hinside f addr dis rfl rfl hgood.1 hgood.2 hfull heq
  · refine iff_of_true (hreturns hpush ?_ fun _ => ⟨?_, displacesAtMostOne_append _ addr⟩) ?_
    · rw [List.length_append]
      exact hroom
    · exact List.mem_append_right _ (List.mem_singleton_self addr)
    · intro g a d hs hc _ _ hfull
      cases hs
      exact absurd hfull (Nat.not_le.mpr hroom)

/-- Any call on a queue within its bound returns and leaves it so, unless it draws the length of
the queue for an address that it overwrites. -/
theorem call_sound (hlen : f.addrsToSend.length ≤ kMaxAddrToSend) (c : Call) :
    Sound sha256 (.ok f) c ↔ DrawsInside sha256 (.ok f) c := by
  cases c with
  | pushAddrToSend addr dis => exact push_sound hlen addr dis
  | addKnownAddr addr =>
    have hsame : (f.addKnownAddr sha256 addr).2.addrsToSend = f.addrsToSend := by
      rw [FloodingAddrs.addKnownAddr]
      split_ifs <;> rfl
    refine iff_of_true ⟨f, _, rfl, rfl, hlen, hsame ▸ hlen, fun a d hc => ?_⟩ fun g a d _ hc => ?_
    · cases hc
    · cases hc
  | clearSentAddr =>
    refine iff_of_true ⟨f, _, rfl, rfl, hlen, Nat.zero_le _, fun a d hc => ?_⟩ fun g a d _ hc => ?_
    · cases hc
    · cases hc

end Steps

section Runs

variable {sha256 : List Byte → Hash256}

/-- In every run of calls the queue stays within its bound and is written to inside, exactly if
no call that overwrites an address draws the length of the queue. -/
theorem sound_iff_drawsInside (calls : List Call) :
    Throughout (next sha256) (Sound sha256) (.ok {}) calls ↔
      Throughout (next sha256) (DrawsInside sha256) (.ok {}) calls := by
  refine throughout_congr
    (P := fun s => ∃ f, s = .ok f ∧ f.addrsToSend.length ≤ kMaxAddrToSend) ?_ ?_ ?_
  · exact ⟨{}, rfl, Nat.zero_le _⟩
  · rintro s c - ⟨f, f', rfl, hcall, -, hlen, -⟩
    exact ⟨f', hcall, hlen⟩
  · rintro s c ⟨f, rfl, hlen⟩
    exact call_sound hlen c

end Runs

section Examples

/-- Always draws the largest number. -/
def largest : Distribution := ⟨id, fun max => BitVec.le_refl max⟩

/-- With nothing known, one address can be pushed until the queue is full. -/
theorem run_replicate {n : Nat} (hn : n ≤ kMaxAddrToSend) :
    (List.replicate n (Call.pushAddrToSend endpoint largest)).foldl (next endpointSha256) (.ok {}) =
      .ok { addrsToSend := List.replicate n endpoint } := by
  induction n with
  | zero => rfl
  | succ n ih =>
    have hroom : (List.replicate n endpoint).length < kMaxAddrToSend := by
      rw [List.length_replicate]
      exact hn
    rw [List.replicate_succ', List.foldl_concat, ih (Nat.le_of_succ_le hn), List.replicate_succ']
    rcases push_cases endpointSha256 { addrsToSend := List.replicate n endpoint } endpoint
      largest with ⟨hbad, -⟩ | ⟨-, ⟨hfull, -, -⟩ | ⟨hfull, -, -⟩ | ⟨-, hpush⟩⟩
    · exact absurd ⟨by decide, rfl⟩ hbad
    · exact absurd hroom (Nat.not_lt.mpr hfull)
    · exact absurd hroom (Nat.not_lt.mpr hfull)
    · rw [next_ok, call, hpush]
      rfl

/-- The address that comes to the full queue is written behind its end. -/
theorem full_queue_not_sound :
    ¬ Throughout (next endpointSha256) (Sound endpointSha256) (.ok {})
      (List.replicate (kMaxAddrToSend + 1) (.pushAddrToSend endpoint largest)) := by
  intro h
  rw [List.replicate_succ'] at h
  have hlast := throughout_iff_forall.mp h _ _ List.prefix_rfl
  rw [run_replicate (Nat.le_refl _)] at hlast
  have hlen : (List.replicate kMaxAddrToSend endpoint).length = kMaxAddrToSend :=
    List.length_replicate
  have hdrawn := (call_sound hlen.le _).mp hlast _ endpoint largest rfl rfl (by decide) rfl hlen.ge
  refine hdrawn ?_
  rw [drawnIndex, hlen]
  rfl

end Examples

end SendQueue
