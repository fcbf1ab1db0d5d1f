import Btclite.Consensus.Transactions
import Btclite.Network.RoundTrip

/-!
# What a decoder may make of hostile bytes

A decoder that ends without raising returns an object all of whose bytes come
from the input exactly when the input starts with a canonical encoding. Short
reads go unnoticed, strings end early and flags are normalized, and each of
these shows up as bytes that were not there.
-/

namespace Soundness

open Endian Serialize Agreement Canonical CanonicalVectors Address Messages
open RoundTrip Transactions

/-- How many bytes of a `Version` message follow the user agent. -/
def tailSize (m : Version) : Nat := if kRelayedTxsVersion ≤ m.protocolVersion then 5 else 4

/-- The one input on which bytes are read out of place and written back unchanged: the
three-byte length of the user agent is read over stale bytes, so that the reader takes
the byte behind the agent as well, and everything from that byte on is zero. -/
structure ShiftedAgent (s : Source) (head : Version) (agent tail : List Byte) : Prop where
  layout : s.rest = head.serializeHead ++ (serializeString agent ++ 0#8 :: tail)
  agentLength : 253 ≤ agent.length ∧ agent.length ≤ kMaxSubVersionSize
  agentClean : 0#8 ∉ agent
  dirty : ∃ i < 6, s.memory.stale i ≠ 0#8
  zeros : (tail ++ [s.memory.stale 6]).take (tailSize head) = List.replicate (tailSize head) 0#8

theorem serialRead_word_ok {w : Nat} {s s' : Source} {v : BitVec w}
    (h : serialRead (serReadData w) s = .ok v s') :
    v = fromLittleEndian w (buffer (w / 8) s) ∧ s' = skip (w / 8) s := by
  obtain ⟨⟨v', size⟩, hrun, rfl⟩ := map_ok_iff.mp h
  exact serReadData_ok hrun

theorem deserializeTail_ok {v v' : Version} {s s' : Source}
    (h : Version.deserializeTail v s = .ok v' s') :
    v'.serializeTail = buffer 4 s ++ (if kRelayedTxsVersion ≤ v.protocolVersion then
      serWriteBool ((buffer 1 (skip 4 s)).any (· ≠ 0#8)) else []) := by
  obtain ⟨startHeight, s₁, hstart, h⟩ := bind_ok_iff.mp h
  obtain ⟨rfl, rfl⟩ := serialRead_word_ok hstart
  have hback : serWriteData (fromLittleEndian 32 (buffer (32 / 8) s)) = buffer 4 s :=
    toLittleEndian_fromLittleEndian rfl _ (buffer_length _ _)
  split_ifs at h with hrelay
  · obtain ⟨relay, s₂, hbool, h⟩ := bind_ok_iff.mp h
    obtain ⟨rfl, rfl⟩ := pure_ok_iff.mp h
    obtain ⟨rfl, -⟩ := serReadBool_ok hbool
    simp only [Version.serializeTail, hback, if_pos hrelay]
  · obtain ⟨rfl, rfl⟩ := pure_ok_iff.mp h
    simp only [Version.serializeTail, hback, if_neg hrelay]

/-- What the last fields read out of `t` starts the same bytes moved by one zero byte
exactly when all of it is zero. -/
theorem buffer_shift_iff {t : Source} :
    (buffer 4 t <+: 0#8 :: t.rest ↔
      (t.rest ++ [t.memory.stale 0]).take 4 = List.replicate 4 0#8) ∧
    (buffer 4 t ++ serWriteBool ((buffer 1 (skip 4 t)).any (· ≠ 0#8)) <+: 0#8 :: t.rest ↔
      (t.rest ++ [t.memory.stale 0]).take 5 = List.replicate 5 0#8) := by
  obtain ⟨rest, memory, interrupted⟩ := t
  rcases rest with _ | ⟨a, _ | ⟨b, _ | ⟨c, _ | ⟨d, _ | ⟨e, rest⟩⟩⟩⟩⟩ <;>
    simp [buffer, skip, List.replicate, List.range_succ, serWriteBool]
  all_goals grind

/-- The bytes behind the user agent, seen from the zero byte that ended it. -/
theorem shifted_tail_iff {v v' : Version} {t t' : Source}
    (h : Version.deserializeTail v t = .ok v' t') :
    v'.serializeTail <+: 0#8 :: t.rest ↔
      (t.rest ++ [t.memory.stale 0]).take (tailSize v) = List.replicate (tailSize v) 0#8 := by
  rw [deserializeTail_ok h, tailSize]
  by_cases hrelay : kRelayedTxsVersion ≤ v.protocolVersion
  · simp only [if_pos hrelay]
    exact buffer_shift_iff.2
  · simp only [if_neg hrelay, List.append_nil]
    exact buffer_shift_iff.1

theorem version_prefix_iff {self v : Version} {s s' : Source}
    (h : Version.deserialize self s = .ok v s')
    (huncut : ∀ t s₁, Version.readUserAgent self s = .ok t s₁ → t.length ≤ kMaxSubVersionSize) :
    v.serialize <+: s.rest ↔ (WireFormats.version self (view.cursor s)).isSome ∨
      ∃ head agent tail, ShiftedAgent s head agent tail := by
  obtain ⟨v₁, s₁, hhead, hrun⟩ := bind_ok_iff.mp h
  obtain ⟨agent, s₂, hagent, htail⟩ := bind_ok_iff.mp hrun
  have hcap : agent.length ≤ kMaxSubVersionSize :=
    huncut agent s₂ (bind_ok_iff.mpr ⟨v₁, s₁, hhead, hagent⟩)
  have hsmall : kMaxSubVersionSize < 2 ^ 16 := by decide
  rw [cutTo_of_le hcap] at htail
  obtain ⟨startHeight, relay, rfl⟩ := deserializeTail_frame htail
  have hserialize : Version.serialize { v₁ with userAgent := agent, startHeight, relay } =
      v₁.serializeHead ++ (serializeString agent ++
        Version.serializeTail { v₁ with userAgent := agent, startHeight, relay }) := by
    rw [Version.serialize, cutTo_of_le hcap, List.append_assoc]
    rfl
  constructor
  · intro hpre
    rw [hserialize] at hpre
    have hp₁ := (WireFormats.versionHead_agrees self).accepts hhead
      ((List.prefix_append _ _).trans hpre)
    obtain ⟨t, ht, -, hrest₁⟩ := (WireFormats.versionHead_agrees self).reads hp₁
    rw [hhead] at ht
    cases ht
    simp only [unread_cursor] at hrest₁
    rw [hrest₁] at hpre
    have hpre₁ := (List.prefix_append_right_inj _).mp hpre
    rcases string_cases hagent hcap hsmall ((List.prefix_append _ _).trans hpre₁) with
      ⟨c, hstring⟩ | ⟨hdirty, hrest₂, hmemory⟩
    · left
      obtain ⟨t, ht, rfl, hrest₂, -⟩ := string_reads hstring
      rw [hagent] at ht
      cases ht
      rw [hrest₂] at hpre₁
      have hp₃ := (WireFormats.versionTail_agrees _).accepts htail
        ((List.prefix_append_right_inj _).mp hpre₁)
      have hversion : WireFormats.version self (view.cursor s) =
          some ({ v₁ with userAgent := agent, startHeight, relay }, view.cursor s') :=
        strict_bind_some_iff.mpr ⟨v₁, _, hp₁, strict_bind_some_iff.mpr ⟨agent, _, hstring, hp₃⟩⟩
      simp [hversion]
    · right
      rw [hrest₂] at hpre₁
      have hzeros := (shifted_tail_iff htail).mp ((List.prefix_append_right_inj _).mp hpre₁)
      have hstale : s₁.memory.stale = s.memory.stale := by
        have hcursor := versionHead_append self v₁ s₁.rest s.memory.stale
        rw [← hrest₁] at hcursor
        obtain ⟨t, ht, hcur, -⟩ := (WireFormats.versionHead_agrees self).reads (s := s) hcursor
        rw [hhead] at ht
        injection ht with _ hsame
        subst hsame
        exact congrArg Cursor.stale hcur
      refine ⟨v₁, agent, s₂.rest, ?_, ⟨hdirty.wide.1, hcap⟩, ?_, ?_, ?_⟩
      · rw [← hrest₂, hrest₁]
      · obtain ⟨size, s₃, -, hchars⟩ := deserializeString_ok_iff.mp hagent
        exact (readChars_bounds hchars).1
      · rw [← hstale]
        exact hdirty.dirty
      · rw [hmemory, hstale] at hzeros
        exact hzeros
  · rintro (hstrict | ⟨head, agent', tail, hshift⟩)
    · obtain ⟨⟨u, c⟩, hp⟩ := Option.isSome_iff_exists.mp hstrict
      obtain ⟨t, ht, -, hrest⟩ := version_reads hp
      rw [h] at ht
      cases ht
      exact ⟨c.rest, hrest.symm⟩
    · have hcursor := versionHead_append self head (serializeString agent' ++ 0#8 :: tail)
        s.memory.stale
      rw [← hshift.layout] at hcursor
      obtain ⟨t, ht, hcur, -⟩ := (WireFormats.versionHead_agrees self).reads (s := s) hcursor
      rw [hhead] at ht
      cases ht
      have hrest₁ : s₁.rest = serializeString agent' ++ 0#8 :: tail := congrArg Cursor.rest hcur
      have hstale : s₁.memory.stale = s.memory.stale := congrArg Cursor.stale hcur
      have hdirty : DirtyLength agent' s₁ :=
        ⟨⟨hshift.agentLength.1, by have := hshift.agentLength.2; omega⟩, hstale ▸ hshift.dirty⟩
      obtain ⟨rfl, hrest₂, hmemory⟩ := string_of_dirty hdirty hshift.agentClean hrest₁ hagent
      have hzeros := hshift.zeros
      have hpre : Version.serializeTail _ <+: 0#8 :: s₂.rest := (shifted_tail_iff htail).mpr (by
        rw [hrest₂, hmemory, hstale]
        exact hzeros)
      have hhead' : (headOf self head).serializeHead = head.serializeHead := by
        simp [headOf, Version.serializeHead]
      rw [hserialize, hhead', hshift.layout, ← hrest₂]
      exact (List.prefix_append_right_inj _).mpr ((List.prefix_append_right_inj _).mpr hpre)

/-- For each of the seven types, what is decoded lies in the input if and only if the
input starts with a canonical encoding, or is the shifted `Version` above. -/
theorem decoders_prefix_iff (s : Source) :
    (∀ (self v : Version) (s' : Source), Version.deserialize self s = .ok v s' →
      (∀ t s₁, Version.readUserAgent self s = .ok t s₁ → t.length ≤ kMaxSubVersionSize) →
      (v.serialize <+: s.rest ↔ (WireFormats.version self (view.cursor s)).isSome ∨
        ∃ head agent tail, ShiftedAgent s head agent tail)) ∧
    (∀ (v : Addr) (s' : Source), Addr.deserialize s = .ok v s' →
      (v.serialize <+: s.rest ↔ (WireFormats.addr (view.cursor s)).isSome)) ∧
    (∀ (v : Inv) (s' : Source), Inv.deserialize s = .ok v s' →
      (v.serialize <+: s.rest ↔ (WireFormats.inv (view.cursor s)).isSome)) ∧
    (∀ (self v : Reject) (s' : Source), Reject.deserialize self s = .ok v s' →
      (v.serialize <+: s.rest ↔ (WireFormats.reject self (view.cursor s)).isSome)) ∧
    (∀ (v : GetBlocks) (s' : Source), GetBlocks.deserialize s = .ok v s' →
      (v.serialize <+: s.rest ↔ (WireFormats.getBlocks (view.cursor s)).isSome)) ∧
    (∀ (v : Transaction) (s' : Source), Transaction.deserialize s = .ok v s' →
      (v.serialize <+: s.rest ↔ (transaction (view.cursor s)).isSome)) ∧
    ∀ (v : Block) (s' : Source), Block.deserialize s = .ok v s' →
      (v.serialize <+: s.rest ↔ (block (view.cursor s)).isSome) :=
  ⟨fun _ _ _ h huncut => version_prefix_iff h huncut,
    fun _ _ h => WireFormats.addr_agrees.prefix_iff h,
    fun _ _ h => WireFormats.inv_agrees.prefix_iff h,
    fun self _ _ h => (WireFormats.reject_agrees self).prefix_iff h,
    fun _ _ h => WireFormats.getBlocks_agrees.prefix_iff h,
    fun _ _ h => transaction_agrees.prefix_iff h,
    fun _ _ h => block_agrees.prefix_iff h⟩

def zeroMemory : Memory := ⟨fun _ => 0, fun _ => 0⟩

theorem decoders_prefix_iff_one_entry :
    ∃ v s', Inv.deserialize ⟨0x01 :: List.replicate 36 0x07, zeroMemory, false⟩ = .ok v s' ∧
      (v.serialize <+: 0x01 :: List.replicate 36 0x07 ↔ (WireFormats.inv
        (view.cursor ⟨0x01 :: List.replicate 36 0x07, zeroMemory, false⟩)).isSome) := by
  have hvalue : Deserializer.value Inv.deserialize
      ⟨0x01 :: List.replicate 36 0x07, zeroMemory, false⟩ =
        some ⟨[⟨0x07070707, ⟨List.replicate 32 0x07, rfl⟩⟩]⟩ := by
    decide +kernel
  obtain ⟨s', hrun⟩ := Deserializer.value_eq_some.mp hvalue
  exact ⟨_, s', hrun, (decoders_prefix_iff _).2.2.1 _ s' hrun⟩

/-- An `inv` payload that announces one entry and ends there is decoded all the same. -/
theorem short_inv_accepted :
    Deserializer.value Inv.deserialize ⟨[0x01], zeroMemory, false⟩ =
        some ⟨[⟨0, Bytes.zero 32⟩]⟩ ∧
      ¬ Inv.serialize ⟨[⟨0, Bytes.zero 32⟩]⟩ <+: [0x01] := by
  decide +kernel

end Soundness
