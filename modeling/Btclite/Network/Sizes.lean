import Btclite.Network.Handlers
import Mathlib.Algebra.BigOperators.Group.List.Defs

/-!
# Declared sizes

Every message class tells its size by a formula of its own, and `SendMsg` sends
nothing that does not have that size. The formulas count texts in full where the
writers cut them.
-/

namespace Sizes

open Endian Serialize Address Messages Nodes Handlers

section Texts

/-- What a text takes when it is written: its length field and its bytes. -/
def textSize (n : Nat) : Nat := varIntSize n + n

theorem textSize_lt {n m : Nat} (h : n < m) : textSize n < textSize m := by
  have hfield := varIntSize_mono (Nat.le_of_lt h)
  simp only [textSize]
  omega

theorem serializeString_cut_length (cap : Nat) (hcap : cap < 2 ^ 64) (s : List Byte) :
    (serializeString (cutTo cap s)).length = textSize (min cap s.length) := by
  have hlen : (cutTo cap s).length = min cap s.length := by
    rw [cutTo_eq_take, List.length_take]
  rw [serializeString_length (by omega), hlen, textSize]

/-- A cut never makes a text longer, and shortens it if it cuts anything off. -/
theorem textSize_cut_le (cap n : Nat) : textSize (min cap n) ≤ textSize n := by
  rcases Nat.lt_or_eq_of_le (Nat.min_le_right cap n) with h | h
  · exact Nat.le_of_lt (textSize_lt h)
  · rw [h]

theorem textSize_cut_eq_iff (cap n : Nat) : textSize (min cap n) = textSize n ↔ n ≤ cap := by
  constructor
  · intro h
    by_contra hlong
    have hless := textSize_lt (show min cap n < n by omega)
    omega
  · intro h
    rw [Nat.min_eq_right h]

end Texts

/-- The vectors of a message have a size that `size_t` holds. -/
def Held : Message → Prop
  | .addr m => m.addrList.length < 2 ^ 64
  | .inv m => m.invVects.length < 2 ^ 64
  | _ => True

/-- No text of the message is longer than its field. -/
def Uncut : Message → Prop
  | .version m => m.userAgent.length ≤ kMaxSubVersionSize
  | .reject m => m.message.length ≤ MessageHeader.kCommandSize ∧
      m.reason.length ≤ kMaxRejectMessageLength
  | _ => True

instance : DecidablePred Uncut
  | .version m => inferInstanceAs (Decidable (m.userAgent.length ≤ kMaxSubVersionSize))
  | .reject m => inferInstanceAs (Decidable (m.message.length ≤ MessageHeader.kCommandSize ∧
      m.reason.length ≤ kMaxRejectMessageLength))
  | .verack | .addr _ | .inv _ | .getaddr | .ping _ | .pong _ | .sendheaders | .sendcmpct _ =>
    isTrue trivial

theorem invVect_length (v : InvVect) : v.serialize.length = v.serializedSize := by
  simp [InvVect.serialize, InvVect.serializedSize, serWriteData]

theorem version_length_iff (m : Version) :
    m.serialize.length = m.serializedSize ↔ m.userAgent.length ≤ kMaxSubVersionSize := by
  have htail : m.serializeTail.length =
      4 + if kRelayedTxsVersion ≤ m.protocolVersion then 1 else 0 := by
    rw [Version.serializeTail]
    split_ifs <;> simp [serWriteData, serWriteBool]
  have hhead : m.serializeHead.length =
      28 + m.addrRecv.serializedSize + m.addrFrom.serializedSize := by
    simp only [Version.serializeHead, serWriteData, List.length_append, toLittleEndian_length,
      NetAddr.serialize_length]
    omega
  have hagent := serializeString_cut_length kMaxSubVersionSize (by decide) m.userAgent
  rw [← textSize_cut_eq_iff, Version.serialize, List.length_append, List.length_append, htail,
    hhead, hagent, Version.serializedSize, textSize, textSize]
  omega

theorem reject_length_iff (m : Reject) :
    m.serialize.length = m.serializedSize ↔ m.message.length ≤ MessageHeader.kCommandSize ∧
      m.reason.length ≤ kMaxRejectMessageLength := by
  have hdata : (if Reject.hasData m.message then m.data.data else []).length =
      if Reject.hasData m.message then 32 else 0 := by
    split_ifs <;> simp
  have hmessage := serializeString_cut_length MessageHeader.kCommandSize (by decide) m.message
  have hreason := serializeString_cut_length kMaxRejectMessageLength (by decide) m.reason
  have hmessageLe := textSize_cut_le MessageHeader.kCommandSize m.message.length
  have hreasonLe := textSize_cut_le kMaxRejectMessageLength m.reason.length
  rw [← textSize_cut_eq_iff MessageHeader.kCommandSize, ← textSize_cut_eq_iff
    kMaxRejectMessageLength, Reject.serialize, List.length_append, List.length_append,
    List.length_append, hdata, hmessage, hreason, Reject.serializedSize]
  simp only [textSize, serWriteData, toLittleEndian_length] at hmessageLe hreasonLe ⊢
  omega

theorem getBlocks_length {m : GetBlocks} (h : m.hashes.length < 2 ^ 64) :
    m.serialize.length = m.serializedSize := by
  have hhashes := serializeVector_length (fun _ => 32) h
    fun (hash : Hash256) _ => hash.length_data
  rw [GetBlocks.serialize, List.length_append, List.length_append, hhashes, List.map_const',
    List.sum_replicate, GetBlocks.serializedSize, nsmul_eq_mul]
  simp only [serWriteData, toLittleEndian_length, Bytes.length_data, Nat.cast_id]
  omega

/-- A message is written in as many bytes as it declares exactly if none of its texts is
cut. -/
theorem length_iff {m : Message} (h : Held m) :
    m.serialize.length = m.serializedSize ↔ Uncut m := by
  cases m with
  | version m => exact version_length_iff m
  | reject m => exact reject_length_iff m
  | addr m =>
    exact iff_of_true (serializeVector_length _ h fun a _ => a.serialize_length) trivial
  | inv m =>
    exact iff_of_true (serializeVector_length _ h fun v _ => invVect_length v) trivial
  | ping m =>
    refine iff_of_true ?_ trivial
    simp only [Message.serialize, Message.serializedSize, Ping.serialize, Ping.serializedSize]
    by_cases hold : m.protocolVersion < kBip31Version
    · rw [if_neg (BitVec.not_le.mpr hold), if_pos hold]
      rfl
    · rw [if_pos (BitVec.not_lt.mp hold), if_neg hold]
      simp [serWriteData]
  | pong m => exact iff_of_true (by simp [Message.serialize, Pong.serialize, serWriteData,
      Message.serializedSize, Pong.serializedSize]) trivial
  | sendcmpct m => exact iff_of_true (by simp [Message.serialize, SendCmpct.serialize,
      serWriteData, serWriteBool, Message.serializedSize, SendCmpct.serializedSize]) trivial
  | verack => exact iff_of_true rfl trivial
  | getaddr => exact iff_of_true rfl trivial
  | sendheaders => exact iff_of_true rfl trivial

section Sending

theorem header_length (h : MessageHeader) : h.serialize.length = MessageHeader.kSize := by
  simp [MessageHeader.serialize, serWriteData, MessageHeader.kSize, MessageHeader.kCommandSize]

/-- The comparison `SendMsg` makes before it writes, whatever header it made. -/
theorem framed_length_iff (h : MessageHeader) (bytes : List Byte) (size : Nat) :
    (h.serialize ++ bytes).length = MessageHeader.kSize + size ↔ bytes.length = size := by
  rw [List.length_append, header_length]
  constructor
  · exact Nat.add_left_cancel
  · intro heq
    rw [heq]

/-- To a peer that takes what is written to it, `SendMsg` sends what has its declared size. -/
theorem sendMsg_iff {env : Env} {m : Message} {w : Work} (hbev : w.node.connection.bev = true)
    (hwritten : env.written m = true) :
    (sendMsg env m w).1 = true ↔ m.serialize.length = m.serializedSize := by
  rw [← framed_length_iff (headerOf env m)]
  by_cases hsize : ((headerOf env m).serialize ++ m.serialize).length =
      MessageHeader.kSize + m.serializedSize
  · refine iff_of_true ?_ hsize
    simp only [sendMsg, bind, StateT.bind, getNode, hbev, Bool.not_true, Bool.false_eq_true,
      if_false, setConnection, setNode, ne_eq, hsize, not_true_eq_false, hwritten, emit]
    rfl
  · refine iff_of_false ?_ hsize
    simp only [sendMsg, bind, StateT.bind, getNode, hbev, Bool.not_true, Bool.false_eq_true,
      if_false, setConnection, setNode, ne_eq, hsize, not_false_eq_true, if_true]
    exact Bool.false_ne_true

end Sending

/-- Every message declares the size it is written in, and is not refused for another, exactly
if no text of it is cut. -/
theorem declared_iff_uncut {m : Message} (hm : Held m) {g : GetBlocks}
    (hg : g.hashes.length < 2 ^ 64) :
    ((m.serialize.length = m.serializedSize ∧
        ∀ env w, w.node.connection.bev = true → env.written m = true →
          (sendMsg env m w).1 = true) ↔ Uncut m) ∧
      g.serialize.length = g.serializedSize ∧
      ∀ header : MessageHeader,
        (header.serialize ++ g.serialize).length = MessageHeader.kSize + g.serializedSize := by
  have hblocks := getBlocks_length hg
  constructor
  · constructor
    · rintro ⟨hsize, -⟩
      exact (length_iff hm).mp hsize
    · intro huncut
      have hsize := (length_iff hm).mpr huncut
      exact ⟨hsize, fun env w hbev hwritten => (sendMsg_iff hbev hwritten).mpr hsize⟩
  · exact ⟨hblocks, fun header => (framed_length_iff header _ _).mpr hblocks⟩

theorem declared_iff_uncut_agent :
    (Message.serialize (.version { userAgent := [0x2f] })).length =
        Message.serializedSize (.version { userAgent := [0x2f] }) ∧
      (GetBlocks.serialize { hashes := [default] }).length =
        GetBlocks.serializedSize { hashes := [default] } := by
  have h := declared_iff_uncut (m := .version { userAgent := [0x2f] }) trivial
    (g := { hashes := [default] }) (by decide)
  exact ⟨(h.1.mpr (by decide)).1, h.2.1⟩

/-- A rejected command of thirteen bytes is written in twelve and declared in full. -/
theorem rejection_refused :
    Message.serializedSize (.reject { message := List.replicate 13 0x61 }) = 16 ∧
      (Message.serialize (.reject { message := List.replicate 13 0x61 })).length = 15 ∧
      (sendMsg (Env.hashing []) (.reject { message := List.replicate 13 0x61 }) .inbound).1 =
        false := by
  decide

end Sizes
