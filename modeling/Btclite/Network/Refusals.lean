import Btclite.Network.MsgProcess

/-!
# Payloads that raise

The one thing a decoder refuses is a length field: not in its shortest form, or
larger than any data may be. Everything else is read to the end, whatever is
there. So a decoder raises exactly where one of its length fields is refused.
-/

namespace Refusals

open Endian Serialize Agreement Canonical CanonicalVectors Address Messages Nodes MsgProcess

/-- The length that starts here is one `SerReadVarInt` throws at. -/
def LengthRefused (s : Source) : Prop :=
  ∃ n least, varIntForm (firstByte s) = some (n, least) ∧
    (wideValue n (skip 1 s) < least ∨ kMaxVardataSize < wideValue n (skip 1 s))

theorem lengthRefused_congr {s t : Source} (h : view.cursor s = view.cursor t) :
    LengthRefused s ↔ LengthRefused t := by
  obtain ⟨rest, ⟨stale, returned⟩, interrupted⟩ := s
  obtain ⟨rest', ⟨stale', returned'⟩, interrupted'⟩ := t
  simp only [view, Cursor.mk.injEq] at h
  obtain ⟨rfl, rfl⟩ := h
  rfl

theorem serReadVarInt_raises_iff (s : Source) : Raises serReadVarInt s ↔ LengthRefused s := by
  rw [Raises, serReadVarInt_run, LengthRefused]
  cases hform : varIntForm (firstByte s) with
  | none => simp
  | some form =>
    obtain ⟨n, least⟩ := form
    by_cases h1 : wideValue n (skip 1 s) < least
    · simp [h1]
    · by_cases h2 : kMaxVardataSize < wideValue n (skip 1 s) <;> simp [h1, h2]

/-- A reader of a fixed number of bytes. It returns whether they are there or not. -/
def Advances {A : Type} (n : Nat) (r : Deserializer A) : Prop :=
  ∀ s, ∃ v s', r s = .ok v s' ∧ view.cursor s' = view.cursor (skip n s)

namespace Advances

variable {A B : Type} {m n : Nat}

theorem total {r : Deserializer A} (h : Advances n r) : Total r := by
  intro s
  obtain ⟨v, s', hr, -⟩ := h s
  exact ⟨v, s', hr⟩

theorem skip_skip (s : Source) : skip n (skip m s) = skip (m + n) s := by
  have hlen : m - s.rest.length + (n - (s.rest.length - m)) = m + n - s.rest.length := by omega
  have hstale : ∀ i, s.memory.stale (m - s.rest.length + (n - (s.rest.length - m) + i)) =
      s.memory.stale (m + n - s.rest.length + i) := fun i => by
    rw [← hlen, Nat.add_assoc]
  simp [skip, hstale]

theorem cursor_skip_congr {s t : Source} (h : view.cursor s = view.cursor t) :
    view.cursor (skip n s) = view.cursor (skip n t) := by
  simp only [view, Cursor.mk.injEq] at h
  simp only [view, skip, h]

theorem pure (a : A) : Advances 0 (pure a : Deserializer A) := fun s =>
  ⟨a, s, rfl, by simp [view, skip]⟩

theorem bind {r : Deserializer A} {k : A → Deserializer B} (hr : Advances m r)
    (hk : ∀ a, Advances n (k a)) : Advances (m + n) (r >>= k) := by
  intro s
  obtain ⟨a, s₁, h1, hcur⟩ := hr s
  obtain ⟨b, s₂, h2, hcur'⟩ := hk a s₁
  refine ⟨b, s₂, bind_ok_iff.mpr ⟨a, s₁, h1, h2⟩, ?_⟩
  rw [hcur', cursor_skip_congr hcur, skip_skip]

theorem map {r : Deserializer A} (f : A → B) (hr : Advances n r) : Advances n (f <$> r) := by
  intro s
  obtain ⟨a, s₁, h1, hcur⟩ := hr s
  exact ⟨f a, s₁, map_ok_iff.mpr ⟨a, h1, rfl⟩, hcur⟩

theorem of_silent {r : Deserializer A} (h : Silent view r) : Advances 0 r := by
  intro s
  obtain ⟨v, s', hr, hcur⟩ := h s
  exact ⟨v, s', hr, hcur.trans (by simp [view, skip])⟩

theorem word (w : Nat) : Advances (w / 8) (serialRead (serReadData w)) := fun s => by
  obtain ⟨size, hrun⟩ := serReadData_run w s
  exact ⟨_, _, map_ok_iff.mpr ⟨_, hrun, rfl⟩, rfl⟩

theorem array (n : Nat) : Advances n (deserializeArray n) := by
  induction n with
  | zero => exact pure _
  | succ n ih =>
    have hbyte : Advances 1 (serReadData 8) := fun s =>
      ⟨_, _, (serReadData_run 8 s).choose_spec, rfl⟩
    have hall : Advances (1 + n) (deserializeArray (n + 1)) :=
      bind hbyte fun _ => bind ih fun _ => pure _
    exact Nat.add_comm 1 n ▸ hall

theorem member {r : Deserializer A} (h : Advances n r) :
    Advances n (serialRead (deserializeMember r)) :=
  map _ (bind h fun _ => bind (of_silent drawReturned_silent) fun _ => pure _)

theorem netAddr : Advances 30 NetAddr.deserialize :=
  bind (word 32) fun _ => bind (word 64) fun _ => bind (map _ (array 16)) fun _ =>
    bind (word 16) fun _ => pure _

theorem invVect : Advances 36 InvVect.deserialize :=
  bind (word 32) fun _ => bind (map _ (array 32)) fun _ => pure _

theorem versionHead (self : Version) : Advances 88 (Version.deserializeHead self) :=
  bind (word 32) fun _ => bind (word 64) fun _ => bind (word 64) fun _ =>
    bind (member netAddr) fun _ => bind (member netAddr) fun _ => bind (word 64) fun _ => pure _

end Advances

section Total

variable {A : Type}

theorem serReadBool_total : Total serReadBool := by
  intro s
  obtain ⟨size, hrun⟩ := readData_run 1 s
  exact ⟨_, _, bind_ok_iff.mpr ⟨_, _, hrun, rfl⟩⟩

theorem deserializeMember_total {member : Deserializer A} (h : Total member) :
    Total (deserializeMember member) :=
  Total.bind h fun _ => Total.bind (Total.of_silent drawReturned_silent) fun _ => Total.pure _

theorem readChar_total (c : Option Byte) : Total (readChar c) := by
  intro s
  cases hs : s.rest with
  | cons b rest => exact ⟨b, _, readChar_cons hs⟩
  | nil =>
    cases c with
    | some c => exact ⟨c, s, readChar_nil_some hs⟩
    | none =>
      have hread : Source.read 1 s = .ok ([], -1) s := by simp [Source.read, hs]
      exact ⟨_, _, bind_ok_iff.mpr ⟨_, _, hread, rfl⟩⟩

theorem readChars_total (n : Nat) (c : Option Byte) : Total (readChars n c) := by
  induction n generalizing c with
  | zero => exact Total.pure _
  | succ n ih =>
    refine Total.bind (readChar_total c) fun b => ?_
    exact Total.ite (Total.pure _) (Total.bind (ih (some b)) fun _ => Total.pure _)

theorem vectorElements_total {element : Deserializer (A × U64)} (h : Total element)
    {check : U64 → Deserializer Unit} (hcheck : ∀ size, Total (check size)) (n : Nat)
    (size : U64) : Total (vectorElements element check n size) := by
  induction n generalizing size with
  | zero => exact Total.pure _
  | succ n ih =>
    refine Total.bind h fun _ => Total.bind (hcheck _) fun _ => ?_
    exact Total.bind (ih _) fun _ => Total.pure _

end Total

section Raises

variable {A B : Type}

/-- Only the first part of a reader can raise. -/
theorem raises_bind_total {r : Deserializer A} {k : A → Deserializer B} {s : Source}
    (hk : ∀ a, Total (k a)) : Raises (r >>= k) s ↔ Raises r s := by
  rw [raises_bind_iff]
  constructor
  · rintro (h | ⟨a, s', -, h⟩)
    · exact h
    · exact absurd h ((hk a).not_raises s')
  · exact Or.inl

theorem serialRead_raises_iff {r : Deserializer (A × U64)} {s : Source} :
    Raises (serialRead r) s ↔ Raises r s := raises_map_iff

theorem deserializeString_raises_iff (s : Source) :
    Raises (serialRead deserializeString) s ↔ LengthRefused s := by
  rw [serialRead_raises_iff, ← serReadVarInt_raises_iff]
  exact raises_bind_total fun size => Total.bind (readChars_total _ _) fun _ => Total.pure _

theorem deserializeClassVector_raises_iff {element : Deserializer (A × U64)}
    (h : Total element) (s : Source) :
    Raises (serialRead (deserializeClassVector element)) s ↔ LengthRefused s := by
  rw [serialRead_raises_iff, ← serReadVarInt_raises_iff]
  exact raises_bind_total fun count => vectorElements_total h
    (fun size => Total.of_silent (interruptAbove_silent _ size)) _ _

end Raises

section Decoders

theorem addr_raises_iff (s : Source) : Raises Addr.deserialize s ↔ LengthRefused s := by
  rw [← deserializeClassVector_raises_iff (deserializeMember_total Advances.netAddr.total)]
  exact raises_bind_total fun _ => Total.pure _

theorem inv_raises_iff (s : Source) : Raises Inv.deserialize s ↔ LengthRefused s := by
  rw [← deserializeClassVector_raises_iff (deserializeMember_total Advances.invVect.total)]
  exact raises_bind_total fun _ => Total.pure _

theorem deserializeTail_total (self : Version) : Total (Version.deserializeTail self) := by
  refine Total.bind (Advances.word 32).total fun _ => Total.ite ?_ (Total.pure _)
  exact Total.bind (Total.map _ serReadBool_total) fun _ => Total.pure _

/-- The length of the user agent comes after eighty-eight bytes of other fields. -/
theorem version_raises_iff (self : Version) (s : Source) :
    Raises (Version.deserialize self) s ↔ LengthRefused (skip 88 s) := by
  obtain ⟨v, s₁, hhead, hcur⟩ := Advances.versionHead self s
  have hrest : ∀ v s', Version.deserializeHead self s = .ok v s' →
      (Raises (do
        let userAgent ← serialRead deserializeString
        Version.deserializeTail { v with userAgent := cutTo kMaxSubVersionSize userAgent } :
          Deserializer Version) s' ↔ LengthRefused (skip 88 s)) := by
    intro v' s' h
    rw [hhead] at h
    cases h
    rw [raises_bind_total fun _ => deserializeTail_total _, deserializeString_raises_iff]
    exact lengthRefused_congr hcur
  rw [Version.deserialize, raises_bind_iff]
  constructor
  · rintro (h | ⟨v', s', h, hraises⟩)
    · exact absurd h ((Advances.versionHead self).total.not_raises s)
    · exact (hrest v' s' h).mp hraises
  · exact fun h => Or.inr ⟨v, s₁, hhead, (hrest v s₁ hhead).mpr h⟩

/-- The first length is that of the message name; the second, of the reason, comes one
byte after it. -/
theorem reject_raises_iff (self : Reject) (s : Source) :
    Raises (Reject.deserialize self) s ↔ LengthRefused s ∨
      ∃ message s', serialRead deserializeString s = .ok message s' ∧
        LengthRefused (skip 1 s') := by
  have hdata : ∀ (message reason : List Byte) (ccode : Byte), Total
      (if Reject.hasData message then do
        let data ← serialRead (deserializeArray 32)
        pure { message, ccode, reason, data }
      else pure { message, ccode, reason, data := self.data } : Deserializer Reject) :=
    fun _ _ _ => Total.ite
      (Total.bind (Total.map _ (Advances.array 32).total) fun _ => Total.pure _) (Total.pure _)
  rw [Reject.deserialize, raises_bind_iff, deserializeString_raises_iff]
  refine or_congr Iff.rfl (exists_congr fun message => exists_congr fun s' =>
    and_congr Iff.rfl ?_)
  obtain ⟨ccode, s₂, hword, hcur⟩ := Advances.word 8 s'
  rw [raises_bind_iff]
  constructor
  · rintro (h | ⟨c, s₃, h, hraises⟩)
    · exact absurd h ((Advances.word 8).total.not_raises s')
    · rw [hword] at h
      cases h
      rw [raises_bind_total fun _ => hdata _ _ _, deserializeString_raises_iff] at hraises
      exact (lengthRefused_congr hcur).mp hraises
  · intro h
    refine Or.inr ⟨ccode, s₂, hword, ?_⟩
    rw [raises_bind_total fun _ => hdata _ _ _, deserializeString_raises_iff]
    exact (lengthRefused_congr hcur).mpr h

/-- Where the payload of a message has a length field that is refused. -/
def Refused (command : List Byte) (s : Source) : Prop :=
  (command = kMsgVersion ∧ LengthRefused (skip 88 s)) ∨
    ((command = kMsgAddr ∨ command = kMsgInv) ∧ LengthRefused s) ∨
    (command = kMsgReject ∧ (LengthRefused s ∨ ∃ message s',
      serialRead deserializeString s = .ok message s' ∧ LengthRefused (skip 1 s')))

theorem not_refused {command : List Byte} (s : Source) (h1 : command ≠ kMsgVersion)
    (h2 : command ≠ kMsgAddr) (h3 : command ≠ kMsgInv) (h4 : command ≠ kMsgReject) :
    ¬ Refused command s := by
  simp only [Refused, h1, h2, h3, h4, false_and, or_self, not_false_eq_true]

theorem decoder_raises_iff {command : List Byte} {protocolVersion : U32}
    {decode : Deserializer Message}
    (h : Message.decoder command protocolVersion = some decode) (s : Source) :
    Raises decode s ↔ Refused command s := by
  have hva : kMsgVersion ≠ kMsgAddr := by decide
  have hvi : kMsgVersion ≠ kMsgInv := by decide
  have hvr : kMsgVersion ≠ kMsgReject := by decide
  have har : kMsgAddr ≠ kMsgReject := by decide
  have hir : kMsgInv ≠ kMsgReject := by decide
  -- the classes without a length to read
  have htotal : ∀ {command : List Byte} {r : Deserializer Message}, Total r →
      (command ≠ kMsgVersion ∧ command ≠ kMsgAddr ∧ command ≠ kMsgInv ∧ command ≠ kMsgReject) →
      (Raises r s ↔ Refused command s) := fun hr ⟨h1, h2, h3, h4⟩ =>
    iff_of_false (hr.not_raises s) (not_refused s h1 h2 h3 h4)
  cases Message.decodes_of_decoder h with
  | version =>
    rw [raises_map_iff, version_raises_iff]
    simp only [Refused, hva, hvi, hvr, true_and, false_and, or_self, or_false]
  | addr =>
    rw [raises_map_iff, addr_raises_iff]
    simp only [Refused, hva.symm, har, true_and, false_and, true_or, false_or, or_false]
  | inv =>
    rw [raises_map_iff, inv_raises_iff]
    simp only [Refused, hvi.symm, hir, true_and, false_and, or_true, false_or, or_false]
  | reject =>
    rw [raises_map_iff, reject_raises_iff]
    simp only [Refused, hvr.symm, har.symm, hir.symm, true_and, false_and, or_self, false_or]
  | verack => exact htotal (Total.pure _) (by decide)
  | getaddr => exact htotal (Total.pure _) (by decide)
  | sendheaders => exact htotal (Total.pure _) (by decide)
  | ping =>
    refine htotal (Total.map _ (Total.ite ?_ (Total.pure _))) (by decide)
    exact Total.bind (Advances.word 64).total fun _ => Total.pure _
  | pong =>
    refine htotal (Total.map _ ?_) (by decide)
    exact Total.bind (Advances.word 64).total fun _ => Total.pure _
  | sendcmpct =>
    refine htotal (Total.map _ (Total.bind (Total.map _ serReadBool_total) fun _ => ?_)) (by decide)
    exact Total.bind (Advances.word 64).total fun _ => Total.pure _

theorem decoder_of_refused {command : List Byte} {s : Source} (h : Refused command s)
    (protocolVersion : U32) :
    ∃ decode, Message.decoder command protocolVersion = some decode := by
  rcases h with ⟨rfl, -⟩ | ⟨rfl | rfl, -⟩ | ⟨rfl, -⟩ <;> exact ⟨_, rfl⟩

/-- `ParseMsgData` ends with an exception exactly when the header is valid and its
command's payload has a length that is refused. -/
theorem decoded_error_iff (env : Env) (header : MessageHeader) (raw : List Byte) (node : Node) :
    (∃ failure s, decoded env header raw node = some (.error failure s)) ↔
      header.isValid 0 = true ∧ Refused header.command ⟨raw, env.memory, false⟩ := by
  rw [decoded]
  cases hvalid : header.isValid 0 with
  | false => simp
  | true =>
    cases hdecoder : Message.decoder header.command node.protocolVersion with
    | none =>
      have hnot : ¬ Refused header.command ⟨raw, env.memory, false⟩ := by
        intro h
        obtain ⟨decode, hsome⟩ := decoder_of_refused h node.protocolVersion
        rw [hdecoder] at hsome
        cases hsome
      simp [hnot]
    | some decode =>
      rw [← decoder_raises_iff hdecoder]
      simp [Raises]

end Decoders

section Consumption

/-- A pass over a well-formed message leaves just what follows it in the buffer, if and
only if it has no payload or none of its lengths is refused. -/
theorem parseMsgPass_consumes_iff (env : Env) (m : WireMessage) (h : m.WellFormed env.msgMagic)
    (w : Work) (rest : List Byte) :
    (parseMsgPass env m.header.serialize ⟨w, m.wire ++ rest⟩).2.input = rest ↔
      m.payload = [] ∨ ¬ (m.header.isValid 0 = true ∧
        Refused m.header.command ⟨m.payload, env.memory, false⟩) := by
  rw [parseMsgPass_wire h, ← decoded_error_iff env m.header m.payload w.node]
  obtain ⟨w₁, -, -, hcases⟩ := parseMsgData_cases env m.header m.payload w
  rcases hcases with ⟨hd, hrun⟩ | ⟨failure, s, hd, hrun⟩ | ⟨msg, s, hd, hrun⟩
  · simp [hd, hrun]
  · simp [hd, hrun]
  · simp [hd, hrun]

/-- An `inv` whose length field says four billion entries in the wrong form. -/
def refusedInv : WireMessage where
  header :=
    { magic := kTestnetMagic
      commandBytes := MessageHeader.paddedCommand kMsgInv
      payloadLength := 9 }
  payload := 0xff :: List.replicate 8 0x00
  payload_length := rfl

theorem parseMsgPass_consumes_iff_inv :
    (parseMsgPass (.alone default) refusedInv.header.serialize
        ⟨Work.inbound, refusedInv.wire ++ []⟩).2.input = [] ↔
      refusedInv.payload = [] ∨ ¬ (refusedInv.header.isValid 0 = true ∧
        Refused refusedInv.header.command
          ⟨refusedInv.payload, (Env.alone default).memory, false⟩) :=
  parseMsgPass_consumes_iff (.alone default) refusedInv ⟨rfl, by decide⟩ Work.inbound []

/-- Its payload stays in the buffer, where the next header is looked for. -/
theorem refused_inv_left_in_buffer :
    refusedInv.WellFormed kTestnetMagic ∧
      (parseMsgPass (.alone default) refusedInv.header.serialize
        ⟨Work.inbound, refusedInv.wire ++ []⟩).2.input = refusedInv.payload ∧
      refusedInv.payload ≠ [] := by
  refine ⟨⟨rfl, by decide⟩, ?_, by decide⟩
  decide +kernel

end Consumption

end Refusals
