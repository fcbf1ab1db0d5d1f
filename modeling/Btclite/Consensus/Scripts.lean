import Btclite.Library.Loops
import Btclite.Utility.Serialize
import Mathlib.Data.Nat.Digits.Lemmas

/-!
# Scripts

`Push` writes an opcode, or bytes behind the shortest of four prefixes that announce
their number. `Pop` reads from a position in the script and never outside of it. But
what reads the bytes leaves the position in front of them, so that they are read again
as opcodes, and items come back only where their prefixes alone make up the script.
-/

namespace Scripts

open Loops Endian Serialize

/-- An `Opcode` is any byte. -/
abbrev Opcode := Byte

def op0 : Opcode := 0x00
def opPushdata1 : Opcode := 0x4c
def opPushdata2 : Opcode := 0x4d
def opPushdata4 : Opcode := 0x4e

/-- Reading behind the end, or what was never written. -/
inductive Fault where
  | outOfRange
  | uninitialized
deriving DecidableEq

section Pushing

/-- What `Push` puts in front of so many bytes. -/
def pushPrefix (size : Nat) : List Byte :=
  if size < opPushdata1.toNat then [BitVec.ofNat 8 size]
  else if size ≤ 0xff then [opPushdata1, BitVec.ofNat 8 size]
  else if size ≤ 0xffff then opPushdata2 :: toLittleEndian 2 (BitVec.ofNat 16 size)
  else opPushdata4 :: toLittleEndian 4 (BitVec.ofNat 32 size)

def pushBytes (data b : List Byte) : List Byte := data ++ pushPrefix b.length ++ b

def pushOpcode (data : List Byte) (code : Opcode) : List Byte := data ++ [code]

end Pushing

section Popping

variable (data : List Byte)

/-- The byte at a position, and so many from there. -/
def byteAt (pc : Nat) : Except Fault Byte :=
  match data[pc]? with
  | some b => .ok b
  | none => .error .outOfRange

def bytesAt (pc size : Nat) : Except Fault (List Byte) :=
  if pc + size ≤ data.length then .ok ((data.drop pc).take size) else .error .outOfRange

/-- `Pop` of an opcode: what is returned, and the position after it. -/
def popOpcode (pc : Nat) : Except Fault (Option Opcode × Nat) :=
  if data.length ≤ pc then .ok (none, pc)
  else do
    let code ← byteAt data pc
    pure (some code, pc + 1)

/-- A length of `size` bytes, if they are there. -/
def popWide (w size pc : Nat) : Except Fault (Option U32 × Nat) :=
  if data.length < pc + size then .ok (none, pc)
  else do
    let low ← bytesAt data pc size
    pure (some ((fromLittleEndian w low).setWidth 32), pc + size)

/-- The number of bytes that follow, read from the prefix. -/
def popSize (pc : Nat) (code : Opcode) : Except Fault (Option U32 × Nat) :=
  if code < opPushdata1 then .ok (some (code.setWidth 32), pc)
  else if code = opPushdata1 then do
    let size ← byteAt data pc
    pure (some (size.setWidth 32), pc + 1)
  else if code = opPushdata2 then popWide data 16 2 pc
  else if code = opPushdata4 then popWide data 32 4 pc
  else .error .uninitialized

/-- `Pop` of the bytes behind an opcode. They are copied, and the position stays there. -/
def popBytes (pc : Nat) (code : Opcode) : Except Fault (Option (List Byte) × Nat) :=
  if data.length ≤ pc then .ok (none, pc)
  else if code = op0 ∨ opPushdata4 < code then .ok (none, pc)
  else do
    let (size, pc) ← popSize data pc code
    match size with
    | none => pure (none, pc)
    | some size =>
      if data.length < pc + size.toNat then pure (none, pc)
      else do
        let out ← bytesAt data pc size.toNat
        pure (some out, pc)

end Popping

section Bounds

/-- How many bytes of a prefix follow an opcode. -/
def prefixSize (code : Opcode) : Nat :=
  if code < opPushdata1 then 0
  else if code = opPushdata1 then 1
  else if code = opPushdata2 then 2
  else 4

/-- The length that an opcode and the bytes of its prefix declare. -/
def declared (data : List Byte) (pc : Nat) (code : Opcode) : Nat :=
  if code < opPushdata1 then code.toNat
  else Nat.ofDigits 256 (((data.drop pc).take (prefixSize code)).map BitVec.toNat)

/-- What `Pop` of bytes may do: stay inside, and return the slice that was declared. -/
structure Pops (data : List Byte) (pc : Nat) (code : Opcode) (out : Option (List Byte))
    (pc' : Nat) : Prop where
  forward : pc ≤ pc'
  inside : pc' ≤ data.length
  slice : ∀ b, out = some b → pc' = pc + prefixSize code ∧
    b.length = declared data pc code ∧ ∃ rest, data = data.take pc' ++ b ++ rest

variable {data : List Byte} {pc : Nat} {code : Opcode}

theorem byteAt_ok (h : pc < data.length) : byteAt data pc = .ok data[pc] := by
  rw [byteAt, List.getElem?_eq_getElem h]

theorem bytesAt_ok {size : Nat} (h : pc + size ≤ data.length) :
    bytesAt data pc size = .ok ((data.drop pc).take size) := if_pos h

theorem popOpcode_inside (hpc : pc ≤ data.length) :
    ∃ out pc', popOpcode data pc = .ok (out, pc') ∧ pc ≤ pc' ∧ pc' ≤ data.length := by
  rw [popOpcode]
  split_ifs with hend
  · exact ⟨none, pc, rfl, Nat.le_refl pc, hpc⟩
  · have hin : pc < data.length := Nat.lt_of_not_le hend
    rw [byteAt_ok hin]
    exact ⟨some data[pc], pc + 1, rfl, Nat.le_succ pc, hin⟩

theorem prefixSize_of_lt (h : code < opPushdata1) : prefixSize code = 0 := if_pos h

theorem declared_of_le (h : ¬ code < opPushdata1) : declared data pc code =
    Nat.ofDigits 256 (((data.drop pc).take (prefixSize code)).map BitVec.toNat) := if_neg h

/-- A prefix may end early, but then nothing of it is read. -/
theorem popWide_inside {w size : Nat} (hpc : pc ≤ data.length) (hw : 8 * size ≤ w)
    (hw' : w ≤ 32) : ∃ n pc', popWide data w size pc = .ok (n, pc') ∧ pc ≤ pc' ∧
      pc' ≤ data.length ∧ ∀ m, n = some m → pc' = pc + size ∧
        m.toNat = Nat.ofDigits 256 (((data.drop pc).take size).map BitVec.toNat) := by
  rw [popWide]
  split_ifs with hend
  · exact ⟨none, pc, rfl, Nat.le_refl pc, hpc, fun m h => by cases h⟩
  · rw [bytesAt_ok (Nat.le_of_not_lt hend)]
    refine ⟨_, pc + size, rfl, Nat.le_add_right pc size, Nat.le_of_not_lt hend, ?_⟩
    rintro m ⟨⟩
    have hlen : 8 * ((data.drop pc).take size).length ≤ w := by
      rw [List.length_take]
      omega
    have hlt : (fromLittleEndian w ((data.drop pc).take size)).toNat < 2 ^ 32 :=
      (BitVec.isLt _).trans_le (Nat.pow_le_pow_right (by decide) hw')
    rw [BitVec.toNat_setWidth, Nat.mod_eq_of_lt hlt, fromLittleEndian_toNat hlen]
    exact ⟨rfl, rfl⟩

theorem popSize_cases (hcode : ¬ opPushdata4 < code) : code < opPushdata1 ∨
    code = opPushdata1 ∨ code = opPushdata2 ∨ code = opPushdata4 := by
  have h1 : opPushdata1.toNat = 76 := rfl
  have h2 : opPushdata2.toNat = 77 := rfl
  have h4 : opPushdata4.toNat = 78 := rfl
  rw [BitVec.lt_def, Nat.not_lt] at hcode
  rw [BitVec.lt_def, BitVec.toNat_eq, BitVec.toNat_eq, BitVec.toNat_eq]
  omega

/-- The prefix is read if it is there, and is the number that it declares. -/
theorem popSize_inside (hpc : pc < data.length) (hcode : ¬ opPushdata4 < code) :
    ∃ size pc', popSize data pc code = .ok (size, pc') ∧ pc ≤ pc' ∧ pc' ≤ data.length ∧
      ∀ n, size = some n → pc' = pc + prefixSize code ∧ n.toNat = declared data pc code := by
  rcases popSize_cases hcode with hshort | rfl | rfl | rfl
  · refine ⟨_, pc, if_pos hshort, Nat.le_refl pc, hpc.le, ?_⟩
    rintro n ⟨⟩
    rw [prefixSize_of_lt hshort, declared, if_pos hshort, BitVec.toNat_setWidth]
    exact ⟨rfl, Nat.mod_eq_of_lt (code.isLt.trans (by decide))⟩
  · have hrun : popSize data pc opPushdata1 = .ok (some (data[pc].setWidth 32), pc + 1) := by
      change (do
        let size ← byteAt data pc
        pure (some (size.setWidth 32), pc + 1)) = _
      rw [byteAt_ok hpc]
      rfl
    refine ⟨_, pc + 1, hrun, Nat.le_succ pc, hpc, ?_⟩
    rintro n ⟨⟩
    refine ⟨rfl, ?_⟩
    rw [declared_of_le (by decide), show prefixSize opPushdata1 = 1 from rfl,
      List.take_one_drop_eq_of_lt_length hpc, BitVec.toNat_setWidth,
      Nat.mod_eq_of_lt (data[pc].isLt.trans (by decide))]
    exact Nat.ofDigits_singleton.symm
  · exact popWide_inside hpc.le (by decide) (by decide)
  · exact popWide_inside hpc.le (by decide) (by decide)

theorem popBytes_pops (hpc : pc ≤ data.length) (code : Opcode) :
    ∃ out pc', popBytes data pc code = .ok (out, pc') ∧ Pops data pc code out pc' := by
  have hstay : Pops data pc code none pc := ⟨Nat.le_refl pc, hpc, fun b h => by cases h⟩
  rw [popBytes]
  split_ifs with hend hcode
  · exact ⟨none, pc, rfl, hstay⟩
  · exact ⟨none, pc, rfl, hstay⟩
  rcases popSize_inside (Nat.lt_of_not_le hend) (not_or.mp hcode).2 with
    ⟨size, pc₁, hrun, hforward, hinside, hsize⟩
  rw [hrun]
  dsimp only [bind, Except.bind]
  have hfail : Pops data pc code none pc₁ := ⟨hforward, hinside, fun b h => by cases h⟩
  cases size with
  | none => exact ⟨none, pc₁, rfl, hfail⟩
  | some size =>
    dsimp only
    split_ifs with hover
    · exact ⟨none, pc₁, rfl, hfail⟩
    · have hroom : pc₁ + size.toNat ≤ data.length := Nat.le_of_not_lt hover
      rw [bytesAt_ok hroom]
      refine ⟨_, pc₁, rfl, hforward, hinside, ?_⟩
      rintro b ⟨⟩
      obtain ⟨hplace, hdeclared⟩ := hsize size rfl
      have hlength : ((data.drop pc₁).take size.toNat).length = size.toNat := by
        rw [List.length_take, List.length_drop]
        omega
      refine ⟨hplace, hlength.trans hdeclared, (data.drop pc₁).drop size.toNat, ?_⟩
      rw [List.append_assoc, List.take_append_drop, List.take_append_drop]

/-- Neither `Pop` reads behind the end or moves out of the script. -/
theorem pop_inside (hpc : pc ≤ data.length) (code : Opcode) :
    (∃ out pc', popOpcode data pc = .ok (out, pc') ∧ pc ≤ pc' ∧ pc' ≤ data.length) ∧
      ∃ out pc', popBytes data pc code = .ok (out, pc') ∧ Pops data pc code out pc' :=
  ⟨popOpcode_inside hpc, popBytes_pops hpc code⟩

/-- A script that ends within the bytes that its prefix declares. -/
theorem pop_inside_truncated :
    (∃ out pc', popOpcode [0x4c, 5, 1] 1 = .ok (out, pc') ∧ 1 ≤ pc' ∧ pc' ≤ 3) ∧
      ∃ out pc', popBytes [0x4c, 5, 1] 1 opPushdata1 = .ok (out, pc') ∧
        Pops [0x4c, 5, 1] 1 opPushdata1 out pc' :=
  @pop_inside [0x4c, 5, 1] 1 (by decide) opPushdata1

end Bounds

section RoundTrips

inductive Item where
  | code (code : Opcode)
  | bytes (b : List Byte)
deriving DecidableEq

namespace Item

/-- Opcodes that announce no bytes, and bytes that a length can announce. -/
def Pushable : Item → Prop
  | code c => opPushdata4 < c
  | bytes b => b.length < 2 ^ 32

/-- What stands in front of the bytes of an item. -/
def head : Item → List Byte
  | code c => [c]
  | bytes b => pushPrefix b.length

def content : Item → List Byte
  | code _ => []
  | bytes b => b

/-- What `Pop` takes to stand in front of the bytes of an item: any prefix that declares as
many of them. -/
def Announces : Item → List Byte → Prop
  | code c, head => opPushdata4 < c ∧ head = [c]
  | bytes b, head => (b = [] ∧ head = [op0]) ∨ ∃ code p, head = code :: p ∧ code ≠ op0 ∧
      ¬ opPushdata4 < code ∧ p.length = prefixSize code ∧ declared p 0 code = b.length

def encode (item : Item) : List Byte := item.head ++ item.content

end Item

def push (data : List Byte) : Item → List Byte
  | .code c => pushOpcode data c
  | .bytes b => pushBytes data b

/-- Items pushed onto an empty script. -/
def script (items : List Item) : List Byte := items.foldl push []

/-- An opcode is read, and its bytes if there are to be any. -/
def popItem (data : List Byte) (pc : Nat) : Except Fault (Option Item × Nat) := do
  let (code, pc) ← popOpcode data pc
  match code with
  | none => pure (none, pc)
  | some code =>
    if code = op0 then pure (some (.bytes []), pc)
    else if opPushdata4 < code then pure (some (.code code), pc)
    else do
      let (b, pc) ← popBytes data pc code
      pure (b.map .bytes, pc)

def popItems (data : List Byte) : Nat → Nat → Except Fault (Option (List Item) × Nat)
  | 0, pc => pure (some [], pc)
  | n + 1, pc => do
    let (item, pc) ← popItem data pc
    match item with
    | none => pure (none, pc)
    | some item => do
      let (rest, pc) ← popItems data n pc
      pure (rest.map (item :: ·), pc)

/-- The items come back in their order, and the script is at its end with them. -/
def RoundTrips (items : List Item) : Prop :=
  popItems (script items) items.length 0 = .ok (some items, (script items).length)

/-- The bytes are prefixes alone, one for each item in turn, and what stands behind each of
them begins with the bytes of its item. -/
def Recut : List Item → List Byte → Prop
  | [], bytes => bytes = []
  | item :: items, bytes => ∃ head rest, bytes = head ++ rest ∧ item.Announces head ∧
      item.content <+: rest ∧ Recut items rest

variable {items : List Item} {item : Item} {pre rest bytes : List Byte}

theorem push_eq (data : List Byte) (item : Item) : push data item = data ++ item.encode := by
  cases item with
  | code c => rfl
  | bytes b => exact List.append_assoc _ _ _

theorem foldl_push (data : List Byte) (items : List Item) :
    items.foldl push data = data ++ items.flatMap Item.encode := by
  induction items generalizing data with
  | nil => exact (List.append_nil data).symm
  | cons item rest ih =>
    rw [List.foldl_cons, ih, push_eq, List.append_assoc, List.flatMap_cons]

theorem script_eq (items : List Item) : script items = items.flatMap Item.encode :=
  (foldl_push [] items).trans (List.nil_append _)

theorem byteAt_append (pre rest : List Byte) (b : Byte) :
    byteAt (pre ++ b :: rest) pre.length = .ok b := by
  rw [byteAt, List.getElem?_append_right (Nat.le_refl _), Nat.sub_self]
  rfl

theorem bytesAt_append (pre b rest : List Byte) :
    bytesAt (pre ++ b ++ rest) pre.length b.length = .ok b := by
  have hroom : pre.length + b.length ≤ (pre ++ b ++ rest).length := by
    simp only [List.length_append]
    omega
  rw [bytesAt_ok hroom, List.append_assoc, List.drop_left, List.take_left]

theorem popOpcode_append (pre rest : List Byte) (code : Opcode) :
    popOpcode (pre ++ code :: rest) pre.length = .ok (some code, pre.length + 1) := by
  have hin : ¬ (pre ++ code :: rest).length ≤ pre.length := by simp
  rw [popOpcode, if_neg hin, byteAt_append]
  rfl

theorem popWide_append {w size : Nat} {p : List Byte} (hp : p.length = size)
    (pre rest : List Byte) : popWide (pre ++ p ++ rest) w size pre.length =
      .ok (some ((fromLittleEndian w p).setWidth 32), pre.length + size) := by
  have hroom : ¬ (pre ++ p ++ rest).length < pre.length + size := by
    simp only [List.length_append]
    omega
  have hread := bytesAt_append pre p rest
  rw [hp] at hread
  rw [popWide, if_neg hroom, hread]
  rfl

theorem declared_append {code : Opcode} {p : List Byte} (hp : p.length = prefixSize code)
    (pre rest : List Byte) :
    declared (pre ++ p ++ rest) pre.length code = declared p 0 code := by
  rw [declared, declared, List.append_assoc, List.drop_left, ← hp, List.take_left, List.drop_zero,
    List.take_length]

theorem declared_of_length {code : Opcode} {p : List Byte} (hlong : ¬ code < opPushdata1)
    (hp : p.length = prefixSize code) :
    declared p 0 code = Nat.ofDigits 256 (p.map BitVec.toNat) := by
  rw [declared_of_le hlong, List.drop_zero, ← hp, List.take_length]

/-- The bytes of a prefix are read if they are there. -/
theorem popSize_append {code : Opcode} {p : List Byte} (hcode : ¬ opPushdata4 < code)
    (hp : p.length = prefixSize code) (pre rest : List Byte) :
    ∃ n, popSize (pre ++ p ++ rest) pre.length code = .ok (some n, pre.length + p.length) := by
  rcases popSize_cases hcode with hshort | rfl | rfl | rfl
  · rw [prefixSize_of_lt hshort] at hp
    rw [hp]
    exact ⟨_, if_pos hshort⟩
  · obtain ⟨b, rfl⟩ := List.length_eq_one_iff.mp hp
    refine ⟨b.setWidth 32, ?_⟩
    change (do
      let size ← byteAt (pre ++ [b] ++ rest) pre.length
      pure (some (size.setWidth 32), pre.length + 1)) = _
    rw [List.append_assoc, List.singleton_append, byteAt_append]
    rfl
  · rw [hp]
    exact ⟨_, popWide_append hp pre rest⟩
  · rw [hp]
    exact ⟨_, popWide_append hp pre rest⟩

/-- The bytes behind a prefix are read, and left to be read again. -/
theorem popBytes_append {b p : List Byte} {code : Opcode} (hzero : code ≠ op0)
    (hcode : ¬ opPushdata4 < code) (hp : p.length = prefixSize code)
    (hb : declared p 0 code = b.length) (pre rest : List Byte) :
    popBytes (pre ++ p ++ (b ++ rest)) pre.length code =
      .ok (some b, pre.length + p.length) := by
  have hpos : 0 < p.length + b.length := by
    by_cases hshort : code < opPushdata1
    · have hne : code.toNat ≠ 0 := fun h0 => hzero (BitVec.eq_of_toNat_eq h0)
      rw [declared, if_pos hshort] at hb
      omega
    · have hprefix : 0 < prefixSize code := by
        rw [prefixSize, if_neg hshort]
        split_ifs <;> decide
      omega
  have hin : pre.length < (pre ++ p ++ (b ++ rest)).length := by
    simp only [List.length_append]
    omega
  obtain ⟨n, hrun⟩ := popSize_append hcode hp pre (b ++ rest)
  have hn : n.toNat = b.length := by
    obtain ⟨size, pc, hrun', -, -, hdeclared⟩ := popSize_inside hin hcode
    cases hrun.symm.trans hrun'
    rw [(hdeclared n rfl).2, declared_append hp, hb]
  have hroom : ¬ (pre ++ p ++ (b ++ rest)).length < pre.length + p.length + b.length := by
    simp only [List.length_append]
    omega
  have hread := bytesAt_append (pre ++ p) b rest
  rw [List.length_append, List.append_assoc] at hread
  rw [popBytes, if_neg (Nat.not_le_of_lt hin), if_neg (not_or.mpr ⟨hzero, hcode⟩), hrun]
  dsimp only [bind, Except.bind]
  rw [hn, if_neg hroom, hread]
  rfl

/-- A prefix reads an item if its bytes follow, and the position is then in front of them. -/
theorem popItem_append {head : List Byte} (h : item.Announces head) (pre rest : List Byte) :
    popItem (pre ++ head ++ (item.content ++ rest)) pre.length =
      .ok (some item, pre.length + head.length) := by
  cases item with
  | code c =>
    obtain ⟨habove, rfl⟩ := h
    have hzero : c ≠ op0 := by
      rintro rfl
      exact absurd habove (by decide)
    rw [List.append_assoc, List.singleton_append, popItem, popOpcode_append]
    dsimp only [bind, Except.bind]
    rw [if_neg hzero, if_pos habove]
    rfl
  | bytes b =>
    obtain ⟨rfl, rfl⟩ | ⟨code, p, rfl, hzero, hcode, hp, hb⟩ := h
    · rw [List.append_assoc, List.singleton_append, popItem, popOpcode_append]
      rfl
    have hread := popBytes_append hzero hcode hp hb (pre ++ [code]) rest
    have hsplit : pre ++ code :: p ++ ((Item.bytes b).content ++ rest) =
        pre ++ code :: (p ++ (b ++ rest)) := by
      rw [Item.content]
      simp
    have hsplit' : pre ++ code :: (p ++ (b ++ rest)) = pre ++ [code] ++ p ++ (b ++ rest) := by simp
    rw [List.length_append, List.length_singleton, ← hsplit'] at hread
    rw [hsplit, popItem, popOpcode_append]
    dsimp only [bind, Except.bind]
    rw [if_neg hzero, if_neg hcode, hread, List.length_cons]
    dsimp only [pure, Except.pure]
    rw [Nat.add_assoc, Nat.add_comm 1]
    rfl

/-- And only so is an item read. -/
theorem popItem_some {pc : Nat} (h : popItem (pre ++ bytes) pre.length = .ok (some item, pc)) :
    ∃ head rest, bytes = head ++ rest ∧ item.Announces head ∧ item.content <+: rest ∧
      pc = pre.length + head.length := by
  cases bytes with
  | nil =>
    rw [List.append_nil, popItem, popOpcode, if_pos (Nat.le_refl _)] at h
    cases h
  | cons code tail =>
    rw [popItem, popOpcode_append] at h
    dsimp only [bind, Except.bind] at h
    split_ifs at h with hzero habove
    · cases h
      exact ⟨[op0], tail, by rw [hzero]; rfl, .inl ⟨rfl, rfl⟩, List.nil_prefix, rfl⟩
    · cases h
      exact ⟨[code], tail, rfl, ⟨habove, rfl⟩, List.nil_prefix, rfl⟩
    have hin : pre.length + 1 ≤ (pre ++ code :: tail).length := by
      rw [List.length_append, List.length_cons]
      omega
    obtain ⟨out, pc', hrun, -, hinside, hslice⟩ := popBytes_pops hin code
    rw [hrun] at h
    cases out with
    | none => cases h
    | some b =>
      cases h
      obtain ⟨rfl, hb, rest, hdata⟩ := hslice b rfl
      have hlen : prefixSize code ≤ tail.length := by
        rw [List.length_append, List.length_cons] at hinside
        omega
      have hp : (tail.take (prefixSize code)).length = prefixSize code := by
        rw [List.length_take]
        omega
      have hsplit : pre ++ code :: tail =
          pre ++ [code] ++ tail.take (prefixSize code) ++ tail.drop (prefixSize code) := by
        simp
      have hplace : pre.length + 1 = (pre ++ [code]).length := by simp
      refine ⟨code :: tail.take (prefixSize code), tail.drop (prefixSize code), by simp,
        .inr ⟨code, _, rfl, hzero, habove, hp, ?_⟩, ⟨rest, ?_⟩, ?_⟩
      · rw [hb, hsplit, hplace, declared_append hp]
      · have hbehind : (pre ++ code :: tail).drop (pre.length + 1 + prefixSize code) =
            tail.drop (prefixSize code) := by
          rw [hsplit, hplace]
          refine List.drop_left' ?_
          rw [List.length_append, hp]
        rw [← hbehind, hdata, List.append_assoc]
        refine (List.drop_left' ?_).symm
        rw [List.length_take, Nat.min_eq_left hinside]
      · rw [List.length_cons, hp]
        omega

/-- The prefix that is pushed announces its item. -/
theorem announces_head (h : item.Pushable) : item.Announces item.head := by
  cases item with
  | code c => exact ⟨h, rfl⟩
  | bytes b =>
    rcases b.eq_nil_or_concat with rfl | ⟨front, last, hb⟩
    · exact .inl ⟨rfl, rfl⟩
    have hpos : 0 < b.length := by
      rw [hb]
      simp
    have hlen : b.length < 2 ^ 32 := h
    have hbyte : b.length < 256 → (BitVec.ofNat 8 b.length).toNat = b.length := fun hsmall =>
      (BitVec.toNat_ofNat _ _).trans (Nat.mod_eq_of_lt hsmall)
    have hfirst : opPushdata1.toNat = 76 := rfl
    have hwide : ∀ size : Nat, b.length < 2 ^ (8 * size) → Nat.ofDigits 256
        ((toLittleEndian size (BitVec.ofNat (8 * size) b.length)).map BitVec.toNat) =
          b.length := by
      intro size hsize
      rw [← fromLittleEndian_toNat (w := 8 * size) (by rw [toLittleEndian_length]),
        fromLittleEndian_toLittleEndian rfl, BitVec.toNat_ofNat, Nat.mod_eq_of_lt hsize]
    refine .inr ?_
    rw [Item.head, pushPrefix, hfirst]
    split_ifs with hshort hone htwo
    · have hcode := hbyte (hshort.trans (by decide))
      have hlow : BitVec.ofNat 8 b.length < opPushdata1 := by
        rwa [BitVec.lt_def, hcode, hfirst]
      refine ⟨BitVec.ofNat 8 b.length, [], rfl, ?_, ?_, (prefixSize_of_lt hlow).symm, ?_⟩
      · intro hzero
        rw [hzero] at hcode
        exact hpos.ne hcode
      · rw [BitVec.lt_def, hcode, Nat.not_lt]
        exact hshort.le.trans (by decide)
      · rw [declared, if_pos hlow, hcode]
    · refine ⟨opPushdata1, _, rfl, by decide, by decide, rfl, ?_⟩
      exact (Nat.ofDigits_singleton).trans (hbyte (Nat.lt_succ_of_le hone))
    · refine ⟨opPushdata2, _, rfl, by decide, by decide, toLittleEndian_length _ _, ?_⟩
      exact (declared_of_length (by decide) (toLittleEndian_length _ _)).trans (hwide 2 (by omega))
    · refine ⟨opPushdata4, _, rfl, by decide, by decide, toLittleEndian_length _ _, ?_⟩
      exact (declared_of_length (by decide) (toLittleEndian_length _ _)).trans (hwide 4 hlen)

/-- Its prefix reads an item back, and leaves the position in front of the bytes. -/
theorem popItem_push (h : item.Pushable) (pre rest : List Byte) :
    popItem (pre ++ item.encode ++ rest) pre.length =
      .ok (some item, pre.length + item.head.length) := by
  have hread := popItem_append (announces_head h) pre rest
  rwa [← List.append_assoc, List.append_assoc pre] at hread

/-- What comes back are the items exactly if the bytes are their prefixes alone. -/
theorem popItems_iff_recut (items : List Item) (pre bytes : List Byte) :
    popItems (pre ++ bytes) items.length pre.length =
      .ok (some items, (pre ++ bytes).length) ↔ Recut items bytes := by
  induction items generalizing pre bytes with
  | nil =>
    rw [List.length_nil, popItems, List.length_append, Recut]
    constructor
    · intro h
      have hend := congrArg Prod.snd (Except.ok.inj h)
      exact List.length_eq_zero_iff.mp (Nat.left_eq_add.mp hend)
    · rintro rfl
      rfl
  | cons item items ih =>
    rw [List.length_cons, popItems, Recut]
    constructor
    · intro h
      obtain ⟨⟨_ | item', pc⟩, hitem, h⟩ := bind_eq_ok.mp h
      · cases h
      obtain ⟨⟨_ | items', pc'⟩, hitems, h⟩ := bind_eq_ok.mp h
      · cases h
      cases h
      obtain ⟨head, rest, rfl, hannounces, hcontent, rfl⟩ := popItem_some hitem
      rw [← List.length_append, ← List.append_assoc] at hitems
      exact ⟨head, rest, rfl, hannounces, hcontent, (ih _ _).mp hitems⟩
    · rintro ⟨head, rest, rfl, hannounces, ⟨behind, rfl⟩, hrecut⟩
      have hitem := popItem_append hannounces pre behind
      have hitems := (ih (pre ++ head) _).mpr hrecut
      rw [List.length_append] at hitems
      rw [← List.append_assoc, hitem]
      dsimp only [bind, Except.bind]
      rw [hitems]
      rfl

/-- Items without bytes are read one after another. -/
theorem popItems_bare {done out : List Item} {data : List Byte} {n pc : Nat}
    (hpush : ∀ item ∈ done, item.Pushable) (hbare : ∀ item ∈ done, item.content = [])
    (hdata : data = pre ++ script done ++ rest)
    (hread : popItems data n (pre ++ script done).length = .ok (some out, pc)) :
    popItems data (done.length + n) pre.length = .ok (some (done ++ out), pc) := by
  induction done generalizing pre with
  | nil =>
    rw [script_eq, List.flatMap_nil, List.append_nil] at hread
    rwa [List.length_nil, Nat.zero_add]
  | cons item done ih =>
    rw [List.forall_mem_cons] at hpush hbare
    have hsplit : pre ++ script (item :: done) = pre ++ item.encode ++ script done := by
      rw [script_eq, script_eq, List.flatMap_cons, List.append_assoc]
    rw [hsplit] at hdata hread
    have hlength : (pre ++ item.encode).length = pre.length + item.head.length := by
      rw [Item.encode, hbare.1, List.append_nil, List.length_append]
    have hitem := popItem_push hpush.1 pre (script done ++ rest)
    rw [← List.append_assoc, ← hdata, ← hlength] at hitem
    have hrest := ih hpush.2 hbare.2 hdata hread
    rw [List.length_cons, Nat.succ_add, popItems, hitem]
    dsimp only [bind, Except.bind]
    rw [hrest]
    rfl

theorem roundTrips_of_bare (hpush : ∀ item ∈ items, item.Pushable)
    (hbare : ∀ item ∈ items, item.content = []) : RoundTrips items := by
  have hread := @popItems_bare [] [] items [] (script items) 0 (script items).length hpush hbare
    (List.append_nil _).symm rfl
  rwa [List.append_nil] at hread

/-- Behind items without bytes, the position does not move over the bytes of the next. -/
theorem RoundTrips.last_bare {done : List Item} (h : RoundTrips (done ++ [item]))
    (hpush : ∀ item ∈ done, item.Pushable) (hbare : ∀ item ∈ done, item.content = [])
    (hitem : item.Pushable) : item.content = [] := by
  have hscript : script (done ++ [item]) = script done ++ item.encode := by
    rw [script_eq, script_eq, List.flatMap_append, List.flatMap_singleton]
  have hlast : popItems (script (done ++ [item])) 1 ([] ++ script done).length =
      .ok (some [item], (script done).length + item.head.length) := by
    have hpop := popItem_push hitem (script done) []
    rw [List.append_nil] at hpop
    rw [hscript, List.nil_append, popItems, hpop]
    rfl
  have hread := popItems_bare hpush hbare (hscript.trans rfl) hlast
  rw [RoundTrips, List.length_append, List.length_singleton] at h
  have hend := congrArg Prod.snd (Except.ok.inj (h.symm.trans hread))
  rw [hscript, List.length_append, Item.encode, List.length_append] at hend
  exact List.length_eq_zero_iff.mp (by omega)

theorem roundTrips_iff_recut : RoundTrips items ↔ Recut items (script items) :=
  popItems_iff_recut items [] (script items)

/-- What is pushed can be read back at every time exactly if nothing with bytes is pushed. -/
theorem prefixes_iff_bare (hpush : ∀ item ∈ items, item.Pushable) :
    (∀ done, done <+: items → RoundTrips done) ↔ ∀ item ∈ items, item.content = [] := by
  constructor
  · intro h
    induction items using List.reverseRecOn with
    | nil => exact fun item hmem => absurd hmem List.not_mem_nil
    | append_singleton done item ih =>
      rw [List.forall_mem_append] at hpush ⊢
      have hbare := ih hpush.1 fun part hpart => h part (hpart.trans (List.prefix_append _ _))
      have hlast := (h _ (List.prefix_refl _)).last_bare hpush.1 hbare
        (hpush.2 item (List.mem_singleton_self item))
      refine ⟨hbare, fun item' hmem => ?_⟩
      rwa [List.mem_singleton.mp hmem]
  · intro hbare done hdone
    exact roundTrips_of_bare (fun item hmem => hpush item (hdone.subset hmem))
      fun item hmem => hbare item (hdone.subset hmem)

/-- Items come back exactly if the script happens to be their prefixes alone, as it is without
bytes, and as it cannot be each time another item with bytes is pushed. -/
theorem roundTrips_exact (hpush : ∀ item ∈ items, item.Pushable) :
    (RoundTrips items ↔ Recut items (script items)) ∧
      ((∀ done, done <+: items → RoundTrips done) ↔ ∀ item ∈ items, item.content = []) :=
  ⟨roundTrips_iff_recut, prefixes_iff_bare hpush⟩

theorem roundTrips_exact_checkSig :
    (RoundTrips [.bytes [], .code 0xac] ↔ Recut [.bytes [], .code 0xac] [0, 0xac]) ∧
      ((∀ done, done <+: [.bytes [], .code 0xac] → RoundTrips done) ↔
        ∀ item ∈ [.bytes [], .code 0xac], Item.content item = []) := by
  refine roundTrips_exact fun item hmem => ?_
  rcases List.mem_cons.mp hmem with rfl | hmem
  · exact (by decide : 0 < 2 ^ 32)
  · rw [List.mem_singleton.mp hmem]
    exact (by decide : opPushdata4 < 0xac)

/-- Pushed bytes are read, and then the first of them as an opcode. -/
theorem bytes_reread : script [.bytes [0xab], .code 0xac] = [1, 0xab, 0xac] ∧
    popItems (script [.bytes [0xab], .code 0xac]) 2 0 =
      .ok (some [.bytes [0xab], .code 0xab], 2) ∧
    ¬ RoundTrips [.bytes [0xab], .code 0xac] := by
  refine ⟨rfl, rfl, fun h => ?_⟩
  have hread := congrArg Prod.snd (Except.ok.inj h)
  exact absurd hread (by decide)

/-- A length that was pushed as bytes may happen to be read as that of the next item. -/
example : RoundTrips [.bytes [0x4c], .bytes []] := rfl

end RoundTrips

end Scripts
