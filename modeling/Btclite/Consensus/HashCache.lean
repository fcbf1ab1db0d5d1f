import Btclite.Consensus.Transactions
import Btclite.Library.Runs
import Mathlib.Data.List.Infix
import Mathlib.Data.Set.Function
import Mathlib.Logic.Function.Basic

/-!
# Hash cache

A `Transaction` object keeps its hash beside the fields it is a hash of. The
setters and assignments reset it. `Deserialize` and being moved from do not, and
every constructor but the default one first reads the cache it has not set.
-/

namespace HashCache

open Endian Serialize Agreement Transactions Runs

section Filling

/-- `Deserialize` into an object that has values already. When it raises, what it has filled
by then stays filled. -/
abbrev Filler (A X : Type) : Type := EStateM Failure (A × Source) X

/-- A reader that touches the object only when it has its value. -/
def whole {A X : Type} (read : Deserializer (A × X)) : Filler A X := fun p =>
  match read p.2 with
  | .ok (v, x) s => .ok x (v, s)
  | .error failure s => .error failure (p.1, s)

/-- `SerialRead` of a member. -/
def part {A B : Type} (get : B → A) (set : A → B → B) (fill : Filler A U64) : Filler B Unit :=
  fun p => match fill (get p.1, p.2) with
  | .ok _ (v, s) => .ok () (set v p.1, s)
  | .error failure (v, s) => .error failure (set v p.1, s)

/-- The default `Deserialize`, which returns nothing. -/
def member {A : Type} (fill : Filler A Unit) : Filler A U64 := fun p =>
  match fill p with
  | .ok _ (v, s) => whole ((v, ·) <$> drawReturned) (v, s)
  | .error failure p => .error failure p

def fillElements {A : Type} (fill : Filler A U64) :
    List A → U64 → Source → EStateM.Result Failure (List A × Source) U64
  | [], size, s => .ok size ([], s)
  | v :: vs, size, s =>
    match fill (v, s) with
    | .error failure (v, s) => .error failure (v :: vs, s)
    | .ok k (v, s) =>
      match interruptAbove kMaxBlockSize (size + k) s with
      | .error failure s => .error failure (v :: vs, s)
      | .ok _ s =>
        match fillElements fill vs (size + k) s with
        | .ok size (vs, s) => .ok size (v :: vs, s)
        | .error failure (vs, s) => .error failure (v :: vs, s)

/-- `Deserialize` of a class vector, which is cleared and resized once its size is known. -/
def fillVector {A : Type} (fresh : Nat → A) (fill : Filler A U64) : Filler (List A) U64 := fun p =>
  match serReadVarInt p.2 with
  | .error failure s => .error failure (p.1, s)
  | .ok count s => fillElements fill ((List.range count.toNat).map fresh) 1 s

/-- A default `TxIn`, whose hash nothing has set. -/
def freshInput (prevHash : Hash256) : TxIn := ⟨⟨prevHash, 0xffffffff⟩, ⟨[]⟩, 0xffffffff⟩

def freshOutput : TxOut := ⟨0xffffffffffffffff, ⟨[]⟩⟩

def fillInput : Filler TxIn Unit := do
  part (·.prevout) (fun v i => { i with prevout := v })
    (whole (deserializeMember OutPoint.deserialize))
  part (·.scriptSig) (fun v i => { i with scriptSig := v })
    (whole (deserializeMember Script.deserialize))
  part (·.sequenceNo) (fun v i => { i with sequenceNo := v }) (whole (serReadData 32))

def fillOutput : Filler TxOut Unit := do
  part (·.value) (fun v o => { o with value := v }) (whole (serReadData 64))
  part (·.scriptPubKey) (fun v o => { o with scriptPubKey := v })
    (whole (deserializeMember Script.deserialize))

def fillTransaction (unset : Nat → Hash256) : Filler Transaction Unit := do
  part (·.version) (fun v t => { t with version := v }) (whole (serReadData 32))
  part (·.inputs) (fun v t => { t with inputs := v })
    (fillVector (fun i => freshInput (unset i)) (member fillInput))
  part (·.outputs) (fun v t => { t with outputs := v })
    (fillVector (fun _ => freshOutput) (member fillOutput))
  part (·.lockTime) (fun v t => { t with lockTime := v }) (whole (serReadData 32))

/-- Filling leaves what reading returns. -/
def Fills {A X : Type} (fill : Filler A X) (read : Deserializer (A × X)) : Prop :=
  ∀ v s w x s', read s = .ok (w, x) s' → fill (v, s) = .ok x (w, s')

variable {A B : Type}

theorem whole_fills {X : Type} (read : Deserializer (A × X)) : Fills (whole read) read := by
  intro v s w x s' h
  simp only [whole, h]

theorem part_fills {get : B → A} {set : A → B → B} {fill : Filler A U64}
    {read : Deserializer (A × U64)} (h : Fills fill read) {v : B} {s s' : Source} {w : A}
    (hread : serialRead read s = .ok w s') :
    part get set fill (v, s) = .ok () (set w v, s') := by
  rcases map_ok_iff.mp hread with ⟨⟨w, x⟩, hrun, rfl⟩
  simp only [part, h _ _ _ _ _ hrun]

theorem member_fills {fill : Filler A Unit} {read : Deserializer A}
    (h : ∀ v s w s', read s = .ok w s' → fill (v, s) = .ok () (w, s')) :
    Fills (member fill) (deserializeMember read) := by
  intro v s w x s' hread
  rcases bind_ok_iff.mp hread with ⟨w', s₁, hw, hrest⟩
  rcases bind_ok_iff.mp hrest with ⟨x', s₂, hx, hpure⟩
  cases hpure
  simp only [member, h _ _ _ _ hw, whole]
  rw [show ((w, ·) <$> drawReturned) s₁ = .ok (w, x) s' from map_ok_iff.mpr ⟨x, hx, rfl⟩]

theorem fillElements_fills {fill : Filler A U64} {read : Deserializer (A × U64)}
    (h : Fills fill read) {vs ws : List A} {size x : U64} {s s' : Source}
    (hread : vectorElements read (interruptAbove kMaxBlockSize) vs.length size s =
      .ok (ws, x) s') : fillElements fill vs size s = .ok x (ws, s') := by
  induction vs generalizing ws size s with
  | nil =>
    cases hread
    rfl
  | cons v vs ih =>
    rw [List.length_cons, vectorElements] at hread
    rcases bind_ok_iff.mp hread with ⟨⟨w, k⟩, s₁, hw, hrest⟩
    rcases bind_ok_iff.mp hrest with ⟨⟨⟩, s₂, hcheck, hrest⟩
    rcases bind_ok_iff.mp hrest with ⟨⟨ws', x'⟩, s₃, hws, hpure⟩
    cases hpure
    simp only [fillElements, h _ _ _ _ _ hw, hcheck, ih hws]

theorem fillVector_fills {fresh : Nat → A} {fill : Filler A U64} {read : Deserializer (A × U64)}
    (h : Fills fill read) : Fills (fillVector fresh fill) (deserializeClassVector read) := by
  intro v s w x s' hread
  rcases bind_ok_iff.mp hread with ⟨count, s₁, hcount, hrest⟩
  have hlen : ((List.range count.toNat).map fresh).length = count.toNat := by simp
  rw [← hlen] at hrest
  simp only [fillVector, hcount, fillElements_fills h hrest]

theorem fillInput_fills {v w : TxIn} {s s' : Source} (h : TxIn.deserialize s = .ok w s') :
    fillInput (v, s) = .ok () (w, s') := by
  rcases bind_ok_iff.mp h with ⟨prevout, s₁, hprevout, h⟩
  rcases bind_ok_iff.mp h with ⟨scriptSig, s₂, hscriptSig, h⟩
  rcases bind_ok_iff.mp h with ⟨sequenceNo, s₃, hsequenceNo, h⟩
  cases h
  refine bind_ok_iff.mpr ⟨(), _, part_fills (whole_fills _) hprevout, ?_⟩
  refine bind_ok_iff.mpr ⟨(), _, part_fills (whole_fills _) hscriptSig, ?_⟩
  exact part_fills (whole_fills _) hsequenceNo

theorem fillOutput_fills {v w : TxOut} {s s' : Source} (h : TxOut.deserialize s = .ok w s') :
    fillOutput (v, s) = .ok () (w, s') := by
  rcases bind_ok_iff.mp h with ⟨value, s₁, hvalue, h⟩
  rcases bind_ok_iff.mp h with ⟨scriptPubKey, s₂, hscriptPubKey, h⟩
  cases h
  refine bind_ok_iff.mpr ⟨(), _, part_fills (whole_fills _) hvalue, ?_⟩
  exact part_fills (whole_fills _) hscriptPubKey

/-- Read into a transaction whatever it held, it ends up with what the decoder returns. -/
theorem fillTransaction_fills (unset : Nat → Hash256) {v w : Transaction} {s s' : Source}
    (h : Transaction.deserialize s = .ok w s') :
    fillTransaction unset (v, s) = .ok () (w, s') := by
  rcases bind_ok_iff.mp h with ⟨version, s₁, hversion, h⟩
  rcases bind_ok_iff.mp h with ⟨inputs, s₂, hinputs, h⟩
  rcases bind_ok_iff.mp h with ⟨outputs, s₃, houtputs, h⟩
  rcases bind_ok_iff.mp h with ⟨lockTime, s₄, hlockTime, h⟩
  cases h
  have hvectors {A : Type} {fill : Filler A Unit} {read : Deserializer A} {fresh : Nat → A}
      (hfill : ∀ v s w s', read s = .ok w s' → fill (v, s) = .ok () (w, s')) :
      Fills (fillVector fresh (member fill)) (deserializeClassVector (deserializeMember read)) :=
    fillVector_fills (member_fills hfill)
  refine bind_ok_iff.mpr ⟨(), _, part_fills (whole_fills _) hversion, ?_⟩
  refine bind_ok_iff.mpr ⟨(), _, part_fills (hvectors fun _ _ _ _ => fillInput_fills) hinputs, ?_⟩
  refine bind_ok_iff.mpr ⟨(), _, part_fills (hvectors fun _ _ _ _ => fillOutput_fills) houtputs, ?_⟩
  exact part_fills (whole_fills _) hlockTime

end Filling

/-- A `Transaction` of the source: its fields, and the hash it keeps of them. -/
structure Object extends Transaction where
  hashCache : Hash256
deriving DecidableEq

def nullHash : Hash256 := Bytes.zero 32

section Objects

variable (sha256 : List Byte → Hash256)

def doubleSha256 (bytes : List Byte) : Hash256 := sha256 (sha256 bytes).data

namespace Object

def getHash (o : Object) : Hash256 × Object :=
  if o.hashCache = nullHash then
    let hash := doubleSha256 sha256 o.toTransaction.serialize
    (hash, { o with hashCache := hash })
  else (o.hashCache, o)

/-- `operator==`. -/
def equal (a b : Object) : Bool := (a.getHash sha256).1 == (b.getHash sha256).1

/-- The default constructor. -/
def initial : Object := ⟨⟨2, [], [], 0⟩, nullHash⟩

/-- The other constructors. They ask for the hash while the cache holds whatever was in
memory. -/
def construct (t : Transaction) (memory : Hash256) : Object := (getHash sha256 ⟨t, memory⟩).2

/-- What is left of a transaction whose vectors were moved out of it. -/
def movedFrom (o : Object) : Object := { o with inputs := [], outputs := [] }

/-- The assignments, once the fields of the other transaction are there. -/
def assign (t : Transaction) : Object := ⟨t, nullHash⟩

def setVersion (v : U32) (o : Object) : Object := { o with version := v, hashCache := nullHash }

def setInputs (inputs : List TxIn) (o : Object) : Object := { o with inputs, hashCache := nullHash }

def setOutputs (outputs : List TxOut) (o : Object) : Object :=
  { o with outputs, hashCache := nullHash }

def setLockTime (t : U32) (o : Object) : Object := { o with lockTime := t, hashCache := nullHash }

/-- The fields that `Deserialize` leaves, also when it raises. -/
def filled (source : Source) (unset : Nat → Hash256) (o : Object) : Transaction :=
  match fillTransaction unset (o.toTransaction, source) with
  | .ok _ (t, _) => t
  | .error _ (t, _) => t

def deserialize (source : Source) (unset : Nat → Hash256) (o : Object) : Object :=
  ⟨o.filled source unset, o.hashCache⟩

end Object

/-- Objects by where they live. One that is constructed takes the place of what was there. -/
abbrev Objects := Nat → Option Object

/-- What is done to objects. The constructors come with the memory their cache is made of,
and `Deserialize` with that of the hashes which default inputs do not set. -/
inductive Op where
  | initial (i : Nat)
  | value (i : Nat) (t : Transaction) (memory : Hash256)
  | copyConstruct (i j : Nat) (memory : Hash256)
  | moveConstruct (i j : Nat) (memory : Hash256)
  | copyAssign (i j : Nat)
  | moveAssign (i j : Nat)
  | setVersion (i : Nat) (v : U32)
  | setInputs (i : Nat) (inputs : List TxIn)
  | setOutputs (i : Nat) (outputs : List TxOut)
  | setLockTime (i : Nat) (t : U32)
  | deserialize (i : Nat) (source : Source) (unset : Nat → Hash256)
  | getHash (i : Nat)
  | equal (i j : Nat)

namespace Objects

def put (objects : Objects) (i : Nat) (o : Object) : Objects := Function.update objects i (some o)

def edit (objects : Objects) (i : Nat) (f : Object → Object) : Objects :=
  match objects i with
  | none => objects
  | some o => objects.put i (f o)

def step (objects : Objects) : Op → Objects
  | .initial i => objects.put i .initial
  | .value i t memory => objects.put i (.construct sha256 t memory)
  | .copyConstruct i j memory =>
    match objects j with
    | none => objects
    | some b => if i = j then objects else objects.put i (.construct sha256 b.toTransaction memory)
  | .moveConstruct i j memory =>
    match objects j with
    | none => objects
    | some b =>
      if i = j then objects
      else (objects.put j b.movedFrom).put i (.construct sha256 b.toTransaction memory)
  | .copyAssign i j =>
    match objects j with
    | none => objects
    | some b => objects.edit i fun _ => .assign b.toTransaction
  | .moveAssign i j =>
    match objects i, objects j with
    | some _, some b =>
      if i = j then objects
      else (objects.put j b.movedFrom).put i (.assign b.toTransaction)
    | _, _ => objects
  | .setVersion i v => objects.edit i (.setVersion v)
  | .setInputs i inputs => objects.edit i (.setInputs inputs)
  | .setOutputs i outputs => objects.edit i (.setOutputs outputs)
  | .setLockTime i t => objects.edit i (.setLockTime t)
  | .deserialize i source unset => objects.edit i (.deserialize source unset)
  | .getHash i => objects.edit i fun o => (o.getHash sha256).2
  | .equal i j => (objects.edit i fun o => (o.getHash sha256).2).edit j fun o =>
    (o.getHash sha256).2

def run (ops : List Op) : Objects := ops.foldl (step sha256) fun _ => none

end Objects

/-- `GetHash` returns the hash of the fields. -/
def Object.Coherent (o : Object) : Prop :=
  (o.getHash sha256).1 = doubleSha256 sha256 o.toTransaction.serialize

/-- Every object does, and objects that compare equal have one serialisation. -/
structure Objects.Coherent (objects : Objects) : Prop where
  hashes : ∀ i o, objects i = some o → o.Coherent sha256
  equals : ∀ i j a b, objects i = some a → objects j = some b → a.equal sha256 b = true →
    a.toTransaction.serialize = b.toTransaction.serialize

/-- A constructor finds no hash in memory, or by chance the right one. -/
def Unset (memory : Hash256) (t : Transaction) : Prop :=
  memory = nullHash ∨ memory = doubleSha256 sha256 t.serialize

/-- No constructor reads a wrong hash from memory. What is moved from or read into keeps no
hash, or keeps the fields its hash is of. -/
def Objects.Tidy (objects : Objects) : Op → Prop
  | .value _ t memory => Unset sha256 memory t
  | .copyConstruct i j memory => ∀ b, objects j = some b → i ≠ j →
    Unset sha256 memory b.toTransaction
  | .moveConstruct i j memory => ∀ b, objects j = some b → i ≠ j →
    Unset sha256 memory b.toTransaction ∧
      (b.hashCache = nullHash ∨ b.inputs = [] ∧ b.outputs = [])
  | .moveAssign i j => ∀ a b, objects i = some a → objects j = some b → i ≠ j →
    b.hashCache = nullHash ∨ b.inputs = [] ∧ b.outputs = []
  | .deserialize i source unset => ∀ o, objects i = some o →
    o.hashCache = nullHash ∨ (o.filled source unset).serialize = o.toTransaction.serialize
  | .initial _ | .copyAssign _ _ | .setVersion _ _ | .setInputs _ _ | .setOutputs _ _
  | .setLockTime _ _ | .getHash _ | .equal _ _ => True

/-- The serialisations of the objects there are in the course of a run. -/
def written (ops : List Op) : Set (List Byte) :=
  { x | ∃ done i o, done <+: ops ∧ Objects.run sha256 done i = some o ∧
    x = o.toTransaction.serialize }

end Objects

section Caches

variable {sha256 : List Byte → Hash256} {o : Object} {t : Transaction} {memory : Hash256}

theorem coherent_iff : o.Coherent sha256 ↔ Unset sha256 o.hashCache o.toTransaction := by
  rw [Object.Coherent, Object.getHash, Unset]
  by_cases h : o.hashCache = nullHash
  · simp [h]
  · simp [h]

theorem coherent_of_null (h : o.hashCache = nullHash) : o.Coherent sha256 :=
  coherent_iff.mpr (Or.inl h)

theorem getHash_fields (o : Object) :
    (o.getHash sha256).2.toTransaction = o.toTransaction := by
  rw [Object.getHash]
  split_ifs <;> rfl

/-- Asking for the hash neither repairs a cache nor spoils it. -/
theorem getHash_coherent_iff : (o.getHash sha256).2.Coherent sha256 ↔ o.Coherent sha256 := by
  rw [coherent_iff, coherent_iff, getHash_fields, Object.getHash]
  by_cases h : o.hashCache = nullHash
  · simp [h, Unset]
  · simp [h]

theorem construct_coherent_iff :
    (Object.construct sha256 t memory).Coherent sha256 ↔ Unset sha256 memory t :=
  getHash_coherent_iff.trans coherent_iff

/-- A cache that is kept while the fields change is right for the new ones if it is empty or
if they are written like the old ones. -/
theorem kept_coherent_iff {o' : Object} (ho : o.Coherent sha256)
    (hcache : o'.hashCache = o.hashCache) (hcollision :
      doubleSha256 sha256 o'.toTransaction.serialize =
          doubleSha256 sha256 o.toTransaction.serialize →
        o'.toTransaction.serialize = o.toTransaction.serialize) :
    o'.Coherent sha256 ↔
      o.hashCache = nullHash ∨ o'.toTransaction.serialize = o.toTransaction.serialize := by
  rw [coherent_iff, Unset, hcache]
  refine or_congr_right' fun hset => ?_
  have hkept := (coherent_iff.mp ho).resolve_left hset
  rw [hkept]
  constructor
  · exact fun h => hcollision h.symm
  · exact fun h => by rw [h]

theorem serializeVector_length_le {A : Type} (write : A → List Byte) (v : List A) :
    1 + (v.flatMap write).length ≤ (serializeVector write v).length := by
  have hcount := List.length_pos_iff.mpr (serWriteVarInt_ne_nil (BitVec.ofNat 64 v.length))
  rw [serializeVector, List.length_append]
  omega

/-- Elements that take bytes make the encoding of a vector longer than that of no elements. -/
theorem serializeVector_short {A : Type} {write : A → List Byte} (hwrite : ∀ a, write a ≠ [])
    {v : List A} (h : (serializeVector write v).length ≤ 1) : v = [] := by
  cases v with
  | nil => rfl
  | cons a v =>
    have hlen := serializeVector_length_le write (a :: v)
    have ha := List.length_pos_iff.mpr (hwrite a)
    rw [List.flatMap_cons, List.length_append] at hlen
    omega

theorem txIn_ne_nil (i : TxIn) : i.serialize ≠ [] := by
  simp [TxIn.serialize, serWriteData, toLittleEndian]

theorem txOut_ne_nil (o : TxOut) : o.serialize ≠ [] := by
  simp [TxOut.serialize, serWriteData, toLittleEndian]

theorem serialize_movedFrom_iff (o : Object) :
    o.movedFrom.toTransaction.serialize = o.toTransaction.serialize ↔
      o.inputs = [] ∧ o.outputs = [] := by
  constructor
  · intro h
    have hlen := congrArg List.length h
    have hin := serializeVector_length_le TxIn.serialize o.inputs
    have hout := serializeVector_length_le TxOut.serialize o.outputs
    simp only [Transaction.serialize, Object.movedFrom, List.length_append, serWriteData,
      toLittleEndian_length] at hlen
    have hnil {A : Type} (write : A → List Byte) : (serializeVector write []).length = 1 := rfl
    rw [hnil, hnil] at hlen
    have hempty : o.inputs = [] := serializeVector_short txIn_ne_nil (by omega)
    exact ⟨hempty, serializeVector_short txOut_ne_nil (by omega)⟩
  · rintro ⟨hin, hout⟩
    rw [Object.movedFrom, ← hin, ← hout]

theorem movedFrom_coherent_iff {W : Set (List Byte)} (hinj : W.InjOn (doubleSha256 sha256))
    (ho : o.Coherent sha256) (hbefore : o.toTransaction.serialize ∈ W)
    (hafter : o.movedFrom.toTransaction.serialize ∈ W) :
    o.movedFrom.Coherent sha256 ↔ o.hashCache = nullHash ∨ o.inputs = [] ∧ o.outputs = [] := by
  rw [← serialize_movedFrom_iff]
  exact kept_coherent_iff ho rfl fun h => hinj hafter hbefore h

end Caches

section Runs

variable {sha256 : List Byte → Hash256} {objects : Objects}

/-- Every object returns the hash of its fields. -/
def Hashes (sha256 : List Byte → Hash256) (objects : Objects) : Prop :=
  ∀ i o, objects i = some o → o.Coherent sha256

theorem Hashes.put_iff (h : Hashes sha256 objects) {i : Nat} {o : Object} :
    Hashes sha256 (objects.put i o) ↔ o.Coherent sha256 := by
  constructor
  · exact fun hput => hput i o (Function.update_self _ _ _)
  · intro ho k b hk
    by_cases hki : k = i
    · subst hki
      rw [Objects.put, Function.update_self] at hk
      exact Option.some.inj hk ▸ ho
    · rw [Objects.put, Function.update_of_ne hki] at hk
      exact h k b hk

theorem Hashes.edit_iff (h : Hashes sha256 objects) {i : Nat} {f : Object → Object} :
    Hashes sha256 (objects.edit i f) ↔ ∀ o, objects i = some o → (f o).Coherent sha256 := by
  rw [Objects.edit]
  cases hi : objects i with
  | none => exact iff_of_true h fun _ h => by cases h
  | some o => simp only [h.put_iff, Option.some.injEq, forall_eq']

theorem put_put_below {i j : Nat} (hij : i ≠ j) {a b : Object} :
    ((objects.put j b).put i a) j = some b := by
  rw [Objects.put, Function.update_of_ne hij.symm, Objects.put, Function.update_self]

/-- Two objects change, one after the other. -/
theorem Hashes.put_put_iff (h : Hashes sha256 objects) {i j : Nat} (hij : i ≠ j) {a b : Object} :
    Hashes sha256 ((objects.put j b).put i a) ↔ b.Coherent sha256 ∧ a.Coherent sha256 := by
  constructor
  · intro hput
    exact ⟨hput j b (put_put_below hij), hput i a (Function.update_self _ _ _)⟩
  · rintro ⟨hb, ha⟩
    exact (h.put_iff.mpr hb).put_iff.mpr ha

theorem edit_reset_hashes (h : Hashes sha256 objects) {i : Nat} {f : Object → Object}
    (hf : ∀ o, (f o).hashCache = nullHash) : Hashes sha256 (objects.edit i f) :=
  h.edit_iff.mpr fun o _ => coherent_of_null (hf o)

theorem edit_getHash_hashes (h : Hashes sha256 objects) (i : Nat) :
    Hashes sha256 (objects.edit i fun o => (o.getHash sha256).2) :=
  h.edit_iff.mpr fun o ho => getHash_coherent_iff.mpr (h i o ho)

/-- While no two of the transactions in question share a hash. -/
theorem coherent_iff_hashes {W : Set (List Byte)} (hinj : W.InjOn (doubleSha256 sha256))
    (hW : ∀ i o, objects i = some o → o.toTransaction.serialize ∈ W) :
    objects.Coherent sha256 ↔ Hashes sha256 objects := by
  refine ⟨Objects.Coherent.hashes, fun h => ⟨h, fun i j a b ha hb heq => ?_⟩⟩
  have hsame : (a.getHash sha256).1 = (b.getHash sha256).1 := of_decide_eq_true heq
  rw [h i a ha, h j b hb] at hsame
  exact hinj (hW i a ha) (hW j b hb) hsame

/-- One step keeps all caches right exactly if it is tidy. -/
theorem step_hashes_iff {W : Set (List Byte)} (hinj : W.InjOn (doubleSha256 sha256))
    (h : Hashes sha256 objects) {op : Op}
    (hbefore : ∀ i o, objects i = some o → o.toTransaction.serialize ∈ W)
    (hafter : ∀ i o, objects.step sha256 op i = some o → o.toTransaction.serialize ∈ W) :
    Hashes sha256 (objects.step sha256 op) ↔ objects.Tidy sha256 op := by
  cases op with
  | initial i => exact iff_of_true (h.put_iff.mpr (coherent_of_null rfl)) trivial
  | value i t memory => exact h.put_iff.trans construct_coherent_iff
  | copyConstruct i j memory =>
    simp only [Objects.step, Objects.Tidy]
    cases hj : objects j with
    | none => exact iff_of_true h fun _ hb => by cases hb
    | some b =>
      simp only [Option.some.injEq, forall_eq']
      by_cases hij : i = j
      · rw [if_pos hij]
        exact iff_of_true h fun hne => absurd hij hne
      · rw [if_neg hij, h.put_iff, construct_coherent_iff]
        exact ⟨fun hunset _ => hunset, fun hunset => hunset hij⟩
  | moveConstruct i j memory =>
    simp only [Objects.step, Objects.Tidy] at hafter ⊢
    cases hj : objects j with
    | none => exact iff_of_true h fun _ hb => by cases hb
    | some b =>
      simp only [hj, Option.some.injEq, forall_eq'] at hafter ⊢
      by_cases hij : i = j
      · rw [if_pos hij]
        exact iff_of_true h fun hne => absurd hij hne
      · rw [if_neg hij] at hafter ⊢
        have hmoved := movedFrom_coherent_iff hinj (h j b hj) (hbefore j b hj)
          (hafter j b.movedFrom (put_put_below hij))
        rw [h.put_put_iff hij, construct_coherent_iff, hmoved]
        exact ⟨fun hboth _ => hboth.symm, fun hboth => (hboth hij).symm⟩
  | copyAssign i j =>
    simp only [Objects.step, Objects.Tidy]
    refine iff_of_true ?_ trivial
    cases objects j with
    | none => exact h
    | some b => exact edit_reset_hashes h fun _ => rfl
  | moveAssign i j =>
    simp only [Objects.step, Objects.Tidy] at hafter ⊢
    cases hi : objects i with
    | none => exact iff_of_true h fun _ _ ha => by cases ha
    | some a =>
      cases hj : objects j with
      | none => exact iff_of_true h fun _ _ _ hb => by cases hb
      | some b =>
        simp only [hi, hj] at hafter ⊢
        by_cases hij : i = j
        · rw [if_pos hij]
          exact iff_of_true h fun _ _ _ _ hne => absurd hij hne
        · rw [if_neg hij] at hafter ⊢
          have hmoved := movedFrom_coherent_iff hinj (h j b hj) (hbefore j b hj)
            (hafter j b.movedFrom (put_put_below hij))
          rw [h.put_put_iff hij, hmoved]
          constructor
          · rintro ⟨hkept, -⟩ _ _ - hb -
            exact Option.some.inj hb ▸ hkept
          · exact fun htidy => ⟨htidy a b rfl rfl hij, coherent_of_null rfl⟩
  | setVersion i v => exact iff_of_true (edit_reset_hashes h fun _ => rfl) trivial
  | setInputs i inputs => exact iff_of_true (edit_reset_hashes h fun _ => rfl) trivial
  | setOutputs i outputs => exact iff_of_true (edit_reset_hashes h fun _ => rfl) trivial
  | setLockTime i t => exact iff_of_true (edit_reset_hashes h fun _ => rfl) trivial
  | deserialize i source unset =>
    simp only [Objects.step, Objects.Tidy] at hafter ⊢
    rw [h.edit_iff]
    refine forall_congr' fun o => forall_congr' fun hi => ?_
    refine kept_coherent_iff (h i o hi) rfl fun hsame => ?_
    refine hinj (hafter i (o.deserialize source unset) ?_) (hbefore i o hi) hsame
    rw [Objects.edit, hi]
    exact Function.update_self _ _ _
  | getHash i => exact iff_of_true (edit_getHash_hashes h i) trivial
  | equal i j => exact iff_of_true (edit_getHash_hashes (edit_getHash_hashes h i) j) trivial

/-- Through any sequence of operations `GetHash` returns the hash of the fields on every
object, and only objects with one serialisation compare equal, exactly if every operation of
it is tidy. The hash is taken to tell the transactions that occur apart. -/
theorem coherent_iff_tidy (ops : List Op)
    (hinj : (written sha256 ops).InjOn (doubleSha256 sha256)) :
    (∀ done, done <+: ops → (Objects.run sha256 done).Coherent sha256) ↔
      Throughout (Objects.step sha256) (Objects.Tidy sha256) (fun _ => none) ops := by
  have hwritten : ∀ done, done <+: ops → ∀ i o, Objects.run sha256 done i = some o →
      o.toTransaction.serialize ∈ written sha256 ops :=
    fun done hdone i o ho => ⟨done, i, o, hdone, ho, rfl⟩
  refine always_iff_throughout (P := Objects.Coherent sha256) ⟨?_, ?_⟩ ?_
  · rintro i o ⟨⟩
  · rintro i j a b ⟨⟩
  · intro done op hdone hcoherent
    have hbefore := hwritten done ((List.prefix_append _ _).trans hdone)
    have hafter := hwritten (done ++ [op]) hdone
    rw [Objects.run, List.foldl_concat] at hafter
    rw [coherent_iff_hashes hinj hafter]
    exact step_hashes_iff hinj hcoherent.hashes hbefore hafter

end Runs

section Examples

/-- An empty transaction of version 1, one with an output, and the encoding of the latter. -/
def emptyTransaction : Transaction := ⟨1, [], [], 0⟩

def payment : Transaction := ⟨1, [], [⟨5, ⟨[]⟩⟩], 0⟩

def paymentSource : Source := ⟨payment.serialize, ⟨fun _ => 0, fun _ => 0⟩, false⟩

/-- SHA-256 on the transactions below. -/
def knownSha256 (bytes : List Byte) : Hash256 :=
  ([(emptyTransaction.serialize,
      hashOf 0x96eeff563b3135e3f77964e8c062328fd207c8bc9e754fc423abaf83eb3f1490),
    ((hashOf 0x96eeff563b3135e3f77964e8c062328fd207c8bc9e754fc423abaf83eb3f1490).data,
      hashOf 0x43ec7a579f5561a42a7e9637ad4156672735a658be2752181801f723ba3316d2),
    (Object.initial.toTransaction.serialize,
      hashOf 0x337a32712f14c5df0b57a64bd6c321a043081688ecd4f33fd8319470da2256b1),
    ((hashOf 0x337a32712f14c5df0b57a64bd6c321a043081688ecd4f33fd8319470da2256b1).data,
      hashOf 0x1a6240823de4c8d6aaf826851bdf2b0e8d5acf7c31e8578cff4c394b5a32bd4e),
    (payment.serialize,
      hashOf 0xfd384971a4056fd183d89940520a65d27afcbf52856a430af93635a96cc75719),
    ((hashOf 0xfd384971a4056fd183d89940520a65d27afcbf52856a430af93635a96cc75719).data,
      hashOf 0xbf9f558774fa3a1c713c61f907455247de188dca108cc8ca5100a465a01d88c2)].lookup
    bytes).getD nullHash

/-- A transaction that is read into a new object. -/
def readObject : Object := Object.initial.deserialize paymentSource fun _ => nullHash

def readPayment : List Op :=
  [.initial 0, .deserialize 0 paymentSource fun _ => nullHash, .getHash 0]

theorem put_eq_some {objects : Objects} {i k : Nat} {o b : Object}
    (h : objects.put i o k = some b) : b = o ∨ objects k = some b := by
  by_cases hk : k = i
  · rw [Objects.put, hk, Function.update_self] at h
    exact Or.inl (Option.some.inj h).symm
  · rw [Objects.put, Function.update_of_ne hk] at h
    exact Or.inr h

theorem readPayment_objects {done : List Op} (h : done <+: readPayment) {i : Nat} {o : Object}
    (ho : Objects.run knownSha256 done i = some o) :
    o = .initial ∨ o = readObject ∨ o = (readObject.getHash knownSha256).2 := by
  have hfirst {o : Object} (ho : Objects.put (fun _ => none) 0 .initial i = some o) :
      o = .initial := by
    rcases put_eq_some ho with ho | ho
    · exact ho
    · cases ho
  have hinits : done ∈ readPayment.inits := (List.mem_inits _ _).mpr h
  rcases List.mem_cons.mp hinits with rfl | hinits
  · cases ho
  rcases List.mem_cons.mp hinits with rfl | hinits
  · exact Or.inl (hfirst ho)
  rcases List.mem_cons.mp hinits with rfl | hinits
  · change Objects.put (Objects.put (fun _ => none) 0 .initial) 0 readObject i = some o at ho
    rcases put_eq_some ho with ho | ho
    · exact Or.inr (Or.inl ho)
    · exact Or.inl (hfirst ho)
  rcases List.mem_cons.mp hinits with rfl | hinits
  · change Objects.put (Objects.put (Objects.put (fun _ => none) 0 .initial) 0 readObject) 0
      (readObject.getHash knownSha256).2 i = some o at ho
    rcases put_eq_some ho with ho | ho
    · exact Or.inr (Or.inr ho)
    rcases put_eq_some ho with ho | ho
    · exact Or.inr (Or.inl ho)
    · exact Or.inl (hfirst ho)
  · cases hinits

theorem readPayment_written : written knownSha256 readPayment ⊆
    {Object.initial.toTransaction.serialize, payment.serialize} := by
  rintro x ⟨done, i, o, hdone, ho, rfl⟩
  have hread : readObject.toTransaction = payment := by decide +kernel
  rcases readPayment_objects hdone ho with rfl | rfl | rfl
  · exact Or.inl rfl
  · exact Or.inr (by rw [hread]; rfl)
  · exact Or.inr (by rw [getHash_fields, hread]; rfl)

theorem coherent_iff_tidy_readPayment :
    (∀ done, done <+: readPayment → (Objects.run knownSha256 done).Coherent knownSha256) ↔
      Throughout (Objects.step knownSha256) (Objects.Tidy knownSha256) (fun _ => none)
        readPayment := by
  refine coherent_iff_tidy readPayment (Set.InjOn.mono readPayment_written ?_)
  rintro x (rfl | rfl) y (rfl | rfl) h
  · rfl
  · exact absurd h (by decide +kernel)
  · exact absurd h (by decide +kernel)
  · rfl

/-- A constructor takes garbage in memory for its hash, a transaction that is read into
another keeps the hash of that one, and one that is moved from keeps its own. -/
theorem caches_stale :
    (∃ o, Objects.run knownSha256 [.value 0 emptyTransaction (hashOf 1)] 0 = some o ∧
      ¬ o.Coherent knownSha256) ∧
    (∃ o, Objects.run knownSha256 [.value 0 emptyTransaction nullHash,
        .deserialize 0 paymentSource fun _ => nullHash] 0 = some o ∧ ¬ o.Coherent knownSha256) ∧
    (∃ o, Objects.run knownSha256 [.value 0 payment nullHash, .moveConstruct 1 0 nullHash] 0 =
      some o ∧ ¬ o.Coherent knownSha256) := by
  refine ⟨⟨_, rfl, ?_⟩, ⟨_, rfl, ?_⟩, ⟨_, rfl, ?_⟩⟩
  · rw [Object.Coherent]
    decide +kernel
  · rw [Object.Coherent]
    decide +kernel
  · rw [Object.Coherent]
    decide +kernel

end Examples

end HashCache
