import Btclite.Utility.FastRandom

/-!
# Where random bits come from

The random contexts without their buffers: bits that are drawn from a generator, each
with its place among all of them, wait in two lists and are taken from these by the
calls. A context returns what its supply does, and the supply gives no bit twice.
-/

namespace BitSupply

open Endian Serialize Effects FastRandom

/-- A bit and its place among all that were drawn. -/
abbrev Drawn : Type := Bool × Nat

structure Supply (G : Type) where
  rng : G
  requiresSeed : Bool
  drawn : Nat
  bytes : List Drawn
  bits : List Drawn

/-- The low bits of a word, the lowest first. -/
def lowBits {w : Nat} (n : Nat) (v : BitVec w) : List Bool := (List.range n).map v.getLsbD

def bitsOf (bytes : List Byte) : List Bool := bytes.flatMap (lowBits 8)

/-- The word with these low bits. -/
def word (w : Nat) (bits : List Bool) : BitVec w := (BitVec.ofBoolListLE bits).setWidth w

section Model

variable {G : Type} (gen : Generator G)

abbrev Taking (G A : Type) : Type := EStateM Fault (Supply G) A

def draw (n : Nat) : Taking G (List Drawn) := do
  let s ← get
  let (bytes, rng) := gen.randomize n s.rng
  match bytes with
  | some bytes =>
    set { s with rng, drawn := s.drawn + 8 * n }
    return (bitsOf bytes.data).zipIdx s.drawn
  | none =>
    set { s with rng }
    throw .unseeded

def refill (system : Hash256) : Taking G Unit := do
  if (← get).requiresSeed then
    modify fun s => { s with rng := gen.addEntropy system.data s.rng, requiresSeed := false }
  let bytes ← draw gen 64
  modify fun s => { s with bytes }

def takeBytes (system : Hash256) (n : Nat) : Taking G (List Drawn) := do
  if (← get).bytes.length < 8 * n then refill gen system
  let taken := (← get).bytes.take (8 * n)
  modify fun s => { s with bytes := s.bytes.drop (8 * n) }
  return taken

def refillBits (system : Hash256) : Taking G Unit := do
  let bits ← takeBytes gen system 8
  modify fun s => { s with bits }

def takeBits (system : Hash256) (bits : Int) : Taking G (List Drawn) := do
  if bits = 0 then return []
  else if 32 < bits then
    let taken ← takeBytes gen system 8
    if 64 < bits then throw .shift
    return taken.drop (64 - bits).toNat
  else
    if ((← get).bits.length : Int) < bits then refillBits gen system
    if bits < 0 then throw .shift
    let taken := (← get).bits.take bits.toNat
    modify fun s => { s with bits := s.bits.drop bits.toNat }
    return taken

def takeRange (system : Hash256) (range : U64) (bits : Int) : Nat → Taking G (List Drawn)
  | 0 => throw .spent
  | fuel + 1 => do
    let taken ← takeBits gen system bits
    if word 64 (taken.map Prod.fst) ≤ range then return taken
    else takeRange system range bits fuel

def takeBlock (len : Nat) : Taking G (List Drawn) := do
  if 0 < len then draw gen len else return []

/-- What a call takes and returns. -/
def take (fuel : Nat) (system : Hash256) : Call → Taking G (List Drawn)
  | .randBits bits => takeBits gen system bits
  | .randRange range => takeRange gen system (range - 1) (countBits (range - 1)) fuel
  | .rand32 => takeBits gen system 32
  | .rand64 => takeBytes gen system 8
  | .rand256 => takeBytes gen system 32
  | .randBool => takeBits gen system 1
  | .randBytes len => takeBlock gen len

def takeAll (fuel : Nat) :
    List (Call × Hash256) → Supply G → List (Call × Except Fault (List Drawn)) × Supply G
  | [], s => ([], s)
  | (c, system) :: calls, s =>
    match take gen fuel system c s with
    | .ok taken s =>
      let (rest, s) := takeAll fuel calls s
      ((c, .ok taken) :: rest, s)
    | .error .unseeded s =>
      let (rest, s) := takeAll fuel calls s
      ((c, .error .unseeded) :: rest, s)
    | .error fault s => ([(c, .error fault)], s)

end Model

/-- The value that a call returns for the bits it takes. -/
inductive Reads : Call → Value → List Bool → Prop
  | randBits {n bits value} (h : value = word 64 bits) : Reads (.randBits n) (.word value) bits
  | randRange {range bits value} (h : value = word 64 bits) :
    Reads (.randRange range) (.word value) bits
  | rand32 {bits value} (h : value = word 32 bits) : Reads .rand32 (.half value) bits
  | rand64 {bits value} (h : value = word 64 bits) : Reads .rand64 (.word value) bits
  | rand256 {bits value} (h : bitsOf value.data = bits) : Reads .rand256 (.hash value) bits
  | randBool {bits value} (h : value = (word 64 bits != 0)) : Reads .randBool (.bool value) bits
  | randBytes {len bits value} (h : bitsOf value = bits) :
    Reads (.randBytes len) (.bytes value) bits

section Bits

variable {w n m i : Nat} {bits : List Bool} {bytes bytes' : List Byte} {v : BitVec w}

theorem getLsbD_word (w : Nat) (bits : List Bool) (i : Nat) :
    (word w bits).getLsbD i = (decide (i < w) && bits.getD i false) := by
  rw [word, BitVec.getLsbD_setWidth, BitVec.getLsbD_ofBoolListLE]

theorem toNat_word_lt (w : Nat) (bits : List Bool) : (word w bits).toNat < 2 ^ bits.length := by
  rw [word, BitVec.toNat_setWidth]
  exact Nat.lt_of_le_of_lt (Nat.mod_le _ _) (BitVec.isLt _)

@[simp] theorem length_lowBits (n : Nat) (v : BitVec w) : (lowBits n v).length = n := by
  rw [lowBits, List.length_map, List.length_range]

theorem getD_lowBits (n : Nat) (v : BitVec w) (i : Nat) :
    (lowBits n v).getD i false = (decide (i < n) && v.getLsbD i) := by
  rw [lowBits, List.getD_eq_getElem?_getD, List.getElem?_map]
  by_cases hi : i < n
  · rw [List.getElem?_range hi]
    simp [hi]
  · rw [List.getElem?_eq_none (by rw [List.length_range]; omega)]
    simp [hi]

theorem take_lowBits (h : m ≤ n) (v : BitVec w) : (lowBits n v).take m = lowBits m v := by
  rw [lowBits, lowBits, ← List.map_take, List.take_range, Nat.min_eq_left h]

theorem drop_lowBits (n m : Nat) (v : BitVec w) :
    (lowBits n v).drop m = lowBits (n - m) (v >>> m) := by
  apply List.ext_getElem
  · simp
  · intro i _ _
    simp [lowBits]

theorem lowBits_word (h : bits.length = w) : lowBits w (word w bits) = bits := by
  subst h
  apply List.ext_getElem
  · rw [length_lowBits]
  · intro i _ hi
    have hbit : (word bits.length bits).getLsbD i = bits[i] := by
      rw [getLsbD_word, List.getD_eq_getElem _ _ hi]
      simp [hi]
    simp only [lowBits, List.getElem_map, List.getElem_range, hbit]

theorem bitsOf_cons (b : Byte) (bytes : List Byte) :
    bitsOf (b :: bytes) = lowBits 8 b ++ bitsOf bytes := rfl

@[simp] theorem length_bitsOf (bytes : List Byte) : (bitsOf bytes).length = 8 * bytes.length := by
  induction bytes with
  | nil => rfl
  | cons b bytes ih =>
    rw [bitsOf_cons, List.length_append, ih, length_lowBits, List.length_cons]
    omega

theorem split_bitsOf (bytes : List Byte) (n : Nat) :
    (bitsOf bytes).take (8 * n) = bitsOf (bytes.take n) ∧
      (bitsOf bytes).drop (8 * n) = bitsOf (bytes.drop n) := by
  induction bytes generalizing n with
  | nil => simp [bitsOf]
  | cons b bytes ih =>
    cases n with
    | zero => exact ⟨rfl, rfl⟩
    | succ n =>
      have hn : 8 * (n + 1) = (lowBits 8 b).length + 8 * n := by simp; omega
      obtain ⟨htake, hdrop⟩ := ih n
      constructor
      · rw [hn, bitsOf_cons, List.take_length_add_append, htake, List.take_succ_cons, bitsOf_cons]
      · rw [hn, bitsOf_cons, List.drop_length_add_append, hdrop, List.drop_succ_cons]

theorem take_bitsOf (bytes : List Byte) (n : Nat) :
    (bitsOf bytes).take (8 * n) = bitsOf (bytes.take n) :=
  (split_bitsOf bytes n).1

theorem drop_bitsOf (bytes : List Byte) (n : Nat) :
    (bitsOf bytes).drop (8 * n) = bitsOf (bytes.drop n) :=
  (split_bitsOf bytes n).2

theorem getD_bitsOf (bytes : List Byte) (k : Nat) :
    (bitsOf bytes).getD k false = (bytes.getD (k / 8) 0).getLsbD (k % 8) := by
  induction bytes generalizing k with
  | nil => simp [bitsOf]
  | cons b bytes ih =>
    by_cases hk : k < 8
    · have hdiv : k / 8 = 0 := by omega
      have hmod : k % 8 = k := by omega
      rw [bitsOf_cons, List.getD_append _ _ _ _ (by simpa using hk), getD_lowBits, hdiv, hmod]
      simp [hk]
    · have hdiv : k / 8 = (k - 8) / 8 + 1 := by omega
      have hmod : k % 8 = (k - 8) % 8 := by omega
      rw [bitsOf_cons, List.getD_append_right _ _ _ _ (by simp; omega), length_lowBits, ih, hdiv,
        hmod]
      rfl

theorem fromLittleEndian_eq_word (bytes : List Byte) :
    fromLittleEndian 64 bytes = word 64 (bitsOf bytes) := by
  apply BitVec.eq_of_getLsbD_eq
  intro i hi
  rw [fromLittleEndian_getLsbD, getLsbD_word, getD_bitsOf]
  rfl

theorem word_shift (h : bits.length ≤ w) (k : Nat) : word w bits >>> k = word w (bits.drop k) := by
  apply BitVec.eq_of_getLsbD_eq
  intro i hi
  rw [BitVec.getLsbD_ushiftRight, getLsbD_word, getLsbD_word, List.getD_eq_getElem?_getD,
    List.getD_eq_getElem?_getD, List.getElem?_drop]
  by_cases hin : k + i < w
  · simp [hi, hin]
  · rw [List.getElem?_eq_none (by omega)]
    simp

theorem word_mask (h : n ≤ 64) (v : U64) :
    v &&& (~~~(0 : U64) >>> (64 - n)) = word 64 (lowBits n v) := by
  apply BitVec.eq_of_getLsbD_eq
  intro i hi
  have hmask : 64 - n + i < 64 ↔ i < n := by omega
  rw [BitVec.getLsbD_and, BitVec.getLsbD_ushiftRight, BitVec.getLsbD_not, getLsbD_word,
    getD_lowBits]
  simp [hi, hmask, Bool.and_comm]

theorem setWidth_word (h : n ≤ w) (bits : List Bool) :
    (word w bits).setWidth n = word n bits := by
  apply BitVec.eq_of_getLsbD_eq
  intro i hi
  rw [BitVec.getLsbD_setWidth, getLsbD_word, getLsbD_word]
  have hiw : i < w := by omega
  simp [hi, hiw]

theorem lowBits_injective {u v : BitVec w} (h : lowBits w u = lowBits w v) : u = v := by
  apply BitVec.eq_of_getLsbD_eq
  intro i hi
  have hbit : (lowBits w u).getD i false = (lowBits w v).getD i false := by rw [h]
  rw [getD_lowBits, getD_lowBits] at hbit
  simpa [hi] using hbit

theorem bitsOf_injective (h : bitsOf bytes = bitsOf bytes') : bytes = bytes' := by
  induction bytes generalizing bytes' with
  | nil =>
    have hlen := congrArg List.length h
    rw [length_bitsOf, length_bitsOf] at hlen
    rw [List.length_nil, Nat.mul_zero] at hlen
    exact (List.length_eq_zero_iff.mp (by omega)).symm
  | cons b bytes ih =>
    cases bytes' with
    | nil =>
      have hlen := congrArg List.length h
      simp at hlen
    | cons b' bytes' =>
      rw [bitsOf_cons, bitsOf_cons] at h
      obtain ⟨hfirst, hrest⟩ := List.append_inj h (by simp)
      rw [lowBits_injective hfirst, ih hrest]

theorem Reads.unique {c : Call} {value value' : Value} (h : Reads c value bits)
    (h' : Reads c value' bits) : value = value' := by
  cases h with
  | randBits h =>
    cases h' with
    | randBits h' => rw [h, h']
  | randRange h =>
    cases h' with
    | randRange h' => rw [h, h']
  | rand32 h =>
    cases h' with
    | rand32 h' => rw [h, h']
  | rand64 h =>
    cases h' with
    | rand64 h' => rw [h, h']
  | rand256 h =>
    cases h' with
    | rand256 h' => rw [Bytes.ext (bitsOf_injective (h.trans h'.symm))]
  | randBool h =>
    cases h' with
    | randBool h' => rw [h, h']
  | randBytes h =>
    cases h' with
    | randBytes h' => rw [bitsOf_injective (h.trans h'.symm)]

end Bits

section Freshness

variable {G : Type} {gen : Generator G} {system : Hash256} {t t' : Supply G} {kept kept' : List Nat}

def places (taken : List Drawn) : List Nat := taken.map Prod.snd

theorem places_split (taken : List Drawn) (n : Nat) :
    places taken = places (taken.take n) ++ places (taken.drop n) := by
  rw [places, places, places, ← List.map_append, List.take_append_drop]

def waiting (t : Supply G) : List Nat := places t.bytes ++ places t.bits

/-- No place is both among these and waiting, none is twice, and each was drawn. -/
structure Fresh (kept : List Nat) (t : Supply G) : Prop where
  nodup : (kept ++ waiting t).Nodup
  below : ∀ p ∈ kept ++ waiting t, p < t.drawn

/-- Places may be moved and left out. -/
theorem Fresh.move (h : Fresh kept t) (hdrawn : t'.drawn = t.drawn) {l : List Nat}
    (hsub : l.Sublist (kept ++ waiting t)) (hperm : l.Perm (kept' ++ waiting t')) :
    Fresh kept' t' where
  nodup := hperm.nodup_iff.mp (h.nodup.sublist hsub)
  below p hp := hdrawn ▸ h.below p (hsub.subset (hperm.mem_iff.mpr hp))

theorem Fresh.mono (h : Fresh kept t) (hsub : kept'.Sublist kept) : Fresh kept' t :=
  h.move rfl (hsub.append_right _) (List.Perm.refl _)

/-- No fault but an exception of the generator and a loop that goes on, and nothing taken. -/
def Faulted (kept : List Nat) (e : Fault) (t : Supply G) : Prop :=
  (e = .unseeded ∨ e = .spent) ∧ Fresh kept t

/-- How an action leaves the supply that takes something. -/
abbrev Leaves (kept : List Nat) (r : EStateM.Result Fault (Supply G) (List Drawn)) : Prop :=
  Ends (fun taken t => Fresh (kept ++ places taken) t) (Faulted kept) r

/-- How one does that only waits for more. -/
abbrev Refills (kept : List Nat) (r : EStateM.Result Fault (Supply G) PUnit) : Prop :=
  Ends (fun _ t => Fresh kept t) (Faulted kept) r

theorem draw_leaves (h : Fresh kept t) (n : Nat) : Leaves kept (draw gen n t) := by
  rw [draw, get_bind]
  obtain ⟨bytes, rng⟩ := gen.randomize n t.rng
  cases bytes with
  | none => exact .raised ⟨.inl rfl, h.nodup, h.below⟩
  | some bytes =>
    have hplaces : places ((bitsOf bytes.data).zipIdx t.drawn) = List.range' t.drawn (8 * n) := by
      rw [places, List.zipIdx_map_snd, length_bitsOf, bytes.size_eq]
    refine .returned ⟨?_, fun p hp => ?_⟩
    · have hnew : ((List.range' t.drawn (8 * n)) ++ (kept ++ waiting t)).Nodup := by
        refine List.nodup_append.mpr ⟨List.nodup_range', h.nodup, fun p hp q hq heq => ?_⟩
        have hlow := (List.mem_range'_1.mp hp).1
        have hhigh := h.below q hq
        omega
      rw [hplaces, List.append_assoc]
      exact (List.perm_append_comm_assoc _ _ _).nodup_iff.mp hnew
    · change p < t.drawn + 8 * n
      rw [hplaces, List.append_assoc] at hp
      rcases List.mem_append.mp hp with hkept | hrest
      · have := h.below p (List.mem_append_left _ hkept)
        omega
      · rcases List.mem_append.mp hrest with hnew | hwait
        · have := (List.mem_range'_1.mp hnew).2
          omega
        · have := h.below p (List.mem_append_right _ hwait)
          omega

theorem refill_leaves (h : Fresh kept t) : Refills kept (refill gen system t) := by
  have hrest : ∀ t : Supply G, Fresh kept t → Refills kept ((do
      let bytes ← draw gen 64
      modify fun s => { s with bytes } : Taking G PUnit) t) := by
    intro t h
    refine (draw_leaves h 64).bind (fun taken t h => .returned ?_) fun e t h => h
    refine h.move rfl ?_ (List.Perm.refl _)
    rw [waiting, waiting, List.append_assoc]
    exact ((List.sublist_append_right _ _).append_left _).append_left _
  rw [refill, get_bind]
  cases t.requiresSeed with
  | true => exact hrest _ ⟨h.nodup, h.below⟩
  | false => exact hrest t h

theorem takeBytes_leaves (h : Fresh kept t) (n : Nat) :
    Leaves kept (takeBytes gen system n t) := by
  have hrest : ∀ t : Supply G, Fresh kept t → Leaves kept ((do
      let taken := (← get).bytes.take (8 * n)
      modify fun s => { s with bytes := s.bytes.drop (8 * n) }
      return taken : Taking G (List Drawn)) t) := by
    intro t h
    refine .returned (h.move rfl (List.Sublist.refl _) ?_)
    change (kept ++ (places t.bytes ++ places t.bits)).Perm
      ((kept ++ places (t.bytes.take (8 * n))) ++
        (places (t.bytes.drop (8 * n)) ++ places t.bits))
    rw [places_split t.bytes (8 * n), List.append_assoc, List.append_assoc]
  rw [takeBytes, get_bind]
  by_cases hless : t.bytes.length < 8 * n
  · rw [if_pos hless]
    exact (refill_leaves h).bind (fun _ t h => hrest t h) fun e t h => h
  · rw [if_neg hless]
    exact hrest t h

theorem refillBits_leaves (h : Fresh kept t) : Refills kept (refillBits gen system t) := by
  rw [refillBits]
  refine (takeBytes_leaves h 8).bind (fun taken t h => .returned ?_) fun e t h => h
  refine h.move rfl (l := kept ++ (places taken ++ places t.bytes)) ?_ ?_
  · rw [waiting, List.append_assoc]
    exact ((List.sublist_append_left _ _).append_left _).append_left _
  · exact List.perm_append_comm.append_left _

theorem takeBits_leaves (h : Fresh kept t) {bits : Int} (hbits : 0 ≤ bits ∧ bits ≤ 64) :
    Leaves kept (takeBits gen system bits t) := by
  have hrest : ∀ t : Supply G, Fresh kept t → Leaves kept ((do
      if bits < 0 then throw .shift
      let taken := (← get).bits.take bits.toNat
      modify fun s => { s with bits := s.bits.drop bits.toNat }
      return taken : Taking G (List Drawn)) t) := by
    intro t h
    rw [if_neg (by omega)]
    refine .returned (h.move rfl (List.Sublist.refl _) ?_)
    change (kept ++ (places t.bytes ++ places t.bits)).Perm
      ((kept ++ places (t.bits.take bits.toNat)) ++
        (places t.bytes ++ places (t.bits.drop bits.toNat)))
    rw [places_split t.bits bits.toNat, List.append_assoc]
    exact (List.perm_append_comm_assoc _ _ _).append_left _
  rw [takeBits]
  by_cases hzero : bits = 0
  · rw [if_pos hzero]
    exact .returned (by rw [places, List.map_nil, List.append_nil]; exact h)
  · rw [if_neg hzero]
    by_cases hlarge : 32 < bits
    · rw [if_pos hlarge]
      refine (takeBytes_leaves h 8).bind (fun taken t h => ?_) fun e t h => h
      rw [if_neg (by omega)]
      refine .returned (h.mono ?_)
      exact ((List.drop_sublist _ _).map _).append_left _
    · rw [if_neg hlarge, get_bind]
      by_cases hless : (t.bits.length : Int) < bits
      · rw [if_pos hless]
        exact (refillBits_leaves h).bind (fun _ t h => hrest t h) fun e t h => h
      · rw [if_neg hless]
        exact hrest t h

theorem takeRange_leaves (h : Fresh kept t) (range : U64) {bits : Int}
    (hbits : 0 ≤ bits ∧ bits ≤ 64) (fuel : Nat) :
    Leaves kept (takeRange gen system range bits fuel t) := by
  induction fuel generalizing t with
  | zero => exact .raised ⟨.inr rfl, h⟩
  | succ fuel ih =>
    rw [takeRange]
    refine (takeBits_leaves h hbits).bind (fun taken t h => ?_) fun e t h => h
    split_ifs
    · exact .returned h
    · exact ih (h.mono (List.sublist_append_left _ _))

theorem takeBlock_leaves (h : Fresh kept t) (len : Nat) : Leaves kept (takeBlock gen len t) := by
  rw [takeBlock]
  split_ifs
  · exact draw_leaves h len
  · exact .returned (by rw [places, List.map_nil, List.append_nil]; exact h)

theorem take_leaves (h : Fresh kept t) {c : Call} (hc : c.Valid) (fuel : Nat) :
    Leaves kept (take gen fuel system c t) := by
  cases c with
  | randBits bits => exact takeBits_leaves h hc
  | randRange range =>
    have hbits := countBits_le (x := range - 1) (n := 64) (BitVec.isLt _)
    exact takeRange_leaves h (range - 1) (by omega) fuel
  | rand32 => exact takeBits_leaves h (by decide)
  | rand64 => exact takeBytes_leaves h 8
  | rand256 => exact takeBytes_leaves h 32
  | randBool => exact takeBits_leaves h (by decide)
  | randBytes len => exact takeBlock_leaves h len

/-- The places of the bits that are returned by the calls of a run. -/
def returned (log : List (Call × Except Fault (List Drawn))) : List Nat :=
  log.flatMap fun e =>
    match e.2 with
    | .ok taken => places taken
    | .error _ => []

theorem takeAll_fresh (gen : Generator G) (fuel : Nat) (h : Fresh kept t)
    {calls : List (Call × Hash256)} (hcalls : ∀ c ∈ calls, c.1.Valid) :
    Fresh (kept ++ returned (takeAll gen fuel calls t).1) (takeAll gen fuel calls t).2 ∧
      ∀ e ∈ (takeAll gen fuel calls t).1, ∀ fault, e.2 = .error fault →
        fault = .unseeded ∨ fault = .spent := by
  induction calls generalizing t kept with
  | nil =>
    refine ⟨?_, fun e he => by cases he⟩
    rw [takeAll, returned, List.flatMap_nil, List.append_nil]
    exact h
  | cons c calls ih =>
    obtain ⟨c, system⟩ := c
    have hrest : ∀ c ∈ calls, c.1.Valid := fun c hc => hcalls c (List.mem_cons_of_mem _ hc)
    have hleaves : Leaves kept (take gen fuel system c t) :=
      take_leaves h (hcalls (c, system) List.mem_cons_self) fuel
    rw [takeAll]
    generalize take gen fuel system c t = r at hleaves ⊢
    cases hleaves with
    | returned h =>
      obtain ⟨hfresh, hfaults⟩ := ih h hrest
      rw [List.append_assoc] at hfresh
      refine ⟨hfresh, fun e he => ?_⟩
      rcases List.mem_cons.mp he with rfl | he
      · exact fun fault hfault => by cases hfault
      · exact hfaults e he
    | raised h =>
      obtain ⟨rfl | rfl, h⟩ := h
      · obtain ⟨hfresh, hfaults⟩ := ih h hrest
        refine ⟨hfresh, fun e he => ?_⟩
        rcases List.mem_cons.mp he with rfl | he
        · rintro fault ⟨⟩
          exact .inl rfl
        · exact hfaults e he
      · refine ⟨?_, fun e he => ?_⟩
        · change Fresh (kept ++ ([] ++ [])) _
          rw [List.append_nil, List.append_nil]
          exact h
        · obtain rfl := List.mem_singleton.mp he
          rintro fault ⟨⟩
          exact .inr rfl

end Freshness

end BitSupply
