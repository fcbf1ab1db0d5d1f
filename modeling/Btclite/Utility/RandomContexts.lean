import Btclite.Utility.BitSupply

/-!
# What random contexts return

A context and the supply it sees do the same, so that every buffer is read where it is
filled and no bit is returned twice. What a fresh context sees is nothing but its
generator, and that of a deterministic one has been fed memory that was never set.
-/

namespace RandomContexts

open Endian Serialize Effects FastRandom BitSupply

section Seeing

variable {G : Type} {gen : Generator G} {system system' : Hash256} {s : Context G} {t : Supply G}

/-- A context whose buffers hold what waits in the supply. The system gives both the same if it
is still asked. -/
structure Sees (same : Prop) (s : Context G) (t : Supply G) : Prop where
  rng : t.rng = s.rng
  requiresSeed : t.requiresSeed = s.requiresSeed
  seeds : s.requiresSeed = true → same
  bytebufSize : 0 ≤ s.bytebufSize ∧ s.bytebufSize ≤ 64
  bitbufSize : 0 ≤ s.bitbufSize ∧ s.bitbufSize ≤ 64
  bytes : t.bytes.map Prod.fst = bitsOf (s.bytebuf.data.drop (64 - s.bytebufSize).toNat)
  bits : t.bits.map Prod.fst = lowBits s.bitbufSize.toNat s.bitbuf

variable {same : Prop}

theorem Sees.length_bytes (h : Sees same s t) : (t.bytes.length : Int) = 8 * s.bytebufSize := by
  have hlen := congrArg List.length h.bytes
  have hsize := h.bytebufSize
  rw [List.length_map, length_bitsOf, List.length_drop, s.bytebuf.size_eq] at hlen
  omega

theorem Sees.length_bits (h : Sees same s t) : (t.bits.length : Int) = s.bitbufSize := by
  have hlen := congrArg List.length h.bits
  have hsize := h.bitbufSize
  rw [List.length_map, length_lowBits] at hlen
  omega

/-- The result is what was taken, as the bits of some bytes. -/
def SameBytes (same : Prop) {n : Nat} (bytes : Bytes n) (taken : List Drawn) (s : Context G)
    (t : Supply G) : Prop :=
  Sees same s t ∧ taken.map Prod.fst = bitsOf bytes.data

/-- The result is the word with the bits that were taken, of which there are so many. -/
def SameWord (same : Prop) (n : Nat) (value : U64) (taken : List Drawn) (s : Context G)
    (t : Supply G) : Prop :=
  Sees same s t ∧ taken.length = n ∧ value = word 64 (taken.map Prod.fst)

theorem draw_matched (h : Sees same s t) (n : Nat) :
    Matched (Sees same) (SameBytes same) (randomize gen n s) (draw gen n t) := by
  rw [randomize, draw, get_bind, get_bind, h.rng]
  obtain ⟨bytes, rng⟩ := gen.randomize n s.rng
  cases bytes with
  | some bytes =>
    refine .returned ⟨⟨rfl, h.requiresSeed, h.seeds, h.bytebufSize, h.bitbufSize, h.bytes, h.bits⟩,
      ?_⟩
    rw [List.zipIdx_map_fst]
  | none =>
    exact .raised _ ⟨rfl, h.requiresSeed, h.seeds, h.bytebufSize, h.bitbufSize, h.bytes, h.bits⟩

theorem Sees.seeded (hsys : same → system = system') (h : Sees same s t)
    (hreq : s.requiresSeed = true) :
    Sees same
      { s with rng := gen.addEntropy system.data s.rng, requiresSeed := false }
      { t with rng := gen.addEntropy system'.data t.rng, requiresSeed := false } where
  rng := by rw [h.rng, hsys (h.seeds hreq)]
  requiresSeed := rfl
  seeds := fun hcon => by cases hcon
  bytebufSize := h.bytebufSize
  bitbufSize := h.bitbufSize
  bytes := h.bytes
  bits := h.bits

def Filled (same : Prop) (_ _ : PUnit) (s : Context G) (t : Supply G) : Prop :=
  Sees same s t ∧ s.bytebufSize = 64

theorem refill_matched (hsys : same → system = system') (h : Sees same s t) :
    Matched (Sees same) (Filled same) (fillByteBuffer gen system s) (refill gen system' t) := by
  have hrest : ∀ (s : Context G) (t : Supply G), Sees same s t → Matched (Sees same) (Filled same)
      ((do
        let bytebuf ← randomize gen 64
        modify fun s => { s with bytebuf, bytebufSize := 64 } : Action G PUnit) s)
      ((do
        let bytes ← draw gen 64
        modify fun s => { s with bytes } : Taking G PUnit) t) := by
    intro s t h
    refine (draw_matched h 64).bind fun bytes taken s t h => .returned ⟨?_, rfl⟩
    exact ⟨h.1.rng, h.1.requiresSeed, h.1.seeds, ⟨(by decide : (0 : Int) ≤ 64), le_refl 64⟩,
      h.1.bitbufSize, h.2, h.1.bits⟩
  rw [fillByteBuffer, refill, get_bind, get_bind, h.requiresSeed]
  cases hreq : s.requiresSeed with
  | true => exact hrest _ _ (h.seeded hsys hreq)
  | false => exact hrest s t h

theorem takeBytes_matched (hsys : same → system = system') (h : Sees same s t) {n : Nat}
    (hn : n ≤ 64) :
    Matched (Sees same) (SameBytes same) (takeBuffer gen system n s)
      (takeBytes gen system' n t) := by
  have hrest : ∀ (s : Context G) (t : Supply G), Sees same s t → (n : Int) ≤ s.bytebufSize →
      Matched (Sees same) (SameBytes same)
        ((do
          let bytes ← readBuffer n
          modify fun s => { s with bytebufSize := s.bytebufSize - n }
          return bytes : Action G (Bytes n)) s)
        ((do
          let taken := (← get).bytes.take (8 * n)
          modify fun s => { s with bytes := s.bytes.drop (8 * n) }
          return taken : Taking G (List Drawn)) t) := by
    intro s t h hsize
    have hrange : 0 ≤ 64 - s.bytebufSize ∧ 64 - s.bytebufSize + n ≤ 64 := by
      have := h.bytebufSize
      omega
    have hread : readBuffer n s = .ok
        ⟨(s.bytebuf.data.drop (64 - s.bytebufSize).toNat).take n, by
          rw [List.length_take, List.length_drop, s.bytebuf.size_eq]
          omega⟩ s := by
      rw [readBuffer, get_bind]
      exact congrFun (dif_pos hrange) s
    rw [bind_of_ok hread]
    refine .returned ⟨⟨h.rng, h.requiresSeed, h.seeds, ?_, h.bitbufSize, ?_, h.bits⟩, ?_⟩
    · change 0 ≤ s.bytebufSize - (n : Int) ∧ s.bytebufSize - (n : Int) ≤ 64
      have := h.bytebufSize
      omega
    · change (t.bytes.drop (8 * n)).map Prod.fst =
        bitsOf (s.bytebuf.data.drop (64 - (s.bytebufSize - (n : Int))).toNat)
      have hstart : (64 - (s.bytebufSize - (n : Int))).toNat = (64 - s.bytebufSize).toNat + n := by
        omega
      rw [List.map_drop, h.bytes, drop_bitsOf, List.drop_drop, hstart]
    · rw [List.map_take, h.bytes, take_bitsOf]
  have hlen := h.length_bytes
  rw [takeBuffer, takeBytes, get_bind, get_bind]
  by_cases hless : s.bytebufSize < n
  · rw [if_pos hless, if_pos (by omega)]
    refine (refill_matched hsys h).bind fun _ _ s t hfilled => hrest s t hfilled.1 ?_
    rw [hfilled.2]
    omega
  · rw [if_neg hless, if_neg (by omega)]
    exact hrest s t h (by omega)

theorem rand64_matched (hsys : same → system = system') (h : Sees same s t) :
    Matched (Sees same) (SameWord same 64) (rand64 gen system s) (takeBytes gen system' 8 t) := by
  have hbytes : Matched (Sees same) (SameBytes same) (takeBuffer gen system 8 s)
      (takeBytes gen system' 8 t) := takeBytes_matched hsys h (by decide)
  rw [rand64]
  refine hbytes.returning _ fun bytes taken s t hread => ⟨hread.1, ?_, ?_⟩
  · have hlen := congrArg List.length hread.2
    rw [List.length_map, length_bitsOf, bytes.size_eq] at hlen
    exact hlen
  · rw [hread.2, fromLittleEndian_eq_word]

theorem shiftRight_ok {n : Int} (h : 0 ≤ n ∧ n < 64) (value : U64) :
    (shiftRight value n : Action G U64) s = .ok (value >>> n.toNat) s := by
  rw [shiftRight, if_pos h]
  rfl

theorem shiftRight_fault {n : Int} (h : ¬ (0 ≤ n ∧ n < 64)) (value : U64) :
    (shiftRight value n : Action G U64) s = .error .shift s := by
  rw [shiftRight, if_neg h]
  rfl

theorem fillBitBuffer_matched (hsys : same → system = system') (h : Sees same s t) :
    Matched (Sees same) (fun _ _ s t => Sees same s t ∧ s.bitbufSize = 64)
      (fillBitBuffer gen system s) (refillBits gen system' t) := by
  rw [fillBitBuffer, refillBits]
  refine (rand64_matched hsys h).bind fun value taken s t hword => .returned ⟨?_, rfl⟩
  obtain ⟨h, hlen, hvalue⟩ := hword
  refine ⟨h.rng, h.requiresSeed, h.seeds, h.bytebufSize,
    ⟨(by decide : (0 : Int) ≤ 64), le_refl 64⟩, h.bytes, ?_⟩
  change taken.map Prod.fst = lowBits 64 value
  rw [hvalue, lowBits_word (by rw [List.length_map, hlen])]

/-- A word of which the bits are at hand. -/
theorem randBits_large (hsys : same → system = system') (h : Sees same s t) {bits : Int}
    (hbits : 32 < bits) :
    Matched (Sees same) (SameWord same bits.toNat)
      ((do
        let value ← rand64 gen system
        shiftRight value (64 - bits) : Action G U64) s)
      ((do
        let taken ← takeBytes gen system' 8
        if 64 < bits then throw .shift
        return taken.drop (64 - bits).toNat : Taking G (List Drawn)) t) := by
  refine (rand64_matched hsys h).bind fun value taken s t hword => ?_
  obtain ⟨h, hlen, hvalue⟩ := hword
  by_cases hover : 64 < bits
  · rw [if_pos hover, shiftRight_fault (by omega)]
    exact .raised _ h
  · rw [if_neg hover, shiftRight_ok (by omega)]
    refine .returned ⟨h, ?_, ?_⟩
    · rw [List.length_drop, hlen]
      omega
    · rw [hvalue, word_shift (by rw [List.length_map]; omega), List.map_drop]

/-- The bits that are taken from the word that is kept. -/
theorem randBits_small (h : Sees same s t) {bits : Int} (hbits : bits ≤ 32)
    (hnonzero : bits ≠ 0) (hsize : bits ≤ s.bitbufSize) :
    Matched (Sees same) (SameWord same bits.toNat)
      ((do
        let mask ← shiftRight (~~~0) (64 - bits)
        let ret := (← get).bitbuf &&& mask
        let bitbuf ← shiftRight (← get).bitbuf bits
        modify fun s => { s with bitbuf, bitbufSize := s.bitbufSize - bits }
        return ret : Action G U64) s)
      ((do
        if bits < 0 then throw .shift
        let taken := (← get).bits.take bits.toNat
        modify fun s => { s with bits := s.bits.drop bits.toNat }
        return taken : Taking G (List Drawn)) t) := by
  by_cases hneg : bits < 0
  · rw [if_pos hneg, bind_of_error _ (shiftRight_fault (by omega) _)]
    exact .raised _ h
  · rw [if_neg hneg, bind_of_ok (shiftRight_ok (by omega) _), get_bind, get_bind,
      bind_of_ok (shiftRight_ok (by omega) _)]
    refine .returned ⟨⟨h.rng, h.requiresSeed, h.seeds, h.bytebufSize, ?_, h.bytes, ?_⟩, ?_, ?_⟩
    · change 0 ≤ s.bitbufSize - bits ∧ s.bitbufSize - bits ≤ 64
      have := h.bitbufSize
      omega
    · change (t.bits.drop bits.toNat).map Prod.fst =
        lowBits (s.bitbufSize - bits).toNat (s.bitbuf >>> bits.toNat)
      have hrest : (s.bitbufSize - bits).toNat = s.bitbufSize.toNat - bits.toNat := by omega
      rw [List.map_drop, h.bits, drop_lowBits, hrest]
    · have hlen := h.length_bits
      rw [List.length_take]
      omega
    · have hmask : (64 - bits).toNat = 64 - bits.toNat := by omega
      rw [List.map_take, h.bits, take_lowBits (by omega), hmask, word_mask (by omega)]

theorem randBits_matched (hsys : same → system = system') (h : Sees same s t) (bits : Int) :
    Matched (Sees same) (SameWord same bits.toNat)
      (randBits gen system bits s) (takeBits gen system' bits t) := by
  rw [randBits, takeBits]
  by_cases hzero : bits = 0
  · rw [if_pos hzero, if_pos hzero, hzero]
    exact .returned ⟨h, rfl, rfl⟩
  · rw [if_neg hzero, if_neg hzero]
    by_cases hlarge : 32 < bits
    · rw [if_pos hlarge, if_pos hlarge]
      exact randBits_large hsys h hlarge
    · rw [if_neg hlarge, if_neg hlarge, get_bind, get_bind, h.length_bits]
      by_cases hless : s.bitbufSize < bits
      · rw [if_pos hless, if_pos hless]
        refine (fillBitBuffer_matched hsys h).bind fun _ _ s t hfilled =>
          randBits_small hfilled.1 (by omega) hzero ?_
        rw [hfilled.2]
        omega
      · rw [if_neg hless, if_neg hless]
        exact randBits_small h (by omega) hzero (by omega)

theorem tryRange_matched (hsys : same → system = system') (h : Sees same s t) (range : U64)
    (bits : Int) (fuel : Nat) :
    Matched (Sees same)
      (fun value taken s t => SameWord same bits.toNat value taken s t ∧ value ≤ range)
      (tryRange gen system range bits fuel s) (takeRange gen system' range bits fuel t) := by
  induction fuel generalizing s t with
  | zero => exact .raised _ h
  | succ fuel ih =>
    rw [tryRange, takeRange]
    refine (randBits_matched hsys h bits).bind fun value taken s t hword => ?_
    obtain ⟨h, hlen, hvalue⟩ := hword
    by_cases hle : value ≤ range
    · rw [if_pos hle, if_pos (hvalue ▸ hle)]
      exact .returned ⟨⟨h, hlen, hvalue⟩, hle⟩
    · rw [if_neg hle, if_neg (hvalue ▸ hle)]
      exact ih h

theorem rand32_matched (hsys : same → system = system') (h : Sees same s t) :
    Matched (Sees same)
      (fun value taken s t => Sees same s t ∧ value = word 32 (taken.map Prod.fst))
      (rand32 gen system s) (takeBits gen system' 32 t) := by
  rw [rand32]
  refine (randBits_matched hsys h 32).returning _ fun value taken s t hword => ⟨hword.1, ?_⟩
  rw [hword.2.2, setWidth_word (by decide)]

theorem randBool_matched (hsys : same → system = system') (h : Sees same s t) :
    Matched (Sees same)
      (fun value taken s t => Sees same s t ∧ value = (word 64 (taken.map Prod.fst) != 0))
      (FastRandom.randBool gen system s) (takeBits gen system' 1 t) := by
  rw [FastRandom.randBool]
  refine (randBits_matched hsys h 1).returning _ fun value taken s t hword => ⟨hword.1, ?_⟩
  rw [hword.2.2]

theorem randBytes_matched (h : Sees same s t) (len : Nat) :
    Matched (Sees same)
      (fun bytes taken s t => Sees same s t ∧ taken.map Prod.fst = bitsOf bytes)
      (randBytes gen len s) (takeBlock gen len t) := by
  rw [randBytes, takeBlock]
  by_cases hlen : 0 < len
  · rw [if_pos hlen, if_pos hlen]
    exact (draw_matched h len).returning _ fun bytes taken s t hread => hread
  · rw [if_neg hlen, if_neg hlen]
    exact .returned ⟨h, rfl⟩

end Seeing

section Calls

variable {G : Type} {gen : Generator G} {system system' : Hash256} {s : Context G} {t : Supply G}
  {same : Prop} {c : Call}

/-- The values that a call may return. -/
def InRange : Call → Value → Prop
  | .randBits bits, .word value => value.toNat < 2 ^ bits.toNat
  | .randRange range, .word value => value < range
  | _, _ => True

/-- A call returns what it has taken from the supply, or faults as that does. -/
def FromBits (c : Call) : Except Fault Value → Except Fault (List Drawn) → Prop
  | .ok value, .ok taken => Reads c value (taken.map Prod.fst) ∧ (c.Valid → InRange c value)
  | .error fault, .error fault' => fault = fault'
  | _, _ => False

theorem FromBits.of_ok {value : Value} {taken : Except Fault (List Drawn)}
    (h : FromBits c (.ok value) taken) :
    ∃ bits, taken = .ok bits ∧ Reads c value (bits.map Prod.fst) ∧
      (c.Valid → InRange c value) := by
  cases taken with
  | ok bits => exact ⟨bits, rfl, h⟩
  | error fault => exact h.elim

theorem FromBits.of_error {fault : Fault} {taken : Except Fault (List Drawn)}
    (h : FromBits c (.error fault) taken) : taken = .error fault := by
  cases taken with
  | ok bits => exact h.elim
  | error fault' => rw [show fault = fault' from h]

def Returns (same : Prop) (c : Call) (value : Value) (taken : List Drawn) (s : Context G)
    (t : Supply G) : Prop :=
  Sees same s t ∧ FromBits c (.ok value) (.ok taken)

theorem SameWord.toNat_lt {n : Nat} {value : U64} {taken : List Drawn}
    (h : SameWord same n value taken s t) : value.toNat < 2 ^ n := by
  have hlt := toNat_word_lt 64 (taken.map Prod.fst)
  rw [List.length_map, h.2.1] at hlt
  rw [h.2.2]
  exact hlt

theorem call_matched (hsys : same → system = system') (h : Sees same s t) (fuel : Nat) :
    Matched (Sees same) (Returns same c) (call gen fuel system c s)
      (take gen fuel system' c t) := by
  cases c with
  | randBits bits =>
    refine (randBits_matched hsys h bits).map _ fun value taken s t hword => ⟨hword.1, ?_⟩
    exact ⟨.randBits hword.2.2, fun _ => hword.toNat_lt⟩
  | randRange range =>
    refine (tryRange_matched hsys h (range - 1) (countBits (range - 1)) fuel).map _
      fun value taken s t hword => ⟨hword.1.1, .randRange hword.1.2.2, fun hvalid => ?_⟩
    have hpos : range ≠ 0 := hvalid
    have hle := hword.2
    change value < range
    bv_omega
  | rand32 =>
    exact (rand32_matched hsys h).map _ fun value taken s t hread =>
      ⟨hread.1, .rand32 hread.2, fun _ => trivial⟩
  | rand64 =>
    exact (rand64_matched hsys h).map _ fun value taken s t hword =>
      ⟨hword.1, .rand64 hword.2.2, fun _ => trivial⟩
  | rand256 =>
    exact (takeBytes_matched hsys h (by decide)).map _ fun value taken s t hbytes =>
      ⟨hbytes.1, .rand256 hbytes.2.symm, fun _ => trivial⟩
  | randBool =>
    exact (randBool_matched hsys h).map _ fun value taken s t hread =>
      ⟨hread.1, .randBool hread.2, fun _ => trivial⟩
  | randBytes len =>
    exact (randBytes_matched h len).map _ fun value taken s t hbytes =>
      ⟨hbytes.1, .randBytes hbytes.2.symm, fun _ => trivial⟩

end Calls

section Runs

variable {G : Type} {gen : Generator G} {fuel : Nat} {s : Context G} {t : Supply G} {same : Prop}
  {calls calls' : List (Call × Hash256)}

/-- The same calls one after the other, each returning what it took. -/
def Fits (log : List (Call × Except Fault Value))
    (taken : List (Call × Except Fault (List Drawn))) : Prop :=
  List.Forall₂ (fun e e' => e.1 = e'.1 ∧ FromBits e.1 e.2 e'.2) log taken

theorem runCalls_matched (gen : Generator G) (fuel : Nat) (h : Sees same s t)
    (hcalls : calls.map Prod.fst = calls'.map Prod.fst) (hsystems : same → calls = calls') :
    Sees same (runCalls gen fuel calls s).2 (takeAll gen fuel calls' t).2 ∧
      Fits (runCalls gen fuel calls s).1 (takeAll gen fuel calls' t).1 := by
  induction calls generalizing s t calls' with
  | nil =>
    obtain rfl : calls' = [] := List.map_eq_nil_iff.mp hcalls.symm
    exact ⟨h, .nil⟩
  | cons call calls ih =>
    obtain ⟨c, system⟩ := call
    cases calls' with
    | nil => cases hcalls
    | cons call' calls' =>
      obtain ⟨c', system'⟩ := call'
      obtain ⟨rfl, hrest⟩ : c = c' ∧ calls.map Prod.fst = calls'.map Prod.fst := by
        simpa using hcalls
      have hsys : same → system = system' := fun hs =>
        congrArg Prod.snd (List.cons.inj (hsystems hs)).1
      have hsame : same → calls = calls' := fun hs => (List.cons.inj (hsystems hs)).2
      have hcall : Matched (Sees same) (Returns same c) (call gen fuel system c s)
          (take gen fuel system' c t) := call_matched hsys h fuel
      rw [runCalls, takeAll]
      generalize call gen fuel system c s = r at hcall ⊢
      generalize take gen fuel system' c t = r' at hcall ⊢
      cases hcall with
      | returned h =>
        obtain ⟨hsees, hfits⟩ := ih h.1 hrest hsame
        exact ⟨hsees, .cons ⟨rfl, h.2⟩ hfits⟩
      | raised fault h =>
        cases fault with
        | unseeded =>
          obtain ⟨hsees, hfits⟩ := ih h hrest hsame
          exact ⟨hsees, .cons ⟨rfl, rfl⟩ hfits⟩
        | outside => exact ⟨h, .cons ⟨rfl, rfl⟩ .nil⟩
        | shift => exact ⟨h, .cons ⟨rfl, rfl⟩ .nil⟩
        | spent => exact ⟨h, .cons ⟨rfl, rfl⟩ .nil⟩

theorem Fits.of_mem {log : List (Call × Except Fault Value)}
    {taken : List (Call × Except Fault (List Drawn))} (h : Fits log taken)
    {e : Call × Except Fault Value} (he : e ∈ log) :
    ∃ e' ∈ taken, FromBits e.1 e.2 e'.2 := by
  induction h with
  | nil => cases he
  | cons hfirst _ ih =>
    rcases List.mem_cons.mp he with rfl | he
    · exact ⟨_, List.mem_cons_self, hfirst.2⟩
    · obtain ⟨e', he', hfits⟩ := ih he
      exact ⟨e', List.mem_cons_of_mem _ he', hfits⟩

theorem FromBits.unique {c : Call} {outcome outcome' : Except Fault Value}
    {taken : Except Fault (List Drawn)} (h : FromBits c outcome taken)
    (h' : FromBits c outcome' taken) : outcome = outcome' := by
  cases outcome with
  | ok value =>
    obtain ⟨bits, rfl, hreads, -⟩ := h.of_ok
    cases outcome' with
    | ok value' => rw [hreads.unique h'.1]
    | error fault => exact h'.elim
  | error fault =>
    obtain rfl := h.of_error
    cases outcome' with
    | ok value => exact h'.elim
    | error fault' => rw [show fault' = fault from h']

/-- What is taken tells what is returned. -/
theorem Fits.unique {log log' : List (Call × Except Fault Value)}
    {taken : List (Call × Except Fault (List Drawn))} (h : Fits log taken) (h' : Fits log' taken) :
    log = log' := by
  induction h generalizing log' with
  | nil =>
    cases h'
    rfl
  | @cons e e' log taken hfirst hrest ih =>
    cases h' with
    | @cons e'' _ log' _ hfirst' hrest' =>
      have hcall : e.1 = e''.1 := hfirst.1.trans hfirst'.1.symm
      have houtcome : e.2 = e''.2 := hfirst.2.unique (hcall ▸ hfirst'.2)
      rw [Prod.ext hcall houtcome, ih hrest']

theorem mem_runCalls {e : Call × Except Fault Value} (he : e ∈ (runCalls gen fuel calls s).1) :
    ∃ c ∈ calls, c.1 = e.1 := by
  induction calls generalizing s with
  | nil => cases he
  | cons call calls ih =>
    obtain ⟨c, system⟩ := call
    have hfirst : ∃ c' ∈ (c, system) :: calls, c'.1 = c := ⟨_, List.mem_cons_self, rfl⟩
    have hrest : ∀ s, e ∈ (runCalls gen fuel calls s).1 →
        ∃ c' ∈ (c, system) :: calls, c'.1 = e.1 := by
      intro s he
      obtain ⟨c', hc', heq⟩ := ih he
      exact ⟨c', List.mem_cons_of_mem _ hc', heq⟩
    rw [runCalls] at he
    split at he
    · rcases List.mem_cons.mp he with rfl | he
      · exact hfirst
      · exact hrest _ he
    · rcases List.mem_cons.mp he with rfl | he
      · exact hfirst
      · exact hrest _ he
    · obtain rfl := List.mem_singleton.mp he
      exact hfirst

end Runs

section Results

variable {G : Type} {gen : Generator G} {memory memory' : Uninitialised} {s : Context G}
  {same : Prop}

/-- What a context sees before any call: nothing is drawn. -/
def supplyOf (s : Context G) : Supply G where
  rng := s.rng
  requiresSeed := s.requiresSeed
  drawn := 0
  bytes := []
  bits := []

theorem drop_nil (bytebuf : Bytes 64) : bitsOf (bytebuf.data.drop 64) = [] := by
  rw [List.drop_eq_nil_of_le (Nat.le_of_eq bytebuf.size_eq)]
  rfl

theorem Constructed.sees (h : Constructed gen memory s) (hseeds : s.requiresSeed = true → same) :
    Sees same s (supplyOf s) := by
  have hlow : (0 : Int) ≤ 0 ∧ (0 : Int) ≤ 64 := by decide
  cases h with
  | ofSeed seed => exact ⟨rfl, rfl, hseeds, hlow, hlow, (drop_nil _).symm, rfl⟩
  | construct deterministic => exact ⟨rfl, rfl, hseeds, hlow, hlow, (drop_nil _).symm, rfl⟩

/-- What is promised of a run of calls on a context: sizes that are ones of the buffers, no read
outside of them and no shift out of the word, values in their ranges, and bits that are drawn
from the generator and returned once. -/
structure Sound (gen : Generator G) (fuel : Nat) (calls : List (Call × Hash256))
    (s : Context G) : Prop where
  bytebufSize : 0 ≤ (runCalls gen fuel calls s).2.bytebufSize ∧
    (runCalls gen fuel calls s).2.bytebufSize ≤ 64
  bitbufSize : 0 ≤ (runCalls gen fuel calls s).2.bitbufSize ∧
    (runCalls gen fuel calls s).2.bitbufSize ≤ 64
  inside : ∀ e ∈ (runCalls gen fuel calls s).1, ∀ fault, e.2 = .error fault →
    fault = .unseeded ∨ fault = .spent
  in_range : ∀ e ∈ (runCalls gen fuel calls s).1, ∀ value, e.2 = .ok value → InRange e.1 value
  fits : Fits (runCalls gen fuel calls s).1 (takeAll gen fuel calls (supplyOf s)).1
  never_twice : (returned (takeAll gen fuel calls (supplyOf s)).1).Nodup

/-- Whatever is called on a fresh context, its buffers are read where they are filled, and each
bit that is drawn is returned once at most. -/
theorem context_sound (hs : Constructed gen memory s) (fuel : Nat)
    {calls : List (Call × Hash256)} (hcalls : ∀ c ∈ calls, c.1.Valid) :
    Sound gen fuel calls s := by
  have hsees : Sees True s (supplyOf s) := Constructed.sees hs fun _ => trivial
  obtain ⟨hafter, hfits⟩ := runCalls_matched gen fuel hsees (Eq.refl (calls.map Prod.fst))
    fun _ => rfl
  have hfresh : Fresh [] (supplyOf s) := ⟨List.nodup_nil, fun p hp => by cases hp⟩
  obtain ⟨htaken, hfaults⟩ := takeAll_fresh gen fuel hfresh hcalls
  refine ⟨hafter.bytebufSize, hafter.bitbufSize, fun e he fault hfault => ?_,
    fun e he value hvalue => ?_, hfits, ?_⟩
  · obtain ⟨e', he', hfrom⟩ := hfits.of_mem he
    rw [hfault] at hfrom
    exact hfaults e' he' fault hfrom.of_error
  · obtain ⟨e', he', hfrom⟩ := hfits.of_mem he
    obtain ⟨c, hc, heq⟩ := mem_runCalls he
    rw [hvalue] at hfrom
    obtain ⟨-, -, -, hrange⟩ := hfrom.of_ok
    exact hrange (heq ▸ hcalls c hc)
  · exact (List.nodup_append.mp htaken.nodup).1

/-- A generator that gives what it was fed. -/
def revealing : Generator (List Byte) where
  fresh := []
  seeded := id
  addEntropy bytes fed := fed ++ bytes
  randomize n fed := (some ⟨(fed ++ List.replicate n 0).take n, by simp⟩, fed)

theorem context_sound_revealing :
    Sound revealing 8 [(.randBits 3, Bytes.zero 32), (.randRange 10, Bytes.zero 32),
        (.randBytes 5, Bytes.zero 32)]
      (construct revealing ⟨Bytes.zero 64, 0, Bytes.zero 32⟩ false) :=
  context_sound (.construct false) 8 (List.forall_mem_cons.mpr ⟨⟨by decide, by decide⟩,
    List.forall_mem_cons.mpr ⟨(by decide : (10 : U64) ≠ 0), List.forall_mem_singleton.mpr trivial⟩⟩)

/-- Two contexts of the kind that is to be deterministic return the same, whatever function of
the entropy the generator is. -/
def Deterministic (memory memory' : Uninitialised) : Prop :=
  ∀ (G : Type) (gen : Generator G) (fuel : Nat) (calls calls' : List (Call × Hash256)),
    calls.map Prod.fst = calls'.map Prod.fst →
    (runCalls gen fuel calls (construct gen memory true)).1 =
      (runCalls gen fuel calls' (construct gen memory' true)).1

theorem Deterministic.seed_eq (h : Deterministic memory memory') : memory.seed = memory'.seed := by
  have hlog := h _ revealing 0 [(.randBytes 32, Bytes.zero 32)] [(.randBytes 32, Bytes.zero 32)] rfl
  have hreveals : ∀ memory : Uninitialised,
      (runCalls revealing 0 [(.randBytes 32, Bytes.zero 32)] (construct revealing memory true)).1 =
        [(.randBytes 32, .ok (.bytes memory.seed.data))] := by
    intro memory
    have hfed : (([] ++ memory.seed.data) ++ List.replicate 32 0).take 32 = memory.seed.data := by
      rw [List.nil_append, List.take_left' memory.seed.size_eq]
    calc (runCalls revealing 0 [(.randBytes 32, Bytes.zero 32)]
            (construct revealing memory true)).1
        = [(.randBytes 32, .ok (.bytes
            ((([] ++ memory.seed.data) ++ List.replicate 32 0).take 32)))] := rfl
      _ = [(.randBytes 32, .ok (.bytes memory.seed.data))] := by rw [hfed]
  rw [hreveals, hreveals] at hlog
  have hbytes : memory.seed.data = memory'.seed.data := by simpa using hlog
  exact Bytes.ext hbytes

theorem deterministic_of_seed (h : memory.seed = memory'.seed) : Deterministic memory memory' := by
  intro G gen fuel calls calls' hcalls
  have hsame : supplyOf (construct gen memory true) = supplyOf (construct gen memory' true) := by
    simp only [supplyOf, construct, h]
  have hsees : Sees False (construct gen memory true) (supplyOf (construct gen memory true)) :=
    Constructed.sees (.construct true) fun hreq => by cases hreq
  have hsees' : Sees False (construct gen memory' true) (supplyOf (construct gen memory true)) := by
    rw [hsame]
    exact Constructed.sees (.construct true) fun hreq => by cases hreq
  have hfits := (runCalls_matched gen fuel hsees (Eq.refl (calls.map Prod.fst)) False.elim).2
  have hfits' := (runCalls_matched gen fuel hsees' hcalls.symm False.elim).2
  exact hfits.unique hfits'

/-- Deterministic contexts are so just when the memory happens to hold the same where the
constructor has its seed. -/
theorem deterministic_iff (memory memory' : Uninitialised) :
    Deterministic memory memory' ↔ memory.seed = memory'.seed :=
  ⟨Deterministic.seed_eq, deterministic_of_seed⟩

theorem not_deterministic : ¬ ∀ memory memory', Deterministic memory memory' := by
  intro h
  have hseed := (h ⟨Bytes.zero 64, 0, Bytes.zero 32⟩
    ⟨Bytes.zero 64, 0, Bytes.cons 1 (Bytes.zero 31)⟩).seed_eq
  exact absurd hseed (by decide)

end Results

end RandomContexts
