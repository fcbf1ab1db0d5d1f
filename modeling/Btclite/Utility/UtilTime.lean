import Btclite.Library.Medians
import Btclite.Network.BanLists
import Mathlib.Data.Finset.Card

/-!
# Time data

`AddTimeData` of `util_time.cpp` and the `MedianFilter` it keeps the samples in.
The first 200 addresses each bring one sample; at odd numbers of values the
median becomes the offset of the network's time, if its `abs` is small. What is
stored is told from the calls alone.
-/

namespace UtilTime

open Serialize Address SubNets Medians
open BanLists (spell spell_injective address123)

/-- `int64_t`. -/
abbrev I64 := BitVec 64

def kMaxTimedataSamples : Nat := 200

/-- `MedianFilter<int64_t>`. -/
structure MedianFilter where
  values : List I64
  sorted : List I64
  size : Nat
deriving DecidableEq

namespace MedianFilter

def make (size : Nat) (initialValue : I64) : MedianFilter where
  values := [initialValue]
  sorted := [initialValue]
  size

def input (f : MedianFilter) (value : I64) : MedianFilter :=
  let values := (if f.values.length = f.size then f.values.tail else f.values) ++ [value]
  { f with values, sorted := Medians.sorted BitVec.toInt values }

def median (f : MedianFilter) : I64 :=
  let sortedSize := f.sorted.length
  if sortedSize % 2 = 1 then f.sorted.getD (sortedSize / 2) 0
  else (f.sorted.getD (sortedSize / 2 - 1) 0 + f.sorted.getD (sortedSize / 2) 0).sdiv 2

end MedianFilter

/-- The static variables of `AddTimeData` and the offset it sets. -/
structure TimeData where
  setKnown : List (List Char) := []
  timeOffsets : MedianFilter := .make kMaxTimedataSamples 0
  offset : I64 := 0
deriving DecidableEq

abbrev Call := NetAddr × I64

/-- What is set for a median; `abs` is the one of `int64_t`. -/
def limited (median : I64) : I64 := if median.abs.toInt ≤ 70 * 60 then median else 0

def addTimeData (base32Encode : List Endian.Byte → List Char) (s : TimeData) (c : Call) :
    TimeData :=
  let text := addrToString base32Encode c.1
  if s.setKnown.length = kMaxTimedataSamples then s
  else if text ∈ s.setKnown then s
  else
    let timeOffsets := s.timeOffsets.input c.2
    let size := timeOffsets.values.length
    { setKnown := s.setKnown ++ [text]
      timeOffsets
      offset := if 5 ≤ size ∧ size % 2 = 1 then limited timeOffsets.median else s.offset }

def run (base32Encode : List Endian.Byte → List Char) (calls : List Call) : TimeData :=
  calls.foldl (addTimeData base32Encode) {}

section Samples

/-- The different addresses among the calls. -/
def addresses (calls : List Call) : List (Bytes 16) := (calls.map (·.1.ip)).dedup

/-- A call counts if its address is new and not too many others came before. -/
def Counts (calls : List Call) (c : Call) : Prop :=
  c.1.ip ∉ addresses calls ∧ (addresses calls).length < kMaxTimedataSamples

instance (calls : List Call) (c : Call) : Decidable (Counts calls c) :=
  inferInstanceAs (Decidable (_ ∧ _))

/-- The samples of the calls that count, given the calls in front of them. -/
def samplesFrom : List Call → List Call → List I64
  | _, [] => []
  | before, c :: calls =>
    if Counts before c then c.2 :: samplesFrom (before ++ [c]) calls
    else samplesFrom (before ++ [c]) calls

def samples (calls : List Call) : List I64 := samplesFrom [] calls

/-- The values in the filter: the last 200 of an initial 0 and the samples. -/
def stored (calls : List Call) : List I64 :=
  (0 :: samples calls).drop ((samples calls).length + 1 - kMaxTimedataSamples)

theorem samplesFrom_concat (before calls : List Call) (c : Call) :
    samplesFrom before (calls ++ [c]) =
      samplesFrom before calls ++ if Counts (before ++ calls) c then [c.2] else [] := by
  induction calls generalizing before with
  | nil =>
    rw [List.nil_append, List.append_nil]
    simp only [samplesFrom, List.nil_append]
  | cons d calls ih =>
    have happend : before ++ d :: calls = before ++ [d] ++ calls := by simp
    rw [List.cons_append, samplesFrom, samplesFrom, ih, happend]
    split_ifs <;> rfl

theorem samples_concat (calls : List Call) (c : Call) :
    samples (calls ++ [c]) = samples calls ++ if Counts calls c then [c.2] else [] :=
  samplesFrom_concat [] calls c

theorem mem_addresses_concat {calls : List Call} {c : Call} {ip : Bytes 16} :
    ip ∈ addresses (calls ++ [c]) ↔ ip ∈ addresses calls ∨ ip = c.1.ip := by
  simp [addresses]

theorem addresses_length_concat (calls : List Call) (c : Call) :
    (addresses (calls ++ [c])).length =
      (addresses calls).length + if c.1.ip ∈ addresses calls then 0 else 1 := by
  simp only [addresses, ← List.card_toFinset, List.map_append, List.toFinset_append,
    List.mem_dedup]
  by_cases h : c.1.ip ∈ calls.map (·.1.ip)
  · rw [if_pos h, Finset.union_eq_left.mpr (by simpa using h)]
    rfl
  · rw [if_neg h, Finset.union_comm, List.map_singleton, List.toFinset_cons, List.toFinset_nil,
      insert_empty_eq, Finset.singleton_union, Finset.card_insert_of_notMem (by simpa using h)]

theorem samples_length (calls : List Call) :
    (samples calls).length = min kMaxTimedataSamples (addresses calls).length := by
  induction calls using List.reverseRecOn with
  | nil => rfl
  | append_singleton calls c ih =>
    rw [samples_concat, List.length_append, ih, addresses_length_concat]
    by_cases hmem : c.1.ip ∈ addresses calls
    · rw [if_neg fun h => h.1 hmem, if_pos hmem]
      rfl
    · rw [if_neg hmem]
      by_cases hless : (addresses calls).length < kMaxTimedataSamples
      · rw [if_pos ⟨hmem, hless⟩, List.length_singleton]
        omega
      · rw [if_neg fun h => hless h.2, List.length_nil]
        omega

end Samples

section Storing

/-- The filter holds what is told from the calls. -/
structure Holds (base32Encode : List Endian.Byte → List Char) (calls : List Call) (s : TimeData) :
    Prop where
  known : s.setKnown.length = min kMaxTimedataSamples (addresses calls).length
  texts : (addresses calls).length < kMaxTimedataSamples →
    ∀ a : NetAddr, addrToString base32Encode a ∈ s.setKnown ↔ a.ip ∈ addresses calls
  values : s.timeOffsets.values = stored calls
  sorted : s.timeOffsets.sorted = Medians.sorted BitVec.toInt (stored calls)
  size : s.timeOffsets.size = kMaxTimedataSamples

variable {base32Encode : List Endian.Byte → List Char} {calls : List Call} {s : TimeData}

theorem holds_nil : Holds base32Encode [] {} where
  known := rfl
  texts := fun _ _ => iff_of_false (List.not_mem_nil) (List.not_mem_nil)
  values := rfl
  sorted := by
    have hperm := (sorted_perm BitVec.toInt (stored [])).symm
    exact (List.perm_singleton.mp hperm.symm).symm
  size := rfl

/-- A call that does not count changes nothing. -/
theorem addTimeData_ignored (h : Holds base32Encode calls s) {c : Call} (hc : ¬ Counts calls c) :
    addTimeData base32Encode s c = s := by
  rw [addTimeData]
  by_cases hless : (addresses calls).length < kMaxTimedataSamples
  · have hseen : c.1.ip ∈ addresses calls := by
      by_contra hnew
      exact hc ⟨hnew, hless⟩
    have hknown := h.known
    rw [if_neg (by omega), if_pos ((h.texts hless c.1).mpr hseen)]
  · have hknown := h.known
    rw [if_pos (by omega)]

/-- The filter with the sample of a call that counts. -/
theorem addTimeData_counted (h : Holds base32Encode calls s) {c : Call} (hc : Counts calls c) :
    addTimeData base32Encode s c =
      { setKnown := s.setKnown ++ [addrToString base32Encode c.1]
        timeOffsets := s.timeOffsets.input c.2
        offset :=
          if 5 ≤ (s.timeOffsets.input c.2).values.length ∧
              (s.timeOffsets.input c.2).values.length % 2 = 1 then
            limited (s.timeOffsets.input c.2).median
          else s.offset } := by
  have hknown := h.known
  have hless := hc.2
  rw [addTimeData, if_neg (by omega), if_neg fun hmem => hc.1 ((h.texts hc.2 c.1).mp hmem)]

theorem stored_ignored {c : Call} (hc : ¬ Counts calls c) :
    stored (calls ++ [c]) = stored calls := by
  rw [stored, samples_concat, if_neg hc, List.append_nil, stored]

theorem stored_length (calls : List Call) :
    (stored calls).length = min kMaxTimedataSamples ((samples calls).length + 1) := by
  rw [stored, List.length_drop, List.length_cons]
  omega

/-- The oldest value goes when there is no more room. -/
theorem stored_counted {c : Call} (hc : Counts calls c) :
    stored (calls ++ [c]) =
      (if (stored calls).length = kMaxTimedataSamples then (stored calls).tail
        else stored calls) ++ [c.2] := by
  have hlen := samples_length calls
  have hless := hc.2
  have hall : stored calls = 0 :: samples calls := by
    rw [stored, Nat.sub_eq_zero_of_le (by omega), List.drop_zero]
  rw [stored_length, hall, stored, samples_concat, if_pos hc, List.length_append,
    List.length_singleton]
  by_cases hfull : (samples calls).length + 1 = kMaxTimedataSamples
  · have hdrop : (samples calls).length + 1 + 1 - kMaxTimedataSamples = 1 := by omega
    rw [if_pos (by omega), hdrop]
    rfl
  · have hdrop : (samples calls).length + 1 + 1 - kMaxTimedataSamples = 0 := by omega
    rw [if_neg (by omega), hdrop]
    rfl

theorem input_values (h : Holds base32Encode calls s) {c : Call} (hc : Counts calls c) :
    (s.timeOffsets.input c.2).values = stored (calls ++ [c]) := by
  rw [stored_counted hc, MedianFilter.input, h.values, h.size]

theorem Holds.step (hbase : Function.Injective base32Encode) (h : Holds base32Encode calls s)
    (c : Call) : Holds base32Encode (calls ++ [c]) (addTimeData base32Encode s c) := by
  have hlen := addresses_length_concat calls c
  by_cases hc : Counts calls c
  · have hvalues := input_values h hc
    rw [addTimeData_counted h hc]
    rw [if_neg hc.1] at hlen
    refine ⟨?_, fun hless a => ?_, hvalues, ?_, h.size⟩
    · have hknown := h.known
      have hroom := hc.2
      rw [List.length_append, List.length_singleton]
      omega
    · have hsame : addrToString base32Encode a = addrToString base32Encode c.1 ↔ a.ip = c.1.ip :=
        ⟨addrToString_inj hbase, addrToString_congr⟩
      rw [List.mem_append, List.mem_singleton, h.texts hc.2 a, hsame, mem_addresses_concat]
    · exact congrArg (Medians.sorted BitVec.toInt) hvalues
  · rw [addTimeData_ignored h hc]
    refine ⟨?_, fun hless a => ?_, ?_, ?_, h.size⟩
    · have hknown := h.known
      have hnot : c.1.ip ∉ addresses calls → kMaxTimedataSamples ≤ (addresses calls).length :=
        fun hnew => Nat.le_of_not_lt fun hless => hc ⟨hnew, hless⟩
      split_ifs at hlen with hseen
      · omega
      · have := hnot hseen
        omega
    · have hseen : c.1.ip ∈ addresses calls := by
        by_contra hnew
        rw [if_neg hnew] at hlen
        exact hc ⟨hnew, by omega⟩
      rw [mem_addresses_concat, h.texts (by omega) a]
      constructor
      · exact Or.inl
      · rintro (hmem | heq)
        · exact hmem
        · rwa [heq]
    · rw [stored_ignored hc, h.values]
    · rw [stored_ignored hc, h.sorted]

theorem run_holds (hbase : Function.Injective base32Encode) (calls : List Call) :
    Holds base32Encode calls (run base32Encode calls) := by
  induction calls using List.reverseRecOn with
  | nil => exact holds_nil
  | append_singleton calls c ih =>
    rw [run, List.foldl_concat]
    exact ih.step hbase c

end Storing

section Offsets

/-- There are an odd number of values, and five or more. -/
def Settles (values : List I64) : Prop := 5 ≤ values.length ∧ values.length % 2 = 1

instance : DecidablePred Settles := fun _ => inferInstanceAs (Decidable (_ ∧ _))

/-- More than half of the values are the least one there is, whose `abs` is negative. -/
def Tilted (values : List I64) : Prop :=
  Settles values ∧ values.length < 2 * values.count (BitVec.intMin 64)

instance : DecidablePred Tilted := fun _ => inferInstanceAs (Decidable (_ ∧ _))

/-- An absolute value that does not overflow. -/
def Limited (offset : I64) : Prop := offset.toInt.natAbs ≤ 70 * 60

instance : DecidablePred Limited := fun _ => inferInstanceAs (Decidable (_ ≤ _))

theorem limited_intMin : limited (BitVec.intMin 64) = BitVec.intMin 64 := by decide

theorem limited_of_ne {m : I64} (h : m ≠ BitVec.intMin 64) :
    limited m = if Limited m then m else 0 := by
  have hsame : m.abs.toInt ≤ 70 * 60 ↔ Limited m := by
    rw [BitVec.toInt_abs_eq_natAbs_of_ne_intMin h, Limited]
    omega
  simp only [limited, hsame]

theorem Limited.not_intMin : ¬ Limited (BitVec.intMin 64) := by decide

theorem limited_limited {m : I64} (h : m ≠ BitVec.intMin 64) : Limited (limited m) := by
  rw [limited_of_ne h]
  split_ifs with hm
  · exact hm
  · decide

/-- The median of an odd number of values is the least number there is exactly if more than
half of them are. -/
theorem isMedian_intMin_iff {values : List I64} {m : I64} (h : IsMedian BitVec.toInt values m) :
    m = BitVec.intMin 64 ↔ values.length < 2 * values.count (BitVec.intMin 64) := by
  have hleast := h.least_iff (b := (BitVec.intMin 64).toInt) BitVec.toInt_intMin_le
  rw [BitVec.toInt_inj] at hleast
  rw [hleast, List.count_eq_countP]
  have hsame : (fun a : I64 => decide (a.toInt = (BitVec.intMin 64).toInt)) =
      fun a => a == BitVec.intMin 64 := by
    funext a
    rw [Bool.eq_iff_iff, decide_eq_true_eq, BitVec.toInt_inj, beq_iff_eq]
  rw [hsame]

variable {base32Encode : List Endian.Byte → List Char} {calls : List Call} {s : TimeData}

theorem offset_counted (h : Holds base32Encode calls s) {c : Call} (hc : Counts calls c) :
    (addTimeData base32Encode s c).offset =
      if Settles (stored (calls ++ [c])) then limited (s.timeOffsets.input c.2).median
      else s.offset := by
  rw [addTimeData_counted h hc, ← input_values h hc]
  rfl

/-- A sample that settles the offset sets it by the median of the values stored. -/
theorem addTimeData_settles (h : Holds base32Encode calls s) {c : Call} (hc : Counts calls c)
    (hsettles : Settles (stored (calls ++ [c]))) :
    ∃ m, IsMedian BitVec.toInt (stored (calls ++ [c])) m ∧
      (addTimeData base32Encode s c).offset = limited m := by
  have hvalues := input_values h hc
  have hsorted : (s.timeOffsets.input c.2).sorted =
      Medians.sorted BitVec.toInt (stored (calls ++ [c])) :=
    congrArg (Medians.sorted BitVec.toInt) hvalues
  have hlen : (s.timeOffsets.input c.2).sorted.length = (stored (calls ++ [c])).length := by
    rw [hsorted, (sorted_perm BitVec.toInt _).length_eq]
  refine ⟨(s.timeOffsets.input c.2).median, ?_, ?_⟩
  · apply middle_isMedian hsettles.2
    have hodd := hsettles.2
    rw [← hlen] at hodd
    have hmiddle : (s.timeOffsets.input c.2).sorted.length / 2 <
        (s.timeOffsets.input c.2).sorted.length := by omega
    rw [MedianFilter.median, if_pos hodd, ← hsorted, ← hlen, List.getD_eq_getElem _ _ hmiddle,
      List.getElem?_eq_getElem hmiddle]
  · rw [offset_counted h hc, if_pos hsettles]

theorem addTimeData_unsettled (h : Holds base32Encode calls s) {c : Call}
    (hsettles : ¬ (Counts calls c ∧ Settles (stored (calls ++ [c])))) :
    (addTimeData base32Encode s c).offset = s.offset := by
  by_cases hc : Counts calls c
  · rw [offset_counted h hc, if_neg fun hs => hsettles ⟨hc, hs⟩]
  · rw [addTimeData_ignored h hc]

end Offsets

section Law

variable (base32Encode : List Endian.Byte → List Char)

/-- What a call should do, told from the calls before it. -/
structure Lawful (calls : List Call) (c : Call) : Prop where
  bounded : Limited (run base32Encode (calls ++ [c])).offset
  kept : ¬ (c.1.ip ∉ addresses calls ∧ Settles (stored (calls ++ [c]))) →
    (run base32Encode (calls ++ [c])).offset = (run base32Encode calls).offset
  set : c.1.ip ∉ addresses calls → Settles (stored (calls ++ [c])) →
    ∃ m, IsMedian BitVec.toInt (stored (calls ++ [c])) m ∧
      (run base32Encode (calls ++ [c])).offset = if Limited m then m else 0
  repeated : c.1.ip ∈ addresses calls → run base32Encode (calls ++ [c]) = run base32Encode calls
  closed : kMaxTimedataSamples ≤ (addresses calls).length →
    run base32Encode (calls ++ [c]) = run base32Encode calls

variable {base32Encode} {calls : List Call}

theorem run_concat (calls : List Call) (c : Call) : run base32Encode (calls ++ [c]) =
    addTimeData base32Encode (run base32Encode calls) c :=
  List.foldl_concat ..

/-- A new address settles nothing once there are too many. -/
theorem counts_iff {c : Call} (hsettles : Settles (stored (calls ++ [c]))) :
    Counts calls c ↔ c.1.ip ∉ addresses calls := by
  constructor
  · exact fun hc => hc.1
  · intro hnew
    by_contra hc
    have hless : ¬ (addresses calls).length < kMaxTimedataSamples := fun h => hc ⟨hnew, h⟩
    have hodd := hsettles.2
    rw [stored_ignored hc, stored_length, samples_length] at hodd
    have hlen : min kMaxTimedataSamples
        (min kMaxTimedataSamples (addresses calls).length + 1) = 200 := by
      simp only [kMaxTimedataSamples] at hless ⊢
      omega
    rw [hlen] at hodd
    omega

theorem stored_nil_not_tilted : ¬ Tilted (stored []) := fun h => absurd h.1.1 (by decide)

theorem offset_limited (hbase : Function.Injective base32Encode)
    (h : ∀ done, done <+: calls → ¬ Tilted (stored done)) :
    Limited (run base32Encode calls).offset := by
  induction calls using List.reverseRecOn with
  | nil => exact (by decide : Limited 0)
  | append_singleton calls c ih =>
    have hbefore := ih fun done hdone => h done (hdone.trans (List.prefix_append _ _))
    have hholds := run_holds hbase calls
    rw [run_concat]
    by_cases hsettles : Counts calls c ∧ Settles (stored (calls ++ [c]))
    · obtain ⟨m, hm, hoffset⟩ := addTimeData_settles hholds hsettles.1 hsettles.2
      have hne : m ≠ BitVec.intMin 64 := fun heq =>
        h _ List.prefix_rfl ⟨hsettles.2, (isMedian_intMin_iff hm).mp heq⟩
      rw [hoffset]
      exact limited_limited hne
    · rw [addTimeData_unsettled hholds hsettles]
      exact hbefore

theorem lawful_of_limited (hbase : Function.Injective base32Encode) {c : Call}
    (h : Limited (run base32Encode (calls ++ [c])).offset)
    (htilted : ¬ Tilted (stored (calls ++ [c]))) :
    Lawful base32Encode calls c := by
  have hholds := run_holds hbase calls
  constructor
  · exact h
  · intro hnot
    rw [run_concat]
    apply addTimeData_unsettled hholds
    rintro ⟨hc, hsettles⟩
    exact hnot ⟨hc.1, hsettles⟩
  · intro hnew hsettles
    have hc := (counts_iff hsettles).mpr hnew
    obtain ⟨m, hm, hoffset⟩ := addTimeData_settles hholds hc hsettles
    have hne : m ≠ BitVec.intMin 64 := fun heq =>
      htilted ⟨hsettles, (isMedian_intMin_iff hm).mp heq⟩
    exact ⟨m, hm, by rw [run_concat, hoffset, limited_of_ne hne]⟩
  · intro hseen
    rw [run_concat]
    exact addTimeData_ignored hholds fun hc => hc.1 hseen
  · intro hmany
    rw [run_concat]
    exact addTimeData_ignored hholds fun hc => absurd hc.2 (Nat.not_lt.mpr hmany)

/-- A call with which the values tilt drags the offset as far as it goes. -/
theorem dragged_of_tilted (hbase : Function.Injective base32Encode) {c : Call}
    (hc : Counts calls c) (htilted : Tilted (stored (calls ++ [c]))) :
    (run base32Encode (calls ++ [c])).offset = BitVec.intMin 64 := by
  obtain ⟨m, hm, hoffset⟩ := addTimeData_settles (run_holds hbase calls) hc htilted.1
  rw [run_concat, hoffset, (isMedian_intMin_iff hm).mpr htilted.2, limited_intMin]

/-- Every call does what it should exactly if the values that are stored never tilt. -/
theorem lawful_iff_never_tilted (hbase : Function.Injective base32Encode) (calls : List Call) :
    (∀ done c, done ++ [c] <+: calls → Lawful base32Encode done c) ↔
      ∀ done, done <+: calls → ¬ Tilted (stored done) := by
  constructor
  · intro h done
    induction done using List.reverseRecOn with
    | nil => exact fun _ => stored_nil_not_tilted
    | append_singleton done c ih =>
      intro hdone htilted
      by_cases hc : Counts done c
      · have hbounded := (h done c hdone).bounded
        rw [dragged_of_tilted hbase hc htilted] at hbounded
        exact Limited.not_intMin hbounded
      · rw [stored_ignored hc] at htilted
        exact ih ((List.prefix_append _ _).trans hdone) htilted
  · intro h done c hdone
    apply lawful_of_limited hbase
    · exact offset_limited hbase fun p hp => h p (hp.trans hdone)
    · exact h _ hdone

end Law

/-- Four addresses, with which there are five values to take the median of. -/
def fourCalls : List Call :=
  [(address123 1, 4000), (address123 2, -300), (address123 3, 200), (address123 4, 100)]

theorem lawful_iff_never_tilted_four :
    Settles (stored fourCalls) ∧ Lawful spell (fourCalls.take 3) (address123 4, 100) := by
  refine ⟨by decide, ?_⟩
  have hnever : ∀ done ∈ fourCalls.inits, ¬ Tilted (stored done) := by decide
  exact (lawful_iff_never_tilted spell_injective fourCalls).mpr
    (fun done hdone => hnever done ((List.mem_inits _ _).mpr hdone)) _ _ List.prefix_rfl

/-- A call with the least number there is. -/
def leastFrom (x : Endian.Byte) : Call := (address123 x, BitVec.intMin 64)

/-- Four addresses, each with such a sample, drag the offset to it. -/
theorem four_addresses_drag :
    (run spell [leastFrom 1, leastFrom 2, leastFrom 3, leastFrom 4]).offset = BitVec.intMin 64 ∧
      ¬ Limited (BitVec.intMin 64) := by
  have hcounts : Counts [leastFrom 1, leastFrom 2, leastFrom 3] (leastFrom 4) := by decide
  have hsettles : Settles (stored [leastFrom 1, leastFrom 2, leastFrom 3, leastFrom 4]) := by decide
  have hmost : (stored [leastFrom 1, leastFrom 2, leastFrom 3, leastFrom 4]).length <
      2 * (stored [leastFrom 1, leastFrom 2, leastFrom 3, leastFrom 4]).count
        (BitVec.intMin 64) := by decide
  constructor
  · exact dragged_of_tilted spell_injective hcounts ⟨hsettles, hmost⟩
  · exact Limited.not_intMin

end UtilTime
