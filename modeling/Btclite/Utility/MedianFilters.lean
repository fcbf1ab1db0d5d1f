import Btclite.Utility.UtilTime
import Mathlib.Data.List.DropRight

/-!
# Median filters

The class template `MedianFilter` of `util.h`, over any linear order. Its window keeps the
last values of a stream, and beside it stands a sorted copy. `Median` counts that in an
`int`, which the window outgrows if the size asked for lets it.
-/

namespace MedianFilters

open Medians

section Model

inductive Fault where
  | assertion
  | outOfRange
deriving DecidableEq

structure MedianFilter (T : Type) where
  values : List T
  sorted : List T
  size : BitVec 32

variable {T : Type} [LinearOrder T] [Inhabited T]

def resize (l : List T) (n : Nat) : List T := l.take n ++ List.replicate (n - l.length) default

/-- `std::copy` to the beginning of a vector that is long enough. -/
def copyTo (target source : List T) : List T := source ++ target.drop source.length

/-- `sorted_[index]`. -/
def entry (l : List T) (index : Int) : Except Fault T :=
  match l[index.toNat]? with
  | some value => .ok value
  | none => .error .outOfRange

namespace MedianFilter

def make (size : BitVec 32) (initialValue : T) : MedianFilter T where
  values := [initialValue]
  sorted := [initialValue]
  size

def input (f : MedianFilter T) (value : T) : MedianFilter T :=
  let values := (if f.values.length = f.size.toNat then f.values.tail else f.values) ++ [value]
  { f with values, sorted := Medians.sorted id (copyTo (resize f.sorted values.length) values) }

/-- `mean` is half of the sum of two values. -/
def median (mean : T → T → T) (f : MedianFilter T) : Except Fault T :=
  let sortedSize := (BitVec.ofNat 32 f.sorted.length).toInt
  if sortedSize ≤ 0 then .error .assertion
  else if sortedSize % 2 = 1 then entry f.sorted (sortedSize / 2)
  else return mean (← entry f.sorted (sortedSize / 2 - 1)) (← entry f.sorted (sortedSize / 2))

end MedianFilter

def run (size : BitVec 32) (initialValue : T) (inputs : List T) : MedianFilter T :=
  inputs.foldl .input (.make size initialValue)

end Model

section Property

variable {T : Type} [LinearOrder T] [Inhabited T]

/-- How many values of the stream the window holds. -/
def stored (size : BitVec 32) (inputs : List T) : Nat := min size.toNat (inputs.length + 1)

/-- The last values of the stream that starts with the initial one. -/
def window (size : BitVec 32) (initialValue : T) (inputs : List T) : List T :=
  (initialValue :: inputs).rtake (stored size inputs)

/-- The filter sorts its window and finds the median of an odd number of values. -/
structure Filters (mean : T → T → T) (size : BitVec 32) (initialValue : T) (inputs : List T) :
    Prop where
  sorted_perm : (run size initialValue inputs).sorted.Perm (window size initialValue inputs)
  sorted_ascends : (run size initialValue inputs).sorted.Pairwise (· ≤ ·)
  median : stored size inputs % 2 = 1 → ∃ m,
    (run size initialValue inputs).median mean = .ok m ∧ m ∈ window size initialValue inputs ∧
    2 * (window size initialValue inputs).countP (· < m) ≤ stored size inputs ∧
    2 * (window size initialValue inputs).countP (m < ·) ≤ stored size inputs

end Property

section Sliding

variable {T : Type}

/-- A full window drops its oldest value for the new one. -/
theorem rtake_slide {n : Nat} (hn : 1 ≤ n) (stream : List T) (value : T) :
    (if (stream.rtake n).length = n then (stream.rtake n).tail else stream.rtake n) ++ [value] =
      (stream ++ [value]).rtake n := by
  rw [List.rtake, List.rtake, List.length_drop, List.length_append, List.length_singleton]
  split_ifs with hfull
  · have hdrop : stream.length + 1 - n = stream.length - n + 1 := by omega
    rw [List.tail_drop, hdrop, List.drop_append_of_le_length (by omega)]
  · have hkept : stream.length - n = 0 := by omega
    have hroom : stream.length + 1 - n = 0 := by omega
    rw [hkept, hroom, List.drop_zero, List.drop_zero]

theorem copyTo_resize [Inhabited T] (l values : List T) :
    copyTo (resize l values.length) values = values := by
  have hlen : (resize l values.length).length = values.length := by
    rw [resize, List.length_append, List.length_take, List.length_replicate]
    omega
  rw [copyTo, List.drop_eq_nil_of_le (Nat.le_of_eq hlen), List.append_nil]

theorem window_eq (size : BitVec 32) (initialValue : T) (inputs : List T) :
    window size initialValue inputs = (initialValue :: inputs).rtake size.toNat := by
  rw [window, stored, List.rtake, List.rtake, List.length_cons]
  congr 1
  omega

theorem length_window (size : BitVec 32) (initialValue : T) (inputs : List T) :
    (window size initialValue inputs).length = stored size inputs := by
  rw [window, List.rtake, List.length_drop, List.length_cons, stored]
  omega

theorem stored_lt (size : BitVec 32) (inputs : List T) : stored size inputs < 2 ^ 32 :=
  Nat.lt_of_le_of_lt (Nat.min_le_left _ _) size.isLt

end Sliding

section Windows

variable {T : Type} [LinearOrder T] [Inhabited T] {f : MedianFilter T} {size : BitVec 32}

theorem input_sorted (f : MedianFilter T) (value : T) :
    (f.input value).sorted = Medians.sorted id (f.input value).values := by
  simp only [MedianFilter.input, copyTo_resize]

/-- What the filter holds after a stream. -/
structure Holds (size : BitVec 32) (stream : List T) (f : MedianFilter T) : Prop where
  values : f.values = stream.rtake size.toNat
  sorted : f.sorted = Medians.sorted id f.values
  size : f.size = size

theorem Holds.input {stream : List T} (h : Holds size stream f) (hsize : 1 ≤ size.toNat)
    (value : T) : Holds size (stream ++ [value]) (f.input value) where
  values := by
    rw [← rtake_slide hsize, ← h.values, ← h.size]
    rfl
  sorted := input_sorted f value
  size := h.size

theorem run_holds (hsize : 1 ≤ size.toNat) (initialValue : T) (inputs : List T) :
    Holds size (initialValue :: inputs) (run size initialValue inputs) := by
  induction inputs using List.reverseRecOn with
  | nil =>
    refine ⟨?_, ?_, rfl⟩
    · have hall : [initialValue].length - size.toNat = 0 := by
        rw [List.length_singleton]
        omega
      rw [List.rtake, hall]
      rfl
    · exact (List.perm_singleton.mp (sorted_perm id [initialValue])).symm
  | append_singleton inputs value ih =>
    rw [run, List.foldl_concat]
    exact ih.input hsize value

end Windows

section Middles

variable {T : Type} {mean : T → T → T} {f : MedianFilter T}

/-- The count as an `int`. -/
theorem toInt_ofNat_small {n : Nat} (h : n < 2 ^ 31) : (BitVec.ofNat 32 n).toInt = n := by
  rw [BitVec.toInt_ofNat']
  exact Int.bmod_eq_of_le (by omega) (by omega)

theorem toInt_ofNat_large {n : Nat} (hlow : 2 ^ 31 ≤ n) (hhigh : n < 2 ^ 32) :
    (BitVec.ofNat 32 n).toInt < 0 := by
  rw [BitVec.toInt_neg_iff, BitVec.toNat_ofNat, Nat.mod_eq_of_lt hhigh]
  omega

theorem median_small (mean : T → T → T) (f : MedianFilter T)
    (hsmall : f.sorted.length < 2 ^ 31) (hodd : f.sorted.length % 2 = 1) :
    ∃ m, f.median mean = .ok m ∧ f.sorted[f.sorted.length / 2]? = some m := by
  have hget : f.sorted[f.sorted.length / 2]? = some f.sorted[f.sorted.length / 2] :=
    List.getElem?_eq_getElem (by omega)
  have hpos : ¬ ((f.sorted.length : Int) ≤ 0) := by omega
  have hoddInt : (f.sorted.length : Int) % 2 = 1 := by omega
  have hindex : ((f.sorted.length : Int) / 2).toNat = f.sorted.length / 2 := by omega
  refine ⟨_, ?_, hget⟩
  rw [MedianFilter.median, toInt_ofNat_small hsmall, if_neg hpos, if_pos hoddInt, entry, hindex,
    hget]

theorem median_large (hlow : 2 ^ 31 ≤ f.sorted.length) (hhigh : f.sorted.length < 2 ^ 32) :
    f.median mean = .error .assertion :=
  if_pos (Int.le_of_lt (toInt_ofNat_large hlow hhigh))

end Middles

section Results

variable {T : Type} [LinearOrder T] [Inhabited T] {mean : T → T → T} {size : BitVec 32}
  {initialValue : T} {inputs : List T}

/-- The sorted copy holds the window, and as many values. -/
theorem run_sorted (hsize : 1 ≤ size.toNat) :
    (run size initialValue inputs).sorted =
      Medians.sorted id (window size initialValue inputs) := by
  have h := run_holds hsize initialValue inputs
  rw [h.sorted, h.values, window_eq]

theorem length_run_sorted (hsize : 1 ≤ size.toNat) :
    (run size initialValue inputs).sorted.length = stored size inputs := by
  rw [run_sorted hsize, (sorted_perm id _).length_eq, length_window]

theorem Filters.of_small (hsize : 1 ≤ size.toNat)
    (hsmall : stored size inputs % 2 = 1 → stored size inputs < 2 ^ 31) :
    Filters mean size initialValue inputs where
  sorted_perm := by
    rw [run_sorted hsize]
    exact Medians.sorted_perm id _
  sorted_ascends := by
    rw [run_sorted hsize]
    exact sorted_pairwise id _
  median hodd := by
    have hlen : (run size initialValue inputs).sorted.length = stored size inputs :=
      length_run_sorted hsize
    obtain ⟨m, hrun, hmiddle⟩ := median_small mean (run size initialValue inputs)
      (hlen ▸ hsmall hodd) (hlen ▸ hodd)
    rw [hlen, ← length_window size initialValue, run_sorted hsize] at hmiddle
    have hmedian := middle_isMedian (by rw [length_window]; exact hodd) hmiddle
    have hbelow := hmedian.below
    have habove := hmedian.above
    rw [length_window] at hbelow habove
    exact ⟨m, hrun, hmedian.mem, Nat.le_of_lt hbelow, Nat.le_of_lt habove⟩

/-- More values than an `int` counts have no median, whatever their number. -/
theorem Filters.not_large (hsize : 1 ≤ size.toNat) (hodd : stored size inputs % 2 = 1)
    (hlarge : 2 ^ 31 ≤ stored size inputs) : ¬ Filters mean size initialValue inputs := by
  intro h
  obtain ⟨m, hrun, -⟩ := h.median hodd
  have hlen : (run size initialValue inputs).sorted.length = stored size inputs :=
    length_run_sorted hsize
  rw [median_large (hlen ▸ hlarge) (hlen ▸ stored_lt size inputs)] at hrun
  cases hrun

/-- The filter does what it should just when an odd number of values is one that an `int`
counts. -/
theorem filters_iff (mean : T → T → T) (size : BitVec 32) (hsize : 1 ≤ size.toNat)
    (initialValue : T) (inputs : List T) :
    Filters mean size initialValue inputs ↔
      (stored size inputs % 2 = 1 → stored size inputs < 2 ^ 31) := by
  refine ⟨fun h hodd => ?_, fun h => .of_small hsize h⟩
  by_contra hlarge
  exact Filters.not_large hsize hodd (Nat.le_of_not_lt hlarge) h

theorem filters_iff_three : Filters (fun a b : Int => (a + b).tdiv 2) 3 0 [10, 20, 30] ↔
    (stored 3 [10, 20, (30 : Int)] % 2 = 1 → stored 3 [10, 20, (30 : Int)] < 2 ^ 31) :=
  filters_iff _ 3 (by decide) 0 [10, 20, 30]

/-- One value more than an `int` counts. -/
theorem not_filters : ¬ ∀ (size : BitVec 32) (initialValue : Int) (inputs : List Int),
    1 ≤ size.toNat → Filters (fun a b => (a + b).tdiv 2) size initialValue inputs := by
  intro h
  have hstored : stored (2 ^ 31 + 1) (List.replicate (2 ^ 31) (0 : Int)) = 2 ^ 31 + 1 := by
    rw [stored, List.length_replicate]
    rfl
  refine Filters.not_large (by decide) ?_ ?_ (h (2 ^ 31 + 1) 0 (List.replicate (2 ^ 31) 0)
    (by decide))
  · rw [hstored]
    decide
  · rw [hstored]
    decide

end Results

/-! The filter of the time data is one over numbers. -/

section Samples

open UtilTime (I64)

variable {f : UtilTime.MedianFilter}

/-- With signed words as the numbers they are. -/
def ofTime (f : UtilTime.MedianFilter) : MedianFilter Int where
  values := f.values.map BitVec.toInt
  sorted := f.sorted.map BitVec.toInt
  size := BitVec.ofNat 32 f.size

theorem map_sorted (l : List I64) :
    (Medians.sorted BitVec.toInt l).map BitVec.toInt = Medians.sorted id (l.map BitVec.toInt) := by
  have hperm : ((Medians.sorted BitVec.toInt l).map BitVec.toInt).Perm
      (Medians.sorted id (l.map BitVec.toInt)) :=
    ((sorted_perm BitVec.toInt l).map _).trans (sorted_perm id _).symm
  refine hperm.eq_of_pairwise (fun a b _ _ => le_antisymm) ?_ (sorted_pairwise id _)
  exact List.pairwise_map.mpr (sorted_pairwise BitVec.toInt l)

theorem ofTime_make (size : Nat) (initialValue : I64) :
    ofTime (.make size initialValue) = .make (BitVec.ofNat 32 size) initialValue.toInt := rfl

theorem ofTime_input (hsize : f.size < 2 ^ 32) (value : I64) :
    ofTime (f.input value) = (ofTime f).input value.toInt := by
  have hvalues : ((if f.values.length = f.size then f.values.tail else f.values) ++ [value]).map
      BitVec.toInt = (if (ofTime f).values.length = (ofTime f).size.toNat then
        (ofTime f).values.tail else (ofTime f).values) ++ [value.toInt] := by
    rw [List.map_append, ofTime, BitVec.toNat_ofNat, Nat.mod_eq_of_lt hsize, List.length_map]
    split_ifs
    · rw [List.map_tail]
      rfl
    · rfl
  rw [MedianFilter.input, ← hvalues, copyTo_resize, ← map_sorted]
  rfl

theorem ofTime_median {mean : Int → Int → Int} (hsmall : f.sorted.length < 2 ^ 31)
    (hodd : f.sorted.length % 2 = 1) : (ofTime f).median mean = .ok f.median.toInt := by
  have hlen : (ofTime f).sorted.length = f.sorted.length := List.length_map _
  obtain ⟨m, hrun, hmiddle⟩ := median_small mean (ofTime f)
    (hlen ▸ hsmall) (hlen ▸ hodd)
  rw [hlen, ofTime, List.getElem?_map, Option.map_eq_some_iff] at hmiddle
  obtain ⟨value, hvalue, rfl⟩ := hmiddle
  rw [hrun, UtilTime.MedianFilter.median, if_pos hodd, List.getD_eq_getElem?_getD, hvalue,
    Option.getD_some]

/-- It runs as the template does. -/
theorem ofTime_run {size : Nat} (hsize : size < 2 ^ 32) (initialValue : I64) (inputs : List I64) :
    ofTime (inputs.foldl .input (.make size initialValue)) =
      run (BitVec.ofNat 32 size) initialValue.toInt (inputs.map BitVec.toInt) := by
  suffices h : ∀ f : UtilTime.MedianFilter, f.size < 2 ^ 32 →
      ofTime (inputs.foldl .input f) = (inputs.map BitVec.toInt).foldl .input (ofTime f) by
    rw [run, ← ofTime_make]
    exact h _ hsize
  induction inputs with
  | nil => exact fun _ _ => rfl
  | cons value inputs ih =>
    intro f hf
    rw [List.foldl_cons, ih (f.input value) hf, ofTime_input hf]
    rfl

end Samples

end MedianFilters
