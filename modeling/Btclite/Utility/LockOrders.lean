import Btclite.Library.Runs
import Btclite.Library.Tables
import Mathlib.Data.Finset.Insert
import Mathlib.Data.List.AList
import Mathlib.Data.List.TakeWhile

/-!
# Lock orders

The early deadlock detection of `sync.cpp`, as it is with `CHECK_LOCKORDER`.
Each thread keeps a stack of the locks it holds, and every push records under
one mutex which locks were beneath. Threads and locks are of any type; a lock
is the address of its critical section.
-/

namespace LockOrders

open Runs

structure LockLocation where
  mutexName : String
  file : String
  line : Int
  isTry : Bool

def LockLocation.toString (location : LockLocation) : String :=
  location.mutexName ++ " " ++ location.file ++ ":" ++ ToString.toString location.line ++
    if location.isTry then " (TRY)" else ""

section Detection

variable {T L : Type} [DecidableEq T] [DecidableEq L]

variable (L) in
abbrev LockStack : Type := List (L × LockLocation)

variable (L) in
structure LockData where
  lockOrders : AList (fun _ : L × L => LockStack L) := ∅
  invlockOrders : Finset (L × L) := ∅

variable (L) in
/-- What `potential_deadlock_detected` is called with. -/
structure Report where
  mismatch : L × L
  previous : LockStack L
  current : LockStack L

def Report.lockLines (report : Report L) (it : L × LockLocation) : List String :=
  (if it.1 = report.mismatch.1 then [" (1)"]
    else if it.1 = report.mismatch.2 then [" (2)"]
    else []) ++ [" " ++ it.2.toString]

/-- What is logged before the assertion that ends the program. -/
def Report.lines (report : Report L) : List String :=
  ["POTENTIAL DEADLOCK DETECTED", "Previous lock order was:"] ++
    report.previous.flatMap report.lockLines ++
    "Current lock order is:" :: report.current.flatMap report.lockLines

/-- The loop of `PushLock` over the stack, up to the lock that is pushed. -/
def recordOrders (c : L) (stack : LockStack L) :
    LockStack L → LockData L → LockData L × List (Report L)
  | [], data => (data, [])
  | it :: rest, data =>
    if it.1 = c then (data, [])
    else
      let pair := (it.1, c)
      let invpair := (c, it.1)
      let data := { data with
        lockOrders := data.lockOrders.insert pair stack
        invlockOrders := insert invpair data.invlockOrders }
      let reports := match data.lockOrders.lookup invpair with
        | some previous => [⟨pair, previous, stack⟩]
        | none => []
      let (data, more) := recordOrders c stack rest data
      (data, reports ++ more)

variable (T L) in
/-- The `thread_local` stacks and what the threads share. -/
structure Detector where
  lockStack : T → LockStack L := fun _ => []
  data : LockData L := {}

variable (T L) in
inductive Event where
  | push (t : T) (c : L) (location : LockLocation)
  | pop (t : T)

namespace Detector

variable (s : Detector T L)

/-- `PushLock`, which does not look at `try_lock`. An assertion that is compiled out lets the
loop go on, so there may be several reports. -/
def pushLock (t : T) (c : L) (location : LockLocation) : Detector T L × List (Report L) :=
  let stack := s.lockStack t ++ [(c, location)]
  let (data, reports) := recordOrders c stack stack s.data
  ({ lockStack := Function.update s.lockStack t stack, data }, reports)

/-- `PopLock`. Nobody pops from an empty stack, where `pop_back` is undefined; here it leaves
the stack empty. -/
def popLock (t : T) : Detector T L :=
  { s with lockStack := Function.update s.lockStack t (s.lockStack t).dropLast }

def step : Event T L → Detector T L
  | .push t c location => (s.pushLock t c location).1
  | .pop t => s.popLock t

def reports : Event T L → List (Report L)
  | .push t c location => (s.pushLock t c location).2
  | .pop _ => []

@[simp] theorem step_push_lockStack {t : T} {c : L} {location : LockLocation} :
    (s.step (.push t c location)).lockStack =
      Function.update s.lockStack t (s.lockStack t ++ [(c, location)]) := rfl

@[simp] theorem step_push_data {t : T} {c : L} {location : LockLocation} :
    (s.step (.push t c location)).data =
      (recordOrders c (s.lockStack t ++ [(c, location)]) (s.lockStack t ++ [(c, location)])
        s.data).1 := rfl

@[simp] theorem reports_push {t : T} {c : L} {location : LockLocation} :
    s.reports (.push t c location) =
      (recordOrders c (s.lockStack t ++ [(c, location)]) (s.lockStack t ++ [(c, location)])
        s.data).2 := rfl

@[simp] theorem step_pop_lockStack {t : T} :
    (s.step (.pop t)).lockStack = Function.update s.lockStack t (s.lockStack t).dropLast := rfl

@[simp] theorem step_pop_data {t : T} : (s.step (.pop t)).data = s.data := rfl

end Detector

def after (history : List (Event T L)) : Detector T L := history.foldl Detector.step {}

/-- The locks on the stack of a thread, the latest last. -/
def held (history : List (Event T L)) (t : T) : List L :=
  ((after history).lockStack t).map Prod.fst

/-- A thread that held one lock pushed the other, which was not on its stack. -/
def Ordered (history : List (Event T L)) (b a : L) : Prop :=
  ∃ earlier t location, earlier ++ [.push t a location] <+: history ∧
    a ∉ held earlier t ∧ b ∈ held earlier t

/-- Nothing was reported. -/
def Quiet (history : List (Event T L)) : Prop :=
  Throughout Detector.step (fun s event => s.reports event = []) {} history

end Detection

section Stacks

variable {L : Type} [DecidableEq L] {l l' : List L} {a c : L}

/-- The locks that were pushed before this one was first. -/
def beneath (c : L) (l : List L) : List L := l.takeWhile (· ≠ c)

theorem beneath_cons_self : beneath c (c :: l) = [] :=
  List.takeWhile_cons_of_neg (by simp)

theorem beneath_cons_of_ne (h : a ≠ c) : beneath c (a :: l) = a :: beneath c l :=
  List.takeWhile_cons_of_pos (by simpa using h)

theorem beneath_append (h : c ∈ l) : beneath c (l ++ l') = beneath c l := by
  obtain ⟨before, later, rfl, hnot⟩ := List.eq_append_cons_of_mem h
  have hall : ∀ x ∈ before, decide (x ≠ c) = true :=
    fun x hx => decide_eq_true fun heq => hnot (heq ▸ hx)
  rw [beneath, beneath, List.append_assoc, List.takeWhile_append_of_pos hall,
    List.takeWhile_append_of_pos hall, List.cons_append, List.takeWhile_cons_of_neg (by simp),
    List.takeWhile_cons_of_neg (by simp)]

theorem beneath_concat_of_notMem (h : c ∉ l) : beneath c (l ++ [c]) = l := by
  have hall : ∀ x ∈ l, decide (x ≠ c) = true :=
    fun x hx => decide_eq_true fun heq => h (heq ▸ hx)
  rw [beneath, List.takeWhile_append_of_pos hall, List.takeWhile_cons_of_neg (by simp),
    List.append_nil]

end Stacks

section Recording

variable {L : Type} [DecidableEq L] {c : L} {stack rest : LockStack L} {data : LockData L}

/-- The loop adds the pairs of the locks beneath with this one. -/
theorem mem_recordOrders (pair : L × L) :
    pair ∈ (recordOrders c stack rest data).1.lockOrders ↔
      pair ∈ data.lockOrders ∨ ∃ a ∈ beneath c (rest.map Prod.fst), pair = (a, c) := by
  induction rest generalizing data with
  | nil => simp [recordOrders, beneath]
  | cons it rest ih =>
    rw [recordOrders]
    by_cases hc : it.1 = c
    · rw [if_pos hc, List.map_cons, hc, beneath_cons_self]
      simp
    · rw [if_neg hc, List.map_cons, beneath_cons_of_ne hc]
      dsimp only
      rw [ih, AList.mem_insert]
      simp only [List.mem_cons, exists_eq_or_imp]
      tauto

/-- A report is about a lock beneath that was recorded the other way before. -/
theorem mem_recordOrders_reports (report : Report L) :
    report ∈ (recordOrders c stack rest data).2 ↔
      ∃ a ∈ beneath c (rest.map Prod.fst), report.mismatch = (a, c) ∧
        data.lockOrders.lookup (c, a) = some report.previous ∧ report.current = stack := by
  induction rest generalizing data with
  | nil => simp [recordOrders, beneath]
  | cons it rest ih =>
    rw [recordOrders]
    by_cases hc : it.1 = c
    · rw [if_pos hc, List.map_cons, hc, beneath_cons_self]
      simp
    · rw [if_neg hc, List.map_cons, beneath_cons_of_ne hc]
      -- what the loop inserts is never looked up in it
      have hother (a : L) : (data.lockOrders.insert (it.1, c) stack).lookup (c, a) =
          data.lockOrders.lookup (c, a) :=
        AList.lookup_insert_ne fun heq => hc (congrArg Prod.fst heq).symm
      dsimp only
      rw [List.mem_append, ih]
      simp only [hother, List.mem_cons, exists_eq_or_imp]
      refine or_congr_left ?_
      cases hlookup : data.lockOrders.lookup (c, it.1) with
      | none => simp
      | some previous =>
        obtain ⟨mismatch, earlier, current⟩ := report
        rw [List.mem_singleton, Report.mk.injEq, Option.some_inj, eq_comm (a := previous)]

/-- A stack that is recorded shows the first lock of its pair beneath the second. -/
structure Shown (data : LockData L) : Prop where
  shows : ∀ pair previous, data.lockOrders.lookup pair = some previous →
    pair.1 ∈ beneath pair.2 (previous.map Prod.fst) ∧ pair.2 ∈ previous.map Prod.fst
  mirrored : ∀ pair, pair.swap ∈ data.invlockOrders ↔ pair ∈ data.lockOrders

theorem Shown.recordOrders (h : Shown data) (hc : c ∈ stack.map Prod.fst)
    (hrest : ∀ a ∈ beneath c (rest.map Prod.fst), a ∈ beneath c (stack.map Prod.fst)) :
    Shown (recordOrders c stack rest data).1 := by
  induction rest generalizing data with
  | nil => exact h
  | cons it rest ih =>
    rw [LockOrders.recordOrders]
    by_cases heq : it.1 = c
    · rw [if_pos heq]
      exact h
    · rw [if_neg heq]
      rw [List.map_cons, beneath_cons_of_ne heq] at hrest
      refine ih ⟨fun pair previous hlookup => ?_, fun pair => ?_⟩
        fun a ha => hrest a (List.mem_cons_of_mem _ ha)
      · by_cases hpair : pair = (it.1, c)
        · subst hpair
          rw [AList.lookup_insert, Option.some_inj] at hlookup
          rw [← hlookup]
          exact ⟨hrest it.1 List.mem_cons_self, hc⟩
        · rw [AList.lookup_insert_ne hpair] at hlookup
          exact h.shows pair previous hlookup
      · rw [AList.mem_insert, Finset.mem_insert, h.mirrored, ← Prod.swap_inj, Prod.swap_swap]
        rfl

end Recording

section Histories

variable {T L : Type} [DecidableEq T] [DecidableEq L] {history : List (Event T L)}
  {event : Event T L} {t t' : T} {a b c : L} {location : LockLocation}

theorem after_concat : after (history ++ [event]) = (after history).step event :=
  List.foldl_concat _ _ _ _

theorem held_push : held (history ++ [.push t' c location]) t =
    if t = t' then held history t ++ [c] else held history t := by
  rw [held, after_concat, Detector.step_push_lockStack, held]
  by_cases h : t = t'
  · rw [if_pos h, h, Function.update_self, List.map_append]
    rfl
  · rw [if_neg h, Function.update_of_ne h]

theorem held_pop : held (history ++ [.pop t']) t =
    if t = t' then (held history t).dropLast else held history t := by
  rw [held, after_concat, Detector.step_pop_lockStack, held]
  by_cases h : t = t'
  · rw [if_pos h, h, Function.update_self, List.map_dropLast]
  · rw [if_neg h, Function.update_of_ne h]

theorem ordered_concat : Ordered (history ++ [event]) b a ↔ Ordered history b a ∨
    ∃ t location, event = .push t a location ∧ a ∉ held history t ∧ b ∈ held history t := by
  constructor
  · rintro ⟨earlier, t, location, hprefix, hnew, hheld⟩
    rcases List.prefix_concat_iff.mp hprefix with heq | hbefore
    · obtain ⟨rfl, hevent⟩ := List.append_inj' heq rfl
      exact .inr ⟨t, location, (List.singleton_inj.mp hevent).symm, hnew, hheld⟩
    · exact .inl ⟨earlier, t, location, hbefore, hnew, hheld⟩
  · rintro (⟨earlier, t, location, hprefix, hpair⟩ | ⟨t, location, rfl, hpair⟩)
    · exact ⟨earlier, t, location, hprefix.trans (List.prefix_append _ _), hpair⟩
    · exact ⟨history, t, location, List.prefix_rfl, hpair⟩

/-- A lock was pushed over the locks beneath it when it came to the stack. -/
theorem beneath_ordered (hc : c ∈ held history t) (ha : a ∈ beneath c (held history t)) :
    Ordered history a c := by
  induction history using List.reverseRecOn with
  | nil => exact absurd hc List.not_mem_nil
  | append_singleton history event ih =>
    rw [ordered_concat]
    cases event with
    | push t' c' location =>
      rw [held_push] at hc ha
      split_ifs at hc ha with ht
      · subst ht
        by_cases hold : c ∈ held history t
        · rw [beneath_append hold] at ha
          exact .inl (ih hold ha)
        · obtain rfl : c = c' := by simpa [hold] using hc
          rw [beneath_concat_of_notMem hold] at ha
          exact .inr ⟨t, location, rfl, hold, ha⟩
      · exact .inl (ih hc ha)
    | pop t' =>
      rw [held_pop] at hc ha
      split_ifs at hc ha with ht
      · have hne : held history t ≠ [] := fun hempty => by simp [hempty] at hc
        have hsame : beneath c (held history t).dropLast = beneath c (held history t) := by
          conv_rhs => rw [← List.dropLast_append_getLast hne]
          rw [beneath_append hc]
        rw [hsame] at ha
        exact .inl (ih (List.mem_of_mem_dropLast hc) ha)
      · exact .inl (ih hc ha)

theorem mem_lockOrders_iff (history : List (Event T L)) (pair : L × L) :
    pair ∈ (after history).data.lockOrders ↔ Ordered history pair.1 pair.2 := by
  induction history using List.reverseRecOn with
  | nil =>
    refine iff_of_false (AList.notMem_empty pair) ?_
    rintro ⟨earlier, t, location, hprefix, -⟩
    simp at hprefix
  | append_singleton history event ih =>
    rw [after_concat, ordered_concat]
    cases event with
    | push t c location =>
      rw [Detector.step_push_data, mem_recordOrders, ih, List.map_append]
      change _ ∨ (∃ a ∈ beneath c (held history t ++ [c]), _) ↔ _
      constructor
      · rintro (hold | ⟨a, ha, rfl⟩)
        · exact .inl hold
        · by_cases hc : c ∈ held history t
          · rw [beneath_append hc] at ha
            exact .inl (beneath_ordered hc ha)
          · rw [beneath_concat_of_notMem hc] at ha
            exact .inr ⟨t, location, rfl, hc, ha⟩
      · rintro (hold | ⟨t', location', hevent, hc, ha⟩)
        · exact .inl hold
        · cases hevent
          refine .inr ⟨pair.1, ?_, rfl⟩
          rw [beneath_concat_of_notMem hc]
          exact ha
    | pop t =>
      rw [Detector.step_pop_data, ih]
      simp

theorem reports_iff_beneath : (after history).reports (.push t c location) ≠ [] ↔
    ∃ a ∈ beneath c (held history t ++ [c]), Ordered history c a := by
  rw [Detector.reports_push]
  have hlocks : ((after history).lockStack t ++ [(c, location)]).map Prod.fst =
      held history t ++ [c] := List.map_append
  constructor
  · intro hreports
    obtain ⟨report, hreport⟩ := List.exists_mem_of_ne_nil _ hreports
    obtain ⟨a, ha, -, hlookup, -⟩ := (mem_recordOrders_reports report).mp hreport
    rw [hlocks] at ha
    exact ⟨a, ha, (mem_lockOrders_iff history (c, a)).mp (Tables.lookup_eq_some_mem hlookup)⟩
  · rintro ⟨a, ha, hordered⟩
    obtain ⟨previous, hlookup⟩ :=
      Tables.exists_lookup ((mem_lockOrders_iff history (c, a)).mpr hordered)
    rw [← hlocks] at ha
    exact List.ne_nil_of_mem ((mem_recordOrders_reports ⟨(a, c), previous, _⟩).mpr
      ⟨a, ha, rfl, hlookup, rfl⟩)

theorem shown_after (history : List (Event T L)) : Shown (after history).data := by
  induction history using List.reverseRecOn with
  | nil =>
    refine ⟨fun pair previous hlookup => ?_, fun pair => ?_⟩
    · simp [after] at hlookup
    · simp [after]
  | append_singleton history event ih =>
    rw [after_concat]
    cases event with
    | push t c location =>
      rw [Detector.step_push_data]
      exact ih.recordOrders (by simp) fun _ => id
    | pop t => exact ih

/-- What is logged shows the two locks in the one order first and then in the other. -/
theorem report_shows {report : Report L}
    (h : report ∈ (after history).reports (.push t c location)) :
    report.mismatch.2 ∈ beneath report.mismatch.1 (report.previous.map Prod.fst) ∧
      report.mismatch.1 ∈ beneath report.mismatch.2 (report.current.map Prod.fst) := by
  obtain ⟨a, ha, hmismatch, hlookup, hcurrent⟩ := (mem_recordOrders_reports report).mp h
  rw [hmismatch, hcurrent]
  exact ⟨((shown_after history).shows (c, a) _ hlookup).1, ha⟩

theorem Quiet.concat (h : Quiet (history ++ [event])) :
    Quiet history ∧ (after history).reports event = [] := by
  rw [Quiet, throughout_iff_forall] at h
  refine ⟨?_, h history event List.prefix_rfl⟩
  rw [Quiet, throughout_iff_forall]
  exact fun done a hdone => h done a (hdone.trans (List.prefix_append _ _))

/-- As long as nothing is reported, no two locks were taken in both orders. -/
theorem Quiet.one_order (h : Quiet history) : ¬ (Ordered history a b ∧ Ordered history b a) := by
  induction history using List.reverseRecOn generalizing a b with
  | nil =>
    rintro ⟨⟨earlier, t, location, hprefix, -⟩, -⟩
    simp at hprefix
  | append_singleton history event ih =>
    obtain ⟨hquiet, hreports⟩ := h.concat
    -- a pair that is new and was there the other way would have been reported
    have hnew (t : T) (location : LockLocation) (c a : L) (hevent : event = .push t c location)
        (hc : c ∉ held history t) (ha : a ∈ held history t) : ¬ Ordered history c a := by
      intro hordered
      subst hevent
      refine reports_iff_beneath.mpr ⟨a, ?_, hordered⟩ hreports
      rw [beneath_concat_of_notMem hc]
      exact ha
    rw [ordered_concat, ordered_concat]
    rintro ⟨hab | ⟨t, location, hevent, hb, ha⟩, hba | ⟨t', location', hevent', ha', hb'⟩⟩
    · exact ih hquiet ⟨hab, hba⟩
    · exact hnew t' location' a b hevent' ha' hb' hab
    · exact hnew t location b a hevent hb ha hba
    · cases hevent.symm.trans hevent'
      exact hb hb'

end Histories

section Results

variable {T L : Type} [DecidableEq T] [DecidableEq L]

/-- The first report comes when a lock is pushed that is not held yet, over one that was once
pushed over it. Until then no two locks are recorded in both orders, and to push a lock again
records nothing new. -/
theorem first_report_iff (history : List (Event T L)) :
    (Quiet history →
      (∀ t b location, (after history).reports (.push t b location) ≠ [] ↔
        b ∉ held history t ∧ ∃ a ∈ held history t, Ordered history b a) ∧
      ∀ a b, ¬ ((a, b) ∈ (after history).data.lockOrders ∧
        (b, a) ∈ (after history).data.lockOrders)) ∧
    ∀ t b location, b ∈ held history t → ∀ pair,
      pair ∈ (after (history ++ [.push t b location])).data.lockOrders ↔
        pair ∈ (after history).data.lockOrders := by
  refine ⟨fun hquiet => ⟨fun t b location => ?_, fun a b => ?_⟩, fun t b location hb pair => ?_⟩
  · rw [reports_iff_beneath]
    by_cases hb : b ∈ held history t
    · rw [beneath_append hb]
      refine iff_of_false ?_ fun h => h.1 hb
      rintro ⟨a, ha, hordered⟩
      exact hquiet.one_order ⟨beneath_ordered hb ha, hordered⟩
    · rw [beneath_concat_of_notMem hb]
      exact (and_iff_right hb).symm
  · rw [mem_lockOrders_iff, mem_lockOrders_iff]
    exact hquiet.one_order
  · rw [mem_lockOrders_iff, mem_lockOrders_iff, ordered_concat]
    refine or_iff_left ?_
    rintro ⟨t', location', hevent, hnot, -⟩
    cases hevent
    exact hnot hb

/-- One thread took the second lock while it held the first. -/
theorem first_report_iff_crossed :
    let location : LockLocation := ⟨"cs_main", "net.cpp", 7, false⟩
    let history : List (Event Bool Nat) :=
      [.push true 1 location, .push true 2 location, .pop true, .pop true, .push false 2 location]
    (after history).reports (.push false 1 location) ≠ [] := by
  intro location history
  have hquiet : Quiet history := ⟨rfl, rfl, rfl, rfl, rfl, trivial⟩
  refine (((first_report_iff history).1 hquiet).1 false 1 location).mpr
    ⟨by decide, 2, by decide, ?_⟩
  exact ⟨[.push true 1 location], true, location, ⟨_, rfl⟩, by decide, by decide⟩

end Results

end LockOrders
