import Btclite.Library.Runs
import Mathlib.Algebra.GroupWithZero.Nat
import Mathlib.Data.List.Nodup

/-!
# Timers

`TimerMng` of `timer.cpp` and the thread pool it hands its callbacks to. What
runs under the mutex is one step; a task is taken from the pool, starts the
callback, reads the interval behind it and then sets the timer again or removes
it, a step each with any others between. A timer is known by its pointer, a number that is
given once. The log tells what happened to which timer.
-/

namespace Timers

open Runs

/-- A reading of the clock. -/
abbrev Millis := Fin (2 ^ 63)

/-- The expiry of a timer whose task is queued. -/
def kNever : Nat := 2 ^ 64 - 1

structure TimerCfg where
  timeout : Nat
  interval : Nat
  expireMs : Nat
  suspended : Bool := false
deriving DecidableEq

namespace TimerCfg

def reset (c : TimerCfg) (timeout interval : Nat) (now : Millis) : TimerCfg :=
  if timeout = 0 then
    let c := { c with expireMs := now + c.timeout }
    if interval ≠ 0 then { c with interval } else c
  else
    let c := { c with expireMs := now + timeout }
    if interval ≠ 0 then { c with interval } else c

def suspend (c : TimerCfg) : TimerCfg := { c with suspended := true }

def resume (c : TimerCfg) (now : Millis) : TimerCfg :=
  let c := if 0 < c.interval then { c with expireMs := now + c.interval } else c
  { c with suspended := false }

def isDue (c : TimerCfg) (now : Millis) : Bool := c.suspended == false && c.expireMs ≤ now

end TimerCfg

/-- How far a task is that a worker of the pool has taken. -/
inductive Phase where
  | taken
  | calling
  | rearming
  | removing
deriving DecidableEq

inductive Event where
  | intervalSet (timer interval : Nat)
  | due (timer : Nat)
  | fired (timer : Nat)
  | reset (timer : Nat)
  | stopped (timer : Nat)
  /-- `timers_.erase` of what `std::find` returned, which was the timer or the end. -/
  | removal (timer : Nat) (found : Bool)
deriving DecidableEq

/-- The manager, all timers there have been, the tasks of its pool and the log. -/
structure TimerMng where
  cfgs : List TimerCfg := []
  timers : List Nat := []
  queue : List Nat := []
  running : List (Nat × Phase) := []
  log : List Event := []
deriving DecidableEq

namespace TimerMng

def emit (m : TimerMng) (e : Event) : TimerMng := { m with log := m.log ++ [e] }

def setCfg (m : TimerMng) (timer : Nat) (f : TimerCfg → TimerCfg) : TimerMng :=
  { m with cfgs := m.cfgs.modify timer f }

/-- `StartTimer`, which makes no timer of no timeout. -/
def startTimer (m : TimerMng) (timeout interval : Nat) (now : Millis) : TimerMng :=
  if timeout = 0 then m
  else
    { m with
      cfgs := m.cfgs ++ [{ timeout, interval, expireMs := now + timeout }]
      timers := m.timers ++ [m.cfgs.length]
      log := m.log ++ [.intervalSet m.cfgs.length interval] }

/-- To erase the end of a list is undefined. The log keeps that it was done, and what is said of
runs is said of those that do not do it; here the list is left alone. -/
def eraseTimer (m : TimerMng) (timer : Nat) : TimerMng :=
  { m with
    timers := m.timers.erase timer
    log := m.log ++ [.removal timer (m.timers.contains timer)] }

def stopTimer (m : TimerMng) (timer : Nat) : TimerMng :=
  (m.eraseTimer timer).emit (.stopped timer)

/-- The body of the loop in `CheckTimers`. -/
def checkTimer (now : Millis) (m : TimerMng) (timer : Nat) : TimerMng :=
  if m.cfgs[timer]?.any (·.isDue now) then
    { m.setCfg timer fun c => { c with expireMs := kNever } with
      queue := m.queue ++ [timer]
      log := m.log ++ [.due timer] }
  else m

def checkTimers (m : TimerMng) (now : Millis) : TimerMng := m.timers.foldl (checkTimer now) m

def takeTask (m : TimerMng) : TimerMng :=
  match m.queue with
  | [] => m
  | timer :: queue => { m with queue, running := m.running ++ [(timer, .taken)] }

/-- `InvokeTimerCb` starts, and it starts with the callback. -/
def invokeTimerCb (m : TimerMng) (i : Nat) : TimerMng :=
  match m.running[i]? with
  | some (timer, .taken) =>
    { m with
      running := m.running.set i (timer, .calling)
      log := m.log ++ [.fired timer] }
  | _ => m

/-- The callback has returned, and `InvokeTimerCb` looks at the interval. -/
def callbackReturned (m : TimerMng) (i : Nat) : TimerMng :=
  match m.running[i]? with
  | some (timer, .calling) =>
    let next := if m.cfgs[timer]?.any (0 < ·.interval) then Phase.rearming else .removing
    { m with running := m.running.set i (timer, next) }
  | _ => m

def rearm (m : TimerMng) (i : Nat) (now : Millis) : TimerMng :=
  match m.running[i]? with
  | some (timer, .rearming) =>
    { m.setCfg timer fun c => { c with expireMs := now + c.interval } with
      running := m.running.eraseIdx i }
  | _ => m

def completed (m : TimerMng) (i : Nat) : TimerMng :=
  match m.running[i]? with
  | some (timer, .removing) => { m.eraseTimer timer with running := m.running.eraseIdx i }
  | _ => m

def reset (m : TimerMng) (timer timeout interval : Nat) (now : Millis) : TimerMng :=
  let m := (m.setCfg timer fun c => c.reset timeout interval now).emit (.reset timer)
  if interval ≠ 0 then m.emit (.intervalSet timer interval) else m

def setInterval (m : TimerMng) (timer interval : Nat) : TimerMng :=
  (m.setCfg timer fun c => { c with interval }).emit (.intervalSet timer interval)

end TimerMng

inductive Act where
  | start (timeout interval : Nat) (now : Millis)
  | check (now : Millis)
  | take
  | invoke (i : Nat)
  | returned (i : Nat)
  | rearm (i : Nat) (now : Millis)
  | completed (i : Nat)
  | stop (timer : Nat)
  | reset (timer timeout interval : Nat) (now : Millis)
  | setInterval (timer interval : Nat)
  | suspend (timer : Nat)
  | resume (timer : Nat) (now : Millis)

/-- One step. Only a timer that has been started has a pointer by which to reach it. -/
def step (m : TimerMng) : Act → TimerMng
  | .start timeout interval now => m.startTimer timeout interval now
  | .check now => m.checkTimers now
  | .take => m.takeTask
  | .invoke i => m.invokeTimerCb i
  | .returned i => m.callbackReturned i
  | .rearm i now => m.rearm i now
  | .completed i => m.completed i
  | .stop timer => if timer < m.cfgs.length then m.stopTimer timer else m
  | .reset timer timeout interval now =>
    if timer < m.cfgs.length then m.reset timer timeout interval now else m
  | .setInterval timer interval =>
    if timer < m.cfgs.length then m.setInterval timer interval else m
  | .suspend timer => m.setCfg timer TimerCfg.suspend
  | .resume timer now => m.setCfg timer fun c => c.resume now

section Removals

variable {m m' : TimerMng} {t : Nat}

/-- The timer has been looked for in order to remove it. -/
def Tried (m : TimerMng) (t : Nat) : Prop := ∃ b, Event.removal t b ∈ m.log

/-- A task for the timer is queued or running. -/
def Pending (m : TimerMng) (t : Nat) : Prop := t ∈ m.queue ∨ ∃ r ∈ m.running, r.1 = t

/-- The timers in the list are those that nothing has tried to remove. -/
structure Kept (m : TimerMng) : Prop where
  nodup : m.timers.Nodup
  mem_iff : ∀ t, t ∈ m.timers ↔ t < m.cfgs.length ∧ ¬ Tried m t
  started : ∀ t, Tried m t ∨ Pending m t → t < m.cfgs.length
  once : ∀ t, m.log.count (.removal t true) ≤ 1

theorem kept_start : Kept {} where
  nodup := List.nodup_nil
  mem_iff := by simp
  started := by simp [Tried, Pending]
  once := by simp

/-- Between the two nothing has tried to remove a timer. -/
def Silent (m m' : TimerMng) : Prop :=
  ∃ es, m'.log = m.log ++ es ∧ ∀ t b, Event.removal t b ∉ es

theorem Silent.trans {m'' : TimerMng} (h : Silent m m') (h' : Silent m' m'') : Silent m m'' := by
  obtain ⟨es, hes, hnone⟩ := h
  obtain ⟨es', hes', hnone'⟩ := h'
  refine ⟨es ++ es', ?_, ?_⟩
  · rw [hes', hes, List.append_assoc]
  · intro t b hmem
    rcases List.mem_append.mp hmem with hmem | hmem
    · exact hnone t b hmem
    · exact hnone' t b hmem

theorem Silent.removal_mem_iff (h : Silent m m') (t : Nat) (b : Bool) :
    .removal t b ∈ m'.log ↔ .removal t b ∈ m.log := by
  obtain ⟨es, hes, hnone⟩ := h
  rw [hes, List.mem_append]
  exact or_iff_left (hnone t b)

theorem Silent.tried_iff (h : Silent m m') : Tried m' t ↔ Tried m t :=
  exists_congr (h.removal_mem_iff t)

theorem Silent.count_eq (h : Silent m m') (t : Nat) (b : Bool) :
    m'.log.count (.removal t b) = m.log.count (.removal t b) := by
  obtain ⟨es, hes, hnone⟩ := h
  rw [hes, List.count_append, List.count_eq_zero_of_not_mem (hnone t b), Nat.add_zero]

/-- The end of the list has not been erased. -/
def Defined (m : TimerMng) : Prop := ∀ t, Event.removal t false ∉ m.log

theorem Silent.defined_iff (h : Silent m m') : Defined m' ↔ Defined m :=
  forall_congr' fun t => not_congr (h.removal_mem_iff t false)

/-- A step that leaves the list of timers alone, and may queue some of them. -/
structure Spares (m m' : TimerMng) : Prop where
  timers : m'.timers = m.timers
  cfgs : m'.cfgs.length = m.cfgs.length
  log : Silent m m'
  pending : ∀ t, Pending m' t → Pending m t ∨ t ∈ m.timers

/-- A step that adds a new timer to the list. -/
structure Starts (m m' : TimerMng) : Prop where
  timers : m'.timers = m.timers ++ [m.cfgs.length]
  cfgs : m'.cfgs.length = m.cfgs.length + 1
  log : Silent m m'
  pending : ∀ t, Pending m' t → Pending m t

/-- A step that looks for a timer in the list and takes it out. -/
structure Removes (m : TimerMng) (timer : Nat) (m' : TimerMng) : Prop where
  timers : m'.timers = m.timers.erase timer
  cfgs : m'.cfgs.length = m.cfgs.length
  log : Silent (m.emit (.removal timer (m.timers.contains timer))) m'
  pending : ∀ t, Pending m' t → Pending m t

section Spared

theorem Spares.refl (m : TimerMng) : Spares m m :=
  ⟨rfl, rfl, ⟨[], by simp, by simp⟩, fun _ => Or.inl⟩

theorem Spares.trans {m'' : TimerMng} (h : Spares m m') (h' : Spares m' m'') : Spares m m'' where
  timers := h'.timers.trans h.timers
  cfgs := h'.cfgs.trans h.cfgs
  log := h.log.trans h'.log
  pending := by
    intro t ht
    rcases h'.pending t ht with ht | ht
    · exact h.pending t ht
    · exact Or.inr (h.timers ▸ ht)

theorem spares_setCfg (m : TimerMng) (t : Nat) (f : TimerCfg → TimerCfg) :
    Spares m (m.setCfg t f) :=
  ⟨rfl, by simp [TimerMng.setCfg], ⟨[], by simp [TimerMng.setCfg], by simp⟩, fun _ => Or.inl⟩

theorem spares_emit {e : Event} (m : TimerMng) (he : ∀ t b, Event.removal t b ≠ e) :
    Spares m (m.emit e) :=
  ⟨rfl, rfl, ⟨[e], rfl, by simpa using he⟩, fun _ => Or.inl⟩

theorem spares_checkTimer (now : Millis) (ht : t ∈ m.timers) :
    Spares m (m.checkTimer now t) := by
  unfold TimerMng.checkTimer
  split
  · constructor
    · rfl
    · simp [TimerMng.setCfg]
    · exact ⟨[.due t], rfl, by simp⟩
    · rintro t' (hmem | hmem)
      · rcases List.mem_append.mp hmem with hmem | hmem
        · exact Or.inl (Or.inl hmem)
        · exact Or.inr (List.mem_singleton.mp hmem ▸ ht)
      · exact Or.inl (Or.inr hmem)
  · exact Spares.refl m

theorem spares_checkTimers (m : TimerMng) (now : Millis) : Spares m (m.checkTimers now) := by
  suffices h : ∀ ts (m' : TimerMng), ts ⊆ m.timers → Spares m m' →
      Spares m (ts.foldl (TimerMng.checkTimer now) m') from
    h m.timers m (List.Subset.refl _) (Spares.refl m)
  intro ts
  induction ts with
  | nil => exact fun _ _ h => h
  | cons t ts ih =>
    intro m' hsub h
    have ht : t ∈ m'.timers := h.timers ▸ hsub List.mem_cons_self
    exact ih _ (List.subset_of_cons_subset hsub) (h.trans (spares_checkTimer now ht))

theorem spares_takeTask (m : TimerMng) : Spares m m.takeTask := by
  unfold TimerMng.takeTask
  split
  · exact Spares.refl m
  · next t queue hqueue =>
    refine ⟨rfl, rfl, ⟨[], by simp, by simp⟩, ?_⟩
    rintro t' (hmem | ⟨r, hmem, rfl⟩)
    · exact Or.inl (Or.inl (hqueue ▸ List.mem_cons_of_mem t hmem))
    · rcases List.mem_append.mp hmem with hmem | hmem
      · exact Or.inl (Or.inr ⟨r, hmem, rfl⟩)
      · obtain rfl := List.mem_singleton.mp hmem
        exact Or.inl (Or.inl (hqueue ▸ List.mem_cons_self))

theorem pending_set {running : List (Nat × Phase)} {i timer : Nat} {p p' : Phase}
    (hi : running[i]? = some (timer, p)) (h : ∃ r ∈ running.set i (timer, p'), r.1 = t) :
    ∃ r ∈ running, r.1 = t := by
  obtain ⟨r, hmem, ht⟩ := h
  rcases List.mem_or_eq_of_mem_set hmem with hmem | rfl
  · exact ⟨r, hmem, ht⟩
  · exact ⟨_, List.mem_of_getElem? hi, ht⟩

theorem spares_invokeTimerCb (m : TimerMng) (i : Nat) : Spares m (m.invokeTimerCb i) := by
  unfold TimerMng.invokeTimerCb
  split
  · next timer hi =>
    refine ⟨rfl, rfl, ⟨[.fired timer], rfl, by simp⟩, ?_⟩
    rintro t' (hmem | hmem)
    · exact Or.inl (Or.inl hmem)
    · exact Or.inl (Or.inr (pending_set hi hmem))
  · exact Spares.refl m

theorem spares_callbackReturned (m : TimerMng) (i : Nat) : Spares m (m.callbackReturned i) := by
  unfold TimerMng.callbackReturned
  split
  · next timer hi =>
    refine ⟨rfl, rfl, ⟨[], by simp, by simp⟩, ?_⟩
    rintro t' (hmem | hmem)
    · exact Or.inl (Or.inl hmem)
    · exact Or.inl (Or.inr (pending_set hi hmem))
  · exact Spares.refl m

theorem pending_eraseIdx {running : List (Nat × Phase)} {i : Nat}
    (h : ∃ r ∈ running.eraseIdx i, r.1 = t) : ∃ r ∈ running, r.1 = t := by
  obtain ⟨r, hmem, ht⟩ := h
  exact ⟨r, List.mem_of_mem_eraseIdx hmem, ht⟩

theorem spares_rearm (m : TimerMng) (i : Nat) (now : Millis) : Spares m (m.rearm i now) := by
  unfold TimerMng.rearm
  split
  · refine ⟨rfl, by simp [TimerMng.setCfg], ⟨[], by simp [TimerMng.setCfg], by simp⟩, ?_⟩
    rintro t' (hmem | hmem)
    · exact Or.inl (Or.inl hmem)
    · exact Or.inl (Or.inr (pending_eraseIdx hmem))
  · exact Spares.refl m

theorem spares_reset (m : TimerMng) (t timeout interval : Nat) (now : Millis) :
    Spares m (m.reset t timeout interval now) := by
  unfold TimerMng.reset
  have hreset := (spares_setCfg m t fun c => c.reset timeout interval now).trans
    (spares_emit (e := .reset t) _ (by simp))
  dsimp only
  split
  · exact hreset.trans (spares_emit _ (by simp))
  · exact hreset

theorem spares_setInterval (m : TimerMng) (t interval : Nat) :
    Spares m (m.setInterval t interval) :=
  (spares_setCfg m t _).trans (spares_emit _ (by simp))

end Spared

theorem starts_startTimer {timeout interval : Nat} {now : Millis} (m : TimerMng)
    (h : timeout ≠ 0) : Starts m (m.startTimer timeout interval now) := by
  rw [TimerMng.startTimer, if_neg h]
  exact ⟨rfl, by simp, ⟨_, rfl, by simp⟩, fun _ h => h⟩

theorem removes_stopTimer (m : TimerMng) (t : Nat) : Removes m t (m.stopTimer t) :=
  ⟨rfl, rfl, ⟨[.stopped t], rfl, by simp⟩, fun _ h => h⟩

theorem removes_completed {i : Nat} (h : m.running[i]? = some (t, .removing)) :
    Removes m t (m.completed i) := by
  simp only [TimerMng.completed, h]
  refine ⟨rfl, rfl, ⟨[], by simp [TimerMng.eraseTimer, TimerMng.emit], by simp⟩, ?_⟩
  rintro t' (hmem | hmem)
  · exact Or.inl hmem
  · exact Or.inr (pending_eraseIdx hmem)

/-- The timer that a step looks for in order to remove it. -/
def asked (m : TimerMng) : Act → Option Nat
  | .stop timer => if timer < m.cfgs.length then some timer else none
  | .completed i =>
    match m.running[i]? with
    | some (timer, .removing) => some timer
    | _ => none
  | _ => none

/-- What a step does to the list of timers. -/
theorem step_cases (m : TimerMng) (a : Act) :
    (asked m a = none ∧ (Spares m (step m a) ∨ Starts m (step m a))) ∨
      ∃ t, asked m a = some t ∧ Removes m t (step m a) := by
  cases a with
  | start timeout interval now =>
    refine Or.inl ⟨rfl, ?_⟩
    by_cases htimeout : timeout = 0
    · exact Or.inl (by simpa [step, TimerMng.startTimer, htimeout] using Spares.refl m)
    · exact Or.inr (starts_startTimer m htimeout)
  | check now => exact Or.inl ⟨rfl, Or.inl (spares_checkTimers m now)⟩
  | take => exact Or.inl ⟨rfl, Or.inl (spares_takeTask m)⟩
  | invoke i => exact Or.inl ⟨rfl, Or.inl (spares_invokeTimerCb m i)⟩
  | returned i => exact Or.inl ⟨rfl, Or.inl (spares_callbackReturned m i)⟩
  | rearm i now => exact Or.inl ⟨rfl, Or.inl (spares_rearm m i now)⟩
  | completed i =>
    by_cases h : ∃ t, m.running[i]? = some (t, .removing)
    · obtain ⟨t, h⟩ := h
      exact Or.inr ⟨t, by simp [asked, h], removes_completed h⟩
    · refine Or.inl ⟨?_, Or.inl ?_⟩
      · unfold asked
        grind
      · have hsame : step m (.completed i) = m := by
          simp only [step, TimerMng.completed]
          grind
        rw [hsame]
        exact Spares.refl m
  | stop t =>
    by_cases ht : t < m.cfgs.length
    · exact Or.inr ⟨t, by simp [asked, ht], by simpa [step, ht] using removes_stopTimer m t⟩
    · exact Or.inl ⟨by simp [asked, ht], Or.inl (by simpa [step, ht] using Spares.refl m)⟩
  | reset t timeout interval now =>
    refine Or.inl ⟨rfl, Or.inl ?_⟩
    simp only [step]
    split
    · exact spares_reset m t timeout interval now
    · exact Spares.refl m
  | setInterval t interval =>
    refine Or.inl ⟨rfl, Or.inl ?_⟩
    simp only [step]
    split
    · exact spares_setInterval m t interval
    · exact Spares.refl m
  | suspend t => exact Or.inl ⟨rfl, Or.inl (spares_setCfg m t _)⟩
  | resume t now => exact Or.inl ⟨rfl, Or.inl (spares_setCfg m t _)⟩

theorem asked_started (hm : Kept m) {a : Act} (h : asked m a = some t) : t < m.cfgs.length := by
  cases a with
  | stop t' =>
    by_cases ht : t' < m.cfgs.length
    · simp only [asked, ht, if_true, Option.some.injEq] at h
      exact h ▸ ht
    · simp [asked, ht] at h
  | completed i =>
    simp only [asked] at h
    split at h
    · next t' hi =>
      obtain rfl := Option.some.inj h
      exact hm.started t' (Or.inr (Or.inr ⟨_, List.mem_of_getElem? hi, rfl⟩))
    · exact absurd h (by simp)
  | _ => exact absurd h (by simp [asked])

theorem Spares.kept (h : Spares m m') (hm : Kept m) : Kept m' where
  nodup := h.timers ▸ hm.nodup
  mem_iff := by
    intro t
    rw [h.timers, h.cfgs, h.log.tried_iff]
    exact hm.mem_iff t
  started := by
    intro t ht
    rw [h.cfgs]
    rw [h.log.tried_iff] at ht
    rcases ht with ht | ht
    · exact hm.started t (Or.inl ht)
    · rcases h.pending t ht with ht | ht
      · exact hm.started t (Or.inr ht)
      · exact ((hm.mem_iff t).mp ht).1
  once := by
    intro t
    rw [h.log.count_eq]
    exact hm.once t

theorem Starts.kept (h : Starts m m') (hm : Kept m) : Kept m' where
  nodup := by
    rw [h.timers]
    apply hm.nodup.append (List.nodup_singleton _)
    intro t ht hnew
    obtain rfl := List.mem_singleton.mp hnew
    exact absurd ((hm.mem_iff _).mp ht).1 (Nat.lt_irrefl _)
  mem_iff := by
    intro t
    rw [h.timers, h.cfgs, h.log.tried_iff, List.mem_append, hm.mem_iff, List.mem_singleton]
    constructor
    · rintro (⟨ht, htried⟩ | rfl)
      · exact ⟨by omega, htried⟩
      · exact ⟨by omega, fun htried => absurd (hm.started _ (Or.inl htried)) (Nat.lt_irrefl _)⟩
    · rintro ⟨ht, htried⟩
      rcases Nat.lt_succ_iff_lt_or_eq.mp ht with ht | ht
      · exact Or.inl ⟨ht, htried⟩
      · exact Or.inr ht
  started := by
    intro t ht
    rw [h.log.tried_iff] at ht
    have hold := hm.started t (ht.imp_right (h.pending t))
    rw [h.cfgs]
    omega
  once := by
    intro t
    rw [h.log.count_eq]
    exact hm.once t

theorem Removes.tried_iff {t' : Nat} (h : Removes m t m') : Tried m' t' ↔ Tried m t' ∨ t' = t := by
  rw [h.log.tried_iff]
  simp only [Tried, TimerMng.emit, List.mem_append, List.mem_singleton, Event.removal.injEq]
  constructor
  · rintro ⟨b, hb | ⟨ht, -⟩⟩
    · exact Or.inl ⟨b, hb⟩
    · exact Or.inr ht
  · rintro (⟨b, hb⟩ | rfl)
    · exact ⟨b, Or.inl hb⟩
    · exact ⟨_, Or.inr ⟨rfl, rfl⟩⟩

theorem Removes.defined_iff (h : Removes m t m') : Defined m' ↔ Defined m ∧ t ∈ m.timers := by
  rw [h.log.defined_iff]
  simp only [Defined, TimerMng.emit, List.mem_append, List.mem_singleton, Event.removal.injEq,
    not_or, not_and, forall_and, forall_eq]
  exact and_congr_right fun _ => by simp

theorem Removes.kept (h : Removes m t m') (hm : Kept m) (ht : t < m.cfgs.length) : Kept m' where
  nodup := h.timers ▸ hm.nodup.erase t
  mem_iff := by
    intro t'
    rw [h.timers, h.cfgs, h.tried_iff, hm.nodup.mem_erase_iff, hm.mem_iff]
    tauto
  started := by
    intro t' ht'
    rw [h.tried_iff] at ht'
    rw [h.cfgs]
    rcases ht' with (ht' | rfl) | ht'
    · exact hm.started t' (Or.inl ht')
    · exact ht
    · exact hm.started t' (Or.inr (h.pending t' ht'))
  once := by
    intro t'
    rw [h.log.count_eq, TimerMng.emit, List.count_append]
    by_cases hmem : t' = t ∧ t ∈ m.timers
    · obtain ⟨rfl, hmem⟩ := hmem
      have hnone : m.log.count (.removal t' true) = 0 := by
        apply List.count_eq_zero_of_not_mem
        exact fun hremoval => ((hm.mem_iff t').mp hmem).2 ⟨_, hremoval⟩
      simp [hnone, hmem]
    · have hother : Event.removal t' true ∉ [Event.removal t (m.timers.contains t)] := by
        simpa using hmem
      rw [List.count_eq_zero_of_not_mem hother]
      exact hm.once t'

theorem step_kept (hm : Kept m) (a : Act) : Kept (step m a) := by
  rcases step_cases m a with ⟨-, h | h⟩ | ⟨t, hasked, h⟩
  · exact h.kept hm
  · exact h.kept hm
  · exact h.kept hm (asked_started hm hasked)

theorem run_kept (acts : List Act) : Kept (acts.foldl step {}) := by
  induction acts using List.reverseRecOn with
  | nil => exact kept_start
  | append_singleton acts a ih =>
    rw [List.foldl_concat]
    exact step_kept ih a

/-- Nothing was removed that was not in the list, nothing was removed twice, and the
list lacks no other timer. -/
structure Safe (m : TimerMng) : Prop where
  found : Defined m
  once : ∀ t, m.log.count (.removal t true) ≤ 1
  mem_iff : ∀ t, t ∈ m.timers ↔ t < m.cfgs.length ∧ .removal t true ∉ m.log

/-- A timer is only looked for to be removed if that is the first time. -/
def Lone (m : TimerMng) (a : Act) : Prop := ∀ t, asked m a = some t → ¬ Tried m t

theorem safe_iff (hm : Kept m) : Safe m ↔ Defined m := by
  refine ⟨Safe.found, fun h => ⟨h, hm.once, fun t => ?_⟩⟩
  rw [hm.mem_iff, Tried]
  simp [h t]

theorem safe_step_iff (hm : Kept m) (hs : Safe m) (a : Act) : Safe (step m a) ↔ Lone m a := by
  have hfound := (safe_iff hm).mp hs
  rw [safe_iff (step_kept hm a), Lone]
  rcases step_cases m a with ⟨hnone, h⟩ | ⟨t, hasked, h⟩
  · have hlog : Silent m (step m a) := h.elim Spares.log Starts.log
    rw [hlog.defined_iff]
    simp only [hnone, reduceCtorEq, false_implies, implies_true, iff_true]
    exact hfound
  · have ht := asked_started hm hasked
    rw [h.defined_iff, hm.mem_iff t]
    simp only [hasked, Option.some.injEq, forall_eq', ht, true_and]
    exact and_iff_right hfound

end Removals

/-- The list of timers is safe all along exactly in those runs in which no timer is
asked to be removed twice, be it by `StopTimer` or when its callback is over. -/
theorem safe_iff_lone (acts : List Act) :
    (∀ done, done <+: acts → Safe (done.foldl step {})) ↔ Throughout step Lone {} acts := by
  apply always_iff_throughout
  · exact (safe_iff kept_start).mpr fun _ => List.not_mem_nil
  · intro done a _ hs
    exact safe_step_iff (run_kept done) hs a

/-- A node whose inactivity timer fires disconnects, and stops that timer from its
own callback. -/
theorem fired_timer_stopped : ¬ ∀ acts : List Act, Safe (acts.foldl step {}) := by
  intro h
  have hrun := (h [.start 60000 0 0, .check 60000, .take, .invoke 0, .stop 0,
    .returned 0, .completed 0]).found 0
  exact hrun (by decide)

end Timers
