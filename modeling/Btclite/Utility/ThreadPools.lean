import Btclite.Library.Ranking
import Mathlib.Algebra.BigOperators.Fin
import Mathlib.Algebra.Order.BigOperators.Group.Finset

/-!
# Thread pool

The pool of `thread.h`: a queue of tasks under a mutex, threads that wait on a condition
variable, `AddTask` and the destructor. What happens under the mutex is one step, and so is
a notification, which comes after the mutex is released. Tasks begin in the order they were
queued, no thread sleeps over a task, and the destructor returns when all of them have run.
A task that runs ends at some point.
-/

namespace ThreadPools

open Ranking

/-- Where a thread of the pool is. -/
inductive Worker (T : Type) where
  | checking
  | waiting
  | running (task : T)
  | returned

inductive Event (T : Type) where
  | queued (task : T)
  | refused (task : T)
  | begun (task : T)
  | ended (task : T)

structure ThreadPool (T : Type) (n : Nat) where
  tasks : List T := []
  stop : Bool := false
  threads : Fin n → Worker T
  /-- Calls of `AddTask` that have released the mutex and not yet notified. -/
  notifying : Nat := 0
  /-- The destructor has released the mutex and not yet notified. -/
  notifyingAll : Bool := false
  log : List (Event T) := []

variable {T : Type} {n : Nat}

def ThreadPool.start (T : Type) (n : Nat) : ThreadPool T n where
  threads := fun _ => .checking

section Operations

def notified : Worker T → Worker T
  | .waiting => .checking
  | w => w

def setThread (s : ThreadPool T n) (i : Fin n) (w : Worker T) : ThreadPool T n :=
  { s with threads := Function.update s.threads i w }

/-- The part of `AddTask` under the mutex. -/
def addTask (s : ThreadPool T n) (task : T) : ThreadPool T n :=
  if s.stop then { s with log := s.log ++ [.refused task] }
  else { s with
    tasks := s.tasks ++ [task]
    notifying := s.notifying + 1
    log := s.log ++ [.queued task] }

/-- The part of a thread's loop under the mutex: the predicate of `wait`, then the check of
`stop_`, then the front of the queue. -/
def check (s : ThreadPool T n) (i : Fin n) : ThreadPool T n :=
  match s.tasks with
  | [] => if s.stop then setThread s i .returned else setThread s i .waiting
  | task :: rest =>
    { setThread s i (.running task) with tasks := rest, log := s.log ++ [.begun task] }

def finish (s : ThreadPool T n) (i : Fin n) (task : T) : ThreadPool T n :=
  { setThread s i .checking with log := s.log ++ [.ended task] }

end Operations

inductive Act (T : Type) (n : Nat) where
  | addTask (task : T)
  | notifyOne
  | wake
  | check
  | finish
  | setStop
  | notifyAll

/-- What may happen next. `notify_one` wakes one of the threads that wait, if there is one,
and a thread may also wake for no reason. -/
inductive Next (s : ThreadPool T n) : Act T n → ThreadPool T n → Prop where
  | addTask (task : T) : Next s (.addTask task) (addTask s task)
  | notifyOne (i : Fin n) (hdue : 0 < s.notifying) (hwaits : s.threads i = .waiting) :
      Next s .notifyOne { setThread s i .checking with notifying := s.notifying - 1 }
  | notifyNone (hdue : 0 < s.notifying) (hnone : ∀ i, s.threads i ≠ .waiting) :
      Next s .notifyOne { s with notifying := s.notifying - 1 }
  | wake (i : Fin n) (hwaits : s.threads i = .waiting) : Next s .wake (setThread s i .checking)
  | check (i : Fin n) (hchecks : s.threads i = .checking) : Next s .check (check s i)
  | finish (i : Fin n) (task : T) (hruns : s.threads i = .running task) :
      Next s .finish (finish s i task)
  | setStop (hstop : s.stop = false) : Next s .setStop { s with stop := true, notifyingAll := true }
  | notifyAll (hdue : s.notifyingAll = true) :
      Next s .notifyAll
        { s with threads := fun i => notified (s.threads i), notifyingAll := false }

def Reachable (s : ThreadPool T n) : Prop := ∃ acts, Path Next (.start T n) acts s

section Log

def queued? : Event T → Option T
  | .queued task => some task
  | _ => none

def begun? : Event T → Option T
  | .begun task => some task
  | _ => none

def ended? : Event T → Option T
  | .ended task => some task
  | _ => none

def queuedTasks (s : ThreadPool T n) : List T := s.log.filterMap queued?

def begunTasks (s : ThreadPool T n) : List T := s.log.filterMap begun?

def endedTasks (s : ThreadPool T n) : List T := s.log.filterMap ended?

section Noted

variable {s s' : ThreadPool T n} {e : Event T}

theorem filterMap_concat {A B : Type} (f : A → Option B) (l : List A) (a : A) :
    (l ++ [a]).filterMap f = l.filterMap f ++ (f a).toList := by
  cases h : f a <;> simp [h]

theorem queuedTasks_noted (h : s'.log = s.log ++ [e]) :
    queuedTasks s' = queuedTasks s ++ (queued? e).toList := by
  rw [queuedTasks, h, filterMap_concat, queuedTasks]

theorem begunTasks_noted (h : s'.log = s.log ++ [e]) :
    begunTasks s' = begunTasks s ++ (begun? e).toList := by
  rw [begunTasks, h, filterMap_concat, begunTasks]

theorem endedTasks_noted (h : s'.log = s.log ++ [e]) :
    endedTasks s' = endedTasks s ++ (ended? e).toList := by
  rw [endedTasks, h, filterMap_concat, endedTasks]

end Noted

end Log

section Totals

variable {M : Type} [AddCommMonoid M]

/-- A quantity summed up over the threads. -/
def total (f : Worker T → M) (threads : Fin n → Worker T) : M := ∑ i, f (threads i)

/-- One thread of a pool changes. -/
theorem total_update (f : Worker T → M) (threads : Fin n → Worker T) (i : Fin n) (w : Worker T) :
    total f (Function.update threads i w) + f (threads i) = total f threads + f w := by
  have hsame : ∑ j ∈ Finset.univ.erase i, f (Function.update threads i w j) =
      ∑ j ∈ Finset.univ.erase i, f (threads j) := by
    refine Finset.sum_congr rfl fun j hj => ?_
    rw [Function.update_of_ne (Finset.ne_of_mem_erase hj)]
  rw [total, total, ← Finset.add_sum_erase _ _ (Finset.mem_univ i), Function.update_self, hsame,
    ← Finset.add_sum_erase _ _ (Finset.mem_univ i)]
  ac_rfl

theorem total_le {f : Worker T → Nat} {threads threads' : Fin n → Worker T}
    (h : ∀ i, f (threads' i) ≤ f (threads i)) : total f threads' ≤ total f threads :=
  Finset.sum_le_sum fun i _ => h i

/-- The task a thread runs. -/
def held : Worker T → Multiset T
  | .running task => {task}
  | _ => 0

def isChecking : Worker T → Nat
  | .checking => 1
  | _ => 0

/-- How many steps a thread can take by itself once the pool is stopped, other than tasks it
takes up. -/
def share : Worker T → Nat
  | .checking => 1
  | .waiting => 2
  | .running _ => 2
  | .returned => 0

end Totals

/-- What every pool keeps. -/
structure Sound (s : ThreadPool T n) : Prop where
  order : begunTasks s ++ s.tasks = queuedTasks s
  accounted : (endedTasks s : Multiset T) + total held s.threads = begunTasks s
  awake : ∀ i, s.threads i = .waiting →
    s.tasks.length ≤ s.notifying + total isChecking s.threads
  returned : ∀ i, s.threads i = .returned → s.stop = true ∧ s.tasks = []
  stopped : s.stop = true → s.notifyingAll = false → ∀ i, s.threads i ≠ .waiting
  running : s.notifyingAll = true → s.stop = true

theorem start_sound : Sound (.start T n) where
  order := rfl
  accounted := by
    change (0 : Multiset T) + ∑ _ : Fin n, (0 : Multiset T) = 0
    simp
  awake := fun _ h => nomatch h
  returned := fun _ h => nomatch h
  stopped := fun h => nomatch h
  running := fun h => nomatch h

section Steps

variable {s : ThreadPool T n} {i j : Fin n} {w w' : Worker T}

/-- A thread that is in `w` after thread `i` has gone on to `w'`. -/
theorem thread_cases (h : (setThread s i w').threads j = w) : s.threads j = w ∨ w' = w := by
  change Function.update s.threads i w' j = w at h
  by_cases hj : j = i
  · rw [hj, Function.update_self] at h
    exact Or.inr h
  · rw [Function.update_of_ne hj] at h
    exact Or.inl h

theorem total_setThread {M : Type} [AddCommMonoid M] (f : Worker T → M) (v : Worker T)
    (h : s.threads i = w) :
    total f (setThread s i v).threads + f w = total f s.threads + f v := by
  rw [← h]
  exact total_update f s.threads i v

theorem Sound.addTask (h : Sound s) (task : T) : Sound (addTask s task) := by
  rw [ThreadPools.addTask]
  by_cases hstop : s.stop = true
  · rw [if_pos hstop]
    refine ⟨?_, ?_, h.awake, h.returned, h.stopped, h.running⟩
    · rw [queuedTasks_noted rfl, begunTasks_noted rfl]
      simpa [begun?, queued?] using h.order
    · rw [endedTasks_noted rfl, begunTasks_noted rfl]
      simpa [begun?, ended?] using h.accounted
  · rw [if_neg hstop]
    refine ⟨?_, ?_, fun i hi => ?_, fun i hi => absurd (h.returned i hi).1 hstop, h.stopped,
      h.running⟩
    · rw [queuedTasks_noted rfl, begunTasks_noted rfl, ← h.order]
      simp [begun?, queued?]
    · rw [endedTasks_noted rfl, begunTasks_noted rfl]
      simpa [begun?, ended?] using h.accounted
    · have hawake := h.awake i hi
      rw [List.length_append, List.length_singleton]
      change _ ≤ s.notifying + 1 + total isChecking s.threads
      omega

/-- A thread stops waiting, with or without a notification. -/
theorem Sound.wake (h : Sound s) (hwaits : s.threads i = .waiting) {k : Nat}
    (hk : s.notifying ≤ k + 1) : Sound { setThread s i .checking with notifying := k } := by
  have hheld := total_setThread held .checking hwaits
  have hchecking := total_setThread isChecking .checking hwaits
  refine ⟨h.order, ?_, fun j _ => ?_, fun j hj => ?_, fun hstop hall j hj => ?_, h.running⟩
  · change _ + total held (setThread s i .checking).threads = _
    simp only [held, add_zero] at hheld
    rw [hheld]
    exact h.accounted
  · have hawake := h.awake i hwaits
    simp only [isChecking] at hchecking
    change s.tasks.length ≤ k + total isChecking (setThread s i .checking).threads
    omega
  · rcases thread_cases hj with hj | hj
    · exact h.returned j hj
    · cases hj
  · rcases thread_cases hj with hj | hj
    · exact h.stopped hstop hall j hj
    · cases hj

theorem Sound.notifyNone (h : Sound s) (hnone : ∀ i, s.threads i ≠ .waiting) :
    Sound { s with notifying := s.notifying - 1 } :=
  ⟨h.order, h.accounted, fun i hi => absurd hi (hnone i), h.returned, h.stopped, h.running⟩

/-- A thread that finds no task returns or waits. -/
theorem Sound.settle (h : Sound s) (hchecks : s.threads i = .checking) (htasks : s.tasks = [])
    (hheld : held w = 0) (hreturns : w = .returned → s.stop = true)
    (hwaits : w = .waiting → s.stop = false) : Sound (setThread s i w) := by
  have htotal := total_setThread held w hchecks
  rw [hheld] at htotal
  simp only [held, add_zero] at htotal
  refine ⟨h.order, ?_, fun j _ => ?_, fun j hj => ?_, fun hstop hall j hj => ?_, h.running⟩
  · rw [htotal]
    exact h.accounted
  · change s.tasks.length ≤ _
    simp [htasks]
  · rcases thread_cases hj with hj | hj
    · exact h.returned j hj
    · exact ⟨hreturns hj, htasks⟩
  · rcases thread_cases hj with hj | hj
    · exact h.stopped hstop hall j hj
    · exact Bool.false_ne_true ((hwaits hj).symm.trans hstop)

theorem Sound.check (h : Sound s) (hchecks : s.threads i = .checking) : Sound (check s i) := by
  rw [ThreadPools.check]
  cases htasks : s.tasks with
  | nil =>
    by_cases hstop : s.stop = true
    · simp only [if_pos hstop]
      exact h.settle hchecks htasks rfl (fun _ => hstop) nofun
    · simp only [if_neg hstop]
      exact h.settle hchecks htasks rfl nofun fun _ => Bool.eq_false_iff.mpr hstop
  | cons task rest =>
    have hheld := total_setThread held (.running task) hchecks
    have hchecking := total_setThread isChecking (.running task) hchecks
    refine ⟨?_, ?_, fun j hj => ?_, fun j hj => ?_, fun hstop hall j hj => ?_, h.running⟩
    · rw [queuedTasks_noted rfl, begunTasks_noted rfl, ← h.order, htasks]
      simp [begun?, queued?]
    · simp only [held, add_zero] at hheld
      rw [endedTasks_noted rfl, begunTasks_noted rfl, hheld, ← Multiset.coe_add,
        ← Multiset.coe_add, ← h.accounted]
      simp [begun?, ended?, add_assoc]
    · rcases thread_cases hj with hj | hj
      · have hawake := h.awake j hj
        rw [htasks, List.length_cons] at hawake
        simp only [isChecking] at hchecking
        change rest.length ≤ s.notifying + total isChecking (setThread s i _).threads
        omega
      · cases hj
    · rcases thread_cases hj with hj | hj
      · have hempty := (h.returned j hj).2
        rw [htasks] at hempty
        cases hempty
      · cases hj
    · rcases thread_cases hj with hj | hj
      · exact h.stopped hstop hall j hj
      · cases hj

theorem Sound.finish (h : Sound s) {task : T} (hruns : s.threads i = .running task) :
    Sound (finish s i task) := by
  have hheld := total_setThread held .checking hruns
  have hchecking := total_setThread isChecking .checking hruns
  refine ⟨?_, ?_, fun j hj => ?_, fun j hj => ?_, fun hstop hall j hj => ?_, h.running⟩
  · rw [queuedTasks_noted rfl, begunTasks_noted rfl]
    simpa [begun?, queued?, ThreadPools.finish, setThread] using h.order
  · simp only [held, add_zero] at hheld
    rw [endedTasks_noted rfl, begunTasks_noted rfl, ← Multiset.coe_add, ← Multiset.coe_add,
      ← h.accounted, ← hheld, add_assoc, add_comm _ ({task} : Multiset T)]
    simp [begun?, ended?, ThreadPools.finish]
  · rcases thread_cases hj with hj | hj
    · have hawake := h.awake j hj
      simp only [isChecking] at hchecking
      change s.tasks.length ≤ s.notifying + total isChecking (setThread s i _).threads
      omega
    · cases hj
  · rcases thread_cases hj with hj | hj
    · exact h.returned j hj
    · cases hj
  · rcases thread_cases hj with hj | hj
    · exact h.stopped hstop hall j hj
    · cases hj

theorem held_notified (w : Worker T) : held (notified w) = held w := by cases w <;> rfl

theorem notified_ne_waiting (w : Worker T) : notified w ≠ .waiting := by cases w <;> simp [notified]

theorem returned_of_notified (h : notified w = .returned) : w = .returned := by
  cases w <;> simp [notified] at h ⊢

theorem Sound.notifyAll (h : Sound s) :
    Sound { s with threads := fun i => notified (s.threads i), notifyingAll := false } := by
  refine ⟨h.order, ?_, fun i hi => absurd hi (notified_ne_waiting _), fun i hi => ?_,
    fun _ _ i => notified_ne_waiting _, fun hall => ?_⟩
  · have hheld : total held (fun i => notified (s.threads i)) = total held s.threads :=
      Finset.sum_congr rfl fun i _ => held_notified _
    change _ + total held (fun i => notified (s.threads i)) = _
    rw [hheld]
    exact h.accounted
  · exact h.returned i (returned_of_notified hi)
  · cases hall

theorem Sound.next (h : Sound s) {a : Act T n} {s' : ThreadPool T n} (hnext : Next s a s') :
    Sound s' := by
  cases hnext with
  | addTask task => exact h.addTask task
  | notifyOne i hdue hwaits => exact h.wake hwaits (by omega)
  | notifyNone _ hnone => exact h.notifyNone hnone
  | wake i hwaits => exact h.wake (k := s.notifying) hwaits (by omega)
  | check i hchecks => exact h.check hchecks
  | finish i task hruns => exact h.finish hruns
  | setStop hstop =>
    exact ⟨h.order, h.accounted, h.awake, fun i hi => ⟨rfl, (h.returned i hi).2⟩,
      fun _ hall => absurd hall (by simp), fun _ => rfl⟩
  | notifyAll => exact h.notifyAll

end Steps

theorem reachable_sound {s : ThreadPool T n} (h : Reachable s) : Sound s := by
  obtain ⟨acts, hpath⟩ := h
  exact hpath.preserves (fun _ _ _ hs hnext => hs.next hnext) start_sound

theorem total_eq_zero {f : Worker T → Nat} {threads : Fin n → Worker T}
    (h : ∀ i, f (threads i) = 0) : total f threads = 0 :=
  Finset.sum_eq_zero fun i _ => h i

/-- Every notification has been given and every thread has looked at the queue. -/
structure Settled (s : ThreadPool T n) : Prop where
  notified : s.notifying = 0
  looked : ∀ i, s.threads i ≠ .checking

/-- Tasks begin in the order in which they were queued, each of them once, and what has begun
has ended or is run by one thread. No thread waits while there is a task for it. -/
theorem tasks_in_order {s : ThreadPool T n} (h : Reachable s) :
    begunTasks s ++ s.tasks = queuedTasks s ∧
      (endedTasks s : Multiset T) + total held s.threads = begunTasks s ∧
      (Settled s → s.tasks = [] ∨ ∀ i, ∃ task, s.threads i = .running task) := by
  have hsound := reachable_sound h
  refine ⟨hsound.order, hsound.accounted, fun hsettled => ?_⟩
  by_cases htasks : s.tasks = []
  · exact Or.inl htasks
  right
  intro i
  cases hi : s.threads i with
  | checking => exact absurd hi (hsettled.looked i)
  | waiting =>
    have hnone : total isChecking s.threads = 0 := total_eq_zero fun j => by
      have hj := hsettled.looked j
      cases hthread : s.threads j with
      | checking => exact absurd hthread hj
      | _ => rfl
    have hawake := hsound.awake i hi
    rw [hsettled.notified, hnone] at hawake
    exact absurd (List.eq_nil_of_length_eq_zero (Nat.le_zero.mp hawake)) htasks
  | running task => exact ⟨task, rfl⟩
  | returned => exact absurd (hsound.returned i hi).2 htasks

/-- One thread, in a task, with another one queued behind it when the pool is stopped. -/
def stoppedPool : ThreadPool Nat 1 where
  tasks := [6]
  stop := true
  threads := fun _ => .running 5
  notifying := 2
  notifyingAll := true
  log := [.queued 5, .begun 5, .queued 6]

theorem stoppedPool_reachable : Reachable stoppedPool := by
  have hchecked : check (addTask (.start Nat 1) 5) 0 =
      { stoppedPool with tasks := [], stop := false, notifying := 1, notifyingAll := false
                         log := [.queued 5, .begun 5] } := by
    simp [check, addTask, setThread, stoppedPool, ThreadPool.start, funext_iff]
  refine ⟨[.addTask 5, .check, .addTask 6, .setStop], .cons (.addTask 5) (.cons (.check 0 rfl) ?_)⟩
  rw [hchecked]
  exact .cons (.addTask 6) (.single (.setStop rfl))

theorem tasks_in_order_stopped :
    begunTasks stoppedPool ++ stoppedPool.tasks = queuedTasks stoppedPool ∧
      (endedTasks stoppedPool : Multiset Nat) + total held stoppedPool.threads =
        begunTasks stoppedPool ∧
      (Settled stoppedPool → stoppedPool.tasks = [] ∨
        ∀ i, ∃ task, stoppedPool.threads i = .running task) :=
  tasks_in_order stoppedPool_reachable

section Destruction

/-- What the pool itself does, the tasks it runs included. -/
def isOwn : Act T n → Bool
  | .addTask _ => false
  | _ => true

/-- A bound on what a stopped pool still does: every task is taken up and ended. -/
def rank (s : ThreadPool T n) : Nat :=
  3 * s.tasks.length + total share s.threads + s.notifying + s.notifyingAll.toNat

variable {s s' : ThreadPool T n} {acts : List (Act T n)}

theorem share_notified (w : Worker T) : share (notified w) ≤ share w := by
  cases w <;> simp [notified, share]

theorem next_stopped {a : Act T n} (hstop : s.stop = true) (h : Next s a s') :
    s'.stop = true ∧ queuedTasks s' = queuedTasks s := by
  cases h with
  | addTask task =>
    rw [addTask, if_pos hstop]
    refine ⟨hstop, ?_⟩
    rw [queuedTasks_noted rfl]
    exact List.append_nil _
  | check i =>
    rw [check]
    cases s.tasks with
    | nil =>
      simp only [if_pos hstop]
      exact ⟨hstop, rfl⟩
    | cons task rest =>
      refine ⟨hstop, ?_⟩
      rw [queuedTasks_noted (s := s) (e := .begun task) rfl]
      exact List.append_nil _
  | finish i task =>
    refine ⟨hstop, ?_⟩
    rw [queuedTasks_noted (s := s) (e := .ended task) rfl]
    exact List.append_nil _
  | setStop hnot => exact absurd hstop (by simp [hnot])
  | _ => exact ⟨hstop, rfl⟩

theorem rank_falls {a : Act T n} (hstop : s.stop = true) (h : Next s a s') :
    rank s' + (isOwn a).toNat ≤ rank s := by
  cases h with
  | addTask task =>
    rw [addTask, if_pos hstop]
    exact le_rfl
  | notifyOne i hdue hwaits =>
    have hshare := total_setThread share .checking hwaits
    simp only [share] at hshare
    change 3 * s.tasks.length + total share (setThread s i .checking).threads + (s.notifying - 1) +
      s.notifyingAll.toNat + 1 ≤ rank s
    rw [rank]
    omega
  | notifyNone hdue =>
    change 3 * s.tasks.length + total share s.threads + (s.notifying - 1) +
      s.notifyingAll.toNat + 1 ≤ rank s
    rw [rank]
    omega
  | wake i hwaits =>
    have hshare := total_setThread share .checking hwaits
    simp only [share] at hshare
    change 3 * s.tasks.length + total share (setThread s i .checking).threads + s.notifying +
      s.notifyingAll.toNat + 1 ≤ rank s
    rw [rank]
    omega
  | check i hchecks =>
    rw [check]
    cases htasks : s.tasks with
    | nil =>
      have hshare := total_setThread share .returned hchecks
      simp only [share] at hshare
      simp only [if_pos hstop]
      change 3 * s.tasks.length + total share (setThread s i .returned).threads + s.notifying +
        s.notifyingAll.toNat + 1 ≤ rank s
      rw [rank]
      omega
    | cons task rest =>
      have hshare := total_setThread share (.running task) hchecks
      simp only [share] at hshare
      change 3 * rest.length + total share (setThread s i (.running task)).threads + s.notifying +
        s.notifyingAll.toNat + 1 ≤ rank s
      rw [rank, htasks, List.length_cons]
      omega
  | finish i task hruns =>
    have hshare := total_setThread share .checking hruns
    simp only [share] at hshare
    change 3 * s.tasks.length + total share (setThread s i .checking).threads + s.notifying +
      s.notifyingAll.toNat + 1 ≤ rank s
    rw [rank]
    omega
  | setStop hnot => exact absurd hstop (by simp [hnot])
  | notifyAll hdue =>
    have hshare : total share (fun i => notified (s.threads i)) ≤ total share s.threads :=
      total_le fun i => share_notified _
    change 3 * s.tasks.length + total share (fun i => notified (s.threads i)) + s.notifying + 0 +
      1 ≤ rank s
    rw [rank, hdue]
    simp only [Bool.toNat_true]
    omega

theorem stopped_falls : Falls (Next (T := T) (n := n)) isOwn (fun s => s.stop = true) rank where
  keeps := fun _ _ _ hstop h => (next_stopped hstop h).1
  falls := fun _ _ _ hstop h => rank_falls hstop h

/-- A stopped pool that can do nothing more has run everything. -/
theorem Sound.stuck (h : Sound s) (hstop : s.stop = true) (hstuck : Stuck Next isOwn s) :
    ∀ i, s.threads i = .returned := by
  intro i
  have hall : s.notifyingAll = false := by
    cases hall : s.notifyingAll with
    | false => rfl
    | true => exact absurd (.notifyAll hall) (hstuck .notifyAll _ rfl)
  cases hi : s.threads i with
  | checking => exact absurd (.check i hi) (hstuck .check _ rfl)
  | waiting => exact absurd hi (h.stopped hstop hall i)
  | running task => exact absurd (.finish i task hi) (hstuck .finish _ rfl)
  | returned => rfl

/-- From the moment the destructor has set the flag the pool takes a bounded number of steps,
whatever is added to it and in whatever order they come, and where it ends all threads have
returned and every task that was ever queued has been run once. -/
theorem destructor_returns (hn : 0 < n) (h : Reachable s) (hstop : s.stop = true) :
    (∀ acts s', Path Next s acts s' → acts.countP isOwn ≤ rank s) ∧
      (∀ acts s', Path Next s acts s' → Stuck Next isOwn s' →
        (∀ i, s'.threads i = .returned) ∧ s'.tasks = [] ∧
          (endedTasks s').Perm (queuedTasks s)) ∧
      ∃ acts s', Path Next s acts s' ∧ Stuck Next isOwn s' := by
  refine ⟨fun acts s' hpath => ?_, fun acts s' hpath hstuck => ?_, ?_⟩
  · have hbound := hpath.bounded stopped_falls hstop
    omega
  · obtain ⟨before, hbefore⟩ := h
    have hsound : Sound s' := reachable_sound ⟨before ++ acts, hbefore.append hpath⟩
    obtain ⟨hstop', hqueued⟩ : s'.stop = true ∧ queuedTasks s' = queuedTasks s :=
      hpath.preserves (P := fun t => t.stop = true ∧ queuedTasks t = queuedTasks s)
        (fun t a t' ht hnext => ⟨(next_stopped ht.1 hnext).1,
          (next_stopped ht.1 hnext).2.trans ht.2⟩) ⟨hstop, rfl⟩
    have hreturned := hsound.stuck hstop' hstuck
    have htasks := (hsound.returned ⟨0, hn⟩ (hreturned _)).2
    refine ⟨hreturned, htasks, ?_⟩
    have hheld : total held s'.threads = 0 := Finset.sum_eq_zero fun i _ => by
      rw [hreturned i]
      rfl
    have haccounted := hsound.accounted
    have horder := hsound.order
    rw [hheld, add_zero] at haccounted
    rw [htasks, List.append_nil] at horder
    rw [← hqueued, ← horder]
    exact Multiset.coe_eq_coe.mp haccounted
  · exact exists_path_stuck stopped_falls hstop

theorem destructor_returns_stopped :
    (∀ acts s', Path Next stoppedPool acts s' → acts.countP isOwn ≤ 8) ∧
      (∀ acts s', Path Next stoppedPool acts s' → Stuck Next isOwn s' →
        (∀ i, s'.threads i = .returned) ∧ s'.tasks = [] ∧ (endedTasks s').Perm [5, 6]) ∧
      ∃ acts s', Path Next stoppedPool acts s' ∧ Stuck Next isOwn s' :=
  destructor_returns (by decide) stoppedPool_reachable rfl

end Destruction

end ThreadPools
