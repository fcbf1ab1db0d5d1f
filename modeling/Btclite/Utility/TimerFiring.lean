import Btclite.Library.Tables
import Btclite.Utility.Timers

/-!
# When timers fire

A timer that is found due waits for a worker of the pool, however long that
takes, and it can be stopped or reset in the meantime. Nothing takes its task
back: the callback is still started, after `StopTimer` has returned or beside
the one that the timer is queued for after `Reset`. A run that erases the end of
the list of timers is undefined, and no good is said of it.
-/

namespace TimerFiring

open Tables Timers Runs

section Property

/-- The tasks of a timer that have not started the callback. -/
def waiting (m : TimerMng) (t : Nat) : Nat := m.queue.count t + m.running.count (t, .taken)

/-- How often the callback of a timer has been started since the last `Reset`. -/
def firedSinceReset (t : Nat) (log : List Event) : Nat :=
  log.foldl (fun n e => if e = .reset t then 0 else if e = .fired t then n + 1 else n) 0

/-- A timer whose interval has always been 0. -/
def OneShot (m : TimerMng) (t : Nat) : Prop := ∀ i, Event.intervalSet t i ∈ m.log → i = 0

/-- Nothing undefined has been done, and the callbacks were started as they should be. -/
structure Right (m : TimerMng) : Prop where
  defined : Defined m
  stopped : m.log.Pairwise fun e e' => ∀ t, e = .stopped t → e' ≠ .fired t
  due : ∀ t, m.log.count (.fired t) ≤ m.log.count (.due t)
  once : ∀ t, OneShot m t → firedSinceReset t m.log ≤ 1

/-- A worker takes a task or starts one it has taken. -/
def IsWork : Act → Prop
  | .take => True
  | .invoke _ => True
  | _ => False

/-- The timers that `CheckTimers` finds due. -/
def found (m : TimerMng) (now : Millis) : List Nat :=
  m.timers.filter fun t => m.cfgs[t]?.any (·.isDue now)

/-- A timer is not stopped while a task of it waits, and one that is not set again by
itself is not found due while a task of it waits or has been started since the last
`Reset`. -/
def Patient (m : TimerMng) : Act → Prop
  | .stop timer => timer < m.cfgs.length → waiting m timer = 0
  | .check now => ∀ timer ∈ found m now, OneShot m timer →
      firedSinceReset timer m.log + waiting m timer = 0
  | _ => True

end Property

section FiredSinceReset

variable {t : Nat} {log : List Event}

theorem firedSinceReset_concat (log : List Event) (e : Event) :
    firedSinceReset t (log ++ [e]) =
      if e = .reset t then 0
      else if e = .fired t then firedSinceReset t log + 1 else firedSinceReset t log := by
  simp only [firedSinceReset, List.foldl_concat]

theorem firedSinceReset_append_le (log : List Event) {es : List Event} (h : .fired t ∉ es) :
    firedSinceReset t (log ++ es) ≤ firedSinceReset t log := by
  induction es using List.reverseRecOn with
  | nil => simp
  | append_singleton es e ih =>
    simp only [List.mem_append, List.mem_singleton, not_or] at h
    rw [← List.append_assoc, firedSinceReset_concat, if_neg (Ne.symm h.2)]
    split
    · exact Nat.zero_le _
    · exact ih h.1

theorem firedSinceReset_append_eq {es : List Event} (h : .fired t ∉ es) (h' : .reset t ∉ es) :
    firedSinceReset t (log ++ es) = firedSinceReset t log := by
  induction es using List.reverseRecOn with
  | nil => simp
  | append_singleton es e ih =>
    simp only [List.mem_append, List.mem_singleton, not_or] at h h'
    rw [← List.append_assoc, firedSinceReset_concat, if_neg (Ne.symm h'.2), if_neg (Ne.symm h.2)]
    exact ih h.1 h'.1

end FiredSinceReset

section Steps

variable {m m' : TimerMng} {i timer : Nat} {p p' : Phase}

/-- A step that neither finds a timer due nor starts a callback nor stops a timer. -/
structure Quiet (m m' : TimerMng) : Prop where
  waiting : ∀ t, waiting m' t = waiting m t
  log : ∃ es, m'.log = m.log ++ es ∧
    ∀ e ∈ es, ∀ t, e ≠ .fired t ∧ e ≠ .due t ∧ e ≠ .stopped t

theorem Quiet.refl (m : TimerMng) : Quiet m m := ⟨fun _ => rfl, [], by simp, by simp⟩

theorem quiet_setCfg (m : TimerMng) (t : Nat) (f : TimerCfg → TimerCfg) :
    Quiet m (m.setCfg t f) :=
  ⟨fun _ => rfl, [], by simp [TimerMng.setCfg], by simp⟩

/-- The callback of a timer is started, and one task waits less. -/
structure Fires (m : TimerMng) (timer : Nat) (m' : TimerMng) : Prop where
  waiting : ∀ t, TimerFiring.waiting m' t + (if timer = t then 1 else 0) =
    TimerFiring.waiting m t
  log : m'.log = m.log ++ [.fired timer]

theorem count_taken_set (h : m.running[i]? = some (timer, p)) (hp : p ≠ .taken)
    (hp' : p' ≠ .taken) (t : Nat) :
    (m.running.set i (timer, p')).count (t, .taken) = m.running.count (t, .taken) := by
  have hset := count_set h (timer, p') (t, Phase.taken)
  simpa [hp, hp'] using hset

theorem count_taken_eraseIdx (h : m.running[i]? = some (timer, p)) (hp : p ≠ .taken)
    (t : Nat) : (m.running.eraseIdx i).count (t, .taken) = m.running.count (t, .taken) := by
  have herase := count_eraseIdx h (t, Phase.taken)
  simpa [hp] using herase.symm

theorem quiet_startTimer (m : TimerMng) (timeout interval : Nat) (now : Millis) :
    Quiet m (m.startTimer timeout interval now) := by
  unfold TimerMng.startTimer
  split
  · exact Quiet.refl m
  · exact ⟨fun _ => rfl, _, rfl, by simp⟩

theorem quiet_takeTask (m : TimerMng) : Quiet m m.takeTask := by
  unfold TimerMng.takeTask
  split
  · exact Quiet.refl m
  · next timer queue hqueue =>
    refine ⟨fun t => ?_, [], by simp, by simp⟩
    simp only [waiting, hqueue, List.count_cons, List.count_append, List.count_nil]
    by_cases h : timer = t
    · simp only [h, beq_self_eq_true, if_true]
      omega
    · simp [h]

theorem quiet_callbackReturned (m : TimerMng) (i : Nat) : Quiet m (m.callbackReturned i) := by
  unfold TimerMng.callbackReturned
  split
  · next timer hi =>
    refine ⟨fun t => ?_, [], by simp, by simp⟩
    simp only [waiting]
    rw [count_taken_set hi (by simp) (by split <;> simp)]
  · exact Quiet.refl m

theorem quiet_rearm (m : TimerMng) (i : Nat) (now : Millis) : Quiet m (m.rearm i now) := by
  unfold TimerMng.rearm
  split
  · next timer hi =>
    refine ⟨fun t => ?_, [], by simp [TimerMng.setCfg], by simp⟩
    simp only [waiting, TimerMng.setCfg, count_taken_eraseIdx hi (by simp)]
  · exact Quiet.refl m

theorem quiet_completed (m : TimerMng) (i : Nat) : Quiet m (m.completed i) := by
  unfold TimerMng.completed
  split
  · next timer hi =>
    refine ⟨fun t => ?_, _, rfl, by simp⟩
    simp only [waiting, TimerMng.eraseTimer, count_taken_eraseIdx hi (by simp)]
  · exact Quiet.refl m

theorem quiet_reset (m : TimerMng) (timer timeout interval : Nat) (now : Millis) :
    Quiet m (m.reset timer timeout interval now) := by
  unfold TimerMng.reset
  dsimp only
  split
  · exact ⟨fun _ => rfl, [.reset timer, .intervalSet timer interval],
      by simp [TimerMng.emit, TimerMng.setCfg], by simp⟩
  · exact ⟨fun _ => rfl, [.reset timer], rfl, by simp⟩

theorem fires_invokeTimerCb (h : m.running[i]? = some (timer, .taken)) :
    Fires m timer (m.invokeTimerCb i) := by
  have hset := count_set h (timer, Phase.calling)
  simp only [TimerMng.invokeTimerCb, h]
  refine ⟨fun t => ?_, rfl⟩
  have ht := hset (t, Phase.taken)
  simp only [beq_iff_eq, Prod.mk.injEq, and_true, reduceCtorEq, and_false, if_false] at ht
  simp only [waiting]
  omega

/-- A timer is examined as it was before the loop, for each is there only once. -/
theorem foldl_checkTimer (now : Millis) {timers : List Nat} (h : timers.Nodup)
    (m : TimerMng) :
    let due := timers.filter fun t => m.cfgs[t]?.any (·.isDue now)
    (timers.foldl (TimerMng.checkTimer now) m).queue = m.queue ++ due ∧
      (timers.foldl (TimerMng.checkTimer now) m).running = m.running ∧
      (timers.foldl (TimerMng.checkTimer now) m).log = m.log ++ due.map .due := by
  induction timers generalizing m with
  | nil => simp
  | cons t timers ih =>
    obtain ⟨ht, htimers⟩ := List.nodup_cons.mp h
    have hrest : ∀ t' ∈ timers, (m.checkTimer now t).cfgs[t']? = m.cfgs[t']? := by
      intro t' ht'
      have hne : t ≠ t' := fun h => ht (h ▸ ht')
      unfold TimerMng.checkTimer
      split
      · simp [TimerMng.setCfg, hne]
      · rfl
    have hfilter : (timers.filter fun t' => (m.checkTimer now t).cfgs[t']?.any (·.isDue now)) =
        timers.filter fun t' => m.cfgs[t']?.any (·.isDue now) :=
      List.filter_congr fun t' ht' => by rw [hrest t' ht']
    obtain ⟨hqueue, hrunning, hlog⟩ := ih htimers (m.checkTimer now t)
    simp only [List.foldl_cons, hqueue, hrunning, hlog, hfilter, List.filter_cons]
    unfold TimerMng.checkTimer
    split <;> simp [TimerMng.setCfg]

theorem waiting_checkTimers (hm : Kept m) (now : Millis) (t : Nat) :
    waiting (m.checkTimers now) t = waiting m t + (found m now).count t := by
  obtain ⟨hqueue, hrunning, -⟩ := foldl_checkTimer now hm.nodup m
  simp only [waiting, TimerMng.checkTimers, hqueue, hrunning, List.count_append, found]
  omega

theorem log_checkTimers (hm : Kept m) (now : Millis) :
    (m.checkTimers now).log = m.log ++ (found m now).map .due :=
  (foldl_checkTimer now hm.nodup m).2.2

theorem waiting_stopTimer (m : TimerMng) (timer t : Nat) :
    waiting (m.stopTimer timer) t = waiting m t := rfl

theorem log_stopTimer (m : TimerMng) (timer : Nat) :
    (m.stopTimer timer).log =
      m.log ++ [.removal timer (m.timers.contains timer), .stopped timer] := by
  simp [TimerMng.stopTimer, TimerMng.eraseTimer, TimerMng.emit]

theorem step_cases (m : TimerMng) (a : Act) :
    (Quiet m (step m a) ∧ Patient m a) ∨ (∃ timer, Fires m timer (step m a) ∧ Patient m a) ∨
      (∃ now, a = .check now) ∨ ∃ timer, a = .stop timer ∧ timer < m.cfgs.length := by
  cases a with
  | start timeout interval now =>
    exact Or.inl ⟨quiet_startTimer m timeout interval now, trivial⟩
  | check now => exact Or.inr (Or.inr (Or.inl ⟨now, rfl⟩))
  | take => exact Or.inl ⟨quiet_takeTask m, trivial⟩
  | invoke i =>
    by_cases h : ∃ timer, m.running[i]? = some (timer, .taken)
    · obtain ⟨timer, h⟩ := h
      exact Or.inr (Or.inl ⟨timer, fires_invokeTimerCb h, trivial⟩)
    · have hsame : step m (.invoke i) = m := by
        simp only [step, TimerMng.invokeTimerCb]
        grind
      exact Or.inl ⟨hsame.symm ▸ Quiet.refl m, trivial⟩
  | returned i => exact Or.inl ⟨quiet_callbackReturned m i, trivial⟩
  | rearm i now => exact Or.inl ⟨quiet_rearm m i now, trivial⟩
  | completed i => exact Or.inl ⟨quiet_completed m i, trivial⟩
  | stop timer =>
    by_cases h : timer < m.cfgs.length
    · exact Or.inr (Or.inr (Or.inr ⟨timer, rfl, h⟩))
    · refine Or.inl ⟨?_, fun h' => absurd h' h⟩
      simpa [step, h] using Quiet.refl m
  | reset timer timeout interval now =>
    refine Or.inl ⟨?_, trivial⟩
    simp only [step]
    split
    · exact quiet_reset m timer timeout interval now
    · exact Quiet.refl m
  | setInterval timer interval =>
    refine Or.inl ⟨?_, trivial⟩
    simp only [step]
    split
    · exact ⟨fun _ => rfl, [.intervalSet timer interval], rfl, by simp⟩
    · exact Quiet.refl m
  | suspend timer => exact Or.inl ⟨quiet_setCfg m timer _, trivial⟩
  | resume timer now => exact Or.inl ⟨quiet_setCfg m timer _, trivial⟩

end Steps

section Counted

variable {m m' : TimerMng} {t timer : Nat} {now : Millis}

/-- A task of a timer waits or has started the callback, and a timer that has been
stopped has been looked for in the list. -/
structure Counted (m : TimerMng) : Prop where
  due : ∀ t, m.log.count (.fired t) + waiting m t = m.log.count (.due t)
  stopped : ∀ t, Event.stopped t ∈ m.log → Tried m t

theorem Quiet.count_fired (h : Quiet m m') (t : Nat) :
    m'.log.count (.fired t) = m.log.count (.fired t) := by
  obtain ⟨es, hes, hnone⟩ := h.log
  have hzero : es.count (.fired t) = 0 :=
    List.count_eq_zero_of_not_mem fun hmem => (hnone _ hmem t).1 rfl
  rw [hes, List.count_append, hzero, Nat.add_zero]

theorem Quiet.count_due (h : Quiet m m') (t : Nat) :
    m'.log.count (.due t) = m.log.count (.due t) := by
  obtain ⟨es, hes, hnone⟩ := h.log
  have hzero : es.count (.due t) = 0 :=
    List.count_eq_zero_of_not_mem fun hmem => (hnone _ hmem t).2.1 rfl
  rw [hes, List.count_append, hzero, Nat.add_zero]

theorem Quiet.stopped_mem_iff (h : Quiet m m') (t : Nat) :
    .stopped t ∈ m'.log ↔ .stopped t ∈ m.log := by
  obtain ⟨es, hes, hnone⟩ := h.log
  rw [hes, List.mem_append]
  exact or_iff_left fun hmem => (hnone _ hmem t).2.2 rfl

theorem tried_append {es : List Event} (hes : m'.log = m.log ++ es) (h : Tried m t) :
    Tried m' t := by
  obtain ⟨b, hb⟩ := h
  exact ⟨b, hes ▸ List.mem_append_left es hb⟩

theorem Quiet.counted (h : Quiet m m') (hm : Counted m) : Counted m' where
  due := by
    intro t
    rw [h.count_fired, h.count_due, h.waiting]
    exact hm.due t
  stopped := by
    intro t ht
    obtain ⟨es, hes, -⟩ := h.log
    exact tried_append hes (hm.stopped t ((h.stopped_mem_iff t).mp ht))

theorem Fires.counted (h : Fires m timer m') (hm : Counted m) : Counted m' where
  due := by
    intro t
    have hwaiting := h.waiting t
    have hdue := hm.due t
    simp only [h.log, List.count_append, List.count_singleton, beq_iff_eq, Event.fired.injEq,
      reduceCtorEq, if_false]
    omega
  stopped := by
    intro t ht
    apply tried_append h.log
    rw [h.log] at ht
    exact hm.stopped t (by simpa using ht)

theorem counted_checkTimers (hk : Kept m) (hm : Counted m) (now : Millis) :
    Counted (m.checkTimers now) where
  due := by
    intro t
    have hdue := hm.due t
    have hfired : ((found m now).map Event.due).count (.fired t) = 0 :=
      List.count_eq_zero_of_not_mem (by simp)
    have hfound : ((found m now).map Event.due).count (.due t) = (found m now).count t :=
      List.count_map_of_injective _ _ (fun _ _ => Event.due.inj) t
    rw [waiting_checkTimers hk, log_checkTimers hk, List.count_append, List.count_append]
    omega
  stopped := by
    intro t ht
    apply tried_append (log_checkTimers hk now)
    rw [log_checkTimers hk] at ht
    exact hm.stopped t (by simpa using ht)

theorem counted_stopTimer (hm : Counted m) (timer : Nat) : Counted (m.stopTimer timer) where
  due := by
    intro t
    rw [log_stopTimer, waiting_stopTimer]
    simpa using hm.due t
  stopped := by
    intro t ht
    rw [log_stopTimer, List.mem_append] at ht
    rcases ht with ht | ht
    · exact tried_append (log_stopTimer m timer) (hm.stopped t ht)
    · obtain rfl : t = timer := by simpa using ht
      refine ⟨m.timers.contains t, ?_⟩
      rw [log_stopTimer]
      exact List.mem_append_right _ List.mem_cons_self

theorem run_counted (acts : List Act) : Counted (acts.foldl step {}) := by
  induction acts using List.reverseRecOn with
  | nil => exact ⟨by simp [waiting], by simp⟩
  | append_singleton acts a ih =>
    have hk := run_kept acts
    rw [List.foldl_concat]
    rcases step_cases (acts.foldl step {}) a with ⟨h, -⟩ | ⟨timer, h, -⟩ | ⟨now, rfl⟩ |
      ⟨timer, rfl, h⟩
    · exact h.counted ih
    · exact h.counted ih
    · exact counted_checkTimers hk ih now
    · simp only [step, h, if_true]
      exact counted_stopTimer ih timer

end Counted

section Ready

variable {m m' : TimerMng} {t timer : Nat} {now : Millis}

/-- The property holds, and no task that waits will break it. -/
structure Ready (m : TimerMng) : Prop where
  stopped : m.log.Pairwise fun e e' => ∀ t, e = .stopped t → e' ≠ .fired t
  idle : ∀ t, Event.stopped t ∈ m.log → waiting m t = 0
  once : ∀ t, OneShot m t → firedSinceReset t m.log + waiting m t ≤ 1

theorem stopped_append {log es : List Event}
    (h : log.Pairwise fun e e' => ∀ t, e = .stopped t → e' ≠ .fired t)
    (hes : ∀ e ∈ es, ∀ t, e ≠ .fired t) :
    (log ++ es).Pairwise fun e e' => ∀ t, e = .stopped t → e' ≠ .fired t := by
  apply List.pairwise_append.mpr
  refine ⟨h, ?_, fun _ _ e' he' t _ => hes e' he' t⟩
  exact List.pairwise_of_forall_mem_list fun _ _ e' he' t _ => hes e' he' t

theorem OneShot.of_append {es : List Event} (hes : m'.log = m.log ++ es) (h : OneShot m' t) :
    OneShot m t :=
  fun i hi => h i (hes ▸ List.mem_append_left es hi)

theorem Quiet.ready (h : Quiet m m') (hr : Ready m) : Ready m' := by
  obtain ⟨es, hes, hnone⟩ := h.log
  constructor
  · rw [hes]
    exact stopped_append hr.stopped fun e he t => (hnone e he t).1
  · intro t ht
    rw [h.waiting]
    exact hr.idle t ((h.stopped_mem_iff t).mp ht)
  · intro t ht
    have hold := hr.once t (ht.of_append hes)
    have hfired : Event.fired t ∉ es := fun hmem => (hnone _ hmem t).1 rfl
    have hle := firedSinceReset_append_le m.log hfired
    rw [h.waiting, hes]
    omega

theorem Fires.ready_iff (h : Fires m timer m') : Ready m' ↔ Ready m := by
  have hself := h.waiting timer
  have hmem : ∀ t, Event.stopped t ∈ m'.log ↔ Event.stopped t ∈ m.log := by
    simp [h.log]
  have hshot : ∀ t, OneShot m' t ↔ OneShot m t := by
    simp [OneShot, h.log]
  have hsum : ∀ t, firedSinceReset t m'.log + TimerFiring.waiting m' t =
      firedSinceReset t m.log + TimerFiring.waiting m t := by
    intro t
    have hwaiting := h.waiting t
    rw [h.log, firedSinceReset_concat]
    simp only [reduceCtorEq, if_false, Event.fired.injEq]
    by_cases heq : timer = t
    · rw [if_pos heq] at hwaiting ⊢
      omega
    · rw [if_neg heq] at hwaiting ⊢
      omega
  constructor
  · intro hr
    obtain ⟨hold, -, hlast⟩ := List.pairwise_append.mp (h.log ▸ hr.stopped)
    constructor
    · exact hold
    · intro t ht
      have hne : timer ≠ t := by
        rintro rfl
        exact hlast _ ht _ (List.mem_singleton_self _) timer rfl rfl
      have hwaiting := h.waiting t
      rw [if_neg hne, hr.idle t ((hmem t).mpr ht)] at hwaiting
      exact hwaiting.symm
    · intro t ht
      rw [← hsum]
      exact hr.once t ((hshot t).mpr ht)
  · intro hr
    constructor
    · rw [h.log]
      apply List.pairwise_append.mpr
      refine ⟨hr.stopped, List.pairwise_singleton _ _, ?_⟩
      rintro e he e' he' t rfl rfl
      obtain rfl : t = timer := by simpa using he'
      have hidle := hr.idle t he
      simp [hidle] at hself
    · intro t ht
      have hwaiting := h.waiting t
      have hidle := hr.idle t ((hmem t).mp ht)
      omega
    · intro t ht
      rw [hsum]
      exact hr.once t ((hshot t).mp ht)

theorem ready_stopTimer_iff (hr : Ready m) (timer : Nat) :
    Ready (m.stopTimer timer) ↔ waiting m timer = 0 := by
  constructor
  · intro h
    apply h.idle
    rw [log_stopTimer]
    simp
  · intro h
    constructor
    · rw [log_stopTimer]
      exact stopped_append hr.stopped (by simp)
    · intro t ht
      rw [waiting_stopTimer]
      rw [log_stopTimer, List.mem_append] at ht
      rcases ht with ht | ht
      · exact hr.idle t ht
      · obtain rfl : t = timer := by simpa using ht
        exact h
    · intro t ht
      have hold := hr.once t (ht.of_append (log_stopTimer m timer))
      rw [waiting_stopTimer, log_stopTimer, firedSinceReset_append_eq (by simp) (by simp)]
      exact hold

theorem ready_checkTimers_iff (hk : Kept m) (hc : Counted m) (hr : Ready m) (now : Millis) :
    Ready (m.checkTimers now) ↔ Patient m (.check now) := by
  have hlog := log_checkTimers hk now
  have hsince : ∀ t, firedSinceReset t (m.checkTimers now).log = firedSinceReset t m.log := by
    intro t
    rw [hlog, firedSinceReset_append_eq (by simp) (by simp)]
  have hshot : ∀ t, OneShot (m.checkTimers now) t ↔ OneShot m t := by
    simp [OneShot, hlog]
  constructor
  · intro h t ht hone
    have honce := h.once t ((hshot t).mpr hone)
    have hcount := List.count_pos_iff.mpr ht
    rw [hsince, waiting_checkTimers hk] at honce
    omega
  · intro h
    constructor
    · rw [hlog]
      exact stopped_append hr.stopped (by simp)
    · intro t ht
      have hold : Event.stopped t ∈ m.log := by simpa [hlog] using ht
      have hgone : t ∉ found m now := by
        intro hfound
        have hkept := (hk.mem_iff t).mp (List.mem_filter.mp hfound).1
        exact hkept.2 (hc.stopped t hold)
      rw [waiting_checkTimers hk, hr.idle t hold, List.count_eq_zero_of_not_mem hgone]
    · intro t ht
      have hone := (hshot t).mp ht
      rw [hsince, waiting_checkTimers hk]
      by_cases hfound : t ∈ found m now
      · have hzero := h t hfound hone
        have hnodup : (found m now).Nodup := hk.nodup.filter _
        have hcount := List.nodup_iff_count_le_one.mp hnodup t
        omega
      · have hold := hr.once t hone
        rw [List.count_eq_zero_of_not_mem hfound]
        omega

theorem ready_step_iff (hk : Kept m) (hc : Counted m) (hr : Ready m) (a : Act) :
    Ready (step m a) ↔ Patient m a := by
  rcases step_cases m a with ⟨h, hpatient⟩ | ⟨timer, h, hpatient⟩ | ⟨now, rfl⟩ | ⟨timer, rfl, h⟩
  · exact iff_of_true (h.ready hr) hpatient
  · exact iff_of_true (h.ready_iff.mpr hr) hpatient
  · exact ready_checkTimers_iff hk hc hr now
  · simp only [step, Patient, h, if_true, true_implies]
    exact ready_stopTimer_iff hr timer

theorem ready_start : Ready {} :=
  ⟨List.Pairwise.nil, by simp, by simp [firedSinceReset, waiting]⟩

theorem Ready.right (hr : Ready m) (hc : Counted m) (hs : Safe m) : Right m where
  defined := hs.found
  stopped := hr.stopped
  due := fun t => hc.due t ▸ Nat.le_add_right _ _
  once := fun t ht => Nat.le_trans (Nat.le_add_right _ _) (hr.once t ht)

/-- What keeps the workers busy: a task counts twice until it is taken. -/
def pending (m : TimerMng) : Nat := 2 * m.queue.length + m.running.countP (·.2 = .taken)

theorem waiting_eq_zero (h : pending m = 0) (t : Nat) : waiting m t = 0 := by
  obtain ⟨hqueue, hrunning⟩ := Nat.add_eq_zero_iff.mp h
  have hempty : m.queue = [] := List.length_eq_zero_iff.mp (by omega)
  have hnone : (t, Phase.taken) ∉ m.running := by
    intro hmem
    exact List.countP_eq_zero.mp hrunning _ hmem (by simp)
  simp [waiting, hempty, List.count_eq_zero_of_not_mem hnone]

/-- While a task waits there is work, and it makes a task wait less. -/
theorem exists_work (h : pending m ≠ 0) :
    ∃ a, IsWork a ∧ pending (step m a) < pending m ∧ (Ready (step m a) → Ready m) := by
  match hqueue : m.queue with
  | timer :: queue =>
    refine ⟨.take, trivial, ?_, ?_⟩
    · have hmore : (m.running ++ [(timer, Phase.taken)]).countP (·.2 = .taken) =
          m.running.countP (·.2 = .taken) + 1 := by
        simp [List.countP_append]
      simp only [pending, step, TimerMng.takeTask, hqueue, List.length_cons, hmore]
      omega
    · intro hr
      have hquiet := quiet_takeTask m
      have hlog : m.takeTask.log = m.log := by simp [TimerMng.takeTask, hqueue]
      constructor
      · exact hlog ▸ hr.stopped
      · intro t ht
        rw [← hquiet.waiting]
        exact hr.idle t (hlog.symm ▸ ht)
      · intro t ht
        rw [← hquiet.waiting, ← hlog]
        exact hr.once t (by simpa [OneShot, step, hlog] using ht)
  | [] =>
    have hsome : ∃ r ∈ m.running, r.2 = .taken := by
      by_contra hnone
      apply h
      simp only [pending, hqueue, List.length_nil, Nat.mul_zero, Nat.zero_add]
      apply List.countP_eq_zero.mpr
      exact fun r hmem htaken => hnone ⟨r, hmem, by simpa using htaken⟩
    obtain ⟨⟨timer, _⟩, hmem, rfl⟩ := hsome
    obtain ⟨i, hi⟩ := List.getElem?_of_mem hmem
    refine ⟨.invoke i, trivial, ?_, (fires_invokeTimerCb hi).ready_iff.mp⟩
    have hless : (m.running.set i (timer, Phase.calling)).countP (·.2 = .taken) <
        m.running.countP (·.2 = .taken) := by
      have hset := countP_set (p := fun r => r.2 = .taken) hi (timer, Phase.calling)
      rw [if_pos (decide_eq_true rfl), if_neg (by simp)] at hset
      omega
    simp only [pending, step, TimerMng.invokeTimerCb, hi]
    omega

theorem ready_of_work (h : ∀ work : List Act, (∀ a ∈ work, IsWork a) → Right (work.foldl step m)) :
    Ready m := by
  generalize hn : pending m = n
  induction n using Nat.strongRecOn generalizing m with
  | ind n ih =>
    by_cases hzero : pending m = 0
    · have hright : Right m := h [] (by simp)
      constructor
      · exact hright.stopped
      · exact fun t _ => waiting_eq_zero hzero t
      · intro t ht
        rw [waiting_eq_zero hzero, Nat.add_zero]
        exact hright.once t ht
    · obtain ⟨a, ha, hless, hback⟩ := exists_work hzero
      apply hback
      refine ih _ (hn ▸ hless) (fun work hwork => ?_) rfl
      exact h (a :: work) (by simpa [ha] using hwork)

end Ready

/-- The workers go on without removing a timer or finding one due. -/
theorem work_spares {a : Act} (m : TimerMng) (ha : IsWork a) : Lone m a ∧ Patient m a := by
  cases a with
  | take | invoke => exact ⟨nofun, trivial⟩
  | _ => exact ha.elim

/-- The property holds wherever the workers get to from here. -/
theorem ready_safe_iff_work (done : List Act) :
    (∀ work, (∀ a ∈ work, IsWork a) → Right ((done ++ work).foldl step {})) ↔
      Ready (done.foldl step {}) ∧ Safe (done.foldl step {}) := by
  constructor
  · intro h
    refine ⟨ready_of_work (by simpa only [List.foldl_append] using h), ?_⟩
    have hright := h [] (by simp)
    rw [List.append_nil] at hright
    exact (safe_iff (run_kept done)).mpr hright.defined
  · rintro ⟨hready, hsafe⟩ work hwork
    suffices h : Ready ((done ++ work).foldl step {}) ∧ Safe ((done ++ work).foldl step {}) from
      h.1.right (run_counted _) h.2
    induction work using List.reverseRecOn with
    | nil =>
      rw [List.append_nil]
      exact ⟨hready, hsafe⟩
    | append_singleton work a ih =>
      simp only [List.mem_append, List.mem_singleton, or_imp, forall_and, forall_eq] at hwork
      obtain ⟨hready, hsafe⟩ := ih hwork.1
      obtain ⟨hlone, hpatient⟩ := work_spares ((done ++ work).foldl step {}) hwork.2
      rw [← List.append_assoc, List.foldl_concat]
      exact ⟨(ready_step_iff (run_kept _) (run_counted _) hready a).mpr hpatient,
        (safe_step_iff (run_kept _) hsafe a).mpr hlone⟩

/-- Wherever the workers get to the tasks that wait, the end of the list is not erased, no
callback is started after `StopTimer`, none more often than its timer was due, and that of a
timer which is not set again by itself at most once since the last `Reset`, exactly if no timer
is asked to be removed twice and every timer that is stopped or found due has no task left from
before. -/
theorem right_iff_patient (acts : List Act) :
    (∀ done, done <+: acts → ∀ work, (∀ a ∈ work, IsWork a) →
      Right ((done ++ work).foldl step {})) ↔
        Throughout step (fun m a => Lone m a ∧ Patient m a) {} acts := by
  simp only [ready_safe_iff_work]
  refine always_iff_throughout (P := fun m => Ready m ∧ Safe m)
    ⟨ready_start, (safe_iff kept_start).mpr fun _ => List.not_mem_nil⟩ ?_
  rintro done a _ ⟨hready, hsafe⟩
  rw [ready_step_iff (run_kept done) (run_counted done) hready a,
    safe_step_iff (run_kept done) hsafe a]
  exact and_comm

/-- A timer is stopped while its task waits; another is reset while its task waits and
falls due again. -/
theorem waiting_task_fires :
    (¬ ∀ acts : List Act, (acts.foldl step {}).log.Pairwise
      fun e e' => ∀ t, e = .stopped t → e' ≠ .fired t) ∧
    ¬ ∀ (acts : List Act) (t : Nat), OneShot (acts.foldl step {}) t →
      firedSinceReset t (acts.foldl step {}).log ≤ 1 := by
  constructor
  · intro h
    have hrun := h [.start 60000 0 0, .check 60000, .stop 0, .take, .invoke 0]
    have hlog : ([.start 60000 0 0, .check 60000, .stop 0, .take, .invoke 0].foldl step {}).log =
        [.intervalSet 0 0, .due 0, .removal 0 true, .stopped 0, .fired 0] := by decide
    rw [hlog] at hrun
    simp at hrun
  · intro h
    have hrun := h [.start 60000 0 0, .check 60000, .reset 0 0 0 60001, .check 120001, .take,
      .take, .invoke 0, .invoke 1] 0
    have hlog : ([.start 60000 0 0, .check 60000, .reset 0 0 0 60001, .check 120001, .take,
        .take, .invoke 0, .invoke 1].foldl step {}).log =
        [.intervalSet 0 0, .due 0, .reset 0, .due 0, .fired 0, .fired 0] := by decide
    rw [OneShot, hlog] at hrun
    simp [firedSinceReset] at hrun

end TimerFiring
