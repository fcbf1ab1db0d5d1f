import Btclite.Library.Ranking
import Btclite.Library.Waiting
import Btclite.Utility.LockOrders
import Mathlib.Algebra.Order.BigOperators.Group.Finset
import Mathlib.Data.Fintype.EquivFin

/-!
# Lock scopes

`MutexLock` of `sync.h` over critical sections, which are recursive mutexes, with the lock
stacks of `sync.cpp` under it. Threads run in any order. One step is what a thread does up to
the next point where it has to wait or another may come in between. The objects of a thread
end in the reverse order of their construction, and no critical section goes away.
-/

namespace LockScopes

open LockOrders Ranking Relation Waiting

/-- The thread that owns a `std::recursive_mutex`, and how often it locked it again. -/
structure Ownership (T : Type) where
  owner : T
  again : Nat := 0

section Mutex

variable {T : Type} [DecidableEq T]

/-- Nothing when the thread has to wait. -/
def lock (t : T) : Option (Ownership T) → Option (Ownership T)
  | none => some { owner := t }
  | some o => if o.owner = t then some { o with again := o.again + 1 } else none

def unlock : Option (Ownership T) → Option (Ownership T)
  | some ⟨t, again + 1⟩ => some ⟨t, again⟩
  | _ => none

def depth (t : T) : Option (Ownership T) → Nat
  | none => 0
  | some o => if o.owner = t then o.again + 1 else 0

variable {t u : T} {m : Option (Ownership T)} {o : Ownership T}

theorem depth_pos_iff : 0 < depth t m ↔ ∃ o ∈ m, o.owner = t := by
  cases m with
  | none => simp [depth]
  | some o =>
    by_cases h : o.owner = t <;> simp [depth, h]

theorem depth_lock (h : lock t m = some o) :
    depth u (some o) = depth u m + if u = t then 1 else 0 := by
  cases m with
  | none =>
    cases h
    simp only [depth, eq_comm (a := u), Nat.zero_add]
  | some before =>
    rw [lock] at h
    split at h
    · next howner =>
      cases h
      subst howner
      by_cases hu : u = before.owner
      · simp [depth, hu]
      · simp [depth, hu, Ne.symm hu]
    · cases h

theorem depth_unlock (h : 0 < depth t m) :
    depth u (unlock m) + (if u = t then 1 else 0) = depth u m := by
  obtain ⟨⟨owner, again⟩, rfl, rfl⟩ := depth_pos_iff.mp h
  by_cases hu : u = owner
  · cases again <;> simp [unlock, depth, hu]
  · cases again <;> simp [unlock, depth, hu, Ne.symm hu]

theorem owner_unique (ht : 0 < depth t m) (hu : 0 < depth u m) : t = u := by
  obtain ⟨o, rfl, rfl⟩ := depth_pos_iff.mp ht
  obtain ⟨o', h, rfl⟩ := depth_pos_iff.mp hu
  cases h
  rfl

theorem lock_eq_none_iff : lock t m = none ↔ ∃ u, u ≠ t ∧ 0 < depth u m := by
  simp only [depth_pos_iff]
  cases m with
  | none => simp [lock]
  | some o =>
    by_cases h : o.owner = t <;> simp [lock, h]

theorem eq_none_iff : m = none ↔ ∀ t, depth t m = 0 := by
  constructor
  · rintro rfl t
    rfl
  · intro h
    cases m with
    | none => rfl
    | some o =>
      have hpos : 0 < depth o.owner (some o) := depth_pos_iff.mpr ⟨o, rfl, rfl⟩
      exact absurd (h o.owner) hpos.ne'

end Mutex

/-- Where a thread is in a constructor or a destructor of `MutexLock`. -/
inductive Phase (L : Type) where
  | running
  /-- `Enter` after the push, up to where `lock` returns. -/
  | entering (c : L)
  /-- `TryEnter` after the push. -/
  | trying (c : L)
  /-- `TryEnter` after a `try_lock` that failed. -/
  | failed (c : L)
  /-- The destructor after the pop. -/
  | leaving (c : L)

structure Thread (L : Type) where
  /-- The `MutexLock` objects, the latest first, with the mutex that each owns. -/
  scopes : List (Option L) := []
  phase : Phase L := .running

structure Program (T L : Type) where
  threads : T → Thread L := fun _ => {}
  mutex : L → Option (Ownership T) := fun _ => none
  /-- The calls of `PushLock` and `PopLock` so far. -/
  history : List (Event T L) := []

section Steps

variable {T L : Type} [DecidableEq T] {s : Program T L} {t u : T}
  {scopes : List (Option L)} {phase : Phase L}

def Program.setThread (s : Program T L) (t : T) (scopes : List (Option L)) (phase : Phase L) :
    Program T L :=
  { s with threads := Function.update s.threads t ⟨scopes, phase⟩ }

@[simp] theorem setThread_threads_self :
    (s.setThread t scopes phase).threads t = ⟨scopes, phase⟩ := Function.update_self _ _ _

@[simp] theorem setThread_threads_of_ne (h : u ≠ t) :
    (s.setThread t scopes phase).threads u = s.threads u := Function.update_of_ne h _ _

@[simp] theorem setThread_mutex : (s.setThread t scopes phase).mutex = s.mutex := rfl

@[simp] theorem setThread_history : (s.setThread t scopes phase).history = s.history := rfl

variable [DecidableEq L]

inductive Act where
  | construct
  | lock
  | fail
  | leaveCritical
  | destroy
  | unlock

/-- What a thread may do next. `try_lock` may fail for no reason. -/
inductive Next (s : Program T L) (t : T) : Act → Program T L → Prop where
  | pass (hphase : (s.threads t).phase = .running) :
      Next s t .construct (s.setThread t (none :: (s.threads t).scopes) .running)
  | enter (c : L) (location : LockLocation) (hphase : (s.threads t).phase = .running) :
      Next s t .construct
        { s.setThread t (s.threads t).scopes
            (if location.isTry then .trying c else .entering c) with
          history := s.history ++ [.push t c location] }
  | lock (c : L) (o : Ownership T)
      (hphase : (s.threads t).phase = .entering c ∨ (s.threads t).phase = .trying c)
      (hlock : lock t (s.mutex c) = some o) :
      Next s t .lock
        { s.setThread t (some c :: (s.threads t).scopes) .running with
          mutex := Function.update s.mutex c o }
  | fail (c : L) (hphase : (s.threads t).phase = .trying c) :
      Next s t .fail (s.setThread t (s.threads t).scopes (.failed c))
  | leaveCritical (c : L) (hphase : (s.threads t).phase = .failed c) :
      Next s t .leaveCritical
        { s.setThread t (none :: (s.threads t).scopes) .running with
          history := s.history ++ [.pop t] }
  | drop (rest : List (Option L)) (hphase : (s.threads t).phase = .running)
      (hscopes : (s.threads t).scopes = none :: rest) :
      Next s t .destroy (s.setThread t rest .running)
  | leave (c : L) (rest : List (Option L)) (hphase : (s.threads t).phase = .running)
      (hscopes : (s.threads t).scopes = some c :: rest) :
      Next s t .destroy
        { s.setThread t rest (.leaving c) with history := s.history ++ [.pop t] }
  | unlock (c : L) (hphase : (s.threads t).phase = .leaving c) :
      Next s t .unlock
        { s.setThread t (s.threads t).scopes .running with
          mutex := Function.update s.mutex c (unlock (s.mutex c)) }

def Reachable (s : Program T L) : Prop :=
  ∃ acts, Path (fun (s : Program T L) (a : T × Act) => Next s a.1 a.2) {} acts s

end Steps

section Invariant

variable {T L : Type}

/-- The mutexes that objects own, the latest last. -/
def owned (scopes : List (Option L)) : List L := (scopes.filterMap id).reverse

@[simp] theorem owned_cons_none {scopes : List (Option L)} :
    owned (none :: scopes) = owned scopes := rfl

@[simp] theorem owned_cons_some {c : L} {scopes : List (Option L)} :
    owned (some c :: scopes) = owned scopes ++ [c] := List.reverse_cons

/-- The lock that is on the stack and that no object owns. -/
def Phase.pushed : Phase L → List L
  | .entering c | .trying c | .failed c => [c]
  | .running | .leaving _ => []

/-- The mutex that is still locked after its object is gone. -/
def Phase.unlocking : Phase L → List L
  | .leaving c => [c]
  | .running | .entering _ | .trying _ | .failed _ => []

variable [DecidableEq T] [DecidableEq L]

structure Sound (s : Program T L) : Prop where
  mirrored : ∀ t, held s.history t = owned (s.threads t).scopes ++ (s.threads t).phase.pushed
  counted : ∀ t c, depth t (s.mutex c) =
    (owned (s.threads t).scopes ++ (s.threads t).phase.unlocking).count c

variable {s s' : Program T L} {t u : T} {c : L} {act : Act}

/-- A step of one thread leaves all others with what they have. -/
structure Frame (s s' : Program T L) (t : T) : Prop where
  thread : ∀ u, u ≠ t → s'.threads u = s.threads u
  stack : ∀ u, u ≠ t → held s'.history u = held s.history u
  mutex : ∀ u, u ≠ t → ∀ c, depth u (s'.mutex c) = depth u (s.mutex c)

theorem Sound.of_frame (h : Sound s) (hframe : Frame s s' t)
    (hstack : held s'.history t = owned (s'.threads t).scopes ++ (s'.threads t).phase.pushed)
    (hcount : ∀ c, depth t (s'.mutex c) =
      (owned (s'.threads t).scopes ++ (s'.threads t).phase.unlocking).count c) : Sound s' := by
  refine ⟨fun u => ?_, fun u c => ?_⟩
  · by_cases hu : u = t
    · rw [hu, hstack]
    · rw [hframe.stack u hu, hframe.thread u hu, h.mirrored u]
  · by_cases hu : u = t
    · rw [hu, hcount]
    · rw [hframe.mutex u hu, hframe.thread u hu, h.counted u c]

theorem depth_update {mutex : L → Option (Ownership T)} {m : Option (Ownership T)} {c' : L} :
    depth u (Function.update mutex c m c') = if c' = c then depth u m else depth u (mutex c') := by
  rw [Function.update_apply, apply_ite (depth u)]

theorem Sound.leaving_pos (h : Sound s) (hphase : (s.threads t).phase = .leaving c) :
    0 < depth t (s.mutex c) := by
  rw [h.counted t c, hphase]
  simp [Phase.unlocking]

theorem next_frame (h : Sound s) (hnext : Next s t act s') : Frame s s' t := by
  cases hnext with
  | enter c location =>
    refine ⟨fun u hu => setThread_threads_of_ne hu, fun u hu => ?_, fun u hu c => rfl⟩
    rw [held_push, if_neg hu]
  | lock c o hphase hlock =>
    refine ⟨fun u hu => setThread_threads_of_ne hu, fun u hu => rfl, fun u hu c' => ?_⟩
    rw [depth_update, depth_lock hlock, if_neg hu]
    split
    · next hc => rw [hc, Nat.add_zero]
    · rfl
  | leaveCritical | leave =>
    refine ⟨fun u hu => setThread_threads_of_ne hu, fun u hu => ?_, fun u hu c => rfl⟩
    rw [held_pop, if_neg hu]
  | unlock c hphase =>
    refine ⟨fun u hu => setThread_threads_of_ne hu, fun u hu => rfl, fun u hu c' => ?_⟩
    have hdepth := depth_unlock (u := u) (h.leaving_pos hphase)
    rw [if_neg hu, Nat.add_zero] at hdepth
    rw [depth_update, hdepth]
    split
    · next hc => rw [hc]
    · rfl
  | _ => exact ⟨fun u hu => setThread_threads_of_ne hu, fun u hu => rfl, fun u hu c => rfl⟩

theorem next_sound (h : Sound s) (hnext : Next s t act s') : Sound s' := by
  refine h.of_frame (next_frame h hnext) ?_ fun c' => ?_
  · have hmirrored := h.mirrored t
    cases hnext with
    | pass hphase => simpa [hphase, Phase.pushed] using hmirrored
    | enter c location hphase =>
      rw [held_push, if_pos rfl, hmirrored, hphase]
      cases hisTry : location.isTry <;> simp [Phase.pushed]
    | lock c o hphase hlock =>
      rcases hphase with hphase | hphase <;> simpa [hphase, Phase.pushed] using hmirrored
    | fail c hphase => simpa [hphase, Phase.pushed] using hmirrored
    | leaveCritical c hphase =>
      rw [held_pop, if_pos rfl, hmirrored, hphase]
      simp [Phase.pushed]
    | drop rest hphase hscopes => simpa [hphase, hscopes, Phase.pushed] using hmirrored
    | leave c rest hphase hscopes =>
      rw [held_pop, if_pos rfl, hmirrored, hphase, hscopes]
      simp [Phase.pushed]
    | unlock c hphase => simpa [hphase, Phase.pushed] using hmirrored
  · have hcounted := h.counted t c'
    cases hnext with
    | pass hphase => simpa [hphase, Phase.unlocking] using hcounted
    | enter c location hphase =>
      cases hisTry : location.isTry <;> simpa [hphase, Phase.unlocking] using hcounted
    | lock c o hphase hlock =>
      rw [depth_update, depth_lock hlock, if_pos rfl]
      by_cases hc : c' = c
      · subst hc
        rcases hphase with hphase | hphase <;> simp [hcounted, hphase, Phase.unlocking]
      · rcases hphase with hphase | hphase <;>
          simp [hc, Ne.symm hc, hcounted, hphase, Phase.unlocking]
    | fail c hphase => simpa [hphase, Phase.unlocking] using hcounted
    | leaveCritical c hphase => simpa [hphase, Phase.unlocking] using hcounted
    | drop rest hphase hscopes => simpa [hphase, hscopes, Phase.unlocking] using hcounted
    | leave c rest hphase hscopes => simpa [hphase, hscopes, Phase.unlocking] using hcounted
    | unlock c hphase =>
      rw [depth_update]
      have hunlocked : depth t (unlock (s.mutex c)) = (owned (s.threads t).scopes).count c := by
        have hdepth := depth_unlock (u := t) (h.leaving_pos hphase)
        rw [if_pos rfl, h.counted t c, hphase, Phase.unlocking, List.count_append,
          List.count_singleton_self] at hdepth
        exact Nat.add_right_cancel hdepth
      by_cases hc : c' = c
      · subst hc
        simpa [Phase.unlocking] using hunlocked
      · simp [hc, Ne.symm hc, hcounted, hphase, Phase.unlocking]

theorem reachable_sound (h : Reachable s) : Sound s := by
  obtain ⟨acts, hpath⟩ := h
  exact hpath.preserves (fun s a s' hs hnext => next_sound hs hnext)
    ⟨fun t => rfl, fun t c => rfl⟩

end Invariant

section Orders

variable {T L : Type} [DecidableEq T] [DecidableEq L]

/-- The pair is in `lock_orders_`. -/
def Recorded (s : Program T L) (a b : L) : Prop := (a, b) ∈ (after s.history).data.lockOrders

/-- The thread is in `lock`, which does not return. -/
def Blocked (s : Program T L) (t : T) (c : L) : Prop :=
  (s.threads t).phase = .entering c ∧ lock t (s.mutex c) = none

def Owns (s : Program T L) (t : T) (c : L) : Prop := 0 < depth t (s.mutex c)

variable {s s' : Program T L} {t u : T} {a b c : L} {act : Act}

theorem Sound.mem_owned (h : Sound s) (howned : c ∈ owned (s.threads t).scopes) : Owns s t c := by
  rw [Owns, h.counted t c, List.count_pos_iff]
  exact List.mem_append_left _ howned

/-- Who waits for a lock took it after all it owns. -/
theorem Sound.recorded (h : Sound s) (ha : Owns s t a) (hb : Blocked s t b) : Recorded s a b := by
  obtain ⟨hphase, hlock⟩ := hb
  have howned : a ∈ owned (s.threads t).scopes := by
    rw [Owns, h.counted t a, List.count_pos_iff, hphase] at ha
    simpa [Phase.unlocking] using ha
  have hnew : b ∉ owned (s.threads t).scopes := by
    intro hmem
    obtain ⟨u, hne, hu⟩ := lock_eq_none_iff.mp hlock
    exact hne (owner_unique hu (h.mem_owned hmem))
  have hheld : held s.history t = owned (s.threads t).scopes ++ [b] := by
    rw [h.mirrored t, hphase]
    rfl
  rw [Recorded, mem_lockOrders_iff]
  refine beneath_ordered (t := t) ?_ ?_
  · rw [hheld]
    exact List.mem_append_right _ (List.mem_singleton_self b)
  · rw [hheld, beneath_concat_of_notMem hnew]
    exact howned

omit [DecidableEq L] in
theorem exists_owner (h : Blocked s t c) : ∃ u, Waits (Blocked s) (Owns s) t u := by
  obtain ⟨u, -, hu⟩ := lock_eq_none_iff.mp h.2
  exact ⟨u, c, h, hu⟩

end Orders

section Ends

variable {T L : Type} [DecidableEq T] [DecidableEq L]

/-- No thread makes a new object. -/
def Ending (s : Program T L) (a : T × Act) (s' : Program T L) : Prop :=
  a.2 ≠ .construct ∧ Next s a.1 a.2 s'

def Phase.share : Phase L → Nat
  | .running => 0
  | .entering _ => 3
  | .trying _ => 4
  | .failed _ => 3
  | .leaving _ => 1

/-- The steps a thread has before it at most. -/
def Thread.share (thread : Thread L) : Nat := 2 * thread.scopes.length + thread.phase.share

def rank [Fintype T] (s : Program T L) : Nat := ∑ t, (s.threads t).share

variable {s s' : Program T L} {t u : T} {a b c : L} {act : Act}

theorem share_falls (hend : act ≠ .construct) (hnext : Next s t act s') :
    (s'.threads t).share < (s.threads t).share := by
  cases hnext with
  | pass | enter => exact absurd rfl hend
  | lock c o hphase =>
    rcases hphase with hphase | hphase <;>
      simp only [Thread.share, setThread_threads_self, hphase, Phase.share, List.length_cons] <;>
      omega
  | drop rest hphase hscopes | leave c rest hphase hscopes =>
    simp only [Thread.share, setThread_threads_self, hphase, hscopes, Phase.share, List.length_cons]
    omega
  | fail c hphase | leaveCritical c hphase | unlock c hphase =>
    simp only [Thread.share, setThread_threads_self, hphase, Phase.share, List.length_cons]
    omega

theorem ending_falls [Fintype T] :
    Falls (Ending (T := T) (L := L)) (fun _ => true) Sound rank where
  keeps := fun _ _ _ hs h => next_sound hs h.2
  falls := fun s a s' hs h => by
    have hother (u : T) : (s'.threads u).share ≤ (s.threads u).share := by
      by_cases hu : u = a.1
      · rw [hu]
        exact (share_falls h.1 h.2).le
      · rw [(next_frame hs h.2).thread u hu]
    exact Finset.sum_lt_sum (fun u _ => hother u) ⟨a.1, Finset.mem_univ _, share_falls h.1 h.2⟩

/-- Only a push records anything. -/
theorem next_recorded (hend : act ≠ .construct) (hnext : Next s t act s') :
    Recorded s' a b ↔ Recorded s a b := by
  cases hnext with
  | pass | enter => exact absurd rfl hend
  | leaveCritical | leave =>
    rw [Recorded, after_concat, Detector.step_pop_data]
    rfl
  | _ => exact Iff.rfl

/-- A thread that is in a scope and waits for nobody comes further. -/
theorem exists_ending (hidle : s.threads t ≠ {}) (hfree : ∀ c, ¬ Blocked s t c) :
    ∃ act s', Ending s (t, act) s' := by
  cases hphase : (s.threads t).phase with
  | running =>
    cases hscopes : (s.threads t).scopes with
    | nil =>
      refine absurd ?_ hidle
      rw [← hphase, ← hscopes]
    | cons scope rest =>
      cases scope with
      | none => exact ⟨.destroy, _, nofun, .drop rest hphase hscopes⟩
      | some c => exact ⟨.destroy, _, nofun, .leave c rest hphase hscopes⟩
  | entering c =>
    cases hlock : lock t (s.mutex c) with
    | none => exact absurd ⟨hphase, hlock⟩ (hfree c)
    | some o => exact ⟨.lock, _, nofun, .lock c o (.inl hphase) hlock⟩
  | trying c => exact ⟨.fail, _, nofun, .fail c hphase⟩
  | failed c => exact ⟨.leaveCritical, _, nofun, .leaveCritical c hphase⟩
  | leaving c => exact ⟨.unlock, _, nofun, .unlock c hphase⟩

end Ends

section Results

variable {T L : Type} [DecidableEq T] [DecidableEq L] {s : Program T L}

/-- The stack of a thread is what its objects own, with the lock that it is about to lock or
to give up. An object pops its own lock and no other, a mutex has one owner, and it is free
exactly when no object owns it and none has its `unlock` before it. -/
theorem scopes_mirrored (h : Reachable s) :
    (∀ t, held s.history t = owned (s.threads t).scopes ++ (s.threads t).phase.pushed) ∧
      (∀ t act s' u, Next s t act s' → s'.history = s.history ++ [.pop u] →
        ∃ c, held s.history u = held s'.history u ++ [c] ∧
          ((s.threads u).phase = .failed c ∨ (s.threads u).scopes.head? = some (some c))) ∧
      (∀ c t u, c ∈ owned (s.threads t).scopes → c ∈ owned (s.threads u).scopes → t = u) ∧
      ∀ c, s.mutex c = none ↔
        ∀ t, c ∉ owned (s.threads t).scopes ∧ (s.threads t).phase ≠ .leaving c := by
  have hsound := reachable_sound h
  refine ⟨hsound.mirrored, fun t act s' u hnext hpop => ?_, fun c t u ht hu => ?_, fun c => ?_⟩
  · have hmirrored := hsound.mirrored t
    cases hnext with
    | enter c location =>
      have hevent := List.append_cancel_left hpop
      simp at hevent
    | leaveCritical c hphase =>
      obtain rfl : t = u := by simpa using hpop
      refine ⟨c, ?_, .inl hphase⟩
      rw [held_pop, if_pos rfl, hmirrored, hphase, Phase.pushed, List.dropLast_concat]
    | leave c rest hphase hscopes =>
      obtain rfl : t = u := by simpa using hpop
      refine ⟨c, ?_, .inr (congrArg List.head? hscopes)⟩
      rw [held_pop, if_pos rfl, hmirrored, hphase, hscopes, owned_cons_some, Phase.pushed,
        List.append_nil, List.dropLast_concat]
    | _ => exact absurd hpop (by simp)
  · exact owner_unique (hsound.mem_owned ht) (hsound.mem_owned hu)
  · rw [eq_none_iff]
    refine forall_congr' fun t => ?_
    rw [hsound.counted t c, List.count_eq_zero, List.mem_append, not_or]
    refine and_congr_right fun _ => ?_
    cases (s.threads t).phase <;> simp [Phase.unlocking, eq_comm]

/-- One thread owns the lock that it enters again. -/
theorem scopes_mirrored_again : ∃ s : Program Bool Nat, Reachable s ∧
    held s.history true = [1, 1] ∧ owned (s.threads true).scopes = [1] := by
  have hreach : Reachable (T := Bool) (L := Nat) _ :=
    ⟨_, .cons (a := (true, _)) (.enter 1 ⟨"cs_main", "net.cpp", 7, false⟩ rfl) <|
      .cons (a := (true, _)) (.lock 1 _ (.inl rfl) rfl) <|
      .cons (a := (true, _)) (.enter 1 ⟨"cs_main", "net.cpp", 9, true⟩ rfl) (.nil _)⟩
  exact ⟨_, hreach, (scopes_mirrored hreach).1 true, rfl⟩

/-- Threads that wait for each other took locks in orders that form a cycle, and the table
has it. Two threads cannot come to that before the detection reports. -/
theorem deadlock_recorded (h : Reachable s) :
    (∀ t, Deadlocked (Blocked s) (Owns s) t → ∃ c, TransGen (Recorded s) c c) ∧
      (Quiet s.history → ∀ t u,
        ¬ (Waits (Blocked s) (Owns s) t u ∧ Waits (Blocked s) (Owns s) u t)) := by
  have hsound := reachable_sound h
  refine ⟨fun t hdead => hdead.cycle fun p a b => hsound.recorded, fun hquiet t u => ?_⟩
  rintro ⟨⟨a, hta, hua⟩, ⟨b, hub, htb⟩⟩
  have hab := hsound.recorded hua hub
  have hba := hsound.recorded htb hta
  rw [Recorded, mem_lockOrders_iff] at hab hba
  exact hquiet.one_order ⟨hab, hba⟩

/-- Each of two threads waits for the lock of the other. -/
theorem deadlock_recorded_crossed : ∃ s : Program Bool Nat, Reachable s ∧
    (∃ c, TransGen (Recorded s) c c) ∧ ¬ Quiet s.history := by
  let location : LockLocation := ⟨"cs_main", "net.cpp", 7, false⟩
  have hreach : Reachable (T := Bool) (L := Nat) _ :=
    ⟨_, .cons (a := (true, _)) (.enter 1 location rfl) <|
      .cons (a := (true, _)) (.lock 1 _ (.inl rfl) rfl) <|
      .cons (a := (false, _)) (.enter 2 location rfl) <|
      .cons (a := (false, _)) (.lock 2 _ (.inl rfl) rfl) <|
      .cons (a := (true, _)) (.enter 2 location rfl) <|
      .cons (a := (false, _)) (.enter 1 location rfl) (.nil _)⟩
  have hwaits := (deadlock_recorded hreach).2
  refine ⟨_, hreach, (deadlock_recorded hreach).1 true ?_, fun hquiet => ?_⟩
  · exact .tail (.single ⟨2, ⟨rfl, rfl⟩, Nat.zero_lt_one⟩ : TransGen _ true false)
      ⟨1, ⟨rfl, rfl⟩, Nat.zero_lt_one⟩
  · exact hwaits hquiet true false
      ⟨⟨2, ⟨rfl, rfl⟩, Nat.zero_lt_one⟩, ⟨1, ⟨rfl, rfl⟩, Nat.zero_lt_one⟩⟩

-- Three threads can, where every pair of locks has one order.
example : ∃ s : Program (Fin 3) Nat, Reachable s ∧ Deadlocked (Blocked s) (Owns s) 0 ∧
    Quiet s.history := by
  let location : LockLocation := ⟨"cs_main", "net.cpp", 7, false⟩
  have hreach : Reachable (T := Fin 3) (L := Nat) _ :=
    ⟨_, .cons (a := (0, _)) (.enter 0 location rfl) <|
      .cons (a := (0, _)) (.lock 0 _ (.inl rfl) rfl) <|
      .cons (a := (1, _)) (.enter 1 location rfl) <|
      .cons (a := (1, _)) (.lock 1 _ (.inl rfl) rfl) <|
      .cons (a := (2, _)) (.enter 2 location rfl) <|
      .cons (a := (2, _)) (.lock 2 _ (.inl rfl) rfl) <|
      .cons (a := (0, _)) (.enter 1 location rfl) <|
      .cons (a := (1, _)) (.enter 2 location rfl) <|
      .cons (a := (2, _)) (.enter 0 location rfl) (.nil _)⟩
  have hquiet : Quiet (T := Fin 3) (L := Nat)
      [.push 0 0 location, .push 1 1 location, .push 2 2 location, .push 0 1 location,
        .push 1 2 location, .push 2 0 location] := by
    refine ⟨?_, ?_, ?_, ?_, ?_, ?_, trivial⟩ <;> decide +kernel
  refine ⟨_, hreach, .tail (b := 2) (.tail (b := 1) (.single ?_) ?_) ?_, hquiet⟩
  · exact ⟨1, ⟨rfl, rfl⟩, Nat.zero_lt_one⟩
  · exact ⟨2, ⟨rfl, rfl⟩, Nat.zero_lt_one⟩
  · exact ⟨0, ⟨rfl, rfl⟩, Nat.zero_lt_one⟩

theorem Sound.all_out [Finite T] (h : Sound s) (horder : ∀ c, ¬ TransGen (Recorded s) c c)
    (hstuck : Stuck Ending (fun _ => true) s) (t : T) : s.threads t = {} := by
  have hblocked (u : T) (hu : s.threads u ≠ {}) : ∃ v, Waits (Blocked s) (Owns s) u v := by
    by_contra hnone
    obtain ⟨act, s', hnext⟩ := exists_ending hu fun c hc => hnone (exists_owner hc)
    exact hstuck (u, act) s' rfl hnext
  have hcycle (p : T) : ¬ TransGen (Waits (Blocked s) (Owns s)) p p := by
    intro hdead
    obtain ⟨c, hc⟩ := Deadlocked.cycle hdead fun p a b => h.recorded
    exact horder c hc
  by_contra hidle
  obtain ⟨u, hreach, hlast⟩ := exists_last hcycle t
  have hu : s.threads u ≠ {} := by
    rcases hreach.cases_tail with rfl | ⟨p, -, c, -, howns⟩
    · exact hidle
    · intro hout
      rw [Owns, h.counted u c, hout] at howns
      exact lt_irrefl 0 howns
  obtain ⟨v, hv⟩ := hblocked u hu
  exact hlast v hv

/-- Where the recorded orders have no cycle and no thread makes a new object, every run comes
to an end after a bounded number of steps, and there every thread is out of all scopes, its
stack is empty, and all mutexes are free. -/
theorem scopes_end [Fintype T] (h : Reachable s) (horder : ∀ c, ¬ TransGen (Recorded s) c c) :
    (∀ acts s', Path Ending s acts s' → acts.length ≤ rank s) ∧
      (∀ acts s', Path Ending s acts s' → Stuck Ending (fun _ => true) s' →
        (∀ t, s'.threads t = {} ∧ held s'.history t = []) ∧ ∀ c, s'.mutex c = none) ∧
      ∃ acts s', Path Ending s acts s' ∧ Stuck Ending (fun _ => true) s' := by
  have hsound := reachable_sound h
  refine ⟨fun acts s' hpath => ?_, fun acts s' hpath hstuck => ?_, ?_⟩
  · have hbound := hpath.bounded ending_falls hsound
    rw [List.countP_true] at hbound
    omega
  · have hend : Sound s' ∧ ∀ c, ¬ TransGen (Recorded s') c c := by
      refine hpath.preserves (P := fun s => Sound s ∧ ∀ c, ¬ TransGen (Recorded s) c c)
        (fun s a s' hs hnext => ⟨next_sound hs.1 hnext.2, ?_⟩) ⟨hsound, horder⟩
      have hsame : Recorded s' = Recorded s :=
        funext fun a => funext fun b => propext (next_recorded hnext.1 hnext.2)
      rw [hsame]
      exact hs.2
    have hout := hend.1.all_out hend.2 hstuck
    refine ⟨fun t => ⟨hout t, ?_⟩, fun c => ?_⟩
    · rw [hend.1.mirrored t, hout t]
      rfl
    · rw [eq_none_iff]
      intro t
      rw [hend.1.counted t c, hout t]
      rfl
  · exact exists_path_stuck ending_falls hsound

/-- One thread owns two locks and the other waits for the first. -/
theorem scopes_end_waiting : ∃ s : Program Bool Nat, Reachable s ∧
    (∃ u, Waits (Blocked s) (Owns s) false u) ∧
    (∀ acts s', Path Ending s acts s' → acts.length ≤ 7) ∧
      ∃ acts s', Path Ending s acts s' ∧ ∀ t, s'.threads t = {} := by
  let location : LockLocation := ⟨"cs_main", "net.cpp", 7, false⟩
  have hreach : Reachable (T := Bool) (L := Nat) _ :=
    ⟨_, .cons (a := (true, _)) (.enter 1 location rfl) <|
      .cons (a := (true, _)) (.lock 1 _ (.inl rfl) rfl) <|
      .cons (a := (true, _)) (.enter 2 location rfl) <|
      .cons (a := (true, _)) (.lock 2 _ (.inl rfl) rfl) <|
      .cons (a := (false, _)) (.enter 1 location rfl) (.nil _)⟩
  refine ⟨_, hreach, ⟨true, 1, ⟨rfl, rfl⟩, Nat.zero_lt_one⟩, ?_⟩
  have hfree := scopes_end hreach
  obtain ⟨hbound, hends, acts, s', hpath, hstuck⟩ := hfree fun c hc => by
    have hless : TransGen (fun a b : Nat => a < b) c c := by
      refine hc.lift id fun a b hpair => ?_
      have hkey : (a, b) ∈ [(1, 2)] := hpair
      obtain ⟨rfl, rfl⟩ := Prod.mk.inj (List.mem_singleton.mp hkey)
      exact Nat.lt_add_one 1
    rw [transGen_eq_self] at hless
    exact lt_irrefl c hless
  exact ⟨hbound, acts, s', hpath, fun t => ((hends acts s' hpath hstuck).1 t).1⟩

end Results

end LockScopes
