import Caffeinix.Sched.WaitRun

/-!
# `Sched.Sleeplock` — sleeping locks and exiting threads (`kernel/sleeplock.c`)

A sleeplock is a flag, its owner and a wait queue. `sleeplock_acquire` sleeps in a loop; the sleep is the generic
one, so a request to exit is honoured there: the thread goes to `process_thread_exit` from inside
`sleeplock_acquire`, with every lock it owns at that moment. Outside of sleeps the kernel calls
`process_thread_exit` on the way back to user mode and in the two exit system calls. That a thread owns no sleeplock
there is a condition of the run, as it is in sleeps (`ExitsUnlocked`). The exit path gives back what it takes itself.

What the threads do between the operations on locks is left open: any thread may take any lock at any time,
release what it owns, and sleep on any other queue.
-/

namespace Caffeinix.Sched

open List Runs Waits
open Function (update update_eq_self update_idem update_of_ne)

/-- `struct sleeplock`, without the queue. -/
structure Sleeplock (Tid : Type) where
  locked : Bool
  owner : Option Tid
deriving DecidableEq

/-- The sleeplocks, with the wait queues and the threads. -/
structure Locks (Tid Lock Other Private : Type) where
  waits : Waits Tid (Lock ⊕ Other) Private
  lock : Lock → Sleeplock Tid
  /-- the `sleeplock_acquire` in whose sleep a thread is -/
  acquiring : Tid → Option Lock
  /-- the thread is in `process_thread_exit` -/
  exiting : Tid → Bool
  /-- the locks a thread owns that its exit path has not taken -/
  holds : Tid → List Lock
  /-- the locks taken by the thread's exit path, which it will release -/
  late : Tid → List Lock
  /-- the check of `sleeplock_release` -/
  panic : Bool

variable {Tid Lock Other Private : Type} [DecidableEq Tid] [DecidableEq Lock] [DecidableEq Other]

def Locks.boot : Locks Tid Lock Other Private :=
  ⟨.boot, fun _ => ⟨false, none⟩, fun _ => none, fun _ => false, fun _ => [], fun _ => [], false⟩

variable (s : Locks Tid Lock Other Private)

/-- The call of `process_thread_exit`. An exit path that was interrupted by it does not go on. -/
def enterExit (t : Tid) : Locks Tid Lock Other Private :=
  { s with
    acquiring := update s.acquiring t none
    exiting := update s.exiting t true
    holds := update s.holds t (s.late t ++ s.holds t)
    late := update s.late t [] }

/-- `lk->locked = 1`, `lk->owner = cur_thread()`. -/
def takeLock (t : Tid) (l : Lock) : Locks Tid Lock Other Private :=
  { s with
    lock := update s.lock l ⟨true, some t⟩
    acquiring := update s.acquiring t none
    holds := if s.exiting t then s.holds else update s.holds t (l :: s.holds t)
    late := if s.exiting t then update s.late t (l :: s.late t) else s.late }

/-- The loop of `sleeplock_acquire`, until the thread has the lock, is in `sched()` or has gone to
    `process_thread_exit`; in that case it is named. -/
def acquireLoop (t : Tid) (l : Lock) (between : Between) : Locks Tid Lock Other Private × Option Tid :=
  if !(s.lock l).locked then (takeLock s t l, none)
  else
    match waitQueueSleep s.waits t (.inl l) true .sleep false between with
    | (waits, .exits) => (enterExit { s with waits := waits } t, some t)
    -- the other ending, with a result, is not one of this sleep
    | (waits, _) => ({ s with waits := waits, acquiring := update s.acquiring t (some l) }, none)

/-- `sleeplock_acquire`. -/
def sleeplockAcquire (t : Tid) (l : Lock) (between : Between) :
    Locks Tid Lock Other Private × Option Tid := acquireLoop s t l between

/-- `sleeplock_release`. -/
def sleeplockRelease (t : Tid) (l : Lock) : Locks Tid Lock Other Private :=
  if !(s.lock l).locked || (s.lock l).owner ≠ some t then { s with panic := true }
  else
    { s with
      lock := update s.lock l ⟨false, none⟩
      holds := update s.holds t ((s.holds t).filter (· ≠ l))
      late := update s.late t ((s.late t).filter (· ≠ l))
      waits := (waitQueueWakeOne s.waits (.inl l)).1 }

/-- A thread is back from `sched()`: in `sleeplock_acquire` it looks at the lock again. -/
def sleepReturns (t : Tid) (between : Between) : Locks Tid Lock Other Private × Option Tid :=
  match waitQueueResume s.waits t with
  | (waits, .exits) => (enterExit { s with waits := waits } t, some t)
  | (waits, .blocks) => ({ s with waits := waits }, none)
  | (waits, .returns _) =>
    match s.acquiring t with
    | some l => acquireLoop { s with waits := waits } t l between
    | none => ({ s with waits := waits }, none)

/-- A sleep on another queue. -/
def sleepElsewhere (t : Tid) (queue : Other) (call : SleepCall) (pending : Bool) (between : Between) :
    Locks Tid Lock Other Private × Option Tid :=
  match waitQueueSleep s.waits t (.inr queue) true call pending between with
  | (waits, .exits) => (enterExit { s with waits := waits } t, some t)
  | (waits, _) => ({ s with waits := waits }, none)

/-- What can happen. -/
inductive LockAction (Tid Lock Other Private : Type)
  | acquire (t : Tid) (l : Lock) (between : Between)
  | release (t : Tid) (l : Lock)
  | sleep (t : Tid) (queue : Other) (call : SleepCall) (pending : Bool) (between : Between)
  | resume (t : Tid) (between : Between)
  /-- `process_thread_exit`, called outside of sleeps -/
  | beginExit (t : Tid)
  | clearExitRequest (t : Tid)
  /-- the end of `process_thread_exit` -/
  | exit (t : Tid)
  | elsewhere (a : Action Tid Other Private)

/-- One step, and the thread that goes to `process_thread_exit` in it, if one does. -/
def Locks.perform :
    LockAction Tid Lock Other Private → Locks Tid Lock Other Private × Option Tid
  | .acquire t l between => if s.waits.runs t then sleeplockAcquire s t l between else (s, none)
  | .release t l => if s.waits.runs t then (sleeplockRelease s t l, none) else (s, none)
  | .sleep t queue call pending between =>
    if s.waits.runs t then sleepElsewhere s t queue call pending between else (s, none)
  | .resume t between => if s.waits.returns t then sleepReturns s t between else (s, none)
  | .beginExit t => if s.waits.runs t then (enterExit s t, some t) else (s, none)
  | .clearExitRequest t =>
    if s.waits.runs t && s.exiting t then ({ s with waits := clearExitRequest s.waits t }, none) else (s, none)
  | .exit t =>
    if s.waits.runs t && s.exiting t && (s.late t).isEmpty then
      ({ s with waits := schedulerExit s.waits t }, none)
    else (s, none)
  | .elsewhere a =>
    match a.elsewhere with
    | none => (s, none)
    | some a =>
      let waits := s.waits.step a
      ({ s with
        waits := waits
        exiting := fun t => if (waits.thread t).state = .allocated then false else s.exiting t }, none)

def Locks.step (a : LockAction Tid Lock Other Private) : Locks Tid Lock Other Private := (s.perform a).1

/-- Nobody goes to `process_thread_exit` while it owns a sleeplock. -/
def ExitsUnlocked (a : LockAction Tid Lock Other Private) : Prop :=
  ∀ t, (s.perform a).2 = some t → ∀ l, (s.lock l).owner ≠ some t

/-! ## The invariant -/

/-- If the lock is free and threads wait for it, one of them is on its way: it has been woken, and finds the lock
    free or sleeps again. -/
def PassedOn (l : Lock) : Prop :=
  (s.lock l).locked = false → s.waits.waiters (.inl l) ≠ [] → ∃ t, s.acquiring t = some l ∧
    (s.waits.thread t).waitingOn = none ∧ (s.waits.thread t).waitResult ≠ waitQueueTerminated

/-- Owners and what threads hold agree, and nobody who is not alive holds a lock. -/
structure LockCore (s : Locks Tid Lock Other Private) : Prop where
  waits : WaitInv s.waits
  owned : ∀ l t, (s.lock l).owner = some t ↔ l ∈ s.holds t ∨ l ∈ s.late t
  locked : ∀ l, (s.lock l).locked = (s.lock l).owner.isSome
  live : ∀ l t, (s.lock l).owner = some t → (s.waits.thread t).live
  early : ∀ t, s.exiting t → s.holds t = []
  acquiring_of_waiting : ∀ t l, (s.waits.thread t).waitingOn = some (.inl l) → s.acquiring t = some l
  asleep : ∀ t, (s.acquiring t).isSome → (s.waits.thread t).asleep

structure LockInv (s : Locks Tid Lock Other Private) : Prop extends LockCore s where
  passed_on : ∀ l, PassedOn s l

omit [DecidableEq Tid] [DecidableEq Lock] [DecidableEq Other] in
theorem LockInv.boot : LockInv (Locks.boot : Locks Tid Lock Other Private) where
  waits := .boot
  owned := by simp [Locks.boot]
  locked := fun _ => rfl
  live := by simp [Locks.boot]
  early := fun _ h => nomatch (show false = true from h)
  acquiring_of_waiting := by simp [Locks.boot, Waits.boot, Thread.unused]
  asleep := fun _ h => nomatch (show false = true from h)
  passed_on := fun _ _ h => absurd rfl h

section
variable {s : Locks Tid Lock Other Private}

variable {t : Tid} {exiting : Tid → Bool} {waits : Waits Tid (Lock ⊕ Other) Private} {l : Lock}
  {thread : Thread (Lock ⊕ Other) Private} {between : Between}

section
omit [DecidableEq Tid] [DecidableEq Lock] [DecidableEq Other]

/-- A thread that runs code of its own is not in the sleep of `sleeplock_acquire`. -/
theorem LockCore.not_acquiring (hC : LockCore s) (ht : s.waits.runs t) : s.acquiring t = none := by
  rw [← Option.not_isSome_iff_eq_none]
  intro h
  have hasleep := hC.asleep t h
  rw [not_asleep_of_runs ht] at hasleep
  exact absurd hasleep (by decide)

/-- The threads move on, and with the locks nothing happens. -/
structure Moves (s : Locks Tid Lock Other Private) (waits : Waits Tid (Lock ⊕ Other) Private) : Prop where
  live : ∀ t, (s.waits.thread t).live → (waits.thread t).live
  asleep : ∀ t, (s.acquiring t).isSome → (waits.thread t).asleep
  queue : ∀ t l, (waits.thread t).waitingOn = some (.inl l) → (s.waits.thread t).waitingOn = some (.inl l)
  result : ∀ t, (s.acquiring t).isSome → (s.waits.thread t).waitingOn = none →
    (waits.thread t).waitingOn = none ∧ (waits.thread t).waitResult = (s.waits.thread t).waitResult

section
variable (hC : LockCore s) (hW : WaitInv waits) (hm : Moves s waits)
include hC hW hm

theorem LockCore.moves (he : ∀ t, exiting t → s.exiting t) :
    LockCore { s with waits := waits, exiting := exiting } where
  waits := hW
  owned := hC.owned
  locked := hC.locked
  live := fun l t h => hm.live t (hC.live l t h)
  early := fun t h => hC.early t (he t h)
  acquiring_of_waiting := fun t l h => hC.acquiring_of_waiting t l (hm.queue t l h)
  asleep := hm.asleep

theorem LockCore.passedOn_moves
    (hp : PassedOn s l) : PassedOn { s with waits := waits, exiting := exiting } l := by
  intro hfree hne
  obtain ⟨u, hu⟩ := exists_mem_of_ne_nil _ hne
  have hold : u ∈ s.waits.waiters (.inl l) :=
    (hC.waits.mem u _).2 (hm.queue u l ((hW.mem u _).1 hu))
  obtain ⟨t, hacq, hnone, hres⟩ := hp hfree (ne_nil_of_mem hold)
  obtain ⟨hnone', hres'⟩ := hm.result t (by rw [hacq]; rfl) hnone
  exact ⟨t, hacq, hnone', by rw [hres']; exact hres⟩

end

theorem LockInv.moves (hI : LockInv s) (hW : WaitInv waits) (hm : Moves s waits)
    (he : ∀ t, exiting t → s.exiting t) :
    LockInv { s with waits := waits, exiting := exiting } where
  toLockCore := hI.toLockCore.moves hW hm he
  passed_on := fun l => hI.toLockCore.passedOn_moves hW hm (hI.passed_on l)

end

/-- A step of the wait queues in which no thread comes to a lock's queue. -/
theorem LockCore.moves_step (hC : LockCore s) {a : Action Tid (Lock ⊕ Other) Private} (ha : a.ends = false)
    (hrequeue : ∀ source l count waitPrivate, a ≠ .requeue source (.inl l) count waitPrivate)
    (hsleep : ∀ t l call pending between, a ≠ .sleep t (.inl l) call pending between) :
    Moves s (s.waits.step a) where
  live := fun t => (hC.waits.step_spared ha t).live
  asleep := fun t h => (hC.waits.step_spared ha t).asleep (hC.asleep t h)
  queue := by
    intro t l h
    rcases (hC.waits.step_spared ha t).queue _ h with h | ⟨source, count, waitPrivate, he⟩ |
      ⟨call, pending, between, he⟩
    · exact h
    · exact absurd he (hrequeue source l count waitPrivate)
    · exact absurd he (hsleep t l call pending between)
  result := fun t h hnone => (hC.waits.step_spared ha t).result (hC.asleep t h) hnone

section
omit [DecidableEq Lock] [DecidableEq Other]

/-- A thread that holds no lock or lives on is written to, and it is in the sleep of `sleeplock_acquire` or not. -/
theorem LockCore.change (hC : LockCore s) (hW : WaitInv waits) (hother : ∀ u, u ≠ t → waits.thread u = s.waits.thread u)
    (hlive : (waits.thread t).live ∨ ∀ l, (s.lock l).owner ≠ some t) (acquiring : Option Lock)
    (hqueue : ∀ l, (waits.thread t).waitingOn = some (.inl l) → acquiring = some l)
    (hasleep : acquiring.isSome → (waits.thread t).asleep) :
    LockCore { s with waits := waits, acquiring := update s.acquiring t acquiring } :=
  { hC with
    waits := hW
    live := by
      intro l u hu
      by_cases he : u = t
      · subst he
        exact hlive.resolve_right fun h => h l hu
      · rw [hother u he]
        exact hC.live l u hu
    acquiring_of_waiting := by
      intro u l hu
      by_cases he : u = t
      · subst he
        simpa using hqueue l hu
      · rw [hother u he] at hu
        simpa [he] using hC.acquiring_of_waiting u l hu
    asleep := by
      intro u hu
      by_cases he : u = t
      · subst he
        exact hasleep (by simpa using hu)
      · rw [hother u he]
        exact hC.asleep u (by simpa [he] using hu) }

/-- The lock has been passed on to another thread. -/
theorem PassedOn.change {acquiring : Option Lock} (hp : PassedOn s l)
    (hother : ∀ u, u ≠ t → waits.thread u = s.waits.thread u)
    (hwait : waits.waiters (.inl l) ≠ [] → s.waits.waiters (.inl l) ≠ [])
    (hnot : s.acquiring t ≠ some l ∨ (s.waits.thread t).waitResult = waitQueueTerminated) :
    PassedOn { s with waits := waits, acquiring := update s.acquiring t acquiring } l := by
  intro hfree hne
  obtain ⟨u, hacq, hu⟩ := hp hfree (hwait hne)
  have he : u ≠ t := by
    rintro rfl
    rcases hnot with h | h
    · exact h hacq
    · exact hu.2 h
  refine ⟨u, by simpa [he] using hacq, ?_⟩
  rw [hother u he]
  exact hu

theorem LockCore.acquiring_eq (hC : LockCore s) (ht : s.waits.runs t) : update s.acquiring t none = s.acquiring := by
  rw [← hC.not_acquiring ht]
  exact update_eq_self t s.acquiring

end

/-! ## Each operation -/

section
variable (hI : LockInv s)
include hI

omit [DecidableEq Lock] [DecidableEq Other] in
/-- A thread without locks calls `process_thread_exit`. -/
theorem LockInv.enterExit (ht : s.waits.runs t) (hown : ∀ l, (s.lock l).owner ≠ some t) :
    LockInv (enterExit s t) := by
  have hacq := hI.acquiring_eq ht
  have hempty : s.holds t = [] ∧ s.late t = [] := by
    constructor
    · exact eq_nil_iff_forall_not_mem.2 fun l hl => hown l ((hI.owned l t).2 (.inl hl))
    · exact eq_nil_iff_forall_not_mem.2 fun l hl => hown l ((hI.owned l t).2 (.inr hl))
  have hholds : update s.holds t (s.late t ++ s.holds t) = s.holds := by
    rw [hempty.1, hempty.2, append_nil, ← hempty.1]
    exact update_eq_self t s.holds
  have hlate : update s.late t [] = s.late := by
    rw [← hempty.2]
    exact update_eq_self t s.late
  have heq : Sched.enterExit s t = { s with exiting := update s.exiting t true } := by
    unfold Sched.enterExit
    rw [hacq, hholds, hlate]
  rw [heq]
  exact { hI with
    early := by
      intro u hu
      by_cases he : u = t
      · rw [he]
        exact hempty.1
      · exact hI.early u (by simpa [he] using hu) }

omit hI [DecidableEq Other] in
/-- `sleeplock_acquire` of a free lock. -/
theorem LockCore.takeLock (hC : LockCore s) (ht : s.waits.runs t) (hfree : (s.lock l).locked = false)
    (hp : ∀ m, m ≠ l → PassedOn s m) : LockInv (takeLock s t l) := by
  have hnone : ∀ u, (s.lock l).owner ≠ some u := by
    intro u hu
    have hl := hC.locked l
    rw [hfree, hu] at hl
    exact Bool.noConfusion hl
  have hacq := hC.acquiring_eq ht
  have hmem : ∀ m u, m ∈ (Sched.takeLock s t l).holds u ∨ m ∈ (Sched.takeLock s t l).late u ↔
      (m = l ∧ u = t) ∨ m ∈ s.holds u ∨ m ∈ s.late u := by
    intro m u
    by_cases hu : u = t
    · subst hu
      cases he : s.exiting u <;> simp [Sched.takeLock, he, or_assoc, or_left_comm]
    · cases he : s.exiting t <;> simp [Sched.takeLock, he, hu]
  constructor
  · constructor
    · exact hC.waits
    · intro m u
      rw [hmem, ← hC.owned]
      by_cases hm : m = l
      · subst hm
        have hne : t = u ↔ u = t := eq_comm
        simp [Sched.takeLock, hnone, hne]
      · simp [Sched.takeLock, hm]
    · intro m
      by_cases hm : m = l
      · subst hm
        simp [Sched.takeLock]
      · simp [Sched.takeLock, hm, hC.locked]
    · intro m u hu
      by_cases hm : m = l
      · subst hm
        have he : t = u := by simpa [Sched.takeLock] using hu
        subst he
        exact .inr (.inl (running_of_runs ht))
      · exact hC.live m u (by simpa [Sched.takeLock, hm] using hu)
    · intro u hu
      have hold := hC.early u hu
      by_cases he : u = t
      · subst he
        have hexit : s.exiting u = true := hu
        simp [Sched.takeLock, hexit, hold]
      · cases hexit : s.exiting t <;> simp [Sched.takeLock, hexit, he, hold]
    · simp only [Sched.takeLock, hacq]
      exact hC.acquiring_of_waiting
    · simp only [Sched.takeLock, hacq]
      exact hC.asleep
  · intro m hlocked
    by_cases hm : m = l
    · subst hm
      simp [Sched.takeLock] at hlocked
    · simp only [Sched.takeLock, hacq, update_of_ne hm] at hlocked ⊢
      exact hp m hm hlocked

/-- The thread is on the queue of the lock. -/
theorem LockInv.blocked (ht : s.waits.runs t) (hlocked : (s.lock l).locked = true) (deadline : Nat)
    (mode : SignalMode) :
    LockInv { s with
      waits := Sched.blocked s.waits t (.inl l) deadline mode
      acquiring := update s.acquiring t (some l) } := by
  have hW := hI.waits.blocked (running_of_runs ht) (.inl l) deadline mode
  have hself := blocked_thread_self s.waits t (.inl l) deadline mode
  have hother : ∀ u, u ≠ t → (Sched.blocked s.waits t (.inl l) deadline mode).thread u = s.waits.thread u :=
    fun u hu => blocked_thread_ne hu
  generalize Sched.blocked s.waits t (.inl l) deadline mode = waits at hW hself hother ⊢
  refine ⟨hI.toLockCore.change hW hother (.inl ?_) (some l) (fun m hm => ?_) fun _ => ?_, fun m hfree hne => ?_⟩
  · rw [hself]
    exact .inr (.inr rfl)
  · rw [hself] at hm
    exact congrArg some (Sum.inl.inj (Option.some.inj hm))
  · rw [hself]
  · have hm : m ≠ l := by
      rintro rfl
      rw [hlocked] at hfree
      exact Bool.noConfusion hfree
    refine (hI.passed_on m).change hother (fun hne => ?_) (.inl (by simp [hI.not_acquiring ht])) hfree hne
    obtain ⟨u, hu⟩ := exists_mem_of_ne_nil _ hne
    have hw : (waits.thread u).waitingOn = some (.inl m) := (hW.mem u _).1 hu
    have hut : u ≠ t := by
      rintro rfl
      rw [hself] at hw
      exact hm (Sum.inl.inj (Option.some.inj hw)).symm
    rw [hother u hut] at hw
    exact ne_nil_of_mem ((hI.waits.mem u _).2 hw)

omit [DecidableEq Lock] [DecidableEq Other] in
/-- A running thread has its own fields written to. -/
theorem LockInv.write (ht : s.waits.runs t) (hw : Writes (s.waits.thread t) thread)
    (hlive : thread.live ∨ ∀ l, (s.lock l).owner ≠ some t) :
    LockInv { s with waits := s.waits.set t thread } := by
  have hnone : thread.waitingOn = none := by
    rw [hw.waitingOn]
    exact (hI.waits.not_waiting (not_sleeping_of_runs ht)).1
  have hother : ∀ u, u ≠ t → (s.waits.set t thread).thread u = s.waits.thread u := fun u hu => set_thread_ne hu
  have hchange : LockInv { s with waits := s.waits.set t thread, acquiring := update s.acquiring t none } := by
    refine ⟨hI.toLockCore.change (hI.waits.set hw) hother ?_ none (fun l h => ?_) nofun,
      fun l => (hI.passed_on l).change hother id (.inl (by simp [hI.not_acquiring ht]))⟩
    · rwa [set_thread_self]
    · rw [set_thread_self, hnone] at h
      exact nomatch h
  rwa [hI.acquiring_eq ht] at hchange

omit hI [DecidableEq Lock] [DecidableEq Other] in
theorem Waits.runs_set (hrun : thread.state = .running) (hawake : thread.asleep = false) :
    (waits.set t thread).runs t := by
  simp [runs, hrun, hawake]

/-- A sleep of a running thread on whatever queue ends at once: nothing happens to the locks, unless the thread
    goes to `process_thread_exit`, without a lock. -/
theorem LockInv.sleep_awake (ht : s.waits.runs t) (queue : Lock ⊕ Other) (call : SleepCall) (pending : Bool)
    (between : Between) (hend : (waitQueueSleep s.waits t queue true call pending between).2 ≠ .blocks) :
    LockInv { s with waits := (waitQueueSleep s.waits t queue true call pending between).1 } ∧
      ((∀ l, (s.lock l).owner ≠ some t) →
        LockInv (Sched.enterExit
          { s with waits := (waitQueueSleep s.waits t queue true call pending between).1 } t)) := by
  obtain ⟨thread, heq, hw, hrun, hawake, -⟩ := hI.waits.waitQueueSleep_awake ht queue call pending between hend
  rw [heq]
  have hI' := hI.write ht hw (.inl (.inr (.inl hrun)))
  exact ⟨hI', fun hown => hI'.enterExit (runs_set hrun hawake) hown⟩

omit hI in
/-- The loop of `sleeplock_acquire`, for a thread that nobody waiting for another lock depends on. -/
theorem LockCore.acquireLoop (hC : LockCore s) (ht : s.waits.runs t) (hp : ∀ m, m ≠ l → PassedOn s m)
    (hown : (acquireLoop s t l between).2 = some t → ∀ m, (s.lock m).owner ≠ some t) :
    LockInv (acquireLoop s t l between).1 := by
  cases hlocked : (s.lock l).locked with
  | false =>
    unfold Sched.acquireLoop
    rw [hlocked, if_pos (by rfl)]
    exact hC.takeLock ht hlocked hp
  | true =>
    have hI : LockInv s := ⟨hC, fun m => by
      by_cases hm : m = l
      · intro hfree
        rw [hm, hlocked] at hfree
        exact Bool.noConfusion hfree
      · exact hp m hm⟩
    unfold Sched.acquireLoop at hown ⊢
    rw [hlocked, if_neg (by simp)] at hown ⊢
    have hawake := hI.sleep_awake ht (.inl l) .sleep false between
    have hblocks := hC.waits.waitQueueSleep_blocks ht (.inl l) .sleep false between
    -- with no signals and no deadline the sleep blocks or the thread exits
    have hreturns : ∀ result, (waitQueueSleep s.waits t (.inl l) true .sleep false between).2 ≠
        .returns result := by
      intro result
      simp only [waitQueueSleep, SleepCall.arguments, hC.waits.waitQueueSleepDeadline_eq ht]
      split_ifs <;> simp_all
    rcases hsleep : waitQueueSleep s.waits t (.inl l) true .sleep false between with ⟨waits, ending⟩
    rw [hsleep] at hawake hblocks hreturns hown
    cases ending with
    | exits => exact (hawake (by simp)).2 (hown rfl)
    | returns result => exact absurd rfl (hreturns result)
    | blocks =>
      obtain ⟨deadline, mode, heq⟩ := hblocks rfl
      simp only at heq
      rw [heq]
      exact hI.blocked ht hlocked deadline mode

/-- `sleeplock_release`. -/
theorem LockInv.sleeplockRelease (ht : s.waits.runs t) (l : Lock) : LockInv (sleeplockRelease s t l) := by
  unfold Sched.sleeplockRelease
  split_ifs with hcheck
  · exact { hI with }
  have howner : (s.lock l).owner = some t := by
    simp only [Bool.or_eq_true, decide_eq_true_eq, not_or, not_not] at hcheck
    exact hcheck.2
  have hstep : (waitQueueWakeOne s.waits (.inl l)).1 = s.waits.step (.wakeOne (.inl l)) := rfl
  have hW : WaitInv (waitQueueWakeOne s.waits (.inl l)).1 := by
    rw [hstep]
    exact hI.waits.step _
  have hm : Moves s (waitQueueWakeOne s.waits (.inl l)).1 := by
    rw [hstep]
    exact hI.toLockCore.moves_step rfl (by simp) (by simp)
  have hwake := hI.waits.waitQueueWakeOne_eq (.inl l)
  have hI' := hI.moves hW hm (fun _ h => h)
  constructor
  · exact { hI'.toLockCore with
      owned := by
        intro m u
        by_cases hml : m = l
        · subst hml
          by_cases hu : u = t
          · subst hu
            simp
          · have hother : ¬(m ∈ s.holds u ∨ m ∈ s.late u) := by
              rw [← hI.owned, howner]
              exact fun h => hu (Option.some.inj h).symm
            simp [hu, not_or.1 hother]
        · by_cases hu : u = t
          · subst hu
            simp [hml, hI.owned]
          · simp [hml, hu, hI.owned]
      locked := by
        intro m
        by_cases hml : m = l
        · subst hml
          simp
        · simp [hml, hI.locked]
      live := by
        intro m u hu
        by_cases hml : m = l
        · subst hml
          simp at hu
        · exact hI'.live m u (by simpa [hml] using hu)
      early := by
        intro u hu
        have hold := hI.early u hu
        by_cases he : u = t
        · subst he
          simp [hold]
        · simpa [he] using hold }
  · intro m hfree hne
    by_cases hml : m = l
    · -- the head of the queue has just been woken
      subst hml
      cases hq : s.waits.waiters (.inl m) with
      | nil =>
        rw [hq, take_nil, woken_nil] at hwake
        simp only [hwake] at hne
        exact absurd hq hne
      | cons u rest =>
        have hu : (s.waits.thread u).waitingOn = some (.inl m) :=
          (hI.waits.mem u _).1 (by rw [hq]; exact mem_cons_self)
        have hmem : u ∈ (u :: rest).take 1 := by simp
        refine ⟨u, hI.acquiring_of_waiting u m hu, ?_⟩
        rw [hq] at hwake
        simp only [hwake, woken_thread_of_mem hmem]
        exact ⟨rfl, (by decide : (0 : Int) ≠ waitQueueTerminated)⟩
    · exact hI'.passed_on m (by simpa [hml] using hfree) hne

/-- The state in which a thread has come back from a sleep and has not gone on. -/
def resumed (s : Locks Tid Lock Other Private) (t : Tid) : Locks Tid Lock Other Private :=
  { s with
    waits := (waitQueueResume s.waits t).1
    acquiring := update s.acquiring t none }

omit [DecidableEq Lock] [DecidableEq Other] in
/-- A lock somebody waits for has still been passed on when a thread comes back, unless to this thread. -/
theorem LockInv.resumed (ht : s.waits.returns t) :
    LockCore (resumed s t) ∧ (resumed s t).waits.runs t ∧
      ∀ l, s.acquiring t ≠ some l ∨ (s.waits.thread t).waitResult = waitQueueTerminated →
        PassedOn (Sched.resumed s t) l := by
  obtain ⟨thread, hresume, hw, hrun, hawake, -⟩ := hI.waits.waitQueueResume_awake ht
  have hnone : thread.waitingOn = none := by
    have hstate : (s.waits.thread t).state = .running := by
      simpa using (Bool.and_eq_true_iff.1 ht).1
    rw [hw.waitingOn]
    exact (hI.waits.not_waiting (by rw [hstate]; decide)).1
  have heq : Sched.resumed s t = { s with
      waits := s.waits.set t thread
      acquiring := update s.acquiring t none } := by
    unfold Sched.resumed
    rw [hresume]
  rw [heq]
  have hother : ∀ u, u ≠ t → (s.waits.set t thread).thread u = s.waits.thread u := fun u hu => set_thread_ne hu
  refine ⟨?_, runs_set hrun hawake, fun l hnot => (hI.passed_on l).change hother id hnot⟩
  refine hI.toLockCore.change (hI.waits.set hw) hother (.inl ?_) none (fun l h => ?_) nofun
  · rw [set_thread_self]
    exact .inr (.inl hrun)
  · rw [set_thread_self, hnone] at h
    exact nomatch h

omit hI in
/-- What a thread does next does not depend on which sleep it comes from. -/
theorem acquireLoop_resumed (t : Tid) (l : Lock) (between : Between) :
    acquireLoop { s with waits := (waitQueueResume s.waits t).1 } t l between =
      acquireLoop (Sched.resumed s t) t l between := by
  simp only [Sched.acquireLoop, Sched.resumed, Sched.takeLock, Sched.enterExit, update_idem]
  rfl

theorem LockInv.sleepReturns (ht : s.waits.returns t)
    (hown : (sleepReturns s t between).2 = some t → ∀ l, (s.lock l).owner ≠ some t) :
    LockInv (sleepReturns s t between).1 := by
  obtain ⟨hC, hruns, hpassed⟩ := hI.resumed ht
  have heq := hI.waits.waitQueueResume_eq ht
  unfold Sched.sleepReturns at hown ⊢
  split_ifs at heq with hterm
  · simp only [heq] at hown ⊢
    have hI' : LockInv (Sched.resumed s t) := ⟨hC, fun l => hpassed l (.inr hterm)⟩
    have hexit := hI'.enterExit hruns (hown trivial)
    simpa [Sched.enterExit, Sched.resumed, heq, update_idem] using hexit
  cases hacq : s.acquiring t with
  | none =>
    have hsame : Sched.resumed s t = { s with waits := (waitQueueResume s.waits t).1 } := by
      unfold Sched.resumed
      rw [← hacq, update_eq_self]
    have hI' : LockInv (Sched.resumed s t) := ⟨hC, fun l => hpassed l (.inl (by simp [hacq]))⟩
    rw [hsame] at hI'
    simp only [heq] at hI' ⊢
    exact hI'
  | some l =>
    have hloop := acquireLoop_resumed (s := s) t l between
    simp only [heq] at hloop
    simp only [heq, hacq, hloop] at hown ⊢
    refine hC.acquireLoop hruns (fun m hm => hpassed m (.inl ?_)) hown
    rw [hacq]
    exact fun he => hm (Option.some.inj he).symm

/-! ## Every step, every run -/

theorem LockInv.step (a : LockAction Tid Lock Other Private) (ha : ExitsUnlocked s a) : LockInv (s.step a) := by
  have hown := fun t => ha t
  unfold Locks.step
  cases a with
  | acquire t =>
    simp only [Locks.perform] at hown ⊢
    by_cases ht : s.waits.runs t
    · simp only [if_pos ht, sleeplockAcquire] at hown ⊢
      exact hI.toLockCore.acquireLoop ht (fun m _ => hI.passed_on m) (hown t)
    · rw [if_neg ht]
      exact hI
  | release t l =>
    simp only [Locks.perform]
    split_ifs with ht
    · exact hI.sleeplockRelease ht l
    · exact hI
  | sleep t queue call pending between =>
    simp only [Locks.perform] at hown ⊢
    by_cases ht : s.waits.runs t
    · simp only [if_pos ht, sleepElsewhere] at hown ⊢
      have hawake := hI.sleep_awake ht (.inr queue) call pending between
      have hstep : s.waits.step (.sleep t (.inr queue) call pending between) =
          (waitQueueSleep s.waits t (.inr queue) true call pending between).1 := if_pos ht
      have hW := hI.waits.step (.sleep t (.inr queue) call pending between)
      have hmoves : Moves s (s.waits.step (.sleep t (.inr queue) call pending between)) :=
        hI.toLockCore.moves_step rfl (by simp) (by simp)
      rw [hstep] at hW hmoves
      rcases hsleep : waitQueueSleep s.waits t (.inr queue) true call pending between with ⟨waits, ending⟩
      rw [hsleep] at hawake hW hmoves hown
      cases ending with
      | exits => exact (hawake (by simp)).2 (hown t rfl)
      | returns => exact (hawake (by simp)).1
      | blocks => exact hI.moves hW hmoves (fun _ h => h)
    · rw [if_neg ht]
      exact hI
  | resume t =>
    simp only [Locks.perform] at hown ⊢
    by_cases ht : s.waits.returns t
    · simp only [if_pos ht] at hown ⊢
      exact hI.sleepReturns ht (hown t)
    · rw [if_neg ht]
      exact hI
  | beginExit t =>
    simp only [Locks.perform] at hown ⊢
    by_cases ht : s.waits.runs t
    · simp only [if_pos ht] at hown ⊢
      exact hI.enterExit ht (hown t rfl)
    · rw [if_neg ht]
      exact hI
  | clearExitRequest =>
    simp only [Locks.perform]
    split_ifs with ht
    · have hrun := (Bool.and_eq_true_iff.1 ht).1
      refine hI.write hrun (hI.waits.writes_running hrun rfl rfl rfl (not_sleeping_of_runs hrun) rfl) ?_
      exact .inl (.inr (.inl (running_of_runs hrun)))
    · exact hI
  | exit t =>
    simp only [Locks.perform]
    split_ifs with ht
    · simp only [Bool.and_eq_true, List.isEmpty_iff] at ht
      refine hI.write ht.1.1 (hI.waits.writes_running ht.1.1 rfl rfl rfl (by simp) rfl) (.inr fun l hl => ?_)
      -- what the thread had before it came to exit is gone, and the exit path has released the rest
      rcases (hI.owned l t).1 hl with h | h
      · simp [hI.early t ht.1.2] at h
      · simp [ht.2] at h
    · exact hI
  | elsewhere a =>
    simp only [Locks.perform]
    cases he : (a.elsewhere : Option (Action Tid (Lock ⊕ Other) Private)) with
    | none => exact hI
    | some a' =>
      have hmoves : Moves s (s.waits.step a') := by
        cases a <;> simp only [Action.elsewhere, Option.some.injEq, reduceCtorEq] at he <;> subst he <;>
          exact hI.toLockCore.moves_step rfl (by simp) (by simp)
      refine hI.moves (hI.waits.step a') hmoves fun t ht => ?_
      by_cases hs : ((s.waits.step a').thread t).state = .allocated
      · simp [hs] at ht
      · simpa [hs] using ht

/-- The thread to which a lock has been passed on takes it as soon as it runs. -/
theorem LockInv.takes (hfree : (s.lock l).locked = false) (hacq : s.acquiring t = some l)
    (hnone : (s.waits.thread t).waitingOn = none) (hres : (s.waits.thread t).waitResult ≠ waitQueueTerminated) :
    (((s.step (.elsewhere (.schedule t))).step (.resume t ⟨false, false⟩)).lock l).owner = some t := by
  have hasleep : (s.waits.thread t).asleep := hI.asleep t (by rw [hacq]; rfl)
  have hawake : (s.waits.thread t).state = .runnable ∨ (s.waits.thread t).state = .running := by
    refine (hI.waits.awake t hasleep).resolve_left fun h => ?_
    simpa [hnone] using (hI.waits.sleeping t).1 h
  generalize hs' : s.step (.elsewhere (.schedule t)) = s'
  have hthread : s'.waits.thread t = { s.waits.thread t with state := .running } := by
    subst hs'
    rcases hawake with h | h
    · simp [Locks.step, Locks.perform, Action.elsewhere, Waits.step, Sched.schedule, h]
    · simp [Locks.step, Locks.perform, Action.elsewhere, Waits.step, Sched.schedule, h]
      rw [← h]
  have hlock : s'.lock = s.lock := hs' ▸ rfl
  have hacq' : s'.acquiring = s.acquiring := hs' ▸ rfl
  have hI' : LockInv s' := hs' ▸ hI.step _ fun u hu => by cases hu
  have hreturns : s'.waits.returns t := by simp [returns, hthread, hasleep]
  have hres' : (s'.waits.thread t).waitResult ≠ waitQueueTerminated := by
    rw [hthread]
    exact hres
  have heq := hI'.waits.waitQueueResume_eq hreturns
  rw [if_neg hres'] at heq
  simp only [Locks.step, Locks.perform, if_pos hreturns, Sched.sleepReturns, heq, hacq', hacq, acquireLoop, hlock,
    hfree, Sched.takeLock]
  simp

end

end

/-- **No sleeplock outlives its owner**, in every run in which nobody goes to `process_thread_exit` while it owns
    one: a thread that has exited owns no lock, and neither does one that has been freed. A free
    lock that threads wait for is taken by one of them as soon as that one runs. -/
theorem sleeplocks_released (l : List (LockAction Tid Lock Other Private))
    (hl : Along Locks.step ExitsUnlocked Locks.boot l) :
    let s := l.foldl Locks.step Locks.boot
    (∀ t, (s.waits.thread t).state = .exited ∨ (s.waits.thread t).state = .unused →
        ∀ m, (s.lock m).owner ≠ some t) ∧
      ∀ m, (s.lock m).locked = false → s.waits.waiters (.inl m) ≠ [] →
        ∃ t, s.acquiring t = some m ∧
          (((s.step (.elsewhere (.schedule t))).step (.resume t ⟨false, false⟩)).lock m).owner = some t := by
  intro s
  have hI : LockInv s := hl.foldl (fun _ a hI ha => hI.step a ha) LockInv.boot
  constructor
  · intro t hgone m hm
    have hlive := hI.live m t hm
    rcases hgone with h | h <;> simp [Thread.live, h] at hlive
  · intro m hfree hne
    obtain ⟨t, hacq, hnone, hres⟩ := hI.passed_on m hfree hne
    exact ⟨t, hacq, hI.takes hfree hacq hnone hres⟩

/-- Two threads; the first has lock 0 and waits for lock 1, which the second has, when it is to exit. -/
def heldAcrossExit : List (LockAction Nat Nat Nat Nat) :=
  [.elsewhere (.alloc 0), .elsewhere (.start 0), .elsewhere (.schedule 0), .acquire 0 0 ⟨false, false⟩,
    .elsewhere (.alloc 1), .elsewhere (.start 1), .elsewhere (.schedule 1), .acquire 1 1 ⟨false, false⟩,
    .acquire 0 1 ⟨false, false⟩, .elsewhere (.requestExit 0), .elsewhere (.terminateThread 0),
    .elsewhere (.schedule 0), .resume 0 ⟨false, false⟩, .clearExitRequest 0, .exit 0]

/-- A thread that waits for one lock and is terminated keeps another for ever. -/
theorem sleeplock_kept_by_exited :
    let s := heldAcrossExit.foldl Locks.step Locks.boot
    (s.waits.thread 0).state = .exited ∧ s.lock 0 = ⟨true, some 0⟩ := by
  decide +kernel

/-- The condition, as far as what a thread holds is written down. -/
def exitsUnlocked (s : Locks Tid Lock Other Private) (a : LockAction Tid Lock Other Private) : Bool :=
  match (s.perform a).2 with
  | none => true
  | some t => (s.holds t).isEmpty && (s.late t).isEmpty

/-- In a run it is the condition. -/
theorem LockInv.along_exitsUnlocked {s : Locks Tid Lock Other Private} (hI : LockInv s)
    (l : List (LockAction Tid Lock Other Private)) (h : Along Locks.step (fun s a => exitsUnlocked s a) s l) :
    Along Locks.step ExitsUnlocked s l := by
  induction l generalizing s with
  | nil => trivial
  | cons a l ih =>
    obtain ⟨ha, hl⟩ := h
    have hunlocked : ExitsUnlocked s a := by
      intro t ht m hm
      simp only [exitsUnlocked, ht, Bool.and_eq_true, List.isEmpty_iff] at ha
      rcases (hI.owned m t).1 hm with h | h
      · simp [ha.1] at h
      · simp [ha.2] at h
    exact ⟨hunlocked, ih (hI.step a hunlocked) hl⟩

/-- The same threads, where the first has nothing when it is to exit. -/
def nothingHeld : List (LockAction Nat Nat Nat Nat) :=
  [.elsewhere (.alloc 0), .elsewhere (.start 0), .elsewhere (.schedule 0), .acquire 0 0 ⟨false, false⟩,
    .elsewhere (.alloc 1), .elsewhere (.start 1), .elsewhere (.schedule 1), .acquire 1 1 ⟨false, false⟩,
    .release 0 0, .acquire 0 1 ⟨false, false⟩, .elsewhere (.requestExit 0), .elsewhere (.terminateThread 0),
    .elsewhere (.schedule 0), .resume 0 ⟨false, false⟩, .clearExitRequest 0, .exit 0]

theorem nothing_kept_by_exited :
    let s := nothingHeld.foldl Locks.step Locks.boot
    (s.waits.thread 0).state = .exited ∧ ∀ m, (s.lock m).owner ≠ some 0 :=
  have hexited : ((nothingHeld.foldl Locks.step Locks.boot).waits.thread 0).state = .exited := by decide +kernel
  ⟨hexited, (sleeplocks_released nothingHeld
    (LockInv.boot.along_exitsUnlocked nothingHeld (by decide +kernel))).1 0 (.inl hexited)⟩

end Caffeinix.Sched
