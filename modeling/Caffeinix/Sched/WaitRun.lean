import Caffeinix.Lib.Runs
import Caffeinix.Sched.WaitInvariant

/-!
# `Sched.WaitRun` — wait queues over whole runs

`Effect` says all that a step can do: write to fields of one thread that no list depends on, wake threads, move
threads to another queue, or put one to sleep. `WaitInv.effect` goes through the steps of `Sched.Wait` once and
finds the effect of each; the invariant, and what is noted about the wakers of a sleep, then follow from the
effect alone.
-/

namespace Caffeinix.Sched

open Bool Function List Runs Waits Option Thread

variable {Tid Queue Private : Type}

/-! ## Going to sleep -/

/-- The thread may be written to like this whatever lists it is on. -/
structure Writes (old new : Thread Queue Private) : Prop where
  waitingOn : new.waitingOn = old.waitingOn
  onWaitqueue : new.onWaitqueue = old.onWaitqueue
  onTimeoutQueue : new.onTimeoutQueue = old.onTimeoutQueue
  waitDeadline : old.waitingOn.isSome → new.waitDeadline = old.waitDeadline
  sleeping : new.state = .sleeping ↔ old.state = .sleeping
  asleep_of_sleeping : new.state = .sleeping → new.asleep
  awake : new.asleep → new.state = .sleeping ∨ new.state = .runnable ∨ new.state = .running
  asleep : new.asleep → old.asleep ∧ new.waitResult = old.waitResult
  terminated : new.asleep → new.waitResult = waitQueueTerminated → new.exitRequested

variable {s s' : Waits Tid Queue Private} {t u : Tid} {thread : Thread Queue Private} {a : Action Tid Queue Private}

theorem Waits.running_of_runs (h : s.runs t) : (s.thread t).state = .running := by
  simpa using (and_eq_true_iff.1 h).1

theorem Waits.not_sleeping_of_runs (h : s.runs t) : (s.thread t).state ≠ .sleeping := by
  rw [Waits.running_of_runs h]
  decide

theorem Waits.not_asleep_of_runs (h : s.runs t) : (s.thread t).asleep = false := by
  simpa using (and_eq_true_iff.1 h).2

theorem Waits.of_returns (h : s.returns t) : (s.thread t).state = .running ∧ (s.thread t).asleep = true := by
  simpa [returns] using h

variable [DecidableEq Tid]

@[simp] theorem Waits.set_thread_self (s : Waits Tid Queue Private) (t : Tid) (thread : Thread Queue Private) :
    (s.set t thread).thread t = thread := update_self ..

@[simp] theorem Waits.set_thread_ne (h : u ≠ t) :
    (s.set t thread).thread u = s.thread u := update_of_ne h ..

theorem WaitInv.set (hI : WaitInv s) (h : Writes (s.thread t) thread) : WaitInv (s.set t thread) := by
  -- whoever is on the list keeps its deadline
  have hd : ∀ u ∈ s.timeouts, ((s.set t thread).thread u).waitDeadline = (s.thread u).waitDeadline := by
    intro u hu
    by_cases he : u = t
    · subst he
      rw [set_thread_self]
      exact h.waitDeadline ((hI.timed u).1 hu).1
    · rw [set_thread_ne he]
  refine .of_threads hI.panic hI.nodup hI.timeouts_nodup (hI.sorted.congr hd) fun u => ?_
  by_cases hu : u = t
  · subst hu
    constructor <;> rw [set_thread_self]
    · rw [h.waitingOn]
      exact hI.mem u
    · rw [h.waitingOn, h.onWaitqueue]
      exact hI.onWaitqueue u
    · rw [h.waitingOn, h.sleeping]
      exact hI.sleeping u
    · rw [h.waitingOn]
      refine (hI.timed u).trans (and_congr_right fun hw => ?_)
      rw [h.waitDeadline hw]
    · rw [h.onTimeoutQueue]
      exact hI.onTimeoutQueue u
    · exact h.asleep_of_sleeping
    · exact h.awake
    · exact h.terminated
  · exact (hI.thread u).congr (set_thread_ne hu) (fun _ => .rfl) Iff.rfl

variable [DecidableEq Queue]

/-- The thread is on the queue, asleep. -/
def blocked (s : Waits Tid Queue Private) (t : Tid) (queue : Queue) (deadline : Nat) (mode : SignalMode) :
    Waits Tid Queue Private :=
  (link s t queue deadline mode).set t
    { (link s t queue deadline mode).thread t with state := .sleeping, asleep := true }

theorem blocked_thread_self (s : Waits Tid Queue Private) (t : Tid) (queue : Queue) (deadline : Nat)
    (mode : SignalMode) : (blocked s t queue deadline mode).thread t = { s.thread t with
      state := .sleeping, asleep := true, waitingOn := some queue, onWaitqueue := true,
      waitDeadline := deadline, waitResult := 0, waitInterruptible := mode,
      onTimeoutQueue := decide (deadline ≠ 0) || (s.thread t).onTimeoutQueue } := by
  simp [blocked, link]

theorem blocked_thread_ne (hu : u ≠ t) {queue : Queue} {deadline : Nat}
    {mode : SignalMode} : (blocked s t queue deadline mode).thread u = s.thread u := by
  simp [blocked, link, hu]

theorem blocked_waiters (s : Waits Tid Queue Private) (t : Tid) (queue : Queue) (deadline : Nat)
    (mode : SignalMode) (q : Queue) : (blocked s t queue deadline mode).waiters q =
      if q = queue then s.waiters q ++ [t] else s.waiters q := by
  by_cases hq : q = queue
  · subst hq
    simp [blocked, link, Waits.set]
  · simp [blocked, link, Waits.set, hq]

section
variable {s : Waits Tid Queue Private} (hI : WaitInv s)
include hI

variable {t : Tid}

omit [DecidableEq Tid] [DecidableEq Queue] in
/-- A thread that is not asleep is on no list. -/
theorem WaitInv.not_waiting (h : (s.thread t).state ≠ .sleeping) :
    (s.thread t).waitingOn = none ∧ (s.thread t).onWaitqueue = false ∧ (s.thread t).onTimeoutQueue = false ∧
      t ∉ s.timeouts := by
  have hnone : (s.thread t).waitingOn = none := by
    rw [← Option.not_isSome_iff_eq_none, ← hI.sleeping]
    exact h
  have hout : t ∉ s.timeouts := fun hm => by simpa [hnone] using ((hI.timed t).1 hm).1
  refine ⟨hnone, ?_, ?_, hout⟩
  · rw [hI.onWaitqueue, hnone]; rfl
  · exact eq_false_iff.2 fun hon => hout ((hI.onTimeoutQueue t).1 hon)

variable (ht : (s.thread t).state = .running) (queue : Queue) (deadline : Nat) (mode : SignalMode)
include ht queue deadline mode

theorem WaitInv.blocked : WaitInv (Sched.blocked s t queue deadline mode) := by
  obtain ⟨hnone, -, hoff, hout⟩ := hI.not_waiting (by rw [ht]; decide)
  have hself : (Sched.blocked s t queue deadline mode).thread t = { s.thread t with
      state := .sleeping, asleep := true, waitingOn := some queue, onWaitqueue := true,
      waitDeadline := deadline, waitResult := 0, waitInterruptible := mode,
      onTimeoutQueue := decide (deadline ≠ 0) } := by
    rw [blocked_thread_self, hoff, Bool.or_false]
  have hother : ∀ u, u ≠ t → (Sched.blocked s t queue deadline mode).thread u = s.thread u :=
    fun u hu => blocked_thread_ne hu
  have hwaiters := blocked_waiters s t queue deadline mode
  have htimeouts : (Sched.blocked s t queue deadline mode).timeouts =
      if deadline ≠ 0 then timeoutInsertLocked s t deadline else s.timeouts := by
    simp [Sched.blocked, link, Waits.set]
  have hperm : (timeoutInsertLocked s t deadline).Perm (t :: s.timeouts) := Ordered.insertBehind_perm
  have hnotin : ∀ q, t ∉ s.waiters q := fun q hm => by simpa [hnone] using (hI.mem t q).1 hm
  refine .of_threads hI.panic (fun q => ?_) ?_ ?_ fun u => ?_
  · rw [hwaiters]
    split
    · refine nodup_append.2 ⟨hI.nodup q, nodup_singleton t, fun a ha b hb he => ?_⟩
      rw [mem_singleton.1 hb] at he
      exact hnotin q (he ▸ ha)
    · exact hI.nodup q
  · rw [htimeouts]
    by_cases hd : deadline = 0
    · simpa [hd] using hI.timeouts_nodup
    · simp only [ne_eq, hd, not_false_eq_true, if_true]
      exact hperm.nodup_iff.2 (nodup_cons.2 ⟨hout, hI.timeouts_nodup⟩)
  · have hkeep : ∀ u ∈ s.timeouts, ((Sched.blocked s t queue deadline mode).thread u).waitDeadline =
        (s.thread u).waitDeadline := fun u hu => by rw [hother u fun he => hout (he ▸ hu)]
    rw [htimeouts]
    by_cases hd : deadline = 0
    · rw [if_neg (not_not.2 hd)]
      exact hI.sorted.congr hkeep
    · simp only [ne_eq, hd, not_false_eq_true, if_true]
      exact hI.sorted.insertBehind (by rw [hself]) hkeep
  · by_cases hu : u = t
    · subst hu
      have hmem : u ∈ (Sched.blocked s u queue deadline mode).timeouts ↔ deadline ≠ 0 := by
        rw [htimeouts]
        by_cases hd : deadline = 0
        · simp [hd, hout]
        · simp [hd, hperm.mem_iff]
      refine ⟨fun q => ?_, ?_, ?_, ?_, ?_, ?_, ?_, ?_⟩
      · rw [hself, hwaiters]
        by_cases hq : q = queue
        · simp [hq]
        · have hq' : queue ≠ q := fun he => hq he.symm
          simp [hq, hq', hnotin]
      · rw [hself]
        rfl
      · simp [hself]
      · simp [hself, hmem]
      · simp [hself, hmem]
      · simp [hself]
      · simp [hself]
      · rw [hself]
        exact fun _ he => absurd (show (0 : Int) = waitQueueTerminated from he) (by decide)
    · refine (hI.thread u).congr (hother u hu) (fun q => ?_) ?_
      · rw [hwaiters]
        by_cases hq : q = queue <;> simp [hq, hu]
      · rw [htimeouts]
        by_cases hd : deadline = 0
        · simp [hd]
        · simp [hd, hperm.mem_iff, hu]

/-- A thread that gives up its sleep before `sched()` leaves all lists as they were. -/
theorem WaitInv.unlink_link (result : Int) : unlink (link s t queue deadline mode) t queue result =
      s.set t { s.thread t with
        waitDeadline := deadline, waitResult := result, waitInterruptible := .none } := by
  obtain ⟨hnone, hon, hoff, hout⟩ := hI.not_waiting (by rw [ht]; decide)
  apply Waits.ext
  · funext u
    by_cases hu : u = t
    · subst hu
      simp [unlink, link, hnone, hon, hoff]
    · simp [unlink, link, hu]
  · funext q
    by_cases hq : q = queue
    · subst hq
      have hnot : t ∉ s.waiters q := fun hm => by simpa [hnone] using (hI.mem t q).1 hm
      simp [unlink, link, Waits.set, erase_append_right [t] hnot]
    · simp [unlink, link, Waits.set, hq]
  · by_cases hd : deadline = 0
    · simp [unlink, link, Waits.set, hd, hoff]
    have hnot : t ∉ s.timeouts.takeWhile (fun u => (s.thread u).waitDeadline ≤ deadline) := fun hm =>
      hout ((takeWhile_sublist _).mem hm)
    have herase : (timeoutInsertLocked s t deadline).erase t = s.timeouts := by
      unfold timeoutInsertLocked Ordered.insertBehind
      rw [erase_append_right _ hnot, erase_cons_head, takeWhile_append_dropWhile]
    simp [unlink, link, Waits.set, hd, herase]
  · rfl

end

/-! ## All that a step can do -/

/-- The result a waker leaves. -/
def Action.result : Action Tid Queue Private → Int
  | .expire _ => waitQueueTimeout
  | .signalThread _ _ => waitQueueInterrupted
  | .terminateThread _ => waitQueueTerminated
  | _ => 0

/-- The thread has been started and has not exited. -/
def Thread.live (thread : Thread Queue Private) : Prop :=
  thread.state = .runnable ∨ thread.state = .running ∨ thread.state = .sleeping

instance (thread : Thread Queue Private) : Decidable thread.live :=
  inferInstanceAs (Decidable (thread.state = .runnable ∨ thread.state = .running ∨ thread.state = .sleeping))

/-- The steps in which a thread comes back from a sleep or exits. -/
def Action.ends : Action Tid Queue Private → Bool
  | .resume _ => true
  | .exit _ => true
  | _ => false

/-- The steps that write to `wait_private` and `wait_bitset` of threads. -/
def Action.sets : Action Tid Queue Private → Bool
  | .setWait _ _ _ => true
  | .requeue _ _ _ _ => true
  | _ => false

/-- What the steps do to the state. -/
inductive Effect (s : Waits Tid Queue Private) (a : Action Tid Queue Private) : Waits Tid Queue Private → Prop
  | same : Effect s a s
  | write (t : Tid) (thread : Thread Queue Private) (h : Writes (s.thread t) thread)
      (hasleep : a.ends = false → (s.thread t).asleep → thread.asleep)
      (hlive : a.ends = false → (s.thread t).live → thread.live)
      (hset : a.sets = false →
        (thread.waitPrivate = (s.thread t).waitPrivate ∧ thread.waitBitset = (s.thread t).waitBitset) ∨
          (¬(s.thread t).live ∧ thread.waitPrivate = none))
      (hstate : a.ends = false →
        (thread.state = (s.thread t).state ∨ ((s.thread t).live ∧ thread.live)) ∨ a = .alloc t ∨ a = .free t ∨
          (a = .start t ∧ (s.thread t).state = .allocated ∧ thread.state = .runnable)) : Effect s a (s.set t thread)
  | wake (l : List Tid) (hl : ∀ t ∈ l, (s.thread t).waitingOn.isSome)
      (hr : a.result = waitQueueTerminated → ∀ t ∈ l, (s.thread t).exitRequested) :
      Effect s a (woken s l a.result)
  | move (source destination : Queue) (count : Int) (l : List Tid) (waitPrivate : Option Private)
      (ha : a = .requeue source destination count waitPrivate) (hl : l.Nodup)
      (hm : ∀ t ∈ l, (s.thread t).waitingOn = some source) (hne : source ≠ destination) :
      Effect s a (moved s destination l waitPrivate)
  | block (t : Tid) (queue : Queue) (call : SleepCall) (pending : Bool) (between : Between)
      (ha : a = .sleep t queue call pending between) (deadline : Nat) (mode : SignalMode)
      (ht : s.runs t) : Effect s a (blocked s t queue deadline mode)

theorem Effect.ite {p : Prop} [Decidable p] (h : p → Effect s a s') : Effect s a (if p then s' else s) := by
  split_ifs with hp
  · exact h hp
  · exact .same

/-- A write that leaves the state of the thread and what it waits for. -/
theorem Effect.write_own (h : Writes (s.thread t) thread)
    (hasleep : thread.asleep = (s.thread t).asleep) (hstate : thread.state = (s.thread t).state)
    (hprivate : thread.waitPrivate = (s.thread t).waitPrivate)
    (hbits : thread.waitBitset = (s.thread t).waitBitset) : Effect s a (s.set t thread) := by
  refine .write t thread h (fun _ ha => hasleep ▸ ha) (fun _ hl => ?_) (fun _ => .inl ⟨hprivate, hbits⟩)
    (fun _ => .inl (.inl hstate))
  unfold live at hl ⊢
  rwa [hstate]

theorem WaitInv.of_effect (hI : WaitInv s) (h : Effect s a s') : WaitInv s' := by
  cases h with
  | same => exact hI
  | write t thread h => exact hI.set h
  | wake l hl hr => exact hI.woken hr
  | move source destination count l waitPrivate ha hl hm hne => exact hI.moved hl hm hne waitPrivate
  | block t queue call pending between ha deadline mode ht =>
    exact hI.blocked (Waits.running_of_runs ht) queue deadline mode

section
variable {s : Waits Tid Queue Private} (hI : WaitInv s)
include hI

variable {t : Tid} {thread : Thread Queue Private}

section
omit [DecidableEq Tid] [DecidableEq Queue]

/-- A thread that is not waiting may be written to, unless it is put to sleep. -/
theorem WaitInv.writes (h : (s.thread t).state ≠ .sleeping) (hw : thread.waitingOn = none)
    (hq : thread.onWaitqueue = false) (ht : thread.onTimeoutQueue = false) (hs : thread.state ≠ .sleeping)
    (ha : thread.asleep → (thread.state = .runnable ∨ thread.state = .running) ∧ (s.thread t).asleep ∧
      thread.waitResult = (s.thread t).waitResult ∧ ((s.thread t).exitRequested → thread.exitRequested)) :
    Writes (s.thread t) thread := by
  obtain ⟨hnone, hon, hoff, -⟩ := hI.not_waiting h
  exact {
    waitingOn := by rw [hw, hnone]
    onWaitqueue := by rw [hq, hon]
    onTimeoutQueue := by rw [ht, hoff]
    waitDeadline := fun hsome => by simp [hnone] at hsome
    sleeping := iff_of_false hs h
    asleep_of_sleeping := fun he => absurd he hs
    awake := fun hasleep => .inr (ha hasleep).1
    asleep := fun hasleep => ⟨(ha hasleep).2.1, (ha hasleep).2.2.1⟩
    terminated := fun hasleep hr =>
      (ha hasleep).2.2.2 (hI.terminated t (ha hasleep).2.1 ((ha hasleep).2.2.1.symm.trans hr)) }

/-- The scheduler may change the state of a thread that does not sleep. -/
theorem WaitInv.writes_state {state : ThreadState} (h : (s.thread t).state ≠ .sleeping)
    (hs : state = .runnable ∨ state = .running) : Writes (s.thread t) { s.thread t with state := state } where
  waitingOn := rfl
  onWaitqueue := rfl
  onTimeoutQueue := rfl
  waitDeadline := fun _ => rfl
  sleeping := iff_of_false (by rintro rfl; simp at hs) h
  asleep_of_sleeping := by rintro rfl; simp at hs
  awake := fun _ => .inr hs
  asleep := fun hasleep => ⟨hasleep, rfl⟩
  terminated := hI.terminated t

theorem WaitInv.writes_running (h : s.runs t) (hw : thread.waitingOn = (s.thread t).waitingOn)
    (hq : thread.onWaitqueue = (s.thread t).onWaitqueue)
    (ht : thread.onTimeoutQueue = (s.thread t).onTimeoutQueue) (hs : thread.state ≠ .sleeping)
    (ha : thread.asleep = (s.thread t).asleep) : Writes (s.thread t) thread := by
  obtain ⟨hnone, hon, hoff, -⟩ := hI.not_waiting (Waits.not_sleeping_of_runs h)
  apply hI.writes (Waits.not_sleeping_of_runs h) (hw.trans hnone) (hq.trans hon) (ht.trans hoff) hs
  intro hasleep
  rw [ha, Waits.not_asleep_of_runs h] at hasleep
  exact absurd hasleep (by decide)

end

section
variable (ht : s.runs t) (queue : Queue)
include ht queue

/-- `wait_queue_sleep_deadline`, with the lists out of the way: the thread gives up before it is queued, or it is
    queued and taken off again, or it blocks. -/
theorem WaitInv.waitQueueSleepDeadline_eq (deadline : Nat)
    (mode : SignalMode) (pending : Bool) (between : Between) :
    waitQueueSleepDeadline s t queue true deadline mode pending between =
      if (s.thread t).exitRequested then (s, .exits)
      else if mode ≠ .none && pending then (s, .returns waitQueueInterrupted)
      else if between.exit then
        (s.set t { s.thread t with
          exitRequested := true, waitDeadline := deadline, waitResult := waitQueueTerminated,
          waitInterruptible := .none }, .exits)
      else if mode ≠ .none && between.signal then
        (s.set t { s.thread t with
          waitDeadline := deadline, waitResult := waitQueueInterrupted, waitInterruptible := .none },
          .returns waitQueueInterrupted)
      else (Sched.blocked s t queue deadline mode, .blocks) := by
  have hrun : (s.thread t).state = .running := Waits.running_of_runs ht
  unfold waitQueueSleepDeadline
  rw [if_neg (by decide)]
  by_cases hexit : (s.thread t).exitRequested
  · rw [if_pos hexit, if_pos hexit]
  by_cases hpending : (decide (mode ≠ .none) && pending) = true
  · simp only [if_neg hexit, if_pos hpending]
  rw [if_neg hexit, if_neg hpending, if_neg hexit, if_neg hpending]
  -- the request that may have arrived in the meantime is all that has changed
  have hI' : WaitInv (s.set t { s.thread t with exitRequested := between.exit }) :=
    hI.set (hI.writes_running ht rfl rfl rfl (by rw [hrun]; decide) rfl)
  have hrun' : ((s.set t { s.thread t with exitRequested := between.exit }).thread t).state = .running := by
    rw [set_thread_self]
    exact hrun
  have hself := s.set_thread_self t { s.thread t with exitRequested := between.exit }
  have hnoexit : between.exit = false → s.set t { s.thread t with exitRequested := between.exit } = s := by
    intro hb
    have hthread : { s.thread t with exitRequested := between.exit } = s.thread t := by
      rw [hb, ← eq_false_iff.2 hexit]
    rw [hthread]
    exact Waits.ext (update_eq_self t s.thread) rfl rfl rfl
  have hset : ∀ thread, (s.set t { s.thread t with exitRequested := between.exit }).set t thread =
      s.set t thread := fun thread => Waits.ext (update_idem _ _ _) rfl rfl rfl
  generalize s.set t { s.thread t with exitRequested := between.exit } = s' at *
  obtain ⟨hnone, hon, hoff, -⟩ := hI'.not_waiting (by rw [hrun']; decide)
  have hstate : ¬(decide ((s'.thread t).state ≠ .running) || (s'.thread t).onWaitqueue ||
      (s'.thread t).waitingOn.isSome || (s'.thread t).onTimeoutQueue) = true := by
    simp [hrun', hnone, hon, hoff]
  simp only [if_neg hstate]
  cases hb : between.exit with
  | true =>
    rw [if_pos rfl, if_pos rfl, hI'.unlink_link hrun', hset, hself, hb]
  | false =>
    rw [hnoexit hb] at hI' hrun' ⊢
    simp only [Bool.false_eq_true, if_false]
    rw [hI'.unlink_link hrun']
    rfl

variable (call : SleepCall) (pending : Bool) (between : Between)

/-- A sleep that does not block leaves the thread running, with only its own fields written to. -/
theorem WaitInv.waitQueueSleep_awake (h : (waitQueueSleep s t queue true call pending between).2 ≠ .blocks) :
    ∃ thread, (waitQueueSleep s t queue true call pending between).1 = s.set t thread ∧
      Writes (s.thread t) thread ∧ thread.state = .running ∧ thread.asleep = false ∧
      thread.waitPrivate = (s.thread t).waitPrivate ∧ thread.waitBitset = (s.thread t).waitBitset := by
  have hrun := Waits.running_of_runs ht
  have hawake := Waits.not_asleep_of_runs ht
  have hself : s = s.set t (s.thread t) := Waits.ext (update_eq_self t s.thread).symm rfl rfl rfl
  have hkeep : Writes (s.thread t) (s.thread t) :=
    hI.writes_running ht rfl rfl rfl (Waits.not_sleeping_of_runs ht) rfl
  unfold waitQueueSleep at h ⊢
  split
  · exact ⟨s.thread t, hself, hkeep, hrun, hawake, rfl, rfl⟩
  rename_i harg
  simp only [harg, hI.waitQueueSleepDeadline_eq ht] at h ⊢
  split_ifs at h ⊢ with h₁ h₂ h₃ h₄
  · exact ⟨s.thread t, hself, hkeep, hrun, hawake, rfl, rfl⟩
  · exact ⟨s.thread t, hself, hkeep, hrun, hawake, rfl, rfl⟩
  · exact ⟨_, rfl, hI.writes_running ht rfl rfl rfl (by rw [hrun]; decide) rfl, hrun, hawake, rfl, rfl⟩
  · exact ⟨_, rfl, hI.writes_running ht rfl rfl rfl (by rw [hrun]; decide) rfl, hrun, hawake, rfl, rfl⟩
  · exact absurd rfl h

/-- A sleep that blocks has put the thread on the queue. -/
theorem WaitInv.waitQueueSleep_blocks (h : (waitQueueSleep s t queue true call pending between).2 = .blocks) :
    ∃ deadline mode, (waitQueueSleep s t queue true call pending between).1 =
      Sched.blocked s t queue deadline mode := by
  unfold waitQueueSleep at h ⊢
  cases harg : call.arguments with
  | none =>
    rw [harg] at h
    exact nomatch h
  | some arguments =>
    simp only [harg, hI.waitQueueSleepDeadline_eq ht] at h ⊢
    split_ifs at h ⊢ with h₁ h₂ h₃ h₄
    exact ⟨arguments.1, arguments.2, rfl⟩

end

/-- Going to sleep. -/
theorem WaitInv.waitQueueSleep_effect (ht : s.runs t) {queue : Queue} {call : SleepCall} {pending : Bool}
    {between : Between} :
    Effect s (.sleep t queue call pending between) (waitQueueSleep s t queue true call pending between).1 := by
  have hrun : (s.thread t).state = .running := Waits.running_of_runs ht
  unfold waitQueueSleep
  split
  · exact .same
  simp only [hI.waitQueueSleepDeadline_eq ht]
  split_ifs
  · exact .same
  · exact .same
  · exact .write_own (hI.writes_running ht rfl rfl rfl (by rw [hrun]; decide) rfl) rfl rfl rfl rfl
  · exact .write_own (hI.writes_running ht rfl rfl rfl (by rw [hrun]; decide) rfl) rfl rfl rfl rfl
  · exact .block t queue call pending between rfl _ _ ht

omit [DecidableEq Queue] in
/-- Coming back from a sleep. -/
theorem WaitInv.waitQueueResume_eq (ht : s.returns t) :
    waitQueueResume s t =
      (s.set t { s.thread t with waitInterruptible := .none, asleep := false },
        if (s.thread t).waitResult = waitQueueTerminated then .exits
        else .returns (s.thread t).waitResult) := by
  obtain ⟨hrun, hasleep⟩ := Waits.of_returns ht
  obtain ⟨hnone, hon, hoff, hout⟩ := hI.not_waiting (by rw [hrun]; decide)
  unfold waitQueueResume
  simp only [hon, hnone, hoff, Option.isSome_none, Bool.or_self, Bool.false_eq_true, if_false]
  by_cases hr : (s.thread t).waitResult = waitQueueTerminated
  · simp [hr, hI.terminated t hasleep hr]
  · simp [hr]

omit [DecidableEq Queue] in
/-- A thread that is back from a sleep runs, with only its own fields written to. -/
theorem WaitInv.waitQueueResume_awake (ht : s.returns t) :
    ∃ thread, waitQueueResume s t = (s.set t thread,
        if (s.thread t).waitResult = waitQueueTerminated then .exits else .returns (s.thread t).waitResult) ∧
      Writes (s.thread t) thread ∧ thread.state = .running ∧ thread.asleep = false ∧
      thread.waitPrivate = (s.thread t).waitPrivate ∧ thread.waitBitset = (s.thread t).waitBitset := by
  obtain ⟨hrun, -⟩ := Waits.of_returns ht
  obtain ⟨hnone, hon, hoff, -⟩ := hI.not_waiting (by rw [hrun]; decide)
  refine ⟨_, hI.waitQueueResume_eq ht, ?_, hrun, rfl, rfl, rfl⟩
  apply hI.writes <;> simp [hrun, hnone, hon, hoff]

section
variable (a : Action Tid Queue Private)

theorem WaitInv.step_effect : Effect s a (s.step a) := by
  have hquiet : ∀ {P : Prop}, (0 : Int) = waitQueueTerminated → P := fun he => absurd he (by decide)
  have hqueued : ∀ queue, ∀ t ∈ s.waiters queue, (s.thread t).waitingOn.isSome := by
    intro queue t ht
    rw [(hI.mem t queue).1 ht]
    rfl
  cases a with
  | sleep => exact .ite fun ht => hI.waitQueueSleep_effect ht
  | resume t =>
    refine .ite fun ht => ?_
    obtain ⟨thread, heq, hw, -, -, hset⟩ := hI.waitQueueResume_awake ht
    rw [heq]
    exact .write t thread hw nofun nofun (fun _ => .inl hset) nofun
  | setWait t =>
    exact .ite fun ht => .write t _ (hI.writes_running ht rfl rfl rfl (Waits.not_sleeping_of_runs ht) rfl)
      (fun _ h => h) (fun _ h => h) nofun (fun _ => .inl (.inl rfl))
  | wakeOne queue =>
    simp only [Waits.step, hI.waitQueueWakeOne_eq]
    exact .wake _ (fun t ht => hqueued queue t (mem_of_mem_take ht)) hquiet
  | wakeAll queue =>
    simp only [Waits.step, hI.waitQueueWakeAll_eq]
    exact .wake _ (hqueued queue) hquiet
  | wakeMask queue =>
    simp only [Waits.step, hI.waitQueueWakeMask_eq]
    exact .wake _ (fun t ht => hqueued queue t (mem_of_mem_filter (mem_of_mem_take ht))) hquiet
  | requeue source destination count waitPrivate =>
    simp only [Waits.step]
    by_cases hne : source = destination
    · simp only [waitQueueRequeue, hne, decide_true, Bool.true_or, if_true]
      exact .same
    · rw [hI.waitQueueRequeue_eq hne]
      refine .move source destination count _ waitPrivate rfl ?_ (fun t ht => ?_) hne
      · exact (hI.nodup source).sublist (take_sublist _ _)
      · exact (hI.mem t source).1 (mem_of_mem_take ht)
  | wakeThread t =>
    simp only [Waits.step, hI.waitQueueWakeThread_eq, apply_ite Prod.fst]
    exact .ite fun hw => .wake [t] (fun u hu => by rwa [mem_singleton.1 hu]) hquiet
  | signalThread t =>
    simp only [Waits.step, hI.waitQueueSignalThread_eq, apply_ite Prod.fst]
    refine .ite fun hw => .wake [t] (fun u hu => ?_) fun he =>
      absurd (show waitQueueInterrupted = _ from he) (by decide)
    rw [mem_singleton.1 hu]
    exact (and_eq_true_iff.1 hw).1
  | requestExit t =>
    simp only [Waits.step, requestThreadExit]
    split_ifs
    · exact .same
    exact .write_own {
      waitingOn := rfl
      onWaitqueue := rfl
      onTimeoutQueue := rfl
      waitDeadline := fun _ => rfl
      sleeping := .rfl
      asleep_of_sleeping := hI.asleep t
      awake := hI.awake t
      asleep := fun h => ⟨h, rfl⟩
      terminated := fun _ _ => rfl } rfl rfl rfl rfl
  | terminateThread t =>
    simp only [Waits.step, hI.waitQueueTerminateThread_eq, apply_ite Prod.fst]
    refine .ite fun hexit => .ite fun hw => .wake [t] (fun u hu => ?_) (fun _ u hu => ?_)
    · rwa [mem_singleton.1 hu]
    · rwa [mem_singleton.1 hu]
  | expire =>
    simp only [Waits.step, hI.waitQueueExpire_eq]
    refine .wake _ (fun t ht => ?_) (fun he => absurd (show waitQueueTimeout = _ from he) (by decide))
    exact ((hI.timed t).1 (mem_of_mem_filter ht)).1
  | alloc t =>
    refine .ite fun ht => .write t _ ?_ (fun _ ha => ?_) (fun _ hl => ?_) (fun _ => .inr ⟨?_, rfl⟩)
      (fun _ => .inr (.inl rfl))
    · apply hI.writes <;> simp [ht]
    · simpa [ht] using hI.awake t ha
    · simp [live, ht] at hl
    · simp [live, ht]
  | start t =>
    exact .ite fun ht => .write t _ (hI.writes_state (by rw [ht]; decide) (by decide)) (fun _ h => h)
      (fun _ _ => .inl rfl) (fun _ => .inl ⟨rfl, rfl⟩) (fun _ => .inr (.inr (.inr ⟨rfl, ht, rfl⟩)))
  | free t =>
    refine .ite fun ht => ?_
    have hstate : (s.thread t).state = .allocated ∨ (s.thread t).state = .exited := by simpa using ht
    have hasleep : (s.thread t).asleep = false := by
      refine eq_false_iff.2 fun ha => ?_
      rcases hstate with h | h <;> simpa [h] using hI.awake t ha
    have hne : (s.thread t).state ≠ .sleeping := by
      rcases hstate with h | h <;> simp [h]
    have hdead : ¬(s.thread t).live := by
      rcases hstate with h | h <;> simp [live, h]
    obtain ⟨hnone, hon, hoff, -⟩ := hI.not_waiting hne
    exact .write t _ (hI.writes hne hnone hon hoff (by simp) fun ha => by simp [hasleep] at ha)
      (fun _ h => h) (fun _ hl => absurd hl hdead) (fun _ => .inr ⟨hdead, rfl⟩) (fun _ => .inr (.inr (.inl rfl)))
  | schedule t =>
    exact .ite fun ht => .write t _ (hI.writes_state (by rw [ht]; decide) (by decide)) (fun _ h => h)
      (fun _ _ => .inr (.inl rfl)) (fun _ => .inl ⟨rfl, rfl⟩)
      (fun _ => .inl (.inr ⟨.inl ht, .inr (.inl rfl)⟩))
  | yield t =>
    exact .ite fun ht => .write t _ (hI.writes_state (by rw [ht]; decide) (by decide)) (fun _ h => h)
      (fun _ _ => .inl rfl) (fun _ => .inl ⟨rfl, rfl⟩)
      (fun _ => .inl (.inr ⟨.inr (.inl ht), .inl rfl⟩))
  | clearExitRequest =>
    exact .ite fun ht => .write_own (hI.writes_running ht rfl rfl rfl (Waits.not_sleeping_of_runs ht) rfl)
      rfl rfl rfl rfl
  | exit t =>
    exact .ite fun ht => .write t _ (hI.writes_running ht rfl rfl rfl (by simp) rfl) nofun
      nofun (fun _ => .inl ⟨rfl, rfl⟩) nofun

theorem WaitInv.step : WaitInv (s.step a) := hI.of_effect (hI.step_effect a)

/-- What a step does to the state of a thread, unless it is the end of the thread: a thread that has started and
    not exited goes on like that. -/
theorem WaitInv.step_state (ha : a.ends = false) (t : Tid) :
    (((s.step a).thread t).state = (s.thread t).state ∨ ((s.thread t).live ∧ ((s.step a).thread t).live)) ∨
      a = .alloc t ∨ a = .free t ∨
      (a = .start t ∧ (s.thread t).state = .allocated ∧ ((s.step a).thread t).state = .runnable) := by
  have heffect := hI.step_effect a
  generalize s.step a = s' at heffect ⊢
  cases heffect with
  | same => exact .inl (.inl rfl)
  | write u thread hw hasleep hlive hset hstate =>
    by_cases hu : t = u
    · subst hu
      rw [set_thread_self]
      exact hstate ha
    · rw [set_thread_ne hu]
      exact .inl (.inl rfl)
  | wake l hl =>
    by_cases ht : t ∈ l
    · rw [woken_thread_of_mem ht]
      exact .inl (.inr ⟨.inr (.inr ((hI.sleeping t).2 (hl t ht))), .inl rfl⟩)
    · rw [woken_thread_of_not_mem ht]
      exact .inl (.inl rfl)
  | move source destination count l =>
    refine .inl (.inl ?_)
    by_cases ht : t ∈ l <;> simp [Sched.moved, ht]
  | block u queue call pending between he deadline mode hu =>
    by_cases ht : t = u
    · subst ht
      rw [blocked_thread_self]
      exact .inl (.inr ⟨.inr (.inl (Waits.running_of_runs hu)), .inr (.inr rfl)⟩)
    · rw [blocked_thread_ne ht]
      exact .inl (.inl rfl)

end

/-- What a step leaves of a thread, unless it is the end of a sleep or of a thread. -/
structure Spared (a : Action Tid Queue Private) (t : Tid) (old new : Thread Queue Private) : Prop where
  asleep : old.asleep → new.asleep
  live : old.live → new.live
  /-- a thread that has been woken keeps the result until it runs -/
  result : old.asleep → old.waitingOn = none → new.waitingOn = none ∧ new.waitResult = old.waitResult
  /-- a thread gets to a queue by its own sleep or by a requeue -/
  queue : ∀ queue, new.waitingOn = some queue → old.waitingOn = some queue ∨
    (∃ source count waitPrivate, a = .requeue source queue count waitPrivate) ∨
    ∃ call pending between, a = .sleep t queue call pending between
  set : a.sets = false →
    (new.waitPrivate = old.waitPrivate ∧ new.waitBitset = old.waitBitset) ∨ (¬old.live ∧ new.waitPrivate = none)

theorem WaitInv.step_spared (ha : a.ends = false) (t : Tid) :
    Spared a t (s.thread t) ((s.step a).thread t) := by
  have hsame : ∀ s' : Waits Tid Queue Private, s'.thread t = s.thread t → Spared a t (s.thread t) (s'.thread t) := by
    intro s' he
    rw [he]
    exact ⟨id, id, fun _ h => ⟨h, rfl⟩, fun _ h => .inl h, fun _ => .inl ⟨rfl, rfl⟩⟩
  have heffect := hI.step_effect a
  generalize s.step a = s' at heffect ⊢
  cases heffect with
  | same => exact hsame s rfl
  | write u thread hw hasleep hlive hset =>
    by_cases hu : t = u
    · subst hu
      rw [set_thread_self]
      exact {
        asleep := hasleep ha
        live := hlive ha
        result := fun h hnone => ⟨hw.waitingOn.trans hnone, (hw.asleep (hasleep ha h)).2⟩
        queue := fun queue h => .inl (hw.waitingOn.symm.trans h)
        set := hset }
    · exact hsame _ (set_thread_ne hu)
  | wake l hl =>
    by_cases hm : t ∈ l
    · rw [woken_thread_of_mem hm]
      exact {
        asleep := id
        live := fun _ => .inl rfl
        result := fun _ hnone => absurd (hl t hm) (by simp [hnone])
        queue := fun queue h => nomatch (show none = some queue from h)
        set := fun _ => .inl ⟨rfl, rfl⟩ }
    · exact hsame _ (woken_thread_of_not_mem hm)
  | move source destination count l waitPrivate he hl hm =>
    by_cases hmem : t ∈ l
    · have hthread : (Sched.moved s destination l waitPrivate).thread t =
          { s.thread t with waitingOn := some destination, waitPrivate := waitPrivate } := if_pos hmem
      rw [hthread]
      exact {
        asleep := id
        live := id
        result := fun _ hnone => absurd ((hm t hmem).symm.trans hnone) (by simp)
        queue := fun queue h => .inr (.inl ⟨source, count, waitPrivate, by
          rw [he, some.inj (show some destination = some queue from h)]⟩)
        set := fun h => by
          rw [he] at h
          exact Bool.noConfusion h }
    · exact hsame _ (if_neg hmem)
  | block u queue call pending between he deadline mode hu =>
    by_cases htu : t = u
    · subst htu
      rw [blocked_thread_self]
      exact {
        asleep := fun _ => rfl
        live := fun _ => .inr (.inr rfl)
        result := fun h _ => absurd h (by simp [Waits.not_asleep_of_runs hu])
        queue := fun q h => .inr (.inr ⟨call, pending, between, by
          rw [he, some.inj (show some queue = some q from h)]⟩)
        set := fun _ => .inl ⟨rfl, rfl⟩ }
    · exact hsame _ (blocked_thread_ne htu)

end

/-! ## The wakers of a sleep -/

/-- The results of those who have taken the thread off a queue since it last went to sleep. -/
abbrev Wakers (Tid : Type) := Tid → List Int

/-- What a step adds to them. -/
def wakers (s : Waits Tid Queue Private) (c : Wakers Tid) (a : Action Tid Queue Private) : Wakers Tid :=
  fun t =>
    match (s.thread t).waitingOn, ((s.step a).thread t).waitingOn with
    | none, some _ => []
    | some _, none => c t ++ [a.result]
    | _, _ => c t

/-- While it is on a queue nobody has woken a sleeper, and afterwards one waker has, whose result it has. -/
def Woken (c : Wakers Tid) (s : Waits Tid Queue Private) : Prop :=
  ∀ t, (s.thread t).asleep → c t = if (s.thread t).waitingOn.isSome then [] else [(s.thread t).waitResult]

/-- What a step adds for one thread depends on the thread before and after only. -/
theorem Woken.of_effect (hI : WaitInv s) {c c' : Wakers Tid} (hc : Woken c s) (h : Effect s a s')
    (hc' : ∀ t, c' t = match (s.thread t).waitingOn, (s'.thread t).waitingOn with
      | none, some _ => []
      | some _, none => c t ++ [a.result]
      | _, _ => c t) :
    Woken c' s' := by
  intro t ht
  rw [hc' t]
  -- a thread the step does not touch keeps its wakers
  have hkeep : s'.thread t = s.thread t →
      (match (s.thread t).waitingOn, (s'.thread t).waitingOn with
        | none, some _ => []
        | some _, none => c t ++ [a.result]
        | _, _ => c t) = if (s'.thread t).waitingOn.isSome then [] else [(s'.thread t).waitResult] := by
    intro he
    rw [he] at ht ⊢
    rw [← hc t ht]
    cases (s.thread t).waitingOn <;> rfl
  cases h with
  | same => exact hkeep rfl
  | write u thread hw =>
    by_cases hu : t = u
    · subst hu
      rw [set_thread_self] at ht ⊢
      obtain ⟨hold, hresult⟩ := hw.asleep ht
      rw [hw.waitingOn, hresult, ← hc t hold]
      cases (s.thread t).waitingOn <;> rfl
    · exact hkeep (set_thread_ne hu)
  | wake l hl =>
    by_cases hm : t ∈ l
    · obtain ⟨queue, hq⟩ := Option.isSome_iff_exists.1 (hl t hm)
      have hold : c t = [] := by
        rw [hc t (hI.asleep t (hI.is_sleeping hq)), hq]
        rfl
      rw [woken_thread_of_mem hm, hq, hold]
      rfl
    · exact hkeep (woken_thread_of_not_mem hm)
  | move source destination count l waitPrivate ha hl hm =>
    by_cases hmem : t ∈ l
    · have hold : c t = [] := by
        rw [hc t (hI.asleep t (hI.is_sleeping (hm t hmem))), hm t hmem]
        rfl
      simp [moved, hmem, hm t hmem, hold]
    · exact hkeep (by simp [moved, hmem])
  | block u queue call pending between ha deadline mode hu =>
    by_cases he : t = u
    · subst he
      obtain ⟨hnone, -⟩ := hI.not_waiting (Waits.not_sleeping_of_runs hu)
      simp [blocked_thread_self, hnone]
    · exact hkeep (blocked_thread_ne he)

/-! ## Every run -/

/-- The state after a run from boot. -/
def Waits.run (l : List (Action Tid Queue Private)) : Waits Tid Queue Private := l.foldl Waits.step Waits.boot

theorem WaitInv.run (l : List (Action Tid Queue Private)) :
    WaitInv (.run l) ∧ Woken (record Waits.step wakers Waits.boot (fun _ => []) l) (.run l) := by
  refine Along.invariant (I := fun c s => WaitInv s ∧ Woken c s) (p := fun _ _ => True) ?_ ?_
    (Along.of_forall (fun _ _ => trivial) _ l)
  · intro c s a hI _
    exact ⟨hI.1.step a, hI.2.of_effect hI.1 (hI.1.step_effect a) fun t => rfl⟩
  · exact ⟨WaitInv.boot, fun t ht => absurd ht (by simp [Waits.boot, unused])⟩

/-- What holds of the queues in a state, with the wakers of the sleeps so far. -/
structure Consistent (c : Wakers Tid) (s : Waits Tid Queue Private) : Prop where
  /-- a thread is on at most one queue, and there at most once -/
  queue_unique : ∀ t queue queue', t ∈ s.waiters queue → t ∈ s.waiters queue' → queue = queue'
  queue_once : ∀ queue, (s.waiters queue).Nodup
  sleeping_iff : ∀ t, (s.thread t).state = .sleeping ↔ ∃ queue, t ∈ s.waiters queue
  waiting_on : ∀ t queue, (s.thread t).waitingOn = some queue ↔ t ∈ s.waiters queue
  timeout_iff : ∀ t, t ∈ s.timeouts ↔ (∃ queue, t ∈ s.waiters queue) ∧ (s.thread t).waitDeadline ≠ 0
  timeouts_sorted :
    s.timeouts.Pairwise fun t u => (s.thread t).waitDeadline ≤ (s.thread u).waitDeadline
  /-- `wait_queue_expire` wakes those who are due, and nobody else is changed -/
  expire_exact : ∀ now, waitQueueExpire s now =
    woken s (s.timeouts.filter fun t => (s.thread t).waitDeadline ≤ now) waitQueueTimeout
  /-- a sleep that ends has been ended by one waker, and ends with its result -/
  one_result : ∀ t, s.returns t → ∃ result, c t = [result] ∧
    (waitQueueResume s t).2 = if result = waitQueueTerminated then .exits else .returns result
  no_panic : s.panic = none

/-- **The wait queues work**, for every interleaving of sleeps, wakers, expiry, exits and the scheduler. -/
theorem wait_queues_consistent (l : List (Action Tid Queue Private)) :
    Consistent (record Waits.step wakers Waits.boot (fun _ => []) l) (Waits.run l) := by
  obtain ⟨hI, hc⟩ := WaitInv.run l
  have hsome : ∀ t, ((Waits.run l).thread t).waitingOn.isSome ↔ ∃ queue, t ∈ (Waits.run l).waiters queue := by
    intro t
    rw [Option.isSome_iff_exists]
    exact exists_congr fun queue => (hI.mem t queue).symm
  exact {
    queue_unique := fun t queue queue' h h' =>
      some.inj (((hI.mem t queue).1 h).symm.trans ((hI.mem t queue').1 h'))
    queue_once := hI.nodup
    sleeping_iff := fun t => (hI.sleeping t).trans (hsome t)
    waiting_on := fun t queue => (hI.mem t queue).symm
    timeout_iff := fun t => (hI.timed t).trans (and_congr_left' (hsome t))
    timeouts_sorted := hI.sorted
    expire_exact := hI.waitQueueExpire_eq
    one_result := by
      intro t ht
      obtain ⟨hrun, hasleep⟩ := Waits.of_returns ht
      obtain ⟨hnone, -⟩ := hI.not_waiting (t := t) (by rw [hrun]; decide)
      refine ⟨((Waits.run l).thread t).waitResult, ?_, ?_⟩
      · rw [hc t hasleep, hnone]
        rfl
      · rw [hI.waitQueueResume_eq ht]
    no_panic := hI.panic }

end Caffeinix.Sched
