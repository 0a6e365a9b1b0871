import Caffeinix.Sched.Wait
import Mathlib.Data.List.Nodup

/-!
# `Sched.WaitInvariant` — queues, timeouts and threads agree

`WaitInv` ties the three places a sleeping thread is recorded in together: its own fields, the queue it is on and
the list of timeouts. All wakers have one effect, on different threads and with different results: `woken`
describes it for a list of threads at once, and each waker is shown to be a `woken` (`waitQueueWakeAll_eq` and so
on), with the loop of the source gone. A requeue is a `moved` in the same way. What keeps the invariant is then
proved of `woken` and `moved` once.
-/

namespace Caffeinix.Sched

open Function List

variable {Tid Queue Private : Type}

/-- The queues, the list of timeouts and the threads' own fields say the same. -/
structure WaitInv (s : Waits Tid Queue Private) : Prop where
  panic : s.panic = none
  mem : ∀ t queue, t ∈ s.waiters queue ↔ (s.thread t).waitingOn = some queue
  nodup : ∀ queue, (s.waiters queue).Nodup
  onWaitqueue : ∀ t, (s.thread t).onWaitqueue = (s.thread t).waitingOn.isSome
  sleeping : ∀ t, (s.thread t).state = .sleeping ↔ (s.thread t).waitingOn.isSome
  timed : ∀ t, t ∈ s.timeouts ↔ (s.thread t).waitingOn.isSome ∧ (s.thread t).waitDeadline ≠ 0
  onTimeoutQueue : ∀ t, (s.thread t).onTimeoutQueue = true ↔ t ∈ s.timeouts
  timeouts_nodup : s.timeouts.Nodup
  sorted : Ordered.Sorted (fun t => (s.thread t).waitDeadline) s.timeouts
  asleep : ∀ t, (s.thread t).state = .sleeping → (s.thread t).asleep
  awake : ∀ t, (s.thread t).asleep →
    (s.thread t).state = .sleeping ∨ (s.thread t).state = .runnable ∨ (s.thread t).state = .running
  terminated : ∀ t, (s.thread t).asleep → (s.thread t).waitResult = waitQueueTerminated →
    (s.thread t).exitRequested

/-- The part of the invariant about one thread. -/
structure ThreadWaits (s : Waits Tid Queue Private) (t : Tid) : Prop where
  mem : ∀ queue, t ∈ s.waiters queue ↔ (s.thread t).waitingOn = some queue
  onWaitqueue : (s.thread t).onWaitqueue = (s.thread t).waitingOn.isSome
  sleeping : (s.thread t).state = .sleeping ↔ (s.thread t).waitingOn.isSome
  timed : t ∈ s.timeouts ↔ (s.thread t).waitingOn.isSome ∧ (s.thread t).waitDeadline ≠ 0
  onTimeoutQueue : (s.thread t).onTimeoutQueue = true ↔ t ∈ s.timeouts
  asleep : (s.thread t).state = .sleeping → (s.thread t).asleep
  awake : (s.thread t).asleep →
    (s.thread t).state = .sleeping ∨ (s.thread t).state = .runnable ∨ (s.thread t).state = .running
  terminated : (s.thread t).asleep → (s.thread t).waitResult = waitQueueTerminated → (s.thread t).exitRequested

variable {s : Waits Tid Queue Private} {t : Tid} {l : List Tid} {result : Int} {destination source : Queue}
  {waitPrivate : Option Private}

theorem WaitInv.thread (h : WaitInv s) (t : Tid) : ThreadWaits s t :=
  ⟨h.mem t, h.onWaitqueue t, h.sleeping t, h.timed t, h.onTimeoutQueue t, h.asleep t, h.awake t, h.terminated t⟩

theorem WaitInv.of_threads (hpanic : s.panic = none) (hnodup : ∀ queue, (s.waiters queue).Nodup)
    (htimeouts : s.timeouts.Nodup)
    (hsorted : Ordered.Sorted (fun t => (s.thread t).waitDeadline) s.timeouts) (h : ∀ t, ThreadWaits s t) :
    WaitInv s :=
  ⟨hpanic, fun t => (h t).mem, hnodup, fun t => (h t).onWaitqueue, fun t => (h t).sleeping, fun t => (h t).timed,
    fun t => (h t).onTimeoutQueue, htimeouts, hsorted, fun t => (h t).asleep, fun t => (h t).awake,
    fun t => (h t).terminated⟩

/-- A thread that is left alone. -/
theorem ThreadWaits.congr {s' : Waits Tid Queue Private} (h : ThreadWaits s t)
    (hthread : s'.thread t = s.thread t) (hmem : ∀ queue, t ∈ s'.waiters queue ↔ t ∈ s.waiters queue)
    (htime : t ∈ s'.timeouts ↔ t ∈ s.timeouts) : ThreadWaits s' t := by
  obtain ⟨h₁, h₂, h₃, h₄, h₅, h₆, h₇, h₈⟩ := h
  constructor <;> simp only [hthread, hmem, htime] <;> assumption

theorem WaitInv.boot : WaitInv (Waits.boot : Waits Tid Queue Private) := by
  constructor <;> simp [Waits.boot, Thread.unused, Ordered.Sorted]

/-! ## What a waker does -/

section
variable [DecidableEq Tid]

theorem filter_not_mem_of_not_mem (h : t ∉ l) : l.filter (· ∉ [t]) = l := by
  rw [filter_eq_self]
  intro u hu
  have hne : u ≠ t := fun he => h (he ▸ hu)
  simpa using hne

theorem filter_not_mem_cons (h : t ∉ l) : (t :: l).filter (· ∉ [t]) = l := by
  rw [filter_cons_of_neg (by simp), filter_not_mem_of_not_mem h]

theorem erase_eq_filter_not_mem (h : l.Nodup) : l.erase t = l.filter (· ∉ [t]) := by
  rw [h.erase_eq_filter]
  apply filter_congr
  intro u _
  by_cases he : u = t <;> simp [he]

theorem filter_not_mem_filter {m : List Tid} : (m.filter (· ∉ [t])).filter (· ∉ l) = m.filter (· ∉ t :: l) := by
  rw [filter_filter]
  apply filter_congr
  intro u _
  by_cases he : u = t <;> simp [he]

end

/-- The thread is off every list, with a result, and can run. -/
def Thread.wake (thread : Thread Queue Private) (result : Int) : Thread Queue Private :=
  { thread with
    state := .runnable
    waitingOn := none
    onWaitqueue := false
    onTimeoutQueue := false
    waitResult := result
    waitInterruptible := .none }

variable [DecidableEq Tid]

/-- These threads have been woken with this result. -/
def woken (s : Waits Tid Queue Private) (l : List Tid) (result : Int) : Waits Tid Queue Private :=
  { s with
    thread := fun t => if t ∈ l then (s.thread t).wake result else s.thread t
    waiters := fun queue => (s.waiters queue).filter (· ∉ l)
    timeouts := s.timeouts.filter (· ∉ l) }

theorem woken_nil (s : Waits Tid Queue Private) (result : Int) : woken s [] result = s := by
  ext <;> simp [woken]

theorem woken_thread_of_mem (h : t ∈ l) : (woken s l result).thread t = (s.thread t).wake result := if_pos h

theorem woken_thread_of_not_mem (h : t ∉ l) : (woken s l result).thread t = s.thread t := if_neg h

/-- Waking one and then others is waking them together. -/
theorem woken_cons (ht : t ∉ l) :
    woken (woken s [t] result) l result = woken s (t :: l) result := by
  apply Waits.ext
  · funext u
    by_cases hu : u ∈ l
    · have hne : u ≠ t := fun he => ht (he ▸ hu)
      simp [woken, hu, hne]
    · by_cases he : u = t <;> simp [woken, hu, he, ht]
  · exact funext fun _ => filter_not_mem_filter
  · exact filter_not_mem_filter
  · rfl

/-- Waking keeps the invariant, whoever is woken and for whatever reason. -/
theorem WaitInv.woken (hI : WaitInv s)
    (hr : result = waitQueueTerminated → ∀ t ∈ l, (s.thread t).exitRequested) :
    WaitInv (Sched.woken s l result) := by
  -- the deadlines are not written to
  have hd : ∀ t, ((Sched.woken s l result).thread t).waitDeadline = (s.thread t).waitDeadline := by
    intro t
    by_cases ht : t ∈ l <;> simp [Sched.woken, ht, Thread.wake]
  refine .of_threads hI.panic (fun queue => (hI.nodup queue).filter _) (hI.timeouts_nodup.filter _)
    (Ordered.Sorted.congr (hI.sorted.filter _) fun t _ => hd t) fun t => ?_
  by_cases ht : t ∈ l
  · constructor <;> simp [Sched.woken, ht, Thread.wake]
    exact fun _ he => hr he t ht
  · exact (hI.thread t).congr (woken_thread_of_not_mem ht) (by simp [Sched.woken, ht]) (by simp [Sched.woken, ht])

/-! ## Each waker -/

section
variable {s : Waits Tid Queue Private} (hI : WaitInv s)
include hI

variable {queue : Queue} {t : Tid} {result : Int}

section
variable (h : (s.thread t).waitingOn = some queue)
include h

omit [DecidableEq Tid] in
theorem WaitInv.is_sleeping : (s.thread t).state = .sleeping := (hI.sleeping t).2 (by rw [h]; rfl)

omit [DecidableEq Tid] in
theorem WaitInv.is_queued : (s.thread t).onWaitqueue = true := by rw [hI.onWaitqueue, h]; rfl

end

omit [DecidableEq Tid] in
/-- The thread at the head of a queue. -/
theorem WaitInv.head (h : s.waiters queue = t :: l) : (s.thread t).waitingOn = some queue ∧ t ∉ l :=
  ⟨(hI.mem t queue).1 (by rw [h]; exact mem_cons_self), (nodup_cons.1 (h ▸ hI.nodup queue)).1⟩

/-- Waking that is not for an exit asks nothing of the threads. -/
theorem WaitInv.woken_of_ne {l : List Tid} (hr : result ≠ waitQueueTerminated) :
    WaitInv (Sched.woken s l result) := hI.woken fun he => absurd he hr

variable [DecidableEq Queue]

section
variable (h : (s.thread t).waitingOn = some queue)
include h

/-- Unlinking a thread that waits takes it out of exactly the lists it is on. -/
theorem WaitInv.unlink_runnable :
    (unlink s t queue result).set t { (unlink s t queue result).thread t with state := .runnable } =
      Sched.woken s [t] result := by
  apply Waits.ext
  · funext u
    by_cases hu : u = t
    · subst hu
      simp [Waits.set, unlink, Sched.woken, Thread.wake]
    · simp [Waits.set, unlink, Sched.woken, hu]
  · funext q
    by_cases hq : q = queue
    · subst hq
      simp only [Waits.set, unlink, Sched.woken, update_self]
      exact erase_eq_filter_not_mem (hI.nodup q)
    have ht : t ∉ s.waiters q := by
      rw [hI.mem, h]
      exact fun he => hq (Option.some.inj he).symm
    simp only [Waits.set, unlink, Sched.woken, update_of_ne hq]
    exact (filter_not_mem_of_not_mem ht).symm
  · by_cases hon : (s.thread t).onTimeoutQueue = true
    · simp only [Waits.set, unlink, Sched.woken, hon, if_true]
      exact erase_eq_filter_not_mem hI.timeouts_nodup
    · have ht : t ∉ s.timeouts := fun hm => hon ((hI.onTimeoutQueue t).2 hm)
      simp only [Waits.set, unlink, Sched.woken, hon]
      exact (filter_not_mem_of_not_mem ht).symm
  · rfl

theorem WaitInv.waitQueueWakeLocked_eq : waitQueueWakeLocked s queue t result = Sched.woken s [t] result := by
  unfold waitQueueWakeLocked
  simp only [hI.is_queued h, h, hI.is_sleeping h]
  simpa using hI.unlink_runnable h

end

/-- `wait_queue_wake_one` wakes the thread at the head. -/
theorem WaitInv.waitQueueWakeOne_eq (queue : Queue) :
    waitQueueWakeOne s queue =
      (Sched.woken s ((s.waiters queue).take 1) 0, ((s.waiters queue).take 1).length) := by
  unfold waitQueueWakeOne
  cases hw : s.waiters queue with
  | nil => simp [woken_nil]
  | cons => simp [hI.waitQueueWakeLocked_eq (hI.head hw).1]

omit hI in
/-- The loop of `wait_queue_wake_mask` wakes the first threads that match. -/
theorem wakeMaskLoop_eq {count : Int} {mask : Nat} (hl : l.Nodup) (hI : WaitInv s)
    (hq : ∀ t ∈ l, (s.thread t).waitingOn = some queue) (n : Nat) :
    wakeMaskLoop queue count mask l s n =
      let targets := (l.filter fun t => (s.thread t).waitBitset &&& mask ≠ 0).take (count - n).toNat
      (Sched.woken s targets 0, n + targets.length) := by
  induction l generalizing s n with
  | nil => simp [wakeMaskLoop, woken_nil]
  | cons t rest ih =>
    obtain ⟨ht, hrest⟩ := nodup_cons.1 hl
    unfold wakeMaskLoop
    by_cases hn : (n : Int) < count
    · by_cases hm : (s.thread t).waitBitset &&& mask = 0
      · rw [if_pos hn, if_pos hm, ih hrest hI (fun u hu => hq u (mem_cons_of_mem t hu)) n]
        simp [hm]
      have hI' : WaitInv (Sched.woken s [t] 0) := hI.woken_of_ne (by decide)
      have hsame : ∀ u ∈ rest, (Sched.woken s [t] 0).thread u = s.thread u := by
        intro u hu
        apply woken_thread_of_not_mem
        exact fun he => ht (mem_singleton.1 he ▸ hu)
      have hleft : (count - n).toNat = (count - (n + 1 : Nat)).toNat + 1 := by omega
      -- the others are where they were, with the same bits
      have hfilter : rest.filter (fun u => ((Sched.woken s [t] 0).thread u).waitBitset &&& mask ≠ 0) =
          rest.filter (fun u => (s.thread u).waitBitset &&& mask ≠ 0) := by
        apply filter_congr
        intro u hu
        rw [hsame u hu]
      rw [if_pos hn, if_neg hm, hI.waitQueueWakeLocked_eq (hq t mem_cons_self),
        ih hrest hI' (fun u hu => by rw [hsame u hu]; exact hq u (mem_cons_of_mem t hu)), hfilter]
      have hnot : t ∉ (rest.filter (fun u => (s.thread u).waitBitset &&& mask ≠ 0)).take
          (count - (n + 1 : Nat)).toNat := fun hmem =>
        ht (mem_of_mem_filter (mem_of_mem_take hmem))
      rw [filter_cons_of_pos (by simpa using hm), hleft, take_succ_cons]
      simp only [woken_cons hnot, length_cons]
      congr 1
      omega
    · have hzero : (count - n).toNat = 0 := by omega
      rw [if_neg hn, hzero]
      simp [woken_nil]

/-- `wait_queue_wake_mask` wakes the first `count` threads whose bits meet the mask, in the order of the queue. -/
theorem WaitInv.waitQueueWakeMask_eq (queue : Queue) (count : Int) (mask : Nat) :
    waitQueueWakeMask s queue count mask =
      let targets := ((s.waiters queue).filter fun t => (s.thread t).waitBitset &&& mask ≠ 0).take count.toNat
      (Sched.woken s targets 0, targets.length) := by
  unfold waitQueueWakeMask
  by_cases hc : count ≤ 0
  · have hzero : count.toNat = 0 := by omega
    simp [hc, hzero, woken_nil]
  by_cases hm : mask = 0
  · simp [hm, woken_nil]
  · simp only [hc, hm, decide_false, Bool.or_self, Bool.false_eq_true, if_false]
    rw [wakeMaskLoop_eq (hI.nodup queue) hI (fun t ht => (hI.mem t queue).1 ht)]
    simp

omit hI in
theorem wakeAllLoop_eq (hI : WaitInv s) (hl : s.waiters queue = l) (n : Nat) :
    wakeAllLoop queue l.length s n = (Sched.woken s l 0, n + l.length) := by
  induction l generalizing s n with
  | nil => simp [wakeAllLoop, woken_nil]
  | cons t rest ih =>
    obtain ⟨ht, hnot⟩ := hI.head hl
    have hI' : WaitInv (Sched.woken s [t] 0) := hI.woken_of_ne (by decide)
    have hrest : (Sched.woken s [t] 0).waiters queue = rest := by
      simp only [Sched.woken, hl]
      exact filter_not_mem_cons hnot
    simp only [length_cons, wakeAllLoop, hl, hI.waitQueueWakeLocked_eq ht]
    rw [ih hI' hrest, woken_cons hnot]
    congr 1
    omega

/-- `wait_queue_wake_all` wakes the whole queue. -/
theorem WaitInv.waitQueueWakeAll_eq (queue : Queue) :
    waitQueueWakeAll s queue = (Sched.woken s (s.waiters queue) 0, (s.waiters queue).length) := by
  unfold waitQueueWakeAll
  rw [wakeAllLoop_eq hI rfl, Nat.zero_add]

omit hI in
theorem expireLoop_eq {now : Nat} (hI : WaitInv s) (hl : s.timeouts = l) :
    expireLoop now l.length s =
      Sched.woken s (l.filter fun t => (s.thread t).waitDeadline ≤ now) waitQueueTimeout := by
  induction l generalizing s with
  | nil => simp [expireLoop, woken_nil]
  | cons t rest ih =>
    have hnodup : (t :: rest).Nodup := hl ▸ hI.timeouts_nodup
    have hnot : t ∉ rest := (nodup_cons.1 hnodup).1
    have hsorted : Ordered.Sorted (fun u => (s.thread u).waitDeadline) (t :: rest) := hl ▸ hI.sorted
    simp only [length_cons, expireLoop, hl]
    split_ifs with hdue
    · rw [hsorted.filter_eq_nil hdue, woken_nil]
    have hmem : t ∈ s.timeouts := by rw [hl]; exact mem_cons_self
    obtain ⟨queue, hq⟩ := Option.isSome_iff_exists.1 ((hI.timed t).1 hmem).1
    have hI' : WaitInv (Sched.woken s [t] waitQueueTimeout) := hI.woken_of_ne (by decide)
    have hne : ∀ u ∈ rest, u ≠ t := fun u hu he => hnot (he ▸ hu)
    have hrest : (Sched.woken s [t] waitQueueTimeout).timeouts = rest := by
      simp only [Sched.woken, hl]
      exact filter_not_mem_cons hnot
    have hfilter : rest.filter (fun u => ((Sched.woken s [t] waitQueueTimeout).thread u).waitDeadline ≤ now) =
        rest.filter (fun u => (s.thread u).waitDeadline ≤ now) := by
      apply filter_congr
      intro u hu
      rw [woken_thread_of_not_mem (by simpa using hne u hu)]
    have hnot' : t ∉ rest.filter (fun u => (s.thread u).waitDeadline ≤ now) := fun hm =>
      hnot (mem_of_mem_filter hm)
    simp only [hq, hI.waitQueueWakeLocked_eq hq]
    rw [ih hI' hrest, hfilter, woken_cons hnot', filter_cons_of_pos (by simpa using hdue)]

/-- `wait_queue_expire` wakes the threads whose deadline has passed. -/
theorem WaitInv.waitQueueExpire_eq (now : Nat) :
    waitQueueExpire s now =
      Sched.woken s (s.timeouts.filter fun t => (s.thread t).waitDeadline ≤ now) waitQueueTimeout :=
  expireLoop_eq hI rfl

omit [DecidableEq Queue] in
/-- The three ways to wake one particular thread. -/
theorem WaitInv.wakeWaiting_eq {p : SignalMode → Bool} {wake : Queue → Waits Tid Queue Private}
    (hw : ∀ queue, (s.thread t).waitingOn = some queue → wake queue = Sched.woken s [t] result) :
    wakeWaiting s t p wake =
      if (s.thread t).waitingOn.isSome && p (s.thread t).waitInterruptible then (Sched.woken s [t] result, true)
      else (s, false) := by
  unfold wakeWaiting
  cases hq : (s.thread t).waitingOn with
  | none => simp
  | some queue =>
    cases hp : p (s.thread t).waitInterruptible with
    | false => simp
    | true => simp [hI.is_sleeping hq, hI.is_queued hq, hw queue hq]

theorem WaitInv.waitQueueWakeThread_eq (t : Tid) :
    waitQueueWakeThread s t =
      if (s.thread t).waitingOn.isSome then (Sched.woken s [t] 0, true) else (s, false) := by
  unfold waitQueueWakeThread
  rw [hI.wakeWaiting_eq (fun queue hq => hI.unlink_runnable hq)]
  simp

theorem WaitInv.waitQueueSignalThread_eq (t : Tid) (fatal : Bool) :
    waitQueueSignalThread s t fatal =
      if (s.thread t).waitingOn.isSome && (s.thread t).waitInterruptible.hears fatal then
        (Sched.woken s [t] waitQueueInterrupted, true)
      else (s, false) := by
  unfold waitQueueSignalThread
  rw [hI.wakeWaiting_eq (fun queue hq => hI.unlink_runnable hq)]

theorem WaitInv.waitQueueTerminateThread_eq (t : Tid) :
    waitQueueTerminateThread s t =
      if (s.thread t).waitingOn.isSome then (Sched.woken s [t] waitQueueTerminated, true) else (s, false) := by
  unfold waitQueueTerminateThread
  rw [hI.wakeWaiting_eq (fun queue hq => hI.waitQueueWakeLocked_eq hq)]
  simp

end

/-! ## Moving threads to another queue -/

variable [DecidableEq Queue]

/-- These threads have been moved to the tail of another queue. -/
def moved (s : Waits Tid Queue Private) (destination : Queue) (l : List Tid) (waitPrivate : Option Private) :
    Waits Tid Queue Private :=
  { s with
    thread := fun t =>
      if t ∈ l then { s.thread t with waitingOn := some destination, waitPrivate := waitPrivate }
      else s.thread t
    waiters := fun queue =>
      if queue = destination then s.waiters destination ++ l else (s.waiters queue).filter (· ∉ l) }

theorem moved_nil (s : Waits Tid Queue Private) (destination : Queue) (waitPrivate : Option Private) :
    moved s destination [] waitPrivate = s := by
  apply Waits.ext
  · simp [moved]
  · funext queue
    by_cases hq : queue = destination <;> simp [moved, hq]
  · rfl
  · rfl

theorem moved_cons (ht : t ∉ l) :
    moved (moved s destination [t] waitPrivate) destination l waitPrivate =
      moved s destination (t :: l) waitPrivate := by
  apply Waits.ext
  · funext u
    by_cases hu : u ∈ l
    · have hne : u ≠ t := fun he => ht (he ▸ hu)
      simp [moved, hu, hne]
    · by_cases he : u = t <;> simp [moved, hu, he, ht]
  · funext queue
    by_cases hq : queue = destination
    · simp [moved, hq]
    · simp only [moved, hq, if_false]
      exact filter_not_mem_filter
  · rfl
  · rfl

theorem WaitInv.moved (hI : WaitInv s) (hl : l.Nodup) (hm : ∀ t ∈ l, (s.thread t).waitingOn = some source)
    (hne : source ≠ destination) (waitPrivate : Option Private) :
    WaitInv (Sched.moved s destination l waitPrivate) := by
  have hd : ∀ t, ((Sched.moved s destination l waitPrivate).thread t).waitDeadline =
      (s.thread t).waitDeadline := by
    intro t
    by_cases ht : t ∈ l <;> simp [Sched.moved, ht]
  refine .of_threads hI.panic (fun queue => ?_) hI.timeouts_nodup (hI.sorted.congr fun t _ => hd t) fun t => ?_
  · by_cases hq : queue = destination
    · have hdisj : ∀ t ∈ l, t ∉ s.waiters destination := fun t ht hmem =>
        hne (Option.some.inj ((hm t ht).symm.trans ((hI.mem t destination).1 hmem)))
      simp only [Sched.moved, hq, if_true]
      exact nodup_append.2 ⟨hI.nodup destination, hl, fun a ha b hb he => hdisj b hb (he ▸ ha)⟩
    · simp only [Sched.moved, hq, if_false]
      exact (hI.nodup queue).filter _
  · by_cases ht : t ∈ l
    · obtain ⟨-, h₂, h₃, h₄, h₅, h₆, h₇, h₈⟩ := hI.thread t
      simp only [hm t ht] at h₂ h₃ h₄
      refine ⟨fun queue => ?_, ?_, ?_, ?_, ?_, ?_, ?_, ?_⟩ <;> simp only [Sched.moved, ht, if_true] <;> try assumption
      by_cases hq : queue = destination
      · simp [ht, hq]
      · have hq' : destination ≠ queue := fun he => hq he.symm
        simp [ht, hq, hq']
    · refine (hI.thread t).congr (if_neg ht) (fun queue => ?_) Iff.rfl
      by_cases hq : queue = destination <;> simp [Sched.moved, ht, hq]

theorem WaitInv.requeueLocked_eq (hI : WaitInv s) (hne : source ≠ destination)
    (h : (s.thread t).waitingOn = some source) (waitPrivate : Option Private) :
    requeueLocked s source destination t waitPrivate = Sched.moved s destination [t] waitPrivate := by
  unfold requeueLocked
  simp only [hI.is_sleeping h, hI.is_queued h, h, ne_eq, not_true_eq_false, decide_false, Bool.not_true,
    Bool.or_self, Bool.false_eq_true, if_false]
  apply Waits.ext
  · funext u
    by_cases hu : u = t
    · subst hu
      simp [Sched.moved, hI.is_sleeping h, hI.is_queued h]
    · simp [Sched.moved, hu]
  · funext queue
    by_cases hq : queue = destination
    · subst hq
      simp [Sched.moved, update_of_ne hne.symm]
    by_cases hs : queue = source
    · subst hs
      simp only [Sched.moved, hq, if_false, update_of_ne hq, update_self]
      exact erase_eq_filter_not_mem (hI.nodup queue)
    have ht : t ∉ s.waiters queue := by
      rw [hI.mem, h]
      exact fun he => hs (Option.some.inj he).symm
    simp only [Sched.moved, hq, if_false, update_of_ne hq, update_of_ne hs]
    exact (filter_not_mem_of_not_mem ht).symm
  · simp [Sched.moved]
  · simp [Sched.moved]

theorem requeueLoop_eq (hne : source ≠ destination) {count : Int} {l : List Tid} (hI : WaitInv s)
    (hl : s.waiters source = l) (n : Nat) :
    requeueLoop source destination count waitPrivate l.length s n =
      let targets := l.take (count - n).toNat
      (moved s destination targets waitPrivate, n + targets.length) := by
  induction l generalizing s n with
  | nil => simp [requeueLoop, moved_nil]
  | cons t rest ih =>
    obtain ⟨ht, hnot⟩ := hI.head hl
    simp only [length_cons, requeueLoop, hl]
    by_cases hn : (n : Int) < count
    · have hI' : WaitInv (moved s destination [t] waitPrivate) :=
        hI.moved (nodup_singleton t) (fun u hu => by rw [mem_singleton.1 hu]; exact ht) hne _
      have hrest : (moved s destination [t] waitPrivate).waiters source = rest := by
        simp only [moved, hne, if_false, hl]
        exact filter_not_mem_cons hnot
      have hleft : (count - n).toNat = (count - (n + 1 : Nat)).toNat + 1 := by omega
      have hnot' : t ∉ rest.take (count - (n + 1 : Nat)).toNat := fun hm => hnot (mem_of_mem_take hm)
      rw [if_pos hn, hI.requeueLocked_eq hne ht, ih hI' hrest, hleft, take_succ_cons]
      simp only [moved_cons hnot', length_cons]
      congr 1
      omega
    · have hzero : (count - n).toNat = 0 := by omega
      rw [if_neg hn, hzero]
      simp [moved_nil]

/-- `wait_queue_requeue` moves the first `count` threads, in their order. -/
theorem WaitInv.waitQueueRequeue_eq (hI : WaitInv s) (hne : source ≠ destination) (count : Int)
    (waitPrivate : Option Private) :
    waitQueueRequeue s source destination count waitPrivate =
      let targets := (s.waiters source).take count.toNat
      (Sched.moved s destination targets waitPrivate, targets.length) := by
  unfold waitQueueRequeue
  by_cases hc : count ≤ 0
  · have hzero : count.toNat = 0 := by omega
    simp [hc, hzero, moved_nil]
  · simp only [hne, hc, decide_false, Bool.or_self, Bool.false_eq_true, if_false]
    rw [requeueLoop_eq hne hI rfl]
    simp

end Caffeinix.Sched
