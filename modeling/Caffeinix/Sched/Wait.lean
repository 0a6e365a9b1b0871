import Caffeinix.Lib.Ordered
import Mathlib.Algebra.Order.Ring.Nat

/-!
# `Sched.Wait` — wait queues (`kernel/wait.c`)

Threads, wait queues and the list of timeouts. Every function of `wait.c` runs under `timeout_queue.lock`, so
each of them is one step here; only `wait_queue_sleep_deadline` is in two pieces, up to `sched()` and after it.
Between its first look at `exit_requested` and at the signals and its second one, under the locks, an exit
request and a signal may arrive: they are inputs (`Between`).

The list operations are those of the source: a sleeper goes to the tail of its queue, a waker unlinks it from
its queue and from the list of timeouts, which is kept in the order of deadlines. A thread is `asleep` from
`sched()` in its sleep until it runs again, whoever woke it in between.
-/

namespace Caffeinix.Sched

open Function (update)

/-- `enum thread_state`. -/
inductive ThreadState
  | unused
  | allocated
  | runnable
  | running
  | sleeping
  | exited
deriving DecidableEq

/-- `WAIT_SIGNAL_NONE`, `WAIT_SIGNAL_INTERRUPTIBLE` and `WAIT_SIGNAL_KILLABLE`. -/
inductive SignalMode
  | none
  | interruptible
  | killable
deriving DecidableEq

/-- `WAIT_QUEUE_TIMEOUT`. -/
def waitQueueTimeout : Int := -1

/-- `WAIT_QUEUE_INTERRUPTED`. -/
def waitQueueInterrupted : Int := -2

/-- `WAIT_QUEUE_TERMINATED`. -/
def waitQueueTerminated : Int := -3

/-- The checks of `wait.c`. -/
inductive Panic
  | waitWithoutConditionLock
  | invalidWaitState
  | scheduledWaitEntry
  | terminatedWaitWithoutRequest
  | invalidWaitQueueEntry
  | invalidRequeueEntry
  | timeoutWithoutWaitQueue
deriving DecidableEq

/-- `struct thread`, as far as it matters for waiting. -/
structure Thread (Queue Private : Type) where
  state : ThreadState
  waitingOn : Option Queue
  onWaitqueue : Bool
  onTimeoutQueue : Bool
  waitDeadline : Nat
  waitResult : Int
  waitInterruptible : SignalMode
  waitPrivate : Option Private
  waitBitset : Nat
  exitRequested : Bool
  /-- the saved context is inside `sched()` of a sleep -/
  asleep : Bool

/-- `~(uint32)0`. -/
def bitsetAll : Nat := 2 ^ 32 - 1

/-- What `thread_setup` leaves. -/
def Thread.unused {Queue Private : Type} : Thread Queue Private :=
  ⟨.unused, none, false, false, 0, 0, .none, none, bitsetAll, false, false⟩

/-- Threads, queues and the list of timeouts. -/
@[ext]
structure Waits (Tid Queue Private : Type) where
  thread : Tid → Thread Queue Private
  waiters : Queue → List Tid
  timeouts : List Tid
  panic : Option Panic

variable {Tid Queue Private : Type} [DecidableEq Tid] [DecidableEq Queue]

variable (s : Waits Tid Queue Private)

variable (t : Tid)

/-- A thread is written to. -/
def Waits.set (thread : Thread Queue Private) : Waits Tid Queue Private :=
  { s with thread := update s.thread t thread }

def Waits.stop (panic : Panic) : Waits Tid Queue Private :=
  { s with panic := some panic }

/-! ## Sleeping -/

/-- `timeout_insert_locked`: in front of the first thread with a later deadline. -/
def timeoutInsertLocked (deadline : Nat) : List Tid :=
  Ordered.insertBehind (fun queued => (s.thread queued).waitDeadline) s.timeouts t deadline

variable (queue : Queue)

/-- The thread goes to the tail of the queue, and into the list of timeouts if there is a deadline. -/
def link (deadline : Nat) (mode : SignalMode) : Waits Tid Queue Private :=
  let timed : Bool := deadline ≠ 0
  { s with
    thread := update s.thread t { s.thread t with
      waitingOn := some queue
      onWaitqueue := true
      waitDeadline := deadline
      waitResult := 0
      waitInterruptible := mode
      onTimeoutQueue := timed || (s.thread t).onTimeoutQueue }
    waiters := update s.waiters queue (s.waiters queue ++ [t])
    timeouts := if timed then timeoutInsertLocked s t deadline else s.timeouts }

/-- `list_remove` of both nodes: the thread is on no list any more, and waits no more. -/
def unlink (result : Int) : Waits Tid Queue Private :=
  { s with
    thread := update s.thread t { s.thread t with
      waitingOn := none
      onWaitqueue := false
      onTimeoutQueue := false
      waitResult := result
      waitInterruptible := .none }
    waiters := update s.waiters queue ((s.waiters queue).erase t)
    timeouts := if (s.thread t).onTimeoutQueue then s.timeouts.erase t else s.timeouts }

/-- What arrives while a thread goes to sleep, before it has the locks. -/
structure Between where
  exit : Bool
  signal : Bool

/-- How a sleep goes on. -/
inductive Sleep
  /-- the thread is in `sched()` -/
  | blocks
  /-- the call returns -/
  | returns (result : Int)
  /-- the thread has gone to `process_thread_exit`, which does not return -/
  | exits
deriving DecidableEq

/-- `wait_queue_sleep_deadline`, up to `sched()`. `holding` says that the caller has the condition lock, and
    `pending` is what `signal_pending_unblocked` or `signal_fatal_pending` says. -/
def waitQueueSleepDeadline (holding : Bool) (deadline : Nat) (mode : SignalMode) (pending : Bool)
    (between : Between) : Waits Tid Queue Private × Sleep :=
  if !holding then (s.stop .waitWithoutConditionLock, .blocks)
  else if (s.thread t).exitRequested then (s, .exits)
  else if mode ≠ .none && pending then (s, .returns waitQueueInterrupted)
  else
    let s := s.set t { s.thread t with exitRequested := between.exit }
    let thread := s.thread t
    if thread.state ≠ .running || thread.onWaitqueue || thread.waitingOn.isSome || thread.onTimeoutQueue then
      (s.stop .invalidWaitState, .blocks)
    else
      let linked := link s t queue deadline mode
      if between.exit then (unlink linked t queue waitQueueTerminated, .exits)
      else if mode ≠ .none && between.signal then
        (unlink linked t queue waitQueueInterrupted, .returns waitQueueInterrupted)
      else (linked.set t { linked.thread t with state := .sleeping, asleep := true }, .blocks)

/-- The rest of `wait_queue_sleep_deadline`, when `sched()` has returned. -/
def waitQueueResume : Waits Tid Queue Private × Sleep :=
  let thread := s.thread t
  if thread.onWaitqueue || thread.waitingOn.isSome || thread.onTimeoutQueue then
    (s.stop .scheduledWaitEntry, .blocks)
  else
    let s := s.set t { thread with waitInterruptible := .none, asleep := false }
    if thread.waitResult = waitQueueTerminated then
      if !thread.exitRequested then (s.stop .terminatedWaitWithoutRequest, .blocks) else (s, .exits)
    else (s, .returns thread.waitResult)

/-- The six ways to call it; `delta` is what `ktime_ms_to_ticks` makes of the milliseconds. -/
inductive SleepCall
  | sleep
  | sleepTimeout (milliseconds now delta : Nat)
  | sleepInterruptible
  | sleepKillable
  | sleepInterruptibleTimeout (milliseconds now delta : Nat)
  | sleepInterruptibleUntil (deadline now : Nat)

/-- `now + delta`, or the last tick if that overflows. -/
def deadlineAfter (now delta : Nat) : Nat :=
  if (now + delta) % 2 ^ 64 < now then 2 ^ 64 - 1 else (now + delta) % 2 ^ 64

/-- The deadline and the mode of a call, unless its time is over at once. -/
def SleepCall.arguments : SleepCall → Option (Nat × SignalMode)
  | .sleep => some (0, .none)
  | .sleepTimeout milliseconds now delta =>
    if milliseconds = 0 then none else some (deadlineAfter now delta, .none)
  | .sleepInterruptible => some (0, .interruptible)
  | .sleepKillable => some (0, .killable)
  | .sleepInterruptibleTimeout milliseconds now delta =>
    if milliseconds = 0 then none else some (deadlineAfter now delta, .interruptible)
  | .sleepInterruptibleUntil deadline now => if deadline ≤ now then none else some (deadline, .interruptible)

/-- `wait_queue_sleep` and its variants. -/
def waitQueueSleep (holding : Bool) (call : SleepCall) (pending : Bool) (between : Between) :
    Waits Tid Queue Private × Sleep :=
  match call.arguments with
  | none => (s, .returns waitQueueTimeout)
  | some (deadline, mode) => waitQueueSleepDeadline s t queue holding deadline mode pending between

/-! ## Waking -/

/-- `wait_queue_wake_locked`. -/
def waitQueueWakeLocked (t : Tid) (result : Int) : Waits Tid Queue Private :=
  let thread := s.thread t
  if !thread.onWaitqueue || thread.waitingOn ≠ some queue || thread.state ≠ .sleeping then
    s.stop .invalidWaitQueueEntry
  else
    let unlinked := unlink s t queue result
    unlinked.set t { unlinked.thread t with state := .runnable }

/-- `wait_queue_wake_one`. -/
def waitQueueWakeOne : Waits Tid Queue Private × Nat :=
  match s.waiters queue with
  | [] => (s, 0)
  | t :: _ => (waitQueueWakeLocked s queue t 0, 1)

/-- The loop of `wait_queue_wake_all`, for at most `fuel` threads. -/
def wakeAllLoop (queue : Queue) : Nat → Waits Tid Queue Private → Nat → Waits Tid Queue Private × Nat
  | 0, s, count => (s, count)
  | fuel + 1, s, count =>
    match s.waiters queue with
    | [] => (s, count)
    | t :: _ => wakeAllLoop queue fuel (waitQueueWakeLocked s queue t 0) (count + 1)

/-- `wait_queue_wake_all`. -/
def waitQueueWakeAll : Waits Tid Queue Private × Nat :=
  wakeAllLoop queue (s.waiters queue).length s 0

/-- The loop of `wait_queue_wake_mask` over the queue. -/
def wakeMaskLoop (queue : Queue) (count : Int) (mask : Nat) :
    List Tid → Waits Tid Queue Private → Nat → Waits Tid Queue Private × Nat
  | [], s, woken => (s, woken)
  | t :: rest, s, woken =>
    if (woken : Int) < count then
      if (s.thread t).waitBitset &&& mask = 0 then wakeMaskLoop queue count mask rest s woken
      else wakeMaskLoop queue count mask rest (waitQueueWakeLocked s queue t 0) (woken + 1)
    else (s, woken)

/-- `wait_queue_wake_mask`. -/
def waitQueueWakeMask (count : Int) (mask : Nat) : Waits Tid Queue Private × Nat :=
  if count ≤ 0 || mask = 0 then (s, 0) else wakeMaskLoop queue count mask (s.waiters queue) s 0

/-- The head of one queue goes to the tail of another. -/
def requeueLocked (source destination : Queue) (t : Tid) (waitPrivate : Option Private) :
    Waits Tid Queue Private :=
  let thread := s.thread t
  if thread.state ≠ .sleeping || !thread.onWaitqueue || thread.waitingOn ≠ some source then
    s.stop .invalidRequeueEntry
  else
    let removed := update s.waiters source ((s.waiters source).erase t)
    { s with
      waiters := update removed destination (removed destination ++ [t])
      thread := update s.thread t { thread with
        waitingOn := some destination
        waitPrivate := waitPrivate } }

/-- The loop of `wait_queue_requeue`, for at most `fuel` threads. -/
def requeueLoop (source destination : Queue) (count : Int) (waitPrivate : Option Private) :
    Nat → Waits Tid Queue Private → Nat → Waits Tid Queue Private × Nat
  | 0, s, moved => (s, moved)
  | fuel + 1, s, moved =>
    if (moved : Int) < count then
      match s.waiters source with
      | [] => (s, moved)
      | t :: _ =>
        requeueLoop source destination count waitPrivate fuel
          (requeueLocked s source destination t waitPrivate) (moved + 1)
    else (s, moved)

/-- `wait_queue_requeue`. -/
def waitQueueRequeue (source destination : Queue) (count : Int) (waitPrivate : Option Private) :
    Waits Tid Queue Private × Nat :=
  if source = destination || count ≤ 0 then (s, 0)
  else requeueLoop source destination count waitPrivate (s.waiters source).length s 0

/-- The thread is on a queue, asleep, and the condition on how it sleeps holds: what `wait_queue_wake_thread`,
    `wait_queue_signal_thread` and `wait_queue_terminate_thread` have in common. -/
def wakeWaiting (p : SignalMode → Bool) (wake : Queue → Waits Tid Queue Private) :
    Waits Tid Queue Private × Bool :=
  match (s.thread t).waitingOn with
  | none => (s, false)
  | some queue =>
    if !p (s.thread t).waitInterruptible then (s, false)
    else if (s.thread t).state ≠ .sleeping || !(s.thread t).onWaitqueue then (s, false)
    else (wake queue, true)

/-- `wait_queue_wake_thread`. -/
def waitQueueWakeThread : Waits Tid Queue Private × Bool :=
  wakeWaiting s t (fun _ => true) fun queue =>
    let unlinked := unlink s t queue 0
    unlinked.set t { unlinked.thread t with state := .runnable }

/-- A signal of this kind ends a sleep in this mode. -/
def SignalMode.hears (fatal : Bool) : SignalMode → Bool
  | .none => false
  | .interruptible => true
  | .killable => fatal

/-- `wait_queue_signal_thread`. -/
def waitQueueSignalThread (fatal : Bool) : Waits Tid Queue Private × Bool :=
  wakeWaiting s t (SignalMode.hears fatal) fun queue =>
    let unlinked := unlink s t queue waitQueueInterrupted
    unlinked.set t { unlinked.thread t with state := .runnable }

/-- `wait_queue_terminate_thread`. -/
def waitQueueTerminateThread : Waits Tid Queue Private × Bool :=
  wakeWaiting s t (fun _ => true) fun queue => waitQueueWakeLocked s queue t waitQueueTerminated

/-- The loop of `wait_queue_expire`, for at most `fuel` threads. -/
def expireLoop (now : Nat) : Nat → Waits Tid Queue Private → Waits Tid Queue Private
  | 0, s => s
  | fuel + 1, s =>
    match s.timeouts with
    | [] => s
    | t :: _ =>
      if (s.thread t).waitDeadline > now then s
      else
        match (s.thread t).waitingOn with
        | none => s.stop .timeoutWithoutWaitQueue
        | some queue => expireLoop now fuel (waitQueueWakeLocked s queue t waitQueueTimeout)

/-- `wait_queue_expire`. -/
def waitQueueExpire (now : Nat) : Waits Tid Queue Private :=
  expireLoop now s.timeouts.length s

/-! ## Threads come and go -/

/-- `thread_alloc` and `kernel_thread_create`. -/
def threadAlloc : Waits Tid Queue Private :=
  if (s.thread t).state = .unused then
    s.set t { s.thread t with
      state := .allocated
      exitRequested := false
      waitingOn := none
      onWaitqueue := false
      waitPrivate := none
      waitBitset := bitsetAll
      onTimeoutQueue := false
      waitInterruptible := .none
      asleep := false }
  else s

/-- `scheduler_make_runnable` of a new thread. -/
def threadStart : Waits Tid Queue Private :=
  if (s.thread t).state = .allocated then s.set t { s.thread t with state := .runnable } else s

/-- `thread_free` and `kernel_thread_reap`. -/
def threadFree : Waits Tid Queue Private :=
  if (s.thread t).state = .allocated || (s.thread t).state = .exited then
    s.set t { s.thread t with
      state := .unused
      exitRequested := false
      waitPrivate := none
      waitBitset := bitsetAll
      waitInterruptible := .none }
  else s

/-- The scheduler lets a thread run. -/
def schedule : Waits Tid Queue Private :=
  if (s.thread t).state = .runnable then s.set t { s.thread t with state := .running } else s

/-- `yield`. -/
def yield : Waits Tid Queue Private :=
  if (s.thread t).state = .running then s.set t { s.thread t with state := .runnable } else s

/-- `scheduler_exit_locked`. -/
def schedulerExit : Waits Tid Queue Private :=
  s.set t { s.thread t with state := .exited }

/-- `process_request_thread_exit_locked`, up to `wait_queue_terminate_thread`. -/
def requestThreadExit : Waits Tid Queue Private :=
  if (s.thread t).state = .exited || (s.thread t).state = .unused then s
  else s.set t { s.thread t with exitRequested := true }

/-- `process_thread_exit` takes the request back. -/
def clearExitRequest : Waits Tid Queue Private :=
  s.set t { s.thread t with exitRequested := false }

/-- `futex_wait` writes the fields its wakers look at. -/
def setWait (waitPrivate : Option Private) (waitBitset : Nat) : Waits Tid Queue Private :=
  s.set t { s.thread t with waitPrivate := waitPrivate, waitBitset := waitBitset }

/-! ## Steps -/

/-- What can happen, between two of the moments at which nobody has `timeout_queue.lock`. -/
inductive Action (Tid Queue Private : Type)
  | sleep (t : Tid) (queue : Queue) (call : SleepCall) (pending : Bool) (between : Between)
  | resume (t : Tid)
  | setWait (t : Tid) (waitPrivate : Option Private) (waitBitset : Nat)
  | wakeOne (queue : Queue)
  | wakeAll (queue : Queue)
  | wakeMask (queue : Queue) (count : Int) (mask : Nat)
  | requeue (source destination : Queue) (count : Int) (waitPrivate : Option Private)
  | wakeThread (t : Tid)
  | signalThread (t : Tid) (fatal : Bool)
  | requestExit (t : Tid)
  | terminateThread (t : Tid)
  | expire (now : Nat)
  | alloc (t : Tid)
  | start (t : Tid)
  | free (t : Tid)
  | schedule (t : Tid)
  | yield (t : Tid)
  | clearExitRequest (t : Tid)
  | exit (t : Tid)

/-- The thread runs code of its own. -/
def Waits.runs : Bool :=
  (s.thread t).state = .running && !(s.thread t).asleep

/-- The thread is back from `sched()` in its sleep. -/
def Waits.returns : Bool :=
  (s.thread t).state = .running && (s.thread t).asleep

/-- One step. Only a running thread does something itself. Every caller of a sleep takes the condition lock
    first; and a thread is terminated only with its exit requested, under the lock of its process, without
    which the request is not taken back. -/
def Waits.step : Action Tid Queue Private → Waits Tid Queue Private
  | .sleep t queue call pending between =>
    if s.runs t then (waitQueueSleep s t queue true call pending between).1 else s
  | .resume t => if s.returns t then (waitQueueResume s t).1 else s
  | .setWait t waitPrivate waitBitset => if s.runs t then Sched.setWait s t waitPrivate waitBitset else s
  | .wakeOne queue => (waitQueueWakeOne s queue).1
  | .wakeAll queue => (waitQueueWakeAll s queue).1
  | .wakeMask queue count mask => (waitQueueWakeMask s queue count mask).1
  | .requeue source destination count waitPrivate =>
    (waitQueueRequeue s source destination count waitPrivate).1
  | .wakeThread t => (waitQueueWakeThread s t).1
  | .signalThread t fatal => (waitQueueSignalThread s t fatal).1
  | .requestExit t => requestThreadExit s t
  | .terminateThread t => if (s.thread t).exitRequested then (waitQueueTerminateThread s t).1 else s
  | .expire now => waitQueueExpire s now
  | .alloc t => threadAlloc s t
  | .start t => threadStart s t
  | .free t => threadFree s t
  | .schedule t => Sched.schedule s t
  | .yield t => Sched.yield s t
  | .clearExitRequest t => if s.runs t then Sched.clearExitRequest s t else s
  | .exit t => if s.runs t then schedulerExit s t else s

/-! ## Queues of one's own

A component that owns some of the queues, and decides itself what its threads do there, meets the other queues
and the rest of the kernel in these steps only. -/

/-- The same step, where the queues are those besides `Own`; what a thread does itself is left out. -/
def Action.elsewhere {Own : Type} : Action Tid Queue Private → Option (Action Tid (Own ⊕ Queue) Private)
  | .setWait t waitPrivate waitBitset => some (.setWait t waitPrivate waitBitset)
  | .wakeOne queue => some (.wakeOne (.inr queue))
  | .wakeAll queue => some (.wakeAll (.inr queue))
  | .wakeMask queue count mask => some (.wakeMask (.inr queue) count mask)
  | .requeue source destination count waitPrivate =>
    some (.requeue (.inr source) (.inr destination) count waitPrivate)
  | .wakeThread t => some (.wakeThread t)
  | .signalThread t fatal => some (.signalThread t fatal)
  | .requestExit t => some (.requestExit t)
  | .terminateThread t => some (.terminateThread t)
  | .expire now => some (.expire now)
  | .alloc t => some (.alloc t)
  | .start t => some (.start t)
  | .free t => some (.free t)
  | .schedule t => some (.schedule t)
  | .yield t => some (.yield t)
  | .sleep _ _ _ _ _ | .resume _ | .clearExitRequest _ | .exit _ => none

/-- Nothing has happened yet. -/
def Waits.boot : Waits Tid Queue Private := ⟨fun _ => .unused, fun _ => [], [], none⟩

end Caffeinix.Sched
