import Caffeinix.Sched.WaitRun

/-!
# `Sched.Futex` — the futex table (`kernel/futex.c`)

128 slots, each with a key, a wait queue and the number of its waiters. A waiter takes a slot for its key, adds
itself to the number and sleeps on the queue of the slot; it gives the slot back itself when it has woken up.
`wait_private` points to the slot, and a requeue makes it point to another one.

All of this happens under `futex_table.lock`, which is the condition lock of the sleep: a call is one step, up to
`sched()`. The key is what `futex_key_get` makes of the address before, and the value of the futex word is read
under the lock; both are arguments here. What the timeout argument comes to is a `Timeout`, and how a wait is
restarted after a signal is left out.
-/

namespace Caffeinix.Sched

open Function (update)

/-- `FUTEX_SLOT_COUNT`. -/
def futexSlotCount : Nat := 128

abbrev Slot := Fin futexSlotCount

/-- `NTHREAD`, the size of the table of threads. -/
def nthread : Nat := 64

instance nthread_neZero : NeZero nthread := ⟨by decide⟩

/-- `struct futex_key`; two keys are equal when all fields are (`futex_key_equal`). -/
structure FutexKey (Process : Type) where
  process : Option Process
  address : Nat
  shared : Bool
deriving DecidableEq

/-- `struct futex_slot`, without the queue. -/
structure FutexSlot (Process : Type) where
  key : FutexKey Process
  waiters : Nat
  active : Bool

def linuxEnomem : Int := 12
def linuxEfault : Int := 14
def linuxEagain : Int := 11
def linuxEinval : Int := 22
def linuxEtimedout : Int := 110
def signalRestartSys : Int := 512

/-- The checks of `futex.c`. -/
inductive FutexPanic
  | invalidFutexSlotPut
  | emptyFutexReferenceCount
  | futexWaiterLostSlot
  | futexRequeueSourceCount
deriving DecidableEq

/-- The table, with the wait queues and the threads. -/
structure Futexes (Tid Other Process : Type) where
  waits : Waits Tid (Slot ⊕ Other) Slot
  slots : Slot → FutexSlot Process
  /-- the thread is between `slot->waiters++` and `futex_slot_put_locked` -/
  inWait : Tid → Bool
  /-- the thread is in `process_thread_exit` -/
  exiting : Tid → Bool
  panic : Option FutexPanic

variable {Tid Other Process : Type} [DecidableEq Tid] [DecidableEq Other] [DecidableEq Process]

/-- `futex_init`. -/
def Futexes.boot : Futexes Tid Other Process :=
  ⟨.boot, fun _ => ⟨⟨none, 0, false⟩, 0, false⟩, fun _ => false, fun _ => false, none⟩

/-! ## Slots -/

variable (s : Futexes Tid Other Process)

/-- `futex_slot_find_locked`. -/
def futexSlotFindLocked (key : FutexKey Process) : Option Slot :=
  (List.finRange futexSlotCount).find? fun i => (s.slots i).active && (s.slots i).key = key

/-- `futex_slot_get_locked`. -/
def futexSlotGetLocked (key : FutexKey Process) : Option (Slot × Futexes Tid Other Process) :=
  match futexSlotFindLocked s key with
  | some slot => some (slot, s)
  | none =>
    match (List.finRange futexSlotCount).find? fun i => !(s.slots i).active with
    | some slot => some (slot, { s with slots := update s.slots slot ⟨key, 0, true⟩ })
    | none => none

/-- `futex_slot_put_locked`. -/
def futexSlotPutLocked (slot : Slot) : Futexes Tid Other Process :=
  let entry := s.slots slot
  if !entry.active || entry.waiters = 0 then { s with panic := some .invalidFutexSlotPut }
  else if entry.waiters - 1 = 0 then
    if s.waits.waiters (.inl slot) ≠ [] then { s with panic := some .emptyFutexReferenceCount }
    else { s with slots := update s.slots slot { entry with waiters := 0, active := false } }
  else { s with slots := update s.slots slot { entry with waiters := entry.waiters - 1 } }

/-! ## Waiting -/

/-- The three sleeps of `futex_wait`. -/
inductive Timeout
  | never
  | until (deadline now : Nat)
  | after (milliseconds now delta : Nat)

def Timeout.call : Timeout → SleepCall
  | .never => .sleepInterruptible
  | .until deadline now => .sleepInterruptibleUntil deadline now
  | .after milliseconds now delta => .sleepInterruptibleTimeout milliseconds now delta

/-- `futex_wait` after its sleep. -/
def futexWaitFinish (t : Tid) (result : Int) : Futexes Tid Other Process × Sleep :=
  match (s.waits.thread t).waitPrivate with
  | none => ({ s with panic := some .futexWaiterLostSlot }, .blocks)
  | some slot =>
    let s := futexSlotPutLocked s slot
    ({ s with
      waits := setWait s.waits t none bitsetAll
      inWait := update s.inWait t false },
      .returns (if result = waitQueueInterrupted then -signalRestartSys
        else if result = waitQueueTimeout then -linuxEtimedout else 0))

/-- The thread leaves its sleep for `process_thread_exit`. -/
def leaveForExit (t : Tid) : Futexes Tid Other Process × Sleep :=
  ({ s with
    inWait := update s.inWait t false
    exiting := update s.exiting t true }, .exits)

/-- `slot->waiters++`, and the fields of the thread. -/
def futexWaitEnter (t : Tid) (slot : Slot) (bitset : Nat) : Futexes Tid Other Process :=
  { s with
    slots := update s.slots slot { s.slots slot with waiters := (s.slots slot).waiters + 1 }
    waits := setWait s.waits t (some slot) bitset
    inWait := update s.inWait t true }

/-- The sleep of `futex_wait`. -/
def futexWaitSleep (t : Tid) (slot : Slot) (timeout : Timeout) (pending : Bool) (between : Between) :
    Futexes Tid Other Process × Sleep :=
  match waitQueueSleep s.waits t (.inl slot) true timeout.call pending between with
  | (waits, .blocks) => ({ s with waits := waits }, .blocks)
  | (waits, .exits) => leaveForExit { s with waits := waits } t
  | (waits, .returns result) => futexWaitFinish { s with waits := waits } t result

/-- `futex_wait`, up to `sched()`; `value` is what `copyin` of the word gives, unless it fails. -/
def futexWait (t : Tid) (key : FutexKey Process) (value : Option Nat) (expected bitset : Nat)
    (timeout : Timeout) (pending : Bool) (between : Between) : Futexes Tid Other Process × Sleep :=
  if bitset = 0 then (s, .returns (-linuxEinval))
  else
    match value with
    | none => (s, .returns (-linuxEfault))
    | some value =>
      if value ≠ expected then (s, .returns (-linuxEagain))
      else
        match futexSlotGetLocked s key with
        | none => (s, .returns (-linuxEnomem))
        | some (slot, s) => futexWaitSleep (futexWaitEnter s t slot bitset) t slot timeout pending between

/-- A thread is back from `sched()`, in `futex_wait` or elsewhere. -/
def futexResume (t : Tid) : Futexes Tid Other Process × Sleep :=
  match waitQueueResume s.waits t with
  | (waits, .blocks) => ({ s with waits := waits }, .blocks)
  | (waits, .exits) => leaveForExit { s with waits := waits } t
  | (waits, .returns result) =>
    if s.inWait t then futexWaitFinish { s with waits := waits } t result
    else ({ s with waits := waits }, .returns result)

/-! ## Waking -/

/-- `futex_wake_key_locked`. -/
def futexWakeKeyLocked (key : FutexKey Process) (count : Int) (bitset : Nat) :
    Futexes Tid Other Process × Int :=
  match futexSlotFindLocked s key with
  | none => (s, 0)
  | some slot =>
    let (waits, woken) := waitQueueWakeMask s.waits (.inl slot) count bitset
    ({ s with waits := waits }, woken)

/-- `futex_wake`, with the key. -/
def futexWake (key : FutexKey Process) (count : Int) (bitset : Nat) : Futexes Tid Other Process × Int :=
  if count < 0 || bitset = 0 then (s, -linuxEinval) else futexWakeKeyLocked s key count bitset

/-- The number of waiters of both slots after a requeue, and whether they stay active. -/
def futexRequeueCounts (source target : Slot) (moved : Nat) : Slot → FutexSlot Process :=
  let left := (s.slots source).waiters - moved
  let slots := update s.slots source
    { s.slots source with waiters := left, active := if left = 0 then false else (s.slots source).active }
  let joined := (slots target).waiters + moved
  update slots target
    { slots target with
      waiters := joined
      active := if moved = 0 && joined = 0 then false else (slots target).active }

/-- `futex_requeue`, with the keys; `compare` is the value of the word, if it is to be compared, and what is
    expected. -/
def futexRequeue (s : Futexes Tid Other Process) (source destination : FutexKey Process)
    (wakeCount requeueCount : Int) (compare : Option (Option Nat × Nat)) : Futexes Tid Other Process × Int :=
  if wakeCount < 0 || requeueCount < 0 then (s, -linuxEinval)
  else if source = destination then (s, -linuxEinval)
  else
    match compare with
    | some (none, _) => (s, -linuxEfault)
    | some (some value, expected) =>
      if value ≠ expected then (s, -linuxEagain) else requeue
    | none => requeue
where
  requeue : Futexes Tid Other Process × Int :=
    match futexSlotFindLocked s source with
    | none => (s, 0)
    | some slot =>
      let (waits, woken) := waitQueueWakeMask s.waits (.inl slot) wakeCount bitsetAll
      let s := { s with waits := waits }
      if requeueCount = 0 then (s, woken)
      else
        match futexSlotGetLocked s destination with
        | none => (s, if woken ≠ 0 then woken else -linuxEnomem)
        | some (target, s) =>
          let (waits, moved) := waitQueueRequeue s.waits (.inl slot) (.inl target) requeueCount (some target)
          if (s.slots slot).waiters < moved then ({ s with panic := some .futexRequeueSourceCount }, 0)
          else
            ({ s with waits := waits, slots := futexRequeueCounts s slot target moved },
              (woken : Int) + moved)

/-! ## Steps -/

/-- What can happen. A wake is also what an exiting thread does for its robust futexes and for
    `clear_child_tid`. -/
inductive FutexAction (Tid Other Process : Type)
  | wait (t : Tid) (key : FutexKey Process) (value : Option Nat) (expected bitset : Nat) (timeout : Timeout)
      (pending : Bool) (between : Between)
  | wake (key : FutexKey Process) (count : Int) (bitset : Nat)
  | requeue (source destination : FutexKey Process) (wakeCount requeueCount : Int)
      (compare : Option (Option Nat × Nat))
  | resume (t : Tid)
  /-- a sleep outside `futex_wait` -/
  | sleep (t : Tid) (queue : Other) (call : SleepCall) (pending : Bool) (between : Between)
  | beginExit (t : Tid)
  | clearExitRequest (t : Tid)
  | exit (t : Tid)
  | elsewhere (a : Action Tid Other Slot)

/-- One step, and how the thread that makes it goes on. Nothing but `futex.c` writes to `wait_private` or moves
    threads between queues. -/
def Futexes.perform :
    FutexAction Tid Other Process → Futexes Tid Other Process × Option Sleep
  | .wait t key value expected bitset timeout pending between =>
    if s.waits.runs t && !s.exiting t then
      let (s, ending) := futexWait s t key value (expected % 2 ^ 32) (bitset % 2 ^ 32) timeout pending between
      (s, some ending)
    else (s, none)
  | .wake key count bitset =>
    let (s, result) := futexWake s key count (bitset % 2 ^ 32)
    (s, some (.returns result))
  | .requeue source destination wakeCount requeueCount compare =>
    let (s, result) := futexRequeue s source destination wakeCount requeueCount compare
    (s, some (.returns result))
  | .resume t =>
    if s.waits.returns t then
      let (s, ending) := futexResume s t
      (s, some ending)
    else (s, none)
  | .sleep t queue call pending between =>
    if s.waits.runs t then
      match waitQueueSleep s.waits t (.inr queue) true call pending between with
      | (waits, .exits) => ({ s with waits := waits, exiting := update s.exiting t true }, some .exits)
      | (waits, ending) => ({ s with waits := waits }, some ending)
    else (s, none)
  | .beginExit t =>
    if s.waits.runs t then ({ s with exiting := update s.exiting t true }, none) else (s, none)
  | .clearExitRequest t =>
    if s.waits.runs t && s.exiting t then ({ s with waits := clearExitRequest s.waits t }, none) else (s, none)
  | .exit t =>
    if s.waits.runs t && s.exiting t then ({ s with waits := schedulerExit s.waits t }, none) else (s, none)
  | .elsewhere a =>
    match a.elsewhere with
    | none => (s, none)
    | some a =>
      if a.sets then (s, none)
      else
        let waits := s.waits.step a
        ({ s with
          waits := waits
          exiting := fun t => if (waits.thread t).state = .allocated then false else s.exiting t }, none)

def Futexes.step (a : FutexAction Tid Other Process) : Futexes Tid Other Process := (s.perform a).1

end Caffeinix.Sched
