import Mathlib.Data.List.FinRange
import Mathlib.Algebra.Order.Ring.Nat

/-!
# `Signal.Model` — the signals of one process

`signal.c`, with `process_signal_stop`, `process_signal_exit` and the parts of thread creation and exit that deal
with signals. A step is one section under the lock of the process, so the points where `signal_user_return`,
`process_signal_stop` and `process_thread_exit` release it are states of a thread (`Phase`). A signal is one less
than its number, and a set of signals, an `uint64` of the source, is a function. Left out are killable sleeps and
their counter, the alternate stack, the registers in a frame and the restart of system calls.
-/

namespace Caffeinix.Signal

open Function

abbrev Sig := Fin 64

abbrev SigSet := Sig → Bool

/-- An index of `process->thread`. -/
abbrev Slot := Fin 32

instance slot_neZero : NeZero 32 := ⟨by decide⟩

/-- The number of the source. -/
def Sig.number (s : Sig) : Nat := s.val + 1

/-- `SIGNAL_REALTIME_LIMIT`. -/
def signalRealtimeLimit : Nat := 128

-- of `linux_uapi.h`
def linuxSigrtmin : Nat := 32
def linuxSigkill : Sig := 8
def linuxSigchld : Sig := 16
def linuxSigcont : Sig := 17
def linuxSigstop : Sig := 18
def linuxSigtstp : Sig := 19
def linuxSigttin : Sig := 20
def linuxSigttou : Sig := 21
def linuxSigurg : Sig := 22
def linuxSigwinch : Sig := 27

/-- The signals that are queued. -/
def Sig.realtime (s : Sig) : Bool := linuxSigrtmin ≤ s.number

/-- `signal_default_ignored`. -/
def signalDefaultIgnored (s : Sig) : Bool := s = linuxSigchld || s = linuxSigurg || s = linuxSigwinch

/-- `signal_default_stops`. -/
def signalDefaultStops (s : Sig) : Bool :=
  s = linuxSigstop || s = linuxSigtstp || s = linuxSigttin || s = linuxSigttou

/-- `SIGNAL_UNMASKABLE`. -/
def signalUnmaskable : SigSet := fun s => s = linuxSigkill || s = linuxSigstop

/-- `signal_mask_sanitize`. -/
def signalMaskSanitize (mask : SigSet) : SigSet := fun s => mask s && !signalUnmaskable s

/-- `struct signal_info`; `data` are the fields besides the number. -/
structure Info (D : Type) where
  signal : Nat
  data : D
deriving DecidableEq

/-- `struct signal_pending`. -/
structure Pending (D : Type) where
  bits : SigSet
  information : Sig → Info D
  realtime : List (Info D)
  realtimeCount : Nat

inductive Handler where
  | dfl | ign | user
deriving DecidableEq

/-- `struct process_signal_action`. -/
structure Action where
  handler : Handler
  mask : SigSet
  nodefer : Bool
  resethand : Bool

/-- What `memset` makes of an action. -/
def Action.zero : Action := ⟨.dfl, fun _ => false, false, false⟩

/-- Where a thread is. -/
inductive Phase where
  | allocated
  /-- in user mode or in a system call -/
  | running
  /-- in `process_clone_thread`, between the release of the lock and `scheduler_make_runnable` -/
  | cloning (child : Slot)
  /-- it has taken a stop signal, and has not yet marked the process -/
  | stopping
  /-- in the loop of `process_signal_stop` -/
  | stopWait (asleep : Bool)
  /-- in `signal_user_return` of a stopped process -/
  | returnWait (asleep : Bool)
  /-- on the way to `process_signal_exit` or from there to `process_thread_exit` -/
  | dying
  /-- in `wait_queue_sleep_deadline`, with the sequence number it has read -/
  | sleeping (sequence : Nat)
  | asleep
  /-- in `process_thread_exit` after `signal_thread_detach_locked` -/
  | exiting
  | exited
deriving DecidableEq

/-- The fields of `struct thread` for signals. -/
structure Thread (D : Type) where
  phase : Phase
  mask : SigSet
  savedMask : SigSet
  restoreMask : Bool
  pending : Pending D
  /-- `process_signal_target` -/
  target : SigSet
  /-- `signal_sequence` -/
  sequence : Nat

/-- The fields of `struct process` for signals. -/
structure Proc (D : Type) where
  pending : Pending D
  actions : Sig → Action
  stopped : Bool
  groupExiting : Bool
  /-- `PROCESS_LIVE` -/
  live : Bool
  thread : Slot → Option (Thread D)
  /-- a `PANIC` was reached -/
  panic : Bool

variable {D : Type} [Inhabited D]

/-! ## Pending sets -/

/-- `signal_pending_init`. -/
def Pending.init : Pending D := ⟨fun _ => false, fun _ => ⟨0, default⟩, [], 0⟩

/-- `signal_pending_clear`. -/
def Pending.clear (q : Pending D) (s : Sig) : Pending D where
  bits := update q.bits s false
  information := update q.information s ⟨0, default⟩
  realtime := q.realtime.filter (·.signal ≠ s.number)
  realtimeCount := q.realtimeCount - q.realtime.countP (·.signal = s.number)

/-- `signal_store_pending`; `none` is `SIGNAL_QUEUE_FULL`. -/
def Pending.store (q : Pending D) (s : Sig) (information : Option (Info D)) (malloc : Bool) : Option (Pending D) :=
  let info := { information.getD ⟨s.number, default⟩ with signal := s.number }
  if s.realtime then
    if signalRealtimeLimit ≤ q.realtimeCount || !malloc then none
    else some { q with
      bits := update q.bits s true
      realtime := q.realtime ++ [info]
      realtimeCount := q.realtimeCount + 1 }
  else if q.bits s then some q
  else some { q with
    bits := update q.bits s true
    information := update q.information s info }

/-- The part of `signal_take_set_locked` that takes the signal out; `none` is its `PANIC`. -/
def Pending.take (q : Pending D) (s : Sig) : Option (Info D × Pending D) :=
  if s.realtime then
    (q.realtime.find? (·.signal = s.number)).map fun entry =>
      let rest := q.realtime.eraseP (·.signal = s.number)
      (entry, { q with
        bits := if rest.any (·.signal = s.number) then q.bits else update q.bits s false
        realtime := rest
        realtimeCount := q.realtimeCount - 1 })
  else some (q.information s, { q with
    bits := update q.bits s false
    information := update q.information s ⟨0, default⟩ })

/-! ## Threads -/

/-- `wait_queue_wake_all` on `signal_wait`. -/
def Phase.wake : Phase → Phase
  | .stopWait _ => .stopWait false
  | .returnWait _ => .returnWait false
  | k => k

/-- `wait_queue_signal_thread`. -/
def Phase.interrupt : Phase → Phase
  | .asleep => .running
  | k => k

/-- Where a thread goes to `process_thread_exit` from. -/
def Phase.mayExit : Phase → Bool
  | .running | .dying | .asleep | .sleeping _ | .stopWait _ | .returnWait _ => true
  | _ => false

/-- `signal_thread_init`, with the mask that is inherited. -/
def signalThreadInit (phase : Phase) (mask : SigSet) : Thread D :=
  ⟨phase, mask, fun _ => false, false, .init, fun _ => false, 0⟩

namespace Proc

variable (p : Proc D)

/-- A change of all threads. -/
def mapThreads (f : Slot → Thread D → Thread D) : Proc D :=
  { p with thread := fun i => (p.thread i).map (f i) }

variable (t : Slot)

/-- A change of one thread. -/
def modify (f : Thread D → Thread D) : Proc D :=
  p.mapThreads fun i th => if i = t then f th else th

def setPhase (phase : Phase) : Proc D := p.modify t fun th => { th with phase := phase }

/-- The wakes of all threads. -/
def wakeAll : Proc D := p.mapThreads fun _ th => { th with phase := th.phase.wake }

/-- `signal_clear_locked`. -/
def clear (s : Sig) : Proc D :=
  { p with pending := p.pending.clear s }.mapThreads fun _ th =>
    { th with pending := th.pending.clear s, target := update th.target s false }

/-- `signal_thread_targetable_locked` of a thread that is there and is not excluded. -/
def targetable (th : Thread D) (s : Sig) : Bool :=
  th.phase ≠ .allocated && th.phase ≠ .exited && (signalUnmaskable s || !th.mask s)

/-- `signal_thread_targetable_locked`. -/
def targetableAt (s : Sig) (exclude : Option Slot) (i : Slot) : Bool :=
  exclude ≠ some i && (p.thread i).any (targetable · s)

/-- `signal_process_generation_ignored_locked`. -/
def processGenerationIgnored (s : Sig) : Bool :=
  match (p.actions s).handler with
  | .ign => true
  | .user => false
  | .dfl => signalDefaultIgnored s && (List.finRange 32).any (p.targetableAt s none)

/-- `signal_thread_generation_ignored_locked`. -/
def threadGenerationIgnored (th : Thread D) (s : Sig) : Bool :=
  match (p.actions s).handler with
  | .ign => true
  | .user => false
  | .dfl => signalDefaultIgnored s && !th.mask s

/-- `signal_target_clear_locked`. -/
def targetClear (s : Sig) : Proc D :=
  p.mapThreads fun _ th => { th with target := update th.target s false }

/-- `signal_target_wake_locked`. -/
def targetWake : Proc D :=
  p.modify t fun th => { th with sequence := th.sequence + 1, phase := th.phase.interrupt }

/-- `signal_process_retarget_locked`. -/
def retarget (s : Sig) (exclude : Option Slot) : Proc D :=
  if !p.pending.bits s then p.targetClear s
  else if (List.finRange 32).any fun i => (p.thread i).any (·.target s) && p.targetableAt s exclude i then p
  else
    match (List.finRange 32).find? (p.targetableAt s exclude) with
    | none => p.targetClear s
    | some i =>
      ((p.targetClear s).modify i fun th => { th with target := update th.target s true }).targetWake i

/-- The loops of `signal_thread_mask_changed_locked` and `signal_thread_detach_locked`. -/
def retargetAll (set : SigSet) (exclude : Option Slot) : Proc D :=
  (List.finRange 64).foldl (fun p s => if set s then p.retarget s exclude else p) p

/-- `signal_thread_mask_changed_locked`. -/
def maskChanged : Proc D := p.retargetAll p.pending.bits none

/-- `signal_thread_detach_locked`. -/
def detach (th : Thread D) : Proc D :=
  (p.modify t fun th => { th with target := fun _ => false }).retargetAll th.target (some t)

/-! ## Generation -/

/-- `signal_prepare_group_locked`. -/
def prepareGroup (s : Sig) : Proc D :=
  if s = linuxSigcont then
    { (((p.clear linuxSigstop).clear linuxSigtstp).clear linuxSigttin).clear linuxSigttou with
      stopped := false }.wakeAll
  else if signalDefaultStops s then p.clear linuxSigcont
  else if s = linuxSigkill then { p with stopped := false }.wakeAll
  else p

/-- `signal_queue_process_locked`. -/
def queueProcess (s : Sig) (information : Option (Info D)) (malloc : Bool) : Proc D :=
  if !p.live then p
  else
    let p := p.prepareGroup s
    if p.processGenerationIgnored s then p
    else
      match p.pending.store s information malloc with
      | none => p
      | some q => ({ p with pending := q }.wakeAll).retarget s none

/-- The end of `signal_wake_locked`, for a thread. -/
def wakeTarget (th : Thread D) (s : Sig) : Proc D :=
  if !signalUnmaskable s && th.mask s then p else p.targetWake t

/-- `signal_queue_thread_locked`. -/
def queueThread (s : Sig) (information : Option (Info D)) (malloc : Bool) : Proc D :=
  match p.thread t with
  | none => p
  | some th =>
    if !p.live || th.phase = .exited then p
    else
      let p := p.prepareGroup s
      if p.threadGenerationIgnored th s then p
      else
        match (p.thread t).bind (·.pending.store s information malloc) with
        | none => p
        | some q => ((p.modify t fun th => { th with pending := q }).wakeAll).wakeTarget t th s

/-! ## Taking signals -/

/-- The signals `signal_take_set_locked` looks at. -/
def available (th : Thread D) (set : SigSet) (honor : Bool) (s : Sig) : Bool :=
  (th.pending.bits s || (p.pending.bits s && (!honor || th.target s))) && set s

/-- `signal_take_set_locked`, with the signal taken. -/
def takeSet (th : Thread D) (set : SigSet) (honor : Bool) : Proc D × Option (Sig × Info D) :=
  match (List.finRange 64).find? (p.available th set honor) with
  | none => (p, none)
  | some s =>
    if th.pending.bits s then
      match th.pending.take s with
      | none => ({ p with panic := true }, none)
      | some (info, q) => (p.modify t fun th => { th with pending := q }, some (s, info))
    else
      match p.pending.take s with
      | none => ({ p with panic := true }, none)
      | some (info, q) =>
        let p := { p with pending := q }
        (if q.bits s then p else p.targetClear s, some (s, info))

/-- The mask of a handler. -/
def handlerMask (th : Thread D) (action : Action) (s : Sig) : SigSet :=
  signalMaskSanitize fun x => th.mask x || action.mask x || (!action.nodefer && x = s)

/-- One pass of the loop of `signal_user_return`; `frame` is whether the frame can be written. -/
def signalUserReturn (th : Thread D) (frame : Bool) : Proc D :=
  if p.stopped && !th.pending.bits linuxSigkill && !p.pending.bits linuxSigkill then p.setPhase t (.returnWait true)
  else
    match p.takeSet t th (fun s => !th.mask s) true with
    | (p, none) =>
      if th.restoreMask then
        (p.modify t fun th => { th with phase := .running, mask := th.savedMask, restoreMask := false }).maskChanged
      else p.setPhase t .running
    | (p, some (s, _)) =>
      match (p.actions s).handler with
      | .ign => p.setPhase t .running
      | .dfl => p.setPhase t (if signalDefaultIgnored s || s = linuxSigcont then .running
          else if signalDefaultStops s then .stopping else .dying)
      | .user =>
        let q := (p.modify t fun th => { th with
          phase := if frame then .running else .dying
          mask := handlerMask th (p.actions s) s
          restoreMask := false }).maskChanged
        if (p.actions s).resethand then { q with actions := update q.actions s .zero } else q

/-- The first section of `process_signal_stop`. -/
def stopMark : Proc D :=
  { p with stopped := p.stopped || !p.groupExiting }.setPhase t (.stopWait false)

/-- One pass of its loop. -/
def stopLoop : Proc D :=
  p.setPhase t (if p.stopped && !p.groupExiting then .stopWait true else .running)

/-- `process_signal_exit`. -/
def signalExit : Proc D := { p with groupExiting := true, stopped := false }.wakeAll

/-! ## Masks and actions -/

/-- `how` of `rt_sigprocmask`. -/
inductive How where
  | block | unblock | setmask
deriving DecidableEq

/-- The new mask of `sys_linux_rt_sigprocmask`. -/
def procmask (how : How) (old mask : SigSet) : SigSet :=
  match how with
  | .block => fun s => old s || signalMaskSanitize mask s
  | .unblock => fun s => old s && !signalMaskSanitize mask s
  | .setmask => signalMaskSanitize mask

/-- `sys_linux_rt_sigaction`. -/
def sigaction (s : Sig) (action : Action) : Proc D :=
  if signalUnmaskable s then p
  else
    let p := { p with
      actions := update p.actions s { action with mask := signalMaskSanitize action.mask } }
    if action.handler = .ign ∨ action.handler = .dfl ∧ signalDefaultIgnored s then p.clear s else p

/-- `signal_force_fault`. -/
def forceFault (s : Sig) (data : D) : Proc D :=
  let p := p.modify t fun th => { th with mask := update th.mask s false }
  let p := if (p.actions s).handler = .ign then { p with actions := update p.actions s .zero } else p
  p.queueThread t s (some ⟨s.number, data⟩) true

/-- What the thread may take at its next return to user mode. -/
def deliverable (th : Thread D) (s : Sig) : Bool :=
  (th.pending.bits s || (p.pending.bits s && th.target s)) && !th.mask s

end Proc

/-! ## Steps -/

/-- The steps; one that does not fit where the thread is does nothing. -/
inductive Event (D : Type) where
  | queueProcess (s : Sig) (information : Option (Info D)) (malloc : Bool)
  | queueThread (t : Slot) (s : Sig) (information : Option (Info D)) (malloc : Bool)
  | forceFault (t : Slot) (s : Sig) (data : D)
  | userReturn (t : Slot) (frame : Bool)
  | stopMark (t : Slot)
  | stopLoop (t : Slot)
  | signalExit (t : Slot)
  /-- one pass of the loop of `rt_sigtimedwait` -/
  | timedWait (t : Slot) (set : SigSet)
  | procmask (t : Slot) (how : Proc.How) (mask : SigSet)
  | sigreturn (t : Slot) (mask : SigSet)
  | sigsuspend (t : Slot) (mask : SigSet)
  | sigaction (t : Slot) (s : Sig) (action : Action)
  | exec (t : Slot)
  | clone (t child : Slot)
  | start (t : Slot)
  | sleepCheck (t : Slot)
  | sleepCommit (t : Slot)
  | wake (t : Slot)
  | exit (t : Slot) (group : Bool)
  | exited (t : Slot)
  | free (t : Slot)

namespace Proc

/-- A step of a thread that is in one of the phases. -/
def act (p : Proc D) (t : Slot) (ok : Phase → Bool) (f : Thread D → Proc D) : Proc D :=
  match p.thread t with
  | some th => if ok th.phase then f th else p
  | none => p

/-- A section under the lock. -/
def step (p : Proc D) : Event D → Proc D
  | .queueProcess s information malloc => p.queueProcess s information malloc
  | .queueThread t s information malloc => p.queueThread t s information malloc
  | .forceFault t s data => p.act t (· = .running) fun _ => p.forceFault t s data
  | .userReturn t frame =>
    p.act t (fun k => k = .running || k = .returnWait false) fun th => p.signalUserReturn t th frame
  | .stopMark t => p.act t (· = .stopping) fun _ => p.stopMark t
  | .stopLoop t => p.act t (· = .stopWait false) fun _ => p.stopLoop t
  | .signalExit t => p.act t (· = .dying) fun _ => p.signalExit
  | .timedWait t set => p.act t (· = .running) fun th => (p.takeSet t th (signalMaskSanitize set) false).1
  | .procmask t how mask => p.act t (· = .running) fun _ =>
    (p.modify t fun th => { th with mask := procmask how th.mask mask }).maskChanged
  | .sigreturn t mask => p.act t (· = .running) fun _ =>
    (p.modify t fun th => { th with mask := signalMaskSanitize mask, restoreMask := false }).maskChanged
  | .sigsuspend t mask => p.act t (· = .running) fun _ =>
    (p.modify t fun th => { th with
      savedMask := th.mask, restoreMask := true, mask := signalMaskSanitize mask }).maskChanged
  | .sigaction t s action => p.act t (· = .running) fun _ => p.sigaction s action
  | .exec t => p.act t (· = .running) fun _ =>
    ({ p with actions := fun s => if (p.actions s).handler = Handler.ign then p.actions s else .zero }.modify t
      fun th => { th with restoreMask := false }).maskChanged
  | .clone t child => p.act t (· = .running) fun th =>
    if (p.thread child).isSome || p.groupExiting || !p.live then p
    else { p.setPhase t (.cloning child) with
      thread := update (p.setPhase t (.cloning child)).thread child
        (some (signalThreadInit .allocated th.mask)) }
  | .start t => match (p.thread t).map Thread.phase with
    | some (.cloning child) => (p.setPhase t .running).setPhase child .running
    | _ => p
  | .sleepCheck t => p.act t (· = .running) fun th =>
    if (List.finRange 64).any (p.deliverable th) then p else p.setPhase t (.sleeping th.sequence)
  | .sleepCommit t => match p.thread t with
    | some th => match th.phase with
      | .sleeping n => p.setPhase t (if th.sequence = n then .asleep else .running)
      | _ => p
    | none => p
  | .wake t => p.act t (· = .asleep) fun _ => p.setPhase t .running
  | .exit t group => p.act t Phase.mayExit fun th =>
    let p := ({ p with groupExiting := p.groupExiting || group }.detach t th).setPhase t .exiting
    if p.groupExiting then p.wakeAll else p
  | .exited t => p.act t (· = .exiting) fun _ =>
    { p.setPhase t .exited with live := p.live && (List.finRange 32).any fun i => i ≠ t && (p.thread i).isSome }
  | .free t => p.act t (· = .exited) fun th =>
    { p.detach t th with thread := update (p.detach t th).thread t none }

/-- A process with one thread, with the mask and the actions it has from its parent. -/
def fork (mask : SigSet) (actions : Sig → Action) : Proc D where
  pending := .init
  actions := actions
  stopped := false
  groupExiting := false
  live := true
  thread := update (fun _ => none) 0 (some (signalThreadInit .running (signalMaskSanitize mask)))
  panic := false

end Proc

end Caffeinix.Signal
