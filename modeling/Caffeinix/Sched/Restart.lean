import Caffeinix.Sched.Futex
import Caffeinix.Time.Ktime

/-!
# `Sched.Restart` — timed futex waits that signals interrupt (`kernel/futex.c`, `kernel/signal.c`)

A thread has one restart record. A relative timed wait writes it with its deadline; the wait made again after a
signal takes the deadline from it. What a handler does meanwhile can cancel the record: a futex wait of its own,
or the return from a handler nested in it. The wait then starts over (`restarted_wait_late`).
-/

namespace Caffeinix.Restart

open Sched Time

/-- The registers that a trap saves and the calls below read. -/
structure Regs where
  (epc a0 a1 a2 a3 a5 a7 : UInt64)
deriving DecidableEq

/-- The arguments of a wait, and the address of its `ecall`. -/
structure WaitArgs where
  (epc address : UInt64)
  isPrivate : Bool
  expected : UInt32
  timeoutAddress : UInt64
  bitset : UInt32
deriving DecidableEq

/-- The `futex_restart_*` fields of a thread. `saved` is there while the record is active. -/
structure FutexRestart where
  saved : Option (WaitArgs × UInt64)
  (armed resume : Bool)

def futexRestartCancel : FutexRestart := ⟨none, false, false⟩

variable (r : FutexRestart) (w : WaitArgs)

def futexRestartSignal (throughHandler : Bool) : FutexRestart :=
  if r.saved.isSome then { r with armed := throughHandler, resume := !throughHandler } else r

def futexRestartSigreturn (trapframe : Regs) : FutexRestart :=
  match r.saved with
  | none => r
  | some (wait, _) =>
    if !r.armed then r
    else if trapframe.epc ≠ wait.epc ∨ trapframe.a7 ≠ 98 ∨ trapframe.a0 ≠ wait.address then futexRestartCancel
    else { r with armed := false, resume := true }

/-- `futex_restart_take`, with the deadline if it is the record of this wait. -/
def futexRestartTake : Option UInt64 × FutexRestart :=
  match r.saved with
  | none => (none, futexRestartCancel)
  | some (wait, deadline) =>
    if r.resume ∧ wait = w then (some deadline, { r with resume := false }) else (none, futexRestartCancel)

def futexRestartSet (deadline : UInt64) : FutexRestart := ⟨some (w, deadline), false, false⟩

/-- What a system call meets. -/
structure Meets where
  /-- the answer of `futex_key_get` -/
  key : Int
  /-- the answer of `futex_relative_timeout` or `futex_absolute_timeout`, for an address that is not null -/
  timed : Int
  milliseconds : UInt64
  /-- the word at the address, if it can be read -/
  value : Option UInt32
  slot : Bool
  (frequency now : UInt64)
  /-- how the sleep ends -/
  sleep : Int
  /-- the result of a call that is no futex wait -/
  result : Int
  /-- the registers in the frame that `rt_sigreturn` reads, if it accepts it -/
  frame : Option Regs

variable (m : Meets)

/-- The deadline of a wait that is not made again. -/
def futexDeadline : UInt64 :=
  let delta := ktimeMsToTicks m.frequency m.milliseconds
  if m.now > uint64All - delta then uint64All else m.now + delta

/-- `futex_wait` after its sleep: the record, the result, and the deadline it slept to. -/
def futexWaitEnd (deadline : Option UInt64) : FutexRestart × Int × Option UInt64 :=
  if m.sleep = waitQueueInterrupted then (r, -signalRestartSys, deadline)
  else (futexRestartCancel, if m.sleep = waitQueueTimeout then -linuxEtimedout else 0, deadline)

/-- `futex_wait` after the timeout is known: `took` has the deadline of the record, if the wait is made again. -/
def futexWaitTimed (took : Option UInt64 × FutexRestart) (timed : Int) (absolute : Bool) :
    FutexRestart × Int × Option UInt64 :=
  if timed < 0 then (took.2, timed, none)
  else if m.value = none then (took.2, -linuxEfault, none)
  else if m.value ≠ some w.expected then (futexRestartCancel, -linuxEagain, none)
  else if !m.slot then (took.2, -linuxEnomem, none)
  else if timed = 0 ∨ absolute then futexWaitEnd took.2 m none
  else
    match took.1 with
    | some deadline => futexWaitEnd took.2 m (some deadline)
    | none => futexWaitEnd (futexRestartSet w (futexDeadline m)) m (some (futexDeadline m))

def futexWait (absolute : Bool) : FutexRestart × Int × Option UInt64 :=
  if w.bitset = 0 then (r, -linuxEinval, none)
  else if m.key < 0 then (r, m.key, none)
  else
    let took := if absolute ∨ w.timeoutAddress = 0 then (none, r) else futexRestartTake r w
    let timed := if took.1.isSome then 1 else if w.timeoutAddress = 0 then 0 else m.timed
    futexWaitTimed w m took timed absolute

/-- The wait that the registers ask for at an `ecall`, if they do, and whether its timeout is absolute
    (`sys_linux_futex`; with `LINUX_FUTEX_CLOCK_REALTIME` there is none). -/
def futexCall (regs : Regs) : Option (WaitArgs × Bool) :=
  let operation := regs.a1.toUInt32
  let wait := WaitArgs.mk regs.epc regs.a0 (operation &&& 128 ≠ 0) regs.a2.toUInt32 regs.a3
  if regs.a7 ≠ 98 ∨ operation &&& ~~~255 ≠ 0 then none
  else if operation &&& 127 = 0 then some (wait 0xffffffff, false)
  else if operation &&& 127 = 9 then some (wait regs.a5.toUInt32, true)
  else none

/-- A wait that is to be made again: its registers, the deadline it had first, and whether a handler has
    interrupted it that still runs. -/
structure Again where
  regs : Regs
  first : UInt64
  inside : Bool
deriving DecidableEq

/-- A thread. `again` and `slept`, the waits that have slept to a deadline, are not in the source. -/
structure Thread where
  trapframe : Regs
  restart : FutexRestart
  syscallA0 : UInt64
  syscallRestart : Bool
  again : Option Again
  slept : List (WaitArgs × UInt64)

def Thread.boot (regs : Regs) : Thread := ⟨regs, futexRestartCancel, 0, false, none, []⟩

variable (t : Thread)

/-- What is to be made again when user code has gone on. -/
def later : Option Again := t.again.filter (·.inside)

/-- The trap around a call, with `syscall`'s use of the result. -/
def syscall (result : Int) : Thread :=
  { t with
    syscallA0 := t.trapframe.a0
    syscallRestart := result = -signalRestartSys
    trapframe := { t.trapframe with epc := t.trapframe.epc + 4, a0 := UInt64.ofInt result }
    again := later t }

/-- `sys_linux_rt_sigreturn`. A frame that is refused is a fault. -/
def sysLinuxRtSigreturn : Thread :=
  match m.frame with
  | none => syscall t 0
  | some frame =>
    { t with
      trapframe := frame
      restart := futexRestartSigreturn t.restart frame
      syscallA0 := t.trapframe.a0
      syscallRestart := false
      again := (later t).map fun a => { a with inside := a.regs ≠ frame } }

def ecall : Thread :=
  match futexCall t.trapframe with
  | some (w, absolute) =>
    let (restart, result, deadline) := futexWait t.restart w m absolute
    let first := (t.again.filter (!·.inside)).map (·.first)
    let again := deadline.map fun d => ⟨t.trapframe, first.getD d, false⟩
    { syscall t result with
      restart := restart
      again := if result = -signalRestartSys then again.or (later t) else later t
      slept := (deadline.map (w, ·)).toList ++ t.slept }
  | none => if t.trapframe.a7 = 139 then sysLinuxRtSigreturn m t else syscall t m.result

/-- The registers before the call that has just been made, if it is to be made again. -/
def userRegs : Regs :=
  if t.syscallRestart then { t.trapframe with a0 := t.syscallA0, epc := t.trapframe.epc - 4 } else t.trapframe

def signalRestartSyscall (restart throughHandler : Bool) : Thread :=
  if !t.syscallRestart then t
  else if !restart then
    { t with
      syscallRestart := false
      trapframe.a0 := UInt64.ofInt (-4)
      restart := futexRestartCancel
      again := later t }
  else
    { t with
      syscallRestart := false
      trapframe := userRegs t
      restart := futexRestartSignal t.restart throughHandler }

/-- `signal_user_return`; `handler` is the handler it enters, if it does: whether it has `SA_RESTART`, and the
    registers it starts with. -/
def signalUserReturn (fromSyscall : Bool) (handler : Option (Bool × Regs)) : Thread :=
  let t := if fromSyscall then signalRestartSyscall t (handler.all (·.1)) handler.isSome else t
  match handler with
  | none => t
  | some (_, entry) => { t with trapframe := entry, again := t.again.map ({ · with inside := true }) }

inductive Event
  /-- user code runs to its next trap -/
  | user (regs : Regs)
  /-- a handler is left by a jump -/
  | leave
  | ecall (m : Meets) (handler : Option (Bool × Regs))
  | interrupt (handler : Option (Bool × Regs))

def step : Event → Thread
  | .user regs => { t with trapframe := regs, again := later t }
  | .leave => { t with again := none }
  | .ecall m handler => signalUserReturn (ecall m t) true handler
  | .interrupt handler => signalUserReturn t false handler

def run (events : List Event) : Thread := events.foldl step t

/-- While a handler that has interrupted a wait runs, it makes no futex wait and returns to this wait, and no other
    handler is entered. -/
def quiet : Event → Prop
  | .user _ | .leave => True
  | .ecall m handler =>
    (∀ a ∈ later t, futexCall t.trapframe = none ∧ (t.trapframe.a7 = 139 → m.frame = some a.regs)) ∧
    (later (ecall m t) = none ∨ handler = none)
  | .interrupt handler => later t = none ∨ handler = none

def quietRun (t : Thread) : List Event → Prop
  | [] => True
  | e :: events => quiet t e ∧ quietRun (step t e) events

variable {r q : FutexRestart} {w : WaitArgs} {m : Meets} {t : Thread} {regs : Regs} {d : UInt64} {absolute : Bool}
  {deadline : Option UInt64}

/-! ## What the record says -/

/-- The record is cancelled, or still that of the same wait. -/
def Kept (r' r : FutexRestart) : Prop := ∀ p, r'.saved = some p → r.saved = some p

theorem kept_refl : Kept r r := fun _ => id

theorem kept_cancel : Kept futexRestartCancel r := nofun

theorem kept_signal {throughHandler : Bool} : Kept (futexRestartSignal r throughHandler) r := by
  unfold futexRestartSignal
  split <;> exact fun _ => id

theorem kept_sigreturn : Kept (futexRestartSigreturn r regs) r := by
  unfold futexRestartSigreturn
  split
  · exact kept_refl
  split_ifs
  · exact kept_refl
  · exact kept_cancel
  · exact fun _ => id

theorem kept_end (hr : Kept r q) : Kept (futexWaitEnd r m deadline).1 q := by
  unfold futexWaitEnd
  split
  · exact hr
  · exact kept_cancel

theorem futexWaitEnd_deadline : (futexWaitEnd r m deadline).2.2 = deadline := by
  unfold futexWaitEnd
  split <;> rfl

theorem futexWaitTimed_cases {took : Option UInt64 × FutexRestart} (hkept : Kept took.2 r) {timed : Int} :
    (futexWaitTimed w m took timed absolute).2.2 = none ∧ Kept (futexWaitTimed w m took timed absolute).1 r ∨
    ¬(timed = 0 ∨ absolute = true) ∧ futexWaitTimed w m took timed absolute =
      match took.1 with
      | some d => futexWaitEnd took.2 m (some d)
      | none => futexWaitEnd (futexRestartSet w (futexDeadline m)) m (some (futexDeadline m)) := by
  unfold futexWaitTimed
  split_ifs with _ _ _ _ hend
  · exact .inl ⟨rfl, hkept⟩
  · exact .inl ⟨rfl, hkept⟩
  · exact .inl ⟨rfl, kept_cancel⟩
  · exact .inl ⟨rfl, hkept⟩
  · exact .inl ⟨futexWaitEnd_deadline, kept_end hkept⟩
  · exact .inr ⟨hend, rfl⟩

/-- The record of the wait is taken, or it is cancelled. -/
theorem futexRestartTake_cases (r w) :
    (∃ d, r.saved = some (w, d) ∧ r.resume = true ∧ futexRestartTake r w = (some d, ⟨some (w, d), r.armed, false⟩)) ∨
    futexRestartTake r w = (none, futexRestartCancel) ∧ ∀ d, r.saved = some (w, d) → r.resume = false := by
  unfold futexRestartTake
  split
  · rename_i hnone
    exact .inr ⟨rfl, fun d hd => nomatch hnone.symm.trans hd⟩
  rename_i wait d hsaved
  split_ifs with htake
  · obtain ⟨hresume, rfl⟩ := htake
    exact .inl ⟨d, hsaved, hresume, by rw [hsaved]⟩
  · refine .inr ⟨rfl, fun d' hd => ?_⟩
    obtain ⟨rfl, _⟩ := Prod.mk.inj (Option.some.inj (hsaved.symm.trans hd))
    simpa using htake

/-- A wait sleeps to no deadline, and the record is cancelled or as before; or it sleeps to the deadline that the
    record has for it or gets for it. -/
theorem futexWait_cases (r w m) (absolute : Bool) :
    (futexWait r w m absolute).2.2 = none ∧ Kept (futexWait r w m absolute).1 r ∨
    ∃ d armed, (absolute = false ∧ w.timeoutAddress ≠ 0) ∧
      (∀ d', r.saved = some (w, d') → r.resume = true → d = d') ∧
      futexWait r w m absolute = futexWaitEnd ⟨some (w, d), armed, false⟩ m (some d) := by
  unfold futexWait
  split
  · exact .inl ⟨rfl, kept_refl⟩
  split
  · exact .inl ⟨rfl, kept_refl⟩
  by_cases hrelative : absolute = true ∨ w.timeoutAddress = 0
  · rw [if_pos hrelative]
    refine (futexWaitTimed_cases kept_refl).imp id fun ⟨hend, _⟩ => absurd ?_ hend
    exact hrelative.elim .inr fun h => .inl (if_pos h)
  rw [if_neg hrelative]
  obtain ⟨habs, htimed⟩ := not_or.mp hrelative
  rcases futexRestartTake_cases r w with ⟨d, hsaved, _, htake⟩ | ⟨htake, hnot⟩
  · rw [htake]
    refine (futexWaitTimed_cases (hsaved ▸ fun _ => id)).imp id fun ⟨_, hout⟩ => ?_
    refine ⟨d, r.armed, ⟨by simpa using habs, htimed⟩, fun d' hd _ => ?_, hout⟩
    exact (Prod.mk.inj (Option.some.inj (hsaved.symm.trans hd))).2
  · rw [htake]
    refine (futexWaitTimed_cases kept_cancel).imp id fun ⟨_, hout⟩ => ?_
    refine ⟨futexDeadline m, false, ⟨by simpa using habs, htimed⟩, fun d' hd hr => ?_, hout⟩
    exact nomatch hr.symm.trans (hnot d' hd)

/-! ## The deadlines in the record -/

/-- The record has the deadline that a wait with its arguments has slept to. -/
def Recorded (t : Thread) : Prop := ∀ p, t.restart.saved = some p → p ∈ t.slept

theorem recorded_userReturn (h : Recorded t) {fromSyscall : Bool} {handler : Option (Bool × Regs)} :
    Recorded (signalUserReturn t fromSyscall handler) := by
  have hcall : Recorded (if fromSyscall then signalRestartSyscall t (handler.all (·.1)) handler.isSome else t) := by
    unfold signalRestartSyscall
    split_ifs
    · exact h
    · exact nofun
    · exact fun p hp => h p (kept_signal p hp)
    · exact h
  cases handler with
  | none => exact hcall
  | some => exact hcall

theorem recorded_ecall (h : Recorded t) : Recorded (ecall m t) := by
  unfold ecall
  split
  · rename_i w absolute _
    intro p hp
    obtain ⟨hnone, hkept⟩ | ⟨d, armed, _, _, hout⟩ := futexWait_cases t.restart w m absolute
    · exact List.mem_append_right _ (h p (hkept p hp))
    · simp only [hout, futexWaitEnd_deadline] at hp ⊢
      obtain rfl := Option.some.inj (kept_end (q := ⟨some (w, d), armed, false⟩) kept_refl p hp)
      exact List.mem_cons_self
  · split
    · unfold sysLinuxRtSigreturn
      split
      · exact h
      · exact fun p hp => h p (kept_sigreturn p hp)
    · exact h

theorem recorded_run (h : Recorded t) (events : List Event) : Recorded (run t events) := by
  induction events generalizing t with
  | nil => exact h
  | cons e events ih =>
    apply ih
    cases e with
    | user => exact h
    | leave => exact h
    | ecall => exact recorded_userReturn (recorded_ecall h)
    | interrupt => exact recorded_userReturn h

/-! ## A wait made again -/

/-- The record is that of the timed wait before which the registers stand. -/
def Holds (r : FutexRestart) (regs : Regs) (d : UInt64) : Prop :=
  ∃ w, r.saved = some (w, d) ∧ futexCall regs = some (w, false) ∧ w.timeoutAddress ≠ 0

/-- The record is that of the wait to be made again, and it can be taken when the thread is there. -/
structure Ready (t : Thread) (a : Again) : Prop where
  holds : Holds t.restart a.regs a.first
  resumes : t.restart.resume = true ∨ if a.inside then t.restart.armed = true else t.syscallRestart = true
  regs : a.inside = false → a.regs = userRegs t

/-- Of a thread in user mode, or about to return there from a call. -/
def Inv (t : Thread) : Prop := ∀ a ∈ t.again, Ready t a

theorem Inv.of_later (h : Inv t) {a : Again} (ha : a ∈ later t) :
    a.inside = true ∧ Holds t.restart a.regs a.first ∧ (t.restart.resume = true ∨ t.restart.armed = true) := by
  obtain ⟨ha, hinside⟩ := Option.mem_filter_iff.mp ha
  obtain ⟨hholds, hresumes, _⟩ := h a ha
  rw [hinside] at hresumes
  exact ⟨hinside, hholds, hresumes⟩

theorem Ready.of_inside {a : Again} (hinside : a.inside = true) (hholds : Holds t.restart a.regs a.first)
    (hresumes : t.restart.resume = true ∨ t.restart.armed = true) : Ready t a :=
  ⟨hholds, by rwa [hinside], fun h => nomatch hinside.symm.trans h⟩

theorem futexCall_eq (h : futexCall regs = some (w, absolute)) :
    regs.a7 = 98 ∧ w.epc = regs.epc ∧ w.address = regs.a0 := by
  unfold futexCall at h
  dsimp only at h
  split_ifs at h with h7
  all_goals
    obtain ⟨rfl, _⟩ := Prod.mk.inj (Option.some.inj h)
    exact ⟨by simpa using (not_or.mp h7).1, rfl, rfl⟩

theorem Holds.sigreturn (h : Holds r regs d) (hr : r.resume = true ∨ r.armed = true) :
    Holds (futexRestartSigreturn r regs) regs d ∧ (futexRestartSigreturn r regs).resume = true := by
  obtain ⟨w, hsaved, hcall, htimed⟩ := h
  obtain ⟨h7, hepc, haddress⟩ := futexCall_eq hcall
  unfold futexRestartSigreturn
  simp only [hsaved, h7, hepc, haddress, ne_eq, not_true, or_self, if_false]
  split_ifs with hoff
  · exact ⟨⟨w, hsaved, hcall, htimed⟩, hr.resolve_right (by simpa using hoff)⟩
  · exact ⟨⟨w, rfl, hcall, htimed⟩, rfl⟩

section
variable (h : Inv t) (hidle : t.syscallRestart = false)
include h hidle

/-- A wait made again sleeps to the deadline it had first. -/
theorem Inv.sleeps {a : Again} (ha : a ∈ t.again)
    (hinside : a.inside = false) (hcall : futexCall t.trapframe = some (w, absolute))
    (hd : (futexWait t.restart w m absolute).2.2 = some d) : d = a.first := by
  obtain ⟨⟨w', hsaved, hcall', _⟩, hresumes, hregs⟩ := h a ha
  simp only [hinside, hidle, Bool.false_eq_true, if_false, or_false] at hresumes
  rw [hregs hinside, userRegs, hidle] at hcall'
  obtain ⟨rfl, _⟩ := Prod.mk.inj (Option.some.inj (hcall.symm.trans hcall'))
  obtain ⟨hnone, _⟩ | ⟨d', _, _, hsame, hout⟩ := futexWait_cases t.restart w m absolute
  · exact nomatch hnone.symm.trans hd
  · rw [hout, futexWaitEnd_deadline] at hd
    rw [← Option.some.inj hd, hsame a.first hsaved hresumes]

theorem Inv.ecall_wait (hlater : later t = none)
    (hcall : futexCall t.trapframe = some (w, absolute)) : Inv (ecall m t) := by
  unfold ecall
  simp only [hcall, hlater, Option.or_none]
  intro a ha
  obtain ⟨hnone, _⟩ | ⟨d, armed, ⟨rfl, htimed⟩, _, hout⟩ := futexWait_cases t.restart w m absolute
  · simp [hnone] at ha
  unfold futexWaitEnd at hout
  split_ifs at hout
  · simp only [hout, if_true, Option.map_some, Option.mem_some] at ha ⊢
    subst ha
    have hfirst : ((t.again.filter (!·.inside)).map (·.first)).getD d = d := by
      cases hold : t.again.filter (!·.inside) with
      | none => rfl
      | some =>
        obtain ⟨hmem, hinside⟩ := Option.mem_filter_iff.mp hold
        exact (h.sleeps hidle hmem (by simpa using hinside) hcall (congrArg (·.2.2) hout)).symm
    rw [hfirst]
    exact ⟨⟨w, rfl, hcall, htimed⟩, .inr (by simp [syscall]), fun _ => by simp [syscall, userRegs]⟩
  -- the wait is over: its result is not that of a call to be made again
  all_goals
    rw [hout] at ha
    exact nomatch ha

theorem Inv.ecall
    (hquiet : ∀ a ∈ later t, futexCall t.trapframe = none ∧ (t.trapframe.a7 = 139 → m.frame = some a.regs)) :
    Inv (ecall m t) := by
  have hkept : ∀ {result}, Inv (syscall t result) := fun a ha => by
    obtain ⟨hinside, hholds, hresumes⟩ := h.of_later ha
    exact .of_inside hinside hholds hresumes
  cases hcall : futexCall t.trapframe with
  | some =>
    refine h.ecall_wait hidle (Option.eq_none_iff_forall_not_mem.mpr fun a ha => ?_) hcall
    exact nomatch hcall.symm.trans (hquiet a ha).1
  | none =>
    unfold Restart.ecall
    rw [hcall]
    dsimp only
    split_ifs with h139
    · unfold sysLinuxRtSigreturn
      split
      · exact hkept
      intro a' ha'
      obtain ⟨a, ha, rfl⟩ := Option.mem_map.mp ha'
      obtain rfl := Option.some.inj (((hquiet a ha).2 h139).symm.trans (by assumption))
      obtain ⟨_, hholds, hresumes⟩ := h.of_later ha
      obtain ⟨hholds, hresume⟩ := hholds.sigreturn hresumes
      exact ⟨hholds, .inl hresume, fun _ => rfl⟩
    · exact hkept

end

theorem Holds.signal (h : Holds r regs d) {throughHandler : Bool} :
    Holds (futexRestartSignal r throughHandler) regs d ∧
      (futexRestartSignal r throughHandler).armed = throughHandler ∧
      (futexRestartSignal r throughHandler).resume = !throughHandler := by
  obtain ⟨w, hsaved, hcall⟩ := h
  rw [futexRestartSignal, if_pos (by rw [hsaved]; rfl)]
  exact ⟨⟨w, hsaved, hcall⟩, rfl, rfl⟩

theorem Inv.restartSyscall (h : Inv t) {restart : Bool} {throughHandler : Bool}
    (hquiet : later t = none ∨ restart = true)
    {t' : Thread} (ht : signalRestartSyscall t restart throughHandler = t') :
    t'.syscallRestart = false ∧ ∀ a ∈ t'.again, Holds t'.restart a.regs a.first ∧
      (t'.restart.resume = true ∨ (a.inside = true ∨ throughHandler = true) ∧ t'.restart.armed = true) ∧
      (a.inside = false → a.regs = t'.trapframe) := by
  subst ht
  unfold signalRestartSyscall
  cases hs : t.syscallRestart with
  | false =>
    refine ⟨hs, fun a ha => ?_⟩
    obtain ⟨hholds, hresumes, hregs⟩ := h a ha
    rw [userRegs, hs] at hregs
    refine ⟨hholds, hresumes.imp id fun hr => ?_, hregs⟩
    cases hinside : a.inside with
    | true => exact ⟨.inl rfl, by simpa [hinside] using hr⟩
    | false => simp [hinside, hs] at hr
  | true =>
    cases restart with
    | false => exact ⟨rfl, fun a ha => nomatch (hquiet.resolve_right nofun).symm.trans ha⟩
    | true =>
      refine ⟨rfl, fun a ha => ?_⟩
      obtain ⟨hholds, harmed, hresume⟩ := (h a ha).holds.signal
      refine ⟨hholds, ?_, (h a ha).regs⟩
      cases throughHandler with
      | false => exact .inl hresume
      | true => exact .inr ⟨.inr rfl, harmed⟩

theorem Inv.userReturn (h : Inv t) (fromSyscall : Bool) (hidle : fromSyscall = false → t.syscallRestart = false)
    {handler : Option (Bool × Regs)} (hquiet : later t = none ∨ handler = none) :
    Inv (signalUserReturn t fromSyscall handler) ∧
      (signalUserReturn t fromSyscall handler).syscallRestart = false := by
  have hcall : signalUserReturn t fromSyscall handler = signalUserReturn t true handler := by
    cases fromSyscall with
    | true => rfl
    | false => simp [signalUserReturn, signalRestartSyscall, hidle rfl]
  rw [hcall]
  cases handler with
  | none =>
    obtain ⟨hs, hready⟩ := h.restartSyscall (.inr rfl) rfl
    refine ⟨fun a ha => ?_, hs⟩
    obtain ⟨hholds, hresumes, hregs⟩ := hready a ha
    refine ⟨hholds, hresumes.imp id fun hr => ?_, fun hi => ?_⟩
    · rw [if_pos (hr.1.resolve_right nofun)]
      exact hr.2
    · rw [hregs hi, userRegs, if_neg (by rw [show (signalUserReturn t true none).syscallRestart = _ from hs]; nofun)]
      rfl
  | some =>
    obtain ⟨hs, hready⟩ := h.restartSyscall (.inl (hquiet.resolve_right nofun)) rfl
    refine ⟨fun a' ha' => ?_, hs⟩
    obtain ⟨a, ha, rfl⟩ := Option.mem_map.mp ha'
    obtain ⟨hholds, hresumes, _⟩ := hready a ha
    exact .of_inside rfl hholds (hresumes.imp id And.right)

theorem Inv.step (h : Inv t) (hidle : t.syscallRestart = false) {e : Event} (hquiet : quiet t e) :
    Inv (step t e) ∧ (step t e).syscallRestart = false := by
  cases e with
  | user =>
    refine ⟨fun a ha => ?_, hidle⟩
    obtain ⟨hinside, hholds, hresumes⟩ := h.of_later ha
    exact .of_inside hinside hholds hresumes
  | leave => exact ⟨nofun, hidle⟩
  | ecall => exact (h.ecall hidle hquiet.1).userReturn true nofun hquiet.2
  | interrupt => exact h.userReturn false (fun _ => hidle) hquiet

theorem Inv.run (h : Inv t) (hidle : t.syscallRestart = false) {events : List Event} (hquiet : quietRun t events) :
    Inv (run t events) ∧ (run t events).syscallRestart = false := by
  induction events generalizing t with
  | nil => exact ⟨h, hidle⟩
  | cons e events ih =>
    obtain ⟨h, hidle⟩ := h.step hidle hquiet.1
    exact ih h hidle hquiet.2

/-- **A wait made again keeps its deadline**, if the handlers are quiet; and every wait that takes its deadline
    from the record has the arguments of an earlier one with this deadline. -/
theorem restarted_wait_deadline (regs : Regs) (events : List Event) :
    let t := run (.boot regs) events
    (quietRun (.boot regs) events → ∀ a ∈ t.again, a.inside = false → ∀ w absolute,
      futexCall t.trapframe = some (w, absolute) → ∀ m d, (futexWait t.restart w m absolute).2.2 = some d →
      d ≤ a.first) ∧
    ∀ w d, (futexRestartTake t.restart w).1 = some d → (w, d) ∈ t.slept := by
  refine ⟨fun hquiet a ha hinside w absolute hcall m d hd => ?_, fun w d hd => ?_⟩
  · obtain ⟨h, hidle⟩ := Inv.run (t := .boot regs) nofun rfl hquiet
    exact h.sleeps hidle ha hinside hcall hd ▸ UInt64.le_refl _
  · refine recorded_run (t := .boot regs) nofun events _ ?_
    rcases futexRestartTake_cases (run (.boot regs) events).restart w with ⟨d', hsaved, _, htake⟩ | ⟨htake, _⟩
    · rw [hsaved, Option.some.inj ((congrArg (·.1) htake).symm.trans hd)]
    · exact nomatch (congrArg (·.1) htake).symm.trans hd

/-- The registers at a wait of a millisecond on the word at `address`, by the `ecall` at `epc`. -/
def waitRegs (epc address : UInt64) : Regs := ⟨epc, address, 0, 0, 64, 0, 98⟩

/-- A wait that begins at `now` and ends with `sleep`, on a clock of 1 kHz. -/
def waitMeets (now : UInt64) (sleep : Int) : Meets :=
  ⟨0, 1, 1, some 0, true, 1000, now, sleep, 0, some (waitRegs 8 128)⟩

/-- A wait is interrupted by a handler with `SA_RESTART`, which makes the call that `regs` ask for and returns. -/
def handled (regs : Regs) : Thread :=
  run (.boot (waitRegs 8 128)) [.ecall (waitMeets 5 waitQueueInterrupted) (some (true, regs)),
    .ecall (waitMeets 6 waitQueueTimeout) none, .user ⟨24, 0, 0, 0, 0, 0, 139⟩, .ecall (waitMeets 7 0) none]

theorem restarted_wait_handled : let t := handled ⟨16, 0, 0, 0, 0, 0, 172⟩
    t.again = some ⟨waitRegs 8 128, 6, false⟩ ∧
      ∀ m d, (futexWait t.restart ⟨8, 128, false, 0, 64, 0xffffffff⟩ m false).2.2 = some d → d ≤ 6 := by
  refine ⟨by decide +kernel, (restarted_wait_deadline _ _).1 ?_ ⟨waitRegs 8 128, 6, false⟩ (by decide +kernel) rfl
    _ _ (by decide +kernel)⟩
  simp only [quietRun, quiet]
  decide +kernel

/-- The handler waits for another word. The wait it has interrupted is made again with a later deadline. -/
theorem restarted_wait_late : let t := handled (waitRegs 16 256)
    t.again = some ⟨waitRegs 8 128, 6, false⟩ ∧ t.trapframe = waitRegs 8 128 ∧
      (futexWait t.restart ⟨8, 128, false, 0, 64, 0xffffffff⟩ (waitMeets 8 0) false).2.2 = some 9 := by
  decide +kernel

end Caffeinix.Restart
