import Caffeinix.Sched.FutexInvariant

/-!
# `Sched.FutexRun` — the futex table over whole runs

Every step keeps `FutexInv`, with one exception that is counted: a thread that is terminated in its sleep goes to
`process_thread_exit` from inside `futex_wait` and does not give its slot back. `futex_slots_counted` is what
holds as long as that does not happen, and `futex_slot_lost` is a run in which it does.
-/

namespace Caffeinix.Sched

open Bool Runs Waits Option

variable {Tid Other Process : Type} [DecidableEq Tid] [DecidableEq Other]
variable {c : Slot → Nat} {s : Futexes Tid Other Process}

/-! ## The calls -/

/-- Somebody else's slot is lost with him. -/
def lose (c : Slot → Nat) : Option Slot → Slot → Nat
  | none => c
  | some slot => Function.update c slot (c slot + 1)

omit [DecidableEq Other] in
theorem futexWaitFinish_ending {t : Tid} {result : Int} : (futexWaitFinish s t result).2 ≠ .exits := by
  unfold futexWaitFinish
  cases (s.waits.thread t).waitPrivate <;> simp

variable {t : Tid} {bitset : Nat}

/-- The sleep of `futex_wait`, with its three endings. -/
theorem FutexCore.futexWaitSleep (hC : FutexCore c s)
    (hrest : ∀ u, s.inWait u → u ≠ t → (s.waits.thread u).asleep) (ht : s.waits.runs t) {slot : Slot}
    (hon : s.waitsOn slot t) (hbits : (s.waits.thread t).waitBitset &&& bitsetAll ≠ 0) (timeout : Timeout)
    {pending : Bool} {between : Between} :
    let r := futexWaitSleep s t slot timeout pending between
    (r.2 ≠ .exits ∧ FutexInv c r.1) ∨ (r.2 = .exits ∧ (r.1.waits.thread t).waitPrivate = some slot ∧
        FutexInv (lose c (some slot)) r.1) := by
  have hblocks := hC.waits.waitQueueSleep_blocks ht (.inl slot) timeout.call pending between
  have hawake := hC.waits.waitQueueSleep_awake ht (.inl slot) timeout.call pending between
  unfold Sched.futexWaitSleep
  rcases hsleep : waitQueueSleep s.waits t (.inl slot) true timeout.call pending between with ⟨waits, ending⟩
  rw [hsleep] at hblocks hawake
  -- a sleep that does not block leaves the thread as it was, as far as the table goes
  have hcore : ending ≠ .blocks → FutexCore c { s with waits := waits } ∧
      ({ s with waits := waits } : Futexes Tid Other Process).waitsOn slot t ∧ waits.runs t ∧
      ∀ u, s.inWait u → u ≠ t → (waits.thread u).asleep := by
    intro hend
    obtain ⟨thread, heq, hw, hrun, hasleep, hset⟩ := hawake hend
    subst heq
    refine ⟨hC.write (running_of_runs ht) hw (.inl (.inr (.inl hrun))) hset,
      ⟨hon.1, by simp [hset.1, hon.2]⟩, by simp [runs, hrun, hasleep], fun u hu he => ?_⟩
    rw [set_thread_ne he]
    exact hrest u hu he
  cases ending with
  | blocks =>
    obtain ⟨deadline, mode, heq⟩ := hblocks rfl
    subst heq
    exact .inl ⟨by simp, hC.blocked hrest ht hon hbits deadline mode⟩
  | returns result =>
    obtain ⟨hcore, hon', hruns, hrest'⟩ := hcore (by simp)
    exact .inl ⟨futexWaitFinish_ending, hcore.finish hrest' hruns hon'.1 result⟩
  | exits =>
    obtain ⟨hcore, hon', hruns, hrest'⟩ := hcore (by simp)
    exact .inr ⟨rfl, hon'.2, hcore.leave hrest' hruns hon'⟩

theorem bitset_meets_all (h : bitset % 2 ^ 32 ≠ 0) : bitset % 2 ^ 32 &&& bitsetAll ≠ 0 := by
  have hall : bitset % 2 ^ 32 &&& bitsetAll = bitset % 2 ^ 32 := by
    show bitset % 2 ^ 32 &&& (2 ^ 32 - 1) = bitset % 2 ^ 32
    rw [Nat.and_two_pow_sub_one_eq_mod, Nat.mod_mod]
  rw [hall]
  exact h

variable [DecidableEq Process]

/-- `futex_wait` fails at once, for want of a slot or otherwise, or has a slot and goes to sleep with it. -/
theorem futexWait_cases (s : Futexes Tid Other Process) (t : Tid) (key : FutexKey Process) (value : Option Nat)
    (expected bitset : Nat) (timeout : Timeout) (pending : Bool) (between : Between) :
    let after := Sched.futexWait s t key value expected bitset timeout pending between
    (∃ error, after = (s, .returns error) ∧ (error = -linuxEnomem → futexSlotGetLocked s key = none)) ∨
      (bitset ≠ 0 ∧ value = some expected ∧ ∃ slot s', futexSlotGetLocked s key = some (slot, s') ∧
        after = futexWaitSleep (futexWaitEnter s' t slot bitset) t slot timeout pending between) := by
  simp only [Sched.futexWait]
  by_cases hb : bitset = 0
  · exact .inl ⟨_, if_pos hb, (absurd · (by decide))⟩
  rw [if_neg hb]
  cases value with
  | none => exact .inl ⟨_, rfl, (absurd · (by decide))⟩
  | some value =>
    by_cases hv : value ≠ expected
    · exact .inl ⟨_, if_pos hv, (absurd · (by decide))⟩
    · cases hget : futexSlotGetLocked s key with
      | none => exact .inl ⟨_, if_neg hv, fun _ => rfl⟩
      | some got => exact .inr ⟨hb, congrArg some (not_not.1 hv), got.1, got.2, rfl, if_neg hv⟩

section
variable (hI : FutexInv c s)
include hI

/-- `futex_wait`. -/
theorem FutexInv.futexWait (ht : s.waits.runs t) (key : FutexKey Process) (value : Option Nat)
    (expected bitset : Nat) (timeout : Timeout) (pending : Bool) (between : Between) :
    let after := Sched.futexWait s t key value expected (bitset % 2 ^ 32) timeout pending between
    (after.2 ≠ .exits ∧ FutexInv c after.1) ∨
      (after.2 = .exits ∧ ∃ slot, (after.1.waits.thread t).waitPrivate = some slot ∧
        FutexInv (lose c (some slot)) after.1) := by
  intro after
  rcases futexWait_cases s t key value expected (bitset % 2 ^ 32) timeout pending between with
    ⟨error, heq, -⟩ | ⟨hb, -, slot, s', hget, heq⟩
  · exact .inl (by rw [show after = _ from heq]; exact ⟨nofun, hI⟩)
  rw [show after = _ from heq]
  obtain ⟨hC, hruns⟩ := hI.enter ht hget (bitset % 2 ^ 32)
  have hgot := (hI.toFutexCore.got hget).slots
  have hself : (futexWaitEnter s' t slot (bitset % 2 ^ 32)).waitsOn slot t := by
    simp [Futexes.waitsOn, futexWaitEnter, setWait]
  have hbits : ((futexWaitEnter s' t slot (bitset % 2 ^ 32)).waits.thread t).waitBitset &&& bitsetAll ≠ 0 := by
    simpa [futexWaitEnter, setWait] using bitset_meets_all hb
  have hrest : ∀ u, (futexWaitEnter s' t slot (bitset % 2 ^ 32)).inWait u → u ≠ t →
      ((futexWaitEnter s' t slot (bitset % 2 ^ 32)).waits.thread u).asleep := by
    intro u hu he
    have hthread : (futexWaitEnter s' t slot (bitset % 2 ^ 32)).waits.thread u = s'.waits.thread u :=
      set_thread_ne he
    rw [hthread, hgot]
    exact hI.asleep u (by simpa [futexWaitEnter, he, hgot] using hu)
  rcases hC.futexWaitSleep hrest hruns hself hbits timeout with h | ⟨hexits, hslot, hI'⟩
  · exact .inl h
  · exact .inr ⟨hexits, slot, hslot, hI'⟩

omit [DecidableEq Process] [DecidableEq Other] in
/-- A thread comes back from a sleep. -/
theorem FutexInv.futexResume (ht : s.waits.returns t) :
    let after := Sched.futexResume s t
    (¬(after.2 = .exits ∧ s.inWait t) ∧ FutexInv c after.1) ∨
      (after.2 = .exits ∧ s.inWait t ∧ ∃ slot, (s.waits.thread t).waitPrivate = some slot ∧
        FutexInv (lose c (some slot)) after.1) := by
  obtain ⟨thread, hresume, hw, hrun, hawake, hset⟩ := hI.waits.waitQueueResume_awake ht
  have hstate : (s.waits.thread t).state = .running := by
    simpa using (and_eq_true_iff.1 ht).1
  have hC := hI.toFutexCore.write hstate hw (.inl (.inr (.inl hrun))) hset
  have hrest : ∀ u, s.inWait u → u ≠ t → ((s.waits.set t thread).thread u).asleep := by
    intro u hu he
    rw [set_thread_ne he]
    exact hI.asleep u hu
  have hruns : (s.waits.set t thread).runs t := by simp [runs, hrun, hawake]
  -- nothing to do for a thread that was asleep elsewhere
  have hidle : s.inWait t = false → FutexInv c { s with waits := s.waits.set t thread } := by
    intro hin
    refine { hC with asleep := fun u hu => hrest u hu fun he => ?_ }
    have hu' : s.inWait u = true := hu
    rw [he, hin] at hu'
    exact Bool.noConfusion hu'
  intro after
  simp only [after, Sched.futexResume, hresume]
  by_cases hterm : (s.waits.thread t).waitResult = waitQueueTerminated
  · simp only [if_pos hterm]
    cases hin : s.inWait t with
    | false =>
      refine .inl ⟨by simp, ?_⟩
      have hsame : Function.update s.inWait t false = s.inWait := by
        rw [← hin]
        exact Function.update_eq_self t s.inWait
      simp only [leaveForExit, hsame]
      exact { hidle hin with }
    | true =>
      obtain ⟨slot, hslot⟩ := hI.hasSlot t hin
      refine .inr ⟨rfl, rfl, slot, hslot, ?_⟩
      exact hC.leave hrest hruns ⟨hin, by simp [hset.1, hslot]⟩
  · simp only [if_neg hterm]
    cases hin : s.inWait t with
    | false =>
      exact .inl ⟨by simp, hidle hin⟩
    | true =>
      refine .inl ⟨fun h => futexWaitFinish_ending h.1, ?_⟩
      exact hC.finish hrest hruns hin _

/-- `futex_wake`. -/
theorem FutexInv.futexWake (key : FutexKey Process) (count : Int) (bitset : Nat) :
    FutexInv c (futexWake s key count bitset).1 := by
  unfold Sched.futexWake futexWakeKeyLocked
  split_ifs
  · exact hI
  · cases futexSlotFindLocked s key with
    | none => exact hI
    | some slot => exact hI.wakeMask slot count bitset

/-- `futex_requeue`, past its checks. -/
theorem FutexInv.requeue {source destination : FutexKey Process} (hne : source ≠ destination)
    (wakeCount requeueCount : Int) :
    FutexInv c (futexRequeue.requeue s source destination wakeCount requeueCount).1 := by
  unfold futexRequeue.requeue
  split
  · exact hI
  rename_i slot hfind
  obtain ⟨hactive, hkey⟩ := futexSlotFindLocked_eq_some hfind
  have hI' := hI.wakeMask slot wakeCount bitsetAll
  simp only
  split
  · exact hI'
  cases hget : futexSlotGetLocked
      { s with waits := (waitQueueWakeMask s.waits (.inl slot) wakeCount bitsetAll).1 } destination with
  | none => exact hI'
  | some got =>
    obtain ⟨target, s'⟩ := got
    have hgot := hI'.toFutexCore.got hget
    have hwaits : s'.waits = (waitQueueWakeMask s.waits (.inl slot) wakeCount bitsetAll).1 := by
      rw [hgot.slots]
    have hst := hgot.ne hactive (by rw [hkey]; exact hne)
    have hmove := hI'.waits.waitQueueRequeue_eq
      (show (Sum.inl slot : Slot ⊕ Other) ≠ .inl target by simpa using hst) requeueCount (some target)
    obtain ⟨hlen, hdone⟩ := hI'.requeued hgot hactive (by rw [hkey]; exact hne)
      (List.take_sublist requeueCount.toNat _)
    simp only [hwaits, hmove]
    rw [if_neg (Nat.not_lt.2 hlen)]
    exact hdone

theorem FutexInv.futexRequeue (source destination : FutexKey Process) (wakeCount requeueCount : Int)
    (compare : Option (Option Nat × Nat)) :
    FutexInv c (futexRequeue s source destination wakeCount requeueCount compare).1 := by
  unfold Sched.futexRequeue
  split_ifs with hneg hsame
  · exact hI
  · exact hI
  have hdone := hI.requeue hsame wakeCount requeueCount
  cases compare with
  | none => exact hdone
  | some pair =>
    obtain ⟨value, expected⟩ := pair
    cases value with
    | none => exact hI
    | some =>
      simp only
      split_ifs
      · exact hI
      · exact hdone

omit [DecidableEq Other] [DecidableEq Process] in
/-- A thread outside `futex_wait` has its own fields written to. -/
theorem FutexInv.exitWrite (ht : s.waits.runs t) {thread : Thread (Slot ⊕ Other) Slot}
    (hw : Writes (s.waits.thread t) thread)
    (hset : thread.waitPrivate = (s.waits.thread t).waitPrivate ∧ thread.waitBitset = (s.waits.thread t).waitBitset) :
    FutexInv c { s with waits := s.waits.set t thread } := by
  have hout := hI.not_inWait ht
  refine ⟨hI.toFutexCore.write (running_of_runs ht) hw (.inr hout) hset, fun u hu => ?_⟩
  have hu' : s.inWait u = true := hu
  have he : u ≠ t := by
    rintro rfl
    rw [hout] at hu'
    exact Bool.noConfusion hu'
  rw [set_thread_ne he]
  exact hI.asleep u hu'

/-! ## Every step, every run -/

/-- The slot that is not given back, because a thread leaves `futex_wait` for `process_thread_exit`. -/
def Futexes.lost (s : Futexes Tid Other Process) (a : FutexAction Tid Other Process) : Option Slot :=
  match a with
  | .wait t _ _ _ _ _ _ _ =>
    if (s.perform a).2 = some .exits then ((s.step a).waits.thread t).waitPrivate else none
  | .resume t => if (s.perform a).2 = some .exits ∧ s.inWait t then (s.waits.thread t).waitPrivate else none
  | _ => none

theorem FutexInv.step (a : FutexAction Tid Other Process) : FutexInv (lose c (s.lost a)) (s.step a) := by
  cases a with simp only [Futexes.lost, Futexes.step, Futexes.perform]
  | wait t key value expected bitset timeout pending between =>
    by_cases ht : (s.waits.runs t && !s.exiting t) = true
    · simp only [if_pos ht]
      have hrun := (and_eq_true_iff.1 ht).1
      rcases hI.futexWait hrun key value (expected % 2 ^ 32) bitset timeout pending between with
        ⟨hend, hI'⟩ | ⟨hend, slot, hslot, hI'⟩
      · rw [if_neg fun h => hend (some.inj h)]
        exact hI'
      · rw [if_pos (by rw [hend]), hslot]
        exact hI'
    · simp only [if_neg ht]
      exact hI
  | wake key count bitset => exact hI.futexWake key count (bitset % 2 ^ 32)
  | requeue source destination wakeCount requeueCount compare =>
    exact hI.futexRequeue source destination wakeCount requeueCount compare
  | resume t =>
    by_cases ht : s.waits.returns t
    · simp only [if_pos ht]
      rcases hI.futexResume ht with ⟨hend, hI'⟩ | ⟨hend, hin, slot, hslot, hI'⟩
      · rw [if_neg fun h => hend ⟨some.inj h.1, h.2⟩]
        exact hI'
      · rw [if_pos ⟨by rw [hend], hin⟩, hslot]
        exact hI'
    · simp only [if_neg ht]
      exact hI
  | sleep t queue call pending between =>
    split_ifs with ht
    · have hstep : s.waits.step (.sleep t (.inr queue) call pending between) =
          (waitQueueSleep s.waits t (.inr queue) true call pending between).1 := if_pos ht
      have hI' := fun exiting => hI.moves_step (.sleep t (.inr queue) call pending between) rfl rfl
        (fun u q _ _ _ h => by
          obtain ⟨rfl, rfl, -⟩ := Action.sleep.inj h
          exact ⟨⟨queue, rfl⟩, hI.not_inWait ht⟩) exiting
      rw [hstep] at hI'
      rcases hsleep : waitQueueSleep s.waits t (.inr queue) true call pending between with ⟨waits, ending⟩
      rw [hsleep] at hI'
      cases ending with
      | exits | returns result | blocks => exact hI' _
    · exact hI
  | beginExit =>
    split_ifs with ht
    · exact { hI with }
    · exact hI
  | clearExitRequest =>
    split_ifs with ht
    · have hrun := (and_eq_true_iff.1 ht).1
      exact hI.exitWrite hrun (hI.waits.writes_running hrun rfl rfl rfl (not_sleeping_of_runs hrun) rfl)
        ⟨rfl, rfl⟩
    · exact hI
  | exit =>
    split_ifs with ht
    · have hrun := (and_eq_true_iff.1 ht).1
      exact hI.exitWrite hrun (hI.waits.writes_running hrun rfl rfl rfl (by simp) rfl) ⟨rfl, rfl⟩
    · exact hI
  | elsewhere a =>
    cases he : (a.elsewhere : Option (Action Tid (Slot ⊕ Other) Slot)) with
    | none => exact hI
    | some a' =>
      simp only
      split_ifs with hsets
      · exact hI
      have hends : a'.ends = false ∧ ∀ t queue call pending between,
          a' ≠ .sleep t queue call pending between := by
        cases a <;> simp only [Action.elsewhere, some.injEq, reduceCtorEq] at he <;> subst he <;>
          exact ⟨rfl, by simp⟩
      exact hI.moves_step a' hends.1 (eq_false_iff.2 hsets)
        (fun t queue call pending between h => absurd h (hends.2 t queue call pending between)) _

/-- What the slots have lost in a run. -/
def Futexes.losses (s : Futexes Tid Other Process) (c : Slot → Nat) (a : FutexAction Tid Other Process) :
    Slot → Nat := lose c (s.lost a)

/-- The state after a run from boot. -/
def Futexes.run (l : List (FutexAction Tid Other Process)) : Futexes Tid Other Process :=
  l.foldl Futexes.step Futexes.boot

omit hI in
theorem FutexInv.run (l : List (FutexAction Tid Other Process)) :
    FutexInv (record Futexes.step Futexes.losses Futexes.boot (fun _ => 0) l) (.run l) := by
  exact Along.invariant (p := fun _ _ => True) (fun _ _ a hI _ => hI.step a) FutexInv.boot
    (.of_forall (fun _ _ => trivial) _ l)

omit hI in
/-- `futex_wait` reports exhaustion when it gets no slot, and not otherwise. -/
theorem futexWait_enomem {key : FutexKey Process} {value : Option Nat} {expected : Nat} {timeout : Timeout}
    {pending : Bool} {between : Between}
    (h : (futexWait s t key value expected bitset timeout pending between).2 = .returns (-linuxEnomem)) :
    futexSlotGetLocked s key = none := by
  have hfinish : ∀ (s : Futexes Tid Other Process) result,
      (futexWaitFinish s t result).2 ≠ .returns (-linuxEnomem) := by
    intro s result
    unfold futexWaitFinish
    cases (s.waits.thread t).waitPrivate with
    | none => simp
    | some =>
      simp only [ne_eq, Sleep.returns.injEq]
      split_ifs <;> decide
  rcases futexWait_cases s t key value expected bitset timeout pending between with
    ⟨error, heq, hfull⟩ | ⟨-, -, slot, s', -, heq⟩
  · rw [heq] at h
    exact hfull (Sleep.returns.inj h)
  rw [heq, futexWaitSleep] at h
  split at h
  · exact nomatch h
  · exact nomatch h
  · exact absurd h (hfinish _ _)

/-! ## Counts of the slots -/

/-- The thread is alive and has this slot. -/
def Futexes.liveOn (s : Futexes Tid Other Process) (slot : Slot) (t : Tid) : Prop :=
  (s.waits.thread t).live ∧ (s.waits.thread t).waitPrivate = some slot

/-- Slots, keys and waiters agree. -/
structure SlotsCounted (s : Futexes Tid Other Process) : Prop where
  keys_distinct : ∀ i j, (s.slots i).active → (s.slots j).active → (s.slots i).key = (s.slots j).key → i = j
  waiters_count : ∀ i, Numbers (s.liveOn i) (s.slots i).waiters
  queued_among : ∀ i, ∀ t ∈ s.waits.waiters (.inl i), s.liveOn i t
  inactive_iff : ∀ i, (s.slots i).active = false ↔ ∀ t, ¬s.liveOn i t
  /-- `futex_wait` fails for want of a slot only when 128 keys are waited for -/
  exhausted : ∀ t key value expected bitset timeout pending between,
    (futexWait s t key value expected bitset timeout pending between).2 = .returns (-linuxEnomem) →
      ∃ keys : List (FutexKey Process), keys.Nodup ∧ keys.length = futexSlotCount ∧
        ∀ k ∈ keys, ∃ i u, (s.slots i).key = k ∧ (s.slots i).active ∧ s.liveOn i u

omit [DecidableEq Tid] [DecidableEq Other] [DecidableEq Process] in
/-- With nothing lost, a slot's waiters are the live threads that have it. -/
theorem FutexInv.numbers_liveOn (hc : ∀ i, c i = 0) (i : Slot) : Numbers (s.liveOn i) (s.slots i).waiters := by
  obtain ⟨n, hn, hsum⟩ := hI.count i
  rw [hc i, Nat.add_zero] at hsum
  rw [← hsum]
  refine hn.congr fun t => ⟨fun h => ?_, fun h => ⟨hI.live t h.1, h.2⟩⟩
  exact ⟨hI.settled hc t (by rw [h.2]; simp), h.2⟩

theorem FutexInv.slotsCounted (hc : ∀ i, c i = 0) : SlotsCounted s := by
  have hcount := hI.numbers_liveOn hc
  have hinactive : ∀ i, (s.slots i).active = false ↔ ∀ t, ¬s.liveOn i t := by
    intro i
    rw [← numbers_zero]
    constructor
    · intro h
      have hzero : (s.slots i).waiters = 0 := by
        by_contra hne
        rw [(hI.active i).2 hne] at h
        exact Bool.noConfusion h
      rw [← hzero]
      exact hcount i
    · intro h
      refine eq_false_iff.2 fun hactive => (hI.active i).1 hactive ?_
      by_contra hne
      obtain ⟨l, -, hmem, hlen⟩ := hcount i
      obtain ⟨t, ht⟩ := List.exists_mem_of_ne_nil l fun hl => hne (by rw [← hlen, hl]; rfl)
      exact numbers_zero.1 h t ((hmem t).1 ht)
  exact {
    keys_distinct := hI.distinct
    waiters_count := hcount
    queued_among := by
      intro i t ht
      obtain ⟨hon, -⟩ := hI.queued t i ((hI.waits.mem t _).1 ht)
      exact ⟨hI.live t hon.1, hon.2⟩
    inactive_iff := hinactive
    exhausted := by
      intro t key value expected bitset timeout pending between h
      have hfull := futexSlotGetLocked_eq_none (futexWait_enomem h)
      refine ⟨(List.finRange futexSlotCount).map fun i => (s.slots i).key, ?_, by simp, fun k hk => ?_⟩
      · refine (List.nodup_finRange _).map_on fun i _ j _ he => ?_
        exact hI.distinct i j (hfull i).1 (hfull j).1 he
      · obtain ⟨i, -, hi⟩ := List.mem_map.1 hk
        have hsome : ∃ u, s.liveOn i u := by
          by_contra hno
          have hoff := (hinactive i).2 fun u hu => hno ⟨u, hu⟩
          rw [(hfull i).1] at hoff
          exact Bool.noConfusion hoff
        obtain ⟨u, hu⟩ := hsome
        exact ⟨i, u, hi, (hfull i).1, hu⟩ }

end

theorem FutexInv.run_keeps {l : List (FutexAction Tid Other Process)}
    (hl : Along Futexes.step (fun s a => s.lost a = none) Futexes.boot l) : FutexInv (fun _ => 0) (.run l) := by
  refine hl.foldl (fun s a hI ha => ?_) FutexInv.boot
  have hstep := hI.step a
  rwa [ha] at hstep

/-- **The slot table is right**, in every run in which no thread leaves `futex_wait` for `process_thread_exit`. -/
theorem futex_slots_counted (l : List (FutexAction Tid Other Process))
    (hl : Along Futexes.step (fun s a => s.lost a = none) Futexes.boot l) : SlotsCounted (.run l) :=
  (FutexInv.run_keeps hl).slotsCounted fun _ => rfl

/-- The key of a word in a process' own memory. -/
def wordKey : FutexKey Nat := ⟨some 0, 0x1000, false⟩

/-- A thread that waits for a word. -/
def waitsForWord : List (FutexAction Unit Unit Nat) :=
  [.elsewhere (.alloc ()), .elsewhere (.start ()), .elsewhere (.schedule ()),
    .wait () wordKey (some 7) 7 bitsetAll .never false ⟨false, false⟩]

/-- It is terminated there. -/
def terminatedInWait : List (FutexAction Unit Unit Nat) :=
  waitsForWord ++ [.elsewhere (.requestExit ()), .elsewhere (.terminateThread ()), .elsewhere (.schedule ()),
    .resume (), .clearExitRequest (), .exit ()]

/-- Its slot has a waiter for ever, though no thread is left. -/
theorem futex_slot_lost :
    let s := Futexes.run terminatedInWait
    (∀ t, ¬(s.waits.thread t).live) ∧ ∃ slot, (s.slots slot).active ∧ (s.slots slot).waiters = 1 :=
  ⟨fun () => by decide +kernel, ⟨0, by decide⟩, by decide +kernel⟩

/-- Woken, it gives the slot back. -/
theorem futex_slot_returned :
    SlotsCounted (.run (waitsForWord ++ [.wake wordKey 1 bitsetAll, .elsewhere (.schedule ()), .resume ()])) :=
  futex_slots_counted _ (by decide +kernel)

/-- **What exits inside `futex_wait` cost**, in every run: the count of a slot is the number of threads that are in
    `futex_wait` with it and of those that have left for `process_thread_exit`, so each of these keeps the slot in
    use. -/
theorem futex_losses_counted (l : List (FutexAction Tid Other Process)) :
    let s := Futexes.run l
    let lost := record Futexes.step Futexes.losses Futexes.boot (fun _ => 0) l
    (∀ i, ∃ n, Numbers (s.waitsOn i) n ∧ (s.slots i).waiters = n + lost i ∧
      ((s.slots i).active = true ↔ 0 < n + lost i)) ∧
    (∀ i j, (s.slots i).active → (s.slots j).active → (s.slots i).key = (s.slots j).key → i = j) ∧
    ∀ t i, t ∈ s.waits.waiters (.inl i) → s.waitsOn i t := by
  intro s lost
  have hI : FutexInv lost s := .run l
  refine ⟨fun i => ?_, hI.distinct, fun t i ht => (hI.queued t i ((hI.waits.mem t _).1 ht)).1⟩
  obtain ⟨n, hn, hsum⟩ := hI.count i
  refine ⟨n, hn, hsum.symm, ?_⟩
  rw [hI.active i, hsum]
  exact Nat.pos_iff_ne_zero.symm

end Caffeinix.Sched
