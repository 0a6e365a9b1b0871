import Caffeinix.Lib.Census
import Caffeinix.Sched.Futex
import Mathlib.Data.List.FinRange

/-!
# `Sched.FutexInvariant` — slots, waiters and keys

`FutexInv c` says that the table and the threads agree, where `c` counts for each slot the waiters that have left
`futex_wait` for `process_thread_exit` and have not given the slot back: the number of waiters in a slot is the
number of the threads in `futex_wait` that have it, and these.

A thread that has come back from its sleep, or has not gone to sleep yet, is in `futex_wait` and runs. `FutexCore`
is what holds there as well.
-/

namespace Caffeinix.Sched

open Futexes Waits Option List
open Function (update update_apply update_eq_self update_of_ne update_self)

variable {Tid Other Process : Type}

/-- The thread is in `futex_wait` with this slot. -/
def Futexes.waitsOn (s : Futexes Tid Other Process) (slot : Slot) (t : Tid) : Prop :=
  s.inWait t ∧ (s.waits.thread t).waitPrivate = some slot

structure FutexCore (c : Slot → Nat) (s : Futexes Tid Other Process) : Prop where
  waits : WaitInv s.waits
  panic : s.panic = none
  distinct : ∀ i j, (s.slots i).active → (s.slots j).active → (s.slots i).key = (s.slots j).key → i = j
  active : ∀ i, (s.slots i).active = true ↔ (s.slots i).waiters ≠ 0
  count : ∀ i, ∃ n, Numbers (s.waitsOn i) n ∧ n + c i = (s.slots i).waiters
  live : ∀ t, s.inWait t → (s.waits.thread t).live
  hasSlot : ∀ t, s.inWait t → ∃ i, (s.waits.thread t).waitPrivate = some i
  queued : ∀ t i, (s.waits.thread t).waitingOn = some (.inl i) →
    s.waitsOn i t ∧ (s.waits.thread t).waitBitset &&& bitsetAll ≠ 0
  away : ∀ t queue, s.inWait t → (s.waits.thread t).waitingOn ≠ some (.inr queue)
  /-- as long as no slot has been lost, only threads in `futex_wait` have one -/
  settled : (∀ i, c i = 0) → ∀ t, (s.waits.thread t).waitPrivate ≠ none → s.inWait t

structure FutexInv (c : Slot → Nat) (s : Futexes Tid Other Process) : Prop extends FutexCore c s where
  asleep : ∀ t, s.inWait t → (s.waits.thread t).asleep

/-- The part of `FutexCore` about one thread. -/
structure ThreadFutex (c : Slot → Nat) (s : Futexes Tid Other Process) (t : Tid) : Prop where
  live : s.inWait t → (s.waits.thread t).live
  hasSlot : s.inWait t → ∃ i, (s.waits.thread t).waitPrivate = some i
  queued : ∀ i, (s.waits.thread t).waitingOn = some (.inl i) →
    s.waitsOn i t ∧ (s.waits.thread t).waitBitset &&& bitsetAll ≠ 0
  away : ∀ queue, s.inWait t → (s.waits.thread t).waitingOn ≠ some (.inr queue)
  settled : (∀ i, c i = 0) → (s.waits.thread t).waitPrivate ≠ none → s.inWait t

variable {c : Slot → Nat} {s : Futexes Tid Other Process}

theorem FutexCore.thread (h : FutexCore c s) (t : Tid) : ThreadFutex c s t :=
  ⟨h.live t, h.hasSlot t, h.queued t, fun queue => h.away t queue, fun hzero => h.settled hzero t⟩

theorem FutexCore.of_threads (hwaits : WaitInv s.waits) (hpanic : s.panic = none)
    (hdistinct : ∀ i j, (s.slots i).active → (s.slots j).active → (s.slots i).key = (s.slots j).key → i = j)
    (hactive : ∀ i, (s.slots i).active = true ↔ (s.slots i).waiters ≠ 0)
    (hcount : ∀ i, ∃ n, Numbers (s.waitsOn i) n ∧ n + c i = (s.slots i).waiters)
    (h : ∀ t, ThreadFutex c s t) : FutexCore c s :=
  ⟨hwaits, hpanic, hdistinct, hactive, hcount, fun t => (h t).live, fun t => (h t).hasSlot, fun t => (h t).queued,
    fun t queue => (h t).away queue, fun hzero t => (h t).settled hzero⟩

/-- A thread that is left alone. -/
theorem ThreadFutex.congr {c' : Slot → Nat} {s' : Futexes Tid Other Process} {t : Tid}
    (h : ThreadFutex c s t) (hin : s'.inWait t = s.inWait t)
    (hthread : s'.waits.thread t = s.waits.thread t) (hc : (∀ i, c' i = 0) → ∀ i, c i = 0) :
    ThreadFutex c' s' t := by
  obtain ⟨h₁, h₂, h₃, h₄, h₅⟩ := h
  constructor <;> simp only [waitsOn, hin, hthread] <;> try assumption
  exact fun hzero => h₅ (hc hzero)

instance (slot : Slot) (t : Tid) : Decidable (s.waitsOn slot t) := inferInstanceAs (Decidable (_ ∧ _))

/-- One thread has changed, and the slots with it. -/
theorem FutexCore.change [DecidableEq Tid] (hC : FutexCore c s) {c' : Slot → Nat} {s' : Futexes Tid Other Process}
    {t : Tid} (hwaits : WaitInv s'.waits) (hpanic : s'.panic = none)
    (hdistinct : ∀ i j, (s'.slots i).active → (s'.slots j).active → (s'.slots i).key = (s'.slots j).key → i = j)
    (hactive : ∀ i, (s'.slots i).active = true ↔ (s'.slots i).waiters ≠ 0)
    (hothers : ∀ u, u ≠ t → s'.inWait u = s.inWait u ∧ s'.waits.thread u = s.waits.thread u)
    (hc : (∀ i, c' i = 0) → ∀ i, c i = 0) (ht : ThreadFutex c' s' t)
    (hcount : ∀ i, (s.slots i).waiters + c' i + (if s'.waitsOn i t then 1 else 0) =
      (s'.slots i).waiters + c i + if s.waitsOn i t then 1 else 0) : FutexCore c' s' := by
  refine .of_threads hwaits hpanic hdistinct hactive (fun i => ?_) fun u => ?_
  · obtain ⟨n, hn, hsum⟩ := hC.count i
    obtain ⟨m, hm, heq⟩ := hn.change (q := s'.waitsOn i) fun u hu => by
      rw [waitsOn, waitsOn, (hothers u hu).1, (hothers u hu).2]
    have hi := hcount i
    exact ⟨m, hm, by omega⟩
  · by_cases hu : u = t
    · rw [hu]
      exact ht
    · exact (hC.thread u).congr (hothers u hu).1 (hothers u hu).2 hc

theorem FutexInv.boot : FutexInv (fun _ => 0) (Futexes.boot : Futexes Tid Other Process) where
  waits := .boot
  panic := rfl
  distinct := by simp [Futexes.boot]
  active := by simp [Futexes.boot]
  count := fun _ => ⟨0, numbers_zero.2 fun _ h => Bool.noConfusion (show false = true from h.1), rfl⟩
  live := fun _ h => nomatch (show false = true from h)
  hasSlot := fun _ h => nomatch (show false = true from h)
  queued := by simp [Futexes.boot, Waits.boot, Thread.unused]
  away := fun _ _ h => nomatch (show false = true from h)
  settled := fun _ _ h => absurd rfl h
  asleep := fun _ h => nomatch (show false = true from h)

section
variable {c : Slot → Nat} {s : Futexes Tid Other Process}

theorem FutexInv.not_inWait (hI : FutexInv c s) {t : Tid} (ht : s.waits.runs t) : s.inWait t = false := by
  refine Bool.eq_false_iff.2 fun h => ?_
  have hasleep := hI.asleep t h
  rw [not_asleep_of_runs ht] at hasleep
  exact Bool.noConfusion hasleep

/-! ## Finding a slot -/

variable [DecidableEq Process]

variable {key : FutexKey Process} {slot : Slot}

theorem futexSlotFindLocked_eq_some (h : futexSlotFindLocked s key = some slot) :
    (s.slots slot).active ∧ (s.slots slot).key = key := by
  have hp := find?_some h
  simpa using hp

theorem futexSlotFindLocked_eq_none (h : futexSlotFindLocked s key = none) {i : Slot}
    (hi : (s.slots i).active) : (s.slots i).key ≠ key := by
  have hp := find?_eq_none.1 h i (mem_finRange i)
  simpa [hi] using hp

/-- The slot of a key is found. -/
theorem FutexCore.find (hC : FutexCore c s) (h : (s.slots slot).active) :
    futexSlotFindLocked s (s.slots slot).key = some slot := by
  cases hf : futexSlotFindLocked s (s.slots slot).key with
  | none => exact absurd rfl (futexSlotFindLocked_eq_none hf h)
  | some i =>
    obtain ⟨hi, hkey⟩ := futexSlotFindLocked_eq_some hf
    rw [hC.distinct i slot hi h hkey]

/-- A slot for a key: the one it has, or one that was free. -/
structure GotSlot (s : Futexes Tid Other Process) (key : FutexKey Process) (slot : Slot)
    (s' : Futexes Tid Other Process) : Prop where
  slots : s' = { s with slots := update s.slots slot ⟨key, (s.slots slot).waiters, true⟩ }
  others : ∀ i, i ≠ slot → (s.slots i).active → (s.slots i).key ≠ key
  before : ((s.slots slot).active ∧ (s.slots slot).key = key) ∨
    ((s.slots slot).active = false ∧ futexSlotFindLocked s key = none)

section
variable {s' : Futexes Tid Other Process} (h : GotSlot s key slot s')
include s' h

/-- The slot, if it was taken, has the key. -/
theorem GotSlot.key_eq (hactive : (s.slots slot).active) : (s.slots slot).key = key := by
  rcases h.before with hb | hb
  · exact hb.2
  · exact absurd (hb.1.symm.trans hactive) (by simp)

/-- The slot of another key is another one. -/
theorem GotSlot.ne {i : Slot} (hactive : (s.slots i).active) (hkey : (s.slots i).key ≠ key) : i ≠ slot := by
  rintro rfl
  exact hkey (h.key_eq hactive)

end

theorem FutexCore.got (hC : FutexCore c s) {s' : Futexes Tid Other Process}
    (h : futexSlotGetLocked s key = some (slot, s')) : GotSlot s key slot s' := by
  unfold futexSlotGetLocked at h
  split at h
  · rename_i i hf
    obtain ⟨rfl, rfl⟩ := Prod.mk.inj (some.inj h)
    obtain ⟨hi, hkey⟩ := futexSlotFindLocked_eq_some hf
    refine ⟨?_, fun j hj ha he => hj (hC.distinct j i ha hi (he.trans hkey.symm)), .inl ⟨hi, hkey⟩⟩
    have hself : (⟨key, (s.slots i).waiters, true⟩ : FutexSlot Process) = s.slots i := by
      rw [← hkey, ← hi]
    rw [hself, update_eq_self]
  · rename_i hf
    split at h
    · rename_i i hn
      obtain ⟨rfl, rfl⟩ := Prod.mk.inj (some.inj h)
      have hi : (s.slots i).active = false := by simpa using find?_some hn
      have hzero : (s.slots i).waiters = 0 := by
        by_contra hne
        rw [(hC.active i).2 hne] at hi
        exact Bool.noConfusion hi
      refine ⟨by rw [hzero], fun j _ ha => futexSlotFindLocked_eq_none hf ha, .inr ⟨hi, hf⟩⟩
    · exact nomatch h

/-- No slot is to be had when all are taken, by other keys. -/
theorem futexSlotGetLocked_eq_none (h : futexSlotGetLocked s key = none) (i : Slot) :
    (s.slots i).active ∧ (s.slots i).key ≠ key := by
  unfold futexSlotGetLocked at h
  split at h
  · exact nomatch h
  rename_i hf
  split at h
  · exact nomatch h
  rename_i hn
  have hi := find?_eq_none.1 hn i (mem_finRange i)
  have ha : (s.slots i).active = true := by simpa using hi
  exact ⟨ha, futexSlotFindLocked_eq_none hf ha⟩

end

/-! ## Into `futex_wait` and out of it -/

section
variable [DecidableEq Tid] {c : Slot → Nat} {s : Futexes Tid Other Process}

variable {key : FutexKey Process} {s' : Futexes Tid Other Process} {slot source target : Slot} {t : Tid}

/-- `slot->waiters++`. -/
theorem FutexInv.enter [DecidableEq Process] (hI : FutexInv c s) (ht : s.waits.runs t)
    (hget : futexSlotGetLocked s key = some (slot, s')) (bitset : Nat) :
    FutexCore c (futexWaitEnter s' t slot bitset) ∧ (futexWaitEnter s' t slot bitset).waits.runs t := by
  obtain ⟨rfl, hothers, -⟩ := hI.toFutexCore.got hget
  have hout := hI.not_inWait ht
  obtain ⟨hnone, -⟩ := hI.waits.not_waiting (not_sleeping_of_runs ht)
  have hw : Writes (s.waits.thread t)
      { s.waits.thread t with waitPrivate := some slot, waitBitset := bitset } :=
    hI.waits.writes_running ht rfl rfl rfl (not_sleeping_of_runs ht) rfl
  have heq : futexWaitEnter { s with slots := update s.slots slot ⟨key, (s.slots slot).waiters, true⟩ }
      t slot bitset = { s with
        slots := update s.slots slot ⟨key, (s.slots slot).waiters + 1, true⟩
        waits := setWait s.waits t (some slot) bitset
        inWait := update s.inWait t true } := by
    simp [futexWaitEnter]
  rw [heq]
  refine ⟨hI.change (hI.waits.set hw) hI.panic (fun i j hi hj hkey => ?_) (fun i => ?_)
    (fun u hu => ⟨update_of_ne hu _ _, set_thread_ne hu⟩) id ?_ fun i => ?_,
    by simpa [setWait, runs] using ht⟩
  · by_cases his : i = slot <;> by_cases hjs : j = slot
    · rw [his, hjs]
    · subst his
      simp only [update_self, update_of_ne hjs] at hj hkey
      exact absurd hkey.symm (hothers j hjs hj)
    · subst hjs
      simp only [update_self, update_of_ne his] at hi hkey
      exact absurd hkey (hothers i his hi)
    · simp only [update_of_ne his, update_of_ne hjs] at hi hj hkey
      exact hI.distinct i j hi hj hkey
  · by_cases his : i = slot
    · subst his
      simp
    · simpa [his] using hI.active i
  · have hlive : (s.waits.thread t).live := .inr (.inl (running_of_runs ht))
    constructor <;> simp [setWait, hnone]
    exact hlive
  · -- the thread is new to the slot
    by_cases his : i = slot
    · subst his
      simp [waitsOn, setWait, hout]
      omega
    · have hne : slot ≠ i := fun h => his h.symm
      simp [waitsOn, setWait, hout, hne, his]

/-- A running thread has its own fields written to, besides those of the futex. -/
theorem FutexCore.write (hC : FutexCore c s) {thread : Thread (Slot ⊕ Other) Slot}
    (ht : (s.waits.thread t).state = .running) (hw : Writes (s.waits.thread t) thread)
    (hlive : thread.live ∨ s.inWait t = false)
    (hset : thread.waitPrivate = (s.waits.thread t).waitPrivate ∧ thread.waitBitset = (s.waits.thread t).waitBitset) :
    FutexCore c { s with waits := s.waits.set t thread } := by
  have hnone := (hC.waits.not_waiting (by rw [ht]; decide : (s.waits.thread t).state ≠ .sleeping)).1
  refine hC.change (hC.waits.set hw) hC.panic hC.distinct hC.active
    (fun u hu => ⟨rfl, set_thread_ne hu⟩) id ?_ fun i => ?_
  · have h := hC.thread t
    refine ⟨fun hin => ?_, fun hin => ?_, fun i hi => ?_, fun queue _ => ?_, fun hzero => ?_⟩ <;>
      simp only [set_thread_self] at *
    · exact hlive.resolve_right (by simp [show s.inWait t = true from hin])
    · rw [hset.1]
      exact h.hasSlot hin
    · rw [hw.waitingOn, hnone] at hi
      exact nomatch hi
    · rw [hw.waitingOn, hnone]
      exact nofun
    · rw [hset.1]
      exact h.settled hzero
  · simp only [waitsOn, set_thread_self, hset.1]
    congr

/-- The thread is on the queue of its slot. -/
theorem FutexCore.blocked [DecidableEq Other] (hC : FutexCore c s)
    (hrest : ∀ u, s.inWait u → u ≠ t → (s.waits.thread u).asleep) (ht : s.waits.runs t)
    (hon : s.waitsOn slot t) (hbits : (s.waits.thread t).waitBitset &&& bitsetAll ≠ 0) (deadline : Nat)
    (mode : SignalMode) :
    FutexInv c { s with waits := Sched.blocked s.waits t (.inl slot) deadline mode } := by
  have hW := hC.waits.blocked (running_of_runs ht) (.inl slot) deadline mode
  have hself := blocked_thread_self s.waits t (.inl slot) deadline mode
  have hother : ∀ u, u ≠ t → (Sched.blocked s.waits t (.inl slot) deadline mode).thread u = s.waits.thread u :=
    fun u hu => blocked_thread_ne hu
  generalize Sched.blocked s.waits t (.inl slot) deadline mode = waits at hW hself hother ⊢
  have hprivate : (waits.thread t).waitPrivate = (s.waits.thread t).waitPrivate := by rw [hself]
  refine ⟨hC.change hW hC.panic hC.distinct hC.active (fun u hu => ⟨rfl, hother u hu⟩) id ?_ fun i => ?_,
    fun u hu => ?_⟩
  · refine ⟨fun _ => ?_, fun _ => ⟨slot, hprivate.trans hon.2⟩, fun i hi => ?_, fun queue _ => ?_, fun _ _ => hon.1⟩
    · rw [hself]
      exact .inr (.inr rfl)
    · simp only [hself] at hi ⊢
      obtain rfl : slot = i := Sum.inl.inj (some.inj hi)
      exact ⟨⟨hon.1, hprivate.trans hon.2⟩, hbits⟩
    · simp [hself]
  · simp only [waitsOn, hprivate]
    congr
  · by_cases he : u = t
    · rw [he, hself]
    · rw [hother u he]
      exact hrest u hu he

/-- The slots when a waiter has given one back. -/
def Futexes.afterPut (s : Futexes Tid Other Process) (slot : Slot) : Slot → FutexSlot Process :=
  update s.slots slot
    ⟨(s.slots slot).key, (s.slots slot).waiters - 1, decide ((s.slots slot).waiters - 1 ≠ 0)⟩

omit [DecidableEq Tid] in
theorem Futexes.afterPut_key (s : Futexes Tid Other Process) (slot i : Slot) :
    (s.afterPut slot i).key = (s.slots i).key := by
  unfold afterPut
  by_cases hi : i = slot
  · rw [hi, update_self]
  · rw [update_of_ne hi]

section
variable (hC : FutexCore c s) (hrest : ∀ u, s.inWait u → u ≠ t → (s.waits.thread u).asleep)
  (ht : s.waits.runs t)
include hC hrest ht

/-- The thread gives its slot back. The slot is free when it was the last one, and nobody is on the queue
    then. -/
theorem FutexCore.finish (hin : s.inWait t) (result : Int) : FutexInv c (futexWaitFinish s t result).1 := by
  obtain ⟨slot, hslot⟩ := hC.hasSlot t hin
  obtain ⟨n, hn, hsum⟩ := hC.count slot
  have hpos : 0 < n := hn.pos ⟨hin, hslot⟩
  have hwaiters : (s.slots slot).waiters ≠ 0 := by omega
  have hactive : (s.slots slot).active = true := (hC.active slot).2 hwaiters
  obtain ⟨hnone, -⟩ := hC.waits.not_waiting (not_sleeping_of_runs ht)
  have hothers : Numbers (fun u => u ≠ t ∧ s.waitsOn slot u) (n - 1) :=
    hn.remove ⟨hin, hslot⟩ fun u => .rfl
  -- the put, with its checks out of the way
  have hput : futexSlotPutLocked s slot = { s with slots := s.afterPut slot } := by
    unfold futexSlotPutLocked afterPut
    simp only [hactive, hwaiters, Bool.not_true, decide_false, Bool.or_self, Bool.false_eq_true, if_false]
    by_cases hlast : (s.slots slot).waiters - 1 = 0
    · have hempty : s.waits.waiters (.inl slot) = [] := by
        refine eq_nil_iff_forall_not_mem.2 fun u hu => ?_
        have hq := (hC.waits.mem u _).1 hu
        have hut : u ≠ t := by
          rintro rfl
          rw [hnone] at hq
          exact nomatch hq
        have hzero : n - 1 = 0 := by omega
        rw [hzero] at hothers
        exact numbers_zero.1 hothers u ⟨hut, (hC.queued u slot hq).1⟩
      simp [hlast, hempty]
    · simp [hlast]
  have hw : Writes (s.waits.thread t) { s.waits.thread t with waitPrivate := none, waitBitset := bitsetAll } :=
    hC.waits.writes_running ht rfl rfl rfl (not_sleeping_of_runs ht) rfl
  have hthread : ∀ u, u ≠ t → (setWait s.waits t none bitsetAll).thread u = s.waits.thread u :=
    fun u hu => set_thread_ne hu
  unfold futexWaitFinish
  simp only [hslot, hput]
  have hne : ∀ u, update s.inWait t false u = true → u ≠ t ∧ s.inWait u = true := by
    intro u hu
    by_cases he : u = t
    · simp [he] at hu
    · exact ⟨he, by simpa [he] using hu⟩
  refine ⟨hC.change (hC.waits.set hw) hC.panic (fun i j hi hj hkey => ?_) (fun i => ?_)
    (fun u hu => ⟨update_of_ne hu _ _, hthread u hu⟩) id ?_ fun i => ?_, fun u hu => ?_⟩
  · have hwas : ∀ k, (s.afterPut slot k).active = true → (s.slots k).active = true := by
      intro k hk
      by_cases hks : k = slot
      · rw [hks]
        exact hactive
      · simpa [afterPut, hks] using hk
    simp only [afterPut_key] at hkey
    exact hC.distinct i j (hwas i hi) (hwas j hj) hkey
  · by_cases hi : i = slot
    · subst hi
      simp [afterPut]
    · simpa [afterPut, hi] using hC.active i
  · constructor <;> simp [setWait, hnone]
  · by_cases hi : i = slot
    · subst hi
      simp [waitsOn, afterPut, hin, hslot]
      omega
    · have hns : slot ≠ i := fun h => hi h.symm
      simp [waitsOn, afterPut, hi, hslot, hns]
  · obtain ⟨he, hu⟩ := hne u hu
    rw [hthread u he]
    exact hrest u hu he

/-- The thread goes to `process_thread_exit` with its slot. -/
theorem FutexCore.leave (hon : s.waitsOn slot t) :
    FutexInv (update c slot (c slot + 1)) (leaveForExit s t).1 := by
  obtain ⟨hnone, -⟩ := hC.waits.not_waiting (not_sleeping_of_runs ht)
  have hne : ∀ u, update s.inWait t false u = true → u ≠ t ∧ s.inWait u = true := by
    intro u hu
    by_cases he : u = t
    · simp [he] at hu
    · exact ⟨he, by simpa [he] using hu⟩
  unfold leaveForExit
  -- a slot is lost now
  have hlost : ¬∀ i, update c slot (c slot + 1) i = 0 := fun hzero => by simpa using hzero slot
  refine ⟨hC.change hC.waits hC.panic hC.distinct hC.active (fun u hu => ⟨update_of_ne hu _ _, rfl⟩)
    (fun hzero => absurd hzero hlost) ?_ fun i => ?_, fun u hu => ?_⟩
  · constructor <;> simp [hnone]
    exact fun hzero => absurd hzero hlost
  · by_cases hi : i = slot
    · subst hi
      simp [hon]
      simp [waitsOn]
      omega
    · have hns : slot ≠ i := fun h => hi h.symm
      simp [waitsOn, hon.2, hi, hns]
  · obtain ⟨he, hu⟩ := hne u hu
    exact hrest u hu he

end

/-! ## What others do -/

omit [DecidableEq Tid] in
/-- The threads move on, and with the table nothing happens. -/
theorem FutexInv.moves (hI : FutexInv c s) {waits : Waits Tid (Slot ⊕ Other) Slot} (hW : WaitInv waits)
    (hspared : ∀ t, s.inWait t → (waits.thread t).live ∧ (waits.thread t).asleep ∧
      (waits.thread t).waitPrivate = (s.waits.thread t).waitPrivate ∧
      (waits.thread t).waitBitset = (s.waits.thread t).waitBitset)
    (hqueue : ∀ t queue, (s.inWait t ∨ ∃ i, queue = .inl i) → (waits.thread t).waitingOn = some queue →
      (s.waits.thread t).waitingOn = some queue)
    (hprivate : ∀ t, (waits.thread t).waitPrivate ≠ none → (s.waits.thread t).waitPrivate ≠ none)
    {exiting : Tid → Bool} : FutexInv c { s with waits := waits, exiting := exiting } where
  waits := hW
  panic := hI.panic
  distinct := hI.distinct
  active := hI.active
  count := by
    intro i
    obtain ⟨n, hn, hsum⟩ := hI.count i
    exact ⟨n, hn.congr fun u => and_congr_right fun hu => by rw [(hspared u hu).2.2.1], hsum⟩
  live := fun t ht => (hspared t ht).1
  hasSlot := fun t ht => by
    rw [(hspared t ht).2.2.1]
    exact hI.hasSlot t ht
  queued := by
    intro t i ht
    obtain ⟨hon, hbits⟩ := hI.queued t i (hqueue t _ (.inr ⟨i, rfl⟩) ht)
    obtain ⟨-, -, hprivate, hbitset⟩ := hspared t hon.1
    exact ⟨⟨hon.1, hprivate.trans hon.2⟩, by rw [hbitset]; exact hbits⟩
  away := fun t queue ht he => hI.away t queue ht (hqueue t _ (.inl ht) he)
  settled := fun hzero t ht => hI.settled hzero t (hprivate t ht)
  asleep := fun t ht => (hspared t ht).2.1

/-- A step of the wait queues in which no thread comes to a queue of the table. -/
theorem FutexInv.moves_step [DecidableEq Other] (hI : FutexInv c s) (a : Action Tid (Slot ⊕ Other) Slot)
    (hends : a.ends = false)
    (hsets : a.sets = false) (hsleep : ∀ t queue call pending between, a = .sleep t queue call pending between →
      (∃ other, queue = .inr other) ∧ s.inWait t = false) (exiting : Tid → Bool) :
    FutexInv c { s with waits := s.waits.step a, exiting := exiting } := by
  refine hI.moves (hI.waits.step a) (fun t ht => ?_) (fun t queue hcase hq => ?_) (fun t ht => ?_)
  · have hspared := hI.waits.step_spared hends t
    exact ⟨hspared.live (hI.live t ht), hspared.asleep (hI.asleep t ht),
      (hspared.set hsets).resolve_right fun h => h.1 (hI.live t ht)⟩
  · rcases (hI.waits.step_spared hends t).queue queue hq with h | ⟨source, count, waitPrivate, he⟩ |
      ⟨call, pending, between, he⟩
    · exact h
    · rw [he] at hsets
      exact Bool.noConfusion hsets
    obtain ⟨⟨other, hother⟩, hout⟩ := hsleep t queue call pending between he
    rcases hcase with h | ⟨i, hi⟩
    · rw [hout] at h
      exact Bool.noConfusion h
    · rw [hi] at hother
      exact nomatch hother
  · rcases (hI.waits.step_spared hends t).set hsets with h | h
    · rw [← h.1]
      exact ht
    · exact absurd h.2 ht

/-- `wait_queue_wake_mask` on the queue of a slot. -/
theorem FutexInv.wakeMask [DecidableEq Other] (hI : FutexInv c s) (slot : Slot) (count : Int) (mask : Nat) :
    FutexInv c { s with waits := (waitQueueWakeMask s.waits (.inl slot) count mask).1 } :=
  hI.moves_step (.wakeMask (.inl slot) count mask) rfl rfl nofun s.exiting

/-! ## A requeue -/

omit [DecidableEq Tid] in
theorem futexRequeueCounts_eq (s : Futexes Tid Other Process) (hne : source ≠ target) (moved : Nat)
    (i : Slot) :
    futexRequeueCounts s source target moved i =
      if i = source then
        ⟨(s.slots i).key, (s.slots i).waiters - moved,
          decide ((s.slots i).waiters - moved ≠ 0) && (s.slots i).active⟩
      else if i = target then
        ⟨(s.slots i).key, (s.slots i).waiters + moved,
          decide (moved ≠ 0 ∨ (s.slots i).waiters + moved ≠ 0) && (s.slots i).active⟩
      else s.slots i := by
  unfold futexRequeueCounts
  by_cases hi : i = target
  · subst hi
    rw [if_neg hne.symm, if_pos rfl]
    simp only [update_self, update_of_ne hne.symm]
    by_cases hm : moved = 0
    · by_cases hw : (s.slots i).waiters = 0 <;> simp [hm, hw]
    · simp [hm]
  by_cases hs : i = source
  · subst hs
    simp only [if_true, update_of_ne hi, update_self]
    by_cases hl : (s.slots i).waiters - moved = 0 <;> simp [hl]
  · simp [hi, hs]

omit [DecidableEq Tid] in
/-- The slots after a requeue to a slot that was got for a key. -/
theorem GotSlot.requeueCounts [DecidableEq Process] (hget : GotSlot s key target s') (hactive : (s.slots source).active)
    (hne : source ≠ target) (n : Nat) :
    futexRequeueCounts s' source target n source = ⟨(s.slots source).key, (s.slots source).waiters - n,
      decide ((s.slots source).waiters - n ≠ 0)⟩ ∧
    futexRequeueCounts s' source target n target = ⟨key, (s.slots target).waiters + n,
      decide ((s.slots target).waiters + n ≠ 0)⟩ ∧
    ∀ i, i ≠ source → i ≠ target → futexRequeueCounts s' source target n i = s.slots i := by
  obtain ⟨rfl, -, -⟩ := hget
  have hslots := futexRequeueCounts_eq
    { s with slots := update s.slots target ⟨key, (s.slots target).waiters, true⟩ } hne n
  simp only [update_apply] at hslots
  refine ⟨?_, ?_, fun i hs ht => ?_⟩
  · rw [hslots]
    simp [hne, hactive]
  · rw [hslots]
    simp only [hne.symm, if_false, if_true, Bool.and_true, FutexSlot.mk.injEq, decide_eq_decide, true_and]
    omega
  · rw [hslots]
    simp [hs, ht]

/-- The first threads of the source are now those of the target. -/
theorem FutexInv.requeued [DecidableEq Other] [DecidableEq Process] (hI : FutexInv c s) (hget : GotSlot s key target s')
    (hactive : (s.slots source).active) (hkey : (s.slots source).key ≠ key) {l : List Tid}
    (hl : l.Sublist (s.waits.waiters (.inl source))) :
    l.length ≤ (s'.slots source).waiters ∧
      FutexInv c { s' with
        waits := moved s.waits (.inl target) l (some target)
        slots := futexRequeueCounts s' source target l.length } := by
  have hne := hget.ne hactive hkey
  have hnodup : l.Nodup := (hI.waits.nodup _).sublist hl
  have hwait : ∀ t ∈ l, (s.waits.thread t).waitingOn = some (.inl source) :=
    fun t ht => (hI.waits.mem t _).1 (hl.mem ht)
  have hon : ∀ t ∈ l, s.waitsOn source t := fun t ht => (hI.queued t source (hwait t ht)).1
  have hmem : ∀ t, t ∈ l → (moved s.waits (.inl target) l (some target)).thread t =
      { s.waits.thread t with waitingOn := some (.inl target), waitPrivate := some target } :=
    fun t ht => if_pos ht
  have hout : ∀ t, t ∉ l → (moved s.waits (.inl target) l (some target)).thread t = s.waits.thread t :=
    fun t ht => if_neg ht
  obtain ⟨n, hn, hsum⟩ := hI.count source
  obtain ⟨hlen, hleft⟩ := hn.remove_all (q := fun t => t ∉ l ∧ s.waitsOn source t) hnodup hon fun t => .rfl
  have hothers := hget.others
  obtain ⟨hslot_source, hslot_target, hslot_other⟩ := hget.requeueCounts hactive hne l.length
  generalize futexRequeueCounts s' source target l.length = slots at *
  obtain ⟨rfl, -, -⟩ := hget
  have hsource : update s.slots target ⟨key, (s.slots target).waiters, true⟩ source = s.slots source :=
    update_of_ne hne ..
  refine ⟨by simp only [hsource]; omega, ?_⟩
  have hkeys : ∀ i, i ≠ target → (slots i).key = (s.slots i).key ∧
      ((slots i).active = true → (s.slots i).active = true) := by
    intro i ht
    by_cases hs : i = source
    · subst hs
      rw [hslot_source]
      exact ⟨rfl, fun _ => hactive⟩
    · rw [hslot_other i hs ht]
      exact ⟨rfl, id⟩
  refine ⟨.of_threads (hI.waits.moved hnodup hwait (by simpa using hne) _) hI.panic (fun i j hi hj hk => ?_)
    (fun i => ?_) (fun i => ?_) (fun t => ?_), fun t ht => ?_⟩
  · by_cases hit : i = target <;> by_cases hjt : j = target
    · rw [hit, hjt]
    · subst hit
      simp only [hslot_target, (hkeys j hjt).1] at hk
      exact absurd hk.symm (hothers j hjt ((hkeys j hjt).2 hj))
    · subst hjt
      simp only [hslot_target, (hkeys i hit).1] at hk
      exact absurd hk (hothers i hit ((hkeys i hit).2 hi))
    · simp only [(hkeys i hit).1, (hkeys j hjt).1] at hk
      exact hI.distinct i j ((hkeys i hit).2 hi) ((hkeys j hjt).2 hj) hk
  · by_cases hs : i = source
    · subst hs
      simp [hslot_source]
    by_cases ht : i = target
    · subst ht
      simp only [hslot_target, decide_eq_true_eq]
    · simp only [hslot_other i hs ht]
      exact hI.active i
  · by_cases hs : i = source
    · subst hs
      refine ⟨n - l.length, hleft.congr fun t => ?_, by simp only [hslot_source]; omega⟩
      by_cases ht : t ∈ l
      · simp [waitsOn, ht, hmem t ht, hne.symm]
      · simp [waitsOn, ht, hout t ht]
    obtain ⟨m, hm, hsum'⟩ := hI.count i
    by_cases hit : i = target
    · subst hit
      refine ⟨m + l.length, hm.add_all hnodup (fun t ht h => ?_) fun t => ?_, ?_⟩
      · exact hne (some.inj ((hon t ht).2.symm.trans h.2))
      · by_cases ht : t ∈ l
        · simp [waitsOn, ht, hmem t ht, (hon t ht).1]
        · simp [waitsOn, ht, hout t ht]
      · simp only [hslot_target]
        omega
    · refine ⟨m, hm.congr fun t => ?_, by simp only [hslot_other i hs hit]; exact hsum'⟩
      by_cases ht : t ∈ l
      · have hsi : source ≠ i := fun h => hs h.symm
        have hti : target ≠ i := fun h => hit h.symm
        simp [waitsOn, hmem t ht, (hon t ht).2, hsi, hti]
      · simp [waitsOn, hout t ht]
  · by_cases hm : t ∈ l
    · have hw := hon t hm
      refine ⟨fun ht => ?_, fun _ => ⟨target, by rw [hmem t hm]⟩, fun i hi => ?_, fun queue _ => ?_, fun _ _ => hw.1⟩
      · rw [hmem t hm]
        exact hI.live t ht
      · rw [hmem t hm] at hi ⊢
        obtain rfl : target = i := Sum.inl.inj (some.inj hi)
        exact ⟨⟨hw.1, by simp only [hmem t hm]⟩, (hI.queued t source (hwait t hm)).2⟩
      · simp [hmem t hm]
    · exact (hI.thread t).congr rfl (hout t hm) id
  · by_cases hm : t ∈ l
    · rw [hmem t hm]
      exact hI.asleep t ht
    · rw [hout t hm]
      exact hI.asleep t ht

end
end Caffeinix.Sched
