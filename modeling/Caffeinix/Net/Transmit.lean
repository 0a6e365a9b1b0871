import Mathlib.Logic.Function.Basic
import Caffeinix.Lib.Runs

/-!
# `Net.Transmit` — stopping and waking the transmit queue of virtio-net

A transmit puts a request of two descriptors in the virtqueue and stops the queue of the device when fewer than
two are left; `virtio_net_reap_tx` takes back the descriptors of completed requests and wakes the queue. The
number of free descriptors is read under the virtqueue's lock and the queue is stopped and woken under the
device's, so between two of these steps of one thread any steps of others may come, and those of the device,
which completes requests.

A transmit tests the free descriptors again after it has stopped the queue. So whenever the queue is stopped
with two descriptors free, somebody is still on the way to wake it (`Attended`), and when nobody is at work the
queue is stopped only for want of descriptors (`stopped_for_want`).
-/

namespace Caffeinix.Net

open Function (update update_of_ne update_self)

/-- What a thread does next: in `virtio_net_xmit` the call of `virtqueue_add`, the test after it,
    `netif_stop_queue`, the test after that; in `virtio_net_reap_tx`, with the flag `completed`, the next call of
    `virtqueue_get_used`; `netif_wake_queue` in both. -/
inductive Place
  | idle
  | add
  | test
  | stop
  | recheck
  | reap (completed : Bool)
  | wake
  deriving DecidableEq

/-- The net device and its virtqueue: the requests that the device works on and those it has completed have two
    descriptors each. -/
structure TxQueue (Thread : Type*) where
  up : Bool
  queueStopped : Bool
  freeCount : Nat
  posted : Nat
  used : Nat
  place : Thread → Place

variable {Thread : Type*} [DecidableEq Thread]

namespace TxQueue

def goto (q : TxQueue Thread) (t : Thread) (p : Place) : TxQueue Thread :=
  { q with place := update q.place t p }

/-! ## Steps -/

/-- `virtqueue_add` of two buffers: `0`, `-1` without room, and `-2` when a buffer can not be mapped. -/
def virtqueueAdd (q : TxQueue Thread) (mapped : Bool) : Int × TxQueue Thread :=
  if q.freeCount < 2 then (-1, q)
  else if !mapped then (-2, q)
  else (0, { q with freeCount := q.freeCount - 2, posted := q.posted + 1 })

/-- `virtqueue_get_used`: whether there was a completed request. -/
def virtqueueGetUsed (q : TxQueue Thread) : Bool × TxQueue Thread :=
  if q.used = 0 then (false, q)
  else (true, { q with freeCount := q.freeCount + 2, used := q.used - 1 })

def netifStopQueue (q : TxQueue Thread) : TxQueue Thread := { q with queueStopped := true }

def netifWakeQueue (q : TxQueue Thread) : TxQueue Thread :=
  if q.up then { q with queueStopped := false } else q

/-- The next step of a thread; `memory` and `mapped` say whether the request can be allocated and mapped. -/
def run (q : TxQueue Thread) (t : Thread) (memory mapped : Bool) : TxQueue Thread :=
  match q.place t with
  | .idle => q
  | .add =>
    if !memory then q.goto t .idle
    else
      match q.virtqueueAdd mapped with
      | (0, q) => q.goto t .test
      | (-1, q) => q.goto t .stop
      | (_, q) => q.goto t .idle
  | .test => q.goto t (if q.freeCount < 2 then .stop else .idle)
  | .stop => q.netifStopQueue.goto t .recheck
  | .recheck => q.goto t (if 2 ≤ q.freeCount then .wake else .idle)
  | .reap completed =>
    match q.virtqueueGetUsed with
    | (true, q) => q.goto t (.reap true)
    | (false, q) => q.goto t (if completed then .wake else .idle)
  | .wake => q.netifWakeQueue.goto t .idle

inductive Event (Thread : Type*)
  /-- `net_device_xmit` of a registered device. -/
  | xmit (t : Thread) (carrier : Bool)
  | reapTx (t : Thread)
  | run (t : Thread) (memory mapped : Bool)
  | complete

def step (q : TxQueue Thread) : Event Thread → TxQueue Thread
  | .xmit t carrier =>
    if q.place t = .idle ∧ q.up ∧ carrier ∧ !q.queueStopped then q.goto t .add else q
  | .reapTx t => if q.place t = .idle then q.goto t (.reap false) else q
  | .run t memory mapped => q.run t memory mapped
  | .complete => if q.posted = 0 then q else { q with posted := q.posted - 1, used := q.used + 1 }

/-! ## The invariant -/

end TxQueue

/-- A thread there goes on to wake the queue if two descriptors are free. -/
def Place.wakes : Place → Bool
  | .recheck | .reap true | .wake => true
  | _ => false

namespace TxQueue

/-- A device that is open and whose descriptors are all accounted for; and whenever the queue is stopped with two
    descriptors free, a thread is on the way to wake it. -/
structure Attended (size : Nat) (q : TxQueue Thread) : Prop where
  up : q.up = true
  balance : q.freeCount + 2 * (q.posted + q.used) = size
  waking : q.queueStopped = true → 2 ≤ q.freeCount → ∃ t, (q.place t).wakes = true

variable {q : TxQueue Thread} {t : Thread} {size : Nat}

/-- A thread that is not on the way to wake the queue goes somewhere. -/
theorem waking_goto (h : ∃ u, (q.place u).wakes = true) (ht : (q.place t).wakes = false) (p : Place) :
    ∃ u, ((q.goto t p).place u).wakes = true := by
  obtain ⟨u, hu⟩ := h
  have hne : u ≠ t := by
    rintro rfl
    rw [ht] at hu
    cases hu
  refine ⟨u, ?_⟩
  show (update q.place t p u).wakes = true
  rw [update_of_ne hne]
  exact hu

/-- A thread goes on to wake the queue. -/
theorem waking_self {p : Place} (hp : p.wakes = true) : ∃ u, ((q.goto t p).place u).wakes = true := by
  refine ⟨t, ?_⟩
  show (update q.place t p t).wakes = true
  rw [update_self]
  exact hp

section
variable (h : Attended size q)
include h

theorem Attended.goto (ht : (q.place t).wakes = false) (p : Place) : Attended size (q.goto t p) :=
  ⟨h.up, h.balance, fun hs hf => waking_goto (h.waking hs hf) ht p⟩

theorem Attended.run (t : Thread) (memory mapped : Bool) : Attended size (q.run t memory mapped) := by
  have hbalance := h.balance
  unfold TxQueue.run
  cases hp : q.place t with
  | idle => exact h
  | add =>
    have ht : (q.place t).wakes = false := by rw [hp]; rfl
    cases memory with
    | false => exact h.goto ht _
    | true =>
      simp only [Bool.not_true, Bool.false_eq_true, if_false, virtqueueAdd]
      by_cases hroom : q.freeCount < 2
      · rw [if_pos hroom]
        exact h.goto ht _
      rw [if_neg hroom]
      cases mapped with
      | false => exact h.goto ht _
      | true =>
        -- the request takes two descriptors
        refine ⟨h.up, ?_, fun hs hf => waking_goto (h.waking hs ?_) ht _⟩
        · show q.freeCount - 2 + 2 * (q.posted + 1 + q.used) = size
          omega
        · have hleft : 2 ≤ q.freeCount - 2 := hf
          omega
  | test => exact h.goto (by rw [hp]; rfl) _
  | stop => exact ⟨h.up, hbalance, fun _ _ => waking_self rfl⟩
  | recheck =>
    refine ⟨h.up, hbalance, fun _ hf => waking_self ?_⟩
    have hfree : 2 ≤ q.freeCount := hf
    rw [if_pos hfree]
    rfl
  | reap completed =>
    simp only [virtqueueGetUsed]
    by_cases hused : q.used = 0
    · rw [if_pos hused]
      cases completed with
      | false => exact h.goto (by rw [hp]; rfl) _
      | true => exact ⟨h.up, hbalance, fun _ _ => waking_self rfl⟩
    · rw [if_neg hused]
      -- whoever finds a completed request wakes the queue in the end
      refine ⟨h.up, ?_, fun _ _ => waking_self rfl⟩
      show q.freeCount + 2 + 2 * (q.posted + (q.used - 1)) = size
      omega
  | wake =>
    unfold netifWakeQueue
    rw [if_pos h.up]
    exact ⟨h.up, hbalance, fun hs => absurd hs Bool.false_ne_true⟩

theorem Attended.step (e : Event Thread) : Attended size (q.step e) := by
  cases e with
  | xmit t carrier =>
    simp only [TxQueue.step]
    split_ifs with hidle
    · exact h.goto (by rw [hidle.1]; rfl) _
    · exact h
  | reapTx t =>
    simp only [TxQueue.step]
    split_ifs with hidle
    · exact h.goto (by rw [hidle]; rfl) _
    · exact h
  | run t memory mapped => exact h.run t memory mapped
  | complete =>
    simp only [TxQueue.step]
    split_ifs with hposted
    · exact h
    · have hbalance := h.balance
      refine ⟨h.up, ?_, h.waking⟩
      show q.freeCount + 2 * (q.posted - 1 + (q.used + 1)) = size
      omega

end

/-- A thread that has found a completed request takes back the others and wakes the queue. -/
theorem reap_wakes {n : Nat} (hup : q.up = true) (hp : q.place t = .reap true) (hused : q.used = n) :
    ((List.replicate (n + 2) (.run t true true)).foldl step q).queueStopped = false := by
  induction n generalizing q with
  | zero =>
    have hrun : q.run t true true = q.goto t .wake := by simp [run, hp, virtqueueGetUsed, hused]
    show ((q.run t true true).run t true true).queueStopped = false
    rw [hrun]
    simp [run, goto, netifWakeQueue, hup]
  | succ n ih =>
    have hrun : q.run t true true =
        { q with freeCount := q.freeCount + 2, used := n }.goto t (.reap true) := by
      simp [run, hp, virtqueueGetUsed, hused]
    show ((List.replicate (n + 2) (.run t true true)).foldl step (q.run t true true)).queueStopped = false
    rw [hrun]
    exact ih hup (update_self _ _ _) rfl

/-! ## Runs -/

/-- As `net_device_open` leaves the device, whatever threads are reaping then. -/
structure Opened (q : TxQueue Thread) : Prop where
  up : q.up = true
  awake : q.queueStopped = false
  size : 2 ≤ q.freeCount + 2 * (q.posted + q.used)

/-- **The queue is never left stopped for nothing.** However transmits, the processing of completions and the
    device interleave on an open device: when no thread is at work and the queue is stopped, fewer than two
    descriptors are free, requests are outstanding, and once the device has completed one a thread that
    processes the completions wakes the queue. -/
theorem stopped_for_want {q₀ : TxQueue Thread} (h : Opened q₀) (l : List (Event Thread)) :
    let q := l.foldl step q₀
    (∀ t, q.place t = .idle) → q.queueStopped = true →
      q.freeCount < 2 ∧ 0 < q.posted + q.used ∧
      ∀ t, ∃ n, ((List.replicate n (.run t true true)).foldl step
        ((q.step .complete).step (.reapTx t))).queueStopped = false := by
  intro q hidle hstopped
  have hq : Attended (q₀.freeCount + 2 * (q₀.posted + q₀.used)) q := by
    apply Runs.foldl_invariant (I := Attended _) fun _ e h => h.step e
    exact ⟨h.up, rfl, fun hs => absurd (h.awake.symm.trans hs) Bool.false_ne_true⟩
  have hfree : q.freeCount < 2 := by
    by_contra hfree
    obtain ⟨t, ht⟩ := hq.waking hstopped (Nat.le_of_not_lt hfree)
    rw [hidle t] at ht
    cases ht
  have hout : 0 < q.posted + q.used := by
    have hbalance := hq.balance
    have hsize := h.size
    omega
  refine ⟨hfree, hout, fun t => ?_⟩
  -- the completed requests are there, so that the first `virtqueue_get_used` finds one
  obtain ⟨k, hk⟩ : ∃ k, (q.step .complete).used = k + 1 := by
    simp only [step]
    split_ifs with hposted
    · exact ⟨q.used - 1, by omega⟩
    · exact ⟨q.used, rfl⟩
  have hkeeps : (q.step .complete).up = true ∧ (q.step .complete).place t = .idle := by
    simp only [step]
    split_ifs <;> exact ⟨hq.up, hidle t⟩
  refine ⟨k + 2 + 1, ?_⟩
  have hrun : ((q.step .complete).step (.reapTx t)).run t true true =
      { q.step .complete with freeCount := (q.step .complete).freeCount + 2, used := k }.goto t (.reap true) := by
    simp [TxQueue.step.eq_2, hkeeps.2, run, goto, virtqueueGetUsed, hk]
  show ((List.replicate (k + 2) (.run t true true)).foldl step
    (((q.step .complete).step (.reapTx t)).run t true true)).queueStopped = false
  rw [hrun]
  exact reap_wakes hkeeps.1 (update_self _ _ _) rfl

/-- A device with room for one request: the transmit stops the queue, rightly. -/
theorem oneRequest_stopped :
    let q₀ : TxQueue Unit := ⟨true, false, 2, 0, 0, fun _ => .idle⟩
    let q := [Event.xmit () true, .run () true true, .run () true true, .run () true true,
      .run () true true].foldl step q₀
    Opened q₀ ∧ q.queueStopped = true ∧ q.freeCount < 2 ∧ q.posted = 1 := by
  intro q₀ q
  have hopened : Opened q₀ := ⟨rfl, rfl, Nat.le_refl 2⟩
  exact ⟨hopened, rfl, (stopped_for_want hopened _ (fun _ => rfl) rfl).1, rfl⟩

end TxQueue

end Caffeinix.Net
