import Caffeinix.Sched.FutexRun

/-!
# `Sched.FutexQueues` — the table as one queue for each key

What the table is for: a queue of threads for each key. `waitersOf` reads it off, and the calls are described by
what they do to it. A wait that sleeps puts the thread at the end of the queue of its key, in the same step in
which the value was compared; a wake takes the first threads with matching bits away; a requeue takes the first
threads away and puts the next ones at the end of another queue.

A requeue needs a slot for its destination. There are more slots than threads, so that one is free unless slots
have been lost: each thread that leaves `futex_wait` for `process_thread_exit` keeps one.
-/

namespace Caffeinix.Sched

open List Runs Futexes Sched
open Sched (woken)
open Function (update update_apply update_of_ne update_self)

variable {Tid Other Process : Type} [DecidableEq Process]

/-- The threads that wait for a key, in their order. -/
def Futexes.waitersOf (s : Futexes Tid Other Process) (key : FutexKey Process) : List Tid :=
  match futexSlotFindLocked s key with
  | none => []
  | some slot => s.waits.waiters (.inl slot)

section
variable {c c' : Slot → Nat} {s s' : Futexes Tid Other Process}

variable {slot : Slot} {key : FutexKey Process} {t : Tid}

section
variable (hI : FutexInv c s)
include hI

section
variable (h : s.waits.waiters (.inl slot) ≠ [])
include h

omit [DecidableEq Process] in
/-- A slot with a thread on its queue is taken. -/
theorem FutexInv.active_of_queue : (s.slots slot).active := by
  obtain ⟨t, ht⟩ := exists_mem_of_ne_nil _ h
  obtain ⟨hon, -⟩ := hI.queued t slot ((hI.waits.mem t _).1 ht)
  obtain ⟨n, hn, hsum⟩ := hI.count slot
  have hpos := hn.pos hon
  exact (hI.active slot).2 (by omega)

/-- The queue of a slot with threads is that of its key. -/
theorem FutexInv.waitersOf_key : s.waitersOf (s.slots slot).key = s.waits.waiters (.inl slot) := by
  unfold waitersOf
  rw [hI.find (hI.active_of_queue h)]

end

/-- The slot of a key, if it is the only one that can have the key. -/
theorem FutexInv.waitersOf_eq (hkey : (s.slots slot).key = key)
    (hothers : ∀ i, i ≠ slot → (s.slots i).active → (s.slots i).key ≠ key) :
    s.waitersOf key = s.waits.waiters (.inl slot) := by
  by_cases h : s.waits.waiters (.inl slot) = []
  · unfold waitersOf
    cases hf : futexSlotFindLocked s key with
    | none => exact h.symm
    | some i =>
      obtain ⟨hi, hk⟩ := futexSlotFindLocked_eq_some hf
      by_cases he : i = slot
      · rw [he]
      · exact absurd hk (hothers i he hi)
  · rw [← hkey]
    exact hI.waitersOf_key h

/-- The queue of the slot that `futex_slot_get_locked` finds is that of the key. -/
theorem FutexInv.waitersOf_got (hgot : GotSlot s key slot s') :
    s.waitersOf key = s.waits.waiters (.inl slot) := by
  rcases hgot.before with h | h
  · exact hI.waitersOf_eq h.2 hgot.others
  have hempty : s.waits.waiters (.inl slot) = [] := by
    by_contra hne
    rw [hI.active_of_queue hne] at h
    exact Bool.noConfusion h.1
  unfold waitersOf
  rw [h.2, hempty]

omit hI in
/-- A key that somebody waits for has a slot. -/
theorem exists_slot_of_waitersOf (h : s.waitersOf key ≠ []) :
    ∃ slot, (s.slots slot).key = key ∧ (s.slots slot).active ∧ s.waitersOf key = s.waits.waiters (.inl slot) := by
  unfold waitersOf at h ⊢
  cases hf : futexSlotFindLocked s key with
  | none =>
    rw [hf] at h
    exact absurd rfl h
  | some slot =>
    obtain ⟨hactive, hkey⟩ := futexSlotFindLocked_eq_some hf
    exact ⟨slot, hkey, hactive, rfl⟩

/-- What happens to the slots that can have a key happens to the queue of the key. -/
theorem FutexInv.waitersOf_change (hI' : FutexInv c' s') {f : List Tid → List Tid} (hf : f [] = [])
    (h : ∀ i, ((s.slots i).active ∧ (s.slots i).key = key) ∨ ((s'.slots i).active ∧ (s'.slots i).key = key) →
      s'.waits.waiters (.inl i) = f (s.waits.waiters (.inl i)) ∧ (s.waits.waiters (.inl i) ≠ [] →
      (s'.slots i).key = (s.slots i).key)) : s'.waitersOf key = f (s.waitersOf key) := by
  by_cases hempty' : s'.waitersOf key = []
  · rw [hempty']
    by_cases hempty : s.waitersOf key = []
    · rw [hempty, hf]
    obtain ⟨i, hi, hactive, heq⟩ := exists_slot_of_waitersOf hempty
    obtain ⟨hqueue, hkey⟩ := h i (.inl ⟨hactive, hi⟩)
    rw [heq] at hempty ⊢
    rw [← hqueue]
    by_contra hne
    have hkeyed := hI'.waitersOf_key (show s'.waits.waiters (.inl i) ≠ [] from fun he => hne he.symm)
    rw [hkey hempty, hi, hempty'] at hkeyed
    exact hne hkeyed
  · obtain ⟨i, hi, hactive, heq⟩ := exists_slot_of_waitersOf hempty'
    obtain ⟨hqueue, hkey⟩ := h i (.inr ⟨hactive, hi⟩)
    have hne : s.waits.waiters (.inl i) ≠ [] := by
      intro he
      exact hempty' (by rw [heq, hqueue, he, hf])
    have hkeyed := hI.waitersOf_key hne
    rw [← hkey hne, hi] at hkeyed
    rw [heq, hkeyed]
    exact hqueue

theorem FutexInv.waitersOf_nodup (key : FutexKey Process) : (s.waitersOf key).Nodup := by
  by_cases h : s.waitersOf key = []
  · rw [h]
    exact nodup_nil
  · obtain ⟨i, -, -, heq⟩ := exists_slot_of_waitersOf h
    rw [heq]
    exact hI.waits.nodup _

/-- A thread waits for one key. -/
theorem FutexInv.waitersOf_unique {key' : FutexKey Process} (h : t ∈ s.waitersOf key)
    (h' : t ∈ s.waitersOf key') : key = key' := by
  obtain ⟨i, hi, -, heq⟩ := exists_slot_of_waitersOf (ne_nil_of_mem h)
  obtain ⟨j, hj, -, heq'⟩ := exists_slot_of_waitersOf (ne_nil_of_mem h')
  rw [heq] at h
  rw [heq'] at h'
  have hij := ((hI.waits.mem t _).1 h).symm.trans ((hI.waits.mem t _).1 h')
  rw [← hi, ← hj, Sum.inl.inj (Option.some.inj hij)]

theorem FutexInv.mem_waitersOf (h : t ∈ s.waits.waiters (.inl slot)) : t ∈ s.waitersOf (s.slots slot).key := by
  rw [hI.waitersOf_key (ne_nil_of_mem h)]
  exact h

end

end

theorem filter_not_mem_take {α : Type} [DecidableEq α] {l : List α} (h : l.Nodup) {n : Nat} :
    l.filter (· ∉ l.take n) = l.drop n := by
  have happ := take_append_drop n l
  have hdisj : ∀ a ∈ l.drop n, a ∉ l.take n := by
    intro a ha hm
    rw [← happ] at h
    exact (nodup_append.1 h).2.2 a hm a ha rfl
  calc l.filter (· ∉ l.take n) = (l.take n ++ l.drop n).filter (· ∉ l.take n) := by rw [happ]
    _ = l.drop n := by
      rw [filter_append, filter_eq_nil_iff.2 (by simp), filter_eq_self.2 (by simpa using hdisj),
        nil_append]

/-! ## The calls -/

section
variable [DecidableEq Tid] [DecidableEq Other] {c : Slot → Nat} {s : Futexes Tid Other Process}

/-- `futex_wake` wakes the first threads of the key whose bits meet the mask. -/
theorem FutexInv.futexWake_eq (hI : FutexInv c s) {key : FutexKey Process} {count : Int} (hcount : 0 ≤ count)
    {bitset : Nat} (hbitset : bitset ≠ 0) :
    Sched.futexWake s key count bitset =
      let targets :=
        ((s.waitersOf key).filter fun t => (s.waits.thread t).waitBitset &&& bitset ≠ 0).take count.toNat
      ({ s with waits := woken s.waits targets 0 }, (targets.length : Int)) := by
  unfold Sched.futexWake futexWakeKeyLocked waitersOf
  rw [if_neg (by simp [hbitset]; omega)]
  cases futexSlotFindLocked s key with
  | none => simp [woken_nil]
  | some => simp [hI.waits.waitQueueWakeMask_eq]

variable {targets : List Tid} {slot : Slot} {source destination : FutexKey Process} {s' : Futexes Tid Other Process}

omit [DecidableEq Other] in
/-- The queues after waking threads. -/
theorem FutexInv.waitersOf_woken (hI : FutexInv c s)
    (hI' : FutexInv c { s with waits := woken s.waits targets 0 }) (key : FutexKey Process) :
    ({ s with waits := woken s.waits targets 0 } : Futexes Tid Other Process).waitersOf key =
      (s.waitersOf key).filter (· ∉ targets) :=
  hI.waitersOf_change hI' filter_nil fun _ _ => ⟨rfl, fun _ => rfl⟩

section
omit [DecidableEq Tid] [DecidableEq Other]

/-- Finding a slot has nothing to do with the threads. -/
theorem futexSlotGetLocked_waits (s : Futexes Tid Other Process) (waits : Waits Tid (Slot ⊕ Other) Slot)
    (key : FutexKey Process) :
    futexSlotGetLocked { s with waits := waits } key =
      (futexSlotGetLocked s key).map fun got => (got.1, { got.2 with waits := waits }) := by
  unfold futexSlotGetLocked
  have hfind : futexSlotFindLocked { s with waits := waits } key = futexSlotFindLocked s key := rfl
  rw [hfind]
  cases futexSlotFindLocked s key with
  | some => rfl
  | none =>
    cases (List.finRange futexSlotCount).find? fun i => !(s.slots i).active with
    | some => rfl
    | none => rfl

theorem waitersOf_found (hfind : futexSlotFindLocked s source = some slot) :
    s.waitersOf source = s.waits.waiters (.inl slot) := by
  unfold waitersOf
  rw [hfind]

/-- Every queued thread matches the mask a requeue wakes with. -/
theorem FutexInv.filter_all (hI : FutexInv c s) (key : FutexKey Process) :
    (s.waitersOf key).filter (fun t => (s.waits.thread t).waitBitset &&& bitsetAll ≠ 0) = s.waitersOf key := by
  rw [filter_eq_self]
  intro t ht
  obtain ⟨i, -, -, heq⟩ := exists_slot_of_waitersOf (ne_nil_of_mem ht)
  rw [heq] at ht
  simpa using (hI.queued t i ((hI.waits.mem t _).1 ht)).2

end

variable {key : FutexKey Process} {c' : Slot → Nat} {t : Tid} {Private Queue : Type} {queue : Queue}

section
variable (hI : FutexInv c s)
include hI

/-- The waking part of a requeue. -/
theorem FutexInv.requeue_wakes (hfind : futexSlotFindLocked s key = some slot) (wakeCount : Int) :
    waitQueueWakeMask s.waits (.inl slot) wakeCount bitsetAll =
      (woken s.waits ((s.waitersOf key).take wakeCount.toNat) 0, ((s.waitersOf key).take wakeCount.toNat).length) := by
  rw [hI.waits.waitQueueWakeMask_eq, ← waitersOf_found hfind]
  simp only [hI.filter_all]

/-- What a requeue does to the threads of its source. -/
structure Requeued (s : Futexes Tid Other Process) (source destination : FutexKey Process) (targets movers : List Tid)
    (after : Futexes Tid Other Process) : Prop where
  queues : ∀ key, after.waitersOf key =
    if key = source then (s.waitersOf source).filter fun t => t ∉ targets ∧ t ∉ movers
    else if key = destination then s.waitersOf destination ++ movers
    else s.waitersOf key
  woken : ∀ t ∈ targets, after.waits.thread t = (s.waits.thread t).wake 0
  moved : ∀ t ∈ movers, ∃ slot, after.waits.thread t =
    { s.waits.thread t with waitingOn := some (.inl slot), waitPrivate := some slot }
  others : ∀ t, t ∉ targets → t ∉ movers → after.waits.thread t = s.waits.thread t

section
omit [DecidableEq Other]

/-- Threads of one key are not among those of another. -/
theorem FutexInv.filter_other (hne : key ≠ source) {l : List Tid} (hl : ∀ t ∈ l, t ∈ s.waitersOf source) :
    (s.waitersOf key).filter (· ∉ l) = s.waitersOf key := by
  rw [filter_eq_self]
  intro t ht
  have hnot : t ∉ l := fun hm => hne (hI.waitersOf_unique ht (hl t hm))
  simpa using hnot

/-- A requeue that moves nobody has woken its targets. -/
theorem FutexInv.requeued_nobody (hl : ∀ t ∈ targets, t ∈ s.waitersOf source)
    (hI' : FutexInv c { s with waits := woken s.waits targets 0 }) :
    Requeued s source destination targets [] { s with waits := woken s.waits targets 0 } where
  queues := by
    intro key
    rw [hI.waitersOf_woken hI']
    by_cases hs : key = source
    · rw [if_pos hs, hs]
      simp
    · rw [if_neg hs, hI.filter_other hs hl]
      by_cases hd : key = destination
      · rw [if_pos hd, hd, append_nil]
      · rw [if_neg hd]
  woken := fun t ht => woken_thread_of_mem ht
  moved := fun t ht => absurd ht not_mem_nil
  others := fun t ht _ => woken_thread_of_not_mem ht

theorem FutexInv.requeued_none : Requeued s source destination [] [] s := by
  have hnobody : Requeued s source destination [] [] { s with waits := woken s.waits [] 0 } :=
    hI.requeued_nobody (by simp) (by rw [woken_nil]; exact hI)
  rwa [woken_nil] at hnobody

end

/-- A requeue that moves threads. -/
theorem FutexInv.requeued_some (hne : source ≠ destination) {target : Slot}
    (hslot : (s.slots slot).active ∧ (s.slots slot).key = source) (hgot : GotSlot s destination target s')
    {movers : List Tid} (ht : ∀ t ∈ targets, t ∈ s.waitersOf source) (hm : ∀ t ∈ movers, t ∈ s.waitersOf source)
    (hdisj : ∀ t ∈ movers, t ∉ targets)
    (hafter : FutexInv c { s' with
      waits := moved (woken s.waits targets 0) (.inl target) movers (some target)
      slots := futexRequeueCounts s' slot target movers.length }) :
    Requeued s source destination targets movers { s' with
      waits := moved (woken s.waits targets 0) (.inl target) movers (some target)
      slots := futexRequeueCounts s' slot target movers.length } := by
  have hst := hgot.ne hslot.1 (by rw [hslot.2]; exact hne)
  -- the keys of the slots, and which of them can be active
  obtain ⟨hsource, htarget, hkey_other⟩ := hgot.requeueCounts hslot.1 hst movers.length
  have hkey_slot : (futexRequeueCounts s' slot target movers.length slot).key = source := by
    rw [hsource]
    exact hslot.2
  have hkey_target : (futexRequeueCounts s' slot target movers.length target).key = destination := by
    rw [htarget]
  have honly : ∀ i, (s.slots i).active → (s.slots i).key = source → i = slot := fun i hactive hkey =>
    hI.distinct i slot hactive hslot.1 (hkey.trans hslot.2.symm)
  have hq_slot : s.waitersOf source = s.waits.waiters (.inl slot) :=
    hI.waitersOf_eq hslot.2 fun i hi hactive hkey => hi (honly i hactive hkey)
  have hwaiters : ∀ i, i ≠ target →
      (moved (woken s.waits targets 0) (.inl target) movers (some target)).waiters (.inl i) =
        (s.waits.waiters (.inl i)).filter fun t => t ∉ targets ∧ t ∉ movers := by
    intro i hi
    have hne' : ¬(Sum.inl i : Slot ⊕ Other) = .inl target := fun h => hi (Sum.inl.inj h)
    simp only [moved, if_neg hne', woken, filter_filter]
    apply filter_congr
    intro t _
    simp [Bool.and_comm]
  constructor
  · intro key
    by_cases hs : key = source
    · subst hs
      rw [if_pos rfl]
      refine hI.waitersOf_change hafter filter_nil fun i hi => ?_
      have his : i = slot := by
        rcases hi with ⟨hactive, hkey⟩ | ⟨hactive, hkey⟩
        · exact honly i hactive hkey
        by_contra his
        by_cases hit : i = target
        · subst hit
          exact hne (hkey.symm.trans hkey_target)
        · simp only [hkey_other i his hit] at hactive hkey
          exact his (honly i hactive hkey)
      subst his
      exact ⟨hwaiters i hst, fun _ => hkey_slot.trans hslot.2.symm⟩
    · rw [if_neg hs]
      by_cases hd : key = destination
      · subst hd
        rw [if_pos rfl, hafter.waitersOf_eq hkey_target]
        · simp only [moved, if_true, woken]
          congr 1
          rw [← hI.waitersOf_got hgot, hI.filter_other hs ht]
        · intro i hi hactive hkey
          by_cases his : i = slot
          · subst his
            exact hne (hkey_slot.symm.trans hkey)
          · simp only [hkey_other i his hi] at hactive hkey
            exact hgot.others i hi hactive hkey
      · rw [if_neg hd]
        refine hI.waitersOf_change (f := id) hafter rfl fun i hi => ?_
        · have his : i ≠ slot := by
            rintro rfl
            rcases hi with ⟨-, hkey⟩ | ⟨-, hkey⟩
            · exact hs (hkey.symm.trans hslot.2)
            · exact hs (hkey.symm.trans hkey_slot)
          have hit : i ≠ target := by
            rintro rfl
            rcases hi with ⟨hactive, hkey⟩ | ⟨-, hkey⟩
            · exact hd (hkey.symm.trans (hgot.key_eq hactive))
            · exact hd (hkey.symm.trans hkey_target)
          refine ⟨?_, fun _ => by simp only [hkey_other i his hit]⟩
          rw [hwaiters i hit]
          refine filter_eq_self.2 fun t hti => ?_
          -- a thread of another slot is not one of the source
          have hnot : t ∉ s.waitersOf source := by
            rw [hq_slot]
            intro hm'
            have := ((hI.waits.mem t _).1 hti).symm.trans ((hI.waits.mem t _).1 hm')
            exact his (Sum.inl.inj (Option.some.inj this))
          have h1 : t ∉ targets := fun h => hnot (ht t h)
          have h2 : t ∉ movers := fun h => hnot (hm t h)
          simp [h1, h2]
  · intro t htt
    have hnm : t ∉ movers := fun h => hdisj t h htt
    simp only [moved, if_neg hnm]
    exact woken_thread_of_mem htt
  · intro t htm
    refine ⟨target, ?_⟩
    simp only [moved, if_pos htm, woken_thread_of_not_mem (hdisj t htm)]
  · intro t h1 h2
    simp only [moved, if_neg h2]
    exact woken_thread_of_not_mem h1

/-- `futex_requeue` with a slot for the destination. -/
theorem FutexInv.requeue_moves (hne : source ≠ destination) {wakeCount : Int} {requeueCount : Int}
    (hroom : requeueCount = 0 ∨ (futexSlotGetLocked s destination).isSome) :
    let targets := (s.waitersOf source).take wakeCount.toNat
    let movers := ((s.waitersOf source).drop wakeCount.toNat).take requeueCount.toNat
    let after := futexRequeue.requeue s source destination wakeCount requeueCount
    after.2 = targets.length + movers.length ∧ Requeued s source destination targets movers after.1 := by
  intro targets movers after
  have hafter := hI.requeue hne wakeCount requeueCount
  change FutexInv c after.1 at hafter
  have htargets : ∀ t ∈ targets, t ∈ s.waitersOf source := fun t ht => mem_of_mem_take ht
  have hmovers : ∀ t ∈ movers, t ∈ s.waitersOf source :=
    fun t ht => mem_of_mem_drop (mem_of_mem_take ht)
  cases hfind : futexSlotFindLocked s source with
  | none =>
    have hempty : s.waitersOf source = [] := by
      unfold waitersOf
      rw [hfind]
    have heq : after = (s, 0) := by
      simp only [after, futexRequeue.requeue, hfind]
    have htn : targets = [] := by simp [targets, hempty]
    have hmn : movers = [] := by simp [movers, hempty]
    rw [heq, htn, hmn]
    exact ⟨rfl, hI.requeued_none⟩
  | some slot =>
    obtain ⟨hactive, hkey⟩ := futexSlotFindLocked_eq_some hfind
    have hwake := hI.requeue_wakes hfind wakeCount
    by_cases hzero : requeueCount = 0
    · have heq : after = ({ s with waits := woken s.waits targets 0 }, (targets.length : Int)) := by
        simp only [after, futexRequeue.requeue, hfind, hwake, if_pos hzero]
        rfl
      have hmn : movers = [] := by simp [movers, hzero]
      rw [heq] at hafter ⊢
      rw [hmn]
      exact ⟨by simp, hI.requeued_nobody htargets hafter⟩
    · obtain ⟨⟨target, s'⟩, hget⟩ := Option.isSome_iff_exists.1 (hroom.resolve_left hzero)
      have hgot := hI.toFutexCore.got hget
      have hst : (Sum.inl slot : Slot ⊕ Other) ≠ .inl target :=
        Sum.inl_injective.ne (hgot.ne hactive (by rw [hkey]; exact hne))
      have hI' := hI.wakeMask slot wakeCount bitsetAll
      rw [hwake] at hI'
      -- the threads to move are at the head of the queue when the targets have left it
      have hleft : (woken s.waits targets 0).waiters (.inl slot) =
          (s.waitersOf source).drop wakeCount.toNat := by
        simp only [woken, ← waitersOf_found hfind, targets]
        exact filter_not_mem_take (hI.waitersOf_nodup source)
      have hmove := hI'.waits.waitQueueRequeue_eq hst requeueCount (some target)
      have hgot' : GotSlot { s with waits := woken s.waits targets 0 } destination target
          { s' with waits := woken s.waits targets 0 } :=
        ⟨by rw [hgot.slots], hgot.others, hgot.before⟩
      obtain ⟨hlen, -⟩ := hI'.requeued hgot' hactive (by rw [hkey]; exact hne)
        (take_sublist requeueCount.toNat _)
      simp only [targets] at hleft
      simp only [hleft] at hmove hlen
      have heq : after = ({ s' with
          waits := moved (woken s.waits targets 0) (.inl target) movers (some target)
          slots := futexRequeueCounts s' slot target movers.length },
          (targets.length : Int) + movers.length) := by
        simp only [after, futexRequeue.requeue, hfind, hwake, if_neg hzero, futexSlotGetLocked_waits, hget,
          Option.map_some, hmove, if_neg (Nat.not_lt.2 hlen)]
        rfl
      have hdisj : ∀ t ∈ movers, t ∉ targets := by
        intro t hm ht
        have hnodup := hI.waitersOf_nodup source
        rw [← take_append_drop wakeCount.toNat (s.waitersOf source)] at hnodup
        exact (nodup_append.1 hnodup).2.2 t ht t (mem_of_mem_take hm) rfl
      rw [heq] at hafter ⊢
      exact ⟨rfl, hI.requeued_some hne ⟨hactive, hkey⟩ hgot htargets hmovers hdisj hafter⟩

section
variable (s : Futexes Tid Other Process)

omit hI [DecidableEq Process] [DecidableEq Tid] [DecidableEq Other] in
theorem futexSlotPutLocked_frame : (futexSlotPutLocked s slot).waits = s.waits ∧
      ∀ i, ((futexSlotPutLocked s slot).slots i).key = (s.slots i).key := by
  have hkey : ∀ entry : FutexSlot Process, entry.key = (s.slots slot).key →
      ∀ i, (update s.slots slot entry i).key = (s.slots i).key := by
    intro entry he i
    by_cases hi : i = slot
    · rw [hi, update_self, he]
    · rw [update_of_ne hi]
  simp only [futexSlotPutLocked]
  split_ifs
  · exact ⟨rfl, fun _ => rfl⟩
  · exact ⟨rfl, fun _ => rfl⟩
  · exact ⟨rfl, hkey _ rfl⟩
  · exact ⟨rfl, hkey _ rfl⟩

omit hI [DecidableEq Process] [DecidableEq Other] in
theorem futexWaitFinish_frame (t : Tid) (result : Int) :
    (futexWaitFinish s t result).1.waits.waiters = s.waits.waiters ∧
      ∀ i, ((futexWaitFinish s t result).1.slots i).key = (s.slots i).key := by
  unfold futexWaitFinish
  cases (s.waits.thread t).waitPrivate with
  | none => exact ⟨rfl, fun _ => rfl⟩
  | some =>
    obtain ⟨hwaits, hkeys⟩ := futexSlotPutLocked_frame s
    refine ⟨?_, hkeys⟩
    simp only [hwaits]
    rfl

end

omit hI [DecidableEq Process] in
/-- The sleep of `futex_wait` blocks, or leaves all queues and keys as they are. -/
theorem futexWaitSleep_cases (hI : WaitInv s.waits) (ht : s.waits.runs t)
    (hslot : (s.waits.thread t).waitPrivate ≠ none) {timeout : Timeout} {pending : Bool}
    {between : Between} :
    let after := futexWaitSleep s t slot timeout pending between
    (∃ deadline mode, after = ({ s with waits := blocked s.waits t (.inl slot) deadline mode }, .blocks)) ∨
      (after.2 ≠ .blocks ∧ after.1.waits.waiters = s.waits.waiters ∧
        ∀ i, (after.1.slots i).key = (s.slots i).key) := by
  have hblocks := hI.waitQueueSleep_blocks ht (.inl slot) timeout.call pending between
  have hawake := hI.waitQueueSleep_awake ht (.inl slot) timeout.call pending between
  unfold futexWaitSleep
  rcases hsleep : waitQueueSleep s.waits t (.inl slot) true timeout.call pending between with ⟨waits, ending⟩
  rw [hsleep] at hblocks hawake
  cases ending with
  | blocks =>
    obtain ⟨deadline, mode, heq⟩ := hblocks rfl
    subst heq
    exact .inl ⟨deadline, mode, rfl⟩
  | exits =>
    obtain ⟨thread, heq, -⟩ := hawake (by simp)
    subst heq
    exact .inr ⟨by simp [leaveForExit], rfl, fun _ => rfl⟩
  | returns result =>
    obtain ⟨thread, heq, -, -, -, hown, -⟩ := hawake (by simp)
    subst heq
    obtain ⟨own, hsome⟩ := Option.ne_none_iff_exists'.1 hslot
    rw [hsome] at hown
    exact .inr ⟨by simp [futexWaitFinish, hown], futexWaitFinish_frame _ t result⟩

/-- `futex_wait` with the slot it has got: the thread is at the end of the queue of its key when it sleeps, and
    nobody's queue has changed when it does not. -/
theorem FutexInv.futexWaitSleep_queues (ht : s.waits.runs t) (hget : futexSlotGetLocked s key = some (slot, s'))
    {bitset : Nat} {timeout : Timeout} {pending : Bool} {between : Between} {k : FutexKey Process} :
    let after := futexWaitSleep (futexWaitEnter s' t slot bitset) t slot timeout pending between
    FutexInv c' after.1 → after.1.waitersOf k =
      if after.2 = .blocks ∧ k = key then s.waitersOf k ++ [t] else s.waitersOf k := by
  intro after hafter
  have hgot := hI.toFutexCore.got hget
  obtain ⟨hC, hruns⟩ := hI.enter ht hget bitset
  have hqueue : (futexWaitEnter s' t slot bitset).waits.waiters = s.waits.waiters := by
    rw [hgot.slots]
    rfl
  have hslots : (futexWaitEnter s' t slot bitset).slots =
      update s.slots slot ⟨key, (s.slots slot).waiters + 1, true⟩ := by
    rw [hgot.slots]
    simp [futexWaitEnter]
  -- the slot had the key already if somebody was there
  have hkey : ∀ i, s.waits.waiters (.inl i) ≠ [] →
      ((futexWaitEnter s' t slot bitset).slots i).key = (s.slots i).key := by
    intro i hi
    rw [hslots]
    by_cases his : i = slot
    · subst his
      rw [update_self]
      exact (hgot.key_eq (hI.active_of_queue hi)).symm
    · rw [update_of_ne his]
  rcases futexWaitSleep_cases hC.waits hruns (by simp [futexWaitEnter, setWait]) with
    ⟨deadline, mode, heq⟩ | ⟨hend, hq, hk⟩
  · rw [show after = _ from heq] at hafter ⊢
    by_cases hkk : k = key
    · subst hkk
      have hown : ((futexWaitEnter s' t slot bitset).slots slot).key = k := by simp [hslots]
      rw [if_pos ⟨rfl, rfl⟩, hafter.waitersOf_eq hown]
      · rw [hI.waitersOf_got hgot, ← hqueue]
        simp only [blocked_waiters, if_true]
      · intro i hi hactive
        simp only [hslots, update_of_ne hi] at hactive ⊢
        exact hgot.others i hi hactive
    · rw [if_neg fun h => hkk h.2]
      refine hI.waitersOf_change (f := id) hafter rfl fun i hi => ⟨?_, hkey i⟩
      have his : i ≠ slot := by
        rintro rfl
        rcases hi with ⟨hactive, hki⟩ | ⟨-, hki⟩
        · exact hkk (hki.symm.trans (hgot.key_eq hactive))
        · rw [hslots, update_self] at hki
          exact hkk hki.symm
      simp only [blocked_waiters, hqueue, Sum.inl.injEq, if_neg his, id]
  · rw [if_neg fun h => hend h.1]
    refine hI.waitersOf_change (f := id) hafter rfl fun i _ => ⟨by rw [hq, hqueue, id], fun hi => ?_⟩
    rw [hk, hkey i hi]

/-- `futex_wait`: who waits for a key afterwards. -/
theorem FutexInv.futexWait_queues (ht : s.waits.runs t) {value : Option Nat}
    (expected bitset : Nat) {timeout : Timeout} {pending : Bool} {between : Between} {k : FutexKey Process} :
    let after := Sched.futexWait s t key value expected (bitset % 2 ^ 32) timeout pending between
    after.1.waitersOf k = if after.2 = .blocks ∧ k = key then s.waitersOf k ++ [t] else s.waitersOf k := by
  intro after
  obtain ⟨c', hafter⟩ : ∃ c', FutexInv c' after.1 := by
    rcases hI.futexWait ht key value expected bitset timeout pending between with ⟨-, h⟩ | ⟨-, slot, -, h⟩
    · exact ⟨_, h⟩
    · exact ⟨_, h⟩
  rcases futexWait_cases s t key value expected (bitset % 2 ^ 32) timeout pending between with
    ⟨error, heq, -⟩ | ⟨-, -, slot, s', hget, heq⟩
  · rw [show after = _ from heq, if_neg (by simp)]
  · rw [show after = _ from heq] at hafter ⊢
    exact hI.futexWaitSleep_queues ht hget hafter

/-! ## The other steps -/

/-- The queue keeps those who sleep on. -/
def Waits.keeps {Queue Private : Type} (s s' : Waits Tid Queue Private) (queue : Queue) : Prop :=
  s'.waiters queue = (s.waiters queue).filter fun t => (s'.thread t).state = .sleeping

omit hI [DecidableEq Tid] in
theorem WaitInv.keeps_same {s s' : Waits Tid Queue Private} (hI' : WaitInv s')
    (h : s'.waiters queue = s.waiters queue) : s.keeps s' queue := by
  unfold Waits.keeps
  rw [← h, eq_comm, filter_eq_self]
  intro t ht
  have hon := (hI'.mem t queue).1 ht
  simpa using (hI'.sleeping t).2 (by rw [hon]; rfl)

omit hI in
theorem Effect.keeps [DecidableEq Queue] {s s' : Waits Tid Queue Private} (hI : WaitInv s)
    {a : Action Tid Queue Private} (h : Effect s a s')
    (hsleep : ∀ t call pending between, a ≠ .sleep t queue call pending between)
    (hmove : ∀ source destination count own, a = .requeue source destination count own → source ≠ queue ∧
      destination ≠ queue) :
    s.keeps s' queue := by
  have hI' := hI.of_effect h
  cases h with
  | same | write t thread h => exact hI'.keeps_same rfl
  | wake l =>
    apply filter_congr
    intro t ht
    by_cases hm : t ∈ l
    · simp [hm, woken_thread_of_mem hm, Thread.wake]
    · have hon := (hI.mem t queue).1 ht
      have hasleep := (hI.sleeping t).2 (by rw [hon]; rfl)
      simp [hm, woken_thread_of_not_mem hm, hasleep]
  | move source destination count l own ha hl hm =>
    obtain ⟨hsource, hdestination⟩ := hmove _ _ _ _ ha
    refine hI'.keeps_same ?_
    simp only [moved, if_neg hdestination.symm]
    rw [filter_eq_self]
    intro t ht
    have hnot : t ∉ l := fun h => hsource (Option.some.inj ((hm t h).symm.trans ((hI.mem t _).1 ht)))
    simpa using hnot
  | block t q call pending between ha =>
    refine hI'.keeps_same ?_
    rw [blocked_waiters, if_neg]
    rintro rfl
    exact hsleep t call pending between ha

section
variable (a : FutexAction Tid Other Process)
  (hwait : ∀ t key value expected bitset timeout pending between,
    a ≠ .wait t key value expected bitset timeout pending between)
  (hwake : ∀ key count bitset, a ≠ .wake key count bitset)
  (hrequeue : ∀ source destination wakeCount requeueCount compare,
    a ≠ .requeue source destination wakeCount requeueCount compare)
include hwait hwake hrequeue

/-- A step that is neither a wait nor a wake nor a requeue keeps the keys of the slots, and takes those threads
    out of the queues that it wakes. -/
theorem FutexInv.step_keeps :
    (∀ i, ((s.step a).slots i).key = (s.slots i).key) ∧ ∀ i, s.waits.keeps (s.step a).waits (.inl i) := by
  have hW := (hI.step a).waits
  cases a with
  | wait => exact absurd rfl (hwait _ _ _ _ _ _ _ _)
  | wake => exact absurd rfl (hwake _ _ _)
  | requeue => exact absurd rfl (hrequeue _ _ _ _ _)
  | resume t =>
    suffices h : (∀ i, ((s.step (.resume t)).slots i).key = (s.slots i).key) ∧
        (s.step (.resume t)).waits.waiters = s.waits.waiters from
      ⟨h.1, fun i => hW.keeps_same (congrFun h.2 _)⟩
    simp only [Futexes.step, Futexes.perform]
    by_cases ht : s.waits.returns t
    · simp only [if_pos ht]
      obtain ⟨thread, hresume, -⟩ := hI.waits.waitQueueResume_awake ht
      simp only [Sched.futexResume, hresume]
      by_cases hterm : (s.waits.thread t).waitResult = waitQueueTerminated
      · simp only [if_pos hterm]
        exact ⟨fun _ => rfl, rfl⟩
      simp only [if_neg hterm]
      by_cases hin : s.inWait t
      · simp only [if_pos hin]
        have hframe := futexWaitFinish_frame { s with waits := s.waits.set t thread } t
          (s.waits.thread t).waitResult
        exact ⟨hframe.2, hframe.1⟩
      · simp only [if_neg hin]
        exact ⟨fun _ => trivial, rfl⟩
    · simp only [if_neg ht]
      exact ⟨fun _ => trivial, trivial⟩
  | sleep t queue call pending between =>
    have hkeeps : ∀ i, s.waits.keeps (s.waits.step (.sleep t (.inr queue) call pending between)) (.inl i) :=
      fun i => (hI.waits.step_effect _).keeps hI.waits (by simp) (by simp)
    simp only [Waits.step, Futexes.step, Futexes.perform] at hkeeps ⊢
    by_cases ht : s.waits.runs t
    · simp only [if_pos ht] at hkeeps ⊢
      rcases hsleep : waitQueueSleep s.waits t (.inr queue) true call pending between with ⟨waits, ending⟩
      rw [hsleep] at hkeeps
      cases ending with
      | exits | returns result | blocks => exact ⟨fun _ => rfl, hkeeps⟩
    · simp only [if_neg ht] at hkeeps ⊢
      exact ⟨fun _ => trivial, hkeeps⟩
  | beginExit t | clearExitRequest t | exit t =>
    refine ⟨fun i => ?_, fun i => hW.keeps_same ?_⟩ <;>
      · simp only [Futexes.step, Futexes.perform]
        split_ifs <;> rfl
  | elsewhere a =>
    simp only [Futexes.step, Futexes.perform] at hW ⊢
    cases he : (a.elsewhere : Option (Action Tid (Slot ⊕ Other) Slot)) with
    | none => exact ⟨fun _ => rfl, fun i => hI.waits.keeps_same rfl⟩
    | some a' =>
      by_cases hsets : a'.sets
      · simp only [if_pos hsets]
        exact ⟨fun _ => trivial, fun i => hI.waits.keeps_same rfl⟩
      · simp only [if_neg hsets]
        refine ⟨fun _ => trivial, fun i => (hI.waits.step_effect a').keeps hI.waits ?_ ?_⟩ <;>
          cases a <;> simp only [Action.elsewhere, Option.some.injEq, reduceCtorEq] at he <;> subst he <;> simp

/-- The queues after such a step. -/
theorem FutexInv.waitersOf_step (key : FutexKey Process) :
    (s.step a).waitersOf key =
      (s.waitersOf key).filter fun t => ((s.step a).waits.thread t).state = .sleeping := by
  obtain ⟨hkeys, hkeeps⟩ := hI.step_keeps a hwait hwake hrequeue
  exact hI.waitersOf_change (hI.step a) filter_nil fun i _ => ⟨hkeeps i, fun _ => hkeys i⟩

end

end

end

/-! ## Every run -/

section
variable [DecidableEq Tid] [DecidableEq Other]

/-- The threads of a key whose bits meet the mask. -/
def Futexes.matching (s : Futexes Tid Other Process) (key : FutexKey Process) (bitset : Nat) : List Tid :=
  (s.waitersOf key).filter fun t => (s.waits.thread t).waitBitset &&& bitset ≠ 0

/-- The value a requeue compares is as expected. -/
def comparesEqual : Option (Option Nat × Nat) → Prop
  | none => True
  | some (value, expected) => value = some expected

/-- What the calls do to the queues of a table. -/
structure FutexExact (s : Futexes Tid Other Process) : Prop where
  queued_once : ∀ key, (s.waitersOf key).Nodup
  queued_for_one : ∀ t key key', t ∈ s.waitersOf key → t ∈ s.waitersOf key' → key = key'
  /-- who sleeps in `futex_wait` is in a queue -/
  queued : ∀ t, (s.inWait t ∧ (s.waits.thread t).state = .sleeping) ↔ ∃ key, t ∈ s.waitersOf key
  wake : ∀ key count bitset, 0 ≤ count → bitset ≠ 0 →
    let targets := (s.matching key bitset).take count.toNat
    let after := futexWake s key count bitset
    after.2 = min count (s.matching key bitset).length ∧ Requeued s key key targets [] after.1
  mismatch : ∀ t key value expected bitset timeout pending between, value ≠ some expected →
    ∃ error, futexWait s t key value expected bitset timeout pending between = (s, .returns error)
  /-- the comparison and the queueing are one step -/
  wait : ∀ t key value expected bitset timeout pending between, s.waits.runs t → ∀ k,
    let after := futexWait s t key value expected (bitset % 2 ^ 32) timeout pending between
    after.1.waitersOf k = if after.2 = .blocks ∧ k = key then s.waitersOf k ++ [t] else s.waitersOf k
  /-- all other steps take threads out of the queues only, and wake them -/
  others : ∀ a : FutexAction Tid Other Process,
    (∀ t key value expected bitset timeout pending between,
      a ≠ .wait t key value expected bitset timeout pending between) →
    (∀ key count bitset, a ≠ .wake key count bitset) →
    (∀ source destination wakeCount requeueCount compare,
      a ≠ .requeue source destination wakeCount requeueCount compare) →
    ∀ key, (s.step a).waitersOf key =
      (s.waitersOf key).filter fun t => ((s.step a).waits.thread t).state = .sleeping

/-- A requeue wakes the first threads of the source and moves the next ones, as many as there are. -/
def RequeueExact (s : Futexes Tid Other Process) : Prop :=
  ∀ source destination wakeCount requeueCount compare, source ≠ destination → 0 ≤ wakeCount → 0 ≤ requeueCount →
    comparesEqual compare →
    let targets := (s.waitersOf source).take wakeCount.toNat
    let movers := ((s.waitersOf source).drop wakeCount.toNat).take requeueCount.toNat
    let after := futexRequeue s source destination wakeCount requeueCount compare
    after.2 = targets.length + movers.length ∧ Requeued s source destination targets movers after.1

variable {c : Slot → Nat} {s : Futexes Tid Other Process}

/-- A requeue that is not refused. -/
theorem futexRequeue_eq {source destination : FutexKey Process} (hne : source ≠ destination)
    {wakeCount requeueCount : Int} (hwake : 0 ≤ wakeCount) (hrequeue : 0 ≤ requeueCount)
    {compare : Option (Option Nat × Nat)} (hcompare : comparesEqual compare) :
    futexRequeue s source destination wakeCount requeueCount compare =
      futexRequeue.requeue s source destination wakeCount requeueCount := by
  unfold futexRequeue
  rw [if_neg (by simp; omega), if_neg hne]
  cases compare with
  | none => rfl
  | some pair =>
    obtain ⟨value, expected⟩ := pair
    have hvalue : value = some expected := hcompare
    subst hvalue
    simp only [ne_eq, not_true, if_false]

omit [DecidableEq Tid] [DecidableEq Other] in
/-- The threads that sleep in `futex_wait` are those in the queues. -/
theorem FutexInv.sleeping_iff (hI : FutexInv c s) (t : Tid) :
    (s.inWait t ∧ (s.waits.thread t).state = .sleeping) ↔ ∃ key, t ∈ s.waitersOf key := by
  constructor
  · rintro ⟨hin, hsleeping⟩
    obtain ⟨queue, hqueue⟩ := Option.isSome_iff_exists.1 ((hI.waits.sleeping t).1 hsleeping)
    cases queue with
    | inl => exact ⟨_, hI.mem_waitersOf ((hI.waits.mem t _).2 hqueue)⟩
    | inr other => exact absurd hqueue (hI.away t other hin)
  · rintro ⟨key, ht⟩
    obtain ⟨slot, -, -, heq⟩ := exists_slot_of_waitersOf (ne_nil_of_mem ht)
    rw [heq] at ht
    have hqueue := (hI.waits.mem t _).1 ht
    exact ⟨(hI.queued t slot hqueue).1.1, (hI.waits.sleeping t).2 (by rw [hqueue]; rfl)⟩

theorem FutexInv.exact (hI : FutexInv c s) : FutexExact s where
  queued_once := hI.waitersOf_nodup
  queued_for_one := fun t key key' => hI.waitersOf_unique
  queued := hI.sleeping_iff
  wake := by
    intro key count bitset hcount hbitset targets after
    have hI' := hI.futexWake key count bitset
    have heq : after = ({ s with waits := woken s.waits targets 0 }, (targets.length : Int)) :=
      hI.futexWake_eq hcount hbitset
    change FutexInv c after.1 at hI'
    rw [heq] at hI' ⊢
    refine ⟨?_, hI.requeued_nobody (fun t ht => mem_of_mem_filter (mem_of_mem_take ht)) hI'⟩
    simp only [targets, length_take]
    omega
  mismatch := by
    intro t key value expected bitset timeout pending between hv
    rcases futexWait_cases s t key value expected bitset timeout pending between with ⟨error, heq, -⟩ | ⟨-, heq, -⟩
    · exact ⟨error, heq⟩
    · exact absurd heq hv
  wait := fun t key value expected bitset timeout pending between ht k =>
    hI.futexWait_queues ht expected bitset
  others := hI.waitersOf_step

end

section
variable [DecidableEq Other] {s : Futexes (Fin nthread) Other Process}

omit [DecidableEq Other] in
/-- Where no slot has been lost there is one for every key: each slot that is in use is that of a thread. -/
theorem FutexInv.room (hI : FutexInv (fun _ => 0) s) (key : FutexKey Process) :
    (futexSlotGetLocked s key).isSome := by
  rw [Option.isSome_iff_ne_none]
  intro hnone
  have hthread : ∀ i, ∃ t, s.waitsOn i t := by
    intro i
    obtain ⟨n, ⟨l, -, hmem, hlength⟩, hsum⟩ := hI.count i
    have hpos := (hI.active i).1 (futexSlotGetLocked_eq_none hnone i).1
    obtain ⟨t, ht⟩ := exists_mem_of_ne_nil l fun hl => by
      rw [hl] at hlength
      exact hpos (by rw [← hsum, ← hlength]; rfl)
    exact ⟨t, (hmem t).1 ht⟩
  choose thread hwaits using hthread
  have hinj : Function.Injective thread := by
    intro i j heq
    have hi := (hwaits i).2
    rw [heq, (hwaits j).2] at hi
    injection hi with hi
    exact hi.symm
  have hnodup := (nodup_finRange futexSlotCount).map hinj
  have hle := (subperm_of_subset hnodup fun t _ => mem_finRange t).length_le
  rw [length_map, length_finRange, length_finRange] at hle
  exact absurd hle (by decide)

/-- **Waking and requeueing are exact**: in every run for the waits and the wakes, and where no thread leaves
    `futex_wait` for `process_thread_exit` for the requeues too. -/
theorem futex_queues_exact (l : List (FutexAction (Fin nthread) Other Process)) :
    FutexExact (run l) ∧
      (Along Futexes.step (fun s a => s.lost a = none) Futexes.boot l → RequeueExact (run l)) := by
  refine ⟨(FutexInv.run l).exact, fun hl => ?_⟩
  have hI : FutexInv (fun _ => 0) (run l) := FutexInv.run_keeps hl
  intro source destination wakeCount requeueCount compare hne hwake hrequeue hcompare targets movers after
  have heq : after = futexRequeue.requeue (run l) source destination wakeCount requeueCount :=
    futexRequeue_eq hne hwake hrequeue hcompare
  rw [heq]
  exact hI.requeue_moves hne (.inr (hI.room destination))

end

/-! ## Lost slots -/

/-- The thread that is allocated starts and waits for a word. Its exit is requested, so that it goes on to
    `process_thread_exit` and is freed, and another one is allocated. -/
def leaving (key : FutexKey Nat) : List (FutexAction (Fin nthread) Unit Nat) :=
  [.elsewhere (.start 0), .elsewhere (.schedule 0), .elsewhere (.requestExit 0),
    .wait 0 key (some 0) 0 bitsetAll .never false ⟨false, false⟩, .clearExitRequest 0, .exit 0, .elsewhere (.free 0),
    .elsewhere (.alloc 0)]

/-- The words of a process. -/
def word (n : Nat) : FutexKey Nat := ⟨some 0, 4 * n, false⟩

/-- A thread for each of the first words. -/
def leavers : Nat → List (FutexAction (Fin nthread) Unit Nat)
  | 0 => [.elsewhere (.alloc 0)]
  | n + 1 => leavers n ++ leaving (word n)

/-- The first slots have a waiter, and no thread is left. -/
def lostState (n : Nat) : Futexes (Fin nthread) Unit Nat :=
  ⟨⟨update (fun _ => Thread.unused) 0 { Thread.unused with state := .allocated }, fun _ => [], [], none⟩,
    fun i => if i.val < n then ⟨word i, 1, true⟩ else ⟨⟨none, 0, false⟩, 0, false⟩, fun _ => false, fun _ => false,
    none⟩

/-- The next word gets the next slot. -/
theorem lostState_next {n : Nat} (hn : n < futexSlotCount) (waits : Waits (Fin nthread) (Slot ⊕ Unit) Slot) :
    let s := { lostState n with waits := waits }
    futexSlotGetLocked s (word n) =
      some (⟨n, hn⟩, { s with slots := update s.slots ⟨n, hn⟩ ⟨word n, 0, true⟩ }) := by
  intro s
  have hfind : futexSlotFindLocked s (word n) = none := by
    refine List.find?_eq_none.2 fun i _ => ?_
    by_cases hi : i.val < n
    · have hne : ¬4 * i.val = 4 * n := by omega
      simp [s, lostState, hi, word, hne]
    · simp [s, lostState, hi]
  have hfree : ((List.finRange futexSlotCount).find? fun i => !(s.slots i).active) = some ⟨n, hn⟩ := by
    rw [List.find?_eq_some_iff_getElem]
    refine ⟨by simp [s, lostState], n, by simpa using hn, by simp, fun j hj => ?_⟩
    simp [s, lostState, hj]
  unfold futexSlotGetLocked
  rw [hfind]
  simp only [hfree]

theorem leaving_eq {n : Nat} (hn : n < futexSlotCount) :
    (leaving (word n)).foldl Futexes.step (lostState n) = lostState (n + 1) := by
  have hget := lostState_next hn
  have hbits : bitsetAll % 4294967296 = bitsetAll := rfl
  have hall : ¬bitsetAll = 0 := by decide
  have hslots : update (lostState n).slots ⟨n, hn⟩ ⟨word n, 1, true⟩ = (lostState (n + 1)).slots := by
    funext i
    by_cases hi : i.val = n
    · obtain rfl : i = ⟨n, hn⟩ := Fin.ext hi
      simp [lostState]
    · have hne : i ≠ ⟨n, hn⟩ := fun he => hi (congrArg Fin.val he)
      have hlt : i.val < n + 1 ↔ i.val < n := by omega
      simp only [update_of_ne hne, lostState, hlt]
  simp only [lostState] at hget hslots
  -- the steps, one after the other
  simp [lostState, leaving, Futexes.step, Futexes.perform, Action.elsewhere, Action.sets, Waits.step, threadAlloc,
    threadStart, schedule, requestThreadExit, threadFree, clearExitRequest, schedulerExit, leaveForExit, Thread.unused,
    Waits.set, Waits.runs, hbits, hall, futexWait, hget, futexWaitSleep, waitQueueSleep, Timeout.call,
    SleepCall.arguments, waitQueueSleepDeadline, futexWaitEnter, setWait, hslots]
  funext t
  by_cases ht : t = 0
  · simp [ht]
  · simp [update_of_ne ht]

theorem run_leavers {n : Nat} (hn : n ≤ futexSlotCount) : run (leavers n) = lostState n := by
  induction n with
  | zero =>
    simp [leavers, run, boot, Waits.boot, lostState, Futexes.step, Futexes.perform, Action.elsewhere, Action.sets,
      Waits.step, threadAlloc, Thread.unused, Waits.set]
  | succ n ih =>
    have hrun : run (leavers (n + 1)) = (leaving (word n)).foldl Futexes.step (run (leavers n)) := by
      simp only [leavers, run, foldl_append]
    rw [hrun, ih (Nat.le_of_succ_le hn), leaving_eq hn]

/-- Two threads wait for the first word. -/
def twoWaiters : List (FutexAction (Fin nthread) Unit Nat) :=
  [.elsewhere (.alloc 1), .elsewhere (.start 1), .elsewhere (.schedule 1),
    .wait 1 (word 0) (some 0) 0 bitsetAll .never false ⟨false, false⟩, .elsewhere (.alloc 2), .elsewhere (.start 2),
    .elsewhere (.schedule 2), .wait 2 (word 0) (some 0) 0 bitsetAll .never false ⟨false, false⟩]

/-- With all slots lost, nobody is moved to another word. -/
theorem requeue_stays_when_lost :
    let s := run (leavers futexSlotCount ++ twoWaiters)
    let after := futexRequeue s (word 0) (word 128) 1 1 none
    s.waitersOf (word 0) = [1, 2] ∧ after.2 = 1 ∧ after.1.waitersOf (word 0) = [2] ∧
      after.1.waitersOf (word 128) = [] := by
  have hrun : run (leavers futexSlotCount ++ twoWaiters) =
      twoWaiters.foldl Futexes.step (lostState futexSlotCount) := by
    rw [← run_leavers le_rfl]
    exact foldl_append
  rw [hrun]
  decide +kernel

end Caffeinix.Sched
