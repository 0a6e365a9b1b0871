import Caffeinix.Lib.Runs
import Caffeinix.Signal.Model

/-!
# `Signal.Pending` — pending sets are queues

What a pending set is for: a queue of siginfo for each signal (`Pending.queue`), of length at most one for a
standard signal. Storing puts an entry at the end, taking takes the first one, and clearing empties the queue of
one signal; the bits, the list and the count of the source agree with that in every state (`PendingOk`). The sets
of a process and its threads change in no other way, the lowest signal is taken first and a thread's own before
the process's, and SIGCONT and stop signals are not pending together.
-/

namespace Caffeinix.Signal

open Function List Proc Pending
open Proc (mapThreads)
open Option (map_eq_some_iff)

variable {D : Type} {q q' : Pending D} {s x : Sig} {info : Info D}

theorem Sig.number_inj (h : s.number = x.number) : s = x := Fin.ext (Nat.succ.inj h)

/-! ## One set -/

/-- The entries of one signal. -/
def Pending.queue (q : Pending D) (s : Sig) : List (Info D) :=
  if s.realtime then q.realtime.filter (·.signal = s.number) else if q.bits s then [q.information s] else []

structure PendingOk (q : Pending D) : Prop where
  bit : ∀ s, q.bits s = true ↔ q.queue s ≠ []
  count : q.realtimeCount = q.realtime.length ∧ q.realtimeCount ≤ signalRealtimeLimit

theorem PendingOk.init [Inhabited D] : PendingOk (.init : Pending D) :=
  ⟨by simp [Pending.init, Pending.queue], rfl, Nat.zero_le _⟩

/-- Nothing is left of the signal, and the others stay. -/
theorem Pending.clear_queue [Inhabited D] (q : Pending D) :
    (q.clear s).queue x = (if x = s then [] else q.queue x) ∧
      (q.clear s).bits x = (if x = s then false else q.bits x) := by
  unfold Pending.queue Pending.clear
  by_cases hxs : x = s
  · subst hxs
    simp [filter_filter]
  have hne : x.number ≠ s.number := fun he => hxs (Sig.number_inj he)
  simp only [update_of_ne hxs, if_neg hxs, filter_filter, and_true]
  congr 1
  apply filter_congr
  grind

theorem PendingOk.clear [Inhabited D] (h : PendingOk q) (s : Sig) : PendingOk (q.clear s) := by
  refine ⟨fun x => ?_, ?_, (Nat.sub_le _ _).trans h.count.2⟩
  · rw [q.clear_queue.1, q.clear_queue.2]
    split_ifs
    · simp
    · exact h.bit x
  · have hlen := length_eq_countP_add_countP (fun e : Info D => decide (e.signal = s.number)) (l := q.realtime)
    simp only [Pending.clear, h.count.1, ← countP_eq_length_filter, ne_eq, decide_eq_true_eq] at hlen ⊢
    omega

/-- What is queued. -/
def stored [Inhabited D] (s : Sig) (information : Option (Info D)) : Info D :=
  { information.getD ⟨s.number, default⟩ with signal := s.number }

variable {information : Option (Info D)} {malloc : Bool} {p₁ : Proc D} {l : List Sig}

/-- A realtime signal is queued behind, a standard one unless it is pending. -/
theorem Pending.store_queue [Inhabited D] (hs : q.store s information malloc = some q') :
    (q'.bits s = true ∧
      q'.queue s = if s.realtime ∨ q.queue s = [] then q.queue s ++ [stored s information] else q.queue s) ∧
      ∀ x, x ≠ s → q'.queue x = q.queue x ∧ q'.bits x = q.bits x := by
  unfold Pending.store at hs
  split_ifs at hs with hrt hfull hbit <;> cases hs
  · refine ⟨by simp [Pending.queue, hrt, stored], fun x hxs => ⟨?_, update_of_ne hxs _ _⟩⟩
    have hne : s.number ≠ x.number := fun he => hxs (Sig.number_inj he).symm
    simp [Pending.queue, hxs, hne]
  · simp [Pending.queue, hrt, hbit]
  · refine ⟨by simp [Pending.queue, hrt, hbit, stored], fun x hxs => ⟨?_, update_of_ne hxs _ _⟩⟩
    simp [Pending.queue, hxs]

theorem PendingOk.store [Inhabited D] (h : PendingOk q) (hs : q.store s information malloc = some q') :
    PendingOk q' := by
  obtain ⟨⟨hbit, hqueue⟩, hother⟩ := store_queue hs
  refine ⟨fun x => ?_, ?_⟩
  · by_cases hxs : x = s
    · subst hxs
      refine iff_of_true hbit ?_
      rw [hqueue]
      split_ifs with hc
      · simp
      · exact fun hnil => hc (.inr hnil)
    · rw [(hother x hxs).1, (hother x hxs).2]
      exact h.bit x
  · unfold Pending.store at hs
    split_ifs at hs with hrt hfull <;> cases hs
    · simp only [Bool.or_eq_true, decide_eq_true_eq, not_or, Nat.not_le] at hfull
      exact ⟨by simp [h.count.1], hfull.1⟩
    · exact h.count
    · exact h.count

/-- The first entry of a signal and the others. -/
theorem filter_eq_cons_eraseP {α : Type} {p : α → Bool} {l : List α} {a : α} (h : l.find? p = some a) :
    l.filter p = a :: (l.eraseP p).filter p := by
  induction l with
  | nil => cases h
  | cons b => cases hb : p b <;> simp_all

/-- The oldest of the signal is taken. -/
theorem Pending.take_queue [Inhabited D] (hbit : q.bits s = true) (hs : q.take s = some (info, q')) :
    (q.queue s = info :: q'.queue s ∧ (q'.bits s = true ↔ q'.queue s ≠ [])) ∧
      ∀ x, x ≠ s → q'.queue x = q.queue x ∧ q'.bits x = q.bits x := by
  unfold Pending.take at hs
  split_ifs at hs with hrt
  · obtain ⟨e, he, heq⟩ := map_eq_some_iff.mp hs
    cases heq
    refine ⟨⟨by simp [Pending.queue, hrt, filter_eq_cons_eraseP he], ?_⟩, fun x hxs => ⟨?_, ?_⟩⟩
    · simp only [Pending.queue, hrt, if_true, ne_eq, filter_eq_nil_iff]
      split_ifs with hany
      · simpa [hbit] using hany
      · simpa using hany
    · obtain ⟨a, l₁, l₂, -, ha, hsplit, herase⟩ := exists_of_eraseP (mem_of_find?_eq_some he)
        (find?_some he)
      have hne : a.signal ≠ x.number := fun hx => hxs (Sig.number_inj (hx.symm.trans (of_decide_eq_true ha)))
      simp only [Pending.queue, herase]
      rw [hsplit]
      split_ifs <;> simp_all
    · dsimp only
      split_ifs <;> simp [hxs]
  · cases hs
    refine ⟨by simp [Pending.queue, hrt, hbit], fun x hxs => ⟨?_, update_of_ne hxs _ _⟩⟩
    simp [Pending.queue, hxs]

theorem PendingOk.take [Inhabited D] (h : PendingOk q) (hbit : q.bits s = true) (hs : q.take s = some (info, q')) :
    PendingOk q' := by
  obtain ⟨⟨-, hself⟩, hother⟩ := take_queue hbit hs
  refine ⟨fun x => ?_, ?_⟩
  · by_cases hxs : x = s
    · rw [hxs]
      exact hself
    · rw [(hother x hxs).1, (hother x hxs).2]
      exact h.bit x
  · unfold Pending.take at hs
    split_ifs at hs with hrt
    · obtain ⟨e, he, heq⟩ := map_eq_some_iff.mp hs
      cases heq
      have hlen := length_eraseP_of_mem (mem_of_find?_eq_some he) (find?_some he)
      exact ⟨by simp only [hlen, h.count.1], (Nat.sub_le _ _).trans h.count.2⟩
    · cases hs
      exact h.count

/-- The `PANIC` of the source is not reached. -/
theorem PendingOk.take_isSome [Inhabited D] (h : PendingOk q) (hbit : q.bits s = true) : ∃ info q', q.take s = some
    (info, q') := by
  have hne := (h.bit s).mp hbit
  unfold Pending.take
  split_ifs with hrt
  · cases hfind : q.realtime.find? (·.signal = s.number) with
    | some => exact ⟨_, _, rfl⟩
    | none =>
      refine absurd ?_ hne
      simpa [Pending.queue, hrt] using hfind
  · exact ⟨_, _, rfl⟩

/-! ## The sets of a process -/

variable {p p' : Proc D} {t u : Slot} {th : Thread D}

/-- SIGKILL and SIGSTOP are not in it. -/
def Sane (mask : SigSet) : Prop := ∀ s, signalUnmaskable s = true → mask s = false

structure ThreadOk (th : Thread D) : Prop where
  pending : PendingOk th.pending
  mask : Sane th.mask
  saved : Sane th.savedMask

/-- The signal is pending somewhere in the process. -/
def Proc.Has (p : Proc D) (s : Sig) : Prop :=
  p.pending.bits s = true ∨ ∃ t th, p.thread t = some th ∧ th.pending.bits s = true

structure SigInv (p : Proc D) : Prop where
  pending : PendingOk p.pending
  thread : ∀ t th, p.thread t = some th → ThreadOk th
  apart : ∀ s, signalDefaultStops s = true → p.Has linuxSigcont → ¬ p.Has s
  panic : p.panic = false

/-- The queue of the process or of one of its threads. -/
def Proc.queueAt (p : Proc D) (who : Option Slot) (s : Sig) : List (Info D) :=
  match who with
  | none => p.pending.queue s
  | some t => (p.thread t).elim [] (·.pending.queue s)

theorem SigInv.has_iff (h : SigInv p) : p.Has s ↔ ∃ who, p.queueAt who s ≠ [] := by
  constructor
  · rintro (hbit | ⟨t, th, ht, hbit⟩)
    · exact ⟨none, (h.pending.bit s).mp hbit⟩
    · exact ⟨some t, by simpa [Proc.queueAt, ht] using ((h.thread t th ht).pending.bit s).mp hbit⟩
  · rintro ⟨_ | t, hne⟩
    · exact .inl ((h.pending.bit s).mpr hne)
    · cases ht : p.thread t with
      | none => simp [Proc.queueAt, ht] at hne
      | some th =>
        exact .inr ⟨t, th, ht, ((h.thread t th ht).pending.bit s).mpr (by simpa [Proc.queueAt, ht] using hne)⟩

/-- What a step may do to the queues. -/
structure Change (D : Type) where
  /-- the entry that it stores, and where -/
  stores : Option (Option Slot × Info D)
  /-- the queue that it takes an entry from -/
  takes : Option (Option Slot × Sig)
  /-- the signals that it clears -/
  clears : List Sig
  /-- the slot whose thread begins or ends -/
  renews : Option Slot

/-- Nothing is done to them. -/
def Change.none : Change D := ⟨.none, .none, [], .none⟩

/-- A queue stays, unless it gets the entry that is stored at its end, loses the first entry because one of its
    signal is taken, or is emptied because its signal is cleared or its thread begins or ends. The queue of a standard
    signal gets an entry only if it is empty. -/
def Fifo (o : Change D) (who : Option Slot) (s : Sig) (l l' : List (Info D)) : Prop :=
  l' = l ∨
    (∃ info, o.stores = some (who, info) ∧ info.signal = s.number ∧ l' = l ++ [info] ∧ (s.realtime = true ∨ l = [])) ∨
    o.takes = some (who, s) ∧ l' = l.tail ∨ (s ∈ o.clears ∨ who.isSome ∧ who = o.renews) ∧ l' = []

/-- A step keeps the invariant, and changes no more of the queues than it may. -/
structure Moves (o : Change D) (p p' : Proc D) : Prop where
  inv : SigInv p'
  fifo : ∀ who s, Fifo o who s (p.queueAt who s) (p'.queueAt who s)

variable {o : Change D}

theorem SigInv.refl (h : SigInv p) : Moves o p p := ⟨h, fun _ _ => .inl rfl⟩

/-- The queues are those of the process and of its threads. -/
theorem Proc.queueAt_congr {a b : Proc D} (hpending : b.pending = a.pending)
    (hthread : ∀ t, (b.thread t).map (·.pending) = (a.thread t).map (·.pending)) (who : Option Slot) (s : Sig) :
    b.queueAt who s = a.queueAt who s := by
  cases who with
  | none => rw [Proc.queueAt, Proc.queueAt, hpending]
  | some t =>
    have ht := hthread t
    cases ha : a.thread t <;> cases hb : b.thread t <;> simp [Proc.queueAt, ha, hb] at ht ⊢
    rw [ht]

theorem Proc.queueAt_map {f : Slot → Thread D → Thread D} (hpending : ∀ i th, (f i th).pending = th.pending)
    (who : Option Slot) : (p.mapThreads f).queueAt who s = p.queueAt who s :=
  queueAt_congr (a := p) (b := p.mapThreads f) rfl (fun t => by simp [mapThreads, comp_def, hpending]) who s

/-- A change of the threads that keeps their sets. -/
theorem Moves.map (h : Moves o p p') {f : Slot → Thread D → Thread D}
    (hpending : ∀ i th, (f i th).pending = th.pending)
    (hmask : ∀ i th, Sane th.mask → Sane th.savedMask → Sane (f i th).mask ∧ Sane (f i th).savedMask) :
    Moves o p (p'.mapThreads f) := by
  have hhas : ∀ s, (p'.mapThreads f).Has s → p'.Has s := by
    rintro s (hs | ⟨t, th, ht, hs⟩)
    · exact .inl hs
    · obtain ⟨th', ht', rfl⟩ := map_eq_some_iff.mp ht
      rw [hpending] at hs
      exact .inr ⟨t, th', ht', hs⟩
  refine ⟨⟨h.inv.pending, fun t th ht => ?_, fun s hs hc hh => h.inv.apart s hs (hhas _ hc) (hhas _ hh), h.inv.panic⟩,
    fun who s => ?_⟩
  · obtain ⟨th', ht', rfl⟩ := map_eq_some_iff.mp ht
    obtain ⟨hok, hm, hs⟩ := h.inv.thread t th' ht'
    obtain ⟨hm', hs'⟩ := hmask t th' hm hs
    exact ⟨by rwa [hpending], hm', hs'⟩
  · rw [queueAt_map hpending]
    exact h.fifo who s

/-- A thread changes, but not what is pending for it. -/
theorem Moves.modify (h : Moves o p p') {f : Thread D → Thread D} (hpending : ∀ th, (f th).pending = th.pending)
    (hmask : ∀ th, Sane th.mask → Sane th.savedMask → Sane (f th).mask ∧ Sane (f th).savedMask) :
    Moves o p (p'.modify t f) := by
  refine h.map (fun i th => ?_) fun i th hm hs => ?_ <;> split_ifs
  · exact hpending th
  · rfl
  · exact hmask th hm hs
  · exact ⟨hm, hs⟩

theorem Moves.setPhase (h : Moves o p p') (k : Phase) : Moves o p (p'.setPhase t k) :=
  h.modify (fun _ => rfl) fun _ hm hs => ⟨hm, hs⟩

/-- Only the targets of a thread have changed, what is counted of them, and the sleep they end. -/
def Thread.Kept (th th' : Thread D) : Prop :=
  th'.pending = th.pending ∧ th'.mask = th.mask ∧ th'.savedMask = th.savedMask ∧
    (th'.phase = th.phase ∨ th.phase = .asleep ∧ th'.phase = .running)

theorem Phase.interrupt_cases (k : Phase) : k.interrupt = k ∨ k = .asleep ∧ k.interrupt = .running := by
  cases k <;> simp [Phase.interrupt]

def Retargeted (p p' : Proc D) : Prop :=
  ∃ f : Slot → Thread D → Thread D, p' = p.mapThreads f ∧ ∀ i th, Thread.Kept th (f i th)

/-- Choosing another thread moves nothing. -/
theorem Moves.retargeted (h : Moves o p p₁) (hr : Retargeted p₁ p') : Moves o p p' := by
  obtain ⟨f, rfl, hf⟩ := hr
  refine h.map (fun i th => (hf i th).1) fun i th hm hs => ?_
  rw [(hf i th).2.1, (hf i th).2.2.1]
  exact ⟨hm, hs⟩

theorem Moves.wakeAll (h : Moves o p p') : Moves o p p'.wakeAll := h.map (fun _ _ => rfl) fun _ _ hm hs => ⟨hm, hs⟩

/-- Other fields do not matter. -/
theorem Moves.fields (h : Moves o p p') (actions : Sig → Action) (stopped groupExiting live : Bool) :
    Moves o p { p' with actions := actions, stopped := stopped, groupExiting := groupExiting, live := live } :=
  ⟨⟨h.inv.pending, h.inv.thread, h.inv.apart, h.inv.panic⟩, h.fifo⟩

/-! ## Retargeting -/

theorem Thread.Kept.refl (th : Thread D) : th.Kept th := ⟨rfl, rfl, rfl, .inl rfl⟩

theorem Thread.Kept.trans {th' th'' : Thread D} (h : th.Kept th') (h' : th'.Kept th'') : th.Kept th'' := by
  refine ⟨h'.1.trans h.1, h'.2.1.trans h.2.1, h'.2.2.1.trans h.2.2.1, ?_⟩
  rcases h'.2.2.2 with hp | ⟨hp, hp'⟩
  · rw [hp]
    exact h.2.2.2
  · rcases h.2.2.2 with hq | ⟨-, hq⟩ <;> rw [hq] at hp
    · exact .inr ⟨hp, hp'⟩
    · cases hp

theorem Retargeted.refl (p : Proc D) : Retargeted p p := ⟨fun _ th => th, by simp [mapThreads], fun _ => .refl⟩

section
variable (h : Retargeted p p')
include h

theorem Retargeted.map {g : Slot → Thread D → Thread D} (hg : ∀ i th, Thread.Kept th (g i th)) :
    Retargeted p (p'.mapThreads g) := by
  obtain ⟨f, rfl, hf⟩ := h
  exact ⟨fun i th => g i (f i th), by simp [mapThreads, comp_def], fun i th => (hf i th).trans (hg i _)⟩

theorem Retargeted.targetClear (s : Sig) : Retargeted p (p'.targetClear s) :=
  h.map fun _ _ => ⟨rfl, rfl, rfl, .inl rfl⟩

theorem Retargeted.modify (t : Slot) {g : Thread D → Thread D} (hg : ∀ th, Thread.Kept th (g th)) :
    Retargeted p (p'.modify t g) := by
  refine h.map fun i th => ?_
  split_ifs
  · exact hg th
  · exact .refl th

theorem Retargeted.targetWake (t : Slot) : Retargeted p (p'.targetWake t) :=
  h.modify t fun th => ⟨rfl, rfl, rfl, th.phase.interrupt_cases⟩

theorem Retargeted.retarget (s : Sig) (exclude : Option Slot) : Retargeted p (p'.retarget s exclude) := by
  unfold Proc.retarget
  split_ifs
  · exact h.targetClear s
  · exact h
  · split
    · exact h.targetClear s
    · refine .targetWake ?_ _
      exact (h.targetClear s).modify _ fun _ => ⟨rfl, rfl, rfl, .inl rfl⟩

theorem Retargeted.retargetAll (set : SigSet) (exclude : Option Slot) :
    Retargeted p (p'.retargetAll set exclude) := by
  refine Runs.foldl_invariant (fun p₁ s h₁ => ?_) h _
  split_ifs
  · exact h₁.retarget s exclude
  · exact h₁

end

theorem Moves.maskChanged (h : Moves o p p') : Moves o p p'.maskChanged :=
  h.retargeted ((Retargeted.refl p').retargetAll _ _)

theorem Retargeted.detach (p : Proc D) (t : Slot) (th : Thread D) : Retargeted p (p.detach t th) := by
  refine .retargetAll ?_ _ _
  exact (Retargeted.refl p).modify t fun _ => ⟨rfl, rfl, rfl, .inl rfl⟩

/-! ## Taking -/

/-- The signals that a signal clears when it is generated. -/
def beats (s : Sig) : List Sig :=
  if s = linuxSigcont then [linuxSigstop, linuxSigtstp, linuxSigttin, linuxSigttou]
  else if signalDefaultStops s then [linuxSigcont] else []

theorem mem_beats_cont : x ∈ beats linuxSigcont ↔ signalDefaultStops x = true := by
  simp [beats, signalDefaultStops, or_assoc]

/-- A pending signal has discarded those that it beats. -/
theorem SigInv.unbeaten (h : SigInv p) (hs : p.Has s) : ∀ x ∈ beats s, ¬ p.Has x := by
  intro x hx hh
  by_cases hcont : s = linuxSigcont
  · subst hcont
    exact h.apart x (mem_beats_cont.mp hx) hs hh
  rw [beats, if_neg hcont] at hx
  split_ifs at hx with hstop
  · rw [mem_singleton] at hx
    exact h.apart s hstop (hx ▸ hh) hs
  · cases hx

/-- What may be pending in the next state, if nothing is pending that `s` clears. -/
theorem SigInv.apart_add (h : SigInv p) (hbeat : ∀ x ∈ beats s, ¬ p.Has x) (hhas : ∀ x, p'.Has x → x = s ∨ p.Has x) :
    ∀ x, signalDefaultStops x = true → p'.Has linuxSigcont → ¬ p'.Has x := by
  intro x hx hc hh
  rcases hhas _ hc with hcs | hc
  · rcases hhas x hh with hxs | hh
    · rw [hxs, ← hcs] at hx
      exact absurd hx (by decide)
    · exact hbeat x (hcs ▸ mem_beats_cont.mpr hx) hh
  rcases hhas x hh with hxs | hh
  · have hne : s ≠ linuxSigcont := by
      rintro rfl
      rw [hxs] at hx
      exact absurd hx (by decide)
    exact hbeat _ (by rw [beats, if_neg hne, if_pos (hxs ▸ hx)]; exact mem_singleton_self _) hc
  · exact h.apart x hx hc hh

/-- The set of the process changes in the queue of one signal. -/
theorem SigInv.setPending (h : SigInv p) (hbeat : ∀ x ∈ beats s, ¬ p.Has x) (hq : PendingOk q)
    (hself : Fifo o none s (p.pending.queue s) (q.queue s))
    (hother : ∀ x, x ≠ s → q.queue x = p.pending.queue x ∧ q.bits x = p.pending.bits x) :
    Moves o p { p with pending := q } := by
  refine ⟨⟨hq, h.thread, h.apart_add hbeat fun x hx => ?_, h.panic⟩, fun who x => ?_⟩
  · by_cases hxs : x = s
    · exact .inl hxs
    · refine .inr (hx.imp_left fun hbit => ?_)
      rwa [← (hother x hxs).2]
  · cases who with
    | none =>
      by_cases hxs : x = s
      · rw [hxs]
        exact hself
      · exact .inl (hother x hxs).1
    | some => exact .inl rfl

theorem Proc.modify_thread (p : Proc D) (t u : Slot) (f : Thread D → Thread D) :
    (p.modify t f).thread u = if u = t then (p.thread t).map f else p.thread u := by
  by_cases hu : u = t
  · subst hu
    simp [Proc.modify, mapThreads]
  · cases hp : p.thread u <;> simp [Proc.modify, mapThreads, hp, hu]

/-- The set of a thread does. -/
theorem SigInv.setThread (h : SigInv p) (ht : p.thread t = some th) (hbeat : ∀ x ∈ beats s, ¬ p.Has x)
    (hq : PendingOk q) (hself : Fifo o (some t) s (th.pending.queue s) (q.queue s))
    (hother : ∀ x, x ≠ s → q.queue x = th.pending.queue x ∧ q.bits x = th.pending.bits x) :
    Moves o p (p.modify t fun th => { th with pending := q }) := by
  refine ⟨⟨h.pending, fun u th' hu => ?_, h.apart_add hbeat fun x hx => ?_, h.panic⟩, fun who x => ?_⟩
  · rw [modify_thread, ht] at hu
    split_ifs at hu
    · cases hu
      obtain ⟨-, hm, hs⟩ := h.thread t th ht
      exact ⟨hq, hm, hs⟩
    · exact h.thread u th' hu
  · rcases hx with hbit | ⟨u, th', hu, hbit⟩
    · exact .inr (.inl hbit)
    rw [modify_thread, ht] at hu
    split_ifs at hu
    · cases hu
      by_cases hxs : x = s
      · exact .inl hxs
      · exact .inr (.inr ⟨t, th, ht, by rwa [← (hother x hxs).2]⟩)
    · exact .inr (.inr ⟨u, th', hu, hbit⟩)
  · cases who with
    | none => exact .inl rfl
    | some =>
      simp only [Proc.queueAt, modify_thread]
      split_ifs with hu
      · rw [hu, ht]
        by_cases hxs : x = s
        · rw [hxs]
          exact hself
        · exact .inl (hother x hxs).1
      · exact .inl rfl

/-- The signal that is taken was the oldest. -/
theorem Fifo.tail {who : Option Slot} {l l' : List (Info D)} (ho : o.takes = some (who, s)) (h : l = info :: l') :
    Fifo o who s l l' := by
  subst h
  exact .inr (.inr (.inl ⟨ho, rfl⟩))

/-- Who a signal is taken from. -/
def Thread.source (th : Thread D) (t : Slot) (s : Sig) : Option Slot := if th.pending.bits s then some t else none

/-- The queue that `signal_take_set_locked` takes an entry from. -/
def Proc.taken [Inhabited D] (p : Proc D) (t : Slot) (th : Thread D) (set : SigSet) (honor : Bool) :
    Option (Option Slot × Sig) :=
  (p.takeSet t th set honor).2.map fun r => (th.source t r.1, r.1)

/-- Taking: the lowest signal, its first entry, a thread's own before the process's. -/
theorem SigInv.takeSet [Inhabited D] (h : SigInv p) (ht : p.thread t = some th) (set : SigSet) (honor : Bool) :
    Moves { Change.none with takes := p.taken t th set honor } p (p.takeSet t th set honor).1 ∧
      match (p.takeSet t th set honor).2 with
      | none => ∀ s, p.available th set honor s = false
      | some (s, info) => p.available th set honor s = true ∧ (∀ x < s, p.available th set honor x = false) ∧
        p.queueAt (th.source t s) s = info :: (p.takeSet t th set honor).1.queueAt (th.source t s) s := by
  unfold Proc.taken Proc.takeSet
  cases hfind : (finRange 64).find? (p.available th set honor) with
  | none =>
    refine ⟨h.refl, fun s => ?_⟩
    simpa using find?_eq_none.mp hfind s (mem_finRange s)
  | some s =>
    have hav := find?_some hfind
    have hlow : ∀ x < s, p.available th set honor x = false := by
      obtain ⟨-, i, hi, hget, hbefore⟩ := find?_eq_some_iff_getElem.mp hfind
      intro x hx
      have hxi : x.val < i := by
        rw [← hget, Fin.lt_def] at hx
        simpa using hx
      simpa using hbefore x.val hxi
    by_cases hown : th.pending.bits s = true
    · have hok := (h.thread t th ht).pending
      obtain ⟨info, q, hq⟩ := hok.take_isSome hown
      obtain ⟨⟨hself, -⟩, hother⟩ := take_queue hown hq
      simp only [hown, hq, if_true, Thread.source]
      refine ⟨h.setThread ht (h.unbeaten (.inr ⟨t, th, ht, hown⟩)) (hok.take hown hq) (.tail ?_ hself) hother, hav,
        hlow,
        ?_⟩
      · simp [hown]
      simpa [Proc.queueAt, modify_thread, ht] using hself
    have hbit : p.pending.bits s = true := by
      simp only [Proc.available, hown, Bool.false_or, Bool.and_eq_true] at hav
      exact hav.1.1
    obtain ⟨info, q, hq⟩ := h.pending.take_isSome hbit
    obtain ⟨⟨hself, -⟩, hother⟩ := take_queue hbit hq
    have hmoves : Moves { Change.none with takes := some (none, s) } p { p with pending := q } :=
      h.setPending (h.unbeaten (.inl hbit)) (h.pending.take hbit hq) (.tail rfl hself) hother
    simp only [if_neg hown, hq, Thread.source, Option.map_some]
    by_cases hmore : q.bits s = true
    · simp only [if_pos hmore]
      exact ⟨hmoves, hav, hlow, hself⟩
    · simp only [if_neg hmore]
      exact ⟨hmoves.retargeted ((Retargeted.refl _).targetClear s), hav, hlow, hself⟩

/-! ## Queueing -/

/-- Some signals have been cleared. -/
structure Cleared (p : Proc D) (l : List Sig) (p' : Proc D) : Prop where
  inv : SigInv p'
  queue : ∀ who x, p'.queueAt who x = if x ∈ l then [] else p.queueAt who x
  has : ∀ x ∈ l, ¬ p'.Has x

/-- One more signal is discarded. -/
theorem Cleared.clear [Inhabited D] (h : Cleared p l p') (s : Sig) : Cleared p (s :: l) (p'.clear s) := by
  have hhas : ∀ x, (p'.clear s).Has x → x ≠ s ∧ p'.Has x := by
    rintro x (hbit | ⟨t, th, ht, hbit⟩)
    · have hbit : (p'.pending.clear s).bits x = true := hbit
      rw [p'.pending.clear_queue.2] at hbit
      split_ifs at hbit with hxs
      exact ⟨hxs, .inl hbit⟩
    · obtain ⟨th', ht', rfl⟩ := map_eq_some_iff.mp ht
      rw [th'.pending.clear_queue.2] at hbit
      split_ifs at hbit with hxs
      exact ⟨hxs, .inr ⟨t, th', ht', hbit⟩⟩
  refine ⟨⟨h.inv.pending.clear s, fun t th ht => ?_,
    fun x hx hc hh => h.inv.apart x hx (hhas _ hc).2 (hhas x hh).2, h.inv.panic⟩, fun who x => ?_, fun x hx hh => ?_⟩
  · obtain ⟨th', ht', rfl⟩ := map_eq_some_iff.mp ht
    obtain ⟨hok, hm, hs⟩ := h.inv.thread t th' ht'
    exact ⟨hok.clear s, hm, hs⟩
  · have hclear : (p'.clear s).queueAt who x = if x = s then [] else p'.queueAt who x := by
      cases who with
      | none => exact p'.pending.clear_queue.1
      | some t =>
        cases ht : p'.thread t with
        | none => simp [Proc.queueAt, Proc.clear, mapThreads, ht]
        | some th => simpa [Proc.queueAt, Proc.clear, mapThreads, ht] using th.pending.clear_queue.1
    rw [hclear, h.queue who x]
    grind
  · obtain ⟨hne, hh⟩ := hhas x hh
    exact h.has x ((mem_cons.mp hx).resolve_left hne) hh

/-- `signal_prepare_group_locked` discards what the signal beats. -/
theorem SigInv.prepareGroup [Inhabited D] (h : SigInv p) (s : Sig) : Cleared p (beats s) (p.prepareGroup s) := by
  have hnone : Cleared p [] p := ⟨h, fun _ _ => by simp, nofun⟩
  -- waking and the flag do not matter
  have hrest : ∀ {l : List Sig} {p₁ : Proc D} (b : Bool), Cleared p l p₁ →
      Cleared p l ({ p₁ with stopped := b }.wakeAll) := by
    intro l p₁ b hc
    have hm := ((hc.inv.refl (o := .none)).fields p₁.actions b p₁.groupExiting p₁.live).wakeAll
    refine ⟨hm.inv, fun who x => ?_, fun x hx hh => hc.has x hx ?_⟩
    · rw [← hc.queue who x]
      apply queueAt_congr
      · rfl
      · simp [wakeAll, mapThreads, comp_def]
    · rcases hh with hbit | ⟨t, th, ht, hbit⟩
      · exact .inl hbit
      · obtain ⟨th', ht', rfl⟩ := map_eq_some_iff.mp ht
        exact .inr ⟨t, th', ht', hbit⟩
  unfold Proc.prepareGroup beats
  split_ifs
  · have hall := (((hnone.clear linuxSigstop).clear linuxSigtstp).clear linuxSigttin).clear linuxSigttou
    have hperm : ∀ x : Sig, x ∈ [linuxSigttou, linuxSigttin, linuxSigtstp, linuxSigstop] ↔
        x ∈ [linuxSigstop, linuxSigtstp, linuxSigttin, linuxSigttou] := fun x => by
      simp only [mem_cons, not_mem_nil, or_false]
      tauto
    refine hrest false ⟨hall.inv, fun who x => ?_, fun x hx => hall.has x ((hperm x).mpr hx)⟩
    simp only [← hperm]
    exact hall.queue who x
  · exact hnone.clear linuxSigcont
  · exact hrest false hnone
  · exact hnone

/-- What is cleared stays so if the step stores another signal. -/
theorem Cleared.moves (h : Cleared p l p₁) (hm : Moves o p₁ p') (hl : ∀ x ∈ l, x ∈ o.clears)
    (ho : ∀ who info, o.stores = some (who, info) → ∀ x ∈ l, info.signal ≠ x.number) :
    Moves o p p' ∧ ∀ x ∈ l, ¬ p'.Has x := by
  have hnil : ∀ who, ∀ x ∈ l, p'.queueAt who x = [] := by
    intro who x hx
    have hf := hm.fifo who x
    rw [h.queue who x, if_pos hx] at hf
    rcases hf with he | ⟨info, hinfo, hnumber, -⟩ | ⟨-, he⟩ | ⟨-, he⟩
    · exact he
    · exact absurd hnumber (ho who info hinfo x hx)
    · exact he
    · exact he
  refine ⟨⟨hm.inv, fun who x => ?_⟩, fun x hx hh => ?_⟩
  · by_cases hx : x ∈ l
    · exact .inr (.inr (.inr ⟨.inl (hl x hx), hnil who x hx⟩))
    · have := hm.fifo who x
      rwa [h.queue who x, if_neg hx] at this
  · obtain ⟨who, hne⟩ := hm.inv.has_iff.mp hh
    exact hne (hnil who x hx)

theorem not_mem_beats : s ∉ beats s := by
  unfold beats
  split_ifs with hcont hstop
  · rw [hcont]
    decide
  · simpa using hcont
  · exact not_mem_nil

/-- An entry is stored, after the signals that it clears. -/
def Change.store [Inhabited D] (who : Option Slot) (s : Sig) (information : Option (Info D)) : Change D :=
  ⟨some (who, stored s information), .none, beats s, .none⟩

theorem Fifo.store [Inhabited D] (who : Option Slot) (hs : q.store s information malloc = some q') :
    Fifo (.store who s information) who s (q.queue s) (q'.queue s) := by
  rw [(store_queue hs).1.2]
  split_ifs with hc
  · exact .inr (.inl ⟨_, rfl, rfl, rfl, hc⟩)
  · exact .inl rfl

/-- What is stored is not discarded by it. -/
theorem stored_unbeaten [Inhabited D] (who : Option Slot) : ∀ who' info,
    (Change.store who s information).stores = some (who', info) → ∀ x ∈ beats s, info.signal ≠ x.number := by
  intro who' info hinfo x hx hnumber
  cases hinfo
  exact not_mem_beats (Sig.number_inj hnumber ▸ hx)

/-- A signal for the process is stored, and those that it beats are gone. -/
theorem SigInv.queueProcess [Inhabited D] (h : SigInv p) (s : Sig) (information : Option (Info D)) (malloc : Bool) :
    Moves (.store none s information) p (p.queueProcess s information malloc) ∧
      (p.live = true → ∀ x ∈ beats s, ¬ (p.queueProcess s information malloc).Has x) := by
  cases hlive : p.live with
  | false =>
    rw [Proc.queueProcess, hlive]
    exact ⟨h.refl, nofun⟩
  | true =>
    have hc := h.prepareGroup s
    have hm : Moves (.store none s information) (p.prepareGroup s) (p.queueProcess s information malloc) := by
      rw [Proc.queueProcess, hlive, Bool.not_true, if_neg Bool.false_ne_true]
      refine iteInduction (fun _ => hc.inv.refl) fun _ => ?_
      cases hq : (p.prepareGroup s).pending.store s information malloc with
      | none => exact hc.inv.refl
      | some =>
        have hm := hc.inv.setPending hc.has (hc.inv.pending.store hq) (.store none hq) (store_queue hq).2
        exact hm.wakeAll.retargeted ((Retargeted.refl _).retarget s none)
    exact (hc.moves hm (fun _ hx => hx) (stored_unbeaten none)).imp_right fun hb _ => hb

/-- The entry comes behind those of its signal, unless it is a standard signal that is pending. -/
def Behind (s : Sig) (info : Info D) (l l' : List (Info D)) : Prop :=
  l' = if s.realtime ∨ l = [] then l ++ [info] else l

/-- What `signal_queue_process_locked` stores is in the queue of the process. -/
theorem SigInv.queueProcess_stored [Inhabited D] (h : SigInv p) (s : Sig) (information : Option (Info D))
    (malloc : Bool) (hlive : p.live = true) (hignored : (p.prepareGroup s).processGenerationIgnored s = false)
    (hstore : ((p.prepareGroup s).pending.store s information malloc).isSome = true) :
    Behind s (stored s information) (p.queueAt none s) ((p.queueProcess s information malloc).queueAt none s) := by
  obtain ⟨q, hq⟩ := Option.isSome_iff_exists.mp hstore
  have hqueue := (h.prepareGroup s).queue none s
  rw [if_neg not_mem_beats] at hqueue
  have hpending : (p.queueProcess s information malloc).pending = q := by
    rw [Proc.queueProcess, hlive, Bool.not_true, if_neg Bool.false_ne_true]
    simp only [hignored, Bool.false_eq_true, if_false, hq]
    obtain ⟨f, hf, -⟩ := (Retargeted.refl ({ p.prepareGroup s with pending := q }.wakeAll)).retarget s none
    rw [hf]
    rfl
  rw [Behind, ← hqueue, Proc.queueAt, hpending, (store_queue hq).1.2]
  rfl

/-- What `signal_queue_thread_locked` stores is in the queue of the thread. -/
theorem SigInv.queueThread_stored [Inhabited D] (h : SigInv p) (ht : p.thread t = some th) (s : Sig)
    (information : Option (Info D)) (malloc : Bool) (hlive : p.live = true) (hphase : th.phase ≠ .exited)
    (hignored : (p.prepareGroup s).threadGenerationIgnored th s = false)
    (hstore : (((p.prepareGroup s).thread t).bind (·.pending.store s information malloc)).isSome = true) :
    Behind s (stored s information) (p.queueAt (some t) s)
      ((p.queueThread t s information malloc).queueAt (some t) s) := by
  obtain ⟨q, hbind⟩ := Option.isSome_iff_exists.mp hstore
  obtain ⟨th', ht', hq⟩ := Option.bind_eq_some_iff.mp hbind
  have hqueue := (h.prepareGroup s).queue (some t) s
  rw [if_neg not_mem_beats] at hqueue
  have hwoken : (p.queueThread t s information malloc).queueAt (some t) s = q.queue s := by
    simp only [Proc.queueThread, ht, hlive, hphase, hignored, hbind, Bool.not_true, decide_false, Bool.or_self,
      Bool.false_eq_true, if_false]
    obtain ⟨f, hf, hkept⟩ : Retargeted _ (Proc.wakeTarget _ t th s) :=
      iteInduction (fun _ => .refl _) fun _ => (Retargeted.refl _).targetWake t
    rw [hf, queueAt_map fun i th => (hkept i th).1, Proc.wakeAll, queueAt_map]
    · simp [Proc.queueAt, modify_thread, ht']
    · exact fun _ _ => rfl
  rw [Behind, hwoken, ← hqueue, Proc.queueAt, ht', (store_queue hq).1.2]
  rfl

/-- The thread can get a signal. -/
def Proc.reachable (p : Proc D) (t : Slot) : Bool := p.live && (p.thread t).any (·.phase ≠ .exited)

theorem Proc.queueThread_unreachable [Inhabited D] (h : p.reachable t = false) (information : Option (Info D))
    (malloc : Bool) : p.queueThread t s information malloc = p := by
  unfold Proc.queueThread
  unfold Proc.reachable at h
  cases ht : p.thread t with
  | none => rfl
  | some =>
    rw [ht] at h
    refine if_pos ?_
    revert h
    cases p.live <;> simp

/-- A signal for a thread is stored, and those that it beats are gone. -/
theorem SigInv.queueThread [Inhabited D] (h : SigInv p) (t : Slot) (s : Sig) (information : Option (Info D))
    (malloc : Bool) : Moves (.store (some t) s information) p (p.queueThread t s information malloc) ∧
      (p.reachable t = true → ∀ x ∈ beats s, ¬ (p.queueThread t s information malloc).Has x) := by
  cases hr : p.reachable t with
  | false =>
    rw [queueThread_unreachable hr]
    exact ⟨h.refl, nofun⟩
  | true =>
    have hc := h.prepareGroup s
    have hm : Moves (.store (some t) s information) (p.prepareGroup s) (p.queueThread t s information malloc) := by
      unfold Proc.queueThread
      unfold Proc.reachable at hr
      cases ht : p.thread t with
      | none => simp [ht] at hr
      | some th =>
        have hno : ¬ (!p.live || decide (th.phase = .exited)) = true := by
          rw [ht] at hr
          revert hr
          cases p.live <;> simp
        simp only [if_neg hno]
        refine iteInduction (fun _ => hc.inv.refl) fun _ => ?_
        cases hbind : ((p.prepareGroup s).thread t).bind (·.pending.store s information malloc) with
        | none => exact hc.inv.refl
        | some =>
          obtain ⟨th', ht', hq⟩ := Option.bind_eq_some_iff.mp hbind
          have hm := (hc.inv.setThread ht' hc.has ((hc.inv.thread t th' ht').pending.store hq) (.store _ hq)
            (store_queue hq).2).wakeAll
          exact iteInduction (fun _ => hm) fun _ => hm.retargeted ((Retargeted.refl _).targetWake t)
    exact (hc.moves hm (fun _ hx => hx) (stored_unbeaten _)).imp_right fun hb _ => hb

/-! ## Every step -/

theorem Sane.sanitize {mask : SigSet} : Sane (signalMaskSanitize mask) := fun s hs => by
  simp [signalMaskSanitize, hs]

theorem Sane.procmask {old : SigSet} (h : Sane old) (how : Proc.How) (mask : SigSet) :
    Sane (Proc.procmask how old mask) := by
  intro s hs
  cases how <;> simp [Proc.procmask, h s hs, Sane.sanitize s hs]

/-- A slot gets a new thread or loses the one it has. -/
theorem Moves.replace [Inhabited D] (h : Moves o p p') {slot : Option (Thread D)} (hrenews : o.renews = some t)
    (ho : ∀ th, slot = some th → ThreadOk th ∧ th.pending = .init) :
    Moves o p { p' with thread := update p'.thread t slot } := by
  have hthread : ∀ u th, update p'.thread t slot u = some th → p'.thread u = some th ∨
      ThreadOk th ∧ th.pending = .init := by
    intro u th hu
    by_cases he : u = t
    · rw [he, update_self] at hu
      exact .inr (ho th hu)
    · rw [update_of_ne he] at hu
      exact .inl hu
  have hhas : ∀ s, Proc.Has { p' with thread := update p'.thread t slot } s → p'.Has s := by
    rintro s (hbit | ⟨u, th, hu, hbit⟩)
    · exact .inl hbit
    · rcases hthread u th hu with hu | ⟨-, hinit⟩
      · exact .inr ⟨u, th, hu, hbit⟩
      · rw [hinit] at hbit
        cases hbit
  refine ⟨⟨h.inv.pending, fun u th hu => (hthread u th hu).elim (h.inv.thread u th) And.left,
    fun s hs hc hh => h.inv.apart s hs (hhas _ hc) (hhas s hh), h.inv.panic⟩, fun who s => ?_⟩
  cases who with
  | none => exact h.fifo none s
  | some u =>
    by_cases he : u = t
    · refine .inr (.inr (.inr ⟨.inr ⟨rfl, by rw [hrenews, he]⟩, ?_⟩))
      cases slot with
      | none => simp [Proc.queueAt, he]
      | some th => simp [Proc.queueAt, he, (ho th rfl).2, Pending.init, Pending.queue]
    · have := h.fifo (some u) s
      simpa [Proc.queueAt, he] using this

/-- On its way to the user a thread takes one signal or none. -/
theorem SigInv.userReturn [Inhabited D] (h : SigInv p) (ht : p.thread t = some th) {frame : Bool} :
    Moves { Change.none with takes := p.taken t th (fun s => !th.mask s) true } p (p.signalUserReturn t th frame) := by
  refine iteInduction (fun _ => h.refl.setPhase _) fun _ => ?_
  have htake := (h.takeSet ht (fun s => !th.mask s) true).1
  generalize ({ Change.none with takes := p.taken t th (fun s => !th.mask s) true } : Change D) = o at htake ⊢
  generalize p.takeSet t th (fun s => !th.mask s) true = r at htake
  obtain ⟨p₁, _ | ⟨s, info⟩⟩ := r
  · refine iteInduction (fun _ => .maskChanged ?_) fun _ => htake.setPhase _
    exact htake.modify (fun _ => rfl) fun _ _ hs => ⟨hs, hs⟩
  simp only
  split
  · exact htake.setPhase _
  · exact htake.setPhase _
  have hm : Moves o p ((p₁.modify t fun th => { th with
      phase := if frame then .running else .dying
      mask := handlerMask th (p₁.actions s) s
      restoreMask := false }).maskChanged) := by
    refine .maskChanged ?_
    exact htake.modify (fun _ => rfl) fun _ _ hs => ⟨.sanitize, hs⟩
  exact iteInduction (fun _ => hm.fields _ _ _ _) fun _ => hm

/-- A step of a thread that is there and may act. -/
theorem SigInv.act (h : SigInv p) {ok : Phase → Bool} {f : Thread D → Proc D}
    (hf : ∀ th, p.thread t = some th → Moves o p (f th)) : Moves o p (p.act t ok f) := by
  unfold Proc.act
  cases ht : p.thread t with
  | none => exact h.refl
  | some th => exact iteInduction (fun _ => hf th ht) fun _ => h.refl

/-- The first part of `signal_force_fault`. -/
def Proc.unmask (p : Proc D) (t : Slot) (s : Sig) (actions : Sig → Action) : Proc D :=
  { p.modify t fun th => { th with mask := update th.mask s false } with actions := actions }

/-- A fault is a signal for the thread, which can not block or ignore it. -/
theorem Proc.forceFault_eq [Inhabited D] (p : Proc D) (t : Slot) (s : Sig) (data : D) :
    ∃ actions, p.forceFault t s data = (p.unmask t s actions).queueThread t s (some ⟨s.number, data⟩) true := by
  unfold forceFault
  dsimp only
  split_ifs
  · exact ⟨_, rfl⟩
  · exact ⟨p.actions, rfl⟩

theorem SigInv.unmask (h : SigInv p) (t : Slot) (s : Sig) (actions : Sig → Action) :
    Cleared p [] (p.unmask t s actions) := by
  have hm : Moves .none p
      (p.modify t fun th => { th with mask := update th.mask s false }) := by
    refine h.refl.modify (fun _ => rfl) fun th hm hs => ⟨fun x hx => ?_, hs⟩
    by_cases hxs : x = s
    · simp [hxs]
    · simpa [hxs] using hm x hx
  refine ⟨(hm.fields actions p.stopped p.groupExiting p.live).inv, fun who x => ?_, nofun⟩
  rw [if_neg not_mem_nil]
  apply queueAt_congr
  · rfl
  · intro i
    by_cases hi : i = t <;> simp [Proc.unmask, Proc.modify, mapThreads, comp_def, hi]

/-- What a step may do to the queues of a state: signals are stored where they are generated, and clear those that
    they beat; they are taken on the way to user mode and in `rt_sigtimedwait`, and cleared by `sigaction`. -/
def Event.change [Inhabited D] (p : Proc D) : Event D → Change D
  | .queueProcess s information _ => .store none s information
  | .queueThread t s information _ => .store (some t) s information
  | .forceFault t s data => .store (some t) s (some ⟨s.number, data⟩)
  | .userReturn t _ => { Change.none with takes := (p.thread t).bind fun th => p.taken t th (fun s => !th.mask s) true }
  | .timedWait t wanted => { Change.none with
      takes := (p.thread t).bind fun th => p.taken t th (signalMaskSanitize wanted) false }
  | .sigaction _ s _ => { Change.none with clears := [s] }
  | .clone _ t | .free t => { Change.none with renews := some t }
  | _ => .none

/-- **A step** changes no more of the queues than it may. -/
theorem SigInv.step [Inhabited D] (h : SigInv p) (e : Event D) : Moves (e.change p) p (p.step e) := by
  unfold Proc.step Event.change
  cases e with
  | queueProcess s information malloc => exact (h.queueProcess s information malloc).1
  | queueThread t s information malloc => exact (h.queueThread t s information malloc).1
  | forceFault t s data =>
    refine h.act fun th ht => ?_
    obtain ⟨actions, heq⟩ := p.forceFault_eq t s data
    rw [heq]
    have hunmask := h.unmask t s actions
    exact (hunmask.moves (hunmask.inv.queueThread t s _ true).1 nofun fun _ _ _ => nofun).1
  | userReturn =>
    refine h.act fun th ht => ?_
    simp only [ht, Option.bind_some]
    exact h.userReturn ht
  | stopMark => exact h.act fun _ _ => (h.refl.fields p.actions _ p.groupExiting p.live).setPhase _
  | stopLoop => exact h.act fun _ _ => h.refl.setPhase _
  | signalExit => exact h.act fun _ _ => (h.refl.fields p.actions _ _ p.live).wakeAll
  | timedWait =>
    refine h.act fun th ht => ?_
    simp only [ht, Option.bind_some]
    exact (h.takeSet ht _ _).1
  | procmask t how mask =>
    refine h.act fun _ _ => Moves.maskChanged ?_
    exact h.refl.modify (fun _ => rfl) fun _ hm hs => ⟨hm.procmask how mask, hs⟩
  | sigreturn =>
    refine h.act fun _ _ => Moves.maskChanged ?_
    exact h.refl.modify (fun _ => rfl) fun _ _ hs => ⟨.sanitize, hs⟩
  | sigsuspend =>
    refine h.act fun _ _ => Moves.maskChanged ?_
    exact h.refl.modify (fun _ => rfl) fun _ hm _ => ⟨.sanitize, hm⟩
  | sigaction t s action =>
    refine h.act fun _ _ => iteInduction (fun _ => h.refl) fun _ => ?_
    have hm := (h.refl (o := { Change.none with clears := [s] })).fields
      (update p.actions s { action with mask := signalMaskSanitize action.mask })
      p.stopped p.groupExiting p.live
    have hnone : Cleared p [] { p with
        actions := update p.actions s { action with mask := signalMaskSanitize action.mask } } :=
      ⟨hm.inv, fun _ _ => by simp; rfl, nofun⟩
    refine iteInduction (fun _ => ?_) fun _ => hm
    refine ((hnone.clear s).moves (hnone.clear s).inv.refl (fun _ hx => hx) fun _ _ hstores => ?_).1
    cases hstores
  | exec =>
    refine h.act fun _ _ => Moves.maskChanged ?_
    exact (h.refl.fields _ p.stopped p.groupExiting p.live).modify (fun _ => rfl) fun _ hm hs => ⟨hm, hs⟩
  | clone t =>
    refine h.act fun th ht => iteInduction (fun _ => h.refl) fun _ => ?_
    refine (h.refl.setPhase _).replace rfl fun th' hth' => ?_
    cases hth'
    exact ⟨⟨.init, (h.thread t th ht).mask, fun _ _ => rfl⟩, rfl⟩
  | start =>
    dsimp only
    split
    · exact (h.refl.setPhase _).setPhase _
    · exact h.refl
  | sleepCheck => exact h.act fun _ _ => iteInduction (fun _ => h.refl) fun _ => h.refl.setPhase _
  | sleepCommit =>
    dsimp only
    split
    · split
      · exact h.refl.setPhase _
      · exact h.refl
    · exact h.refl
  | wake => exact h.act fun _ _ => h.refl.setPhase _
  | exit t group =>
    refine h.act fun th _ => ?_
    have hexiting := (h.refl (o := .none)).fields p.actions p.stopped (p.groupExiting || group) p.live
    have hm := (hexiting.retargeted (.detach _ t th)).setPhase (t := t) .exiting
    exact iteInduction (fun _ => hm.wakeAll) fun _ => hm
  | exited => exact h.act fun _ _ => (h.refl.setPhase _).fields _ _ _ _
  | free t => exact h.act fun th _ => (h.refl.retargeted (.detach p t th)).replace rfl nofun

/-- A child has no pending signals. -/
theorem SigInv.fork [Inhabited D] (mask : SigSet) (actions : Sig → Action) : SigInv
    (Proc.fork mask actions : Proc D) := by
  have hthread : ∀ t th, (.fork mask actions : Proc D).thread t = some th →
      ThreadOk th ∧ th.pending = .init := by
    intro t th ht
    by_cases h0 : t = 0
    · simp only [Proc.fork, h0, update_self] at ht
      cases ht
      exact ⟨⟨.init, .sanitize, fun _ _ => rfl⟩, rfl⟩
    · simp [Proc.fork, h0] at ht
  refine ⟨.init, fun t th ht => (hthread t th ht).1, ?_, rfl⟩
  rintro s - (hbit | ⟨t, th, ht, hbit⟩)
  · cases hbit
  · rw [(hthread t th ht).2] at hbit
    cases hbit

/-- What holds in a state besides the invariant: how the queues go on. -/
structure QueuesExact [Inhabited D] (p : Proc D) : Prop extends SigInv p where
  /-- a signal that is neither ignored nor too many is stored in the set of the process or of the thread -/
  stored : ∀ s information malloc, p.live = true → (p.prepareGroup s).processGenerationIgnored s = false →
    ((p.prepareGroup s).pending.store s information malloc).isSome = true →
    Behind s (Signal.stored s information) (p.queueAt none s)
      ((p.step (.queueProcess s information malloc)).queueAt none s)
  storedThread : ∀ t th, p.thread t = some th → ∀ s information malloc, p.live = true → th.phase ≠ .exited →
    (p.prepareGroup s).threadGenerationIgnored th s = false →
    (((p.prepareGroup s).thread t).bind (·.pending.store s information malloc)).isSome = true →
    Behind s (Signal.stored s information) (p.queueAt (some t) s)
      ((p.step (.queueThread t s information malloc)).queueAt (some t) s)
  taken : ∀ t th, p.thread t = some th → ∀ set honor,
    match (p.takeSet t th set honor).2 with
    | none => ∀ s, p.available th set honor s = false
    | some (s, info) => p.available th set honor s = true ∧ (∀ x < s, p.available th set honor x = false) ∧
      p.queueAt (th.source t s) s = info :: (p.takeSet t th set honor).1.queueAt (th.source t s) s
  /-- no other queues change than those of the signal that is stored, taken or cleared -/
  fifo : ∀ e who s, Fifo (e.change p) who s (p.queueAt who s) ((p.step e).queueAt who s)

/-- **Pending sets are queues**, in every run of a process. -/
theorem pending_exact [Inhabited D] (mask : SigSet) (actions : Sig → Action) (l : List (Event D)) :
    QueuesExact (l.foldl Proc.step (.fork mask actions)) := by
  have h : SigInv (l.foldl Proc.step (.fork mask actions : Proc D)) :=
    Runs.foldl_invariant (fun _ e h => (h.step e).inv) (.fork mask actions) l
  exact ⟨h, h.queueProcess_stored, fun _ _ => h.queueThread_stored,
    fun t th ht set honor => (h.takeSet ht set honor).2, fun e => (h.step e).fifo⟩

end Caffeinix.Signal
