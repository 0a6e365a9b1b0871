import Mathlib.Algebra.Order.Ring.Nat
import Caffeinix.Lib.Runs

/-!
# `Net.Mailbox` — the mailboxes of the network stack

A mailbox of the lwIP port holds its messages in an array of `size` slots. `head` and `tail` count the
messages stored and taken; they are 32 bits wide, run on freely and are reduced modulo the size at each
access, and `count` says how many slots are in use. Everything a call does to a mailbox it does under the
mailbox's lock, which a call that has to wait gives up while it sleeps: a run is therefore a list of
*sections*, each made by some caller from taking the lock to giving it up, in any order.

A mailbox is meant as a bounded queue. A counter that wraps goes from slot `(2 ^ 32 - 1) % size` to slot
`0`, so the slots stay in turn for the sizes that divide `2 ^ 32` only: `mailbox_fifo` holds for these, and
for every size as long as no more than `2 ^ 32` messages have been accepted. In a mailbox of three slots the
first message after the wrap overwrites the one before it (`threeSlots_overwrite`).
-/

namespace Caffeinix.Net

/-- The results `ERR_OK`, `ERR_MEM` and `ERR_ARG`. -/
inductive Err
  | ok
  | mem
  | arg
  deriving DecidableEq

/-- `struct lwip_sys_mbox`: the slots as a function of their index, empty as `calloc` leaves them. -/
structure Mbox (α : Type*) where
  size : Nat
  head : Nat
  tail : Nat
  count : Nat
  messages : Nat → Option α

variable {α : Type*}

def lwipSysMboxMax : Nat := 128

/-- `sys_mbox_new`; `memory` says whether the allocation succeeds. -/
def sysMboxNew (α : Type*) (size : Int) (memory : Bool) : Except Err (Mbox α) :=
  let size := if size ≤ 0 then 16 else size.toNat
  if size > lwipSysMboxMax then .error .arg
  else if !memory then .error .mem
  else .ok ⟨size, 0, 0, 0, fun _ => none⟩

/-- What one section does: one pass through the loop of a call, or the whole of a call without one. -/
inductive Section (α : Type*)
  | post (message : α)
  | trypost (message : α)
  /-- `late` when the section begins as a timed sleep ends without a wake-up. -/
  | fetch (timeout elapsed : Nat) (late : Bool)
  | tryfetch

/-- How a section ends for its caller: the call goes on asleep, or returns. -/
inductive Outcome (α : Type*)
  | asleep
  | posted
  | full
  | fetched (message : Option α)
  | timeout
  | empty

/-- The store of a message, common to `sys_mbox_post` and `sys_mbox_trypost`. -/
def Mbox.store (m : Mbox α) (message : α) : Mbox α :=
  { m with
    messages := Function.update m.messages (m.head % m.size) (some message)
    head := (m.head + 1) % 2 ^ 32
    count := m.count + 1 }

/-- Taking a message, common to `sys_arch_mbox_fetch` and `sys_arch_mbox_tryfetch`. -/
def Mbox.take (m : Mbox α) : Option α × Mbox α :=
  (m.messages (m.tail % m.size), { m with tail := (m.tail + 1) % 2 ^ 32, count := m.count - 1 })

def sysMboxPost (m : Mbox α) (message : α) : Outcome α × Mbox α :=
  if m.count = m.size then (.asleep, m) else (.posted, m.store message)

def sysMboxTrypost (m : Mbox α) (message : α) : Outcome α × Mbox α :=
  if m.count = m.size then (.full, m) else (.posted, m.store message)

def sysArchMboxFetch (m : Mbox α) (timeout elapsed : Nat) (late : Bool) : Outcome α × Mbox α :=
  if m.count = 0 then
    if timeout = 0 then (.asleep, m)
    else if late || timeout ≤ elapsed then (.timeout, m)
    else (.asleep, m)
  else (.fetched m.take.1, m.take.2)

def sysArchMboxTryfetch (m : Mbox α) : Outcome α × Mbox α :=
  if m.count = 0 then (.empty, m) else (.fetched m.take.1, m.take.2)

def Mbox.section (m : Mbox α) : Section α → Outcome α × Mbox α
  | .post message => sysMboxPost m message
  | .trypost message => sysMboxTrypost m message
  | .fetch timeout elapsed late => sysArchMboxFetch m timeout elapsed late
  | .tryfetch => sysArchMboxTryfetch m

/-! ## Runs -/

/-- A mailbox with the messages it has accepted and those that have been fetched, in order. -/
structure Trace (α : Type*) where
  mbox : Mbox α
  accepted : List α
  fetched : List (Option α)

@[simp] def Section.accepted : Section α → Outcome α → List α
  | .post message, .posted | .trypost message, .posted => [message]
  | _, _ => []

@[simp] def Outcome.delivered : Outcome α → List (Option α)
  | .fetched message => [message]
  | _ => []

def Trace.step (t : Trace α) (c : Section α) : Trace α :=
  { mbox := (t.mbox.section c).2
    accepted := t.accepted ++ c.accepted (t.mbox.section c).1
    fetched := t.fetched ++ (t.mbox.section c).1.delivered }

def Mbox.run (m : Mbox α) (l : List (Section α)) : Trace α := l.foldl Trace.step ⟨m, [], []⟩

def Trace.stored (t : Trace α) (message : α) : Trace α :=
  ⟨t.mbox.store message, t.accepted ++ [message], t.fetched⟩

def Trace.taken (t : Trace α) : Trace α :=
  ⟨t.mbox.take.2, t.accepted, t.fetched ++ [t.mbox.take.1]⟩

variable {t : Trace α} {m : Mbox α}

/-- A section changes nothing, stores a message in a mailbox with room or takes one from a mailbox that is
    not empty. -/
theorem Trace.step_cases (t : Trace α) (c : Section α) :
    t.step c = t ∨ (∃ message, t.mbox.count ≠ t.mbox.size ∧ t.step c = t.stored message) ∨
      (t.mbox.count ≠ 0 ∧ t.step c = t.taken) := by
  cases c with
  | post message =>
    by_cases h : t.mbox.count = t.mbox.size
    · exact .inl (by simp [step, Mbox.section, sysMboxPost, h])
    · exact .inr (.inl ⟨message, h, by simp [step, Mbox.section, sysMboxPost, h, stored]⟩)
  | trypost message =>
    by_cases h : t.mbox.count = t.mbox.size
    · exact .inl (by simp [step, Mbox.section, sysMboxTrypost, h])
    · exact .inr (.inl ⟨message, h, by simp [step, Mbox.section, sysMboxTrypost, h, stored]⟩)
  | fetch timeout elapsed late =>
    by_cases h : t.mbox.count = 0
    · -- asleep or timed out, the mailbox is as it was
      refine .inl ?_
      simp only [step, Mbox.section, sysArchMboxFetch, h, if_true]
      split_ifs <;> simp
    · exact .inr (.inr ⟨h, by simp [step, Mbox.section, sysArchMboxFetch, h, taken]⟩)
  | tryfetch =>
    by_cases h : t.mbox.count = 0
    · exact .inl (by simp [step, Mbox.section, sysArchMboxTryfetch, h])
    · exact .inr (.inr ⟨h, by simp [step, Mbox.section, sysArchMboxTryfetch, h, taken]⟩)

/-! ## The bounded queue -/

/-- The slot of the message with the number `i`, as the counters give it. -/
def slot (size i : Nat) : Nat := i % 2 ^ 32 % size

/-- The slots of the first `n` messages come in turn. -/
def InTurn (size n : Nat) : Prop := size ∣ 2 ^ 32 ∨ n ≤ 2 ^ 32

theorem InTurn.mono {size n k : Nat} (h : InTurn size n) (hk : k ≤ n) : InTurn size k :=
  h.imp_right hk.trans

theorem InTurn.slot_eq {size n i : Nat} (h : InTurn size n) (hi : i < n) : slot size i = i % size := by
  cases h with
  | inl hd => exact Nat.mod_mod_of_dvd i hd
  | inr hn => rw [slot, Nat.mod_eq_of_lt (hi.trans_le hn)]

/-- Fewer than `size` messages apart, two messages have different slots. -/
theorem InTurn.slot_ne {size n i j : Nat} (h : InTurn size n) (hij : i < j) (hj : j < n)
    (hd : j < i + size) : slot size i ≠ slot size j := by
  rw [h.slot_eq (hij.trans hj), h.slot_eq hj]
  intro he
  have hz : (j - i) % size = 0 := Nat.sub_mod_eq_zero_of_mod_eq he.symm
  rw [Nat.mod_eq_of_lt (by omega)] at hz
  omega

/-- The messages fetched are the first of the accepted ones, and the others stand in their slots. -/
structure Trace.Queued (size : Nat) (t : Trace α) : Prop where
  size_eq : t.mbox.size = size
  head : t.mbox.head = t.accepted.length % 2 ^ 32
  tail : t.mbox.tail = t.fetched.length % 2 ^ 32
  count : t.fetched.length + t.mbox.count = t.accepted.length
  room : t.mbox.count ≤ size
  fetched : t.fetched = (t.accepted.take t.fetched.length).map some
  stored : ∀ i, t.fetched.length ≤ i → i < t.accepted.length →
    t.mbox.messages (slot size i) = t.accepted[i]?

theorem Trace.Queued.store {size : Nat} (h : t.Queued size) (hc : t.mbox.count ≠ t.mbox.size) (message : α)
    (ht : InTurn size (t.accepted.length + 1)) : (t.stored message).Queued size := by
  have hcount := h.count
  have hroom : t.mbox.count < size := lt_of_le_of_ne h.room (h.size_eq ▸ hc)
  refine ⟨h.size_eq, ?_, h.tail, ?_, hroom, ?_, ?_⟩
  · simp [Trace.stored, Mbox.store, h.head]
  · simp only [Trace.stored, Mbox.store, List.length_append, List.length_singleton]
    omega
  · show t.fetched = ((t.accepted ++ [message]).take t.fetched.length).map some
    rw [List.take_append_of_le_length (by omega)]
    exact h.fetched
  · intro i hi hlt
    have hslot : t.mbox.head % t.mbox.size = slot size t.accepted.length := by rw [h.head, h.size_eq, slot]
    simp only [Trace.stored, Mbox.store, hslot, List.length_append, List.length_singleton] at hi hlt ⊢
    rcases Nat.lt_succ_iff_lt_or_eq.mp hlt with hold | rfl
    · -- a message that waits keeps its slot, for less than `size` messages have come after it
      rw [Function.update_of_ne (ht.slot_ne hold (Nat.lt_succ_self _) (by omega)),
        List.getElem?_append_left hold]
      exact h.stored i hi hold
    · simp

theorem Trace.Queued.take {size : Nat} (h : t.Queued size) (hc : t.mbox.count ≠ 0) :
    t.taken.Queued size := by
  have hcount := h.count
  have hlt : t.fetched.length < t.accepted.length := by omega
  have hnext : t.mbox.take.1 = some (t.accepted[t.fetched.length]) := by
    show t.mbox.messages (t.mbox.tail % t.mbox.size) = _
    rw [h.tail, h.size_eq, ← List.getElem?_eq_getElem hlt]
    exact h.stored _ le_rfl hlt
  refine ⟨h.size_eq, h.head, ?_, ?_, (Nat.sub_le _ _).trans h.room, ?_, ?_⟩
  · simp [Trace.taken, Mbox.take, h.tail]
  · simp only [Trace.taken, Mbox.take, List.length_append, List.length_singleton]
    omega
  · simp only [Trace.taken, List.length_append, List.length_singleton]
    rw [List.take_add_one, List.map_append, ← h.fetched, hnext, List.getElem?_eq_getElem hlt]
    rfl
  · intro i hi
    simp only [Trace.taken, List.length_append, List.length_singleton] at hi
    exact h.stored i (by omega)

theorem Trace.accepted_le_step (t : Trace α) (c : Section α) :
    t.accepted.length ≤ (t.step c).accepted.length := by
  simp [step]

/-- What a run keeps: as long as the slots come in turn, the mailbox is the queue of the accepted messages. -/
theorem Trace.queued_step {size : Nat} (t : Trace α) (c : Section α)
    (h : InTurn size t.accepted.length → t.Queued size) (ht : InTurn size (t.step c).accepted.length) :
    (t.step c).Queued size := by
  have hq := h (ht.mono (t.accepted_le_step c))
  rcases t.step_cases c with he | ⟨message, hc, he⟩ | ⟨hc, he⟩
  · rw [he]
    exact hq
  · rw [he] at ht ⊢
    exact hq.store hc message (by simpa [stored] using ht)
  · rw [he]
    exact hq.take hc

variable {size : Int} {memory : Bool}

theorem sysMboxNew_ok (h : sysMboxNew α size memory = .ok m) :
    0 < m.size ∧ m = ⟨m.size, 0, 0, 0, fun _ => none⟩ := by
  simp only [sysMboxNew] at h
  split_ifs at h <;> cases h <;> simp
  omega

theorem Mbox.run_queued (hm : sysMboxNew α size memory = .ok m)
    (l : List (Section α)) (h : InTurn m.size (m.run l).accepted.length) : (m.run l).Queued m.size := by
  refine Runs.foldl_invariant (I := fun t : Trace α => InTurn m.size t.accepted.length → t.Queued m.size)
    (fun t c => t.queued_step c) (fun _ => ?_) l h
  rw [(sysMboxNew_ok hm).2]
  exact ⟨rfl, rfl, rfl, rfl, Nat.zero_le _, rfl, fun i _ hi => absurd hi (Nat.not_lt_zero i)⟩

/-- **A mailbox is a bounded queue.** As long as its slots come in turn, whatever calls are made on a new
    mailbox and however they interleave: the messages fetched are the accepted ones in their order, each
    once; never more than `size` wait; `sys_mbox_trypost` fails exactly when `size` wait and
    `sys_arch_mbox_tryfetch` finds it empty exactly when none does. -/
theorem mailbox_fifo {size : Int} {memory : Bool} (hm : sysMboxNew α size memory = .ok m)
    (l : List (Section α)) (h : InTurn m.size (m.run l).accepted.length) :
    let t := m.run l
    t.fetched = (t.accepted.take t.fetched.length).map some ∧
      t.fetched.length ≤ t.accepted.length ∧ t.accepted.length ≤ t.fetched.length + m.size ∧
      (∀ message, (sysMboxTrypost t.mbox message).1 = .full ↔
        t.accepted.length = t.fetched.length + m.size) ∧
      ((sysArchMboxTryfetch t.mbox).1 = .empty ↔ t.accepted.length = t.fetched.length) := by
  intro t
  have hq : t.Queued m.size := Mbox.run_queued hm l h
  have hcount := hq.count
  have hroom := hq.room
  refine ⟨hq.fetched, by omega, by omega, fun message => ?_, ?_⟩
  · rw [sysMboxTrypost, hq.size_eq]
    split_ifs with hc <;> simp <;> omega
  · rw [sysArchMboxTryfetch]
    split_ifs with hc <;> simp <;> omega

theorem fourSlots_fifo :
    let m : Mbox Nat := ⟨4, 0, 0, 0, fun _ => none⟩
    let t := m.run [.post 7, .trypost 8, .fetch 0 0 false, .tryfetch, .fetch 10 10 false, .post 9]
    sysMboxNew Nat 4 true = .ok m ∧ t.accepted = [7, 8, 9] ∧ t.fetched = [some 7, some 8] ∧
      ((sysArchMboxTryfetch t.mbox).1 = .empty ↔ t.accepted.length = t.fetched.length) :=
  ⟨rfl, rfl, rfl, (mailbox_fifo (rfl : sysMboxNew Nat 4 true = _) _ (.inl ⟨2 ^ 30, rfl⟩)).2.2.2.2⟩

/-! ## A counter that wraps -/

/-- `n` messages that pass through one by one, then two that are stored before two are fetched. -/
def passThenTwo : Nat → List (Section Nat)
  | 0 => [.trypost 1, .trypost 2, .tryfetch, .tryfetch]
  | n + 1 => .trypost 0 :: .tryfetch :: passThenTwo n

/-- A mailbox of three slots through which `k` messages have passed. -/
structure Trace.Passed (k : Nat) (t : Trace Nat) : Prop where
  mbox : ∃ messages, t.mbox = ⟨3, k, k, 0, messages⟩
  accepted : t.accepted.length = k
  fetched : t.fetched.length = k

theorem Trace.Passed.pass {k : Nat} {t : Trace Nat} (h : t.Passed k) (hk : k + 1 < 2 ^ 32) :
    ((t.step (.trypost 0)).step .tryfetch).Passed (k + 1) := by
  obtain ⟨⟨messages, hm⟩, ha, hf⟩ := h
  have hmod : (k + 1) % 4294967296 = k + 1 := Nat.mod_eq_of_lt hk
  constructor
  · simp [step, Mbox.section, sysMboxTrypost, sysArchMboxTryfetch, Mbox.store, Mbox.take, hm, hmod]
  · simp [step, Mbox.section, sysMboxTrypost, sysArchMboxTryfetch, Mbox.store, Mbox.take, hm, ha]
  · simp [step, Mbox.section, sysMboxTrypost, sysArchMboxTryfetch, Mbox.store, Mbox.take, hm, hf]

/-- With the counters at their last value both messages go to slot `0`. -/
theorem Trace.Passed.overwrite {k : Nat} {t : Trace Nat} (h : t.Passed k) (hk : k + 1 = 2 ^ 32) :
    let t' := (passThenTwo 0).foldl step t
    t'.accepted.drop k = [1, 2] ∧ t'.fetched.drop k = [some 2, some 2] := by
  obtain ⟨⟨messages, hm⟩, ha, hf⟩ := h
  have hslot : k % 3 = 0 := by omega
  have hwrap : (k + 1) % 4294967296 = 0 := by omega
  simp [passThenTwo, step, Mbox.section, sysMboxTrypost, sysArchMboxTryfetch, Mbox.store, Mbox.take, hm, hslot,
    hwrap, List.drop_left' ha, List.drop_left' hf]

theorem Trace.Passed.run {k n : Nat} {t : Trace Nat} (h : t.Passed k) (hn : k + n + 1 = 2 ^ 32) :
    let t' := (passThenTwo n).foldl step t
    t'.accepted.drop (k + n) = [1, 2] ∧ t'.fetched.drop (k + n) = [some 2, some 2] := by
  induction n generalizing k t with
  | zero => exact h.overwrite hn
  | succ n ih =>
    rw [show k + (n + 1) = k + 1 + n by omega]
    exact ih (h.pass (by omega)) (by omega)

/-- After `2 ^ 32 - 1` messages a mailbox of three slots accepts `1` and `2`, then gives `2` twice. -/
theorem threeSlots_overwrite :
    ∃ (m : Mbox Nat) (n : Nat), sysMboxNew Nat 3 true = .ok m ∧ n + 1 = 2 ^ 32 ∧
      (m.run (passThenTwo n)).accepted.drop n = [1, 2] ∧
      (m.run (passThenTwo n)).fetched.drop n = [some 2, some 2] := by
  have hpassed : (⟨⟨3, 0, 0, 0, fun _ => none⟩, [], []⟩ : Trace Nat).Passed 0 := ⟨⟨_, rfl⟩, rfl, rfl⟩
  obtain ⟨n, hn⟩ : ∃ n, n + 1 = 2 ^ 32 := ⟨2 ^ 32 - 1, rfl⟩
  have hrun := hpassed.run (n := n) (by omega)
  rw [Nat.zero_add] at hrun
  exact ⟨_, n, rfl, hn, hrun⟩

end Caffeinix.Net
