import Caffeinix.Locking.Footprint

/-!
# `Locking.Sleeping` — sleeps under a spinlock

`tty_read` copies characters to the user under `tty->lock`, and `futex_wait`, `futex_requeue` and
`futex_wake_address` read the futex word under `futex_table.lock`. Both are spinlocks. A leaf that is not there, or
without the permission, makes the copy call `mmap_handle_fault`, which takes sleeplocks and may wait for the disk,
and `sched` panics when a thread gives up the processor with a spinlock held. A copy to the user needs a leaf that
can be written, so that a page which is there to be copied on write will not do. Before it takes
`futex_table.lock` a futex call has read the word once, so its page is there unless another thread has unmapped it
in between.
-/

namespace Caffeinix.Locking

open LockPath Path Kernel List

/-! ## What may sleep -/

/-- The request may put the thread to sleep. -/
def Sleeps : Request Lock → Prop
  | .acquire k => k.spin = false
  | .wait => True

/-- Under a spinlock nothing is requested that may sleep. -/
def Awake (l : Lock) (r : Request Lock) : Prop := l.spin = true → ¬ Sleeps r

/-- `sched` is reached with a spinlock held, where it panics: from a wait, or from a sleeplock that has an
    owner. -/
def SchedPanics (s : Kernel) (t : Nat) : Prop :=
  (s.request t = some .wait ∨ ∃ k, k.spin = false ∧ s.request t = some (.acquire k) ∧ (s.owner k).isSome) ∧
    ∃ l ∈ s.held t, l.spin = true

def ExitStep.spinCopies : ExitStep → List Copy
  | .copy _ => []
  | .wake own shared => [⟨false, own⟩, ⟨false, shared⟩]

/-- The copies made under a spinlock. -/
def Call.spinCopies : Call → List Copy
  | .readTty _ _ _ _ copies => copies.map (.mk true)
  | .futexWait _ found => found.value.toList.map (.mk false)
  | .futexRequeue _ _ _ value => value.toList.map (.mk false)
  | .threadExit _ steps => steps.flatMap ExitStep.spinCopies
  | _ => []

/-- These copies find their leaves with the permission. -/
def Call.Resident (call : Call) : Prop := ∀ copy ∈ call.spinCopies, copy.Resident

instance Call.decidableResident : DecidablePred Call.Resident := fun call =>
  inferInstanceAs (Decidable (∀ copy ∈ call.spinCopies, copy.Resident))

/-! ## Paths of the calls -/

variable {process : Nat} {p : Path Lock} {copy : Copy}

/-- Outside of spinlocks everything may be requested. -/
theorem awake_of_not_spin {l : Lock} (hl : l.spin = false) (r : Request Lock) : Awake l r := by
  intro h
  rw [hl] at h
  cases h

theorem nests_awake : Nests Awake where
  waits _ hl := awake_of_not_spin hl _
  rises l k h := by
    refine awake_of_not_spin ?_ _
    -- spinlocks have the highest level, nothing is above them
    cases l <;> first | rfl | (cases k <;> simp at h)

/-- A critical section under a spinlock that requests nothing. -/
theorem spin_keeps_awake {l : Lock} (hp : p = .done) : (holding l p).Keeps Awake := by
  rw [hp]
  exact keeps_holding.2 ⟨fun _ hr => absurd hr not_mem_nil, keeps_done⟩

theorem copyouts_resident {copies : List (List Look)} (h : ∀ looks ∈ copies, (⟨true, looks⟩ : Copy).Resident) :
    each (copyout process) copies = .done := by
  induction copies with
  | nil => rfl
  | cons c cs ih =>
    rw [each, copyout, userCopy_resident (h c mem_cons_self), ih fun c' hc => h c' (mem_cons_of_mem _ hc)]
    rfl

theorem userCopy_keeps_awake : (userCopy process copy).Keeps Awake :=
  userCopy_keeps nests_awake (.inr ⟨fun _ => awake_of_not_spin rfl _, awake_of_not_spin rfl _, fun _ =>
    awake_of_not_spin rfl _, awake_of_not_spin rfl _⟩)

variable {call : Call}

/-- The calls with spinlocks. -/
theorem spins_keep_awake (h : call.Resident) (hs : call.Spins) : call.path.Keeps Awake := by
  cases call with
  | read | write | truncate | msync | fork | fault => exact hs.elim
  | readTty =>
    refine keeps_holding.2 ⟨fun r _ => awake_of_not_spin rfl r, keeps_append.2 ⟨?_, ?_⟩⟩
    · refine keeps_append.2 ⟨spin_keeps_awake rfl, keeps_each.2 fun _ _ => ?_⟩
      refine keeps_append.2 ⟨keeps_append.2 ⟨?_, spin_keeps_awake rfl⟩, spin_keeps_awake rfl⟩
      exact keeps_append.2 ⟨spin_keeps_awake rfl, keeps_pause⟩
    · exact spin_keeps_awake (copyouts_resident fun c hc => h _ (mem_map_of_mem hc))
  | futexWait =>
    refine keeps_append.2 ⟨keeps_append.2 ⟨userCopy_keeps_awake, ?_⟩, ?_⟩
    · exact keeps_whenever.2 fun c _ => userCopy_keeps_awake
    · refine keeps_whenever.2 fun c hc => keeps_append.2 ⟨?_, ?_⟩
      · exact spin_keeps_awake (userCopy_resident (h _ (mem_map_of_mem (Option.mem_toList.2 hc))))
      · split_ifs
        · exact keeps_append.2 ⟨keeps_pause, spin_keeps_awake rfl⟩
        · exact keeps_done
  | futexWake => exact keeps_append.2 ⟨userCopy_keeps_awake, spin_keeps_awake rfl⟩
  | futexRequeue q source destination value =>
    refine keeps_append.2 ⟨keeps_append.2 ⟨userCopy_keeps_awake, userCopy_keeps_awake⟩, ?_⟩
    cases value with
    | none => exact spin_keeps_awake rfl
    | some c => exact spin_keeps_awake (userCopy_resident (h _ mem_cons_self))
  | threadExit =>
    refine keeps_each.2 fun step hstep => ?_
    cases step with
    | copy => exact userCopy_keeps_awake
    | wake own shared =>
      have hown := h ⟨false, own⟩ (mem_flatMap.2 ⟨_, hstep, mem_cons_self⟩)
      have hshared := h ⟨false, shared⟩ (mem_flatMap.2 ⟨_, hstep, mem_cons_of_mem _ mem_cons_self⟩)
      refine spin_keeps_awake ?_
      rw [futexKeyGet, futexKeyGet, copyin, copyin, userCopy_resident hown, userCopy_resident hshared]
      rfl

theorem call_keeps_awake (h : call.Resident) : call.path.Keeps Awake := by
  have hfree : ∀ l : Lock, l.spin = false → ∀ q c, (userCopy q c).Only fun k => Awake l (.acquire k) :=
    fun l hl _ _ k _ => awake_of_not_spin hl _
  have hfs : ∀ sb : SuperBlock, ∀ k ∈ fsLock sb, k.spin = false := by
    intro sb k hk
    unfold fsLock at hk
    split at hk <;> cases hk <;> rfl
  refine call_keeps nests_awake (fun _ c _ => userCopy_keeps_awake) ?_ ?_ ?_ (spins_keep_awake h)
  · rintro q file sb r rfl
    exact vfsRead_keeps nests_awake (fun _ _ c _ => userCopy_keeps_awake)
      fun k hk _ _ c _ => hfree k (hfs sb k hk) q _
  · rintro q sb w rfl
    exact vfsWrite_keeps nests_awake (fun _ _ c _ => userCopy_keeps_awake)
      (fun k hk _ _ c _ => hfree k (hfs sb k hk) q _) (fun _ _ c _ => hfree _ rfl q _)
      (fun _ _ c _ => userCopy_keeps_awake) (fun _ _ c _ => hfree _ rfl q _) (fun _ _ c _ => hfree _ rfl q _)
  · rintro q areas rfl
    exact sysLinuxMsync_keeps nests_awake (.inr fun _ => awake_of_not_spin rfl _)

/-! ## Runs -/

/-- A terminal read into a page that is there to be copied on write, while another thread of the process forks, and
    a futex wait whose word has been unmapped since the key was taken. -/
def copyUnderSpinlock (call : Call) : List (Step Nat Call) :=
  [.begin 0 call, .begin 1 (.fork 0)] ++ replicate 2 (.next 1) ++ replicate 4 (.next 0)

end Caffeinix.Locking
