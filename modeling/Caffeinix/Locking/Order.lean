import Caffeinix.Locking.Footprint

/-!
# `Locking.Order` — circular waits between address spaces and file writes

The write lock of a filesystem, the registry of address spaces, the locks of processes and the lock of the page
cache are taken in this order: a write has the write lock when its copies fault, truncation goes from the write
lock through the registry to the processes and to the cache, `fork` from the registry to the parent, a fault from
its process to the cache. Four places go against it. `msync` has the lock of the process when it takes the write
lock of a shared file. So has a fault that reads its page past the cache with `vfs_file_pread`, and a fault on a
file of `/proc`, which takes the registry and a process, maybe its own. And `page_cache_refresh` has the lock of
the cache when it copies from the user.
-/

namespace Caffeinix.Locking

open LockPath Kernel

/-- The locks of address spaces and of file writes. -/
def Lock.Chain : Lock → Prop
  | .write _ | .registry | .mmap _ | .pageCache => True
  | _ => False

instance : DecidablePred Lock.Chain := fun l => by
  cases l <;> first | exact isTrue trivial | exact isFalse id

/-- No `msync` of a shared file mapping, and pages that are there when a write refreshes the page cache. -/
def Call.Upwards : Call → Prop
  | .write _ _ found => ∀ looks ∈ found.refresh.toList.flatten, (⟨false, looks⟩ : Copy).Resident
  | .msync _ areas => areas = []
  | _ => True

/-- The call stays in the order: neither of these, and no fault that reads past the page cache or is on a file of
    `/proc`. -/
def Call.InOrder (call : Call) : Prop := (∀ copy ∈ call.copies, CopyRises copy) ∧ call.Upwards

instance : DecidablePred Call.Upwards
  | .write _ _ found => inferInstanceAs (Decidable (∀ looks ∈ found.refresh.toList.flatten, _))
  | .msync _ areas => inferInstanceAs (Decidable (areas = []))
  | .read .. | .truncate .. | .fork .. | .fault .. | .readTty .. | .futexWait .. | .futexWake ..
  | .futexRequeue .. | .threadExit .. => isTrue trivial

instance : DecidablePred Call.InOrder := fun call =>
  inferInstanceAs (Decidable ((∀ copy ∈ call.copies, CopyRises copy) ∧ call.Upwards))

theorem nests_ordered : Nests (Threads.Ordered Lock.Chain Lock.level) where
  waits _ _ := trivial
  rises _ _ h _ _ := h

/-- Nothing is asked of what is taken under other locks. -/
theorem ordered_of_not_chain {l : Lock} (hl : ¬ l.Chain) {r : Request Lock} :
    Threads.Ordered Lock.Chain Lock.level l r := by
  cases r with
  | acquire => exact fun h => absurd h hl
  | wait => trivial

theorem fsLock_not_chain {sb : SuperBlock} {k : Lock} (h : k ∈ fsLock sb) : ¬ k.Chain := by
  unfold fsLock at h
  split at h <;> cases h <;> exact id

section

variable {may : Lock → Request Lock → Prop} {call : Call}

theorem Call.refresh_done {q process : Nat} {sb : SuperBlock} {w : Writing} (h : (Call.write q sb w).Upwards)
    {cs : List (List Look)} (hcs : cs ∈ w.refresh) {c : List Look} (hc : c ∈ cs) : copyin process c = .done :=
  userCopy_resident (h c (List.mem_flatten.2 ⟨cs, Option.mem_toList.2 hcs, hc⟩))

/-- A call in the order keeps every discipline that allows the order, but for what its copies do under the lock of a
    filesystem, and for spinlocks. -/
theorem Call.InOrder.keeps (h : call.InOrder) (hn : Nests may) (hspin : ∀ l r, l.spin = true → may l r)
    (hfs : ∀ q, ∀ p ∈ call.fsCopies, ∀ k ∈ fsLock p.1, (userCopy q p.2).Only fun k' => may k (.acquire k')) :
    call.path.Keeps may := by
  obtain ⟨hrises, hplace⟩ := h
  have hcopy : ∀ q, ∀ c ∈ call.copies, (userCopy q c).Keeps may := fun q c hc => userCopy_keeps hn (.inl (hrises c hc))
  have hmem {cs : List (List Look)} {copies : Option (List (List Look))} (hcs : cs ∈ copies) {c : List Look}
      (hc : c ∈ cs) : c ∈ copies.toList.flatten := List.mem_flatten.2 ⟨cs, Option.mem_toList.2 hcs, hc⟩
  refine call_keeps hn hcopy ?_ ?_ ?_ (spins_keep hn hspin hcopy)
  · rintro q file sb r rfl
    exact vfsRead_keeps hn (fun cs hcs c hc => hcopy q _ (List.mem_map_of_mem (hmem hcs hc))) fun k hk cs hcs c hc =>
      hfs q (sb, ⟨true, c⟩) (List.mem_map_of_mem (hmem hcs hc)) k hk
  · rintro q sb w rfl
    have hchunk : ∀ cs ∈ w.copies, ∀ c ∈ cs, ⟨false, c⟩ ∈ (Call.write q sb w).copies := fun cs hcs c hc =>
      List.mem_map_of_mem (List.mem_append_left _ (hmem hcs hc))
    refine vfsWrite_keeps hn (fun cs hcs c hc => hcopy q _ (hchunk cs hcs c hc)) ?_ ?_ ?_ ?_ ?_
    · exact fun k hk cs hcs c hc => hfs q (sb, ⟨false, c⟩) (List.mem_map_of_mem (hmem hcs hc)) k hk
    · exact fun cs hcs c hc => userCopy_below hn (by simp) (.inl (hrises _ (hchunk cs hcs c hc)))
    all_goals
      intro cs hcs c hc
      rw [Call.refresh_done hplace hcs hc]
      first | exact Path.keeps_done | exact Path.only_done
  · rintro q areas rfl
    exact sysLinuxMsync_keeps hn (.inl hplace)

end

theorem call_keeps_order {call : Call} (h : call.InOrder) :
    call.path.Keeps (Threads.Ordered Lock.Chain Lock.level) := by
  refine h.keeps nests_ordered (fun l r hl => ordered_of_not_chain fun hc => ?_) fun q p _ k hk k' _ =>
    ordered_of_not_chain (fsLock_not_chain hk)
  cases l <;> first | exact hc | cases hl

/-- **No circular wait** for the locks of address spaces and file writes, in any interleaving of calls that stay
    in the order. -/
theorem no_circular_wait_in_order {l : List (Step Nat Call)} (hl : ∀ a ∈ l, Begins Call.InOrder a) (t : Nat) :
    ¬ Relation.TransGen ((run l).WaitsFor Lock.Chain) t t :=
  (run_kept (fun _ => call_keeps_order) hl).no_circular_wait t

/-- A write of one page of a file by process 0, with the fault that the copy takes. -/
def writeOnePage (sb : SuperBlock) (fault : Fault) : Call :=
  .write 0 sb ⟨some .superuser, some [[⟨none, fault⟩]], some [[]], ⟨sb, none⟩⟩

/-- A write and a truncation that meet at the write lock, and a `fork`. -/
theorem writeTruncateFork_no_circular_wait :
    ¬ Relation.TransGen ((run
      [.begin 0 (writeOnePage ⟨.tmpfs, 0⟩ [⟨.zero none, none⟩]),
        .begin 1 (.truncate ⟨.tmpfs, 0⟩ ⟨some [], none, true, some ([], ⟨[0], [], []⟩), ⟨⟨.tmpfs, 0⟩, none⟩⟩),
        .begin 2 (.fork 0), .next 0, .next 1, .next 2, .next 2, .next 0, .next 0, .next 0]).WaitsFor Lock.Chain) 0 0 :=
  no_circular_wait_in_order (by decide) 0

/-- Two threads of process 0: one writes from memory that is not there yet, the other is in `msync` of a shared
    mapping of a file on the filesystem written to. -/
def writeAndMsync : List (Step Nat Call) :=
  [.begin 0 (writeOnePage ⟨.tmpfs, 0⟩ [⟨.zero none, none⟩]), .begin 1 (.msync 0 [(⟨.tmpfs, 0⟩, [])]),
    .next 1, .next 0, .next 0, .next 0, .next 0]

/-- The writer has the write lock and waits for the lock of the process, the other thread has that and waits for
    the write lock. -/
theorem writeAndMsync_circular_wait :
    Relation.TransGen ((run writeAndMsync).WaitsFor Lock.Chain) 0 0 := by
  have hwriter : (run writeAndMsync).WaitsFor Lock.Chain 0 1 :=
    ⟨.mmap 0, trivial, by decide +kernel, by decide +kernel⟩
  have hsyncer : (run writeAndMsync).WaitsFor Lock.Chain 1 0 :=
    ⟨.write ⟨.tmpfs, 0⟩, trivial, by decide +kernel, by decide +kernel⟩
  exact .tail (.single hwriter) hsyncer

end Caffeinix.Locking
