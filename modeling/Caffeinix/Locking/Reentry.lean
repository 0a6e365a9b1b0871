import Caffeinix.Locking.Order

/-!
# `Locking.Reentry` — the locks of filesystems are not taken twice

tmpfs and FAT hold one sleeplock over the whole loop of a read or write, with the copies to or from the user
inside. A copy that faults takes locks of filesystems itself: that of the area's file, to learn its size and to
read the page; those of the files whose pages leave the cache to make room; that of the file a dirty page was
held by. If one of these is the lock of the loop, the thread waits for itself, and only then. In every other call
the locks of filesystems are the innermost ones.

For other sleeplocks a thread may wait for itself where it leaves the order of `Locking.Order`, so on a file of
`/proc` about its own process.
-/

namespace Caffeinix.Locking

open LockPath List Kernel Path

/-- The locks of filesystems. -/
def Lock.fs : Lock → Bool
  | .tmpfs _ | .fatfs => true
  | _ => false

/-- The sleeplocks. -/
def Lock.sleep (l : Lock) : Bool := !l.spin

/-- Of these locks, none is requested by its owner. -/
def Once (these : Lock → Bool) (l : Lock) : Request Lock → Prop
  | .acquire k => these k = true → k ≠ l
  | .wait => True

/-- Two filesystems, or one, under one lock. -/
def SharesLock (a b : SuperBlock) : Prop := (fsLock a).isSome ∧ fsLock a = fsLock b

/-- No copy under the lock of a filesystem faults for a filesystem under the same lock. -/
def Call.Apart (call : Call) : Prop := ∀ p ∈ call.fsCopies, ∀ f ∈ copyFiles p.2, ¬ SharesLock f p.1

variable {these : Lock → Bool} {l k : Lock} {sb : SuperBlock} {process : Nat} {copy : Copy} {call : Call}

theorem once_of_not (hl : these l = false) (r : Request Lock) : Once these l r := by
  cases r with
  | acquire =>
    rintro hk rfl
    rw [hl] at hk
    cases hk
  | wait => trivial

theorem nests_once : Nests (Once these) where
  waits _ _ := trivial
  rises l k h := by
    rintro - rfl
    exact Nat.lt_irrefl _ h

/-! ## Calls that keep apart -/

/-- The copy requests no lock of the filesystem. -/
theorem copyApart_only (h : ∀ f ∈ copyFiles copy, ¬ SharesLock f sb) (hk : k ∈ fsLock sb) :
    (userCopy process copy).Only fun k' => Once these k (.acquire k') := by
  have hfs : k.level = 7 := fsLock_level hk
  -- every other lock is another one, by its level
  have hother : ∀ k' : Lock, k'.level ≠ 7 → Once these k (.acquire k') := by
    rintro k' hk' - rfl
    exact hk' hfs
  refine userCopy_only (hother _ (by simp)) (hother _ (by simp)) (fun q => hother _ (by simp))
    ⟨fun _ => hother _ (by simp), fun _ => hother _ (by simp)⟩ (fun m => hother _ (by simp)) (.inr ?_) ?_
  · exact ⟨fun _ => hother _ (by simp), hother _ (by simp), fun _ => hother _ (by simp), hother _ (by simp)⟩
  rintro f hf k' hk' - rfl
  refine h f hf ⟨Option.isSome_of_mem hk', ?_⟩
  rw [Option.mem_def.1 hk', Option.mem_def.1 hk]

/-- A call that keeps apart, for the locks of filesystems. -/
theorem call_keeps_once (h : call.Apart) : call.path.Keeps (Once Lock.fs) := by
  have hfree : ∀ l : Lock, l.fs = false → ∀ c q, (userCopy q c).Only fun k => Once Lock.fs l (.acquire k) :=
    fun l hl c q k _ => once_of_not hl _
  have hcopy : ∀ q c, (userCopy q c).Keeps (Once Lock.fs) := fun q c =>
    userCopy_keeps nests_once (.inr ⟨fun _ => once_of_not rfl _, once_of_not rfl _, fun _ => once_of_not rfl _,
      once_of_not rfl _⟩)
  have hmem {cs : List (List Look)} {copies : Option (List (List Look))} (hcs : cs ∈ copies) {c : List Look}
      (hc : c ∈ cs) : c ∈ copies.toList.flatten := mem_flatten.2 ⟨cs, Option.mem_toList.2 hcs, hc⟩
  refine call_keeps nests_once (fun q c _ => hcopy q c) ?_ ?_ ?_ ?_
  · rintro q file sb r rfl
    exact vfsRead_keeps nests_once (fun _ _ c _ => hcopy q _) fun k hk cs hcs c hc =>
      copyApart_only (h (sb, ⟨true, c⟩) (mem_map_of_mem (hmem hcs hc))) hk
  · rintro q sb w rfl
    exact vfsWrite_keeps nests_once (fun _ _ c _ => hcopy q _)
      (fun k hk cs hcs c hc => copyApart_only (h (sb, ⟨false, c⟩) (mem_map_of_mem (hmem hcs hc))) hk)
      (fun _ _ c _ => hfree _ rfl _ q) (fun _ _ c _ => hcopy q _) (fun _ _ c _ => hfree _ rfl _ q)
      fun _ _ c _ => hfree _ rfl _ q
  · rintro q areas rfl
    exact sysLinuxMsync_keeps nests_once (.inr fun _ => once_of_not rfl _)
  · refine spins_keep nests_once (fun l r hl => once_of_not ?_ r) fun q c _ => hcopy q c
    cases l <;> first | rfl | cases hl

/-- And for all sleeplocks, if it also stays in the order. -/
theorem call_keeps_once_sleep (h : call.Apart) (hin : call.InOrder) : call.path.Keeps (Once Lock.sleep) :=
  hin.keeps nests_once (fun l r hl => once_of_not (by simp [Lock.sleep, hl]) r) fun _ p hp _ hk =>
    copyApart_only (h p hp) hk

/-! ## Calls that do not -/

/-- The path requests the locks of these filesystems. -/
def Takes (p : Path Lock) (files : List SuperBlock) : Prop :=
  ∀ f ∈ files, ∀ k ∈ fsLock f, .acquire k ∈ p.requests

section

variable {p q : Path Lock} {a b : List SuperBlock} {α : Type*} {f : α → Path Lock} {g : α → List SuperBlock}

theorem takes_nil : Takes p [] := nofun

theorem Takes.left (h : Takes p a) : Takes (p ++ q) a := fun f hf k hk => by simp [h f hf k hk]

theorem Takes.right (h : Takes q a) : Takes (p ++ q) a := fun f hf k hk => by simp [h f hf k hk]

theorem Takes.append (hp : Takes p a) (hq : Takes q b) : Takes (p ++ q) (a ++ b) :=
  forall_mem_append.2 ⟨hp.left, hq.right⟩

theorem Takes.holding (h : Takes p a) : Takes (holding l p) a := fun f hf k hk => by simp [h f hf k hk]

theorem takes_each (h : ∀ x, Takes (f x) (g x)) {as : List α} : Takes (each f as) (as.flatMap g) := by
  intro s hs k hk
  obtain ⟨x, hx, hs⟩ := mem_flatMap.1 hs
  exact mem_requests_each.2 ⟨x, hx, h x s hs k hk⟩

theorem takes_whenever (h : ∀ x, Takes (f x) (g x)) {o : Option α} : Takes (whenever f o) (o.toList.flatMap g) := by
  cases o with
  | none => exact takes_nil
  | some x => simpa [whenever] using h x

end

theorem operation_takes (sb : SuperBlock) : Takes (operation sb) [sb] := by
  obtain ⟨kind, id⟩ := sb
  cases kind <;> simp [Takes, operation, fsLock]

theorem vfsFilePreadRaw_takes (sb : SuperBlock) : Takes (vfsFilePreadRaw sb) [sb] := by
  obtain ⟨kind, id⟩ := sb
  cases kind <;> simp [Takes, vfsFilePreadRaw, fileRead, fsLock]

theorem fileRelease_takes (d : Dropped) : Takes (fileRelease d) d.files := by
  refine takes_whenever fun inodes => ?_
  split_ifs with hnone
  · exact takes_nil
  by_cases hkind : d.sb.kind = .tmpfs
  · obtain ⟨n, rfl⟩ := Nat.exists_eq_succ_of_ne_zero fun hz => hnone ⟨hkind, hz⟩
    refine Takes.right fun f hf k hk => mem_requests_each.2 ⟨0, by simp, ?_⟩
    unfold putInode
    rw [if_pos hkind]
    exact operation_takes _ f hf k hk
  · unfold release
    rw [if_neg hkind]
    exact (operation_takes d.sb).left

theorem vfsPathAccessed_takes (sb : SuperBlock) (a : Accessed) : Takes (vfsPathAccessed sb a) (a.files sb) := by
  unfold Accessed.files
  split_ifs with h
  · obtain ⟨rfl, hkind⟩ := h
    obtain ⟨kind, id⟩ := sb
    cases kind with
    | fatfs => exact absurd rfl hkind
    | tmpfs | ext4 => exact (operation_takes _).holding
  · exact takes_nil

theorem pageCacheGet_takes (sb : SuperBlock) (get : CacheGet) : Takes (pageCacheGet sb get) (get.files sb) := by
  cases get with
  | found => exact takes_nil
  | missed victims read =>
    refine (((takes_each fileRelease_takes).append ?_).append (takes_each fileRelease_takes)).holding
    cases read with
    | false => exact takes_nil
    | true => exact vfsFilePreadRaw_takes sb

theorem vfsFilePread_takes (sb : SuperBlock) (r : Pread) : Takes (vfsFilePread sb r) (r.files sb) :=
  Takes.append (Takes.holding (Takes.holding (takes_each fun _ => (operation_takes sb).left)))
    (takes_whenever fun _ => (vfsFilePreadRaw_takes sb).left)

theorem mmapFileFault_takes (f : FileFault) : Takes (mmapFileFault f) f.files := by
  refine Takes.append ?_ ?_
  · split_ifs
    · exact takes_nil
    · exact operation_takes f.sb
  cases f.ending with
  | early => exact takes_nil
  | cached => exact (pageCacheGet_takes _ _).append (vfsPathAccessed_takes _ _)
  | refused => exact pageCacheGet_takes _ _
  | copied =>
    exact ((takes_whenever (pageCacheGet_takes _)).append (takes_whenever fun _ =>
      (takes_each fileRelease_takes).holding)).append (takes_whenever (vfsFilePread_takes _))

theorem vfsFileMarkSharedDirty_takes (sb : SuperBlock) (d : SharedDirty) :
    Takes (vfsFileMarkSharedDirty sb d) (d.files sb) := by
  refine Takes.append ?_ (takes_whenever fun _ => (takes_whenever fileRelease_takes).right)
  cases d.privileges with
  | superuser => exact takes_nil
  | kept => exact (operation_takes sb).holding
  | cleared => exact (operation_takes sb).left.holding

theorem attempt_takes (a : Attempt) : Takes a.path a.files := by
  have hreclaim (victims : Option (List Dropped)) :
      Takes (whenever pageCacheReclaim victims) (victims.toList.flatMap droppedFiles) :=
    takes_whenever fun _ => (takes_each fileRelease_takes).holding
  cases a with
  | settled | procfs => exact takes_nil
  | dirtied => exact vfsFileMarkSharedDirty_takes _ _
  | file fault => exact (mmapFileFault_takes fault).left.append (takes_whenever (vfsFileMarkSharedDirty_takes _))
  | backing _ victims => exact (hreclaim victims).holding
  | zero victims => exact hreclaim victims

/-- **The faults of a copy** request the locks of the filesystems that are named for it. -/
theorem userCopy_takes (process : Nat) (copy : Copy) : Takes (userCopy process copy) (copyFiles copy) := by
  refine takes_each fun fault => takes_each fun round => (attempt_takes _).holding.append (takes_whenever fun r => ?_)
  refine Takes.left (Takes.right (takes_each fun entry => Takes.right (takes_whenever fun e => ?_)))
  exact Takes.right (Takes.holding (takes_whenever fileRelease_takes))

/-- What tmpfs and FAT do under their locks. -/
theorem filesystem_inv {p q : Path Lock} (h : (match sb.kind with
      | .tmpfs => holding (Lock.tmpfs sb.id) p
      | .fatfs => holding Lock.fatfs q
      | .ext4 => q).Keeps (Once these)) (hk : k ∈ fsLock sb) {r : Request Lock} (hp : r ∈ p.requests)
    (hq : r ∈ q.requests) : Once these k r := by
  obtain ⟨kind, id⟩ := sb
  cases kind <;> cases hk
  · exact (keeps_holding.1 h).1 r hp
  · exact (keeps_holding.1 h).1 r hq

/-- A call that keeps the discipline makes its copies apart. -/
theorem apart_of_keeps (h : call.path.Keeps (Once Lock.fs)) : call.Apart := by
  -- what a copy under the lock may request, against what it does
  have hclash (process : Nat) {sb : SuperBlock} {copy : Copy}
      (hmay : ∀ k ∈ fsLock sb, ∀ r ∈ (userCopy process copy).requests, Once Lock.fs k r) :
      ∀ f ∈ copyFiles copy, ¬ SharesLock f sb := by
    rintro f hf ⟨hsome, heq⟩
    obtain ⟨k, hk⟩ := Option.isSome_iff_exists.1 hsome
    have hfs : k.fs = true := by
      unfold fsLock at hk
      split at hk <;> cases hk <;> rfl
    exact hmay k (heq ▸ hk) _ (userCopy_takes process copy f hf k hk) hfs rfl
  intro p hp
  cases call with
  | read q file sb found =>
    obtain ⟨c, hc, rfl⟩ := mem_map.1 hp
    obtain ⟨cs, hcs, hc⟩ := mem_flatten.1 hc
    have hread := keeps_whenever.1 (keeps_append.1 (keeps_append.1 h).1).2 cs (Option.mem_toList.1 hcs)
    refine hclash q fun k hk r hr => filesystem_inv (keeps_holding.1 (keeps_append.1 hread).1).2 hk ?_ ?_
    · exact mem_requests_each.2 ⟨_, mem_map_of_mem hc, hr⟩
    · rw [requests_append]
      exact mem_append_right _ (mem_requests_each.2 ⟨_, mem_map_of_mem hc, mem_cons_of_mem _ hr⟩)
  | write q sb found =>
    obtain ⟨c, hc, rfl⟩ := mem_map.1 hp
    obtain ⟨cs, hcs, hc⟩ := mem_flatten.1 hc
    have hbody := (keeps_holding.1 (keeps_append.1 h).1).2
    have hwrite := keeps_whenever.1 (keeps_append.1 (keeps_append.1 hbody).1).2 cs (Option.mem_toList.1 hcs)
    refine hclash q fun k hk r hr => filesystem_inv hwrite hk ?_ ?_
    · exact mem_requests_each.2 ⟨_, mem_map_of_mem hc, hr⟩
    · rw [requests_append]
      refine mem_append_right _ (mem_requests_each.2 ⟨_, mem_map_of_mem hc, ?_⟩)
      rw [requests_append]
      exact mem_append_left _ hr
  | _ => cases hp

/-! ## The main result -/

/-- **No lock of a filesystem is requested by its owner**: a call in its course does not exactly if its copies keep
    apart, and no thread does in any interleaving of such calls. If the calls stay in the order, too, no thread
    waits for itself for any sleeplock. -/
theorem fs_locks_not_reentered (call : Call) (l : List (Step Nat Call)) :
    (call.path.Keeps (Once Lock.fs) ↔ call.Apart) ∧
    ((∀ a ∈ l, Begins Call.Apart a) → ∀ t k, k.fs = true →
      (run l).request t = some (.acquire k) → (run l).owner k ≠ some t) ∧
    ((∀ a ∈ l, Begins (fun call => call.Apart ∧ call.InOrder) a) → ∀ t k, k.spin = false →
      (run l).request t = some (.acquire k) → (run l).owner k ≠ some t) := by
  have hown {these : Lock → Bool} (hkept : (run l).Kept (Once these)) (t : Nat) (k : Lock) (hk : these k = true)
      (hr : (run l).request t = some (.acquire k)) : (run l).owner k ≠ some t := fun howner =>
    hkept.allowed hr ((hkept.owner k t).1 howner) hk rfl
  refine ⟨⟨apart_of_keeps, call_keeps_once⟩, fun hl => ?_, fun hl t k hk => ?_⟩
  · exact hown (run_kept (fun _ => call_keeps_once) hl)
  · refine hown (run_kept (fun _ h => call_keeps_once_sleep h.1 h.2) hl) t k ?_
    simp [Lock.sleep, hk]

/-- A read of one page of a file, by process 0 through open file 0, with the fault that the copy takes. -/
def readOnePage (sb : SuperBlock) (fault : Fault) : Call :=
  .read 0 0 sb ⟨[], some [[⟨none, fault⟩]], .recent, ⟨sb, none⟩⟩

/-- A read of a file into a page of a mapping of a file on the same filesystem that is not there yet. -/
def readIntoOwnMapping (sb : SuperBlock) : List (Step Nat Call) :=
  [.begin 0 (readOnePage sb [⟨.file ⟨sb, false, .cached .found .recent⟩ false none, none⟩])] ++ replicate 9 (.next 0)

/-- The thread has the lock of the filesystem and requests it, on tmpfs and on FAT. -/
theorem readIntoOwnMapping_waits_for_itself :
    ((run (readIntoOwnMapping ⟨.tmpfs, 0⟩)).request 0 = some (.acquire (.tmpfs 0)) ∧
      (run (readIntoOwnMapping ⟨.tmpfs, 0⟩)).owner (.tmpfs 0) = some 0) ∧
    (run (readIntoOwnMapping ⟨.fatfs, 0⟩)).request 0 = some (.acquire .fatfs) ∧
      (run (readIntoOwnMapping ⟨.fatfs, 0⟩)).owner .fatfs = some 0 :=
  ⟨by decide +kernel, by decide +kernel⟩

end Caffeinix.Locking
