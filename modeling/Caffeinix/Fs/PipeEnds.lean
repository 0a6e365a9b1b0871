import Caffeinix.Fs.Descriptors

/-!
# `Fs.PipeEnds` — how the ends of a pipe come and go

`vfs_pipe` makes a file for each end, and the last release of such a file takes the end away, in two steps: first
the file leaves the table, then `pipe_release` counts the end down and wakes the other side. Between the two the
thread that releases it stands for the end.
-/

namespace Caffeinix.Fs

open Option Sched Files VfsFile
open Function (update update_of_ne update_self)

variable {Tid Pid Pipe Other Private : Type} [DecidableEq Tid] [DecidableEq Pipe]
  {s s' : Files Tid Pid Pipe Other Private} {t : Tid} {p : Pid}

omit [DecidableEq Pipe] in
/-- A step in which only the hand of a thread changes. -/
theorem ThreadsOk.own (hT : ThreadsOk s) (ht : (s.waits.thread t).live) (hwaits : s'.waits = s.waits)
    (hhome : s'.home = s.home) (hcounts : s'.liveThreads = s.liveThreads) (halive : s'.alive = s.alive)
    (hdetached : s'.detached = s.detached) (hlast : s'.last = s.last) (hslots : s'.slots = s.slots)
    (hareas : s'.areas = s.areas) (hhands : ∀ u, u ≠ t → s'.locals u = s.locals u ∧ s'.draft u = s.draft u ∧
      s'.released u = s.released u ∧ s'.call u = s.call u) : ThreadsOk s' := by
  refine hT.frame (by rw [hwaits]; exact hT.waits) hhome hcounts halive hdetached hlast (fun u _ => by rw [hwaits])
    (fun u hu => by rw [hwaits]; exact hu) (fun u _ hu => .inl (by rw [← hwaits]; exact hu))
    (fun u _ hu => by rw [← hwaits]; exact hu) (fun q hq => .inl ?_) (fun u hu => ?_)
  · unfold bare at hq ⊢
    rwa [hslots, hareas] at hq
  · by_cases hut : u = t
    · rw [hut, hwaits]
      exact .inr ht
    · obtain ⟨hlocals, hdraft, hreleased, hcall⟩ := hhands u hut
      unfold empty inHand at hu ⊢
      rw [hlocals, hdraft, hreleased, hcall] at hu
      exact .inl hu

theorem VfsFile.isEnd_free (side : Side) (pipe : Pipe) : (free : VfsFile Pipe).isEnd side pipe = false := by
  simp [isEnd, free]

variable {file : VfsFile Pipe} {pipe : Pipe} {call : PipeCall} {reference : Reference}

/-- A file is an end of its own pipe only. -/
theorem VfsFile.isEnd_ne {pipe' : Pipe} (hpipe : file.pipe = some pipe) (hne : pipe' ≠ pipe) (side : Side) :
    file.isEnd side pipe' = false := by
  have hne' : ¬pipe = pipe' := fun h => hne h.symm
  simp [isEnd, hpipe, hne']

theorem VfsFile.pipe_of_isEnd {side : Side} (h : file.isEnd side pipe) : file.pipe = some pipe := by
  simpa using (Bool.and_eq_true_iff.1 h).1

section
omit [DecidableEq Tid]

/-- The file of a call is an end of its pipe. -/
theorem PipesOk.call_end (hP : PipesOk s) (hcall : s.call t = some call)
    (hpipe : (s.file call.file).pipe = some pipe) : 0 < (s.pipe pipe).ends call.side := by
  obtain ⟨-, pipe', hend⟩ := hP.calls t call hcall
  have heq : pipe' = pipe := some.inj ((pipe_of_isEnd hend).symm.trans hpipe)
  have hle := (hP.ends call.side pipe).le (.inl call.file)
  rw [heq] at hend
  simp only [endsOf, hend, if_true] at hle
  omega

/-- Without readers nobody sleeps on a queue of the pipe. -/
theorem PipesOk.no_readers (hP : PipesOk s) (hW : WaitInv s.waits) (hzero : (s.pipe pipe).readers = 0) :
    s.waits.waiters (.inl (.readWait pipe)) = [] ∧ s.waits.waiters (.inl (.writeWait pipe)) = [] := by
  constructor
  · rw [List.eq_nil_iff_forall_not_mem]
    intro u hu
    obtain ⟨f, n, b, hcall, hpipe⟩ := hP.reading u pipe ((hW.mem u _).1 hu)
    have hpos : 0 < (s.pipe pipe).readers := hP.call_end hcall hpipe
    omega
  · by_contra hne
    exact hP.writeWait pipe hne hzero

/-- Files change that no call uses. -/
theorem PipesOk.files (hP : PipesOk s) (hwaits : s'.waits = s.waits) (hcalls : s'.call = s.call)
    (hfile : ∀ u call, s.call u = some call → s'.file call.file = s.file call.file)
    (hlocals : ∀ u call, s.call u = some call → ⟨call.file, true⟩ ∈ s.locals u → ⟨call.file, true⟩ ∈ s'.locals u)
    (hends : ∀ side pipe, Weighs (s'.endsOf side pipe) ((s'.pipe pipe).ends side))
    (hpipe : ∀ pipe, s'.pipe pipe = s.pipe pipe ∨ (s'.pipe pipe).readBusy = false ∧ (s.pipe pipe).readers = 0)
    (hcached : ∀ reference ∈ s'.cache, (s'.file reference.file).pipe = none) (hW : WaitInv s.waits) : PipesOk s' where
  ends := hends
  calls := by
    intro u call hcall
    rw [hcalls] at hcall
    obtain ⟨hm, pipe, hend⟩ := hP.calls u call hcall
    exact ⟨hlocals u call hcall hm, pipe, by rw [hfile u call hcall]; exact hend⟩
  busy := by
    intro pipe hbusy
    rcases hpipe pipe with h | ⟨h, -⟩
    · rw [h] at hbusy
      obtain ⟨u, f, n, hcall, hp⟩ := hP.busy pipe hbusy
      exact ⟨u, f, n, by rw [hcalls]; exact hcall, (congrArg VfsFile.pipe (hfile u _ hcall)).trans hp⟩
    · rw [h] at hbusy
      exact Bool.noConfusion hbusy
  reading := by
    intro u pipe hon
    rw [hwaits] at hon
    obtain ⟨f, n, b, hcall, hp⟩ := hP.reading u pipe hon
    exact ⟨f, n, b, by rw [hcalls]; exact hcall, (congrArg VfsFile.pipe (hfile u _ hcall)).trans hp⟩
  writing := by
    intro u pipe hon
    rw [hwaits] at hon
    obtain ⟨f, m, n, a, b, hcall, hp⟩ := hP.writing u pipe hon
    exact ⟨f, m, n, a, b, by rw [hcalls]; exact hcall, (congrArg VfsFile.pipe (hfile u _ hcall)).trans hp⟩
  readWait := by
    intro pipe hne
    rw [hwaits] at hne
    rcases hpipe pipe with h | ⟨-, h⟩
    · rw [h]
      exact hP.readWait pipe hne
    · exact absurd (hP.no_readers hW h).1 hne
  writeWait := by
    intro pipe hne
    rw [hwaits] at hne
    rcases hpipe pipe with h | ⟨-, h⟩
    · rw [h]
      exact hP.writeWait pipe hne
    · exact absurd (hP.no_readers hW h).2 hne
  cached := hcached

end

/-! ## The last release of a file -/

omit [DecidableEq Pipe] in
/-- The references of the calls are not given back. -/
theorem mem_drop_of_call (hunused : s.unused t reference) {u : Tid} (hcall : s.call u = some call)
    (hm : ⟨call.file, true⟩ ∈ s.locals u) : ⟨call.file, true⟩ ∈ (s.drop t reference).locals u := by
  by_cases hu : u = t
  · subst hu
    have hne : reference ≠ ⟨call.file, true⟩ := by simpa [unused, hcall] using hunused
    simp only [drop, update_self]
    exact (List.mem_erase_of_ne hne.symm).2 hm
  · simp only [drop, update_of_ne hu]
    exact hm

/-- The file leaves the table, and the thread has what is left of it. -/
theorem PipesOk.fileRelease_last (hP : PipesOk s) (hW : WaitInv s.waits) (hunused : s.unused t reference)
    (hnone : s.released t = none)
    (hfile : ∀ side pipe, file.isEnd side pipe = (s.file reference.file).isEnd side pipe)
    (hC : Counted { (s.drop t reference).setFile reference.file free with
      released := update s.released t (some file) }) :
    PipesOk { (s.drop t reference).setFile reference.file free with
      released := update s.released t (some file) } := by
  -- somebody in a call still has a reference to its file
  have hne : ∀ u call, s.call u = some call → call.file ≠ reference.file := by
    intro u call hcall he
    have hpos := hC.pos_local (mem_drop_of_call hunused hcall (hP.calls u call hcall).1)
    simp [setFile, he, free] at hpos
  refine hP.files rfl rfl (fun u call hcall => update_of_ne (hne u call hcall) _ _)
    (fun u call hcall hm => mem_drop_of_call hunused hcall hm) (fun side pipe => ?_) (fun pipe => .inl rfl)
    (fun other hm => ?_) hW
  · refine (hP.ends side pipe).change_two (a := .inl reference.file) (b := .inr t) (by simp) (fun e he he' => ?_) ?_
    · cases e with
      | inl f =>
        have hf : f ≠ reference.file := fun h => he (by rw [h])
        simp only [endsOf, setFile, drop, update_of_ne hf]
      | inr u =>
        have hu : u ≠ t := fun h => he' (by rw [h])
        simp only [endsOf, update_of_ne hu]
    · simp only [endsOf, setFile, drop, update_self, hnone, isEnd_free,
        any_some, any_none, hfile]
      simp [Nat.add_comm]
  · by_cases he : other.file = reference.file
    · simp [setFile, he, free]
    · simp only [setFile, drop, update_of_ne he]
      exact hP.cached other hm

/-- `file_close` and `file_unhold` of a variable. -/
theorem FilesInv.fileRelease (hI : FilesInv s) (hact : s.acts t = some p) (hm : reference ∈ s.locals t)
    (hunused : s.unused t reference) (hnone : s.released t = none) :
    FilesInv (fileRelease (s.drop t reference) t reference) := by
  have hg := drop_gains hm
  have hC := hI.counted.fileRelease hg rfl t
  obtain ⟨-, hpipe, hread, hwrite⟩ := releaseAccess_frame (s.file reference.file) reference.access
  rw [hI.counted.fileRelease_eq hg rfl t] at hC ⊢
  split_ifs at hC ⊢ with hmore
  · exact hI.works hact ((works_drop hunused).trans (works_setFile hpipe fun _ => ⟨hread, hwrite⟩)) hC
  refine ⟨hI.panic, hC, ?_, hI.pipes.fileRelease_last hI.threads.waits hunused hnone (fun side pipe => ?_) hC⟩
  · refine hI.threads.own (live_of_runs (acts_spec hact).1) rfl rfl rfl rfl rfl rfl rfl rfl fun u hu => ?_
    exact ⟨update_of_ne hu _ _, rfl, update_of_ne hu _ _, rfl⟩
  · simp only [isEnd, hpipe]
    cases side with
    | reader => simp only [hread]
    | writer => simp only [hwrite]

/-! ## `pipe_release` -/

section
variable [DecidableEq Other]

/-- The queues after `pipe_release`. -/
def endsWaits (waits : Waits Tid (PipeQueue Pipe ⊕ Other) Private) (file : VfsFile Pipe) (pipe : Pipe) :
    Waits Tid (PipeQueue Pipe ⊕ Other) Private :=
  let waits := if file.openRead then (waitQueueWakeAll waits (.inl (.writeWait pipe))).1 else waits
  if file.openWrite then (waitQueueWakeAll waits (.inl (.readWait pipe))).1 else waits

/-- The counters after it. -/
def VfsPipe.without (pipe : VfsPipe) (file : VfsFile Pipe) : VfsPipe :=
  { pipe with
    readers := if file.openRead then pipe.readers - 1 else pipe.readers
    writers := if file.openWrite then pipe.writers - 1 else pipe.writers }

variable {file : VfsFile Pipe} {pipe : Pipe} {waits : Waits Tid (PipeQueue Pipe ⊕ Other) Private}

/-- `pipe_release` of an end that the pipe has. -/
theorem pipeRelease_eq (hpipe : file.pipe = some pipe) (hread : file.openRead → (s.pipe pipe).readers ≠ 0)
    (hwrite : file.openWrite → (s.pipe pipe).writers ≠ 0) :
    pipeRelease s file =
      let s' : Files Tid Pid Pipe Other Private :=
        { s with
          pipe := update s.pipe pipe ((s.pipe pipe).without file)
          waits := endsWaits s.waits file pipe }
      if (s'.pipe pipe).readers = 0 && (s'.pipe pipe).writers = 0 &&
          !((s'.waits.waiters (.inl (.readWait pipe))).isEmpty && (s'.waits.waiters (.inl (.writeWait pipe))).isEmpty)
      then { s' with panic := some .releasePipeWithWaiters }
      else s' := by
  unfold pipeRelease
  simp only [hpipe]
  suffices h : (if file.openWrite then
        pipeReleaseWriter (if file.openRead then pipeReleaseReader s pipe else s) pipe
        else if file.openRead then pipeReleaseReader s pipe else s) =
      { s with
        pipe := update s.pipe pipe ((s.pipe pipe).without file)
        waits := endsWaits s.waits file pipe } by rw [h]
  cases hr : file.openRead with
  | false =>
    cases hw : file.openWrite with
    | false => simp [VfsPipe.without, endsWaits, hr, hw]
    | true => simp [VfsPipe.without, endsWaits, pipeReleaseWriter, hr, hw, hwrite hw]
  | true =>
    cases hw : file.openWrite with
    | false => simp [VfsPipe.without, endsWaits, pipeReleaseReader, hr, hw, hread hr]
    | true =>
      simp [VfsPipe.without, endsWaits, pipeReleaseReader, pipeReleaseWriter, hr, hw, hread hr, hwrite hw]

omit [DecidableEq Tid] [DecidableEq Pipe] [DecidableEq Other] in
theorem Goes.trans {waits' : Waits Tid (PipeQueue Pipe ⊕ Other) Private} (hg : Goes s waits)
    (hg' : Goes { s with waits := waits } waits') : Goes s waits' where
  waits := hg'.waits
  present := fun u hu => (hg'.present u hu).trans (hg.present u hu)
  live := fun u hu => hg'.live u (hg.live u hu)
  started := by
    intro u hu hl
    rcases hg'.started u hu hl with h | h
    · exact hg.started u hu h
    · exact .inr (hg.early u hu h)
  early := fun u hu h => hg.early u hu (hg'.early u hu h)
  waiting := fun u queue h => hg.waiting u queue (hg'.waiting u queue h)

section
variable (hT : ThreadsOk s)
include hT

theorem ThreadsOk.goes_wakeAll (queue : PipeQueue Pipe ⊕ Other) : Goes s (waitQueueWakeAll s.waits queue).1 :=
  hT.goes_step (.wakeAll queue) rfl (by simp) (by simp) (by simp)

omit [DecidableEq Tid] [DecidableEq Pipe] [DecidableEq Other] in
theorem ThreadsOk.goes_refl : Goes s s.waits where
  waits := hT.waits
  present := fun _ _ => .rfl
  live := fun _ h => h
  started := fun _ _ h => .inl h
  early := fun _ _ h => h
  waiting := fun _ _ h => h

theorem ThreadsOk.goes_ends (file : VfsFile Pipe) (pipe : Pipe) : Goes s (endsWaits s.waits file pipe) := by
  have hfirst : Goes s (if file.openRead then (waitQueueWakeAll s.waits (.inl (.writeWait pipe))).1 else s.waits) := by
    split
    · exact hT.goes_wakeAll _
    · exact hT.goes_refl
  unfold endsWaits
  by_cases hw : file.openWrite
  · rw [if_pos hw]
    exact hfirst.trans ((hT.goes hfirst).goes_wakeAll _)
  · rw [if_neg hw]
    exact hfirst

end

/-- Nobody is left on a queue after `wait_queue_wake_all`. -/
theorem waiters_wakeAll (hW : WaitInv waits) (queue : PipeQueue Pipe ⊕ Other) :
    (waitQueueWakeAll waits queue).1.waiters queue = [] := by
  rw [hW.waitQueueWakeAll_eq]
  simp [Sched.woken]

/-- A queue that is empty stays so when others are woken. -/
theorem waiters_wakeAll_of_nil (hW : WaitInv waits) {queue : PipeQueue Pipe ⊕ Other}
    (hnil : waits.waiters queue = []) (other : PipeQueue Pipe ⊕ Other) :
    (waitQueueWakeAll waits other).1.waiters queue = [] := by
  rw [hW.waitQueueWakeAll_eq]
  simp [Sched.woken, hnil]

/-- The other side is awake. -/
theorem ThreadsOk.endsWaits_waiters (hT : ThreadsOk s) :
    (file.openRead → (endsWaits s.waits file pipe).waiters (.inl (.writeWait pipe)) = []) ∧
      (file.openWrite → (endsWaits s.waits file pipe).waiters (.inl (.readWait pipe)) = []) := by
  unfold endsWaits
  constructor
  · intro hr
    have hnil := waiters_wakeAll hT.waits (.inl (.writeWait pipe))
    split_ifs with hw
    · exact waiters_wakeAll_of_nil (hT.goes_wakeAll _).waits hnil _
    · exact hnil
  · intro hw
    simp only [hw, if_true]
    by_cases hr : file.openRead
    · simp only [hr, if_true]
      exact waiters_wakeAll (hT.goes_wakeAll _).waits _
    · simp only [hr, if_false, Bool.false_eq_true]
      exact waiters_wakeAll hT.waits _

omit [DecidableEq Other] in
/-- The end is counted no more, and whoever it could be news for is awake. -/
theorem PipesOk.without (hP : PipesOk s) (hreleased : s.released t = some file)
    (hpipe : file.pipe = some pipe) (hread : file.openRead → s.waits.waiters (.inl (.writeWait pipe)) = [])
    (hwrite : file.openWrite → s.waits.waiters (.inl (.readWait pipe)) = []) :
    PipesOk { s with
      released := update s.released t none
      pipe := update s.pipe pipe ((s.pipe pipe).without file) } := by
  have hrecord : ∀ pipe', pipe' ≠ pipe →
      update s.pipe pipe ((s.pipe pipe).without file) pipe' = s.pipe pipe' :=
    fun pipe' hne => update_of_ne hne _ _
  exact { hP with
    ends := by
      intro side pipe'
      refine (hP.ends side pipe').change (a := .inr t) (fun e he => ?_) ?_
      · cases e with
        | inl => rfl
        | inr u =>
          have hu : u ≠ t := fun h => he (by rw [h])
          simp only [endsOf, update_of_ne hu]
      · have hle := (hP.ends side pipe').le (.inr t)
        simp only [endsOf, hreleased, any_some, update_self, any_none] at hle ⊢
        by_cases hne : pipe' = pipe
        · subst hne
          rw [update_self]
          cases side with
          | reader | writer =>
            simp only [isEnd, hpipe, VfsPipe.ends, VfsPipe.without, decide_true, Bool.true_and, Bool.false_eq_true,
              if_false] at hle ⊢
            split_ifs at hle ⊢
            · exact Nat.sub_add_cancel hle
            · rfl
        · rw [hrecord pipe' hne, isEnd_ne hpipe hne]
    busy := by
      intro pipe' hbusy
      refine hP.busy pipe' ?_
      by_cases hne : pipe' = pipe
      · subst hne
        simpa [VfsPipe.without] using hbusy
      · simpa only [hrecord pipe' hne] using hbusy
    readWait := by
      intro pipe' hwait
      by_cases hne : pipe' = pipe
      · subst hne
        have hw : file.openWrite = false := by
          by_contra hw
          exact hwait (hwrite (by simpa using hw))
        have hold := hP.readWait pipe' hwait
        simpa [VfsPipe.without, hw] using hold
      · simp only [hrecord pipe' hne]
        exact hP.readWait pipe' hwait
    writeWait := by
      intro pipe' hwait
      by_cases hne : pipe' = pipe
      · subst hne
        have hr : file.openRead = false := by
          by_contra hr
          exact hwait (hread (by simpa using hr))
        have hold := hP.writeWait pipe' hwait
        simpa [VfsPipe.without, hr] using hold
      · simp only [hrecord pipe' hne]
        exact hP.writeWait pipe' hwait }

/-- The end of `file_release`. -/
theorem FilesInv.fileReleaseEnd (hI : FilesInv s) (hact : s.acts t = some p) :
    FilesInv (fileReleaseEnd s t) := by
  have hlive := live_of_runs (acts_spec hact).1
  unfold Fs.fileReleaseEnd
  split
  · exact hI
  rename_i file hreleased
  -- what is left of the file is gone from the hand
  have hthreads : ThreadsOk { s with released := update s.released t none } :=
    hI.threads.own hlive rfl rfl rfl rfl rfl rfl rfl rfl fun u hu => ⟨rfl, rfl, update_of_ne hu _ _, rfl⟩
  have hcounted : Counted { s with released := update s.released t none } :=
    hI.counted.same (fun _ _ => rfl) rfl
  cases hpipe : file.pipe with
  | none =>
    unfold pipeRelease
    simp only [hpipe]
    refine ⟨hI.panic, hcounted, hthreads, { hI.pipes with ends := fun side pipe => ?_ }⟩
    refine (hI.pipes.ends side pipe).congr fun e => ?_
    cases e with
    | inl => rfl
    | inr u =>
      by_cases hu : u = t
      · subst hu
        simp [endsOf, hreleased, isEnd, hpipe]
      · simp only [endsOf, update_of_ne hu]
  | some pipe =>
    have hends : ∀ side, file.isEnd side pipe → (s.pipe pipe).ends side ≠ 0 := by
      intro side hend
      have hle := (hI.pipes.ends side pipe).le (.inr t)
      simp only [endsOf, hreleased, any_some, hend, if_true] at hle
      omega
    have hreaders : file.openRead → (s.pipe pipe).readers ≠ 0 :=
      fun h => hends .reader (by simp [isEnd, hpipe, h])
    have hwriters : file.openWrite → (s.pipe pipe).writers ≠ 0 :=
      fun h => hends .writer (by simp [isEnd, hpipe, h])
    rw [pipeRelease_eq hpipe (by exact hreaders) (by exact hwriters)]
    have hgoes := hI.threads.goes_ends file pipe
    obtain ⟨hread, hwrite⟩ := hI.threads.endsWaits_waiters
    have hpipes := (hI.pipes.goes hI.threads.waits hgoes).without hreleased hpipe hread hwrite
    have hgoes' : Goes { s with released := update s.released t none } (endsWaits s.waits file pipe) :=
      { hgoes with }
    rw [if_neg]
    · exact ⟨hI.panic, hcounted.same (fun _ _ => rfl) rfl, { hthreads.goes hgoes' with }, hpipes⟩
    · intro h
      simp only [Bool.and_eq_true, decide_eq_true_eq] at h
      obtain ⟨hr, hw⟩ : (endsWaits s.waits file pipe).waiters (.inl (.readWait pipe)) = [] ∧
          (endsWaits s.waits file pipe).waiters (.inl (.writeWait pipe)) = [] :=
        hpipes.no_readers hgoes.waits h.1.1
      rw [hr, hw] at h
      exact Bool.noConfusion h.2

end

/-! ## `vfs_pipe` -/

/-- The files after `vfs_pipe`: one of them is the reading end, one the writing end, and both were free. -/
structure NewPipe (s s' : Files Tid Pid Pipe Other Private) (pipe : Pipe) (readFile writeFile : FileId) : Prop where
  ne : readFile ≠ writeFile
  read_free : s.file readFile = free
  write_free : s.file writeFile = free
  read : s'.file readFile = ⟨1, 0, false, true, false, some pipe⟩
  write : s'.file writeFile = ⟨1, 0, false, false, true, some pipe⟩
  others : ∀ f, f ≠ readFile → f ≠ writeFile → s'.file f = s.file f

omit [DecidableEq Tid] in
theorem NewPipe.ends {readFile writeFile : FileId} (h : NewPipe s s' pipe readFile writeFile)
    (hreleased : s'.released = s.released) (hP : PipesOk s) (hzero : ∀ side, (s.pipe pipe).ends side = 0)
    (side : Side) : Weighs (s'.endsOf side pipe) 1 ∧
      ∀ pipe', pipe' ≠ pipe → Weighs (s'.endsOf side pipe') ((s.pipe pipe').ends side) := by
  constructor
  · have hnone := hP.ends side pipe
    rw [hzero side] at hnone
    refine hnone.change (a := .inl (match side with | .reader => readFile | .writer => writeFile)) (fun e he => ?_) ?_
    · cases e with
      | inr => simp only [endsOf, hreleased]
      | inl f =>
        simp only [endsOf]
        by_cases hr : f = readFile
        · subst hr
          cases side with
          | reader => exact absurd rfl he
          | writer => simp [h.read, h.read_free, isEnd, free]
        by_cases hw : f = writeFile
        · subst hw
          cases side with
          | reader => simp [h.write, h.write_free, isEnd, free]
          | writer => exact absurd rfl he
        · rw [h.others f hr hw]
    · cases side with
      | reader => simp [endsOf, h.read, h.read_free, isEnd, free]
      | writer => simp [endsOf, h.write, h.write_free, isEnd, free]
  · intro pipe' hne
    refine (hP.ends side pipe').congr fun e => ?_
    cases e with
    | inr => simp only [endsOf, hreleased]
    | inl f =>
      simp only [endsOf]
      by_cases hr : f = readFile
      · subst hr
        rw [h.read_free, isEnd_free, isEnd_ne (by rw [h.read]) hne]
      · by_cases hw : f = writeFile
        · subst hw
          rw [h.write_free, isEnd_free, isEnd_ne (by rw [h.write]) hne]
        · rw [h.others f hr hw]

/-- `vfs_pipe` with the memory of a pipe that has no ends any more. -/
theorem FilesInv.vfsPipe (hI : FilesInv s) (hact : s.acts t = some p) (hreaders : (s.pipe pipe).readers = 0)
    (hwriters : (s.pipe pipe).writers = 0) : FilesInv (vfsPipe s t pipe) := by
  have hlive := live_of_runs (acts_spec hact).1
  unfold Fs.vfsPipe
  split
  · exact hI
  rename_i readFile hfirst
  obtain ⟨hzero, hfree⟩ := fileAlloc_free hI.counted hfirst
  generalize hs' : (s.setFile readFile ⟨1, 0, false, true, false, some pipe⟩).keep t ⟨readFile, true⟩ = s'
  have hC : Counted s' := hs' ▸ hI.counted.alloc hzero keep_gains.of_setFile rfl rfl rfl
  simp only
  cases hsecond : fileAlloc s' with
  | none => exact hI
  | some writeFile =>
    obtain ⟨hzero', hfree'⟩ := fileAlloc_free hC hsecond
    have hne : readFile ≠ writeFile := by
      subst hs'
      rintro rfl
      simp [setFile, keep] at hzero'
    have hfree'' : s.file writeFile = free := by
      subst hs'
      simpa only [keep, setFile, update_of_ne hne.symm] using hfree'
    have hC' : Counted ((s'.setFile writeFile ⟨1, 0, false, false, true, some pipe⟩).keep t ⟨writeFile, true⟩) :=
      hC.alloc hzero' keep_gains.of_setFile rfl rfl rfl
    have hfiles : NewPipe s ((s'.setFile writeFile ⟨1, 0, false, false, true, some pipe⟩).keep t ⟨writeFile, true⟩)
        pipe readFile writeFile := by
      subst hs'
      refine ⟨hne, hfree, hfree'', ?_, ?_, fun f hr hw => ?_⟩
      · simp [keep, setFile, update_of_ne hne]
      · simp [keep, setFile]
      · simp [keep, setFile, update_of_ne hr, update_of_ne hw]
    -- what has a reference is none of the new files
    have hused : ∀ f, 0 < (s.file f).ref → f ≠ readFile ∧ f ≠ writeFile := by
      intro f hpos
      constructor
      · rintro rfl
        rw [hfree] at hpos
        exact absurd hpos (by simp [free])
      · rintro rfl
        rw [hfree''] at hpos
        exact absurd hpos (by simp [free])
    subst hs'
    refine ⟨hI.panic, hC'.same (fun _ _ => rfl) rfl, ?_, ?_⟩
    · refine hI.threads.own hlive rfl rfl rfl rfl rfl rfl rfl rfl fun u hu => ⟨?_, rfl, rfl, rfl⟩
      simp [keep, setFile, update_of_ne hu]
    · refine hI.pipes.files rfl rfl (fun u call hcall => ?_) (fun u call hcall hm => ?_) (fun side pipe' => ?_)
        (fun pipe' => ?_) (fun reference hm => ?_) hI.threads.waits
      · obtain ⟨hr, hw⟩ := hused _ (hI.counted.pos_local (hI.pipes.calls u call hcall).1)
        exact hfiles.others _ hr hw
      · by_cases hu : u = t
        · subst hu
          simp [keep, setFile, hm]
        · simpa [keep, setFile, update_of_ne hu] using hm
      · have hnone : ∀ side, (s.pipe pipe).ends side = 0 := by
          intro side
          cases side with
          | reader => exact hreaders
          | writer => exact hwriters
        obtain ⟨hone, hothers⟩ := hfiles.ends rfl hI.pipes hnone side
        by_cases hpipe : pipe' = pipe
        · subst hpipe
          simp only [update_self]
          cases side with
          | reader | writer => exact hone
        · simp only [update_of_ne hpipe]
          exact hothers pipe' hpipe
      · by_cases hpipe : pipe' = pipe
        · subst hpipe
          exact .inr ⟨by simp, hreaders⟩
        · exact .inl (by simp only [update_of_ne hpipe])
      · have hm' : reference ∈ s.references .cache := hm
        obtain ⟨hr, hw⟩ := hused _ (hI.counted.pos hm')
        exact (congrArg VfsFile.pipe (hfiles.others _ hr hw)).trans (hI.pipes.cached reference hm)

end Caffeinix.Fs
