import Caffeinix.Fs.PipeEnds

/-!
# `Fs.PipeCalls` — reading from a pipe and writing to it

The loops of `pipe_readv` and `pipe_write_staged` keep the invariant: `FilesInv.turn` is what one look at the pipe
can do, and `FilesInv.blocks` is the sleep. A thread in a call has a reference to the file in hand, so it does not
leave the sleep for `process_thread_exit` where nobody does so with something in hand.
-/

namespace Caffeinix.Fs

open Sched Option Waits
open Function (update update_of_ne update_self)

variable {Tid Pid Pipe Other Private : Type} [DecidableEq Tid] [DecidableEq Pipe]
  [DecidableEq Other] {s s' : Files Tid Pid Pipe Other Private} {t : Tid}

/-- The thread has what the call needs. -/
def Files.ready (s : Files Tid Pid Pipe Other Private) (t : Tid) (call : PipeCall) : Prop :=
  ⟨call.file, true⟩ ∈ s.locals t ∧ ∃ pipe, (s.file call.file).isEnd call.side pipe

variable {new : Option PipeCall} {pipe : Pipe}

section
variable (hI : FilesInv s)
include hI

section
omit [DecidableEq Other]

/-- A thread that runs goes on with its call, begins or ends one, and writes to the pipes. -/
theorem FilesInv.calls {record : Pipe → VfsPipe}
    (hrun : (s.waits.thread t).state = .running) (hnew : ∀ call, new = some call → s.ready t call)
    (hends : ∀ side pipe, (record pipe).ends side = (s.pipe pipe).ends side)
    (hbusy : ∀ pipe, (record pipe).readBusy → ∃ u f n, update s.call t new u = some (.copying f n) ∧
      (s.file f).pipe = some pipe)
    (hread : ∀ pipe, s.waits.waiters (.inl (.readWait pipe)) ≠ [] → (record pipe).readBusy ∨
      ((record pipe).used = 0 ∧ (record pipe).writers ≠ 0)) :
    FilesInv { s with call := update s.call t new, pipe := record } := by
  -- the threads on the queues are others
  have hother : ∀ u queue, (s.waits.thread u).waitingOn = some (.inl queue) → u ≠ t := by
    rintro u queue hon rfl
    rw [(hI.threads.waits.not_waiting (by rw [hrun]; decide)).1] at hon
    exact nomatch hon
  refine ⟨hI.panic, hI.counted.same (fun _ _ => rfl) rfl,
    hI.threads.own (.inr (.inl hrun)) rfl rfl rfl rfl rfl rfl rfl rfl
      fun _ hu => ⟨rfl, rfl, rfl, update_of_ne hu _ _⟩, ?_⟩
  constructor
  · intro side pipe
    rw [hends side pipe]
    exact hI.pipes.ends side pipe
  · intro u call hcall
    by_cases hu : u = t
    · subst hu
      simp only [update_self] at hcall
      exact hnew call hcall
    · simp only [update_of_ne hu] at hcall
      exact hI.pipes.calls u call hcall
  · exact hbusy
  · intro u pipe hon
    obtain ⟨f, n, b, hcall, hpipe⟩ := hI.pipes.reading u pipe hon
    exact ⟨f, n, b, by simp only [update_of_ne (hother u _ hon), hcall], hpipe⟩
  · intro u pipe hon
    obtain ⟨f, m, n, a, b, hcall, hpipe⟩ := hI.pipes.writing u pipe hon
    exact ⟨f, m, n, a, b, by simp only [update_of_ne (hother u _ hon), hcall], hpipe⟩
  · exact hread
  · intro pipe hne
    have hsame : (record pipe).readers = (s.pipe pipe).readers := hends .reader pipe
    rw [hsame]
    exact hI.pipes.writeWait pipe hne
  · exact hI.pipes.cached

/-- A copying thread is left out: it has the pipe to itself. -/
theorem FilesInv.busy_other (hcopying : ∀ f n, s.call t ≠ some (.copying f n))
 (hbusy : (s.pipe pipe).readBusy) :
    ∃ u f n, update s.call t new u = some (.copying f n) ∧ (s.file f).pipe = some pipe := by
  obtain ⟨u, f, n, hcall, hpipe⟩ := hI.pipes.busy pipe hbusy
  have hu : u ≠ t := by
    rintro rfl
    exact hcopying f n hcall
  exact ⟨u, f, n, by rw [update_of_ne hu, hcall], hpipe⟩

/-- A call begins or ends, and the pipes stay as they are. -/
theorem FilesInv.setCall (hrun : (s.waits.thread t).state = .running)
    (hnew : ∀ call, new = some call → s.ready t call) (hcopying : ∀ f n, s.call t ≠ some (.copying f n)) :
    FilesInv { s with call := update s.call t new } :=
  hI.calls hrun hnew (fun _ _ => rfl) (fun _ hbusy => hI.busy_other hcopying hbusy) hI.pipes.readWait

/-- One pipe is written to. -/
theorem FilesInv.turn {record : VfsPipe} (hrun : (s.waits.thread t).state = .running)
    (hnew : ∀ call, new = some call → s.ready t call)
    (hcopying : ∀ f n, s.call t = some (.copying f n) → (s.file f).pipe = some pipe)
    (hreaders : record.readers = (s.pipe pipe).readers) (hwriters : record.writers = (s.pipe pipe).writers)
    (hbusy : record.readBusy → ∃ u f n, update s.call t new u = some (.copying f n) ∧ (s.file f).pipe = some pipe)
    (hread : s.waits.waiters (.inl (.readWait pipe)) ≠ [] → record.readBusy ∨ (record.used = 0 ∧ record.writers ≠ 0)) :
    FilesInv { s with call := update s.call t new, pipe := update s.pipe pipe record } := by
  refine hI.calls hrun hnew (fun side pipe' => ?_) (fun pipe' hb => ?_) (fun pipe' hwait => ?_)
  · by_cases hne : pipe' = pipe
    · subst hne
      rw [update_self]
      cases side with
      | reader => exact hreaders
      | writer => exact hwriters
    · rw [update_of_ne hne]
  · by_cases hne : pipe' = pipe
    · subst hne
      rw [update_self] at hb
      exact hbusy hb
    rw [update_of_ne hne] at hb
    obtain ⟨u, f, n, hcall, hpipe⟩ := hI.pipes.busy pipe' hb
    have hu : u ≠ t := by
      rintro rfl
      exact hne (some.inj (hpipe.symm.trans (hcopying f n hcall)))
    exact ⟨u, f, n, by rw [update_of_ne hu, hcall], hpipe⟩
  · by_cases hne : pipe' = pipe
    · subst hne
      rw [update_self]
      exact hread hwait
    · rw [update_of_ne hne]
      exact hI.pipes.readWait pipe' hwait

end

end

/-! ## The sleep -/

section
/-- Why a thread sleeps on a queue of a pipe. -/
def Files.sleeps (s : Files Tid Pid Pipe Other Private) (t : Tid) : PipeQueue Pipe → Prop
  | .readWait pipe => (∃ f n b, s.call t = some (.reading f n b) ∧ (s.file f).pipe = some pipe) ∧
      ((s.pipe pipe).readBusy ∨ ((s.pipe pipe).used = 0 ∧ (s.pipe pipe).writers ≠ 0))
  | .writeWait pipe => (∃ f m n a b, s.call t = some (.writing f m n a b) ∧ (s.file f).pipe = some pipe) ∧
      (s.pipe pipe).readers ≠ 0

variable {queue : PipeQueue Pipe} {f : FileId} {nonblock : Bool}

theorem FilesInv.blocks (hI : FilesInv s) (ht : s.waits.runs t) (hsleeps : s.sleeps t queue)
    {deadline : Nat} {mode : SignalMode} :
    FilesInv { s with waits := blocked s.waits t (.inl queue) deadline mode } := by
  have hrun := running_of_runs ht
  have hself : ((blocked s.waits t (.inl queue) deadline mode).thread t).state = .sleeping ∧
      ((blocked s.waits t (.inl queue) deadline mode).thread t).waitingOn = some (.inl queue) := by
    rw [blocked_thread_self]
    exact ⟨rfl, rfl⟩
  have hother : ∀ u, u ≠ t → (blocked s.waits t (.inl queue) deadline mode).thread u = s.waits.thread u :=
    fun u hu => blocked_thread_ne hu
  refine ⟨hI.panic, hI.counted.same (fun _ _ => rfl) rfl, ?_, ?_⟩
  · refine hI.threads.frame (hI.threads.waits.blocked hrun (.inl queue) deadline mode) rfl rfl rfl rfl rfl
      (fun u _ => ?_) (fun u hu => ?_) (fun u _ hu => ?_) (fun u _ hu => ?_) (fun _ h => .inl h) fun _ h => .inl h
    · by_cases he : u = t
      · subst he
        exact iff_of_true (present_of_live (.inr (.inr hself.1))) (present_of_live (live_of_runs ht))
      · simp only [hother u he]
    · by_cases he : u = t
      · subst he
        exact .inr (.inr hself.1)
      · simp only [hother u he]
        exact hu
    · by_cases he : u = t
      · subst he
        exact .inl (live_of_runs ht)
      · simp only [hother u he] at hu
        exact .inl hu
    · by_cases he : u = t
      · subst he
        exact absurd (hu.symm.trans hself.1) (by decide)
      · simp only [hother u he] at hu
        exact hu
  · -- the thread is where its call says, and the others are where they were
    have hwaiting : ∀ u queue', ((blocked s.waits t (.inl queue) deadline mode).thread u).waitingOn =
        some (.inl queue') → (u = t ∧ queue' = queue) ∨ (s.waits.thread u).waitingOn = some (.inl queue') := by
      intro u queue' hon
      by_cases he : u = t
      · subst he
        exact .inl ⟨rfl, Sum.inl.inj (some.inj (hon.symm.trans hself.2))⟩
      · rw [hother u he] at hon
        exact .inr hon
    have hwaiters : ∀ queue', (blocked s.waits t (.inl queue) deadline mode).waiters (.inl queue') ≠ [] →
        queue' = queue ∨ s.waits.waiters (.inl queue') ≠ [] := by
      intro queue' hne
      rw [blocked_waiters] at hne
      by_cases he : queue' = queue
      · exact .inl he
      · rw [if_neg fun h => he (Sum.inl.inj h)] at hne
        exact .inr hne
    exact { hI.pipes with
      reading := by
        intro u pipe hon
        rcases hwaiting u _ hon with ⟨rfl, rfl⟩ | h
        · exact hsleeps.1
        · exact hI.pipes.reading u pipe h
      writing := by
        intro u pipe hon
        rcases hwaiting u _ hon with ⟨rfl, rfl⟩ | h
        · exact hsleeps.1
        · exact hI.pipes.writing u pipe h
      readWait := by
        intro pipe hne
        rcases hwaiters _ hne with rfl | h
        · exact hsleeps.2
        · exact hI.pipes.readWait pipe h
      writeWait := by
        intro pipe hne
        rcases hwaiters _ hne with rfl | h
        · exact hsleeps.2
        · exact hI.pipes.writeWait pipe h }

omit [DecidableEq Tid] [DecidableEq Other] in
/-- Whoever is in a call has something in hand. -/
theorem inHand_ne_nil (hP : PipesOk s) {call : PipeCall} (hcall : s.call t = some call) : s.inHand t ≠ [] := by
  have hm : ⟨call.file, true⟩ ∈ s.inHand t :=
    List.mem_append_left _ (List.mem_append_left _ (hP.calls t call hcall).1)
  exact List.ne_nil_of_mem hm

/-- The sleep in a loop of a pipe, where the thread does not exit from it. -/
theorem FilesInv.pipeSleep (hI : FilesInv s) (ht : s.waits.runs t) (hsleeps : s.sleeps t queue)
    (interrupted : Int) (pending : Bool) (between : Between)
    (hexits : (pipeSleep s t queue interrupted pending between).2 ≠ .exits) :
    FilesInv (pipeSleep s t queue interrupted pending between).1 := by
  have hW := hI.threads.waits
  have hcopying : ∀ f n, s.call t ≠ some (.copying f n) := by
    intro f n hcall
    cases queue with
    | readWait =>
      obtain ⟨⟨f', n', b, hcall', -⟩, -⟩ := hsleeps
      cases hcall.symm.trans hcall'
    | writeWait =>
      obtain ⟨⟨f', m, n', a, b, hcall', -⟩, -⟩ := hsleeps
      cases hcall.symm.trans hcall'
  have hawake := hW.waitQueueSleep_awake ht (.inl queue) .sleepInterruptible pending between
  have hblocks := hW.waitQueueSleep_blocks ht (.inl queue) .sleepInterruptible pending between
  unfold Fs.pipeSleep at hexits ⊢
  rcases hsleep : waitQueueSleep s.waits t (.inl queue) true .sleepInterruptible pending between with ⟨waits, outcome⟩
  rw [hsleep] at hawake hblocks hexits
  cases outcome with
  | exits => exact absurd rfl hexits
  | blocks =>
    obtain ⟨deadline, mode, hw⟩ := hblocks rfl
    simp only at hw ⊢
    rw [hw]
    exact hI.blocks ht hsleeps
  | returns =>
    obtain ⟨thread, hw, hwrites, hrun, -⟩ := hawake (by simp)
    simp only at hw ⊢
    have hgoes := hI.goes (hI.threads.goes_set (running_of_runs ht) hwrites hrun)
    rw [hw]
    split_ifs with hr
    · refine hgoes.setCall ?_ (by simp) hcopying
      simp only [set_thread_self]
      exact hrun
    · exact hgoes

/-! ## The loops -/

theorem FilesInv.pipeReadLoop (hI : FilesInv s) (ht : s.waits.runs t) {requested : Nat}
    (hcall : s.call t = some (.reading f requested nonblock)) (pending : Bool) (between : Between)
    (hexits : (pipeReadLoop s t f requested nonblock pending between).2 ≠ .exits) :
    FilesInv (pipeReadLoop s t f requested nonblock pending between).1 := by
  have hrun := running_of_runs ht
  have hcopying : ∀ f n, s.call t ≠ some (.copying f n) := fun f n h => nomatch h.symm.trans hcall
  have hreturns : FilesInv (callReturns s t) := hI.setCall hrun nofun hcopying
  unfold Fs.pipeReadLoop at hexits ⊢
  split
  · exact hreturns
  rename_i pipe hpipe
  simp only [hpipe] at hexits ⊢
  by_cases hwait : (decide ((s.pipe pipe).used = 0) || (s.pipe pipe).readBusy) = true
  · simp only [hwait, if_true] at hexits ⊢
    by_cases heof : (decide ((s.pipe pipe).used = 0) && decide ((s.pipe pipe).writers = 0) &&
        !(s.pipe pipe).readBusy) = true
    · simp only [heof, if_true]
      exact hreturns
    simp only [heof, if_false, Bool.false_eq_true] at hexits ⊢
    by_cases hnon : nonblock = true
    · simp only [hnon, if_true]
      exact hreturns
    simp only [hnon, if_false, Bool.false_eq_true] at hexits ⊢
    have hsleeps : s.sleeps t (.readWait pipe) := by
      refine ⟨⟨f, requested, nonblock, hcall, hpipe⟩, ?_⟩
      cases hb : (s.pipe pipe).readBusy with
      | true => exact .inl rfl
      | false =>
        simp only [hb, Bool.or_false, decide_eq_true_eq] at hwait
        simp only [hwait, hb, decide_true, Bool.true_and, Bool.not_false, Bool.and_true,
          decide_eq_true_eq] at heof
        exact .inr ⟨hwait, heof⟩
    exact hI.pipeSleep ht hsleeps vfsErrIntr pending between hexits
  · simp only [hwait, if_false, Bool.false_eq_true]
    refine hI.turn hrun (fun call h => ?_) (fun f' n h => absurd h (hcopying f' n)) rfl rfl
      (fun _ => ⟨t, f, _, update_self .., hpipe⟩) (fun _ => .inl rfl)
    rw [← some.inj h]
    exact hI.pipes.calls t (.reading f requested nonblock) hcall

/-- A thread on no queue does not notice that others are woken. -/
theorem wakeAll_thread {waits : Waits Tid (PipeQueue Pipe ⊕ Other) Private} (hW : WaitInv waits)
    (ht : (waits.thread t).state = .running) (queue : PipeQueue Pipe ⊕ Other) :
    (waitQueueWakeAll waits queue).1.thread t = waits.thread t := by
  rw [hW.waitQueueWakeAll_eq]
  refine woken_thread_of_not_mem fun hm => ?_
  rw [hW.mem, (hW.not_waiting (by rw [ht]; decide)).1] at hm
  exact nomatch hm

theorem FilesInv.pipeReadEnd (hI : FilesInv s) (ht : s.waits.runs t) {available : Nat}
    (hcall : s.call t = some (.copying f available)) (total : Nat) :
    FilesInv (pipeReadEnd s t f total).1 := by
  have hrun := running_of_runs ht
  have hW := hI.threads.waits
  unfold Fs.pipeReadEnd
  obtain ⟨-, pipe, hend⟩ := hI.pipes.calls t _ hcall
  have hpipe : (s.file f).pipe = some pipe := VfsFile.pipe_of_isEnd hend
  simp only [hpipe]
  have hfirst := hI.threads.goes_wakeAll (.inl (.readWait pipe))
  have hnil := waiters_wakeAll hW (.inl (.readWait pipe))
  have hthread := wakeAll_thread hW hrun (.inl (.readWait pipe))
  -- both queues are awake, or the readers only; in either case no reader is asleep
  obtain ⟨waits, hwaits, hgoes, hempty, hself⟩ : ∃ waits,
      (if total = 0 then (waitQueueWakeAll s.waits (.inl (.readWait pipe))).1
        else (waitQueueWakeAll (waitQueueWakeAll s.waits (.inl (.readWait pipe))).1 (.inl (.writeWait pipe))).1) =
        waits ∧ Goes s waits ∧ waits.waiters (.inl (.readWait pipe)) = [] ∧ waits.thread t = s.waits.thread t := by
    refine ⟨_, rfl, ?_⟩
    split
    · exact ⟨hfirst, hnil, hthread⟩
    · refine ⟨hfirst.trans ((hI.threads.goes hfirst).goes_wakeAll _), waiters_wakeAll_of_nil hfirst.waits hnil _, ?_⟩
      rw [wakeAll_thread hfirst.waits (by rw [hthread]; exact hrun), hthread]
  rw [hwaits]
  refine (hI.goes hgoes).turn ?_ (by simp) (fun f' n h => ?_) rfl rfl
    (by simp) (fun h => absurd hempty h)
  · simp only [hself]
    exact hrun
  · cases some.inj (h.symm.trans hcall)
    exact hpipe

theorem FilesInv.pipeWriteLoop (hI : FilesInv s) (ht : s.waits.runs t) {count total : Nat} {atomic : Bool}
    (hcall : s.call t = some (.writing f count total atomic nonblock)) (pending : Bool) (between : Between)
    (hexits : (pipeWriteLoop s t f count total atomic nonblock pending between).2 ≠ .exits) :
    FilesInv (pipeWriteLoop s t f count total atomic nonblock pending between).1 := by
  have hrun := running_of_runs ht
  have hcopying : ∀ f n, s.call t ≠ some (.copying f n) := fun f n h => nomatch h.symm.trans hcall
  have hreturns : FilesInv (callReturns s t) := hI.setCall hrun nofun hcopying
  unfold Fs.pipeWriteLoop at hexits ⊢
  split
  · exact hreturns
  rename_i pipe hpipe
  simp only [hpipe] at hexits ⊢
  by_cases hdone : total ≥ count
  · rw [if_pos hdone]
    exact hreturns
  rw [if_neg hdone] at hexits ⊢
  by_cases hreaders : (s.pipe pipe).readers = 0
  · rw [if_pos hreaders]
    exact hreturns
  rw [if_neg hreaders] at hexits ⊢
  by_cases hfull : (atomic && decide (pipeCapacity - (s.pipe pipe).used < count) ||
      decide (pipeCapacity - (s.pipe pipe).used = 0)) = true
  · rw [if_pos hfull] at hexits ⊢
    by_cases hnon : nonblock = true
    · rw [if_pos hnon]
      exact hreturns
    · rw [if_neg hnon] at hexits ⊢
      have hsleeps : s.sleeps t (.writeWait pipe) :=
        ⟨⟨f, count, total, atomic, nonblock, hcall, hpipe⟩, hreaders⟩
      exact hI.pipeSleep ht hsleeps _ pending between hexits
  · rw [if_neg hfull]
    have hgoes := hI.threads.goes_wakeAll (.inl (.readWait pipe))
    refine (hI.goes hgoes).turn ?_ (fun call h => ?_) (fun f' n h => absurd h (hcopying f' n)) rfl rfl
      (fun hbusy => hI.busy_other hcopying hbusy)
      (fun h => absurd (waiters_wakeAll hI.threads.waits (.inl (.readWait pipe))) h)
    · simp only [wakeAll_thread hI.threads.waits hrun]
      exact hrun
    · rw [← some.inj h]
      exact hI.pipes.calls t (.writing f count total atomic nonblock) hcall

omit [DecidableEq Other] in
/-- A thread comes back from a sleep, and does not exit from it. -/
theorem FilesInv.sleepReturns (hI : FilesInv s) (ht : s.waits.returns t)
    (hexits : (sleepReturns s t).2 ≠ .exits) : FilesInv (sleepReturns s t).1 := by
  obtain ⟨thread, hresume, hwrites, hrun, -⟩ := hI.threads.waits.waitQueueResume_awake ht
  have hrun' : (s.waits.thread t).state = .running := by
    simpa using (Bool.and_eq_true_iff.1 ht).1
  have hgoes := hI.goes (hI.threads.goes_set hrun' hwrites hrun)
  have hreturns : (∀ f n, s.call t ≠ some (.copying f n)) →
      FilesInv (callReturns { s with waits := s.waits.set t thread } t) := by
    intro hcopying
    refine hgoes.setCall ?_ (by simp) hcopying
    simp only [set_thread_self]
    exact hrun
  unfold Fs.sleepReturns at hexits ⊢
  rw [hresume] at hexits ⊢
  by_cases hterm : (s.waits.thread t).waitResult = waitQueueTerminated
  · rw [if_pos hterm] at hexits
    exact absurd rfl hexits
  rw [if_neg hterm]
  cases hcall : s.call t with
  | none => exact hgoes
  | some call =>
    cases call with
    | copying => exact hgoes
    | reading f n b | writing f m n a b =>
      simp only
      split
      · exact hreturns fun f' n' h => by cases h.symm.trans hcall
      · exact hgoes

end
end Caffeinix.Fs
