import Caffeinix.Fs.PipeCalls
import Caffeinix.Lib.Runs

/-!
# `Fs.OpenFileRun` — every run keeps the counts of the open files

Threads and processes come and go (`ThreadsOk.addThread`, `.threadFree`, `.detach`, `.exit`), and the other steps
are in the modules before. Together every step keeps `FilesInv`, unless a thread goes from a sleep to
`process_thread_exit` with references in hand, and so does every run.
-/

namespace Caffeinix.Fs

open Bool Option List Sched Runs Files Waits VfsFile
open Function (update update_eq_self update_of_ne update_self)

variable {Tid Pid Pipe Other Private : Type} [DecidableEq Tid] [DecidableEq Pid] [DecidableEq Pipe]
  [DecidableEq Other] {s s' : Files Tid Pid Pipe Other Private} {t : Tid} {p : Pid}

/-! ## Threads come and go -/

section
variable {u : Tid}

omit [DecidableEq Pid] [DecidableEq Pipe] [DecidableEq Other] in
theorem alloc_thread (hunused : (s.waits.thread u).state = .unused) :
    ((threadAlloc s.waits u).thread u).state = .allocated ∧
      ((threadAlloc s.waits u).thread u).waitingOn = none ∧
      ∀ v, v ≠ u → (threadAlloc s.waits u).thread v = s.waits.thread v := by
  unfold threadAlloc
  rw [if_pos hunused, set_thread_self]
  exact ⟨rfl, rfl, fun v hv => set_thread_ne hv⟩

theorem ThreadsOk.addThread (hT : ThreadsOk s) (hunused : (s.waits.thread u).state = .unused)
    (hp : s.alive p = false ∨ s.liveThreads p ≠ 0) : ThreadsOk (s.addThread p u) := by
  obtain ⟨hstate, -, hother⟩ := alloc_thread hunused
  have hnot : ¬present (s.waits.thread u) := fun h => h.1 hunused
  have hnone : ∀ v, ¬(s.addThread p u).closes p v := by
    intro v hv
    by_cases hvu : v = u
    · subst hvu
      simp [Files.closes, Files.addThread] at hv
    · obtain ⟨ha, hz⟩ := hT.closing p v (by simpa [Files.closes, Files.addThread, hvu, hother v hvu] using hv)
      rcases hp with h | h
      · exact Bool.noConfusion (h.symm.trans ha)
      · exact h hz
  refine hT.change (hT.waits.step (.alloc u)) (fun v hv => ?_) (fun q hq => ?_)
    (fun _ _ _ => hnot) (fun q hq => ?_) ?_ (fun _ => ?_) (fun v hv => absurd hv (hnone v))
    (fun v _ hv => absurd hv (hnone v)) (fun _ _ => ?_) (fun _ => .inl ?_)
    fun he => absurd (present_of_live (hT.hands u he)) hnot
  · exact ⟨update_of_ne hv _ _, hother v hv, update_of_ne hv _ _, update_of_ne hv _ _, rfl⟩
  · exact ⟨update_of_ne hq _ _, update_of_ne hq _ _, rfl⟩
  · simpa [Files.addThread] using fun h => hq h.symm
  · simp only [Files.addThread, update_self]
    refine (hT.count p).add (fun h => hnot h.2.1) fun v => ?_
    by_cases hv : v = u
    · subst hv
      simp [Files.counts, present, hstate]
    · simp [Files.counts, hother v hv, hv]
  · simp [Files.addThread]
  · simp [Files.addThread]
  · simp [Files.addThread]

theorem FilesInv.addThread (hI : FilesInv s) (hunused : (s.waits.thread u).state = .unused)
    (hp : s.alive p = false ∨ s.liveThreads p ≠ 0) : FilesInv (s.addThread p u) := by
  obtain ⟨-, hnone, hother⟩ := alloc_thread hunused
  refine ⟨hI.panic, hI.counted.same (fun _ _ => rfl) rfl, hI.threads.addThread hunused hp, ?_⟩
  have hpipes := hI.pipes.waits hI.threads.waits (hI.threads.waits.step (.alloc u)) (fun v queue hon => ?_)
  · exact { hpipes with }
  · by_cases hv : v = u
    · subst hv
      exact absurd (hnone.symm.trans hon) (by simp)
    · exact (congrArg Thread.waitingOn (hother v hv)).symm.trans hon

omit [DecidableEq Pid] [DecidableEq Pipe] [DecidableEq Other] in
theorem free_thread (hstate : (s.waits.thread u).state = .exited ∨ (s.waits.thread u).state = .allocated) :
    ((Sched.threadFree s.waits u).thread u).state = .unused ∧
      ((Sched.threadFree s.waits u).thread u).waitingOn = (s.waits.thread u).waitingOn ∧
      ∀ v, v ≠ u → (Sched.threadFree s.waits u).thread v = s.waits.thread v := by
  unfold Sched.threadFree
  rw [if_pos (by rcases hstate with h | h <;> simp [h]), set_thread_self]
  exact ⟨rfl, rfl, fun v hv => set_thread_ne hv⟩

/-- `thread_free`, of a thread that has exited or never ran. -/
theorem ThreadsOk.threadFree (hT : ThreadsOk s) (hhome : s.home u = some p)
    (hstate : (s.waits.thread u).state = .exited ∨
      (s.waits.thread u).state = .allocated ∧ (2 ≤ s.liveThreads p ∨ s.bare p)) :
    ThreadsOk (threadFree s p u) := by
  obtain ⟨hfree, -, hother⟩ := free_thread (hstate.imp_right And.left)
  have hnotlive : ¬(s.waits.thread u).live := by
    rcases hstate with h | ⟨h, -⟩ <;> simp [Thread.live, h]
  have hcloses : ∀ v, (Fs.threadFree s p u).closes p v ↔ s.closes p v := by
    intro v
    by_cases hv : v = u
    · subst hv
      exact iff_of_false (by simp [Files.closes, Fs.threadFree]) fun h => hnotlive h.2.1
    · simp [Files.closes, Fs.threadFree, hother v hv, hv]
  have hcounts : ∀ v, (Fs.threadFree s p u).counts p v ↔ v ≠ u ∧ s.counts p v := by
    intro v
    by_cases hv : v = u
    · subst hv
      simp [Files.counts, Fs.threadFree]
    · simp [Files.counts, Fs.threadFree, hother v hv, hv]
  -- it has left before, or it is counted and the process has another thread or nothing to release
  have hhere : (Numbers ((Fs.threadFree s p u).counts p) ((Fs.threadFree s p u).liveThreads p) ∧
        (Fs.threadFree s p u).liveThreads p = s.liveThreads p ∧ (Fs.threadFree s p u).alive p = s.alive p) ∨
      (Numbers ((Fs.threadFree s p u).counts p) ((Fs.threadFree s p u).liveThreads p) ∧
        (Fs.threadFree s p u).liveThreads p = s.liveThreads p - 1 ∧
        (Fs.threadFree s p u).alive p = decide (s.liveThreads p - 1 ≠ 0) ∧ 0 < s.liveThreads p ∧
        (2 ≤ s.liveThreads p ∨ s.bare p)) := by
    rcases hstate with h | ⟨h, hbare⟩
    · have hn : (Fs.threadFree s p u).liveThreads p = s.liveThreads p := by simp [Fs.threadFree, h]
      refine .inl ⟨hn ▸ (hT.count p).congr fun v => ?_, hn, by simp [Fs.threadFree, h]⟩
      rw [hcounts]
      refine ⟨.right, fun hc => ⟨?_, hc⟩⟩
      rintro rfl
      exact hc.2.1.2 h
    · have hn : (Fs.threadFree s p u).liveThreads p = s.liveThreads p - 1 := by simp [Fs.threadFree, h]
      have hc : s.counts p u := ⟨hhome, by simp [present, h], (hT.early u (by rw [hhome]; simp) h).2⟩
      exact .inr ⟨hn ▸ (hT.count p).remove hc hcounts, hn, by simp [Fs.threadFree, h], (hT.count p).pos hc, hbare⟩
  refine hT.change (hT.waits.step (.free u)) (fun v hv => ?_) (fun q hq => ?_)
    (fun q hq h => absurd (some.inj (h.symm.trans hhome)) hq) (fun _ _ => by simp [Fs.threadFree])
    (hhere.elim And.left And.left) ?_ (fun v hv => ?_)
    (fun v w hv hw => hT.closing_unique p v w ((hcloses v).1 hv) ((hcloses w).1 hw))
    (fun h => by simp [Fs.threadFree] at h) (fun hbare => ?_) fun he => absurd (hT.hands u he) hnotlive
  · exact ⟨update_of_ne hv _ _, hother v hv, rfl, rfl, rfl⟩
  · refine ⟨update_of_ne hq _ _, ?_, rfl⟩
    unfold Fs.threadFree
    by_cases hx : (s.waits.thread u).state = .exited
    · simp only [hx, if_true]
    · simp only [hx, if_false, update_of_ne hq]
  · rcases hhere with ⟨-, hn, ha⟩ | ⟨-, hn, ha, -⟩
    · rw [hn, ha]
      exact hT.alive p
    · rw [hn, ha]
      simp
  · obtain ⟨ha, hz⟩ := hT.closing p v ((hcloses v).1 hv)
    rcases hhere with ⟨-, hn, ha'⟩ | ⟨-, -, -, hpos, -⟩
    · exact ⟨ha'.trans ha, hn.trans hz⟩
    · omega
  · have hold : s.bare p = false := hbare
    rcases hhere with ⟨-, hn, -⟩ | ⟨-, hn, -, -, htwo⟩
    · rw [hn]
      exact (hT.resources p hold).imp_right fun h => h.imp fun v => (hcloses v).2
    · rw [hn]
      rcases htwo with h | h
      · exact .inl (by omega)
      · exact Bool.noConfusion (hold.symm.trans h)

theorem FilesInv.threadFree (hI : FilesInv s) (hhome : s.home u = some p)
    (hstate : (s.waits.thread u).state = .exited ∨
      (s.waits.thread u).state = .allocated ∧ (2 ≤ s.liveThreads p ∨ s.bare p)) :
    FilesInv (threadFree s p u) := by
  obtain ⟨-, hsame, hother⟩ := free_thread (hstate.imp_right And.left)
  refine ⟨hI.panic, hI.counted.same (fun _ _ => rfl) rfl, hI.threads.threadFree hhome hstate, ?_⟩
  have hpipes := hI.pipes.waits hI.threads.waits (hI.threads.waits.step (.free u)) (fun v queue hon => ?_)
  · exact { hpipes with }
  · by_cases hv : v = u
    · subst hv
      exact hsame.symm.trans hon
    · exact (congrArg Thread.waitingOn (hother v hv)).symm.trans hon

end

omit [DecidableEq Pipe] [DecidableEq Other] in
/-- A thread leaves `live_threads`. -/
theorem ThreadsOk.leaves (hT : ThreadsOk s) (hhome : s.home t = some p) (hlive : (s.waits.thread t).live)
    (hin : s.detached t = false) :
    ThreadsOk { s with
      liveThreads := update s.liveThreads p (s.liveThreads p - 1)
      detached := update s.detached t true
      last := update s.last t (s.liveThreads p - 1 = 0) } := by
  have hc : s.counts p t := ⟨hhome, present_of_live hlive, hin⟩
  have hpos := (hT.count p).pos hc
  -- only the last one closes the process
  have hcloses : ∀ v, Files.closes { s with
      liveThreads := update s.liveThreads p (s.liveThreads p - 1)
      detached := update s.detached t true
      last := update s.last t (s.liveThreads p - 1 = 0) } p v ↔ v = t ∧ s.liveThreads p - 1 = 0 := by
    intro v
    by_cases hv : v = t
    · subst hv
      simp [Files.closes, hhome, hlive]
    · refine iff_of_false (fun h => ?_) fun h => hv h.1
      have hz := (hT.closing p v (by simpa [Files.closes, hv] using h)).2
      omega
  refine hT.change hT.waits (fun v hv => ?_) (fun q hq => ⟨update_of_ne hq _ _, rfl, rfl⟩)
    (fun q hq h => absurd (some.inj (h.symm.trans hhome)) hq)
    (fun q hq h => hq (some.inj (h.symm.trans hhome))) ?_ (fun _ => hT.alive p (by omega)) (fun v hv => ?_)
    (fun v w hv hw => ?_) (fun _ hs => ?_) (fun _ => ?_) (hT.hands t)
  · exact ⟨rfl, rfl, update_of_ne hv _ _, update_of_ne hv _ _, rfl⟩
  · simp only [update_self]
    refine (hT.count p).remove hc fun v => ?_
    by_cases hv : v = t
    · subst hv
      simp [Files.counts]
    · simp [Files.counts, hv]
  · simp only [update_self]
    exact ⟨hT.alive p (by omega), ((hcloses v).1 hv).2⟩
  · exact ((hcloses v).1 hv).1.trans ((hcloses w).1 hw).1.symm
  · rcases hlive with h | h | h <;> exact absurd (hs.symm.trans h) (by decide)
  · simp only [update_self]
    by_cases hz : s.liveThreads p - 1 = 0
    · exact .inr ⟨t, (hcloses t).2 ⟨rfl, hz⟩⟩
    · exact .inl hz

section
variable (hI : FilesInv s)
include hI

theorem FilesInv.detach (hact : s.acts t = some p) (hin : s.detached t = false) : FilesInv (detach s t p) := by
  obtain ⟨hruns, -, -, hhome⟩ := acts_spec hact
  have hlive := live_of_runs hruns
  have hpos := (hI.threads.count p).pos ⟨hhome, present_of_live hlive, hin⟩
  have hgoes : Goes s (clearExitRequest s.waits t) := by
    have h := hI.threads.goes_step (.clearExitRequest t) rfl (by simp) (by simp) (by simp)
    simpa only [Waits.step, if_pos hruns] using h
  have hI' := hI.goes hgoes
  unfold Fs.detach
  rw [if_neg (by omega)]
  exact ⟨hI.panic, hI.counted.same (fun _ _ => rfl) rfl, hI'.threads.leaves hhome (hgoes.live t hlive) hin,
    { hI'.pipes with }⟩

/-- `scheduler_exit` of a thread that has left, with nothing in hand. -/
theorem FilesInv.exit (hruns : s.waits.runs t) (hout : s.detached t = true) (hempty : s.empty t = true)
    (hhome : s.home t = some p) (hbare : s.last t = false ∨ s.bare p = true) :
    FilesInv { s with
      waits := schedulerExit s.waits t
      alive := if s.last t then update s.alive p false else s.alive } := by
  have hT := hI.threads
  have hself : ((schedulerExit s.waits t).thread t).state = .exited := by
    unfold schedulerExit
    rw [set_thread_self]
  have hother : ∀ v, v ≠ t → (schedulerExit s.waits t).thread v = s.waits.thread v :=
    fun v hv => set_thread_ne hv
  have hW : WaitInv (schedulerExit s.waits t) := by
    have h := hT.waits.step (.exit t)
    simpa only [Waits.step, if_pos hruns] using h
  have hgone : ¬((schedulerExit s.waits t).thread t).live := by
    simp [Thread.live, hself]
  have hcloses : ∀ v, Files.closes { s with
      waits := schedulerExit s.waits t
      alive := if s.last t then update s.alive p false else s.alive } p v ↔ v ≠ t ∧ s.closes p v := by
    intro v
    by_cases hv : v = t
    · subst hv
      exact iff_of_false (fun h => hgone h.2.1) fun h => h.1 rfl
    · simp [Files.closes, hother v hv, hv]
  have hlast : s.last t = true → s.closes p t := fun h => ⟨hhome, live_of_runs hruns, h⟩
  refine ⟨hI.panic, hI.counted.same (fun _ _ => rfl) rfl, ?_, ?_⟩
  · refine hT.change hW (fun v hv => ⟨rfl, hother v hv, rfl, rfl, rfl⟩) (fun q hq => ⟨rfl, ?_, rfl⟩)
      (fun q hq h => absurd (some.inj (h.symm.trans hhome)) hq)
      (fun q hq h => hq (some.inj (h.symm.trans hhome))) ((hT.count p).congr fun v => ?_) (fun hn => ?_)
      (fun v hv => ?_) (fun v w hv hw => hT.closing_unique p v w ((hcloses v).1 hv).2 ((hcloses w).1 hw).2)
      (fun _ hs => absurd (hself.symm.trans hs) (by decide)) (fun hq => ?_)
      fun he => Bool.noConfusion (hempty.symm.trans he)
    · by_cases hl : s.last t = true
      · simp only [hl, if_true, update_of_ne hq]
      · simp only [hl, false_eq_true, if_false]
    · by_cases hv : v = t
      · subst hv
        simp [Files.counts, hout]
      · simp [Files.counts, hother v hv]
    · -- the process is not alive any more only after its last thread
      rw [if_neg fun hl => hn (hT.closing p t (hlast hl)).2]
      exact hT.alive p hn
    · obtain ⟨hne, hold⟩ := (hcloses v).1 hv
      rw [if_neg fun hl => hne (hT.closing_unique p v t hold (hlast hl))]
      exact hT.closing p v hold
    · have hold : s.bare p = false := hq
      refine (hT.resources p hold).imp_right fun h => h.imp fun v hv => (hcloses v).2 ⟨?_, hv⟩
      rintro rfl
      rcases hbare with h | h
      · exact Bool.noConfusion (h.symm.trans hv.2.2)
      · exact Bool.noConfusion (hold.symm.trans h)
  · have hpipes := hI.pipes.waits hT.waits hW (fun v queue hon => ?_)
    · exact { hpipes with }
    · by_cases hv : v = t
      · subst hv
        unfold schedulerExit at hon
        rwa [set_thread_self] at hon
      · rwa [hother v hv] at hon

/-! ## `fork` -/

omit hI in
theorem tableReferences_none : tableReferences (fun _ => none) = [] := by
  simp [tableReferences]

omit hI [DecidableEq Pipe] [DecidableEq Other] in
/-- The tables and areas of the new process. -/
theorem Counted.forkCommit (hC : Counted s) {q : Pid} (hbare : s.bare q) (closeOnExec : Pid → Fd → Bool)
    (waits : Waits Tid (PipeQueue Pipe ⊕ Other) Private) :
    Counted { s with
      slots := update s.slots q (s.draft t).slots
      closeOnExec := closeOnExec
      areas := update s.areas q (s.draft t).areas
      draft := update s.draft t Draft.none
      waits := waits } := by
  obtain ⟨hslots, hareas⟩ : tableReferences (s.slots q) = [] ∧ s.areas q = [] := by
    simpa [Files.bare] using hbare
  -- first the descriptors, then the areas
  have hfirst : Exchanges s { s with
      slots := update s.slots q (s.draft t).slots
      draft := update s.draft t ⟨fun _ => none, (s.draft t).areas⟩ } (.table q) (.hand t) := by
    refine exchanges_of (by simp) (fun r => ?_) (fun q' hq => ?_) (fun _ _ => rfl) (fun _ => rfl) fun u hu => ?_
    · simp only [Files.holding, Files.references, Files.inHand, update_self, countP_append, hslots,
        tableReferences_none, countP_nil]
      omega
    · exact update_of_ne (fun he => hq (by rw [he])) _ _
    · simp only [Files.inHand, update_of_ne hu]
  refine (hC.exchange hfirst rfl).exchange (h := .space q) (exchanges_of (t := t) (by simp) (fun r => ?_)
    (fun _ _ => rfl) (fun q' hq => ?_) (fun _ => rfl) fun u hu => ?_) rfl
  · simp only [Files.holding, Files.references, Files.inHand, update_self, countP_append, hareas,
      tableReferences_none, countP_nil, Draft.none]
    omega
  · exact update_of_ne (fun he => hq (by rw [he])) _ _
  · simp only [Files.inHand, update_of_ne hu]

theorem FilesInv.forkCommit (hact : s.acts t = some p) {q : Pid} {u : Tid} (hbare : s.bare q)
    (hhome : s.home u = some q) (hstate : (s.waits.thread u).state = .allocated)
    {closeOnExec : Pid → Fd → Bool} :
    FilesInv { s with
      slots := update s.slots q (s.draft t).slots
      closeOnExec := closeOnExec
      areas := update s.areas q (s.draft t).areas
      draft := update s.draft t Draft.none
      waits := threadStart s.waits u } := by
  have hT := hI.threads
  have hgoes : Goes s (threadStart s.waits u) := hT.goes_step (.start u) rfl (by simp) (by simp) (by simp)
  have hlive := live_of_runs (acts_spec hact).1
  have hcount : s.counts q u :=
    ⟨hhome, by simp [present, hstate], (hT.early u (by rw [hhome]; simp) hstate).2⟩
  refine ⟨hI.panic, hI.counted.forkCommit hbare _ _, ?_, { hI.pipes.goes hT.waits hgoes with }⟩
  refine hT.frame hgoes.waits rfl rfl rfl rfl rfl hgoes.present hgoes.live hgoes.started hgoes.early
    (fun q' hq' => ?_) (fun v hv => ?_)
  · by_cases he : q' = q
    · subst he
      have hpos := (hT.count q').pos hcount
      exact .inr (.inl (by omega))
    · simp only [Files.bare, update_of_ne he] at hq'
      exact .inl hq'
  · by_cases he : v = t
    · subst he
      exact .inr (hgoes.live v hlive)
    · left
      unfold Files.empty Files.inHand at hv ⊢
      simpa only [update_of_ne he] using hv

/-! ## Every step -/

omit [DecidableEq Tid] [DecidableEq Pid] [DecidableEq Other] in
/-- An action is taken only when it can be. -/
theorem FilesInv.guard {c : Prop} [Decidable c] (h : c → FilesInv s') : FilesInv (if c then s' else s) := by
  split_ifs with hc
  · exact h hc
  · exact hI

omit [DecidableEq Pid] [DecidableEq Other] in
/-- A thread begins to read or to write, with a file in hand that is open for it. -/
theorem FilesInv.begins (hrun : (s.waits.thread t).state = .running) (hnone : s.call t = none) {call : PipeCall}
    (hm : ⟨call.file, true⟩ ∈ s.locals t) (pipe : Pipe) (hend : (s.file call.file).isEnd call.side pipe) :
    FilesInv { s with call := update s.call t (some call) } := by
  refine hI.setCall hrun (fun call h => ?_) fun f n h => nomatch hnone.symm.trans h
  rw [← some.inj h]
  exact ⟨hm, pipe, hend⟩

/-- One step of a thread for its process. -/
theorem FilesInv.act (hact : s.acts t = some p) (a : FileAction Tid Pid Pipe Other Private) :
    FilesInv (s.act t p a) := by
  have hC := hI.counted
  have hrun := running_of_runs (acts_spec hact).1
  have hhandles : ∀ {s' : Files Tid Pid Pipe Other Private}, Handles s s' t p → FilesInv s' :=
    fun h => hI.works hact h.works h.counted
  cases a with
  | openFile _ inodeAccess openRead openWrite => exact hhandles (hC.openFile t p inodeAccess openRead openWrite)
  | pipe =>
    refine hI.guard fun hcond => ?_
    obtain ⟨hr, hw⟩ := and_eq_true_iff.1 hcond
    exact hI.vfsPipe hact (of_decide_eq_true hr) (of_decide_eq_true hw)
  | fdAlloc _ f minimum flag =>
    refine hI.guard fun hcond => ?_
    obtain ⟨hm, hu⟩ := and_eq_true_iff.1 hcond
    exact hhandles (hC.fdAlloc (of_decide_eq_true hm) hu p minimum flag)
  | fdGet _ fd => exact hhandles (hC.fdGet t p fd)
  | close _ fd => exact hhandles (hC.vfsClose t p fd)
  | dup _ oldfd minimum flag => exact hhandles (hC.vfsDup t p oldfd minimum flag)
  | dupTo _ oldfd newfd flag => exact hhandles (hC.vfsDupTo t p oldfd newfd flag)
  | closeOnExec => exact hhandles (hC.takeSlots t p _)
  | release =>
    refine hI.guard fun hcond => ?_
    obtain ⟨hmu, hn⟩ := and_eq_true_iff.1 hcond
    obtain ⟨hm, hu⟩ := and_eq_true_iff.1 hmu
    exact hI.fileRelease hact (of_decide_eq_true hm) hu (of_decide_eq_true hn)
  | releaseEnd => exact hI.fileReleaseEnd hact
  | areaAlloc _ reference elf =>
    refine hI.guard fun hcond => ?_
    have hm := of_decide_eq_true (and_eq_true_iff.1 hcond).1
    exact hhandles (hC.areaAlloc (hC.pos_own (mem_append_left _ hm)) elf t p)
  | areaFree => exact hI.guard fun hm => hhandles (hC.areaFree hm t)
  | draftAlloc _ reference elf =>
    refine hI.guard fun hcond => ?_
    have hm := of_decide_eq_true (and_eq_true_iff.1 hcond).1
    exact hhandles (hC.draftAlloc (hC.pos_own hm) elf t p)
  | draftFree => exact hI.guard fun hm => hhandles (hC.draftFree hm p)
  | cacheAdd =>
    refine hI.guard fun hcond => ?_
    obtain ⟨hm, hpipe⟩ := and_eq_true_iff.1 hcond
    exact hhandles (hC.cacheAdd (hC.pos_own (mem_append_left _ (of_decide_eq_true hm)))
      (of_decide_eq_true hpipe) t p)
  | cacheFree => exact hI.guard fun hm => hhandles (hC.cacheFree hm t p)
  | execCommit => exact hhandles (hC.execCommit t p)
  | forkSlots =>
    refine hI.guard fun hcond => hhandles (hC.forkSlots t p fun fd => ?_)
    by_contra hne
    obtain ⟨f, hf⟩ := ne_none_iff_exists'.1 hne
    exact ne_nil_of_mem (mem_tableReferences hf) (isEmpty_iff.1 hcond)
  | forkCommit =>
    refine hI.guard fun hcond => ?_
    simp only [and_eq_true, decide_eq_true_eq] at hcond
    exact hI.forkCommit hact hcond.1.1.2 hcond.1.2 hcond.2
  | read _ f requested nonblock | write _ f count atomic nonblock =>
    refine hI.guard fun hcond => ?_
    simp only [and_eq_true, decide_eq_true_eq] at hcond
    obtain ⟨⟨⟨hnone, hm⟩, hopen⟩, hsome⟩ := hcond
    obtain ⟨pipe, hpipe⟩ := isSome_iff_exists.1 hsome
    exact hI.begins hrun hnone hm pipe (by simp [isEnd, PipeCall.file, PipeCall.side, hpipe, hopen])
  | beginExit =>
    exact hI.guard fun _ => ⟨hI.panic, hC.same (fun _ _ => rfl) rfl, { hI.threads with }, { hI.pipes with }⟩
  | detach => exact hI.guard fun hcond => hI.detach hact (by simpa using (and_eq_true_iff.1 hcond).2)
  | releaseSlots => exact hI.guard fun _ => hhandles (hC.takeSlots t p _)
  | _ => exact hI

/-- The same as a step of the system, whoever the thread acts for. -/
theorem FilesInv.acted {a : FileAction Tid Pid Pipe Other Private} :
    FilesInv (match s.acts t with
      | none => (s, (none : Option Tid))
      | some p => (s.act t p a, none)).1 := by
  cases hact : s.acts t with
  | none => exact hI
  | some => exact hI.act hact a

omit [DecidableEq Pid] [DecidableEq Other] in
/-- The thread leaves a sleep for `process_thread_exit` with nothing in hand. -/
theorem FilesInv.leaveForExit (hhand : s.inHand t = []) (hreleased : s.released t = none) :
    FilesInv (leaveForExit s t) := by
  have hcall : s.call t = none := by
    by_contra hne
    obtain ⟨call, hcall⟩ := ne_none_iff_exists'.1 hne
    exact inHand_ne_nil hI.pipes hcall hhand
  obtain ⟨hlocals, hareas, hslots⟩ : s.locals t = [] ∧ (s.draft t).areas = [] ∧
      tableReferences (s.draft t).slots = [] := by
    simpa [Files.inHand] using hhand
  have hdraft : s.draft t = Draft.none := by
    have hnone : (s.draft t).slots = fun _ => none := by
      funext fd
      by_contra hne
      obtain ⟨f, hf⟩ := ne_none_iff_exists'.1 hne
      exact ne_nil_of_mem (mem_tableReferences hf) hslots
    cases hd : s.draft t with
    | mk =>
      rw [hd] at hnone hareas
      simp only at hnone hareas
      rw [hnone, hareas]
      rfl
  have hsame : Fs.leaveForExit s t = { s with exiting := update s.exiting t true } := by
    unfold Fs.leaveForExit
    rw [← hlocals, ← hdraft, ← hreleased]
    simp only [update_eq_self]
    rw [← hcall, update_eq_self]
  rw [hsame]
  exact ⟨hI.panic, hI.counted.same (fun _ _ => rfl) rfl, { hI.threads with }, { hI.pipes with }⟩

omit [DecidableEq Pid] in
/-- A step of the others leaves the files alone. -/
theorem FilesInv.elsewhere {a : Action Tid Other Private} {b : Action Tid (PipeQueue Pipe ⊕ Other) Private}
    (hb : a.elsewhere = some b) (halloc : ∀ u, b = .alloc u ∨ b = .free u → s.home u = none) :
    FilesInv { s with waits := s.waits.step b } := by
  refine hI.goes (hI.threads.goes_step b ?_ halloc ?_ ?_)
  · cases a <;> simp only [Action.elsewhere, some.injEq, reduceCtorEq] at hb <;> subst hb <;> rfl
  · rintro source queue count own rfl
    cases a <;> simp [Action.elsewhere] at hb
  · rintro u queue call pending between rfl
    cases a <;> simp [Action.elsewhere] at hb

theorem FilesInv.sleep {queue : Other} {call : SleepCall} {pending : Bool} {between : Between}
    (hexits : ExitsEmptyHanded s (.sleep t queue call pending between)) :
    FilesInv (s.step (.sleep t queue call pending between)) := by
  unfold ExitsEmptyHanded at hexits
  unfold Files.step
  simp only [perform] at hexits ⊢
  split_ifs with hcond
  · simp only [hcond, if_true] at hexits
    have hruns := (and_eq_true_iff.1 hcond).1
    have hgoes := hI.goes (hI.threads.goes_step (.sleep t (.inr queue) call pending between) rfl (by simp)
      (by simp) (by simp))
    simp only [Waits.step, if_pos hruns] at hgoes
    rcases hsleep : waitQueueSleep s.waits t (.inr queue) true call pending between with ⟨waits, outcome⟩
    rw [hsleep] at hgoes hexits
    cases outcome with
    | exits => exact hgoes.leaveForExit hexits.1 hexits.2
    | blocks | returns result => exact hgoes
  · exact hI

theorem FilesInv.resume (hexits : ExitsEmptyHanded s (.resume t)) : FilesInv (s.step (.resume t)) := by
  unfold ExitsEmptyHanded at hexits
  unfold Files.step
  simp only [perform] at hexits ⊢
  by_cases ht : s.waits.returns t
  · rw [if_pos ht] at hexits ⊢
    by_cases he : (Fs.sleepReturns s t).2 = .exits
    · simp only [he, if_true] at hexits
      obtain ⟨thread, hresume, hwrites, hrun, -⟩ := hI.threads.waits.waitQueueResume_awake ht
      have hrun' : (s.waits.thread t).state = .running := by
        simpa using (and_eq_true_iff.1 ht).1
      have hgoes := hI.goes (hI.threads.goes_set hrun' hwrites hrun)
      have hstate : (Fs.sleepReturns s t).1 = Fs.leaveForExit { s with waits := s.waits.set t thread } t := by
        have hnone : s.call t = none := by
          by_contra hne
          obtain ⟨call, hcall⟩ := ne_none_iff_exists'.1 hne
          exact inHand_ne_nil hI.pipes hcall hexits.1
        unfold Fs.sleepReturns at he ⊢
        rw [hresume] at he ⊢
        by_cases hterm : (s.waits.thread t).waitResult = waitQueueTerminated
        · rw [if_pos hterm]
        · rw [if_neg hterm] at he
          simp [hnone] at he
      rw [hstate]
      exact hgoes.leaveForExit hexits.1 hexits.2
    · exact hI.sleepReturns ht he
  · rw [if_neg ht]
    exact hI

theorem FilesInv.elsewhere_step (a : Action Tid Other Private) : FilesInv (s.step (.elsewhere a)) := by
  unfold Files.step
  simp only [perform]
  split
  · exact hI
  rename_i hb
  split
  · split_ifs with hhome
    · refine hI.elsewhere hb fun u hu => ?_
      rcases hu with hu | hu
      · cases hu
        exact hhome
      · cases hu
    · exact hI
  · split_ifs with hhome
    · refine hI.elsewhere hb fun u hu => ?_
      rcases hu with hu | hu
      · cases hu
      · cases hu
        exact hhome
    · exact hI
  · rename_i hnot hnot'
    refine hI.elsewhere hb fun u hu => ?_
    rcases hu with rfl | rfl
    · exact absurd rfl (hnot u)
    · exact absurd rfl (hnot' u)

theorem FilesInv.step (a : FileAction Tid Pid Pipe Other Private) (hexits : ExitsEmptyHanded s a) :
    FilesInv (s.step a) := by
  unfold ExitsEmptyHanded at hexits
  unfold Files.step
  cases a with
  | processAlloc =>
    simp only [perform]
    split_ifs with hcond
    · simp only [and_eq_true, not_eq_true', decide_eq_true_eq] at hcond
      exact hI.addThread hcond.2 (.inl hcond.1)
    · exact hI
  | threadAlloc =>
    simp only [perform]
    split_ifs with hcond
    · simp only [and_eq_true, decide_eq_true_eq] at hcond
      exact hI.addThread hcond.2 (.inr hcond.1)
    · exact hI
  | threadFree u =>
    simp only [perform]
    cases hhome : s.home u with
    | none => exact hI
    | some =>
      simp only
      split_ifs with hcond
      · simp only [and_eq_true, or_eq_true, decide_eq_true_eq] at hcond
        exact hI.threadFree hhome hcond
      · exact hI
  | readLoop t pending between =>
    simp only [perform] at hexits ⊢
    split
    · rename_i f requested nonblock hcall
      simp only [hcall] at hexits
      by_cases ht : s.waits.runs t
      · rw [if_pos ht] at hexits ⊢
        refine hI.pipeReadLoop ht hcall pending between fun he => ?_
        simp only [he, if_true] at hexits
        exact inHand_ne_nil hI.pipes hcall hexits.1
      · rw [if_neg ht]
        exact hI
    · exact hI
  | readEnd t total =>
    simp only [perform]
    split
    · rename_i f available hcall
      split_ifs with hcond
      · exact hI.pipeReadEnd (and_eq_true_iff.1 hcond).1 hcall total
      · exact hI
    · exact hI
  | writeLoop t pending between =>
    simp only [perform] at hexits ⊢
    split
    · rename_i f count total atomic nonblock hcall
      simp only [hcall] at hexits
      by_cases ht : s.waits.runs t
      · rw [if_pos ht] at hexits ⊢
        refine hI.pipeWriteLoop ht hcall pending between fun he => ?_
        simp only [he, if_true] at hexits
        exact inHand_ne_nil hI.pipes hcall hexits.1
      · rw [if_neg ht]
        exact hI
    · exact hI
  | sleep => exact hI.sleep hexits
  | resume => exact hI.resume hexits
  | exit t =>
    simp only [perform]
    by_cases hcond : (s.waits.runs t && s.exiting t && s.detached t && s.empty t) = true
    · rw [if_pos hcond]
      simp only [and_eq_true] at hcond
      obtain ⟨⟨⟨hruns, -⟩, hout⟩, hempty⟩ := hcond
      split
      · exact hI
      rename_i p hhome
      by_cases hbare : (!s.last t || s.bare p) = true
      · rw [if_pos hbare]
        refine hI.exit hruns hout hempty hhome ?_
        simpa using hbare
      · rw [if_neg hbare]
        exact hI
    · rw [if_neg hcond]
      exact hI
  | elsewhere => exact hI.elsewhere_step _
  | _ => exact hI.acted

omit hI [DecidableEq Tid] [DecidableEq Pid] [DecidableEq Other] in
theorem FilesInv.boot : FilesInv (Files.boot : Files Tid Pid Pipe Other Private) := by
  have hempty : ∀ (r : Reference → Bool) (h : Holder Tid Pid),
      (Files.boot : Files Tid Pid Pipe Other Private).holding r h = 0 := by
    intro r h
    cases h <;> simp [Files.holding, Files.references, Files.boot, Files.inHand, Draft.none, tableReferences_none]
  constructor
  · rfl
  · constructor
    · exact fun f => weighs_none (hempty _)
    · exact fun f ha => Bool.noConfusion ha
    · exact fun f => by simp [Files.boot, free]
    · exact fun f _ => rfl
  · constructor
    · exact .boot
    · exact fun p => numbers_zero.2 fun t h => by cases h.1
    · exact fun p hn => absurd rfl hn
    · exact fun p t h => by cases h.1
    · exact fun p t u h => by cases h.1
    · exact fun t h => absurd rfl h
    · exact fun p h => by simp [Files.boot, Files.bare, tableReferences_none] at h
    · exact fun t h => by simp [Files.boot, Files.empty, Files.inHand, Draft.none, tableReferences_none] at h
  · constructor
    · intro side pipe
      have hzero : ((Files.boot : Files Tid Pid Pipe Other Private).pipe pipe).ends side = 0 := by
        cases side <;> rfl
      rw [hzero]
      refine weighs_none fun e => ?_
      cases e <;> simp [endsOf, Files.boot, isEnd_free]
    · exact fun t call h => by cases h
    · exact fun pipe h => Bool.noConfusion h
    · exact fun t pipe h => by cases h
    · exact fun t pipe h => by cases h
    · exact fun pipe h => absurd rfl h
    · exact fun pipe h => absurd rfl h
    · exact fun reference h => absurd h not_mem_nil

/-! ## What holds after every run -/

/-- The thread keeps this end of the pipe open: it has a file of it in hand or is about to release one, or its
    process has one in its table or an area. -/
def Files.keepsOpen (s : Files Tid Pid Pipe Other Private) (t : Tid) (side : Side) (pipe : Pipe) : Prop :=
  (∃ reference, (reference ∈ s.inHand t ∨ ∃ p, s.home t = some p ∧
      (reference ∈ tableReferences (s.slots p) ∨ reference ∈ s.areas p)) ∧
    (s.file reference.file).isEnd side pipe) ∨
  ∃ file, s.released t = some file ∧ file.isEnd side pipe

structure ReferencesKept (s : Files Tid Pid Pipe Other Private) : Prop where
  /-- the count of a file is the number of slots, areas, cache entries and variables with a reference to it -/
  counted : ∀ f, Weighs (s.holding (toFile f)) (s.file f).ref
  /-- variables are those of threads that have started and not exited -/
  hands : ∀ t, s.empty t = false → (s.waits.thread t).live
  /-- tables and areas are those of processes with a thread that has not exited -/
  resources : ∀ p, s.bare p = false → ∃ t, s.home t = some p ∧ present (s.waits.thread t)
  /-- when all who had an end open are gone the end is released -/
  released : ∀ side pipe, (∀ t, present (s.waits.thread t) → ¬s.keepsOpen t side pipe) → (s.pipe pipe).ends side = 0
  /-- without writers a reader sees the end of the file, and sleeps only until another reader is done -/
  endOfFile : ∀ pipe, (s.pipe pipe).writers = 0 →
    (s.waits.waiters (.inl (.readWait pipe)) ≠ [] → ∃ t f n, (s.waits.thread t).live ∧
      s.call t = some (.copying f n) ∧ (s.file f).pipe = some pipe) ∧
    ∀ t f requested nonblock pending between, (s.file f).pipe = some pipe → (s.pipe pipe).used = 0 →
      (s.pipe pipe).readBusy = false →
      (pipeReadLoop s t f requested nonblock pending between).2 = .returns 0
  /-- without readers a writer sees `EPIPE`, and does not sleep -/
  brokenPipe : ∀ pipe, (s.pipe pipe).readers = 0 →
    s.waits.waiters (.inl (.writeWait pipe)) = [] ∧
    ∀ t f count total atomic nonblock pending between, (s.file f).pipe = some pipe → total < count →
      (pipeWriteLoop s t f count total atomic nonblock pending between).2 =
        .returns (if total ≠ 0 then total else vfsErrPipe)
  panic : s.panic = none

omit hI [DecidableEq Tid] [DecidableEq Pid] [DecidableEq Pipe] [DecidableEq Other] in
/-- A process with descriptors or areas has a thread. -/
theorem ThreadsOk.exists_thread (hT : ThreadsOk s) (hbare : s.bare p = false) :
    ∃ t, s.home t = some p ∧ present (s.waits.thread t) := by
  rcases hT.resources p hbare with hn | ⟨t, hh, hl, -⟩
  · obtain ⟨l, -, hm, hlen⟩ := hT.count p
    obtain ⟨t, ht⟩ := exists_mem_of_ne_nil l (by rintro rfl; exact hn hlen.symm)
    have hcount := (hm t).1 ht
    exact ⟨t, hcount.1, hcount.2.1⟩
  · exact ⟨t, hh, present_of_live hl⟩

omit [DecidableEq Tid] [DecidableEq Pid] [DecidableEq Other] in
/-- An end that is counted is kept open by somebody. -/
theorem FilesInv.exists_keepsOpen {side : Side} {pipe : Pipe} (hn : (s.pipe pipe).ends side ≠ 0) :
    ∃ t, present (s.waits.thread t) ∧ s.keepsOpen t side pipe := by
  obtain ⟨e, he⟩ := (hI.pipes.ends side pipe).exists_pos (by omega)
  cases e with
  | inr t =>
    simp only [endsOf] at he
    split_ifs at he with hany
    · obtain ⟨file, hfile, hend⟩ := (any_eq_true _ _).1 hany
      refine ⟨t, present_of_live (hI.threads.hands t ?_), .inr ⟨file, hfile, hend⟩⟩
      simp [Files.empty, hfile]
    · exact absurd he (by simp)
  | inl f =>
    simp only [endsOf] at he
    split_ifs at he with hend
    · have hpos : 0 < (s.file f).ref := by
        by_contra hzero
        rw [hI.counted.free f (by omega), isEnd_free] at hend
        exact Bool.noConfusion hend
      obtain ⟨h, hh⟩ := (hI.counted.ref f).exists_pos hpos
      obtain ⟨reference, hm, hf⟩ := countP_pos_iff.1 hh
      have hfile : reference.file = f := by simpa [toFile] using hf
      subst hfile
      cases h with
      | hand t =>
        have hm' : reference ∈ s.inHand t := hm
        refine ⟨t, present_of_live (hI.threads.hands t ?_), .inl ⟨reference, .inl hm', hend⟩⟩
        simp [Files.empty, ne_nil_of_mem hm']
      | cache =>
        have hnone := hI.pipes.cached reference hm
        rw [pipe_of_isEnd hend] at hnone
        cases hnone
      | table p =>
        have hm' : reference ∈ tableReferences (s.slots p) := hm
        obtain ⟨t, hh, hp⟩ := hI.threads.exists_thread (p := p) (by
          simp [Files.bare, ne_nil_of_mem hm'])
        exact ⟨t, hp, .inl ⟨reference, .inr ⟨p, hh, .inl hm'⟩, hend⟩⟩
      | space p =>
        have hm' : reference ∈ s.areas p := hm
        obtain ⟨t, hh, hp⟩ := hI.threads.exists_thread (p := p) (by
          simp [Files.bare, ne_nil_of_mem hm'])
        exact ⟨t, hp, .inl ⟨reference, .inr ⟨p, hh, .inr hm'⟩, hend⟩⟩
    · exact absurd he (by simp)

omit [DecidableEq Pid] in
theorem FilesInv.kept : ReferencesKept s where
  counted := hI.counted.ref
  hands := hI.threads.hands
  resources := fun _ hbare => hI.threads.exists_thread hbare
  released := by
    intro side pipe hnone
    by_contra hn
    obtain ⟨t, hp, hk⟩ := hI.exists_keepsOpen hn
    exact hnone t hp hk
  endOfFile := by
    intro pipe hw
    constructor
    · intro hne
      rcases hI.pipes.readWait pipe hne with hbusy | ⟨-, h⟩
      · obtain ⟨t, f, n, hcall, hpipe⟩ := hI.pipes.busy pipe hbusy
        refine ⟨t, f, n, hI.threads.hands t ?_, hcall, hpipe⟩
        simp [Files.empty, hcall]
      · exact absurd hw h
    · intro t f requested nonblock pending between hpipe hused hbusy
      simp [Fs.pipeReadLoop, hpipe, hused, hbusy, hw]
  brokenPipe := by
    intro pipe hr
    refine ⟨(hI.pipes.no_readers hI.threads.waits hr).2, ?_⟩
    intro t f count total atomic nonblock pending between hpipe hlt
    simp [Fs.pipeWriteLoop, hpipe, hr, Nat.not_le.2 hlt]
  panic := hI.panic

end

def Files.run (l : List (FileAction Tid Pid Pipe Other Private)) : Files Tid Pid Pipe Other Private :=
  l.foldl Files.step Files.boot

/-- **Open files are counted.** In every run in which nobody leaves a sleep for `process_thread_exit` with
    references in hand the counts of the files are those of their holders, and the ends of the pipes go with
    them. -/
theorem open_files_counted (l : List (FileAction Tid Pid Pipe Other Private))
    (hl : Along Files.step ExitsEmptyHanded Files.boot l) : ReferencesKept (run l) := by
  have hI : FilesInv (run l) :=
    Along.foldl (fun s a hI ha => hI.step a ha) FilesInv.boot hl
  exact hI.kept

/-! ## Runs of two processes -/

/-- Process 0 has a pipe and the threads 0 and 1, and process 1 a copy of the descriptors; process 0 closes the
    writing end and process 1 the reading end, and thread 1 sleeps in a read. -/
def readerSleeps : List (FileAction (Fin 3) (Fin 2) Unit Unit Unit) :=
  [.processAlloc 0 0, .elsewhere (.start 0), .elsewhere (.schedule 0), .pipe 0 (), .fdAlloc 0 0 0 false,
    .fdAlloc 0 1 0 false, .processAlloc 1 2, .forkSlots 0, .forkCommit 0 1 2, .elsewhere (.schedule 2), .close 2 0,
    .release 2 ⟨0, true⟩, .close 0 1, .release 0 ⟨1, true⟩, .threadAlloc 0 1, .elsewhere (.start 1),
    .elsewhere (.schedule 1), .fdGet 1 0, .read 1 0 10 false, .readLoop 1 false ⟨false, false⟩]

/-- Process 1 closes its end too: the reader comes back with the end of the file. -/
def writerCloses : List (FileAction (Fin 3) (Fin 2) Unit Unit Unit) :=
  readerSleeps ++ [.close 2 1, .release 2 ⟨1, true⟩, .releaseEnd 2, .elsewhere (.schedule 1), .resume 1,
    .readLoop 1 false ⟨false, false⟩, .release 1 ⟨0, true⟩]

theorem writerCloses_counted :
    Along Files.step ExitsEmptyHanded Files.boot writerCloses ∧
      ReferencesKept (run writerCloses) :=
  ⟨by decide +kernel, open_files_counted writerCloses (by decide +kernel)⟩

/-- Process 0 exits instead, with thread 1 in the read. -/
def readerExits : List (FileAction (Fin 3) (Fin 2) Unit Unit Unit) :=
  readerSleeps ++ [.elsewhere (.requestExit 1), .elsewhere (.terminateThread 1), .elsewhere (.schedule 1), .resume 1,
    .detach 1, .exit 1, .beginExit 0, .detach 0, .releaseSlots 0, .release 0 ⟨0, true⟩, .exit 0]

/-- A file is read through the page cache and closed. -/
def cacheKeeps : List (FileAction (Fin 3) (Fin 2) Unit Unit Unit) :=
  [.processAlloc 0 0, .elsewhere (.start 0), .elsewhere (.schedule 0), .openFile 0 true true false,
    .cacheAdd 0 ⟨0, true⟩, .release 0 ⟨0, true⟩]

/-- An entry of the page cache holds a file that no table, area or thread has; and a thread that is told to exit in
    the middle of a read takes its reference with it, so that the end stays open with all its holders gone. -/
theorem references_of_nobody :
    (((run cacheKeeps).file 0).ref = 1 ∧ (∀ p, (run cacheKeeps).bare p) ∧
      ∀ t, (run cacheKeeps).inHand t = []) ∧
    ((run readerExits).file 0).ref = 1 ∧ (∀ p fd, (run readerExits).slots p fd ≠ some 0) ∧
      (∀ p, (run readerExits).areas p = []) ∧ (∀ t, (run readerExits).inHand t = []) ∧
      (run readerExits).cache = [] ∧ ((run readerExits).waits.thread 0).state = .exited ∧
      ((run readerExits).waits.thread 1).state = .exited ∧
      ((run readerExits).pipe ()).readers = 1 := by
  decide +kernel

end Caffeinix.Fs
