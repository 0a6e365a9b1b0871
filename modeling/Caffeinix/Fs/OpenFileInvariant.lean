import Caffeinix.Fs.References
import Caffeinix.Lib.Census

/-!
# `Fs.OpenFileInvariant` — files, threads and pipes agree

`FilesInv` has three parts. The counts of the files are right (`Counted`). Only threads that are alive have
something in hand, and a process with descriptors or areas has a thread that has not left yet, or its last one
(`ThreadsOk`). The ends of a pipe are the files that are open on it, and nobody sleeps on a queue of a pipe for
something that has happened (`PipesOk`).

Most steps of a thread only handle references, its own and those of its process. `Works` says so, and such a step
keeps the last two parts.
-/

namespace Caffeinix.Fs

open Sched Files Waits

variable {Tid Pid Pipe Other Private : Type}

/-- Allocated and not exited yet. -/
def present (thread : Thread (PipeQueue Pipe ⊕ Other) Private) : Prop :=
  thread.state ≠ .unused ∧ thread.state ≠ .exited

/-- The thread is counted by `live_threads`. -/
def Files.counts (s : Files Tid Pid Pipe Other Private) (p : Pid) (t : Tid) : Prop :=
  s.home t = some p ∧ present (s.waits.thread t) ∧ s.detached t = false

/-- The last thread of a process, while it is alive. -/
def Files.closes (s : Files Tid Pid Pipe Other Private) (p : Pid) (t : Tid) : Prop :=
  s.home t = some p ∧ (s.waits.thread t).live ∧ s.last t

structure ThreadsOk (s : Files Tid Pid Pipe Other Private) : Prop where
  waits : WaitInv s.waits
  count : ∀ p, Numbers (s.counts p) (s.liveThreads p)
  alive : ∀ p, s.liveThreads p ≠ 0 → s.alive p
  closing : ∀ p t, s.closes p t → s.alive p ∧ s.liveThreads p = 0
  closing_unique : ∀ p t u, s.closes p t → s.closes p u → t = u
  /-- a thread that has not started has not left either -/
  early : ∀ t, s.home t ≠ none → (s.waits.thread t).state = .allocated → s.last t = false ∧ s.detached t = false
  resources : ∀ p, s.bare p = false → s.liveThreads p ≠ 0 ∨ ∃ t, s.closes p t
  hands : ∀ t, s.empty t = false → (s.waits.thread t).live

/-- The two ends of a pipe. -/
inductive Side
  | reader
  | writer
deriving DecidableEq

/-- The file is this end of the pipe. -/
def VfsFile.isEnd [DecidableEq Pipe] (file : VfsFile Pipe) (side : Side) (pipe : Pipe) : Bool :=
  file.pipe = some pipe && match side with
    | .reader => file.openRead
    | .writer => file.openWrite

def VfsPipe.ends (pipe : VfsPipe) : Side → Nat
  | .reader => pipe.readers
  | .writer => pipe.writers

section
variable [DecidableEq Pipe]

/-- The files that are this end of the pipe, and those that are on their way out. -/
def Files.endsOf (s : Files Tid Pid Pipe Other Private) (side : Side) (pipe : Pipe) : FileId ⊕ Tid → Nat
  | .inl f => if (s.file f).isEnd side pipe then 1 else 0
  | .inr t => if (s.released t).any (·.isEnd side pipe) then 1 else 0

/-- The file a call needs. -/
def PipeCall.side : PipeCall → Side
  | .reading _ _ _ | .copying _ _ => .reader
  | .writing _ _ _ _ _ => .writer

structure PipesOk (s : Files Tid Pid Pipe Other Private) : Prop where
  ends : ∀ side pipe, Weighs (s.endsOf side pipe) ((s.pipe pipe).ends side)
  calls : ∀ t call, s.call t = some call → ⟨call.file, true⟩ ∈ s.locals t ∧
    ∃ pipe, (s.file call.file).isEnd call.side pipe
  busy : ∀ pipe, (s.pipe pipe).readBusy →
    ∃ t f n, s.call t = some (.copying f n) ∧ (s.file f).pipe = some pipe
  reading : ∀ t pipe, (s.waits.thread t).waitingOn = some (.inl (.readWait pipe)) →
    ∃ f n b, s.call t = some (.reading f n b) ∧ (s.file f).pipe = some pipe
  writing : ∀ t pipe, (s.waits.thread t).waitingOn = some (.inl (.writeWait pipe)) →
    ∃ f m n a b, s.call t = some (.writing f m n a b) ∧ (s.file f).pipe = some pipe
  readWait : ∀ pipe, s.waits.waiters (.inl (.readWait pipe)) ≠ [] →
    (s.pipe pipe).readBusy ∨ ((s.pipe pipe).used = 0 ∧ (s.pipe pipe).writers ≠ 0)
  writeWait : ∀ pipe, s.waits.waiters (.inl (.writeWait pipe)) ≠ [] → (s.pipe pipe).readers ≠ 0
  cached : ∀ reference ∈ s.cache, (s.file reference.file).pipe = none

structure FilesInv (s : Files Tid Pid Pipe Other Private) : Prop where
  panic : s.panic = none
  counted : Counted s
  threads : ThreadsOk s
  pipes : PipesOk s

/-! ## Steps that only handle references -/

/-- A thread handles references, its own and those of its process. -/
structure Works (s s' : Files Tid Pid Pipe Other Private) (t : Tid) (p : Pid) : Prop where
  waits : s'.waits = s.waits
  pipe : s'.pipe = s.pipe
  call : s'.call = s.call
  released : s'.released = s.released
  home : s'.home = s.home
  liveThreads : s'.liveThreads = s.liveThreads
  alive : s'.alive = s.alive
  detached : s'.detached = s.detached
  last : s'.last = s.last
  panic : s'.panic = s.panic
  slots : ∀ p', p' ≠ p → s'.slots p' = s.slots p'
  areas : ∀ p', p' ≠ p → s'.areas p' = s.areas p'
  hands : ∀ u, u ≠ t → s'.locals u = s.locals u ∧ s'.draft u = s.draft u
  /-- the references of a call stay -/
  calls : ∀ call, s.call t = some call → ⟨call.file, true⟩ ∈ s.locals t → ⟨call.file, true⟩ ∈ s'.locals t
  file : ∀ f, (s'.file f).pipe = (s.file f).pipe ∧ ((s.file f).pipe.isSome →
    (s'.file f).openRead = (s.file f).openRead ∧ (s'.file f).openWrite = (s.file f).openWrite)
  cache : ∀ reference ∈ s'.cache, reference ∈ s.cache ∨ (s.file reference.file).pipe = none

omit [DecidableEq Pipe] in
theorem Works.refl (s : Files Tid Pid Pipe Other Private) (t : Tid) (p : Pid) : Works s s t p where
  waits := rfl
  pipe := rfl
  call := rfl
  released := rfl
  home := rfl
  liveThreads := rfl
  alive := rfl
  detached := rfl
  last := rfl
  panic := rfl
  slots := fun _ _ => rfl
  areas := fun _ _ => rfl
  hands := fun _ _ => ⟨rfl, rfl⟩
  calls := fun _ _ h => h
  file := fun _ => ⟨rfl, fun _ => ⟨rfl, rfl⟩⟩
  cache := fun _ h => .inl h

section
variable {s s' s'' : Files Tid Pid Pipe Other Private} {t : Tid} {p : Pid}

omit [DecidableEq Pipe] in
theorem Works.trans (h : Works s s' t p) (h' : Works s' s'' t p) : Works s s'' t p where
  waits := h'.waits.trans h.waits
  pipe := h'.pipe.trans h.pipe
  call := h'.call.trans h.call
  released := h'.released.trans h.released
  home := h'.home.trans h.home
  liveThreads := h'.liveThreads.trans h.liveThreads
  alive := h'.alive.trans h.alive
  detached := h'.detached.trans h.detached
  last := h'.last.trans h.last
  panic := h'.panic.trans h.panic
  slots := fun p' hp => (h'.slots p' hp).trans (h.slots p' hp)
  areas := fun p' hp => (h'.areas p' hp).trans (h.areas p' hp)
  hands := fun u hu => ⟨(h'.hands u hu).1.trans (h.hands u hu).1, (h'.hands u hu).2.trans (h.hands u hu).2⟩
  calls := fun call hc hm => h'.calls call (by rw [h.call]; exact hc) (h.calls call hc hm)
  file := by
    intro f
    obtain ⟨h1, h2⟩ := h.file f
    obtain ⟨h3, h4⟩ := h'.file f
    refine ⟨h3.trans h1, fun hsome => ?_⟩
    obtain ⟨h5, h6⟩ := h4 (by rw [h1]; exact hsome)
    exact ⟨h5.trans (h2 hsome).1, h6.trans (h2 hsome).2⟩
  cache := by
    intro reference hr
    rcases h'.cache reference hr with hr | hr
    · exact h.cache reference hr
    · exact .inr (by rw [← (h.file reference.file).1]; exact hr)

/-- Files that are ends of pipes stay what they are. -/
theorem Works.isEnd (h : Works s s' t p) (f : FileId) (side : Side) (pipe : Pipe) :
    (s'.file f).isEnd side pipe = (s.file f).isEnd side pipe := by
  obtain ⟨hpipe, hflags⟩ := h.file f
  unfold VfsFile.isEnd
  rw [hpipe]
  cases hp : (s.file f).pipe with
  | none => simp
  | some =>
    obtain ⟨hread, hwrite⟩ := hflags (by rw [hp]; rfl)
    cases side with
    | reader => simp only [hread]
    | writer => simp only [hwrite]

theorem PipesOk.works (hP : PipesOk s) (h : Works s s' t p) : PipesOk s' where
  ends := by
    intro side pipe
    rw [h.pipe]
    refine (hP.ends side pipe).congr fun e => ?_
    cases e with
    | inl => simp only [endsOf, h.isEnd]
    | inr => simp only [endsOf, h.released]
  calls := by
    intro u call hcall
    rw [h.call] at hcall
    obtain ⟨hm, pipe, hend⟩ := hP.calls u call hcall
    refine ⟨?_, pipe, by rw [h.isEnd]; exact hend⟩
    by_cases hu : u = t
    · subst hu
      exact h.calls call hcall hm
    · rw [(h.hands u hu).1]
      exact hm
  busy := by
    intro pipe hbusy
    rw [h.pipe] at hbusy
    obtain ⟨u, f, n, hcall, hp⟩ := hP.busy pipe hbusy
    exact ⟨u, f, n, by rw [h.call]; exact hcall, by rw [(h.file f).1]; exact hp⟩
  reading := by
    intro u pipe hon
    rw [h.waits] at hon
    obtain ⟨f, n, b, hcall, hp⟩ := hP.reading u pipe hon
    exact ⟨f, n, b, by rw [h.call]; exact hcall, by rw [(h.file f).1]; exact hp⟩
  writing := by
    intro u pipe hon
    rw [h.waits] at hon
    obtain ⟨f, m, n, a, b, hcall, hp⟩ := hP.writing u pipe hon
    exact ⟨f, m, n, a, b, by rw [h.call]; exact hcall, by rw [(h.file f).1]; exact hp⟩
  readWait := by
    rw [h.waits, h.pipe]
    exact hP.readWait
  writeWait := by
    rw [h.waits, h.pipe]
    exact hP.writeWait
  cached := by
    intro reference hr
    rw [(h.file reference.file).1]
    rcases h.cache reference hr with hr | hr
    · exact hP.cached reference hr
    · exact hr

/-! ## Threads -/

section
omit [DecidableEq Pipe]

theorem present_of_live {thread : Thread (PipeQueue Pipe ⊕ Other) Private} (h : thread.live) : present thread := by
  rcases h with h | h | h <;> exact ⟨by simp [h], by simp [h]⟩

theorem live_of_runs (ht : s.waits.runs t) : (s.waits.thread t).live := .inr (.inl (running_of_runs ht))

theorem acts_spec (h : s.acts t = some p) :
    s.waits.runs t ∧ s.inLoop t = false ∧ (s.detached t = false ∨ s.last t) ∧ s.home t = some p := by
  unfold acts at h
  split_ifs at h with hcond
  simp only [Bool.and_eq_true, Bool.or_eq_true, Bool.not_eq_true'] at hcond
  exact ⟨hcond.1.1, hcond.1.2, hcond.2, h⟩

end

section
variable (hT : ThreadsOk s)
include hT

section
omit [DecidableEq Pipe]

/-- A process whose thread does something has a thread. -/
theorem ThreadsOk.acts (h : s.acts t = some p) : s.liveThreads p ≠ 0 ∨ ∃ u, s.closes p u := by
  obtain ⟨hruns, -, hcount, hhome⟩ := acts_spec h
  rcases hcount with hd | hl
  · have hpos := (hT.count p).pos ⟨hhome, present_of_live (live_of_runs hruns), hd⟩
    exact .inl (by omega)
  · exact .inr ⟨t, hhome, live_of_runs hruns, hl⟩

/-- The threads of the processes go on, and none comes or goes. -/
theorem ThreadsOk.frame (hW : WaitInv s'.waits) (hhome : s'.home = s.home)
    (hcounts : s'.liveThreads = s.liveThreads) (halive : s'.alive = s.alive) (hdetached : s'.detached = s.detached)
    (hlast : s'.last = s.last)
    (hpresent : ∀ u, s.home u ≠ none → (present (s'.waits.thread u) ↔ present (s.waits.thread u)))
    (hlive : ∀ u, (s.waits.thread u).live → (s'.waits.thread u).live)
    (hstarted : ∀ u, s.home u ≠ none → (s'.waits.thread u).live → (s.waits.thread u).live ∨
      (s.waits.thread u).state = .allocated)
    (hearly : ∀ u, s.home u ≠ none → (s'.waits.thread u).state = .allocated →
      (s.waits.thread u).state = .allocated)
    (hresources : ∀ q, s'.bare q = false → s.bare q = false ∨ s.liveThreads q ≠ 0 ∨ ∃ u, s.closes q u)
    (hhands : ∀ u, s'.empty u = false → s.empty u = false ∨ (s'.waits.thread u).live) : ThreadsOk s' := by
  have hcloses : ∀ q u, s'.closes q u ↔ s.closes q u := by
    intro q u
    unfold closes
    rw [hhome, hlast]
    constructor
    · rintro ⟨hh, hl, hu⟩
      refine ⟨hh, ?_, hu⟩
      rcases hstarted u (by rw [hh]; simp) hl with h | h
      · exact h
      · rw [(hT.early u (by rw [hh]; simp) h).1] at hu
        exact Bool.noConfusion hu
    · rintro ⟨hh, hl, hu⟩
      exact ⟨hh, hlive u hl, hu⟩
  exact {
    waits := hW
    count := by
      intro q
      rw [hcounts]
      refine (hT.count q).congr fun u => ?_
      unfold counts
      rw [hhome, hdetached]
      constructor
      · rintro ⟨hh, hp, hd⟩
        exact ⟨hh, (hpresent u (by rw [hh]; simp)).1 hp, hd⟩
      · rintro ⟨hh, hp, hd⟩
        exact ⟨hh, (hpresent u (by rw [hh]; simp)).2 hp, hd⟩
    alive := by
      rw [hcounts, halive]
      exact hT.alive
    closing := by
      intro q u h
      rw [hcounts, halive]
      exact hT.closing q u ((hcloses q u).1 h)
    closing_unique := fun q u v hu hv => hT.closing_unique q u v ((hcloses q u).1 hu) ((hcloses q v).1 hv)
    early := by
      intro u hh hstate
      rw [hhome] at hh
      rw [hlast, hdetached]
      exact hT.early u hh (hearly u hh hstate)
    resources := by
      intro q hq
      rw [hcounts]
      have hold : s.liveThreads q ≠ 0 ∨ ∃ u, s.closes q u := by
        rcases hresources q hq with h | h
        · exact hT.resources q h
        · exact h
      exact hold.imp_right fun ⟨u, hu⟩ => ⟨u, (hcloses q u).2 hu⟩
    hands := by
      intro u hu
      rcases hhands u hu with h | h
      · exact hlive u (hT.hands u h)
      · exact h }

/-- A thread of a process comes, goes or leaves, and the others are where they were. -/
theorem ThreadsOk.change (hW : WaitInv s'.waits)
    (hthreads : ∀ v, v ≠ t → s'.home v = s.home v ∧ s'.waits.thread v = s.waits.thread v ∧
      s'.detached v = s.detached v ∧ s'.last v = s.last v ∧ s'.empty v = s.empty v)
    (hprocesses : ∀ q, q ≠ p → s'.liveThreads q = s.liveThreads q ∧ s'.alive q = s.alive q ∧ s'.bare q = s.bare q)
    (hbefore : ∀ q, q ≠ p → s.home t = some q → ¬present (s.waits.thread t))
    (hafter : ∀ q, q ≠ p → s'.home t ≠ some q) (hcount : Numbers (s'.counts p) (s'.liveThreads p))
    (halive : s'.liveThreads p ≠ 0 → s'.alive p)
    (hclosing : ∀ v, s'.closes p v → s'.alive p ∧ s'.liveThreads p = 0)
    (hunique : ∀ v w, s'.closes p v → s'.closes p w → v = w)
    (hearly : s'.home t ≠ none → (s'.waits.thread t).state = .allocated → s'.last t = false ∧ s'.detached t = false)
    (hresources : s'.bare p = false → s'.liveThreads p ≠ 0 ∨ ∃ v, s'.closes p v)
    (hhands : s'.empty t = false → (s'.waits.thread t).live) : ThreadsOk s' := by
  -- nothing changes for the threads of the other processes
  have hcounts : ∀ q, q ≠ p → ∀ v, s'.counts q v ↔ s.counts q v := by
    intro q hq v
    by_cases hv : v = t
    · subst hv
      exact iff_of_false (fun h => hafter q hq h.1) fun h => hbefore q hq h.1 h.2.1
    · obtain ⟨hh, ht, hd, -⟩ := hthreads v hv
      simp only [counts, hh, ht, hd]
  have hcloses : ∀ q, q ≠ p → ∀ v, s'.closes q v ↔ s.closes q v := by
    intro q hq v
    by_cases hv : v = t
    · subst hv
      exact iff_of_false (fun h => hafter q hq h.1) fun h => hbefore q hq h.1 (present_of_live h.2.1)
    · obtain ⟨hh, ht, -, hl, -⟩ := hthreads v hv
      simp only [closes, hh, ht, hl]
  refine ⟨hW, fun q => ?_, fun q => ?_, fun q v hv => ?_, fun q v w hv hw => ?_, fun v hh hs => ?_, fun q hb => ?_,
    fun v he => ?_⟩
  · by_cases hq : q = p
    · exact hq ▸ hcount
    · rw [(hprocesses q hq).1]
      exact (hT.count q).congr (hcounts q hq)
  · by_cases hq : q = p
    · exact hq ▸ halive
    · rw [(hprocesses q hq).1, (hprocesses q hq).2.1]
      exact hT.alive q
  · by_cases hq : q = p
    · exact hq ▸ hclosing v (hq ▸ hv)
    · rw [(hprocesses q hq).1, (hprocesses q hq).2.1]
      exact hT.closing q v ((hcloses q hq v).1 hv)
  · by_cases hq : q = p
    · exact hunique v w (hq ▸ hv) (hq ▸ hw)
    · exact hT.closing_unique q v w ((hcloses q hq v).1 hv) ((hcloses q hq w).1 hw)
  · by_cases hv : v = t
    · exact hv ▸ hearly (hv ▸ hh) (hv ▸ hs)
    · obtain ⟨hhome, ht, hd, hl, -⟩ := hthreads v hv
      rw [hl, hd]
      exact hT.early v (hhome ▸ hh) (ht ▸ hs)
  · by_cases hq : q = p
    · exact hq ▸ hresources (hq ▸ hb)
    · rw [(hprocesses q hq).1]
      rw [(hprocesses q hq).2.2] at hb
      exact (hT.resources q hb).imp_right fun ⟨v, hv⟩ => ⟨v, (hcloses q hq v).2 hv⟩
  · by_cases hv : v = t
    · exact hv ▸ hhands (hv ▸ he)
    · obtain ⟨-, ht, -, -, hempty⟩ := hthreads v hv
      rw [ht]
      exact hT.hands v (hempty ▸ he)

theorem ThreadsOk.works (hact : s.acts t = some p) (h : Works s s' t p) : ThreadsOk s' := by
  obtain ⟨hruns, -, -, -⟩ := acts_spec hact
  refine hT.frame (by rw [h.waits]; exact hT.waits) h.home h.liveThreads h.alive h.detached h.last
    (fun u _ => by rw [h.waits]) (fun u hu => by rw [h.waits]; exact hu)
    (fun u _ hu => .inl (by rw [← h.waits]; exact hu)) (fun u _ hu => by rw [← h.waits]; exact hu)
    (fun q hq => ?_) (fun u hu => ?_)
  · by_cases hqp : q = p
    · rw [hqp]
      exact .inr (hT.acts hact)
    · refine .inl ?_
      unfold bare at hq ⊢
      rwa [h.slots q hqp, h.areas q hqp] at hq
  · by_cases hut : u = t
    · rw [hut, h.waits]
      exact .inr (live_of_runs hruns)
    · refine .inl ?_
      obtain ⟨hlocals, hdraft⟩ := h.hands u hut
      unfold empty inHand at hu ⊢
      rwa [hlocals, hdraft, h.released, h.call] at hu

end

end

/-- A step that handles references, and leaves the counts right. -/
theorem FilesInv.works (hI : FilesInv s) (hact : s.acts t = some p) (h : Works s s' t p) (hC : Counted s') :
    FilesInv s' where
  panic := h.panic.trans hI.panic
  counted := hC
  threads := hI.threads.works hact h
  pipes := hI.pipes.works h

/-! ## Steps of the wait queues -/

/-- The threads go on; none comes or goes, and none comes to a queue of a pipe. -/
structure Goes (s : Files Tid Pid Pipe Other Private) (after : Waits Tid (PipeQueue Pipe ⊕ Other) Private) :
    Prop where
  waits : WaitInv after
  present : ∀ u, s.home u ≠ none → (present (after.thread u) ↔ present (s.waits.thread u))
  live : ∀ u, (s.waits.thread u).live → (after.thread u).live
  started : ∀ u, s.home u ≠ none → (after.thread u).live → (s.waits.thread u).live ∨
    (s.waits.thread u).state = .allocated
  early : ∀ u, s.home u ≠ none → (after.thread u).state = .allocated → (s.waits.thread u).state = .allocated
  waiting : ∀ u queue, (after.thread u).waitingOn = some (.inl queue) →
    (s.waits.thread u).waitingOn = some (.inl queue)

section
variable {after : Waits Tid (PipeQueue Pipe ⊕ Other) Private}

omit [DecidableEq Pipe] in
theorem ThreadsOk.goes (hT : ThreadsOk s) (hg : Goes s after) :
    ThreadsOk { s with waits := after } :=
  hT.frame hg.waits rfl rfl rfl rfl rfl hg.present hg.live hg.started hg.early (fun _ h => .inl h)
    fun _ h => .inl h

/-- Nobody comes to a queue of a pipe. -/
theorem PipesOk.waits (hP : PipesOk s) (hW : WaitInv s.waits) (hW' : WaitInv after)
    (hwaiting : ∀ u queue, (after.thread u).waitingOn = some (.inl queue) →
      (s.waits.thread u).waitingOn = some (.inl queue)) : PipesOk { s with waits := after } := by
  have hqueue : ∀ queue, after.waiters (.inl queue) ≠ [] → s.waits.waiters (.inl queue) ≠ [] := by
    intro queue hne
    obtain ⟨u, hu⟩ := List.exists_mem_of_ne_nil _ hne
    exact List.ne_nil_of_mem ((hW.mem u _).2 (hwaiting u queue ((hW'.mem u _).1 hu)))
  exact { hP with
    reading := fun u pipe h => hP.reading u pipe (hwaiting u _ h)
    writing := fun u pipe h => hP.writing u pipe (hwaiting u _ h)
    readWait := fun pipe h => hP.readWait pipe (hqueue _ h)
    writeWait := fun pipe h => hP.writeWait pipe (hqueue _ h) }

theorem PipesOk.goes (hP : PipesOk s) (hW : WaitInv s.waits) (hg : Goes s after) :
    PipesOk { s with waits := after } :=
  hP.waits hW hg.waits hg.waiting

theorem FilesInv.goes (hI : FilesInv s) (hg : Goes s after) :
    FilesInv { s with waits := after } where
  panic := hI.panic
  counted := hI.counted.same (fun _ _ => rfl) rfl
  threads := hI.threads.goes hg
  pipes := hI.pipes.goes hI.threads.waits hg

end

section
variable [DecidableEq Tid]

omit [DecidableEq Pipe] in
/-- A thread that runs is written to, and goes on running. -/
theorem ThreadsOk.goes_set (hT : ThreadsOk s) {thread : Thread (PipeQueue Pipe ⊕ Other) Private}
    (hrun : (s.waits.thread t).state = .running) (hw : Writes (s.waits.thread t) thread)
    (hstate : thread.state = .running) : Goes s (s.waits.set t thread) := by
  have hthread : ∀ u, u ≠ t → (s.waits.set t thread).thread u = s.waits.thread u :=
    fun u hu => set_thread_ne hu
  constructor
  · exact hT.waits.set hw
  · intro u _
    by_cases hu : u = t
    · subst hu
      simp [present, hstate, hrun]
    · rw [hthread u hu]
  · intro u hl
    by_cases hu : u = t
    · subst hu
      rw [set_thread_self]
      exact .inr (.inl hstate)
    · rwa [hthread u hu]
  · intro u _ hl
    by_cases hu : u = t
    · subst hu
      exact .inl (.inr (.inl hrun))
    · rw [hthread u hu] at hl
      exact .inl hl
  · intro u _ hs
    by_cases hu : u = t
    · subst hu
      rw [set_thread_self, hstate] at hs
      exact nomatch hs
    · rwa [hthread u hu] at hs
  · intro u queue hon
    by_cases hu : u = t
    · subst hu
      rwa [set_thread_self, hw.waitingOn] at hon
    · rwa [hthread u hu] at hon

variable [DecidableEq Other]

/-- A step in which no thread of a process comes or goes, and none comes to a queue of a pipe. -/
theorem ThreadsOk.goes_step (hT : ThreadsOk s) (a : Action Tid (PipeQueue Pipe ⊕ Other) Private) (ha : a.ends = false)
    (halloc : ∀ u, a = .alloc u ∨ a = .free u → s.home u = none)
    (hrequeue : ∀ source queue count own, a ≠ .requeue source (.inl queue) count own)
    (hsleep : ∀ u queue call pending between, a ≠ .sleep u (.inl queue) call pending between) :
    Goes s (s.waits.step a) := by
  have hstate : ∀ u, s.home u ≠ none →
      ((((s.waits.step a).thread u).state = (s.waits.thread u).state ∨
        ((s.waits.thread u).live ∧ ((s.waits.step a).thread u).live)) ∨
      ((s.waits.thread u).state = .allocated ∧ ((s.waits.step a).thread u).state = .runnable)) := by
    intro u hu
    rcases hT.waits.step_state a ha u with h | h | h | h
    · exact .inl h
    · exact absurd (halloc u (.inl h)) hu
    · exact absurd (halloc u (.inr h)) hu
    · exact .inr h.2
  constructor
  · exact hT.waits.step a
  · intro u hu
    rcases hstate u hu with (h | ⟨h, h'⟩) | ⟨h, h'⟩
    · simp only [Fs.present, h]
    · exact ⟨fun _ => present_of_live h, fun _ => present_of_live h'⟩
    · simp [Fs.present, h, h']
  · exact fun u => (hT.waits.step_spared ha u).live
  · intro u hu hl
    rcases hstate u hu with (h | ⟨h, -⟩) | ⟨h, -⟩
    · left
      unfold Thread.live at hl ⊢
      rwa [h] at hl
    · exact .inl h
    · exact .inr h
  · intro u hu hs
    rcases hstate u hu with (h | ⟨-, h⟩) | ⟨h, -⟩
    · rwa [h] at hs
    · rcases h with h | h | h <;> exact absurd (hs.symm.trans h) (by simp)
    · exact h
  · intro u queue hon
    rcases (hT.waits.step_spared ha u).queue _ hon with h | ⟨source, count, own, he⟩ | ⟨call, pending, between, he⟩
    · exact h
    · exact absurd he (hrequeue source queue count own)
    · exact absurd he (hsleep u queue call pending between)

end

end
end
end Caffeinix.Fs
