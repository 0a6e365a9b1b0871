import Mathlib.Data.Fintype.Card
import Caffeinix.Process.Credentials

/-!
# `Process.Exec` — `execve` against credential calls of other threads

A process has up to `PROC_MAXTHREAD` threads that share its credentials. `exec_elf` runs in one of them: it
claims the process (`process_exec_begin`), opens the image, derives the credentials of the new image from the
file's set-id bits and a copy of the process' credentials, builds the image, stops the other threads
(`process_exec_quiesce`), and installs what it derived. Each section of the process' lock is one step; between
two of them any other thread may make its own.

The copy is taken long before the other threads are stopped. A `setuid` that one of them completes in between
is overwritten by the older values, as the run at the end shows. Where no credential call changes anything in
that window, every installation is derived from the credentials in force.
-/

namespace Caffeinix.Process

open Function (update update_of_ne update_self)

/-- `PROC_MAXTHREAD`. -/
abbrev procMaxThread : Nat := 32

/-- A slot of `process->thread[]`. -/
abbrev Slot := Fin procMaxThread

/-- What `elf_image_exec_credentials` reads of the inode. -/
structure Attributes where
  mode : UInt32
  uid : UInt32
  gid : UInt32
deriving DecidableEq

/-- The credentials of an image made from a file: `elf_image_exec_credentials` after the two reads. -/
def elfImageExecCredentials (file : Attributes) (c : Credentials) : Credentials :=
  let euid := if file.mode &&& 0o4000 ≠ 0 then file.uid else c.user.effective
  let egid := if file.mode &&& 0o2000 ≠ 0 ∧ file.mode &&& 0o0010 ≠ 0 then file.gid else c.group.effective
  { c with
    user := { real := c.user.real, effective := euid, saved := euid, fs := euid }
    group := { real := c.group.real, effective := egid, saved := egid, fs := egid } }

/-- Where a thread is. In `execQuiesced` the last field is not read by the code: it is the process'
    credentials at the moment the thread found itself alone. -/
inductive Stage where
  | user
  /-- In a credential call, before its section of the process' lock. -/
  | calling (call : Call)
  | execBegun
  | execOpened (file : Attributes)
  | execCopied (file : Attributes) (credentials : Credentials)
  | execQuiescing (file : Attributes) (credentials : Credentials)
  | execQuiesced (file : Attributes) (credentials inForce : Credentials)
  | execInstalled
  /-- `THREAD_EXITED`, or about to be; `last` says that no other thread was left. -/
  | exited (last : Bool)

/-- Between `process_exec_begin` and `process_exec_end`. -/
def Stage.execing : Stage → Bool
  | .user | .calling _ | .exited _ => false
  | _ => true

/-- The credentials an exec carries, and the attributes they were made with. -/
def Stage.copy : Stage → Option (Attributes × Credentials)
  | .execCopied file c | .execQuiescing file c | .execQuiesced file c _ => some (file, c)
  | _ => none

/-- No thread, or one that has exited. -/
def gone : Option Stage → Bool
  | none | some (.exited _) => true
  | some _ => false

/-- `struct process`, as far as these calls read it. -/
structure Proc where
  credentials : Credentials
  live : Bool
  groupExiting : Bool
  execing : Bool
  thread : Slot → Option Stage
  exitRequested : Slot → Bool

/-- The steps: `t` is the thread that makes it. -/
inductive Event where
  | trap (t : Slot) (call : Call)
  | call (t : Slot)
  | clone (t u : Slot)
  | execBegin (t : Slot)
  | execOpen (t : Slot) (file : Attributes)
  | execCredentials (t : Slot)
  | execFail (t : Slot)
  | execQuiesce (t : Slot)
  | execWait (t : Slot)
  | execInstall (t : Slot)
  | execEnd (t : Slot)
  | exit (t : Slot) (group : Bool)
  | reap (t : Slot)

namespace Proc

/-- `process->tnums`. -/
def tnums (s : Proc) : Nat := (Finset.univ.filter fun t => (s.thread t).isSome).card

/-- A thread goes to another stage. -/
def move (s : Proc) (t : Slot) (stage : Stage) : Proc :=
  { s with thread := update s.thread t (some stage) }

/-- `process_request_thread_exit_locked` for every thread other than `t` that has not exited. -/
def requestExits (s : Proc) (t : Slot) : Proc :=
  { s with exitRequested := fun u => s.exitRequested u || (u != t && !gone (s.thread u)) }

/-- `process_exec_begin`. -/
def processExecBegin (s : Proc) (t : Slot) : Proc :=
  if s.live && !s.groupExiting && !s.execing then { s with execing := true }.move t .execBegun else s

/-- The way out of `exec_elf`, with `process_exec_end`. -/
def processExecEnd (s : Proc) (t : Slot) : Proc := { s with execing := false }.move t .user

/-- `process_exec_quiesce` up to its loop. -/
def processExecQuiesce (s : Proc) (t : Slot) (file : Attributes) (c : Credentials) : Proc :=
  if !s.live || s.groupExiting || !s.execing then s.processExecEnd t
  else (s.requestExits t).move t (.execQuiescing file c)

/-- One turn of the loop of `process_exec_quiesce`. -/
def processExecWait (s : Proc) (t : Slot) (file : Attributes) (c : Credentials) : Proc :=
  if s.tnums = 1 then s.move t (.execQuiesced file c s.credentials)
  else if s.groupExiting then s.processExecEnd t
  else s

/-- `process_clone_thread`, with the slot that `thread_alloc` chose. -/
def processCloneThread (s : Proc) (u : Slot) : Proc :=
  if s.execing || s.groupExiting || !s.live || (s.thread u).isSome then s
  else { s.move u .user with exitRequested := update s.exitRequested u false }

/-- No thread other than `t` is left that has not exited. -/
def last (s : Proc) (t : Slot) : Bool := decide (∀ u, u ≠ t → gone (s.thread u) = true)

/-- The first section of `process_thread_exit`. -/
def processThreadExit (s : Proc) (t : Slot) (group : Bool) : Proc :=
  let s' := { s with
    groupExiting := s.groupExiting || group
    exitRequested := update s.exitRequested t false }
  let s'' := if s'.groupExiting then s'.requestExits t else s'
  s''.move t (.exited (s.last t))

/-- One step. A thread that is asked to exit does so where it next returns to user mode or sleeps, so not in
    a credential call and not between `process_exec_quiesce` and `process_exec_end`. -/
def step (s : Proc) : Event → Proc
  | .trap t k => match s.thread t with
    | some .user => if s.groupExiting || s.exitRequested t then s else s.move t (.calling k)
    | _ => s
  | .call t => match s.thread t with
    | some (.calling k) => { s with credentials := (s.credentials.call k).1 }.move t .user
    | _ => s
  | .clone t u => match s.thread t with
    | some .user => s.processCloneThread u
    | _ => s
  | .execBegin t => match s.thread t with
    | some .user => s.processExecBegin t
    | _ => s
  | .execOpen t file => match s.thread t with
    | some .execBegun => s.move t (.execOpened file)
    | _ => s
  | .execCredentials t => match s.thread t with
    | some (.execOpened file) => s.move t (.execCopied file (elfImageExecCredentials file s.credentials))
    | _ => s
  | .execFail t => match s.thread t with
    | some .execBegun | some (.execOpened _) | some (.execCopied _ _) => s.processExecEnd t
    | _ => s
  | .execQuiesce t => match s.thread t with
    | some (.execCopied file c) => s.processExecQuiesce t file c
    | _ => s
  | .execWait t => match s.thread t with
    | some (.execQuiescing file c) => s.processExecWait t file c
    | _ => s
  | .execInstall t => match s.thread t with
    | some (.execQuiesced _ c _) => { s with credentials := c }.move t .execInstalled
    | _ => s
  | .execEnd t => match s.thread t with
    | some .execInstalled => s.processExecEnd t
    | _ => s
  | .exit t group => match s.thread t with
    | some .user => s.processThreadExit t group
    | some .execBegun | some (.execOpened _) | some (.execCopied _ _) | some (.execQuiescing _ _) =>
      if s.exitRequested t then s.processThreadExit t false else s
    | _ => s
  | .reap t => match s.thread t with
    | some (.exited false) => { s with thread := update s.thread t none }
    | some (.exited true) => if s.tnums = 1 then { s with live := false } else s
    | _ => s

end Proc

/-! ## The invariant -/

/-- Some exec of the process carries a copy of the credentials. -/
def Proc.Copying (s : Proc) : Prop := ∃ u, ((s.thread u).bind Stage.copy).isSome = true

instance (s : Proc) : Decidable s.Copying :=
  inferInstanceAs (Decidable (∃ u, ((s.thread u).bind Stage.copy).isSome = true))

/-- At most one thread is in an exec, what it carries is derived from the credentials in force, and once it
    has found itself alone it is. -/
structure ExecInv (s : Proc) : Prop where
  flag : ∀ t st, s.thread t = some st → st.execing = true → s.execing = true
  only : ∀ t u st st', s.thread t = some st → s.thread u = some st' → st.execing = true → st'.execing = true →
    t = u
  copied : ∀ t st file c, s.thread t = some st → st.copy = some (file, c) →
    c = elfImageExecCredentials file s.credentials
  alone : ∀ t file c inForce, s.thread t = some (.execQuiesced file c inForce) →
    inForce = s.credentials ∧ ∀ u, u ≠ t → s.thread u = none

variable {st b a : Stage} {s : Proc} {t : Slot} {c : Credentials} {file : Attributes}

theorem Stage.execing_of_copy {p : Attributes × Credentials} (h : st.copy = some p) : st.execing = true := by
  cases st <;> first | rfl | cases h

theorem Proc.move_thread {u : Slot} {x : Stage} (h : (s.move t b).thread u = some x) :
    u = t ∧ x = b ∨ u ≠ t ∧ s.thread u = some x := by
  by_cases hu : u = t
  · subst hu
    have hx : b = x := by simpa [Proc.move] using h
    exact Or.inl ⟨rfl, hx.symm⟩
  · exact Or.inr ⟨hu, by simpa [Proc.move, hu] using h⟩

/-- Nobody is in an exec. -/
theorem ExecInv.of_none (hno : ∀ t st, s.thread t = some st → st.execing = false) : ExecInv s :=
  ⟨fun t st hst hx => absurd hx (by simp [hno t st hst]),
    fun t u st st' hst hst' hx => absurd hx (by simp [hno t st hst]),
    fun t st file c hst hc => absurd (Stage.execing_of_copy hc) (by simp [hno t st hst]),
    fun t file c inForce hst => absurd (hno t _ hst) (by simp [Stage.execing])⟩

/-- The invariant for a thread that moves outside an exec. -/
theorem ExecInv.plain (h : ExecInv s) (hst : s.thread t = some a) (hne : b.execing = false) :
    ExecInv (s.move t b) := by
  -- a thread of the new state in an exec is another thread of the old one
  have hold : ∀ u x, (s.move t b).thread u = some x → x.execing = true → u ≠ t ∧ s.thread u = some x := by
    intro u x hx hxe
    rcases Proc.move_thread hx with ⟨-, rfl⟩ | hother
    · exact absurd hxe (by simp [hne])
    · exact hother
  refine ⟨fun u x hx hxe => h.flag u x (hold u x hx hxe).2 hxe,
    fun u v x y hx hy hxe hye => h.only u v x y (hold u x hx hxe).2 (hold v y hy hye).2 hxe hye,
    fun u x file c hx hc => ?_, fun u file c inForce hx => ?_⟩
  · exact h.copied u x file c (hold u x hx (Stage.execing_of_copy hc)).2 hc
  · obtain ⟨hu, hx'⟩ := hold u _ hx rfl
    have hnone := (h.alone u file c inForce hx').2 t hu.symm
    exact absurd (hst.symm.trans hnone) (by simp)

/-- The invariant for the thread in the exec that goes to its next stage. -/
theorem ExecInv.exec (h : ExecInv s) (hst : s.thread t = some a) (hexec : a.execing = true)
    (hcopy : ∀ file c, b.copy = some (file, c) → c = elfImageExecCredentials file s.credentials)
    (halone : ∀ file c inForce, b = .execQuiesced file c inForce → inForce = s.credentials ∧ ∀ u, u ≠ t →
      s.thread u = none) :
    ExecInv (s.move t b) := by
  -- nobody else is in an exec
  have hother : ∀ u x, u ≠ t → s.thread u = some x → x.execing = false := by
    intro u x hu hx
    by_contra hxe
    exact hu (h.only u t x a hx hst (by simpa using hxe) hexec)
  refine ⟨fun u x _ _ => h.flag t a hst hexec, fun u v x y hx hy hxe hye => ?_, fun u x file c hx hc => ?_,
    fun u file c inForce hx => ?_⟩
  · rcases Proc.move_thread hx with ⟨rfl, -⟩ | ⟨hu, hx⟩
    · rcases Proc.move_thread hy with ⟨rfl, -⟩ | ⟨hv, hy⟩
      · rfl
      · exact absurd hye (by simp [hother v y hv hy])
    · exact absurd hxe (by simp [hother u x hu hx])
  · rcases Proc.move_thread hx with ⟨rfl, rfl⟩ | ⟨hu, hx⟩
    · exact hcopy file c hc
    · exact absurd (Stage.execing_of_copy hc) (by simp [hother u x hu hx])
  · rcases Proc.move_thread hx with ⟨rfl, he⟩ | ⟨hu, hx⟩
    · obtain ⟨hforce, hnone⟩ := halone file c inForce he.symm
      exact ⟨hforce, fun v hv => by simpa [Proc.move, hv] using hnone v hv⟩
    · exact absurd (hother u _ hu hx) (by simp [Stage.execing])

/-- Fields that the invariant does not read. -/
theorem ExecInv.congr {s' : Proc} (h : ExecInv s) (hc : s'.credentials = s.credentials)
    (he : s.execing = true → s'.execing = true) (ht : s'.thread = s.thread) : ExecInv s' := by
  refine ⟨fun t st hst hx => he (h.flag t st (ht ▸ hst) hx),
    fun t u st st' hst hst' => h.only t u st st' (ht ▸ hst) (ht ▸ hst'), ?_, ?_⟩
  · rw [hc, ht]
    exact h.copied
  · rw [hc, ht]
    exact h.alone

/-- The last thread in an exec leaves it, and the flag goes with it. -/
theorem ExecInv.leave (h : ExecInv s) (hst : s.thread t = some st) (hexec : st.execing = true) :
    ExecInv (s.processExecEnd t) := by
  have hmove := h.plain hst (b := .user) rfl
  refine ⟨fun u x hx hxe => ?_, hmove.only, hmove.copied, hmove.alone⟩
  rcases Proc.move_thread hx with ⟨-, rfl⟩ | ⟨hne, hx'⟩
  · exact Bool.noConfusion hxe
  · exact absurd (h.only u t x st hx' hst hxe hexec) hne

/-- Other credentials, while no exec carries a copy. -/
theorem ExecInv.changed (h : ExecInv s) (hno : ¬ s.Copying) (c : Credentials) :
    ExecInv { s with credentials := c } := by
  have hcopy : ∀ t st p, s.thread t = some st → st.copy ≠ some p := by
    intro t st p hst hp
    exact hno ⟨t, by simp [hst, hp]⟩
  exact ⟨h.flag, h.only, fun t st file c' hst hc => absurd hc (hcopy t st _ hst),
    fun t file c' inForce hst => absurd rfl (hcopy t _ (file, c') hst)⟩

/-- A thread that is the only one in the table. -/
theorem Proc.tnums_one (hst : s.thread t = some st) (h : s.tnums = 1) : ∀ u, u ≠ t → s.thread u = none := by
  intro u hu
  obtain ⟨x, hx⟩ := Finset.card_eq_one.mp h
  have hmem : ∀ v, (s.thread v).isSome = true → v = x := by
    intro v hv
    have : v ∈ Finset.univ.filter fun t => (s.thread t).isSome := by simpa using hv
    rw [hx] at this
    exact Finset.mem_singleton.mp this
  cases hu' : s.thread u with
  | none => rfl
  | some => exact absurd ((hmem u (by simp [hu'])).trans (hmem t (by simp [hst])).symm) hu

/-! ## The steps keep it -/

/-- The condition: a credential call whose section falls between an exec's copy of the credentials and their
    installation changes nothing. -/
def Undisturbed (s : Proc) : Event → Prop
  | .call t => match s.thread t with
    | some (.calling k) => s.Copying → (s.credentials.call k).1 = s.credentials
    | _ => True
  | _ => True

instance (s : Proc) (e : Event) : Decidable (Undisturbed s e) := by
  unfold Undisturbed
  split
  · split
    · exact inferInstance
    · exact inferInstance
  · exact inferInstance

variable {s : Proc} {t : Slot}

section
variable (h : ExecInv s)
include h

theorem ExecInv.call {k : Call} (hst : s.thread t = some (.calling k))
    (hun : s.Copying → (s.credentials.call k).1 = s.credentials) :
    ExecInv ({ s with credentials := (s.credentials.call k).1 }.move t .user) := by
  by_cases hc : s.Copying
  · have hsame : { s with credentials := (s.credentials.call k).1 } = s := by rw [hun hc]
    rw [hsame]
    exact h.plain hst rfl
  · exact (h.changed hc _).plain hst rfl

/-- A new thread while no exec is under way. -/
theorem ExecInv.clone (u : Slot) : ExecInv (s.processCloneThread u) := by
  unfold Proc.processCloneThread
  split_ifs with hif
  · exact h
  have hno : ∀ v st, s.thread v = some st → st.execing = false := by
    intro v st hst
    by_contra hx
    exact hif (by simp [h.flag v st hst (by simpa using hx)])
  -- the new thread is outside an exec as well, so there is none
  refine ExecInv.of_none fun v st hst => ?_
  rcases Proc.move_thread hst with ⟨-, rfl⟩ | ⟨-, hst⟩
  · rfl
  · exact hno v st hst

theorem ExecInv.begin : ExecInv (s.processExecBegin t) := by
  unfold Proc.processExecBegin
  split_ifs with hif
  · have hexec : s.execing = false := by
      simp only [Bool.and_eq_true, Bool.not_eq_true'] at hif
      exact hif.2
    have hno : ∀ u st, s.thread u = some st → st.execing = false := by
      intro u st hu
      by_contra hx
      exact absurd (h.flag u st hu (by simpa using hx)) (by simp [hexec])
    have hold : ∀ u x, ({ s with execing := true }.move t .execBegun).thread u = some x → x.execing = true →
        u = t ∧ x = .execBegun := by
      intro u x hx hxe
      rcases Proc.move_thread hx with hhere | ⟨-, hx'⟩
      · exact hhere
      · exact absurd hxe (by simp [hno u x hx'])
    refine ⟨fun _ _ _ _ => rfl, fun u v x y hx hy hxe hye => ?_, fun u x file c hx hc => ?_,
      fun u file c inForce hx => ?_⟩
    · exact (hold u x hx hxe).1.trans (hold v y hy hye).1.symm
    · rw [(hold u x hx (Stage.execing_of_copy hc)).2] at hc
      cases hc
    · cases (hold u _ hx rfl).2
  · exact h

theorem ExecInv.quiesce (hst : s.thread t = some (.execCopied file c)) :
    ExecInv (s.processExecQuiesce t file c) := by
  unfold Proc.processExecQuiesce
  split_ifs
  · exact h.leave hst rfl
  · have hreq : ExecInv (s.requestExits t) := h.congr rfl (fun he => he) rfl
    refine hreq.exec hst rfl (fun file' c' hc => ?_) nofun
    obtain ⟨rfl, rfl⟩ : file = file' ∧ c = c' := by simpa [Stage.copy] using hc
    exact h.copied t _ file c hst rfl

theorem ExecInv.wait (hst : s.thread t = some (.execQuiescing file c)) :
    ExecInv (s.processExecWait t file c) := by
  unfold Proc.processExecWait
  split_ifs with hone
  · refine h.exec hst rfl (fun file' c' hc => ?_) (fun file' c' inForce he => ?_)
    · obtain ⟨rfl, rfl⟩ : file = file' ∧ c = c' := by simpa [Stage.copy] using hc
      exact h.copied t _ file c hst rfl
    · cases he
      exact ⟨rfl, Proc.tnums_one hst hone⟩
  · exact h.leave hst rfl
  · exact h

/-- The installation: afterwards nobody carries a copy. -/
theorem ExecInv.install {inForce : Credentials} (hst : s.thread t = some (.execQuiesced file c inForce)) :
    ExecInv ({ s with credentials := c }.move t .execInstalled) := by
  have hmove : ExecInv (s.move t .execInstalled) :=
    h.exec hst rfl nofun nofun
  refine hmove.changed ?_ c
  rintro ⟨u, hu⟩
  by_cases hut : u = t
  · subst hut
    simp [Proc.move, Stage.copy] at hu
  · have hnone := (h.alone t file c inForce hst).2 u hut
    simp [Proc.move, hut, hnone] at hu

theorem ExecInv.exit (hst : s.thread t = some st) {group : Bool} : ExecInv (s.processThreadExit t group) := by
  unfold Proc.processThreadExit
  simp only
  split_ifs
  · have hreq : ExecInv (Proc.requestExits { s with
        groupExiting := s.groupExiting || group
        exitRequested := update s.exitRequested t false } t) := h.congr rfl (fun he => he) rfl
    exact hreq.plain hst rfl
  · have hset : ExecInv { s with
        groupExiting := s.groupExiting || group
        exitRequested := update s.exitRequested t false } := h.congr rfl (fun he => he) rfl
    exact hset.plain hst rfl

/-- A slot that is given back. -/
theorem ExecInv.reap : ExecInv { s with thread := update s.thread t none } := by
  have hold : ∀ u x, update s.thread t none u = some x → s.thread u = some x := by
    intro u x hx
    by_cases hu : u = t
    · subst hu
      simp at hx
    · simpa [hu] using hx
  refine ⟨fun u x hx => h.flag u x (hold u x hx), fun u v x y hx hy => h.only u v x y (hold u x hx) (hold v y hy),
    fun u x file c hx => h.copied u x file c (hold u x hx), fun u file c inForce hx => ?_⟩
  obtain ⟨hforce, hnone⟩ := h.alone u file c inForce (hold u _ hx)
  refine ⟨hforce, fun v hv => ?_⟩
  show update s.thread t none v = none
  by_cases hvt : v = t
  · subst hvt
    exact update_self ..
  · rw [update_of_ne hvt]
    exact hnone v hv

theorem ExecInv.step (e : Event) (hun : Undisturbed s e) : ExecInv (s.step e) := by
  cases e with simp only [Proc.step]
  | trap =>
    split
    · split_ifs
      · exact h
      · exact h.plain (by assumption) rfl
    · exact h
  | call =>
    split
    · rename_i k hst
      simp only [Undisturbed, hst] at hun
      exact h.call hst hun
    · exact h
  | clone t u =>
    split
    · exact h.clone u
    · exact h
  | execBegin =>
    split
    · exact h.begin
    · exact h
  | execOpen =>
    split
    · exact h.exec (by assumption) rfl nofun nofun
    · exact h
  | execCredentials =>
    split
    · refine h.exec (by assumption) rfl (fun file' c' hc => ?_) nofun
      cases hc
      rfl
    · exact h
  | execFail =>
    split
    · exact h.leave (by assumption) rfl
    · exact h.leave (by assumption) rfl
    · exact h.leave (by assumption) rfl
    · exact h
  | execQuiesce =>
    split
    · exact h.quiesce (by assumption)
    · exact h
  | execWait =>
    split
    · exact h.wait (by assumption)
    · exact h
  | execInstall =>
    split
    · exact h.install (by assumption)
    · exact h
  | execEnd =>
    split
    · exact h.leave (by assumption) rfl
    · exact h
  | exit =>
    split
    · exact h.exit (by assumption)
    -- in an exec, a thread exits when it is asked to
    iterate 4
      · split_ifs
        · exact h.exit (by assumption)
        · exact h
    · exact h
  | reap =>
    split
    · exact h.reap
    · split_ifs
      · exact h.congr rfl (fun he => he) rfl
      · exact h
    · exact h

end

/-! ## Whole runs -/

/-- A process none of whose threads is in an exec. -/
def Proc.Ordinary (s : Proc) : Prop := ∀ t, ((s.thread t).any Stage.execing) = false

instance (s : Proc) : Decidable s.Ordinary :=
  inferInstanceAs (Decidable (∀ t, ((s.thread t).any Stage.execing) = false))

theorem Proc.Ordinary.inv (h : s.Ordinary) : ExecInv s := by
  have hno : ∀ t st, s.thread t = some st → st.execing = false := by
    intro t st hst
    simpa [hst] using h t
  exact ExecInv.of_none hno

/-- **An exec does not undo a credential change**, where no credential call changes anything between the copy
    and the installation: in every run, when a thread is about to install, the credentials in force are those
    at the moment the other threads had been stopped, and what is installed is derived from them by the
    set-id bits of the file. -/
theorem exec_installs_derived (s : Proc) (hs : s.Ordinary) (l : List Event)
    (hl : Runs.Along Proc.step Undisturbed s l) (t : Slot) (file : Attributes) (c inForce : Credentials)
    (hst : (l.foldl Proc.step s).thread t = some (.execQuiesced file c inForce)) :
    ((l.foldl Proc.step s).step (.execInstall t)).credentials = elfImageExecCredentials file inForce ∧
      (l.foldl Proc.step s).credentials = inForce := by
  have hinv : ExecInv (l.foldl Proc.step s) :=
    Runs.Along.foldl (fun s e h hun => h.step e hun) hs.inv hl
  have hforce := (hinv.alone t file c inForce hst).1
  have hcopied := hinv.copied t _ file c hst rfl
  have hstep : ((l.foldl Proc.step s).step (.execInstall t)).credentials = c := by
    simp only [Proc.step, hst]
    rfl
  rw [hstep, hforce]
  exact ⟨hcopied, rfl⟩

/-- A process of user 0 with two threads. -/
def twoThreads : Proc where
  credentials := rootCredentials
  live := true
  groupExiting := false
  execing := false
  thread t := if t.val < 2 then some .user else none
  exitRequested _ := false

/-- A file without set-id bits. -/
def plainFile : Attributes := ⟨0o755, 0, 0⟩

/-- Thread 0 executes the file up to its copy of the credentials, and from there to the point where it is
    alone. -/
def execStart : List Event := [.execBegin 0, .execOpen 0 plainFile, .execCredentials 0]
def execRest : List Event := [.execQuiesce 0, .exit 1 false, .reap 1, .execWait 0]

/-- Thread 1 gives up user 0 before the exec begins. -/
theorem earlyDrop_installs :
    (((.trap 1 (.setuid 1000) :: .call 1 :: execStart ++ execRest).foldl Proc.step twoThreads).step
      (.execInstall 0)).credentials.user = ⟨1000, 1000, 1000, 1000⟩ := by
  have h := (exec_installs_derived twoThreads (by decide +kernel)
    (.trap 1 (.setuid 1000) :: .call 1 :: execStart ++ execRest) (by decide +kernel) 0 plainFile
    (elfImageExecCredentials plainFile (rootCredentials.setuid 1000).1) (rootCredentials.setuid 1000).1 rfl).1
  rw [h]
  decide +kernel

/-- Thread 1 gives up user 0 while thread 0 builds its image: the call succeeds, the other threads are
    stopped with user 1000 in force, and the exec brings user 0 back. -/
theorem lateDrop_undone :
    let s := (execStart ++ [Event.trap 1 (.setuid 1000)]).foldl Proc.step twoThreads
    let s' := (Event.call 1 :: execRest).foldl Proc.step s
    (s.credentials.call (.setuid 1000)).2 = 0 ∧ s'.credentials.user = ⟨1000, 1000, 1000, 1000⟩ ∧
      (s'.thread 0).bind Stage.copy = some (plainFile, elfImageExecCredentials plainFile rootCredentials) ∧
      (s'.step (.execInstall 0)).credentials.user = ⟨0, 0, 0, 0⟩ ∧
      (elfImageExecCredentials plainFile s'.credentials).user = ⟨1000, 1000, 1000, 1000⟩ := by
  decide +kernel

end Caffeinix.Process
