import Caffeinix.Signal.Pending

/-!
# `Signal.Stop` — continue and kill against an earlier stop

A stop signal is taken in one section and the process marked as stopped in another, and `process_signal_stop` does
not look whether SIGCONT or SIGKILL has been generated in between: then the process stops after all. SIGKILL does
not clear the stop signals either, and one that is pending stops the process until it has been taken. Apart from
that, a process for which SIGCONT or SIGKILL is generated is calm until the next stop signal (`Calm`): not stopped,
no thread about to stop it and none asleep in a stop wait.
-/

namespace Caffeinix.Signal

open Bool Option Proc Event Function

variable {D : Type} {p p' : Proc D} {s x : Sig} {t : Slot} {th : Thread D}

def Phase.calm : Phase → Bool
  | .stopping | .stopWait true | .returnWait true => false
  | _ => true

/-- It is not stopped, and no thread is about to stop it or asleep in a stop wait. -/
structure Rests (p : Proc D) : Prop where
  stopped : p.stopped = false
  phase : ∀ t th, p.thread t = some th → th.phase.calm = true

structure Calm (p : Proc D) : Prop extends Rests p where
  pending : ∀ s, signalDefaultStops s = true → ¬ p.Has s

/-- What a step generates. -/
def Event.generates (p : Proc D) : Event D → Option Sig
  | .queueProcess s _ _ => if p.live then some s else none
  | .queueThread t s _ _ => if p.reachable t then some s else none
  | .forceFault t s _ => if p.live && (p.thread t).any (·.phase = .running) then some s else none
  | _ => none

def resumes (s : Sig) : Bool := s = linuxSigcont || s = linuxSigkill

theorem of_resumes (h : resumes s = true) : s = linuxSigcont ∨ s = linuxSigkill := by simpa [resumes] using h

/-- Whether SIGCONT or SIGKILL has been generated after the last stop signal. -/
def resumed (p : Proc D) (b : Bool) (e : Event D) : Bool :=
  match e.generates p with
  | some s => if resumes s then true else if signalDefaultStops s then false else b
  | none => b

/-- No thread is on its way from a stop signal it has taken to `process_signal_stop`. -/
def Proc.Unstopping (p : Proc D) : Prop := ∀ t th, p.thread t = some th → th.phase ≠ .stopping

/-- No stop signal is on its way when SIGCONT or SIGKILL is generated, and none is pending when SIGKILL is. -/
def Undisturbed (p : Proc D) (e : Event D) : Prop :=
  ∀ s, e.generates p = some s → resumes s = true →
    p.Unstopping ∧ (s = linuxSigkill → ∀ x, signalDefaultStops x = true → ¬ p.Has x)

/-! ## What is pending -/

/-- Only the signal that is stored becomes pending. -/
theorem Moves.has {o : Change D} (h : SigInv p) (hm : Moves o p p') (hs : p'.Has s) :
    p.Has s ∨ ∃ who info, o.stores = some (who, info) ∧ info.signal = s.number := by
  obtain ⟨who, hne⟩ := hm.inv.has_iff.mp hs
  rcases hm.fifo who s with he | ⟨info, ho, hinfo, -⟩ | ⟨-, he⟩ | ⟨-, he⟩
  · exact .inl (h.has_iff.mpr ⟨who, he ▸ hne⟩)
  · exact .inr ⟨who, info, ho, hinfo⟩
  · refine .inl (h.has_iff.mpr ⟨who, fun hnil => hne ?_⟩)
    rw [he, hnil, List.tail_nil]
  · exact absurd he hne

theorem SigInv.queueThread_has [Inhabited D] (h : SigInv p) {information : Option (Info D)} {malloc : Bool}
    (hs : (p.queueThread t s information malloc).Has x) : p.Has x ∨ x = s ∧ p.reachable t = true := by
  cases hr : p.reachable t with
  | false => exact .inl (by rwa [queueThread_unreachable hr] at hs)
  | true =>
    rcases (h.queueThread t s information malloc).1.has h hs with hp | ⟨_, info, hinfo, hnumber⟩
    · exact .inl hp
    · cases hinfo
      exact .inr ⟨(Sig.number_inj hnumber).symm, rfl⟩

theorem generates_forceFault {data : D} (h : (forceFault t s data).generates p = some x) :
    s = x ∧ ∃ th, p.thread t = some th ∧ th.phase = .running ∧ p.live = true := by
  simp only [generates] at h
  split_ifs at h with hrun
  cases ht : p.thread t with
  | none => simp [ht] at hrun
  | some th =>
    simp only [ht, any_some, and_eq_true, decide_eq_true_eq] at hrun
    exact ⟨some.inj h, th, rfl, hrun.2, hrun.1⟩

theorem Proc.unmask_reachable (ht : p.thread t = some th) (hrun : th.phase = .running) {actions : Sig → Action} :
    (p.unmask t s actions).reachable t = p.live := by
  have h : (p.unmask t s actions).thread t = some { th with mask := update th.mask s false } := by
    simp [Proc.unmask, modify, mapThreads, ht]
  rw [Proc.reachable, h, any_some, hrun]
  exact and_true _

variable {e : Event D}

theorem SigInv.step_has [Inhabited D] (h : SigInv p) (hs : (p.step e).Has x) : p.Has x ∨ e.generates p = some x := by
  rcases (h.step e).has h hs with hp | ⟨_, info, hentry, hinfo⟩
  · exact .inl hp
  cases e with
  | queueProcess s =>
    cases hentry
    obtain rfl : s = x := Sig.number_inj hinfo
    cases hlive : p.live with
    | true => exact .inr (by simp [generates, hlive])
    | false => exact .inl (by simpa [Proc.step, Proc.queueProcess, hlive] using hs)
  | queueThread =>
    refine (h.queueThread_has hs).imp_right fun hgen => ?_
    rw [generates, if_pos hgen.2, hgen.1]
  | forceFault t s data =>
    simp only [Proc.step, Proc.act] at hs
    cases ht : p.thread t with
    | none => exact .inl (by simpa [ht] using hs)
    | some th =>
      by_cases hrun : th.phase = .running
      · obtain ⟨actions, heq⟩ := p.forceFault_eq t s data
        simp only [ht, hrun, decide_true, if_true, heq] at hs
        have hclear := h.unmask t s actions
        rcases hclear.inv.queueThread_has hs with hp | ⟨hx, hgen⟩
        · obtain ⟨who, hne⟩ := hclear.inv.has_iff.mp hp
          rw [hclear.queue, if_neg List.not_mem_nil] at hne
          exact .inl (h.has_iff.mpr ⟨who, hne⟩)
        · simp only [Proc.reachable, and_eq_true] at hgen
          exact .inr (by simp [generates, ht, hrun, hx, show p.live = true from hgen.1])
      · exact .inl (by simpa [ht, hrun] using hs)
  | _ => cases hentry

/-! ## Phases -/

section
variable (h : Rests p)
include h

theorem Rests.map {f : Slot → Thread D → Thread D}
    (hf : ∀ i th, th.phase.calm = true → (f i th).phase.calm = true) : Rests (p.mapThreads f) := by
  refine ⟨h.stopped, fun t th ht => ?_⟩
  obtain ⟨th', ht', rfl⟩ := map_eq_some_iff.mp ht
  exact hf t th' (h.phase t th' ht')

theorem Rests.modify (t : Slot) {f : Thread D → Thread D}
    (hf : ∀ th, th.phase.calm = true → (f th).phase.calm = true) : Rests (p.modify t f) := by
  refine h.map fun i th hth => ?_
  split_ifs
  · exact hf th hth
  · exact hth

theorem Rests.setPhase (t : Slot) {k : Phase} (hk : k.calm = true) : Rests (p.setPhase t k) :=
  h.modify t fun _ _ => hk

theorem Rests.retargeted (hr : Retargeted p p') : Rests p' := by
  obtain ⟨f, rfl, hf⟩ := hr
  refine h.map fun i th hth => ?_
  rcases (hf i th).2.2.2 with hp | ⟨-, hp⟩ <;> rw [hp]
  · exact hth
  · rfl

omit h in
/-- Waking ends the sleep in a stop wait. -/
theorem Proc.Unstopping.wakeAll (h : p.Unstopping) (hs : p.stopped = false) : Rests p.wakeAll := by
  refine ⟨hs, fun t th ht => ?_⟩
  obtain ⟨th', ht', rfl⟩ := map_eq_some_iff.mp ht
  have hne := h t th' ht'
  show th'.phase.wake.calm = true
  revert hne
  cases th'.phase <;> simp [Phase.wake, Phase.calm]

theorem Rests.unstopping : p.Unstopping := fun t th ht hst => by
  have := h.phase t th ht
  rw [hst] at this
  cases this

theorem Rests.unmask (t : Slot) (s : Sig) (actions : Sig → Action) : Rests (p.unmask t s actions) := by
  have hm := h.modify t (f := fun th => { th with mask := update th.mask s false }) fun _ => id
  exact ⟨hm.stopped, hm.phase⟩

theorem Rests.clear [Inhabited D] (s : Sig) : Rests (p.clear s) := by
  have hp : ∀ q, Rests { p with pending := q } := fun _ => ⟨h.stopped, h.phase⟩
  exact (hp _).map fun _ _ hth => hth

theorem Rests.takeSet [Inhabited D] (t : Slot) (th : Thread D) (set : SigSet) (honor : Bool) :
    Rests (p.takeSet t th set honor).1 := by
  unfold Proc.takeSet
  split
  · exact h
  split_ifs
  · split
    · exact ⟨h.stopped, h.phase⟩
    · exact h.modify t fun _ => id
  · split
    · exact ⟨h.stopped, h.phase⟩
    · have hp : ∀ q, Rests { p with pending := q } := fun _ => ⟨h.stopped, h.phase⟩
      exact iteInduction (fun _ => hp _) fun _ => (hp _).map fun _ _ => id

end

/-! ## Generation -/

/-- Generating the signal leaves the process at rest. -/
def Ready (p : Proc D) (s : Sig) : Prop := Rests p ∨ resumes s = true ∧ p.Unstopping

theorem Ready.prepareGroup [Inhabited D] (h : Ready p s) : Rests (p.prepareGroup s) := by
  have hun : p.Unstopping := h.elim Rests.unstopping And.right
  unfold Proc.prepareGroup
  split_ifs with hcont hstop hkill
  · refine Proc.Unstopping.wakeAll (fun t th ht => ?_) rfl
    simp only [clear, mapThreads, map_map] at ht
    obtain ⟨th', ht', rfl⟩ := map_eq_some_iff.mp ht
    exact hun t th' ht'
  · rcases h with h | ⟨hs, -⟩
    · exact h.clear linuxSigcont
    · rcases of_resumes hs with rfl | rfl <;> cases hstop
  · exact Proc.Unstopping.wakeAll hun rfl
  · exact h.resolve_right fun hs => (of_resumes hs.1).elim hcont hkill

theorem Ready.queueProcess [Inhabited D] (h : Ready p s) (hno : p.live = false → Rests p)
    (information : Option (Info D)) (malloc : Bool) : Rests (p.queueProcess s information malloc) := by
  have hr := h.prepareGroup
  refine iteInduction (fun hlive => hno (by simpa using hlive)) fun _ => iteInduction (fun _ => hr) fun _ => ?_
  split
  · exact hr
  · refine Rests.retargeted ?_ ((Retargeted.refl _).retarget s none)
    exact Proc.Unstopping.wakeAll hr.unstopping hr.stopped

theorem Ready.queueThread [Inhabited D] (h : Ready p s) (information : Option (Info D)) (malloc : Bool)
    (hno : p.reachable t = false → Rests p) :
    Rests (p.queueThread t s information malloc) := by
  have hr := h.prepareGroup
  cases hreach : p.reachable t with
  | false =>
    rw [queueThread_unreachable hreach]
    exact hno hreach
  | true =>
    unfold Proc.queueThread
    split
    · next ht => simp [Proc.reachable, ht] at hreach
    next th ht =>
    refine iteInduction (fun hd => hno ?_) fun _ => iteInduction (fun _ => hr) fun _ => ?_
    · rw [Proc.reachable, ht]
      revert hd
      cases p.live <;> simp
    split
    · exact hr
    · next q _ =>
      have hw := hr.modify t (f := fun th => { th with pending := q }) fun _ => id
      have hw' := Proc.Unstopping.wakeAll hw.unstopping hw.stopped
      exact iteInduction (fun _ => hw') fun _ => hw'.retargeted ((Retargeted.refl _).targetWake t)

/-! ## Every step -/

theorem Rests.userReturn [Inhabited D] (h : Rests p) (hi : SigInv p)
    (hpending : ∀ s, signalDefaultStops s = true → ¬ p.Has s)
    (ht : p.thread t = some th) {frame : Bool} : Rests (p.signalUserReturn t th frame) := by
  unfold signalUserReturn
  simp only [h.stopped, Bool.false_and, Bool.false_eq_true, if_false]
  have htake := h.takeSet t th (fun s => !th.mask s) true
  have hfrom := (hi.takeSet ht (fun s => !th.mask s) true).2
  generalize p.takeSet t th (fun s => !th.mask s) true = r at htake hfrom
  obtain ⟨p₁, _ | ⟨s, info⟩⟩ := r
  · refine iteInduction (fun _ => ?_) fun _ => htake.setPhase t rfl
    exact (htake.modify t fun _ _ => rfl).retargeted ((Retargeted.refl _).retargetAll _ _)
  -- a stop signal is not among those that can be taken
  have hstop : signalDefaultStops s = false := by
    by_contra hne
    refine hpending s (by simpa using hne) ?_
    have hav := hfrom.1
    simp only [available, and_eq_true, or_eq_true] at hav
    exact hav.1.elim (fun hb => .inr ⟨t, th, ht, hb⟩) fun hb => .inl hb.1
  simp only
  split
  · exact htake.setPhase t rfl
  · refine htake.setPhase t ?_
    rw [hstop]
    split
    · rfl
    · rfl
  · have hr : Rests ((p₁.modify t fun th => { th with
        phase := if frame then .running else .dying
        mask := handlerMask th (p₁.actions s) s
        restoreMask := false }).maskChanged) := by
      refine Rests.retargeted (htake.modify t fun _ _ => ?_) ((Retargeted.refl _).retargetAll _ _)
      cases frame <;> rfl
    exact iteInduction (fun _ => ⟨hr.stopped, hr.phase⟩) fun _ => hr

theorem Rests.act (h : Rests p) {ok : Phase → Bool} {f : Thread D → Proc D}
    (hf : ∀ th, p.thread t = some th → ok th.phase = true → Rests (f th)) : Rests (p.act t ok f) := by
  unfold Proc.act
  cases ht : p.thread t with
  | none => exact h
  | some th => exact iteInduction (fun hok => hf th ht hok) fun _ => h

theorem Calm.rests_step [Inhabited D] (h : Calm p) (hi : SigInv p) : Rests (p.step e) := by
  have hr := h.toRests
  have hfields : ∀ actions groupExiting live, Rests { p with
      actions := actions, groupExiting := groupExiting, live := live } := fun _ _ _ => ⟨h.stopped, h.phase⟩
  have hmask : ∀ {p' : Proc D}, Rests p' → Rests p'.maskChanged := fun h' =>
    h'.retargeted ((Retargeted.refl _).retargetAll _ _)
  unfold Proc.step
  cases e with
  | queueProcess s information malloc => exact Ready.queueProcess (.inl hr) (fun _ => hr) information malloc
  | queueThread t s information malloc => exact Ready.queueThread (.inl hr) information malloc fun _ => hr
  | forceFault t s data =>
    refine hr.act fun th _ _ => ?_
    obtain ⟨actions, heq⟩ := p.forceFault_eq t s data
    rw [heq]
    have hu := hr.unmask t s actions
    exact Ready.queueThread (.inl hu) _ _ fun _ => hu
  | userReturn => exact hr.act fun th ht _ => hr.userReturn hi h.pending ht
  | stopMark t =>
    refine hr.act fun th ht hk => ?_
    exact absurd (of_decide_eq_true hk) (hr.unstopping t th ht)
  | stopLoop t =>
    refine hr.act fun _ _ _ => hr.setPhase t ?_
    rw [h.stopped]
    rfl
  | signalExit => exact hr.act fun _ _ _ => Proc.Unstopping.wakeAll hr.unstopping rfl
  | timedWait t => exact hr.act fun th _ _ => hr.takeSet t th _ _
  | procmask t how mask | sigreturn t mask | sigsuspend t mask =>
    exact hr.act fun _ _ _ => hmask (hr.modify t fun _ => id)
  | sigaction t s =>
    refine hr.act fun _ _ _ => iteInduction (fun _ => hr) fun _ => ?_
    exact iteInduction (fun _ => (hfields _ p.groupExiting p.live).clear s) fun _ => hfields _ _ _
  | exec t => exact hr.act fun _ _ _ => hmask ((hfields _ _ _).modify t fun _ => id)
  | clone t child =>
    refine hr.act fun th ht _ => iteInduction (fun _ => hr) fun _ => ⟨h.stopped, fun u th' hu => ?_⟩
    dsimp only at hu
    by_cases he : u = child
    · rw [he, update_self] at hu
      cases hu
      rfl
    · rw [update_of_ne he] at hu
      exact (hr.setPhase t rfl).phase u th' hu
  | start t =>
    dsimp only
    split
    · exact (hr.setPhase t rfl).setPhase _ rfl
    · exact hr
  | sleepCheck t => exact hr.act fun _ _ _ => iteInduction (fun _ => hr) fun _ => hr.setPhase t rfl
  | sleepCommit t =>
    dsimp only
    split
    · split
      · refine hr.setPhase t ?_
        split_ifs <;> rfl
      · exact hr
    · exact hr
  | wake t => exact hr.act fun _ _ _ => hr.setPhase t rfl
  | exit t group =>
    refine hr.act fun th _ _ => ?_
    have hdetached := (hfields p.actions (p.groupExiting || group) p.live).retargeted (.detach _ t th)
    have hx := hdetached.setPhase t (k := .exiting) rfl
    exact iteInduction (fun _ => Proc.Unstopping.wakeAll hx.unstopping hx.stopped) fun _ => hx
  | exited t =>
    have hx := hr.setPhase t (k := .exited) rfl
    exact hr.act fun _ _ _ => ⟨hx.stopped, hx.phase⟩
  | free t =>
    refine hr.act fun th _ _ => ?_
    have hx := hr.retargeted (.detach p t th)
    refine ⟨hx.stopped, fun u th' hu => ?_⟩
    dsimp only at hu
    by_cases he : u = t
    · simp [he] at hu
    · rw [update_of_ne he] at hu
      exact hx.phase u th' hu

theorem Ready.rests_step [Inhabited D] (h : Ready p s) (he : e.generates p = some s) : Rests (p.step e) := by
  cases e with
  | queueProcess s' information malloc =>
    simp only [generates] at he
    split_ifs at he with hlive
    cases he
    exact h.queueProcess (fun hno => by simp [hlive] at hno) information malloc
  | queueThread t s' information malloc =>
    simp only [generates] at he
    split_ifs at he with hreach
    cases he
    exact h.queueThread information malloc fun hno => by simp [hreach] at hno
  | forceFault t s' data =>
    obtain ⟨rfl, th, ht, hrun, hlive⟩ := generates_forceFault he
    obtain ⟨actions, heq⟩ := p.forceFault_eq t s' data
    simp only [Proc.step, Proc.act, ht, hrun, decide_true, if_true, heq]
    refine Ready.queueThread (h.imp (fun hr => hr.unmask t s' actions) fun hr => ⟨hr.1, fun u th' hu => ?_⟩) _ _
      fun hno => ?_
    · obtain ⟨th₁, hu₁, rfl⟩ := map_eq_some_iff.mp hu
      have := hr.2 u th₁ hu₁
      dsimp only
      split_ifs <;> exact this
    · rw [Proc.unmask_reachable ht hrun, hlive] at hno
      cases hno
  | _ => cases he

theorem SigInv.step_beaten [Inhabited D] (h : SigInv p) (he : e.generates p = some s) :
    ∀ x ∈ beats s, ¬ (p.step e).Has x := by
  cases e with
  | queueProcess s' information malloc =>
    simp only [generates] at he
    split_ifs at he with hlive
    cases he
    exact (h.queueProcess s information malloc).2 hlive
  | queueThread t s' information malloc =>
    simp only [generates] at he
    split_ifs at he with hreach
    cases he
    exact (h.queueThread t s information malloc).2 hreach
  | forceFault t s' data =>
    obtain ⟨rfl, th, ht, hrun, hlive⟩ := generates_forceFault he
    obtain ⟨actions, heq⟩ := p.forceFault_eq t s' data
    simp only [Proc.step, Proc.act, ht, hrun, decide_true, if_true, heq]
    exact ((h.unmask t s' actions).inv.queueThread t s' _ true).2 (by rw [Proc.unmask_reachable ht hrun, hlive])
  | _ => cases he

/-- The signals that are generated keep the note right. -/
theorem SigInv.calm_step [Inhabited D] {b : Bool} (hi : SigInv p) (h : b = true → Calm p) (he : Undisturbed p e)
    (hb : resumed p b e = true) : Calm (p.step e) := by
  unfold resumed at hb
  cases hgen : e.generates p with
  | none =>
    rw [hgen] at hb
    refine ⟨(h hb).rests_step hi, fun x hx hhas => ?_⟩
    rcases hi.step_has hhas with hp | hp
    · exact (h hb).pending x hx hp
    · rw [hgen] at hp
      cases hp
  | some s =>
    simp only [hgen] at hb
    by_cases hs : resumes s = true
    · obtain ⟨hun, hkill⟩ := he s hgen hs
      refine ⟨Ready.rests_step (.inr ⟨hs, hun⟩) hgen, fun x hx hhas => ?_⟩
      rcases of_resumes hs with rfl | rfl
      · exact hi.step_beaten hgen x (mem_beats_cont.mpr hx) hhas
      rcases hi.step_has hhas with hp | hp
      · exact hkill rfl x hx hp
      · rw [hgen] at hp
        cases hp
        cases hx
    · rw [if_neg hs] at hb
      split_ifs at hb with hstop
      refine ⟨(h hb).rests_step hi, fun x hx hhas => ?_⟩
      rcases hi.step_has hhas with hp | hp
      · exact (h hb).pending x hx hp
      · rw [hgen] at hp
        cases hp
        exact hstop hx

/-- **Continue and kill beat an earlier stop**, in every run in which no stop signal is on its way or, for SIGKILL,
    pending when they are generated. -/
theorem resumed_calm [Inhabited D] (mask : SigSet) (actions : Sig → Action) (l : List (Event D))
    (hl : Runs.Along Proc.step Undisturbed (fork mask actions) l)
    (hb : Runs.record Proc.step resumed (fork mask actions) false l = true) :
    (l.foldl Proc.step (fork mask actions)).stopped = false ∧
      ∀ t th, (l.foldl Proc.step (fork mask actions)).thread t = some th →
        th.phase ≠ .stopWait true ∧ th.phase ≠ .returnWait true := by
  have h : SigInv (l.foldl Proc.step (fork mask actions : Proc D)) ∧
      (Runs.record Proc.step resumed (fork mask actions : Proc D) false l = true → Calm _) :=
    Runs.Along.invariant (I := fun b (p : Proc D) => SigInv p ∧ (b = true → Calm p))
      (fun b p e h he => ⟨(h.1.step e).inv, h.1.calm_step h.2 he⟩) ⟨.fork mask actions, nofun⟩ hl
  have hc := h.2 hb
  refine ⟨hc.stopped, fun t th ht => ?_⟩
  have := hc.phase t th ht
  constructor <;> intro hp <;> rw [hp] at this <;> cases this

/-- The state of a process after a run; it starts with default actions and nothing blocked. -/
def after (l : List (Event Unit)) : Proc Unit := l.foldl Proc.step (.fork (fun _ => false) fun _ => .zero)

theorem Proc.unstopping_of_all (h : ∀ t, (p.thread t).all (·.phase ≠ .stopping) = true) : p.Unstopping := by
  intro t th ht
  have := h t
  rw [ht] at this
  simpa using this

def stopContinue : List (Event Unit) :=
  [.queueProcess linuxSigstop none true, .userReturn 0 true, .stopMark 0, .stopLoop 0,
    .queueProcess linuxSigcont none true]

/-- A process is stopped and continued. -/
theorem resumed_calm_continue : (after stopContinue).stopped = false := by
  refine (resumed_calm _ _ stopContinue ?_ (by decide +kernel)).1
  refine ⟨?_, by rintro _ ⟨⟩, by rintro _ ⟨⟩, by rintro _ ⟨⟩, ?_, trivial⟩
  · rintro _ ⟨⟩ hs
    cases hs
  · rintro _ ⟨⟩ -
    exact ⟨unstopping_of_all (p := after (stopContinue.take 4)) (by decide +kernel), fun he => absurd he (by decide)⟩

/-- A thread that has taken SIGSTOP stops the process although SIGCONT has been generated meanwhile, and sleeps. -/
theorem stop_after_continue : ∃ l : List (Event Unit),
    Runs.record Proc.step resumed (after []) false l = true ∧ (after l).stopped = true ∧ (after l).Unstopping ∧
      ((after l).thread 0).map Thread.phase = some (.stopWait true) := by
  refine ⟨[.queueProcess linuxSigstop none true, .userReturn 0 true, .queueProcess linuxSigcont none true,
    .stopMark 0, .stopLoop 0], by decide +kernel, by decide +kernel, ?_, by decide +kernel⟩
  exact unstopping_of_all (by decide +kernel)

end Caffeinix.Signal
