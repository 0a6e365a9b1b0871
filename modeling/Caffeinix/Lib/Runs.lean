import Mathlib.Data.List.Basic

/-!
# `Lib.Runs` — invariants of runs

A system makes steps, `step s a` for the action `a` in the state `s`; a run is a list of actions. `Along`
says that every action of a run meets a condition in the state it is made in, `record` folds what is noted
about the actions. The rule at the end: what every step keeps, under the condition and with the notes, holds
after the run.
-/

namespace Caffeinix.Runs

variable {σ α γ : Type*}

/-- Every action of the run meets the condition in the state it is made in. -/
def Along (step : σ → α → σ) (p : σ → α → Prop) : σ → List α → Prop
  | _, [] => True
  | s, a :: l => p s a ∧ Along step p (step s a) l

/-- What has been noted after the run. -/
def record (step : σ → α → σ) (note : σ → γ → α → γ) : σ → γ → List α → γ
  | _, c, [] => c
  | s, c, a :: l => record step note (step s a) (note s c a) l

instance decidableAlong (step : σ → α → σ) (p : σ → α → Prop) [∀ s a, Decidable (p s a)] :
    (s : σ) → (l : List α) → Decidable (Along step p s l)
  | _, [] => isTrue trivial
  | s, a :: l =>
    have := decidableAlong step p (step s a) l
    inferInstanceAs (Decidable (p s a ∧ Along step p (step s a) l))

variable {step : σ → α → σ} {note : σ → γ → α → γ} {p q : σ → α → Prop} {s : σ}

theorem Along.mono (h : ∀ s a, p s a → q s a) : ∀ {s : σ} {l : List α}, Along step p s l → Along step q s l
  | _, [], _ => trivial
  | _, _ :: _, ⟨ha, hl⟩ => ⟨h _ _ ha, .mono h hl⟩

/-- A condition that all actions meet in every state. -/
theorem Along.of_forall (h : ∀ s a, p s a) : ∀ (s : σ) (l : List α), Along step p s l
  | _, [] => trivial
  | s, a :: l => ⟨h s a, .of_forall h (step s a) l⟩

/-- A condition on the actions alone. -/
theorem Along.of_mem {p : α → Prop} : ∀ {s : σ} {l : List α}, (∀ a ∈ l, p a) → Along step (fun _ a => p a) s l
  | _, [], _ => trivial
  | _, _ :: _, h => ⟨h _ List.mem_cons_self, .of_mem fun a ha => h a (List.mem_cons_of_mem _ ha)⟩

theorem Along.and : ∀ {s : σ} {l : List α}, Along step p s l → Along step q s l →
    Along step (fun s a => p s a ∧ q s a) s l
  | _, [], _, _ => trivial
  | _, _ :: _, ⟨hp, hl⟩, ⟨hq, hl'⟩ => ⟨⟨hp, hq⟩, hl.and hl'⟩

variable {l : List α} {I : σ → Prop}

/-- **The rule**: a relation between the notes and the state that every step keeps holds after every run. -/
theorem Along.invariant {I : γ → σ → Prop} (hstep : ∀ c s a, I c s → p s a → I (note s c a) (step s a))
    {c : γ} (hi : I c s) (hl : Along step p s l) : I (record step note s c l) (l.foldl step s) := by
  induction l generalizing s c with
  | nil => exact hi
  | cons a l ih => exact ih (hstep c s a hi hl.1) hl.2

/-- The rule without notes. -/
theorem Along.foldl (hstep : ∀ s a, I s → p s a → I (step s a)) (hi : I s) (hl : Along step p s l) :
    I (l.foldl step s) := by
  induction l generalizing s with
  | nil => exact hi
  | cons a l ih => exact ih (hstep s a hi hl.1) hl.2

/-- The rule without notes and conditions. -/
theorem foldl_invariant (hstep : ∀ s a, I s → I (step s a)) (hi : I s) (l : List α) : I (l.foldl step s) := by
  induction l generalizing s with
  | nil => exact hi
  | cons a l ih => exact ih (hstep s a hi)

end Caffeinix.Runs
