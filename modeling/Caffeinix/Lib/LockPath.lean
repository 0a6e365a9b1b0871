import Mathlib.Data.List.Basic

/-!
# `Lib.LockPath` — what a call does with locks, and lock disciplines

The lock path of a call: the locks it takes, with what it does while it owns them, and the places where it
waits for something else. Locks are taken and given back in brackets, so a path is a tree; `events` is its
flat reading.

A lock discipline says which request may be made while which lock is owned, one owned lock at a time. A path
keeps a discipline when every request inside a bracket may be made under the lock of that bracket
(`Path.Keeps`); what is requested under the locks owned already at the call is in `Path.requests`. `Follows` is
the same for the rest of a flat path, which is what a running thread has before it.
-/

namespace Caffeinix.LockPath

open List

variable {L α : Type*}

/-- What can make a thread wait. -/
inductive Request (L : Type*) where
  | acquire (l : L)
  /-- a wait for something that is no lock -/
  | wait
deriving DecidableEq

inductive Event (L : Type*) where
  | request (r : Request L)
  | release (l : L)
deriving DecidableEq

inductive Path (L : Type*) where
  | done
  | wait (rest : Path L)
  /-- take the lock, go the path `inner`, give the lock back, go on -/
  | locked (l : L) (inner rest : Path L)
deriving DecidableEq

namespace Path

/-- One path after the other. -/
def append : Path L → Path L → Path L
  | .done, q => q
  | .wait p, q => .wait (p.append q)
  | .locked l inner p, q => .locked l inner (p.append q)

instance : Append (Path L) := ⟨append⟩

/-- The path through a critical section. -/
def holding (l : L) (inner : Path L) : Path L := .locked l inner .done

/-- A single wait. -/
def pause : Path L := .wait .done

/-- A loop over a list. -/
def each (f : α → Path L) : List α → Path L
  | [] => .done
  | a :: as => f a ++ each f as

/-- A part of the path that may not be gone. -/
def whenever (f : α → Path L) : Option α → Path L
  | none => .done
  | some a => f a

def requests : Path L → List (Request L)
  | .done => []
  | .wait p => .wait :: p.requests
  | .locked l inner p => .acquire l :: (inner.requests ++ p.requests)

def events : Path L → List (Event L)
  | .done => []
  | .wait p => .request .wait :: p.events
  | .locked l inner p => .request (.acquire l) :: (inner.events ++ .release l :: p.events)

/-- Every request made inside a bracket may be made under the lock of the bracket. -/
def Keeps (may : L → Request L → Prop) : Path L → Prop
  | .done => True
  | .wait p => p.Keeps may
  | .locked l inner p => (∀ r ∈ inner.requests, may l r) ∧ inner.Keeps may ∧ p.Keeps may

/-- All locks that are requested belong to the set. -/
def Only (S : L → Prop) (p : Path L) : Prop := ∀ l, .acquire l ∈ p.requests → S l

variable {may : L → Request L → Prop} {S S' : L → Prop} {p q : Path L} {l : L} {f : α → Path L} {as : List α}
  {o : Option α}

/-! ## The parts of a path -/

@[simp] theorem done_append : (.done : Path L) ++ q = q := rfl

@[simp] theorem wait_append : .wait p ++ q = .wait (p ++ q) := rfl

@[simp] theorem locked_append {inner : Path L} : .locked l inner p ++ q = .locked l inner (p ++ q) := rfl

@[simp] theorem requests_done : (.done : Path L).requests = [] := rfl

@[simp] theorem requests_pause : (pause : Path L).requests = [.wait] := rfl

@[simp] theorem requests_holding : (holding l p).requests = .acquire l :: p.requests := by
  simp [holding, requests]

@[simp] theorem requests_append (p q : Path L) : (p ++ q).requests = p.requests ++ q.requests := by
  induction p with
  | done => rfl
  | wait p ih => simp [requests, ih]
  | locked l inner p _ ih => simp [requests, ih]

variable {r : Request L}

@[simp] theorem mem_requests_each : r ∈ (each f as).requests ↔ ∃ a ∈ as, r ∈ (f a).requests := by
  induction as with
  | nil => simp [each]
  | cons a as ih => simp [each, ih]

@[simp] theorem keeps_done : (.done : Path L).Keeps may := trivial

@[simp] theorem keeps_pause : (pause : Path L).Keeps may := trivial

@[simp] theorem keeps_holding : (holding l p).Keeps may ↔ (∀ r ∈ p.requests, may l r) ∧ p.Keeps may := by
  simp [holding, Keeps]

@[simp] theorem keeps_append : (p ++ q).Keeps may ↔ p.Keeps may ∧ q.Keeps may := by
  induction p with
  | done => simp
  | wait p ih => exact ih
  | locked l inner p _ ih => simp [Keeps, ih, and_assoc]

@[simp] theorem keeps_each : (each f as).Keeps may ↔ ∀ a ∈ as, (f a).Keeps may := by
  induction as with
  | nil => simp [each]
  | cons a as ih => simp [each, ih]

@[simp] theorem keeps_whenever : (whenever f o).Keeps may ↔ ∀ a ∈ o, (f a).Keeps may := by
  cases o <;> simp [whenever]

@[simp] theorem only_done : (.done : Path L).Only S := fun _ h => absurd h not_mem_nil

@[simp] theorem only_pause : (pause : Path L).Only S := by simp [Only]

@[simp] theorem only_holding : (holding l p).Only S ↔ S l ∧ p.Only S := by simp [Only]

@[simp] theorem only_append : (p ++ q).Only S ↔ p.Only S ∧ q.Only S := by
  simp only [Only, requests_append, mem_append]
  exact ⟨fun h => ⟨fun l hl => h l (.inl hl), fun l hl => h l (.inr hl)⟩, fun h l hl => hl.elim (h.1 l) (h.2 l)⟩

@[simp] theorem only_each : (each f as).Only S ↔ ∀ a ∈ as, (f a).Only S := by
  simp only [Only, mem_requests_each]
  exact ⟨fun h a ha l hl => h l ⟨a, ha, hl⟩, fun h l ⟨a, ha, hl⟩ => h a ha l hl⟩

@[simp] theorem only_whenever : (whenever f o).Only S ↔ ∀ a ∈ o, (f a).Only S := by
  cases o <;> simp [whenever]

/-- A path under a lock that allows the locks it requests, and waits. -/
theorem Only.allowed (hp : p.Only fun k => may l (.acquire k)) (hwait : may l .wait) :
    ∀ r ∈ p.requests, may l r := by
  intro r hr
  cases r with
  | acquire k => exact hp k hr
  | wait => exact hwait

/-! ## Both at once -/

/-- The path requests locks of the set, and keeps the discipline. -/
def Fits (may : L → Request L → Prop) (S : L → Prop) (p : Path L) : Prop := p.Only S ∧ p.Keeps may

@[simp] theorem fits_done : (.done : Path L).Fits may S := ⟨only_done, keeps_done⟩

@[simp] theorem fits_pause : (pause : Path L).Fits may S := ⟨only_pause, keeps_pause⟩

@[simp] theorem fits_append : (p ++ q).Fits may S ↔ p.Fits may S ∧ q.Fits may S := by
  simp only [Fits, only_append, keeps_append, and_and_and_comm]

@[simp] theorem fits_each : (each f as).Fits may S ↔ ∀ a ∈ as, (f a).Fits may S := by
  simp only [Fits, only_each, keeps_each, forall_and]

@[simp] theorem fits_whenever : (whenever f o).Fits may S ↔ ∀ a ∈ o, (f a).Fits may S := by
  simp only [Fits, only_whenever, keeps_whenever, forall_and]

theorem Fits.ite {c : Prop} [Decidable c] (hp : p.Fits may S) (hq : q.Fits may S) :
    (if c then p else q).Fits may S :=
  iteInduction (fun _ => hp) fun _ => hq

theorem Fits.mono (h : p.Fits may S) (hS : ∀ l, S l → S' l) : p.Fits may S' :=
  ⟨fun l hl => hS l (h.1 l hl), h.2⟩

/-- A critical section: what is requested in it may be requested under the lock, too. -/
theorem Fits.holding (hl : S l) (hwait : may l .wait) (hp : p.Fits may fun k => S k ∧ may l (.acquire k)) :
    (holding l p).Fits may S := by
  refine ⟨only_holding.2 ⟨hl, fun k hk => (hp.1 k hk).1⟩, keeps_holding.2 ⟨?_, hp.2⟩⟩
  exact Only.allowed (fun k hk => (hp.1 k hk).2) hwait

end Path

/-! ## Flat paths -/

/-- The events keep the discipline from the locks owned, give back the lock taken last, and end with none. -/
def Follows (may : L → Request L → Prop) : List L → List (Event L) → Prop
  | held, [] => held = []
  | held, .request (.acquire l) :: es => (∀ h ∈ held, may h (.acquire l)) ∧ Follows may (l :: held) es
  | held, .request .wait :: es => (∀ h ∈ held, may h .wait) ∧ Follows may held es
  | held, .release l :: es => ∃ rest, held = l :: rest ∧ Follows may rest es

variable {may : L → Request L → Prop}

variable {es : List (Event L)} {held : List L} {p : Path L}

/-- A path that keeps the discipline may be gone under locks that allow its requests. -/
theorem Follows.path (hp : p.Keeps may) (hheld : ∀ h ∈ held, ∀ r ∈ p.requests, may h r)
    (hes : Follows may held es) : Follows may held (p.events ++ es) := by
  induction p generalizing held es with
  | done => exact hes
  | wait p ih =>
    refine ⟨fun h hh => hheld h hh _ mem_cons_self, ih hp (fun h hh r hr => ?_) hes⟩
    exact hheld h hh r (mem_cons_of_mem _ hr)
  | locked l inner p ihi ihp =>
    obtain ⟨hl, hi, hp⟩ := hp
    show Follows may held (.request (.acquire l) :: ((inner.events ++ .release l :: p.events) ++ es))
    refine ⟨fun h hh => hheld h hh _ mem_cons_self, ?_⟩
    rw [append_assoc]
    -- inside the bracket the lock is owned on top of the others, after it the others are left
    refine ihi hi (fun h hh r hr => ?_) ⟨held, rfl, ihp hp (fun h hh r hr => ?_) hes⟩
    · cases hh with
      | head => exact hl r hr
      | tail _ hh => exact hheld h hh r (mem_cons_of_mem _ (mem_append_left _ hr))
    · exact hheld h hh r (mem_cons_of_mem _ (mem_append_right _ hr))

/-- A call made with no lock owned. -/
theorem Follows.call (hp : p.Keeps may) : Follows may [] p.events := by
  have h : Follows may [] (p.events ++ []) := .path hp (fun k hk => absurd hk not_mem_nil) rfl
  rwa [append_nil] at h

/-- The next request is allowed by every lock owned. -/
theorem Follows.next {r : Request L} (h : Follows may held (.request r :: es)) : ∀ k ∈ held, may k r := by
  cases r with
  | acquire => exact h.1
  | wait => exact h.1

end Caffeinix.LockPath
