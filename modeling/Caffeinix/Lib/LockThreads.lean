import Mathlib.Logic.Function.Basic
import Mathlib.Logic.Relation
import Caffeinix.Lib.LockPath
import Caffeinix.Lib.Runs

/-!
# `Lib.LockThreads` — threads that take locks

Threads make calls, and each call is a lock path. In a step one thread goes on by one event of its path; a
thread that requests a lock with an owner, itself or another thread, stays where it is. Any thread may be the
next to make a step, so a run is any interleaving.

When every call of a run keeps a discipline, so does every request of every thread against the locks it owns
(`Kept`). For the discipline of a lock order the consequence is the classical one: the threads do not wait for
each other in a circle (`no_circular_wait`).
-/

namespace Caffeinix.LockPath

open Runs
open Function (update update_eq_self update_of_ne update_self)

/-- The owner of each lock, the locks of each thread and what is left of its call. -/
structure Threads (T L : Type*) where
  owner : L → Option T
  held : T → List L
  todo : T → List (Event L)

/-- A step: a thread without a call makes one, or a thread goes on with its call. -/
inductive Step (T C : Type*) where
  | begin (t : T) (call : C)
  | next (t : T)
deriving DecidableEq

variable {T L C : Type*}

namespace Threads

def boot : Threads T L := ⟨fun _ => none, fun _ => [], fun _ => []⟩

def begin [DecidableEq T] (s : Threads T L) (t : T) (p : Path L) : Threads T L :=
  if (s.todo t).isEmpty then { s with todo := update s.todo t p.events } else s

def next [DecidableEq T] [DecidableEq L] (s : Threads T L) (t : T) : Threads T L :=
  match s.todo t with
  | [] => s
  | .request (.acquire l) :: es =>
    if (s.owner l).isSome then s
    else
      { owner := update s.owner l (some t)
        held := update s.held t (l :: s.held t)
        todo := update s.todo t es }
  | .request .wait :: es => { s with todo := update s.todo t es }
  | .release l :: es =>
    { owner := update s.owner l none
      held := update s.held t ((s.held t).erase l)
      todo := update s.todo t es }

def step [DecidableEq L] [DecidableEq T] (path : C → Path L) (s : Threads T L) : Step T C → Threads T L
  | .begin t call => s.begin t (path call)
  | .next t => s.next t

/-- The request a thread is at. -/
def request (s : Threads T L) (t : T) : Option (Request L) :=
  match s.todo t with
  | .request r :: _ => some r
  | _ => none

/-- One thread is at the request of a lock, out of those considered, that the other owns. -/
def WaitsFor (considered : L → Prop) (s : Threads T L) (t u : T) : Prop :=
  ∃ l, considered l ∧ s.request t = some (.acquire l) ∧ s.owner l = some u

/-! ## Kept disciplines -/

/-- The owners are the threads that have the lock, and what is left of the calls keeps the discipline. -/
structure Kept (may : L → Request L → Prop) (s : Threads T L) : Prop where
  owner : ∀ l t, s.owner l = some t ↔ l ∈ s.held t
  nodup : ∀ t, (s.held t).Nodup
  follows : ∀ t, Follows may (s.held t) (s.todo t)

variable {may : L → Request L → Prop} {s : Threads T L} {t u : T} {l : L} {r : Request L}
  {path : C → Path L}

theorem todo_of_request (h : s.request t = some r) : ∃ es, s.todo t = .request r :: es := by
  unfold request at h
  split at h
  · rename_i es he
    cases h
    exact ⟨es, he⟩
  · cases h

theorem Kept.boot : (Threads.boot : Threads T L).Kept may where
  owner l t := by simp [Threads.boot]
  nodup t := List.nodup_nil
  follows t := rfl

theorem Kept.begin [DecidableEq T] {p : Path L} (hs : s.Kept may) (hp : p.Keeps may) : (s.begin t p).Kept may := by
  unfold Threads.begin
  split_ifs with hidle
  · refine ⟨hs.owner, hs.nodup, fun u => ?_⟩
    show Follows may (s.held u) (update s.todo t p.events u)
    by_cases hu : u = t
    · subst hu
      -- a thread without a call owns nothing
      have hheld := hs.follows u
      rw [List.isEmpty_iff.1 hidle] at hheld
      rw [update_self, show s.held u = [] from hheld]
      exact .call hp
    · rw [update_of_ne hu]
      exact hs.follows u
  · exact hs

/-- The state after a step of `t`, where `t` has the locks `mine` and the events `rest` left. -/
theorem Kept.moves [DecidableEq T] {mine : List L} {rest : List (Event L)} {owner : L → Option T} (hs : s.Kept may)
    (hmine : ∀ l, owner l = some t ↔ l ∈ mine)
    (hothers : ∀ l u, u ≠ t → (owner l = some u ↔ s.owner l = some u)) (hnodup : mine.Nodup)
    (hrest : Follows may mine rest) :
    (⟨owner, update s.held t mine, update s.todo t rest⟩ : Threads T L).Kept may where
  owner l u := by
    by_cases hu : u = t
    · subst hu
      simpa using hmine l
    · simpa [update_of_ne hu] using (hothers l u hu).trans (hs.owner l u)
  nodup u := by
    by_cases hu : u = t
    · subst hu
      simpa using hnodup
    · simpa [update_of_ne hu] using hs.nodup u
  follows u := by
    by_cases hu : u = t
    · subst hu
      simpa using hrest
    · simpa [update_of_ne hu] using hs.follows u

theorem Kept.next [DecidableEq L] [DecidableEq T] (hs : s.Kept may) (t : T) : (s.next t).Kept may := by
  have hf := hs.follows t
  unfold Threads.next
  split
  · exact hs
  · rename_i l es he
    rw [he] at hf
    split_ifs with howned
    · exact hs
    -- the lock is free: it goes to the thread
    have hfree : s.owner l = none := by simpa using howned
    have hnew : ∀ u, l ∉ s.held u := by
      intro u hu
      rw [← hs.owner, hfree] at hu
      cases hu
    refine hs.moves (fun k => ?_) (fun k u hu => ?_) (List.nodup_cons.2 ⟨hnew t, hs.nodup t⟩) hf.2
    · by_cases hk : k = l
      · simp [hk]
      · simp [hk, hs.owner]
    · by_cases hk : k = l
      · subst hk
        simp [hfree, Ne.symm hu]
      · simp [update_of_ne hk]
  · rename_i es he
    rw [he] at hf
    have h := hs.moves (hs.owner · t) (fun _ _ _ => .rfl) (hs.nodup t) hf.2
    rwa [update_eq_self] at h
  · rename_i l es he
    rw [he] at hf
    obtain ⟨rest, hheld, hrest⟩ := hf
    have hnodup := hs.nodup t
    rw [hheld] at hnodup
    obtain ⟨hl, hnodup⟩ := List.nodup_cons.1 hnodup
    have howner : s.owner l = some t := (hs.owner l t).2 (by simp [hheld])
    have hall : ∀ k, s.owner k = some t ↔ k ∈ l :: rest := fun k => by rw [hs.owner, hheld]
    rw [hheld, List.erase_cons_head]
    refine hs.moves (fun k => ?_) (fun k u hu => ?_) hnodup hrest
    · by_cases hk : k = l
      · subst hk
        simp [hl]
      · simp [hall, hk]
    · by_cases hk : k = l
      · subst hk
        simp [howner, Ne.symm hu]
      · simp [update_of_ne hk]

/-- One step, when the call it may begin keeps the discipline. -/
theorem Kept.step [DecidableEq L] [DecidableEq T] {a : Step T C} (hs : s.Kept may)
    (ha : ∀ t call, a = .begin t call → (path call).Keeps may) : (s.step path a).Kept may := by
  cases a with
  | begin t call => exact hs.begin (ha t call rfl)
  | next t => exact hs.next t

/-- **Every run** whose calls keep the discipline. -/
theorem Kept.run [DecidableEq L] [DecidableEq T] {l : List (Step T C)}
    (hl : Along (.step path) (fun _ a => ∀ t call, a = .begin t call → (path call).Keeps may)
      (.boot : Threads T L) l) :
    (l.foldl (.step path) (.boot : Threads T L)).Kept may :=
  hl.foldl (fun _ _ hs ha => hs.step ha) Kept.boot

/-! ## What a kept discipline gives -/

theorem Kept.allowed (hs : s.Kept may) (hr : s.request t = some r) (hl : l ∈ s.held t) : may l r := by
  obtain ⟨es, he⟩ := todo_of_request hr
  have hf := hs.follows t
  rw [he] at hf
  exact hf.next l hl

section Order

variable {considered : L → Prop} {rank : L → Nat}

/-- The discipline of a lock order, for the locks considered. -/
def Ordered (considered : L → Prop) (rank : L → Nat) (l : L) : Request L → Prop
  | .acquire k => considered l → considered k → rank l < rank k
  | .wait => True

/-- What the owner of a requested lock requests itself is higher in the order. -/
theorem Kept.rises {k : L} (hs : s.Kept (Ordered considered rank)) (hl : considered l)
    (howner : s.owner l = some u) (hk : considered k) (hu : s.request u = some (.acquire k)) :
    rank l < rank k :=
  hs.allowed hu ((hs.owner l u).1 howner) hl hk

/-- **No circular wait**, not even of a thread for itself. -/
theorem Kept.no_circular_wait (hs : s.Kept (Ordered considered rank)) :
    ∀ t, ¬ Relation.TransGen (s.WaitsFor considered) t t := by
  intro t ht
  -- along a chain of waits from `t` the requested locks rise
  have rises : ∀ l, considered l → s.request t = some (.acquire l) → ∀ u,
      Relation.TransGen (s.WaitsFor considered) t u →
      ∀ k, considered k → s.request u = some (.acquire k) → rank l < rank k := by
    intro l hl hreq u hu
    induction hu with
    | single h =>
      obtain ⟨l', hl', hreq', howner⟩ := h
      rw [hreq] at hreq'
      cases hreq'
      intro k hk hu
      exact hs.rises hl howner hk hu
    | tail _ h ih =>
      obtain ⟨m, hm, hreq', howner⟩ := h
      intro k hk hu
      exact Nat.lt_trans (ih m hm hreq') (hs.rises hm howner hk hu)
  obtain ⟨u, ⟨l, hl, hreq, -⟩, -⟩ := Relation.TransGen.head'_iff.1 ht
  exact absurd (rises l hl hreq t ht l hl hreq) (Nat.lt_irrefl _)

end Order

end Threads

end Caffeinix.LockPath
