import Mathlib.Data.List.Basic
import Mathlib.Logic.Function.Basic

/-!
# `Lib.NameTree` — directories of named objects

A tree of names is given by the entries of each directory. An entry has a stored name, and `answers` says for
which names it is found; a path is a list of names and is followed from a directory on. The lemmas say which
walks are left alone when an entry is added or removed: one that has come to its end stays when entries are
added, and every walk stays that does not come through the target of an entry which is removed.
-/

namespace Caffeinix.NameTree

open Option Function List

variable {α ν κ : Type*}

structure Entry (ν α : Type*) where
  name : ν
  target : α
deriving DecidableEq

/-! ## Walks -/

section Walks

variable (answers : ν → κ → Bool) (t : α → List (Entry ν α))

/-- The entry of the directory that is found for the name. -/
def find (d : α) (n : κ) : Option (Entry ν α) := (t d).find? fun e => answers e.name n

/-- Where the path leads. -/
def walk : α → List κ → Option α
  | d, [] => some d
  | d, n :: p =>
    match find answers t d n with
    | none => none
    | some e => walk e.target p

/-- The objects the walk comes through, its end included and its beginning not. -/
def visits : α → List κ → List α
  | _, [] => []
  | d, n :: p =>
    match find answers t d n with
    | none => []
    | some e => e.target :: visits e.target p

variable {answers t} {d x : α} {n : κ} {p q : List κ} {e : Entry ν α}

theorem find_mem (h : find answers t d n = some e) : e ∈ t d ∧ answers e.name n = true :=
  ⟨mem_of_find?_eq_some h, find?_some (p := fun e : Entry ν α => answers e.name n) h⟩

theorem find_none (h : find answers t d n = none) (he : e ∈ t d) : answers e.name n = false :=
  Bool.eq_false_iff.mpr (find?_eq_none.mp h e he)

theorem walk_cons (h : find answers t d n = some e) : walk answers t d (n :: p) = walk answers t e.target p := by
  rw [walk, h]

theorem walk_cons_none (h : find answers t d n = none) : walk answers t d (n :: p) = none := by
  rw [walk, h]

theorem visits_cons (h : find answers t d n = some e) :
    visits answers t d (n :: p) = e.target :: visits answers t e.target p := by
  rw [visits, h]

theorem visits_cons_none (h : find answers t d n = none) : visits answers t d (n :: p) = [] := by
  rw [visits, h]

theorem walk_append : walk answers t d (p ++ q) = (walk answers t d p).bind fun c => walk answers t c q := by
  induction p generalizing d with
  | nil => rfl
  | cons n p ih =>
    rw [cons_append]
    cases h : find answers t d n with
    | none => rw [walk_cons_none h, walk_cons_none h, bind_none]
    | some => rw [walk_cons h, walk_cons h, ih]

theorem walk_singleton : walk answers t d [n] = (find answers t d n).map Entry.target := by
  cases h : find answers t d n with
  | none => rw [walk_cons_none h, map_none]
  | some =>
    rw [walk_cons h, map_some]
    rfl

theorem visits_append {c : α} (h : walk answers t d p = some c) :
    visits answers t d (p ++ q) = visits answers t d p ++ visits answers t c q := by
  induction p generalizing d with
  | nil =>
    injection h with h
    rw [h]
    rfl
  | cons n p ih =>
    cases hf : find answers t d n with
    | none =>
      rw [walk_cons_none hf] at h
      cases h
    | some =>
      rw [walk_cons hf] at h
      rw [cons_append, visits_cons hf, visits_cons hf, ih h, cons_append]

/-- What a walk comes through is where a part of it leads. -/
theorem visits_part {y : α} (hy : y ∈ visits answers t d p) : ∃ q, q <+: p ∧ walk answers t d q = some y := by
  induction p generalizing d with
  | nil => exact absurd hy not_mem_nil
  | cons n p ih =>
    cases hf : find answers t d n with
    | none =>
      rw [visits_cons_none hf] at hy
      cases hy
    | some e =>
      rw [visits_cons hf] at hy
      rcases mem_cons.mp hy with rfl | hy
      · refine ⟨[n], prefix_append [n] p, ?_⟩
        rw [walk_cons hf]
        rfl
      · obtain ⟨q, hq, hwalk⟩ := ih hy
        refine ⟨n :: q, (prefix_cons_inj n).mpr hq, ?_⟩
        rw [walk_cons hf]
        exact hwalk

/-- What a walk comes through is the target of an entry. -/
theorem visits_mem {y : α} (hy : y ∈ visits answers t d p) : ∃ c, ∃ e ∈ t c, e.target = y := by
  induction p generalizing d with
  | nil => exact absurd hy not_mem_nil
  | cons n p ih =>
    cases hf : find answers t d n with
    | none =>
      rw [visits_cons_none hf] at hy
      cases hy
    | some e =>
      rw [visits_cons hf] at hy
      rcases mem_cons.mp hy with rfl | hy
      · exact ⟨d, e, (find_mem hf).1, rfl⟩
      · exact ih hy

/-- An object that a walk comes through and does not end in has an entry. -/
theorem visits_entries (h : walk answers t d p = some x) {y : α} (hy : y ∈ visits answers t d p) (hne : y ≠ x) :
    t y ≠ [] := by
  induction p generalizing d with
  | nil => exact absurd hy not_mem_nil
  | cons n p ih =>
    cases hf : find answers t d n with
    | none =>
      rw [walk_cons_none hf] at h
      cases h
    | some e =>
      rw [walk_cons hf] at h
      rw [visits_cons hf] at hy
      rcases mem_cons.mp hy with rfl | hy
      · -- the walk goes on from `y`, by an entry of it
        cases p with
        | nil =>
          injection h with h
          exact absurd h hne
        | cons m =>
          cases hf' : find answers t e.target m with
          | none =>
            rw [walk_cons_none hf'] at h
            cases h
          | some => exact ne_nil_of_mem (find_mem hf').1
      · exact ih h hy

end Walks

/-! ## Entries come and go -/

section Changes

variable [DecidableEq α] [DecidableEq ν] {answers : ν → κ → Bool} {t : α → List (Entry ν α)} {c d x : α} {n : κ}
  {p : List κ} {e e' : Entry ν α}

/-- An entry comes into the directory. -/
def add (t : α → List (Entry ν α)) (d : α) (e : Entry ν α) : α → List (Entry ν α) :=
  Function.update t d (t d ++ [e])

/-- An entry goes from the directory. -/
def remove (t : α → List (Entry ν α)) (d : α) (e : Entry ν α) : α → List (Entry ν α) :=
  Function.update t d ((t d).erase e)

omit [DecidableEq ν] in
theorem add_self : add t d e d = t d ++ [e] := update_self _ _ _

omit [DecidableEq ν] in
theorem add_of_ne (h : c ≠ d) : add t d e c = t c := update_of_ne h _ _

theorem remove_self : remove t d e d = (t d).erase e := update_self _ _ _

theorem remove_of_ne (h : c ≠ d) : remove t d e c = t c := update_of_ne h _ _

variable {a : Entry ν α}

omit [DecidableEq ν] in
theorem mem_add : a ∈ add t d e c ↔ a ∈ t c ∨ c = d ∧ a = e := by
  by_cases hc : c = d
  · rw [hc, add_self, mem_append, mem_singleton]
    simp only [true_and]
  · rw [add_of_ne hc]
    simp only [hc, false_and, or_false]

theorem mem_remove (h : (t d).Nodup) : a ∈ remove t d e c ↔ a ∈ t c ∧ ¬ (c = d ∧ a = e) := by
  by_cases hc : c = d
  · rw [hc, remove_self, h.mem_erase_iff]
    simp only [true_and, ne_eq, and_comm]
  · rw [remove_of_ne hc]
    simp only [hc, false_and, not_false_eq_true, and_true]

section
omit [DecidableEq ν]

/-- What is found stays. -/
theorem find_add (h : find answers t c n = some e') : find answers (add t d e) c n = some e' := by
  unfold find at h ⊢
  by_cases hc : c = d
  · rw [hc] at h ⊢
    rw [add_self, find?_append, h, some_or]
  · rw [add_of_ne hc]
    exact h

/-- The new entry is found where nothing was. -/
theorem find_add_self (h : find answers t d n = none) (ha : answers e.name n = true) :
    find answers (add t d e) d n = some e := by
  unfold find at h ⊢
  rw [add_self, find?_append, h, none_or,
    find?_cons_of_pos (p := fun e : Entry ν α => answers e.name n) ha]

theorem walk_add (h : walk answers t c p = some x) : walk answers (add t d e) c p = some x := by
  induction p generalizing c with
  | nil => exact h
  | cons n p ih =>
    cases hf : find answers t c n with
    | none =>
      rw [walk_cons_none hf] at h
      cases h
    | some =>
      rw [walk_cons hf] at h
      rw [walk_cons (find_add hf)]
      exact ih h

end

theorem find?_erase {β : Type*} [DecidableEq β] {f : β → Bool} {l : List β} {a b : β} (h : l.find? f = some b)
    (hne : b ≠ a) : (l.erase a).find? f = some b := by
  induction l with
  | nil => cases h
  | cons z l ih =>
    by_cases hz : z = a
    · rw [hz, erase_cons_head]
      rw [hz] at h
      by_cases ha : f a = true
      · rw [find?_cons_of_pos ha] at h
        injection h with h
        exact absurd h.symm hne
      · rw [find?_cons_of_neg ha] at h
        exact h
    · rw [erase_cons_tail (by rw [beq_iff_eq]; exact hz)]
      by_cases hfz : f z = true
      · rw [find?_cons_of_pos hfz] at h ⊢
        exact h
      · rw [find?_cons_of_neg hfz] at h ⊢
        exact ih h

/-- Another entry that is found stays. -/
theorem find_remove (h : find answers t c n = some e') (hne : e' ≠ e) :
    find answers (remove t d e) c n = some e' := by
  unfold find at h ⊢
  by_cases hc : c = d
  · rw [hc] at h ⊢
    rw [remove_self]
    exact find?_erase h hne
  · rw [remove_of_ne hc]
    exact h

/-- Nothing new is found. -/
theorem find_remove_none (h : find answers t c n = none) : find answers (remove t d e) c n = none := by
  unfold find at h ⊢
  rw [find?_eq_none] at h ⊢
  intro a ha
  by_cases hc : c = d
  · rw [hc] at h ha
    rw [remove_self] at ha
    exact h a (mem_of_mem_erase ha)
  · rw [remove_of_ne hc] at ha
    exact h a ha

/-- A walk that does not use an entry which goes. -/
theorem walk_remove_of (h : walk answers t c p = some x)
    (havoid : ∀ q m r, p = q ++ m :: r → walk answers t c q = some d → find answers t d m ≠ some e) :
    walk answers (remove t d e) c p = some x := by
  induction p generalizing c with
  | nil => exact h
  | cons n p ih =>
    cases hf : find answers t c n with
    | none =>
      rw [walk_cons_none hf] at h
      cases h
    | some e' =>
      rw [walk_cons hf] at h
      have hf' : find answers (remove t d e) c n = some e' := by
        by_cases hc : c = d
        · refine find_remove hf fun he => havoid [] n p rfl (by rw [hc]; rfl) ?_
          rw [← hc, hf, he]
        · unfold find
          rw [remove_of_ne hc]
          exact hf
      rw [walk_cons hf']
      refine ih h fun q m r hp hq => havoid (n :: q) m r (by rw [hp]; rfl) ?_
      rw [walk_cons hf]
      exact hq

theorem remove_sublist : (remove t d e c).Sublist (t c) := by
  by_cases hc : c = d
  · rw [hc, remove_self]
    exact erase_sublist
  · rw [remove_of_ne hc]

/-! ## Part of a tree -/

section
omit [DecidableEq α] [DecidableEq ν]

/-- What is found after entries have gone was found before, if names are unique. -/
theorem find_of_subset {t' : α → List (Entry ν α)}
    (hunique : ∀ a ∈ t c, ∀ b ∈ t c, answers a.name n = true → answers b.name n = true → a = b)
    (hsub : t' c ⊆ t c) (h : find answers t' c n = some e') : find answers t c n = some e' := by
  obtain ⟨hmem, hname⟩ := find_mem h
  have hin : e' ∈ t c := hsub hmem
  cases hf : find answers t c n with
  | none =>
    have hfalse := find_none hf hin
    exact absurd hname (Bool.eq_false_iff.mp hfalse)
  | some a =>
    obtain ⟨ha, haname⟩ := find_mem hf
    rw [hunique a ha e' hin haname hname]

theorem walk_of_subset {t' : α → List (Entry ν α)}
    (hunique : ∀ c (n : κ), ∀ a ∈ t c, ∀ b ∈ t c, answers a.name n = true → answers b.name n = true → a = b)
    (hsub : ∀ c, t' c ⊆ t c) (h : walk answers t' c p = some x) : walk answers t c p = some x := by
  induction p generalizing c with
  | nil => exact h
  | cons n p ih =>
    cases hf : find answers t' c n with
    | none =>
      rw [walk_cons_none hf] at h
      cases h
    | some =>
      rw [walk_cons hf] at h
      rw [walk_cons (find_of_subset (hunique c n) (hsub c) hf)]
      exact ih h

theorem visits_of_subset {t' : α → List (Entry ν α)}
    (hunique : ∀ c (n : κ), ∀ a ∈ t c, ∀ b ∈ t c, answers a.name n = true → answers b.name n = true → a = b)
    (hsub : ∀ c, t' c ⊆ t c) (h : walk answers t' c p = some x) : visits answers t c p = visits answers t' c p := by
  induction p generalizing c with
  | nil => rfl
  | cons n p ih =>
    cases hf : find answers t' c n with
    | none =>
      rw [walk_cons_none hf] at h
      cases h
    | some =>
      rw [walk_cons hf] at h
      rw [visits_cons (find_of_subset (hunique c n) (hsub c) hf), visits_cons hf, ih h]

end

theorem remove_add_comm {d' : α} (h : e ∈ t d) : remove (add t d' e') d e = add (remove t d e) d' e' := by
  funext c
  by_cases hd : d = d'
  · rw [← hd]
    by_cases hc : c = d
    · rw [hc, remove_self, add_self, add_self, remove_self, erase_append_left _ h]
    · rw [remove_of_ne hc, add_of_ne hc, add_of_ne hc, remove_of_ne hc]
  by_cases hc : c = d
  · rw [hc, remove_self, add_of_ne hd, add_of_ne hd, remove_self]
  · rw [remove_of_ne hc]
    by_cases hc' : c = d'
    · rw [hc', add_self, add_self, remove_of_ne fun h => hd h.symm]
    · rw [add_of_ne hc', add_of_ne hc', remove_of_ne hc]

/-- An entry comes and goes. -/
theorem remove_add (h : e ∉ t d) : remove (add t d e) d e = t := by
  unfold remove
  rw [add_self, erase_append_right _ h, erase_cons_head, append_nil]
  unfold add
  rw [update_idem, update_eq_self]

/-- A walk that does not come through the target of an entry which goes. -/
theorem walk_remove (h : e.target ∉ visits answers t c p) :
    walk answers (remove t d e) c p = walk answers t c p ∧
      visits answers (remove t d e) c p = visits answers t c p := by
  induction p generalizing c with
  | nil => exact ⟨rfl, rfl⟩
  | cons n p ih =>
    cases hf : find answers t c n with
    | none =>
      have hf' := find_remove_none (d := d) (e := e) hf
      exact ⟨by rw [walk_cons_none hf, walk_cons_none hf'], by rw [visits_cons_none hf, visits_cons_none hf']⟩
    | some =>
      rw [visits_cons hf, mem_cons, not_or] at h
      have hf' := find_remove (d := d) hf fun he => h.1 (by rw [he])
      obtain ⟨hwalk, hvisits⟩ := ih h.2
      exact ⟨by rw [walk_cons hf, walk_cons hf', hwalk], by rw [visits_cons hf, visits_cons hf', hvisits]⟩

end Changes

end Caffeinix.NameTree
