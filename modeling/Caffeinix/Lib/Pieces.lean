import Mathlib.Algebra.Order.Ring.Nat

/-!
# `Lib.Pieces` — transfers in pieces

A transfer of `count` bytes is made in pieces of `unit` bytes, the last one maybe shorter. A piece works on a state;
it fails, or it moves a number of bytes. The loop ends when the count is reached, when a piece fails, and behind a
piece that has moved less than it was asked for.

`Ends` says how the loop ends, in terms of the states that the pieces find (`state`) and of the pieces it comes to
(`Reached`). What whole pieces keep holds where the loop comes to (`before`).
-/

namespace Caffeinix.Pieces

variable {σ ε : Type*}

structure Transfer (σ ε : Type*) where
  unit : Nat
  count : Nat
  start : σ
  /-- piece `k`, behind `total` bytes, that asks for `chunk` bytes -/
  piece : (k total chunk : Nat) → σ → σ × Except ε Nat

namespace Transfer

def loop (t : Transfer σ ε) : Nat → Nat → σ → Nat → σ × Nat × Option ε
  | 0, _, s, total => (s, total, none)
  | fuel + 1, k, s, total =>
    if t.count ≤ total then (s, total, none)
    else
      let chunk := min (t.count - total) t.unit
      match t.piece k total chunk s with
      | (s, .error e) => (s, total, some e)
      | (s, .ok n) => if n ≠ chunk then (s, total + n, none) else t.loop fuel (k + 1) s (total + n)

/-- The whole loop: `count` rounds are enough, for each moves something. -/
def run (t : Transfer σ ε) : σ × Nat × Option ε := t.loop t.count 0 t.start 0

/-! ## Pieces -/

variable (t : Transfer σ ε)

def chunk (k : Nat) : Nat := min (t.count - t.unit * k) t.unit

/-- The state that piece `k` finds, if those before it are whole. -/
def state : Nat → σ
  | 0 => t.start
  | k + 1 => (t.piece k (t.unit * k) (t.chunk k) (state k)).1

def result (k : Nat) : Except ε Nat := (t.piece k (t.unit * k) (t.chunk k) (t.state k)).2

def Whole (k : Nat) : Prop := t.unit * k < t.count ∧ t.result k = .ok (t.chunk k)

/-- The loop comes to piece `k`. -/
def Reached (k : Nat) : Prop := t.unit * k < t.count ∧ ∀ j < k, t.Whole j

inductive Ends : σ × Nat × Option ε → Prop
  | full (k : Nat) (before : ∀ j < k, t.Whole j) (last : t.count ≤ t.unit * k) : Ends (t.state k, t.count, none)
  | failed (k : Nat) (reached : t.Reached k) (e : ε) (fails : t.result k = .error e) :
    Ends (t.state (k + 1), t.unit * k, some e)
  | short (k : Nat) (reached : t.Reached k) (n : Nat) (moves : t.result k = .ok n) (part : n ≠ t.chunk k) :
    Ends (t.state (k + 1), t.unit * k + n, none)

variable {t} {k j : Nat}

theorem reached_of_whole (h : ∀ j < k, t.Whole j) (hj : j < k) : t.Reached j :=
  ⟨(h j hj).1, fun i hi => h i (by omega)⟩

/-- The pieces of a loop that ends at the count. -/
theorem reached_iff_lt (h : ∀ j < k, t.Whole j) (hk : t.count ≤ t.unit * k) : t.Reached j ↔ j < k := by
  refine ⟨fun hj => ?_, reached_of_whole h⟩
  by_contra hle
  have := Nat.mul_le_mul_left t.unit (Nat.le_of_not_lt hle)
  have := hj.1
  omega

/-- The pieces of a loop that ends at piece `k`. -/
theorem Reached.reached_iff_le (h : t.Reached k) (hk : ¬ t.Whole k) : t.Reached j ↔ j ≤ k := by
  refine ⟨fun hj => ?_, fun hle => ?_⟩
  · by_contra hlt
    exact hk (hj.2 k (by omega))
  · rcases Nat.lt_or_eq_of_le hle with hlt | rfl
    · exact reached_of_whole h.2 hlt
    · exact h

theorem Reached.chunk_pos (h : t.Reached k) (hunit : 0 < t.unit) : 0 < t.chunk k := by
  have := h.1
  unfold chunk
  omega

/-- The bytes up to the end of a whole piece. -/
theorem Reached.total (h : t.Reached k) : t.unit * k + t.chunk k = min (t.unit * (k + 1)) t.count := by
  have := h.1
  rw [Nat.mul_add, Nat.mul_one]
  unfold chunk
  omega

/-! ## How a run ends -/

theorem loop_ends (hunit : 0 < t.count → 0 < t.unit) : ∀ (fuel k : Nat), (∀ j < k, t.Whole j) →
    t.count ≤ fuel + t.unit * k → t.Ends (t.loop fuel k (t.state k) (min (t.unit * k) t.count)) := by
  intro fuel
  induction fuel with
  | zero =>
    intro k h hfuel
    rw [Nat.min_eq_right (by omega)]
    exact .full k h (by omega)
  | succ fuel ih =>
    intro k h hfuel
    unfold loop
    by_cases hend : t.count ≤ t.unit * k
    · rw [Nat.min_eq_right hend, if_pos (Nat.le_refl _)]
      exact .full k h hend
    have hk : t.Reached k := ⟨by omega, h⟩
    rw [Nat.min_eq_left (Nat.le_of_lt hk.1), if_neg hend, show min (t.count - t.unit * k) t.unit = t.chunk k from rfl]
    simp only
    rcases hpiece : t.piece k (t.unit * k) (t.chunk k) (t.state k) with ⟨s, result⟩
    have hstate : t.state (k + 1) = s := congrArg Prod.fst hpiece
    have hresult : t.result k = result := congrArg Prod.snd hpiece
    cases result with
    | error e =>
      rw [← hstate]
      exact .failed k hk e hresult
    | ok n =>
      simp only [← hstate]
      split_ifs with hpart
      · exact .short k hk n hresult hpart
      obtain rfl : n = t.chunk k := Decidable.not_not.mp hpart
      have hpos := hk.chunk_pos (hunit (by have := hk.1; omega))
      rw [hk.total]
      refine ih (k + 1) (Nat.forall_lt_succ_right.mpr ⟨h, hk.1, hresult⟩) ?_
      have := hk.total
      omega

/-- **How the loop ends.** -/
theorem run_ends (hunit : 0 < t.count → 0 < t.unit) : t.Ends t.run := by
  have h := loop_ends (t := t) hunit t.count 0 nofun (by omega)
  rwa [Nat.mul_zero, Nat.zero_min] at h

/-! ## When all pieces pass -/

def Passes (t : Transfer σ ε) (k : Nat) : Prop := ∃ n, t.result k = .ok n

/-- The first piece fails, or each piece that the loop comes to passes and is as it should be. -/
def Steady (t : Transfer σ ε) (fine : Nat → Prop) : Prop :=
  ¬ t.Passes 0 ∨ ∀ k, t.Reached k → t.Passes k ∧ fine k

theorem Whole.passes (h : t.Whole k) : t.Passes k := ⟨_, h.2⟩

/-- If a piece fails, it has to be the first. -/
theorem Reached.steady_iff {fine : Nat → Prop} (h : t.Reached k) (hk : ¬ t.Passes k) : t.Steady fine ↔ k = 0 := by
  refine ⟨fun hsteady => ?_, fun hzero => .inl (hzero ▸ hk)⟩
  by_contra hne
  rcases hsteady with hfirst | hall
  · exact hfirst (h.2 0 (by omega)).passes
  · exact hk (hall k h).1

/-- If none fails, all have to be as they should be. -/
theorem steady_iff {fine : Nat → Prop} (h : ∀ k, t.Reached k → t.Passes k) :
    t.Steady fine ↔ ∀ k, t.Reached k → fine k := by
  refine ⟨fun hsteady k hk => ?_, fun hfine => .inr fun k hk => ⟨h k hk, hfine k hk⟩⟩
  rcases hsteady with hfirst | hall
  · refine absurd (h 0 ⟨?_, nofun⟩) hfirst
    have := hk.1
    omega
  · exact (hall k hk).2

/-- What holds at the start and is kept by whole pieces. -/
theorem before {P : Nat → σ → Prop} (hstart : P 0 t.start)
    (hpiece : ∀ j, t.Reached j → t.Whole j → P (t.unit * j) (t.state j) → P (t.unit * j + t.chunk j) (t.state (j + 1)))
    (h : ∀ j < k, t.Whole j) : P (min (t.unit * k) t.count) (t.state k) := by
  induction k with
  | zero =>
    rw [Nat.mul_zero, Nat.zero_min]
    exact hstart
  | succ k ih =>
    have hk := reached_of_whole h (Nat.lt_succ_self k)
    have hbefore := ih hk.2
    rw [Nat.min_eq_left (Nat.le_of_lt hk.1)] at hbefore
    rw [← hk.total]
    exact hpiece k hk (h k (Nat.lt_succ_self k)) hbefore

end Transfer

end Caffeinix.Pieces
