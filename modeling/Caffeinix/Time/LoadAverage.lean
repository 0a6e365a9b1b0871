import Mathlib.Algebra.Order.Ring.Nat
import Mathlib.Data.Fin.VecNotation
import Mathlib.Logic.Function.Iterate

/-!
# `Time.LoadAverage` — the load averages (`kernel/loadavg.c`)

Every five seconds each of the three averages moves towards the number of active tasks, in fixed point, rounded to
the nearest. With the same number each time it never moves away or past it, and from some sample on it stays
(`loadavg_settles`): but near the number, not at it, since a step of less than one half is rounded away
(`loadavg_idle_stuck`).
-/

namespace Caffeinix.Time

open Nat Function

/-- `LOADAVG_FIXED`. -/
def loadavgFixed : UInt32 := (1 : UInt32) <<< 11

/-- The loop of `loadavg_fixed_power`; an exponent has at most 64 bits. -/
def fixedPowerLoop : Nat → UInt64 → UInt64 → UInt64 → UInt64
  | 0, _, _, result => result
  | bits + 1, exponent, factor, result =>
    if exponent = 0 then result
    else
      let fixed := loadavgFixed.toUInt64
      let result := if exponent &&& 1 ≠ 0 then (result * factor + fixed / 2) / fixed else result
      fixedPowerLoop bits (exponent >>> 1) ((factor * factor + fixed / 2) / fixed) result

/-- `loadavg_fixed_power`. -/
def loadavgFixedPower (base : UInt32) (exponent : UInt64) : UInt32 :=
  (fixedPowerLoop 64 exponent base.toUInt64 loadavgFixed.toUInt64).toUInt32

/-- `loadavg_update`. -/
def loadavgUpdate (old active exponent : UInt32) (periods : UInt64) : UInt32 :=
  let decay := loadavgFixedPower exponent periods
  let fixed := loadavgFixed.toUInt64
  let target := active.toUInt64 * fixed
  ((old.toUInt64 * decay.toUInt64 + target * (loadavgFixed - decay).toUInt64 + fixed / 2) / fixed).toUInt32

/-- `loadavg_exponent`. -/
def loadavgExponent : Fin 3 → UInt32 := ![1884, 2014, 2037]

/-- `loadavg_sample`, with the number of running and blocked tasks. -/
def loadavgSample (active : UInt32) (average : Fin 3 → UInt32) : Fin 3 → UInt32 :=
  fun index => loadavgUpdate (average index) active (loadavgExponent index) 1

/-! ## The distance from the number of tasks -/

/-- What a sample makes of the distance; the bias is 1024 from above and 1023 from below. -/
def distanceAfter (index : Fin 3) (bias distance : Nat) : Nat :=
  (distance * (loadavgExponent index).toNat + bias) / 2048

/-- How far from the number an average may stay, in parts of 2048. -/
def loadavgBand (index : Fin 3) : Nat := 1024 / (2048 - (loadavgExponent index).toNat)

/-- The average is at this distance above or below the number of tasks. -/
def Away (active : UInt32) (bias distance : Nat) (average : UInt32) : Prop :=
  bias = 1024 ∧ average.toNat = active.toNat * 2048 + distance ∨
    bias = 1023 ∧ average.toNat + distance = active.toNat * 2048

theorem exponent_cases (index : Fin 3) : (loadavgExponent index).toNat = 1884 ∨ (loadavgExponent index).toNat = 2014 ∨
    (loadavgExponent index).toNat = 2037 := by
  revert index
  decide

theorem loadavgUpdate_toNat {active : UInt32} (hrange : active.toNat * 2048 < 2 ^ 32) (old : UInt32) (index : Fin 3) :
    (loadavgUpdate old active (loadavgExponent index) 1).toNat =
      (old.toNat * (loadavgExponent index).toNat +
        active.toNat * 2048 * (2048 - (loadavgExponent index).toNat) + 1024) / 2048 := by
  have hpower : loadavgFixedPower (loadavgExponent index) 1 = loadavgExponent index := by
    revert index
    decide +kernel
  have hdecay : (loadavgFixed - loadavgExponent index).toNat = 2048 - (loadavgExponent index).toNat := by
    revert index
    decide +kernel
  have hc : (loadavgExponent index).toNat ≤ 2048 := by
    rcases exponent_cases index with h | h | h <;> omega
  have hfixed : loadavgFixed.toUInt64.toNat = 2048 := rfl
  simp only [loadavgUpdate, hpower, UInt64.toNat_toUInt32, UInt64.toNat_div, UInt64.toNat_add, UInt64.toNat_mul,
    UInt32.toNat_toUInt64, UInt64.reduceToNat, hfixed, hdecay]
  rw [mod_eq_of_lt (by omega : active.toNat * 2048 < 2 ^ 64)]
  generalize (loadavgExponent index).toNat = c at *
  -- nothing wraps
  have hsum : old.toNat * c + active.toNat * 2048 * (2048 - c) ≤ (2 ^ 32 - 1) * 2048 := by
    calc _ ≤ (2 ^ 32 - 1) * c + (2 ^ 32 - 1) * (2048 - c) := Nat.add_le_add
            (Nat.mul_le_mul_right c (Nat.le_pred_of_lt old.toNat_lt))
            (Nat.mul_le_mul_right (2048 - c) (Nat.le_pred_of_lt hrange))
      _ = (2 ^ 32 - 1) * 2048 := by rw [← Nat.mul_add, Nat.add_sub_cancel' hc]
  generalize old.toNat * c = first at *
  generalize active.toNat * 2048 * (2048 - c) = second at *
  omega

section
variable {active average : UInt32} {bias distance : Nat} (index : Fin 3)

theorem Away.update (hrange : active.toNat * 2048 < 2 ^ 32) (h : Away active bias distance average) :
    Away active bias (distanceAfter index bias distance) (loadavgUpdate average active (loadavgExponent index) 1) := by
  unfold Away distanceAfter at *
  rw [loadavgUpdate_toNat hrange]
  rcases exponent_cases index with hc | hc | hc <;> rw [hc] <;> omega

theorem Away.exists (active average : UInt32) : ∃ bias distance, Away active bias distance average := by
  rcases Nat.le_total (active.toNat * 2048) average.toNat with h | h
  · exact ⟨1024, _, .inl ⟨rfl, (Nat.add_sub_cancel' h).symm⟩⟩
  · exact ⟨1023, _, .inr ⟨rfl, Nat.add_sub_cancel' h⟩⟩

variable (hbias : 1023 ≤ bias ∧ bias ≤ 1024)
include hbias

theorem distanceAfter_le (distance : Nat) : distanceAfter index bias distance ≤ distance := by
  unfold distanceAfter
  rcases exponent_cases index with hc | hc | hc <;> rw [hc] <;> omega

/-- A distance is never closed. -/
theorem distanceAfter_eq_zero : distanceAfter index bias distance = 0 ↔ distance = 0 := by
  unfold distanceAfter
  rcases exponent_cases index with hc | hc | hc <;> rw [hc] <;> omega

/-- It stays where the step is less than one half. -/
theorem le_loadavgBand (h : distanceAfter index bias distance = distance) : distance ≤ loadavgBand index := by
  unfold distanceAfter at h
  unfold loadavgBand
  rcases exponent_cases index with hc | hc | hc <;> rw [hc] at h ⊢ <;> omega

end

/-- A function that never goes up comes to a value it keeps. -/
theorem exists_fixed_iterate {f : Nat → Nat} (hle : ∀ d, f d ≤ d) {d : Nat} : ∃ n, f (f^[n] d) = f^[n] d := by
  induction d using Nat.strong_induction_on with
  | _ d ih =>
    by_cases h : f d = d
    · exact ⟨0, h⟩
    · obtain ⟨n, hn⟩ := ih (f d) (lt_of_le_of_ne (hle d) h)
      exact ⟨n + 1, by rwa [iterate_succ_apply]⟩

/-- **The averages settle** near the number of active tasks, on the side they started from. -/
theorem loadavg_settles (active : UInt32) (hrange : active.toNat * loadavgFixed.toNat < 2 ^ 32)
    (average : Fin 3 → UInt32) (index : Fin 3) :
    let target := active.toNat * 2048
    let value := fun k => ((loadavgSample active)^[k] average index).toNat
    (∀ k, target ≤ value (k + 1) ∧ value (k + 1) ≤ value k ∨ value k ≤ value (k + 1) ∧ value (k + 1) ≤ target) ∧
      (∃ n, (∀ k, value (n + k) = value n) ∧
        target ≤ value n + loadavgBand index ∧ value n ≤ target + loadavgBand index) ∧
      ∀ k, value k = target ↔ value 0 = target := by
  intro target value
  obtain ⟨bias, distance, haway⟩ := Away.exists active (average index)
  have hbias : 1023 ≤ bias ∧ bias ≤ 1024 := by
    rcases haway with h | h <;> omega
  -- the distance after each sample
  have hrun : ∀ k, Away active bias ((distanceAfter index bias)^[k] distance)
      ((loadavgSample active)^[k] average index) := by
    intro k
    induction k with
    | zero => exact haway
    | succ k ih =>
      rw [iterate_succ_apply', iterate_succ_apply']
      exact ih.update index hrange
  have hzero : ∀ k, (distanceAfter index bias)^[k] distance = 0 ↔ distance = 0 := by
    intro k
    induction k with
    | zero => rfl
    | succ k ih => rw [iterate_succ_apply', distanceAfter_eq_zero index hbias, ih]
  refine ⟨fun k => ?_, ?_, fun k => ?_⟩
  · have hle := distanceAfter_le index hbias ((distanceAfter index bias)^[k] distance)
    rw [← iterate_succ_apply' (distanceAfter index bias), succ_eq_add_one] at hle
    rcases hrun k with h | h <;> rcases hrun (k + 1) with h' | h' <;> simp only [target, value] <;> omega
  · obtain ⟨n, hn⟩ := exists_fixed_iterate (distanceAfter_le index hbias)
    have hband := le_loadavgBand index hbias hn
    have hfixed : ∀ k, (distanceAfter index bias)^[n + k] distance = (distanceAfter index bias)^[n] distance := by
      intro k
      rw [Nat.add_comm, iterate_add_apply, iterate_fixed hn]
    refine ⟨n, fun k => ?_, ?_⟩
    · have hk := hfixed k
      rcases hrun n with h | h <;> rcases hrun (n + k) with h' | h' <;> simp only [value] <;> omega
    · rcases hrun n with h | h <;> simp only [target, value] <;> omega
  · have hk := hzero k
    rcases haway with h | h <;> rcases hrun k with h' | h' <;>
      simp only [target, value, iterate_zero, id_eq] <;> omega

theorem loadavg_settles_idle :
    ∃ n, ∀ k, ((loadavgSample 0)^[n + k] ![2048, 0, 0] 0).toNat = ((loadavgSample 0)^[n] ![2048, 0, 0] 0).toNat := by
  obtain ⟨-, ⟨n, hn, -⟩, -⟩ := loadavg_settles 0 (by decide) ![2048, 0, 0] 0
  exact ⟨n, hn⟩

/-- In an idle system the averages stay above zero. -/
theorem loadavg_idle_stuck : (fun k => (loadavgSample 0)^[k] ![6, 30, 93]) = fun _ => ![6, 30, 93] := by
  funext k
  refine iterate_fixed (funext ?_) k
  decide +kernel

end Caffeinix.Time
