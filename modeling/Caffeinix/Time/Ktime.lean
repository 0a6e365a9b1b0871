import Mathlib.Algebra.Order.Floor.Div
import Caffeinix.Lib.Runs
import Caffeinix.Riscv

/-!
# `Time.Ktime` — ticks, milliseconds and nanoseconds (`kernel/timeconv.c`, `kernel/ktime.c`)

Each conversion goes by whole seconds and a remainder, so that no product leaves 64 bits. To ticks the result is
rounded up and is `2 ^ 64 - 1` if it does not fit (`toTicks_eq`). To nanoseconds it is rounded down; the last
addition wraps if the seconds still fit and the nanoseconds do not (`ktimeTicksToNs_wraps`).
-/

namespace Caffeinix.Time

open Nat
open UInt64 (lt_iff_toNat_lt toNat_div toNat_mul toNat_mod le_iff_toNat_le toNat_add toNat_inj)

/-- `NSEC_PER_SEC`. -/
def nsecPerSec : UInt64 := 1000000000

/-- `MSEC_PER_SEC`. -/
def msecPerSec : UInt64 := 1000

/-- `~(uint64)0`. -/
def uint64All : UInt64 := ~~~0

/-- `ktime_ticks_to_ns`. -/
def ktimeTicksToNs (ticks : UInt64) (frequency : UInt32) : UInt64 :=
  let frequency := frequency.toUInt64
  if frequency = 0 then 0
  else
    let seconds := ticks / frequency
    if seconds > uint64All / nsecPerSec then uint64All
    else seconds * nsecPerSec + ticks % frequency * nsecPerSec / frequency

/-- The ticks of less than a second, rounded up. -/
def partTicks (perSecond frequency remainder : UInt64) : UInt64 :=
  let fraction := frequency % perSecond * remainder
  let part := frequency / perSecond * remainder + fraction / perSecond
  if fraction % perSecond ≠ 0 then part + 1 else part

/-- `ktime_ms_to_ticks` and `ktime_ns_to_ticks`. -/
def toTicks (perSecond frequency value : UInt64) : UInt64 :=
  let seconds := value / perSecond
  if seconds > uint64All / frequency then uint64All
  else
    let ticks := seconds * frequency
    let part := partTicks perSecond frequency (value % perSecond)
    if ticks > uint64All - part then uint64All else ticks + part

def ktimeMsToTicks (frequency milliseconds : UInt64) : UInt64 := toTicks msecPerSec frequency milliseconds

def ktimeNsToTicks (frequency nanoseconds : UInt64) : UInt64 := toTicks nsecPerSec frequency nanoseconds

/-- The deadline of a wait, from the clock and the ticks to wait. -/
def deadlineAfter (now delta : UInt64) : UInt64 :=
  let deadline := now + delta
  if deadline < now then uint64All else deadline

theorem nsecPerSec_toNat : nsecPerSec.toNat = 1000000000 := rfl

theorem uint64All_toNat : uint64All.toNat = uint64Max := rfl

theorem toNat_le (x : UInt64) : x.toNat ≤ uint64Max := le_pred_of_lt x.toNat_lt

/-- A deadline that does not fit is the last tick. -/
theorem deadlineAfter_toNat (now delta : UInt64) :
    (deadlineAfter now delta).toNat = min uint64Max (now.toNat + delta.toNat) := by
  have hnow := now.toNat_lt
  have hdelta := delta.toNat_lt
  simp only [deadlineAfter, lt_iff_toNat_lt, toNat_add]
  split_ifs with hwrap
  · rw [uint64All_toNat]
    simp only [uint64Max]
    omega
  · rw [toNat_add]
    simp only [uint64Max]
    omega

/-! ## To ticks -/

theorem ceilDiv_eq {per : Nat} (hper : 0 < per) (d : Nat) :
    d ⌈/⌉ per = d / per + if d % per = 0 then 0 else 1 := by
  have hd := div_add_mod d per
  have hlt := Nat.mod_lt d hper
  rw [Nat.ceilDiv_eq_add_pred_div]
  split_ifs with h
  · rw [Nat.div_eq_iff hper, Nat.add_mul, Nat.mul_comm]
    omega
  · rw [Nat.div_eq_iff hper, Nat.add_mul, Nat.mul_comm]
    omega

theorem mul_add_ceilDiv {per : Nat} (hper : 0 < per) (k d : Nat) : (per * k + d) ⌈/⌉ per = k + d ⌈/⌉ per := by
  rw [ceilDiv_eq hper, ceilDiv_eq hper, mul_add_div hper, mul_add_mod, add_assoc]

/-- A unit of time, by its number in a second. -/
def IsUnit (perSecond : UInt64) : Prop := 0 < perSecond.toNat ∧ perSecond.toNat ≤ 2 ^ 30

section
variable {perSecond frequency : UInt64} (hunit : IsUnit perSecond)
include hunit

theorem partTicks_eq (frequency : UInt64) {remainder : UInt64} (hrem : remainder.toNat < perSecond.toNat) :
    (partTicks perSecond frequency remainder).toNat = (frequency.toNat * remainder.toNat) ⌈/⌉ perSecond.toNat := by
  obtain ⟨hper, hsmall⟩ := hunit
  generalize hf : frequency.toNat = f at *
  generalize hr : remainder.toNat = r at *
  generalize hp : perSecond.toNat = per at *
  have hflt : f < 2 ^ 64 := hf ▸ frequency.toNat_lt
  have hmod : f % per * r < 2 ^ 64 :=
    lt_of_le_of_lt (Nat.mul_le_mul (Nat.mod_lt f hper).le hrem.le)
      (lt_of_le_of_lt (Nat.mul_le_mul hsmall hsmall) (by decide))
  have hfraction : (frequency % perSecond * remainder).toNat = f % per * r := by
    simp only [toNat_mul, toNat_mod, hf, hr, hp]
    exact mod_eq_of_lt hmod
  -- at most the ticks of a second, so nothing wraps
  have hceil : (f * r) ⌈/⌉ per ≤ f := by
    rw [ceilDiv_le_iff_le_mul hper, Nat.mul_comm]
    exact Nat.mul_le_mul_right f hrem.le
  have hsplit : f * r = per * (f / per * r) + f % per * r := by
    rw [← mul_assoc, ← Nat.add_mul, div_add_mod]
  rw [hsplit, mul_add_ceilDiv hper, ceilDiv_eq hper] at hceil ⊢
  have hzero : frequency % perSecond * remainder % perSecond = 0 ↔ f % per * r % per = 0 := by
    rw [← toNat_inj, toNat_mod, hfraction, hp]
    rfl
  simp only [partTicks, ne_eq, hzero, ite_not]
  split_ifs at hceil ⊢ <;>
  · simp only [toNat_add, toNat_mul, toNat_div, UInt64.toNat_one, hfraction, hf, hr, hp]
    generalize f / per * r = whole at *
    generalize f % per * r / per = rest at *
    omega

variable (hfrequency : 0 < frequency.toNat)
include hfrequency

/-- **The ticks are exact**, rounded up, or the greatest number. -/
theorem toTicks_eq (value : UInt64) : (toTicks perSecond frequency value).toNat =
      min uint64Max ((value.toNat * frequency.toNat) ⌈/⌉ perSecond.toNat) := by
  have hrem : (value % perSecond).toNat < perSecond.toNat := by
    rw [toNat_mod]
    exact Nat.mod_lt _ hunit.1
  have hpart := partTicks_eq hunit frequency hrem
  unfold toTicks
  generalize partTicks perSecond frequency (value % perSecond) = part at *
  generalize hs : value / perSecond = seconds
  simp only
  -- the exact result, by seconds
  have hexact : (value.toNat * frequency.toNat) ⌈/⌉ perSecond.toNat =
      seconds.toNat * frequency.toNat + part.toNat := by
    rw [hpart, ← mul_add_ceilDiv hunit.1, ← hs, toNat_div, toNat_mod, ← mul_assoc,
      Nat.mul_comm frequency.toNat, ← Nat.add_mul, div_add_mod]
  rw [hexact]
  have hmax := toNat_le part
  split_ifs with hseconds hticks
  · -- the seconds do not fit
    rw [gt_iff_lt, lt_iff_toNat_lt, toNat_div, uint64All_toNat, div_lt_iff_lt_mul hfrequency]
      at hseconds
    rw [uint64All_toNat]
    omega
  all_goals
    rw [gt_iff_lt, lt_iff_toNat_lt, toNat_div, uint64All_toNat, div_lt_iff_lt_mul hfrequency,
      not_lt] at hseconds
    have hmul : (seconds * frequency).toNat = seconds.toNat * frequency.toNat := by
      rw [toNat_mul]
      exact mod_eq_of_lt (lt_of_le_pred (by decide) hseconds)
    rw [gt_iff_lt, lt_iff_toNat_lt, UInt64.toNat_sub_of_le _ _ (by rwa [le_iff_toNat_le]),
      uint64All_toNat, hmul] at hticks
  · rw [uint64All_toNat]
    omega
  · rw [toNat_add, hmul, mod_eq_of_lt (by simp only [uint64Max] at *; omega)]
    omega

theorem toTicks_mono {value value' : UInt64} (h : value ≤ value') :
    toTicks perSecond frequency value ≤ toTicks perSecond frequency value' := by
  rw [le_iff_toNat_le] at h ⊢
  rw [toTicks_eq hunit hfrequency, toTicks_eq hunit hfrequency]
  exact min_le_min_left _ ((gc_mul_ceilDiv hunit.1).monotone_l (Nat.mul_le_mul_right _ h))

/-- **A deadline is not reached before the interval has elapsed**, but for the last tick. -/
theorem toTicks_elapsed {now clock interval : UInt64} (hclock : clock < uint64All)
    (h : deadlineAfter now (toTicks perSecond frequency interval) ≤ clock) :
    interval.toNat * frequency.toNat ≤ perSecond.toNat * (clock.toNat - now.toNat) := by
  rw [lt_iff_toNat_lt, uint64All_toNat] at hclock
  rw [le_iff_toNat_le, deadlineAfter_toNat, toTicks_eq hunit hfrequency] at h
  rw [← ceilDiv_le_iff_le_mul hunit.1]
  omega

/-- It is never reached too early if it fits, and only then: at the last tick every other deadline is reached. -/
theorem toTicks_elapsed_iff (now interval : UInt64) :
    (∀ clock, deadlineAfter now (toTicks perSecond frequency interval) ≤ clock →
      interval.toNat * frequency.toNat ≤ perSecond.toNat * (clock.toNat - now.toNat)) ↔
    now.toNat + (interval.toNat * frequency.toNat) ⌈/⌉ perSecond.toNat ≤ uint64Max := by
  simp only [le_iff_toNat_le, deadlineAfter_toNat, toTicks_eq hunit hfrequency, ← ceilDiv_le_iff_le_mul hunit.1]
  have hnow := toNat_le now
  constructor
  · intro h
    have hlast := h uint64All (by rw [uint64All_toNat]; exact min_le_left _ _)
    rw [uint64All_toNat] at hlast
    omega
  · intro hfits clock hclock
    omega

end

/-! ## To nanoseconds -/

/-- The nanoseconds fit in 64 bits, or already the seconds do not. -/
def NsFits (ticks : UInt64) (frequency : UInt32) : Prop :=
  ticks.toNat * nsecPerSec.toNat / frequency.toNat ≤ uint64Max ∨
    uint64Max / nsecPerSec.toNat < ticks.toNat / frequency.toNat

section
variable {frequency : UInt32} (hfrequency : 0 < frequency.toNat) (ticks : UInt64)
include hfrequency

/-- What the last addition makes of the exact result. -/
theorem ktimeTicksToNs_toNat : (ktimeTicksToNs ticks frequency).toNat =
    if uint64Max / nsecPerSec.toNat < ticks.toNat / frequency.toNat then uint64Max
    else ticks.toNat * nsecPerSec.toNat / frequency.toNat % 2 ^ 64 := by
  have hne : frequency.toUInt64 ≠ 0 := by
    rw [ne_eq, ← toNat_inj]
    simpa using hfrequency.ne'
  have hflt := frequency.toNat_lt
  have hrem := Nat.mod_lt ticks.toNat hfrequency
  -- the exact result, by seconds
  have hexact : ticks.toNat * nsecPerSec.toNat / frequency.toNat =
      ticks.toNat / frequency.toNat * nsecPerSec.toNat +
        ticks.toNat % frequency.toNat * nsecPerSec.toNat / frequency.toNat := by
    rw [← mul_add_div hfrequency, ← mul_assoc, ← Nat.add_mul, div_add_mod]
  rw [hexact]
  simp only [ktimeTicksToNs, if_neg hne, gt_iff_lt, lt_iff_toNat_lt, toNat_div, uint64All_toNat,
    UInt32.toNat_toUInt64]
  have hsmall : ticks.toNat % frequency.toNat * nsecPerSec.toNat < 2 ^ 64 := by
    rw [nsecPerSec_toNat]
    omega
  split_ifs
  · rfl
  · rw [toNat_add, toNat_mul, toNat_div, toNat_div, toNat_mul, toNat_mod, UInt32.toNat_toUInt64,
      mod_eq_of_lt hsmall, Nat.mod_add_mod]

/-- If the seconds fit, the nanoseconds are at most a second too many. -/
theorem ns_lt_of_seconds_le (hseconds : ticks.toNat / frequency.toNat ≤ uint64Max / nsecPerSec.toNat) :
    ticks.toNat * nsecPerSec.toNat / frequency.toNat < 2 ^ 64 + nsecPerSec.toNat := by
  have hlt := Nat.lt_div_mul_add hfrequency (a := ticks.toNat)
  rw [Nat.div_lt_iff_lt_mul hfrequency]
  calc ticks.toNat * nsecPerSec.toNat
      < (ticks.toNat / frequency.toNat * frequency.toNat + frequency.toNat) * nsecPerSec.toNat :=
        Nat.mul_lt_mul_of_pos_right hlt (by decide)
    _ = (ticks.toNat / frequency.toNat + 1) * nsecPerSec.toNat * frequency.toNat := by
        rw [← Nat.succ_mul, Nat.mul_right_comm]
    _ ≤ (2 ^ 64 + nsecPerSec.toNat) * frequency.toNat := by
        apply Nat.mul_le_mul_right
        exact (Nat.mul_le_mul_right _ (Nat.succ_le_succ hseconds)).trans (by decide)

/-- If the seconds do not fit, neither do the nanoseconds. -/
theorem uint64Max_lt_ns (hseconds : uint64Max / nsecPerSec.toNat < ticks.toNat / frequency.toNat) :
    uint64Max < ticks.toNat * nsecPerSec.toNat / frequency.toNat := by
  rw [div_lt_iff_lt_mul (by decide)] at hseconds
  refine hseconds.trans_le ?_
  rw [Nat.le_div_iff_mul_le hfrequency, Nat.mul_right_comm]
  exact Nat.mul_le_mul_right _ (Nat.div_mul_le_self _ _)

/-- **The nanoseconds are exact**, rounded down, or the greatest number, if they fit and only then. -/
theorem ktimeTicksToNs_eq_iff : (ktimeTicksToNs ticks frequency).toNat =
    min uint64Max (ticks.toNat * nsecPerSec.toNat / frequency.toNat) ↔ NsFits ticks frequency := by
  unfold NsFits
  rw [ktimeTicksToNs_toNat hfrequency]
  split_ifs with hseconds
  · have hlt := uint64Max_lt_ns hfrequency ticks hseconds
    exact iff_of_true (min_eq_left hlt.le).symm (.inr hseconds)
  · have hlt := ns_lt_of_seconds_le hfrequency ticks (not_lt.mp hseconds)
    simp only [nsecPerSec_toNat] at *
    generalize ticks.toNat * 1000000000 / frequency.toNat = ns at *
    simp only [uint64Max] at *
    omega

/-- A later tick is not earlier in nanoseconds, unless only the later one wraps, and not far enough. -/
theorem ktimeTicksToNs_le_iff {ticks'} (hle : ticks ≤ ticks') :
    ktimeTicksToNs ticks frequency ≤ ktimeTicksToNs ticks' frequency ↔
      NsFits ticks' frequency ∨ ¬NsFits ticks frequency ∨
        ticks.toNat * nsecPerSec.toNat / frequency.toNat + 2 ^ 64 ≤
          ticks'.toNat * nsecPerSec.toNat / frequency.toNat := by
  rw [le_iff_toNat_le] at hle ⊢
  have hseconds := Nat.div_le_div_right hle (c := frequency.toNat)
  have hns := Nat.div_le_div_right (Nat.mul_le_mul_right nsecPerSec.toNat hle) (c := frequency.toNat)
  have hlt := ns_lt_of_seconds_le hfrequency ticks
  have hlt' := ns_lt_of_seconds_le hfrequency ticks'
  have hgt := uint64Max_lt_ns hfrequency ticks
  rw [ktimeTicksToNs_toNat hfrequency, ktimeTicksToNs_toNat hfrequency]
  unfold NsFits
  generalize ticks.toNat = t at *
  generalize ticks'.toNat = t' at *
  generalize t * nsecPerSec.toNat / frequency.toNat = ns at *
  generalize t' * nsecPerSec.toNat / frequency.toNat = ns' at *
  rw [nsecPerSec_toNat] at *
  rw [uint64Max] at *
  split_ifs <;> omega

end

/-- **The conversions are exact**, rounded to the side of a longer wait, and go with their argument. -/
theorem ktime_exact (frequency : UInt32) (hfrequency : 0 < frequency.toNat) (rate : UInt64) (hrate : 0 < rate.toNat) :
    (∀ ticks, (ktimeTicksToNs ticks frequency).toNat =
      min uint64Max (ticks.toNat * nsecPerSec.toNat / frequency.toNat) ↔ NsFits ticks frequency) ∧
    (∀ ms, (ktimeMsToTicks rate ms).toNat = min uint64Max ((ms.toNat * rate.toNat) ⌈/⌉ msecPerSec.toNat)) ∧
    (∀ ns, (ktimeNsToTicks rate ns).toNat = min uint64Max ((ns.toNat * rate.toNat) ⌈/⌉ nsecPerSec.toNat)) ∧
    (∀ ticks ticks', ticks ≤ ticks' → (ktimeTicksToNs ticks frequency ≤ ktimeTicksToNs ticks' frequency ↔
      NsFits ticks' frequency ∨ ¬NsFits ticks frequency ∨
        ticks.toNat * nsecPerSec.toNat / frequency.toNat + 2 ^ 64 ≤
          ticks'.toNat * nsecPerSec.toNat / frequency.toNat)) ∧
    (∀ ms ms', ms ≤ ms' → ktimeMsToTicks rate ms ≤ ktimeMsToTicks rate ms') ∧
    (∀ ns ns', ns ≤ ns' → ktimeNsToTicks rate ns ≤ ktimeNsToTicks rate ns') ∧
    ∀ now interval,
      ((∀ clock, deadlineAfter now (ktimeMsToTicks rate interval) ≤ clock →
        interval.toNat * rate.toNat ≤ msecPerSec.toNat * (clock.toNat - now.toNat)) ↔
          now.toNat + (interval.toNat * rate.toNat) ⌈/⌉ msecPerSec.toNat ≤ uint64Max) ∧
      ((∀ clock, deadlineAfter now (ktimeNsToTicks rate interval) ≤ clock →
        interval.toNat * rate.toNat ≤ nsecPerSec.toNat * (clock.toNat - now.toNat)) ↔
          now.toNat + (interval.toNat * rate.toNat) ⌈/⌉ nsecPerSec.toNat ≤ uint64Max) := by
  have hms : IsUnit msecPerSec := ⟨by decide, by decide⟩
  have hns : IsUnit nsecPerSec := ⟨by decide, by decide⟩
  refine ⟨ktimeTicksToNs_eq_iff hfrequency, toTicks_eq hms hrate, toTicks_eq hns hrate,
    fun ticks ticks' hle => ktimeTicksToNs_le_iff hfrequency ticks hle, fun _ _ => toTicks_mono hms hrate,
    fun _ _ => toTicks_mono hns hrate, fun now interval => ?_⟩
  exact ⟨toTicks_elapsed_iff hms hrate now interval, toTicks_elapsed_iff hns hrate now interval⟩

theorem ktime_exact_tenMhz :
    (ktimeTicksToNs 12345678 10000000).toNat = 1234567800 ∧ (ktimeMsToTicks 32768 1).toNat = 33 := by
  obtain ⟨hns, hms, -⟩ := ktime_exact 10000000 (by decide) 32768 (by decide)
  exact ⟨(hns 12345678).mpr (.inl (by decide)), hms 1⟩

/-- At 10 MHz, after 584 years: the seconds fit, the nanoseconds do not, and the clock is back at the start. -/
theorem ktimeTicksToNs_wraps :
    (ktimeTicksToNs 184467440737095517 10000000).toNat = 84 ∧
      min uint64Max (184467440737095517 * nsecPerSec.toNat / 10000000) = uint64Max ∧
      ¬ktimeTicksToNs 184467440737095516 10000000 ≤ ktimeTicksToNs 184467440737095517 10000000 := by
  decide

/-! ## Interrupted sleeps (`kernel/sysproc.c`) -/

/-- The end of `sys_linux_nanosleep`: the deadline it sleeps to. -/
def nanosleepDeadline (rate : UInt32) (now duration : UInt64) : UInt64 :=
  deadlineAfter now (ktimeNsToTicks rate.toUInt64 duration)

/-- What `linux_sleep_until` reports to be left when a signal comes. -/
def sleepRemaining (rate : UInt32) (deadline now : UInt64) : UInt64 :=
  if deadline > now then ktimeTicksToNs (deadline - now) rate else 0

/-- A sleep interrupted at the first time and called again at the second with what was left, if anything. -/
def sleepAgain (rate : UInt32) (deadline : UInt64) (times : UInt64 × UInt64) : UInt64 :=
  let remaining := sleepRemaining rate deadline times.1
  if remaining = 0 then deadline else nanosleepDeadline rate times.2 remaining

section
variable {rate : UInt32} (hpos : 0 < rate.toNat) (hghz : rate.toNat ≤ nsecPerSec.toNat)
include hpos hghz

/-- **Ticks to nanoseconds and back**: up to 1 GHz nothing is lost. -/
theorem ktimeNsToTicks_ktimeTicksToNs {ticks : UInt64}
    (hfits : ticks.toNat * nsecPerSec.toNat / rate.toNat ≤ uint64Max) :
    ktimeNsToTicks rate.toUInt64 (ktimeTicksToNs ticks rate) = ticks := by
  have hns : IsUnit nsecPerSec := ⟨by decide, by decide⟩
  rw [← toNat_inj, ktimeNsToTicks, toTicks_eq hns (by simpa using hpos),
    (ktimeTicksToNs_eq_iff hpos ticks).mpr (.inl hfits),
    min_eq_right hfits, UInt32.toNat_toUInt64]
  rw [nsecPerSec_toNat] at hghz ⊢
  -- the whole nanoseconds are less than a tick short, which the rounding up makes good
  have hle := Nat.div_mul_le_self (ticks.toNat * 1000000000) rate.toNat
  have hlt := Nat.lt_div_mul_add hpos (a := ticks.toNat * 1000000000)
  have hceil : (ticks.toNat * 1000000000 / rate.toNat * rate.toNat) ⌈/⌉ 1000000000 = ticks.toNat := by
    rw [Nat.ceilDiv_eq_add_pred_div]
    omega
  rw [hceil]
  exact min_eq_right (toNat_le ticks)

theorem le_sleepAgain {deadline : UInt64} {times : UInt64 × UInt64} (htimes : times.1 ≤ times.2)
    (hfits : (deadline.toNat - times.1.toNat) * nsecPerSec.toNat / rate.toNat ≤ uint64Max) :
    deadline ≤ sleepAgain rate deadline times := by
  unfold sleepAgain sleepRemaining nanosleepDeadline
  by_cases hlate : times.1 < deadline
  · have hsub := UInt64.toNat_sub_of_le _ _ (UInt64.le_of_lt hlate)
    rw [← hsub] at hfits
    simp only [gt_iff_lt, if_pos hlate, ktimeNsToTicks_ktimeTicksToNs hpos hghz hfits]
    split_ifs
    · exact UInt64.le_refl _
    unfold deadlineAfter
    simp only
    split_ifs with hwrap
    · exact toNat_le deadline
    · rw [lt_iff_toNat_lt] at hlate hwrap
      rw [le_iff_toNat_le] at htimes ⊢
      rw [toNat_add, hsub] at hwrap ⊢
      have hlt := deadline.toNat_lt
      omega
  · simp only [gt_iff_lt, if_neg hlate]
    exact UInt64.le_refl _

/-- **A sleep is not too short**, however often it is interrupted and called again with what was left, as long as
    that fits in 64 bits and the clock has at most 1 GHz. -/
theorem nanosleep_not_early (start duration clock : UInt64) (hclock : clock < uint64All) (l : List (UInt64 × UInt64))
    (hl : Runs.Along (sleepAgain rate) (fun deadline times => times.1 ≤ times.2 ∧
      (deadline.toNat - times.1.toNat) * nsecPerSec.toNat / rate.toNat ≤ uint64Max)
      (nanosleepDeadline rate start duration) l)
    (hend : l.foldl (sleepAgain rate) (nanosleepDeadline rate start duration) ≤ clock) :
    duration.toNat * rate.toNat ≤ nsecPerSec.toNat * (clock.toNat - start.toNat) := by
  have hns : IsUnit nsecPerSec := ⟨by decide, by decide⟩
  -- no call moves the deadline to an earlier time
  have hlater := hl.foldl (I := (nanosleepDeadline rate start duration ≤ ·))
    (fun _ _ hd h => UInt64.le_trans hd (le_sleepAgain hpos hghz h.1 h.2)) (UInt64.le_refl _)
  have helapsed := toTicks_elapsed hns (by simpa using hpos) hclock (UInt64.le_trans hlater hend)
  rwa [UInt32.toNat_toUInt64] at helapsed

end

theorem twoSignals_not_early : (50000 : UInt64).toNat * 10000000 ≤ 1000000000 * (530 - 0) :=
  @nanosleep_not_early 10000000 (by decide) (by decide) 0 50000 530 (by decide) [(100, 130), (400, 400)]
    (by decide) (by decide)

end Caffeinix.Time
