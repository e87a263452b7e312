import Mathlib.Algebra.Order.Field.Rat
import Mathlib.Tactic.Linarith
import Mathlib.Tactic.Ring
import Sailing.Wire.Message

/-!
# Lease windows

The commit-wait window of a LeaseGuard configuration (`config/mod.rs`), and the wait a successor
makes of a window it inherits (`endpoint/election.rs`). Both are ratios rounded up, computed in
128 bits; a product that does not fit is refused. What is refused there would not fit the 64 bits
of the answer either, so both are exact, and for any two configurations the wait of the second
outlasts the lease of the first, at the worst rates their clocks may run.
-/

namespace Sailing.Lease

open Wire (ReadMode)

/-- Whole seconds, as a `u64`, and the nanoseconds beside them. -/
structure Duration where
  secs : Fin (2 ^ 64)
  subsec : Fin 1000000000
deriving DecidableEq, Repr

def Duration.asNanos (d : Duration) : Nat := 1000000000 * d.secs + d.subsec

/-- The settings the lease timing is computed from. -/
structure Config where
  leaseDuration : Option Duration
  clockDriftBound : Option Duration
  electionTimeout : Duration
  assumedClockRateBoundPpm : Fin (2 ^ 32)

inductive ConfigError where
  | leaseGuardRequiresLeaseDuration
  | leaseGuardRequiresDriftBound
  | leaseTimingTooLong (lease drift election : Duration)
deriving DecidableEq, Repr

/-- `u128::checked_mul`. -/
def checkedMul (a b : Nat) : Option Nat := if a * b < 2 ^ 128 then some (a * b) else none

/-- `u128::checked_add`. -/
def checkedAdd (a b : Nat) : Option Nat := if a + b < 2 ^ 128 then some (a + b) else none

/-- `u128::div_ceil`. -/
def divCeil (a b : Nat) : Nat := if a % b = 0 then a / b else a / b + 1

/-- `u64::try_from`. -/
def toU64 (a : Nat) : Option Nat := if a ≤ u64Max then some a else none

namespace Config

def leaseguardWindowResult (c : Config) : Except ConfigError Nat :=
  match c.leaseDuration with
  | none => .error .leaseGuardRequiresLeaseDuration
  | some lease =>
    match c.clockDriftBound with
    | none => .error .leaseGuardRequiresDriftBound
    | some drift =>
      let tooLong := ConfigError.leaseTimingTooLong lease drift c.electionTimeout
      let d := lease.asNanos
      let e := drift.asNanos
      if d ≤ e then .error tooLong
      else
        match (checkedMul d ((d + e) % 2 ^ 128)).map (divCeil · (d - e)) with
        | none => .error tooLong
        | some w => if u64Max < w ∨ c.electionTimeout.asNanos ≤ w then .error tooLong else .ok w

def leaseguardCommitWaitNs (c : Config) (mode : ReadMode) : Option Nat :=
  if mode ≠ .leaseGuard then none else c.leaseguardWindowResult.toOption

def leaseguardTiming (c : Config) (mode : ReadMode) : Option (Duration × Duration) := do
  let _ ← c.leaseguardCommitWaitNs mode
  let lease ← c.leaseDuration
  let drift ← c.clockDriftBound
  return (lease, drift)

end Config

def inflateByRational (window num denom : Nat) : Option Nat :=
  if denom = 0 then none else (checkedMul window num).bind fun p => toU64 (divCeil p denom)

/-- The wait of a successor with this configuration, in its active read mode. -/
def inflateInheritedWait (c : Config) (mode : ReadMode) (window : Nat) : Option Nat :=
  match c.leaseguardTiming mode with
  | none => inflateByRational window (1000000 + c.assumedClockRateBoundPpm) 1000000
  | some (delta, drift) =>
    (checkedAdd delta.asNanos drift.asNanos).bind fun num => inflateByRational window num delta.asNanos

/-! ## Rounding up -/

variable {a b w d e : Nat} {c : Config} {mode : ReadMode}

theorem divCeil_le_iff (pos : 0 < b) : divCeil a b ≤ w ↔ a ≤ w * b := by
  unfold divCeil
  split
  · next whole =>
    obtain ⟨k, rfl⟩ := Nat.dvd_of_mod_eq_zero whole
    rw [Nat.mul_div_cancel_left k pos, Nat.mul_comm w, Nat.mul_le_mul_left_iff pos]
  next rest =>
  rw [Nat.succ_le_iff, Nat.div_lt_iff_lt_mul pos]
  refine ⟨le_of_lt, fun le => lt_of_le_of_ne le fun same => rest ?_⟩
  rw [same, Nat.mul_mod_left]

theorem isLeast_divCeil (pos : 0 < b) : IsLeast {w | a ≤ w * b} (divCeil a b) :=
  ⟨(divCeil_le_iff pos).mp le_rfl, fun _ le => (divCeil_le_iff pos).mpr le⟩

theorem isLeast_iff_divCeil (pos : 0 < b) : IsLeast {w | a ≤ w * b} w ↔ w = divCeil a b :=
  ⟨fun least => least.unique (isLeast_divCeil pos), fun same => same ▸ isLeast_divCeil pos⟩

/-- A product that does not fit 128 bits, divided by what fits 64, does not fit 64. -/
theorem u64Max_lt_divCeil {p : Nat} (pos : 0 < b) (fits : b ≤ 2 ^ 64) (wide : 2 ^ 128 ≤ p) : u64Max < divCeil p b := by
  refine Nat.lt_of_not_le fun le => ?_
  have low := (divCeil_le_iff pos).mp le
  have : u64Max * b ≤ u64Max * 2 ^ 64 := Nat.mul_le_mul_left _ fits
  unfold u64Max at *
  omega

theorem Duration.asNanos_lt (d : Duration) : d.asNanos < 2 ^ 94 := by
  have := d.secs.isLt
  have := d.subsec.isLt
  unfold asNanos
  omega

/-! ## The window -/

theorem le_window (lt : e < d) : d ≤ divCeil (d * (d + e)) (d - e) := by
  have low := (divCeil_le_iff (show 0 < d - e by omega)).mp (le_refl (divCeil (d * (d + e)) (d - e)))
  refine Nat.le_of_mul_le_mul_right ?_ (show 0 < d - e by omega)
  exact (Nat.mul_le_mul_left d (show d - e ≤ d + e by omega)).trans low

theorem u64Max_lt_window (lt : e < d) (wide : 2 ^ 128 ≤ d * (d + e)) : u64Max < divCeil (d * (d + e)) (d - e) := by
  by_cases large : 2 ^ 64 ≤ d
  · have := le_window lt
    unfold u64Max
    omega
  · exact u64Max_lt_divCeil (by omega) (by omega) wide

theorem leaseguardWindowResult_ok {lease drift : Duration} (hl : c.leaseDuration = some lease)
    (hd : c.clockDriftBound = some drift) (w : Nat) :
    c.leaseguardWindowResult = .ok w ↔
      drift.asNanos < lease.asNanos ∧ w = divCeil (lease.asNanos * (lease.asNanos + drift.asNanos)) (lease.asNanos - drift.asNanos) ∧
        w ≤ u64Max ∧ w < c.electionTimeout.asNanos := by
  have narrow : (lease.asNanos + drift.asNanos) % 2 ^ 128 = lease.asNanos + drift.asNanos := by
    have := lease.asNanos_lt
    have := drift.asNanos_lt
    exact Nat.mod_eq_of_lt (by omega)
  unfold Config.leaseguardWindowResult
  simp only [hl, hd, narrow]
  by_cases lt : drift.asNanos < lease.asNanos
  · rw [if_neg (not_le.mpr lt)]
    unfold checkedMul
    by_cases fits : lease.asNanos * (lease.asNanos + drift.asNanos) < 2 ^ 128
    · simp only [if_pos fits, Option.map_some]
      split
      · next long =>
        refine ⟨nofun, ?_⟩
        rintro ⟨-, rfl, small, below⟩
        exact absurd long (not_or.mpr ⟨not_lt.mpr small, not_le.mpr below⟩)
      · next short =>
        obtain ⟨small, below⟩ := not_or.mp short
        rw [Except.ok.injEq]
        refine ⟨?_, fun ok => ok.2.1.symm⟩
        rintro rfl
        exact ⟨lt, rfl, not_lt.mp small, not_le.mp below⟩
    · simp only [if_neg fits, Option.map_none]
      refine ⟨nofun, ?_⟩
      rintro ⟨-, rfl, small, -⟩
      exact absurd small (not_le.mpr (u64Max_lt_window lt (not_lt.mp fits)))
  · rw [if_pos (not_lt.mp lt)]
    exact ⟨nofun, fun ok => absurd ok.1 lt⟩

/-! ## The inherited wait -/

/-- The answer is the window times `num / denom`, rounded up, if that fits. -/
def Inflates (window num denom : Nat) (answer : Option Nat) : Prop :=
  (∀ w, answer = some w ↔ IsLeast {w | window * num ≤ w * denom} w ∧ w ≤ u64Max) ∧
    (answer = none ↔ ∃ w, IsLeast {w | window * num ≤ w * denom} w ∧ u64Max < w)

theorem inflates_inflateByRational (window num : Nat) {denom : Nat} (pos : 0 < denom) (fits : denom ≤ 2 ^ 64) :
    Inflates window num denom (inflateByRational window num denom) := by
  have value : inflateByRational window num denom = toU64 (divCeil (window * num) denom) := by
    unfold inflateByRational checkedMul
    rw [if_neg (Nat.pos_iff_ne_zero.mp pos)]
    split
    · rfl
    · next wide =>
      rw [Option.bind_none, toU64, if_neg (not_le.mpr (u64Max_lt_divCeil pos fits (not_lt.mp wide)))]
  rw [value]
  unfold toU64
  refine ⟨fun w => ?_, ?_⟩
  · rw [isLeast_iff_divCeil pos]
    split
    · next small =>
      rw [Option.some.injEq]
      refine ⟨?_, fun least => least.1.symm⟩
      rintro rfl
      exact ⟨rfl, small⟩
    · next large =>
      refine ⟨nofun, ?_⟩
      rintro ⟨rfl, small⟩
      exact absurd small large
  · simp only [isLeast_iff_divCeil pos, exists_eq_left]
    split
    · next small => exact ⟨nofun, fun large => absurd small (not_le.mpr large)⟩
    · next large => exact ⟨fun _ => not_le.mp large, fun _ => rfl⟩

/-- A timing that is valid has a lease of at most 64 bits, longer than its drift. -/
theorem leaseguardTiming_bounds {delta drift : Duration}
    (h : c.leaseguardTiming mode = some (delta, drift)) : drift.asNanos < delta.asNanos ∧ delta.asNanos ≤ u64Max := by
  simp only [Config.leaseguardTiming, Option.bind_eq_bind, Option.bind_eq_some_iff, Option.pure_def, Option.some.injEq] at h
  obtain ⟨w, wait, lease, hl, bound, hd, same⟩ := h
  cases same
  unfold Config.leaseguardCommitWaitNs at wait
  split at wait
  · cases wait
  cases result : c.leaseguardWindowResult with
  | error err =>
    rw [result] at wait
    cases wait
  | ok v =>
    obtain ⟨lt, rfl, small, -⟩ := (leaseguardWindowResult_ok hl hd v).mp result
    exact ⟨lt, (le_window lt).trans small⟩

theorem inflates_timed {delta drift : Duration} (h : c.leaseguardTiming mode = some (delta, drift)) (window : Nat) :
    Inflates window (delta.asNanos + drift.asNanos) delta.asNanos (inflateInheritedWait c mode window) := by
  obtain ⟨lt, small⟩ := leaseguardTiming_bounds h
  unfold u64Max at small
  have sum : checkedAdd delta.asNanos drift.asNanos = some (delta.asNanos + drift.asNanos) := by
    rw [checkedAdd, if_pos (by omega)]
  unfold inflateInheritedWait
  simp only [h, sum, Option.bind_some]
  exact inflates_inflateByRational _ _ (by omega) (by omega)

theorem inflates_untimed (h : c.leaseguardTiming mode = none) (window : Nat) :
    Inflates window (1000000 + c.assumedClockRateBoundPpm) 1000000 (inflateInheritedWait c mode window) := by
  unfold inflateInheritedWait
  simp only [h]
  exact inflates_inflateByRational _ _ (by decide) (by decide)

/-- A wait of `w` on a clock that runs at most `num / denom` times real time lasts at least as long
as a lease of `d` on a clock that runs at least `(d - e) / d` times real time. -/
def Outlasts (d e num denom w : Nat) : Prop :=
  d * d * num ≤ w * denom * (d - e) ∧
    ∀ wait lease : ℚ, (w : ℚ) ≤ wait * (num / denom) → lease * ((d - e) / d) ≤ d → lease ≤ wait

theorem outlasts_of_window {num denom W M : Nat} (lt : e < d) (pos : 0 < denom) (up : 0 < num)
    (window : d * (d + e) ≤ W * (d - e)) (larger : W ≤ M) (inflated : M * num ≤ w * denom) : Outlasts d e num denom w := by
  have whole : d * d * num ≤ w * denom * (d - e) := by
    calc d * d * num ≤ d * (d + e) * num := Nat.mul_le_mul_right _ (Nat.mul_le_mul_left _ (by omega))
      _ ≤ W * (d - e) * num := Nat.mul_le_mul_right _ window
      _ ≤ M * (d - e) * num := Nat.mul_le_mul_right _ (Nat.mul_le_mul_right _ larger)
      _ = M * num * (d - e) := Nat.mul_right_comm _ _ _
      _ ≤ w * denom * (d - e) := Nat.mul_le_mul_right _ inflated
  refine ⟨whole, fun wait lease fast slow => ?_⟩
  have hd : (0 : ℚ) < d := by exact_mod_cast (show 0 < d by omega)
  have hde : (0 : ℚ) < d - e := by
    have : (e : ℚ) < d := by exact_mod_cast lt
    linarith
  have hden : (0 : ℚ) < denom := by exact_mod_cast pos
  have hnum : (0 : ℚ) < num := by exact_mod_cast up
  have whole' : (d : ℚ) * d * num ≤ w * denom * (d - e) := by
    have cast : ((d - e : Nat) : ℚ) = d - e := Nat.cast_sub lt.le
    rw [← cast]
    exact_mod_cast whole
  have lease_le : lease * (d - e) ≤ d * d := by
    rw [← mul_div_assoc, div_le_iff₀ hd] at slow
    exact slow
  have wait_ge : (w : ℚ) * denom ≤ wait * num := by
    rw [← mul_div_assoc, le_div_iff₀ hden] at fast
    exact fast
  -- both sides times `num * (d - e)`
  have both : lease * ((d - e) * num) ≤ wait * ((d - e) * num) := by
    calc lease * ((d - e) * num) = lease * (d - e) * num := by ring
      _ ≤ d * d * num := mul_le_mul_of_nonneg_right lease_le hnum.le
      _ ≤ w * denom * (d - e) := whole'
      _ ≤ wait * num * (d - e) := mul_le_mul_of_nonneg_right wait_ge hde.le
      _ = wait * ((d - e) * num) := by ring
  exact le_of_mul_le_mul_right both (mul_pos hde hnum)

/-- The window of a configuration is exact, the wait a successor makes of any window at least as
long is exact, and it outlasts the lease, whatever timing the successor has. -/
theorem lease_arithmetic_exact (c : Config) (lease drift election : Duration) :
    let d := lease.asNanos
    let e := drift.asNanos
    let result := ({ c with
      leaseDuration := some lease, clockDriftBound := some drift, electionTimeout := election } : Config).leaseguardWindowResult
    (∀ W, result = .ok W ↔ e < d ∧ IsLeast {w | d * (d + e) ≤ w * (d - e)} W ∧ W ≤ u64Max ∧ W < election.asNanos) ∧
      ∀ W, result = .ok W → ∀ M, W ≤ M → ∀ (successor : Config) (mode : ReadMode),
        (∀ delta bound, successor.leaseguardTiming mode = some (delta, bound) →
          Inflates M (delta.asNanos + bound.asNanos) delta.asNanos (inflateInheritedWait successor mode M) ∧
            ∀ w, inflateInheritedWait successor mode M = some w →
              Outlasts d e (delta.asNanos + bound.asNanos) delta.asNanos w) ∧
          (successor.leaseguardTiming mode = none →
            Inflates M (1000000 + successor.assumedClockRateBoundPpm) 1000000 (inflateInheritedWait successor mode M) ∧
              ∀ w, inflateInheritedWait successor mode M = some w →
                Outlasts d e (1000000 + successor.assumedClockRateBoundPpm) 1000000 w) := by
  intro d e result
  have ok (W : Nat) : result = .ok W ↔ e < d ∧ W = divCeil (d * (d + e)) (d - e) ∧ W ≤ u64Max ∧ W < election.asNanos :=
    leaseguardWindowResult_ok rfl rfl W
  refine ⟨fun W => ?_, fun W window M larger successor mode => ⟨fun delta bound timed => ?_, fun untimed => ?_⟩⟩
  · rw [ok]
    refine and_congr_right fun lt => ?_
    rw [isLeast_iff_divCeil (by omega)]
  all_goals
    obtain ⟨lt, rfl, -, -⟩ := (ok W).mp window
    have least : d * (d + e) ≤ _ * (d - e) := (isLeast_divCeil (show 0 < d - e by omega)).1
  · have inflates := inflates_timed timed M
    obtain ⟨below, -⟩ := leaseguardTiming_bounds timed
    refine ⟨inflates, fun w some_ => ?_⟩
    exact outlasts_of_window lt (by omega) (by omega) least larger ((inflates.1 w).mp some_).1.1
  · have inflates := inflates_untimed untimed M
    refine ⟨inflates, fun w some_ => ?_⟩
    exact outlasts_of_window lt (by decide) (by omega) least larger ((inflates.1 w).mp some_).1.1

end Sailing.Lease
