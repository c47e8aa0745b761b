import FreenetHarness.Lib.Number

/-! # Numbers for the tables: times, sizes and what a loss count may claim -/
namespace FreenetHarness.Stats
open FreenetHarness.Lib.Number

/-- A duration in nanoseconds as milliseconds, `as_secs_f64() * 1000.0`. -/
def millis (d : Nat) : ℚ := d / 1000000

/-- `ms_since`, at the clock reading `now`. -/
def msSince (t now : Nat) : ℚ := millis (now - t)

theorem millis_nonneg (d : Nat) : 0 ≤ millis d := by
  unfold millis
  positivity

theorem msSince_nonneg (t now : Nat) : 0 ≤ msSince t now := millis_nonneg _

theorem millis_le {d d' : Nat} : millis d ≤ millis d' ↔ d ≤ d' := by
  rw [millis, millis, div_le_div_iff_of_pos_right (by norm_num), Nat.cast_le]

theorem millis_lt {d d' : Nat} : millis d < millis d' ↔ d < d' := by
  rw [← not_le, ← not_le, millis_le]

/-- `16384` as `16 KiB`, for table labels. -/
def kib (bytes : Nat) : String :=
  if 1024 ≤ bytes ∧ bytes % 1024 = 0 then s!"{bytes / 1024} KiB" else s!"{bytes} B"

/-- What a run that lost `lost` of `n` is allowed to claim. -/
def lossClaim (lost n : Nat) : String :=
  if n = 0 then "no trials — nothing is claimed"
  else if 0 < lost then
    let rate := String.ofList (print1 (100 * lost / n))
    s!"{lost} of {n} lost — an observed loss rate of {rate} %"
  else if (100 : ℚ) ≤ 300 / n then
    s!"0 of {n} lost — too few trials to bound the loss rate at all"
  else
    let bound := String.ofList (print1 (300 / n))
    s!"0 of {n} lost — by the rule of three that bounds the loss rate below about {bound} %, " ++
      "which is NOT the same as durable"

end FreenetHarness.Stats
