import Mathlib.Algebra.BigOperators.Ring.List
import Mathlib.Algebra.Order.BigOperators.Group.List
import Mathlib.Algebra.Order.Field.Basic
import Mathlib.Tactic.FieldSimp
import Mathlib.Tactic.Linarith
import Mathlib.Tactic.Ring

/-! # Least squares

A line `y = a + b * x` through points of an ordered field, and the sum of its squared
residuals. About the means, that sum is a square in the intercept and a square in the
slope (`residual_fitted`); with points of two abscissas both have one zero, so there is one
best line (`best_fitted`). With one abscissa only, no line is the best (`exists_best_iff`). -/
namespace FreenetHarness.Lib.LeastSquares

variable {K : Type*} [Field K]

def mean (xs : List K) : K := xs.sum / xs.length

/-- The squared distances from the mean, summed. -/
def spread (pts : List (K × K)) : K :=
  (pts.map fun p => (p.1 - mean (pts.map Prod.fst)) ^ 2).sum

def cross (pts : List (K × K)) : K :=
  (pts.map fun p => (p.1 - mean (pts.map Prod.fst)) * (p.2 - mean (pts.map Prod.snd))).sum

/-- The squared residuals of the line with intercept `a` and slope `b`, summed. -/
def residual (pts : List (K × K)) (a b : K) : K := (pts.map fun p => (p.2 - (a + b * p.1)) ^ 2).sum

def fittedSlope (pts : List (K × K)) : K := cross pts / spread pts

def fittedIntercept (pts : List (K × K)) : K :=
  mean (pts.map Prod.snd) - fittedSlope pts * mean (pts.map Prod.fst)

/-- Every point is on the line. -/
def OnLine (pts : List (K × K)) (a b : K) : Prop := ∀ p ∈ pts, p.2 = a + b * p.1

/-- Two of the points have different abscissas. -/
def TwoAbscissas (pts : List (K × K)) : Prop := ∃ p ∈ pts, ∃ q ∈ pts, p.1 ≠ q.1

theorem eq_of_not_twoAbscissas {pts : List (K × K)} (h : ¬ TwoAbscissas pts) :
    ∃ c, ∀ p ∈ pts, p.1 = c := by
  cases pts with
  | nil => exact ⟨0, by simp⟩
  | cons p pts =>
    refine ⟨p.1, fun q hq => ?_⟩
    by_contra hne
    exact h ⟨q, hq, p, List.mem_cons_self .., hne⟩

/-- What a line leaves, by the moments of the points about `(m, μ)`. -/
theorem residual_moments (pts : List (K × K)) (m μ a b : K) :
    residual pts a b =
      (pts.map fun p => (p.2 - μ) ^ 2).sum - 2 * b * (pts.map fun p => (p.1 - m) * (p.2 - μ)).sum +
        b ^ 2 * (pts.map fun p => (p.1 - m) ^ 2).sum + pts.length * (μ - (a + b * m)) ^ 2 +
        2 * (μ - (a + b * m)) *
          ((pts.map fun p => p.2 - μ).sum - b * (pts.map fun p => p.1 - m).sum) := by
  induction pts with
  | nil => simp [residual]
  | cons p pts ih =>
    rw [residual] at ih ⊢
    simp only [List.map_cons, List.sum_cons, ih, List.length_cons, Nat.cast_add, Nat.cast_one]
    ring

theorem sum_map_sub_const (xs : List K) (c : K) :
    (xs.map fun x => x - c).sum = xs.sum - xs.length * c := by
  induction xs with
  | nil => simp
  | cons x xs ih =>
    simp only [List.map_cons, List.sum_cons, ih, List.length_cons, Nat.cast_add, Nat.cast_one]
    ring

variable [LinearOrder K] [IsStrictOrderedRing K]

/-- The distances from the mean cancel. -/
theorem sum_sub_mean {xs : List K} (h : xs ≠ []) : (xs.map fun x => x - mean xs).sum = 0 := by
  have hn : (xs.length : K) ≠ 0 := Nat.cast_ne_zero.mpr (List.length_pos_iff.mpr h).ne'
  rw [sum_map_sub_const, mean, mul_div_cancel₀ _ hn, sub_self]

theorem residual_eq {pts : List (K × K)} (h : pts ≠ []) (a b : K) :
    residual pts a b =
      (pts.map fun p => (p.2 - mean (pts.map Prod.snd)) ^ 2).sum - 2 * b * cross pts +
        b ^ 2 * spread pts +
        pts.length * (mean (pts.map Prod.snd) - (a + b * mean (pts.map Prod.fst))) ^ 2 := by
  have hx := @sum_sub_mean K _ _ _ (pts.map Prod.fst) (by simpa using h)
  have hy := @sum_sub_mean K _ _ _ (pts.map Prod.snd) (by simpa using h)
  rw [List.map_map] at hx hy
  rw [residual_moments pts (mean (pts.map Prod.fst)) (mean (pts.map Prod.snd)) a b]
  simp only [Function.comp_def] at hx hy
  rw [hx, hy, spread, cross]
  ring

/-- The best line, and by how much another is worse. -/
theorem residual_fitted {pts : List (K × K)} (h : pts ≠ []) (hs : spread pts ≠ 0) (a b : K) :
    residual pts a b = residual pts (fittedIntercept pts) (fittedSlope pts) +
      (spread pts * (b - fittedSlope pts) ^ 2 +
        pts.length * (mean (pts.map Prod.snd) - (a + b * mean (pts.map Prod.fst))) ^ 2) := by
  have hcross : cross pts = fittedSlope pts * spread pts := (div_mul_cancel₀ _ hs).symm
  rw [residual_eq h, residual_eq h, hcross, fittedIntercept]
  ring

/-! ## The best line -/

/-- No line leaves less, and no other leaves as little. -/
structure Best (pts : List (K × K)) (a b : K) : Prop where
  least : ∀ a' b', residual pts a b ≤ residual pts a' b'
  only : ∀ a' b', residual pts a' b' = residual pts a b → a' = a ∧ b' = b

theorem best_fitted {pts : List (K × K)} (h : 0 < spread pts) :
    Best pts (fittedIntercept pts) (fittedSlope pts) := by
  have hne : pts ≠ [] := by
    rintro rfl
    exact lt_irrefl _ h
  have hn : (0 : K) < pts.length := Nat.cast_pos.mpr (List.length_pos_iff.mpr hne)
  constructor
  · intro a b
    rw [residual_fitted hne h.ne' a b]
    exact le_add_of_nonneg_right (by positivity)
  · intro a b he
    rw [residual_fitted hne h.ne' a b, add_eq_left] at he
    have hslope : 0 ≤ spread pts * (b - fittedSlope pts) ^ 2 := by positivity
    obtain ⟨hb, ha⟩ := (add_eq_zero_iff_of_nonneg hslope (by positivity)).mp he
    have hb : b = fittedSlope pts := by simpa [h.ne', sub_eq_zero] using hb
    have ha : mean (pts.map Prod.snd) = a + b * mean (pts.map Prod.fst) := by
      simpa [hn.ne', sub_eq_zero] using ha
    refine ⟨?_, hb⟩
    rw [fittedIntercept, ha, hb]
    ring

theorem residual_nonneg (pts : List (K × K)) (a b : K) : 0 ≤ residual pts a b := by
  refine List.sum_nonneg fun d hd => ?_
  obtain ⟨p, -, rfl⟩ := List.mem_map.mp hd
  positivity

/-- Points that lie on a line have that line for their best. -/
theorem Best.eq_of_onLine {pts : List (K × K)} {a b a' b' : K} (h : Best pts a b)
    (hon : OnLine pts a' b') : a' = a ∧ b' = b := by
  have hzero : residual pts a' b' = 0 := by
    have : ∀ p ∈ pts, (p.2 - (a' + b' * p.1)) ^ 2 = 0 := fun p hp => by
      rw [hon p hp, sub_self, zero_pow two_ne_zero]
    rw [residual, List.map_congr_left this]
    simp
  have hle := h.least a' b'
  have := residual_nonneg pts a b
  exact h.only a' b' (by linarith)

/-! ## When there is one -/

theorem spread_sq_nonneg (pts : List (K × K)) :
    ∀ d ∈ pts.map fun p => (p.1 - mean (pts.map Prod.fst)) ^ 2, 0 ≤ d := by
  intro d hd
  obtain ⟨p, -, rfl⟩ := List.mem_map.mp hd
  positivity

theorem spread_nonneg (pts : List (K × K)) : 0 ≤ spread pts :=
  List.sum_nonneg (spread_sq_nonneg pts)

theorem spread_eq_zero_iff {pts : List (K × K)} : spread pts = 0 ↔ ¬ TwoAbscissas pts := by
  constructor
  · rintro h ⟨p, hp, q, hq, hne⟩
    have hmean : ∀ r ∈ pts, r.1 = mean (pts.map Prod.fst) := by
      intro r hr
      have := List.all_zero_of_le_zero_le_of_sum_eq_zero (spread_sq_nonneg pts) h
        (List.mem_map_of_mem hr)
      simpa [sub_eq_zero] using this
    exact hne ((hmean p hp).trans (hmean q hq).symm)
  · intro h
    obtain ⟨c, hc⟩ := eq_of_not_twoAbscissas h
    by_cases hne : pts = []
    · simp [hne, spread]
    have hn : (pts.length : K) ≠ 0 := Nat.cast_ne_zero.mpr (List.length_pos_iff.mpr hne).ne'
    have hmean : mean (pts.map Prod.fst) = c := by
      rw [mean, List.map_congr_left hc]
      simp [hn]
    rw [spread, hmean, List.map_congr_left (g := fun _ => 0) fun p hp => by simp [hc p hp]]
    simp

/-- The spread tells whether two abscissas differ. -/
theorem spread_pos_iff {pts : List (K × K)} : 0 < spread pts ↔ TwoAbscissas pts := by
  rw [(spread_nonneg pts).lt_iff_ne', ne_eq, spread_eq_zero_iff, not_not]

/-- **Where there is a best line.** Through points of one abscissa a line can be turned
about that point without leaving more. -/
theorem exists_best_iff {pts : List (K × K)} : (∃ a b, Best pts a b) ↔ TwoAbscissas pts := by
  constructor
  · rintro ⟨a, b, h⟩
    by_contra hsame
    obtain ⟨c, hc⟩ := eq_of_not_twoAbscissas hsame
    have hturned : residual pts (a + c) (b - 1) = residual pts a b := by
      refine congrArg List.sum (List.map_congr_left fun p hp => ?_)
      rw [hc p hp]
      ring
    have := (h.only _ _ hturned).2
    linarith
  · exact fun h => ⟨_, _, best_fitted (spread_pos_iff.mpr h)⟩

end FreenetHarness.Lib.LeastSquares
