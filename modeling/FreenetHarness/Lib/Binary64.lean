import Mathlib.Data.Int.Log
import Mathlib.Tactic.Linarith
import FreenetHarness.Lib.Number

/-! # Doubles

`near` takes a number to the nearest double. `near_lt_zero` says that no difference of doubles
loses its sign to the rounding, so that a comparison of the two comes out exact, and
`near_close` how far a double can be from what it stands for. -/
namespace FreenetHarness.Lib.Binary64
open FreenetHarness.Lib.Number

/-- The exponent of the finest place there is. -/
def finest : ℤ := -1074

/-- The exponent of the last place of a double of this size. -/
def place (q : ℚ) : ℤ := max finest (Int.log 2 |q| - 52)

/-- The nearest double, ties to even. The largest are not cut off. -/
def near (q : ℚ) : ℚ :=
  let n : ℚ := roundHalfEven (|q| / 2 ^ place q) * 2 ^ place q
  if q < 0 then -n else n

/-- A multiple of the finest place there is. Every double is one. -/
def OnGrid (q : ℚ) : Prop := ∃ z : ℤ, q = z * 2 ^ finest

theorem OnGrid.neg {q : ℚ} (h : OnGrid q) : OnGrid (-q) := by
  obtain ⟨z, rfl⟩ := h
  exact ⟨-z, by push_cast; ring⟩

theorem OnGrid.sub {p q : ℚ} (hp : OnGrid p) (hq : OnGrid q) : OnGrid (p - q) := by
  obtain ⟨y, rfl⟩ := hp
  obtain ⟨z, rfl⟩ := hq
  exact ⟨y - z, by push_cast; ring⟩

theorem place_pos (q : ℚ) : (0 : ℚ) < 2 ^ place q := zpow_pos two_pos _

theorem onGrid_near (q : ℚ) : OnGrid (near q) := by
  have hn : OnGrid ((roundHalfEven (|q| / 2 ^ place q) : ℚ) * 2 ^ place q) := by
    obtain ⟨k, hk⟩ : ∃ k : ℕ, place q = k + finest :=
      ⟨(place q - finest).toNat, by have : finest ≤ place q := le_max_left ..; omega⟩
    refine ⟨roundHalfEven (|q| / 2 ^ place q) * 2 ^ k, ?_⟩
    rw [hk, zpow_add₀ two_ne_zero, zpow_natCast]
    push_cast
    ring
  unfold near
  dsimp only
  split
  · exact hn.neg
  · exact hn

/-! ## Signs -/

/-- Half a place is less than any multiple of the grid that is no zero. -/
theorem half_place_lt {q : ℚ} (h : OnGrid q) (h0 : q ≠ 0) : 2 ^ place q / 2 < |q| := by
  have hq : 0 < |q| := abs_pos.mpr h0
  obtain hmin | hlog := le_total (Int.log 2 |q| - 52) finest
  · -- the finest place: the number is a whole multiple of it
    have hplace : place q = finest := max_eq_left hmin
    obtain ⟨z, rfl⟩ := h
    have hz : z ≠ 0 := fun hz => h0 (by rw [hz, Int.cast_zero, zero_mul])
    have hone : (1 : ℚ) ≤ |(z : ℚ)| := by exact_mod_cast Int.one_le_abs hz
    have hgrid : (0 : ℚ) < 2 ^ finest := zpow_pos two_pos _
    rw [hplace, abs_mul, abs_of_pos hgrid]
    have := mul_le_mul_of_nonneg_right hone hgrid.le
    linarith
  · -- a normal number: 52 places are above the last one
    have hplace : place q = Int.log 2 |q| - 52 := max_eq_right hlog
    have hle : (2 : ℚ) ^ place q ≤ 2 ^ Int.log 2 |q| :=
      zpow_le_zpow_right₀ one_le_two (by omega)
    have hlow : (2 : ℚ) ^ Int.log 2 |q| ≤ |q| := by
      exact_mod_cast Int.zpow_log_le_self (b := 2) (by decide) hq
    have := place_pos q
    linarith

/-- **Rounding keeps the sign** of a multiple of the grid. -/
theorem near_lt_zero {q : ℚ} (h : OnGrid q) : near q < 0 ↔ q < 0 := by
  unfold near
  dsimp only
  have hpos := place_pos q
  split
  · rename_i hq
    refine iff_of_true ?_ hq
    obtain ⟨-, hhi⟩ := roundHalfEven_near (div_nonneg (abs_nonneg q) hpos.le)
    have hlt : (1 : ℚ) / 2 < |q| / 2 ^ place q := by
      rw [lt_div_iff₀ hpos]
      linarith [half_place_lt h hq.ne]
    have hround : (0 : ℚ) < roundHalfEven (|q| / 2 ^ place q) := by linarith
    exact neg_neg_of_pos (mul_pos hround hpos)
  · rename_i hq
    exact iff_of_false (not_lt.mpr (mul_nonneg (Nat.cast_nonneg _) hpos.le)) hq

/-! ## Distances -/

/-- A double is no further than half its last place. -/
theorem near_half_place (q : ℚ) : |near q - q| ≤ 2 ^ place q / 2 := by
  have hpos := place_pos q
  obtain ⟨hlo, hhi⟩ := roundHalfEven_near (div_nonneg (abs_nonneg q) hpos.le)
  have hq : |q| / 2 ^ place q * 2 ^ place q = |q| := div_mul_cancel₀ _ hpos.ne'
  have hlo' := mul_le_mul_of_nonneg_right hlo hpos.le
  have hhi' := mul_le_mul_of_nonneg_right hhi hpos.le
  rw [hq] at hlo' hhi'
  unfold near
  dsimp only
  split
  · rename_i hneg
    rw [abs_of_neg hneg] at *
    rw [abs_le]
    constructor <;> linarith
  · rename_i hnn
    rw [abs_of_nonneg (not_lt.mp hnn)] at *
    rw [abs_le]
    constructor <;> linarith

/-- Of numbers below `2 ^ (e + 53)` the last place is `2 ^ e` at most. -/
theorem near_close {q : ℚ} {e : ℤ} (he : finest ≤ e) (h : |q| < 2 ^ (e + 53)) :
    |near q - q| ≤ 2 ^ e / 2 := by
  obtain rfl | h0 := eq_or_ne q 0
  · have hzero : near 0 = 0 := by decide +kernel
    rw [hzero, sub_zero, abs_zero]
    exact div_nonneg (zpow_pos two_pos e).le zero_le_two
  · have hlog : Int.log 2 |q| < e + 53 :=
      (Int.lt_zpow_iff_log_lt (by decide) (abs_pos.mpr h0)).mp (by exact_mod_cast h)
    have hplace : place q ≤ e := max_le he (by omega)
    have := zpow_le_zpow_right₀ (one_le_two : (1 : ℚ) ≤ 2) hplace
    linarith [near_half_place q]

/-- Rounding does not double a number. -/
theorem abs_near_lt {q : ℚ} {k : ℤ} (hk : finest + 53 ≤ k) (h : |q| < 2 ^ k) :
    |near q| < 2 ^ (k + 1) := by
  have hclose : |near q - q| ≤ 2 ^ (k - 53) / 2 :=
    near_close (by omega) (by rwa [sub_add_cancel])
  have hle : (2 : ℚ) ^ (k - 53) ≤ 2 ^ k := zpow_le_zpow_right₀ one_le_two (by omega)
  have hpos : (0 : ℚ) < 2 ^ k := zpow_pos two_pos k
  rw [zpow_add_one₀ two_ne_zero]
  calc |near q| = |near q - q + q| := by rw [sub_add_cancel]
    _ ≤ |near q - q| + |q| := abs_add_le _ _
    _ < 2 ^ k * 2 := by linarith

end FreenetHarness.Lib.Binary64

/-! ## Floats -/

namespace FreenetHarness.Lib.Number.F64
open FreenetHarness.Lib.Binary64

/-- A float as it is held: what a decimal is read as, and what an operation on floats leaves of
its exact result. -/
def round : F64 → F64
  | .fin q => if 2 ^ 1024 ≤ |near q| then .inf (q < 0) else .fin (near q)
  | x => x

/-- A double, or no number. -/
def Held (x : F64) : Prop := ∀ q, x = .fin q → OnGrid q

theorem round_fin {q : ℚ} (h : |q| < 2 ^ (1023 : ℤ)) : (fin q).round = .fin (near q) := by
  have hlt : |near q| < 2 ^ 1024 := (abs_near_lt (by decide) h).trans_eq (zpow_natCast 2 1024)
  unfold round
  dsimp only
  rw [if_neg (not_le.mpr hlt)]

theorem held_round (x : F64) : x.round.Held := by
  intro q hq
  unfold round at hq
  split at hq
  · split at hq
    · cases hq
    · cases hq
      exact onGrid_near _
  · rename_i hne
    exact absurd hq (hne q)

/-- `-` of doubles. -/
def sub64 (x y : F64) : F64 := (x.sub y).round

/-- **A difference of doubles is negative** exactly where the one is below the other. -/
theorem sub64_lt_zero {x : F64} {q : ℚ} (hx : x.Held) (hq : OnGrid q) :
    (x.sub64 (.fin q)).lt (.fin 0) = x.lt (.fin q) := by
  cases x with
  | nan => rfl
  | inf a => cases a <;> rfl
  | fin p =>
    have hsign := near_lt_zero ((hx p rfl).sub hq)
    have hneg : p - q < 0 ↔ p < q := sub_neg
    rw [sub64, sub_fin, lt_fin]
    unfold round
    dsimp only
    split
    · by_cases hpq : p < q
      · simp [hneg, hpq, lt]
      · simp [hneg, hpq, lt]
    · exact decide_eq_decide.mpr (hsign.trans hneg)

end FreenetHarness.Lib.Number.F64
