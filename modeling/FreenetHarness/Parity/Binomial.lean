import Mathlib.Algebra.Order.Ring.Rat
import Mathlib.Data.Nat.Choose.Sum
import Mathlib.Tactic.FieldSimp
import Mathlib.Tactic.IntervalCases
import Mathlib.Tactic.Linarith
import FreenetHarness.Parity.Score

/-! # What independence would have predicted

The coefficient is built by multiplying and dividing in turn, and the last cell of the
column is what the others leave. `binomial_iff` says for which widths the column is the
binomial distribution: the exponents are cast to 32 bits. -/
namespace FreenetHarness.Parity
open FreenetHarness.Lib.Run

/-- The loop has the binomial coefficient after every step. -/
theorem coefficient_eq {n k : Nat} (h : k ≤ n) : coefficient n k = .ok (n.choose k : ℚ) := by
  induction k with
  | zero => simp [coefficient]
  | succ k ih =>
    have hsub : k ≤ n := by omega
    have hstep : (n.choose k : ℚ) * (n - k : ℕ) / (k + 1) = n.choose (k + 1) := by
      rw [div_eq_iff (by positivity)]
      exact_mod_cast (Nat.choose_succ_right_eq n k).symm
    rw [coefficient, ih hsub, checkedSub_of_le hsub]
    exact congrArg Except.ok hstep

theorem asI32_of_lt {n : Nat} (h : n < 2 ^ 31) : asI32 n = n := by
  unfold asI32
  split <;> omega

theorem asI32_lt (n : Nat) : asI32 n < 2 ^ 31 := by
  have := Nat.mod_lt n (show 0 < 2 ^ 32 by norm_num)
  unfold asI32
  split <;> omega

theorem binomial_eq {n k : Nat} (h : k ≤ n) (p : ℚ) :
    binomial n k p = .ok (n.choose k * p ^ asI32 k * (1 - p) ^ asI32 (n - k)) := by
  rw [binomial, coefficient_eq h, checkedSub_of_le h]
  rfl

/-- One term of the distribution. -/
def term (n : Nat) (p : ℚ) (k : Nat) : ℚ := n.choose k * p ^ k * (1 - p) ^ (n - k)

theorem binomial_eq_term {n k : Nat} (hn : n < 2 ^ 31) (h : k ≤ n) (p : ℚ) :
    binomial n k p = .ok (term n p k) := by
  rw [binomial_eq h, asI32_of_lt (by omega), asI32_of_lt (by omega), zpow_natCast, zpow_natCast]
  rfl

theorem term_nonneg {p : ℚ} (h0 : 0 ≤ p) (h1 : p ≤ 1) (n k : Nat) : 0 ≤ term n p k := by
  have : 0 ≤ 1 - p := by linarith
  unfold term
  positivity

theorem sum_term (n : Nat) (p : ℚ) : ∑ k ∈ Finset.range (n + 1), term n p k = 1 := by
  have h := add_pow p (1 - p) n
  rw [add_sub_cancel, one_pow] at h
  rw [h]
  exact Finset.sum_congr rfl fun k _ => by rw [term]; ring

/-- The first four terms leave no less than nothing. -/
theorem sum_four_le {n : Nat} (hn : 4 ≤ n) {p : ℚ} (h0 : 0 ≤ p) (h1 : p ≤ 1) :
    ((List.range 4).map (term n p)).sum ≤ 1 := by
  have hsub : Finset.range 4 ⊆ Finset.range (n + 1) := Finset.range_subset_range.mpr (by omega)
  calc ((List.range 4).map (term n p)).sum = ∑ k ∈ Finset.range 4, term n p k := rfl
    _ ≤ ∑ k ∈ Finset.range (n + 1), term n p k :=
      Finset.sum_le_sum_of_subset_of_nonneg hsub fun k _ _ => term_nonneg h0 h1 n k
    _ = 1 := sum_term n p

/-- The column is a probability distribution. -/
structure Distribution (column : List ℚ) : Prop where
  mem : ∀ x ∈ column, 0 ≤ x ∧ x ≤ 1
  sum : column.sum = 1

/-- The loop computes the binomial distribution of `n` blocks, and the predicted column is
one. -/
def Predicts (n : Nat) : Prop :=
  ∀ p : ℚ, 0 ≤ p → p ≤ 1 →
    (∀ k ≤ n, binomial n k p = .ok (n.choose k * p ^ k * (1 - p) ^ (n - k))) ∧
      ∃ column, (List.range 5).mapM (predicted n p) = .ok column ∧ Distribution column

theorem predicted_of_lt {n : Nat} (h4 : 4 ≤ n) (hn : n < 2 ^ 31) (p : ℚ) :
    (List.range 5).mapM (predicted n p) =
      .ok ((List.range 4).map (term n p) ++ [1 - ((List.range 4).map (term n p)).sum]) := by
  have hfour : ((List.range 4).mapM fun j => binomial n j p) =
      .ok ((List.range 4).map (term n p)) :=
    mapM_of_ok fun j hj => binomial_eq_term hn (by have := List.mem_range.mp hj; omega) p
  have heach : ∀ k ∈ List.range 5, predicted n p k =
      .ok (if k = 4 then 1 - ((List.range 4).map (term n p)).sum else term n p k) := by
    intro k hk
    have hk := List.mem_range.mp hk
    unfold predicted
    split
    · rw [hfour]
      rfl
    · exact binomial_eq_term hn (by omega) p
  rw [mapM_of_ok heach]
  rfl

theorem predicts_of_lt {n : Nat} (h4 : 4 ≤ n) (hn : n < 2 ^ 31) : Predicts n := by
  intro p h0 h1
  have hfour := sum_four_le h4 h0 h1
  have hpos := fun k => term_nonneg h0 h1 n k
  refine ⟨fun k hk => binomial_eq_term hn hk p, _, predicted_of_lt h4 hn p, ?_, by simp⟩
  have hle : ∀ k ∈ List.range 4, term n p k ≤ ((List.range 4).map (term n p)).sum := by
    intro k hk
    refine List.single_le_sum (fun x hx => ?_) _ (List.mem_map_of_mem hk)
    obtain ⟨j, -, rfl⟩ := List.mem_map.mp hx
    exact hpos j
  intro x hx
  rcases List.mem_append.mp hx with hx | hx
  · obtain ⟨k, hk, rfl⟩ := List.mem_map.mp hx
    exact ⟨hpos k, (hle k hk).trans hfour⟩
  · rw [List.mem_singleton.mp hx]
    have : 0 ≤ ((List.range 4).map (term n p)).sum := (hpos 0).trans (hle 0 (by decide))
    exact ⟨by linarith, by linarith⟩

/-- An exponent that does not fit its type is another number, and a half tells them
apart. -/
theorem not_predicts {n : Nat} (h : 2 ^ 31 ≤ n) : ¬ Predicts n := by
  intro hp
  have hk := (hp (1 / 2) (by norm_num) (by norm_num)).1 0 (Nat.zero_le n)
  rw [binomial_eq (Nat.zero_le n), asI32_of_lt (by norm_num), Nat.sub_zero] at hk
  have hhalf := Except.ok.inj hk
  norm_num at hhalf
  have hpow : ((1 / 2 : ℚ)) ^ asI32 n = (1 / 2 : ℚ) ^ (n : ℤ) := by
    rw [zpow_natCast]
    simpa using hhalf
  have hinj := zpow_right_injective₀ (show (0 : ℚ) < 1 / 2 by norm_num) (by norm_num) hpow
  have := asI32_lt n
  omega

/-- The five counts of the measured column take every group once. -/
theorem sum_measured {T : Type} (reads : Reads T) (gs : List Group) :
    ((List.range 5).map (measuredCount reads gs)).sum = gs.length := by
  induction gs with
  | nil => rfl
  | cons g gs ih =>
    have hcons : ∀ k ∈ List.range 5, measuredCount reads (g :: gs) k = measuredCount reads gs k +
        if (if k = 4 then 4 ≤ misses reads g else misses reads g = k) then 1 else 0 := by
      intro k _
      rw [measuredCount, List.countP_cons, measuredCount]
      split <;> simp_all
    have hone : ((List.range 5).map fun k =>
        if (if k = 4 then 4 ≤ misses reads g else misses reads g = k) then 1 else 0).sum = 1 := by
      have hcases : misses reads g = 0 ∨ misses reads g = 1 ∨ misses reads g = 2 ∨
          misses reads g = 3 ∨ 4 ≤ misses reads g := by omega
      rcases hcases with h | h | h | h | h
      · simp [List.range_succ, h]
      · simp [List.range_succ, h]
      · simp [List.range_succ, h]
      · simp [List.range_succ, h]
      · have hne : misses reads g ≠ 0 ∧ misses reads g ≠ 1 ∧ misses reads g ≠ 2 ∧
            misses reads g ≠ 3 := by omega
        simp [List.range_succ, h, hne]
    rw [List.map_congr_left hcons, List.sum_map_add, ih, hone, List.length_cons]

/-- **The predicted column.** It is the binomial distribution for the widths that fit the
exponents' type, and for no other; the measured column has every group once. -/
theorem binomial_iff {n : Nat} (h4 : 4 ≤ n) :
    (Predicts n ↔ n < 2 ^ 31) ∧
      ∀ (T : Type) (reads : Reads T) (gs : List Group),
        ((List.range 5).map (measuredCount reads gs)).sum = gs.length := by
  refine ⟨⟨fun h => ?_, predicts_of_lt h4⟩, fun T reads gs => sum_measured reads gs⟩
  by_contra hn
  exact not_predicts (Nat.le_of_not_lt hn) h

theorem binomial_four :
    Predicts 4 ∧ ((List.range 5).map
      (measuredCount (fun _ => none : Reads ℚ) (byGroup (groupOf 1 4)))).sum = 1 :=
  ⟨(binomial_iff le_rfl).1.mpr (by norm_num), (binomial_iff le_rfl).2 ℚ _ (byGroup (groupOf 1 4))⟩

/-- The first width that does not fit. -/
theorem wide_not_predicted : ¬ Predicts 2147483648 := not_predicts (by norm_num)

end FreenetHarness.Parity
