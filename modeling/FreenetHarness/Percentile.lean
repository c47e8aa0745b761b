import Mathlib.Data.Rat.Floor
import Mathlib.Tactic.Linarith
import Mathlib.Tactic.FieldSimp
import FreenetHarness.Parity.Score

/-! # Percentiles

Three functions name a sample for a percentage: `nearestRank`, which `Summary.of` takes its
columns from, `pct` of the group role and `quantile` of the parity role. The first two are
the nearest rank (`nearestRank_iff`); `agree_iff` says where the third is as well. -/
namespace FreenetHarness.Percentile
open FreenetHarness.Lib.Ranks FreenetHarness.Lib.Run FreenetHarness.Parity

variable {T : Type} [LinearOrder T]

/-! ## The code -/

/-- Nearest-rank percentile of an already-sorted slice. -/
def nearestRank (sorted : List T) (pct : ℚ) : Except Fault T := do
  let rank := max ⌈pct / 100 * sorted.length⌉₊ 1
  index sorted (← checkedSub (min rank sorted.length) 1)

/-- The five numbers reported for one measured series. -/
structure Summary (T : Type) where
  n : Nat
  min : T
  p50 : T
  p90 : T
  p99 : T
  max : T
  deriving DecidableEq

/-- `none` for an empty series — no samples is not a latency of zero. -/
def Summary.of (samples : List T) : Except Fault (Option (Summary T)) :=
  if samples = [] then .ok none
  else do
    let s := sorted samples
    let min ← index s 0
    let p50 ← nearestRank s 50
    let p90 ← nearestRank s 90
    let p99 ← nearestRank s 99
    let max ← index s (← checkedSub s.length 1)
    return some { n := s.length, min, p50, p90, p99, max }

/-- `clamp`, which does not take an empty range. -/
def clamp (x lo hi : Nat) : Except Fault Nat :=
  if lo ≤ hi then .ok (max lo (min x hi)) else .error .panic

/-- Nearest-rank percentile, for the one percentile `Summary` does not carry. -/
def pct (v : List T) (p : ℚ) : Except Fault T := do
  let s := sorted v
  let rank ← clamp ⌈p / 100 * s.length⌉₊ 1 s.length
  index s (← checkedSub rank 1)

/-! ## Nearest rank -/

/-- At least `q` percent of the samples are at most `v`, and fewer are below it. -/
structure IsPercentile (l : List T) (q : ℚ) (v : T) : Prop where
  mem : v ∈ l
  reached : q / 100 * l.length ≤ l.countP fun x => decide (x ≤ v)
  below : (l.countP fun x => decide (x < v)) < q / 100 * l.length

/-- The place of the nearest rank, from zero. -/
def place (n : Nat) (q : ℚ) : Nat := ⌈q / 100 * n⌉₊ - 1

/-- The place `quantile` rounds to. -/
def roundedPlace (n : Nat) (q : ℚ) : Nat := ⌊((n - 1 : Nat) : ℚ) * (q / 100) + 1 / 2⌋₊

section Place

variable {n : Nat} {q : ℚ}

theorem share_le (hq : q ≤ 100) (n : Nat) : q / 100 * n ≤ n := by
  have hn : (0 : ℚ) ≤ n := Nat.cast_nonneg n
  nlinarith

theorem ceil_share (hn : 0 < n) (hq : 0 < q) (hq' : q ≤ 100) :
    1 ≤ ⌈q / 100 * n⌉₊ ∧ ⌈q / 100 * n⌉₊ ≤ n :=
  ⟨Nat.ceil_pos.mpr (by positivity), Nat.ceil_le.mpr (share_le hq' n)⟩

theorem place_lt (hn : 0 < n) (hq : 0 < q) (hq' : q ≤ 100) : place n q < n := by
  have := ceil_share hn hq hq'
  unfold place
  omega

theorem place_le_place {r : ℚ} (h : q ≤ r) : place n q ≤ place n r := by
  have hn : (0 : ℚ) ≤ n := Nat.cast_nonneg n
  have : q / 100 * n ≤ r / 100 * n := by gcongr
  exact Nat.sub_le_sub_right (Nat.ceil_le_ceil this) 1

end Place

variable {l : List T} {q : ℚ}

/-- The place is the one whose value is the percentile. -/
theorem sorted_place_iff (hl : l ≠ []) (hq : 0 < q) (hq' : q ≤ 100) {v : T} :
    (sorted l)[place l.length q]? = some v ↔ IsPercentile l q v := by
  have hc := ceil_share (List.length_pos_iff.mpr hl) hq hq'
  have hbelow : (l.countP fun x => decide (x < v)) ≤ place l.length q ↔
      ((l.countP fun x => decide (x < v) : Nat) : ℚ) < q / 100 * l.length := by
    rw [← Nat.lt_ceil, place]
    omega
  have hreached : place l.length q < (l.countP fun x => decide (x ≤ v)) ↔
      q / 100 * l.length ≤ ((l.countP fun x => decide (x ≤ v) : Nat) : ℚ) := by
    rw [← Nat.ceil_le, place]
    omega
  rw [rank_iff, hbelow, hreached]
  exact ⟨fun ⟨h, hb, hr⟩ => ⟨h, hr, hb⟩, fun h => ⟨h.mem, h.below, h.reached⟩⟩

theorem nearestRank_sorted (hl : l ≠ []) (hq : 0 < q) (hq' : q ≤ 100) :
    nearestRank (sorted l) q = index (sorted l) (place l.length q) := by
  have hc := ceil_share (List.length_pos_iff.mpr hl) hq hq'
  rw [nearestRank, length_sorted, max_eq_left hc.1, min_eq_left hc.2, checkedSub_of_le hc.1]
  rfl

/-- The two clamps of `nearestRank` and the one of `pct` come to the same. -/
theorem pct_eq (hl : l ≠ []) (hq : 0 < q) (hq' : q ≤ 100) :
    pct l q = index (sorted l) (place l.length q) := by
  have hn : 0 < l.length := List.length_pos_iff.mpr hl
  have hc := ceil_share hn hq hq'
  rw [pct, length_sorted, clamp, if_pos (Nat.succ_le_of_lt hn),
    min_eq_left hc.2, max_eq_right hc.1]
  change (checkedSub ⌈q / 100 * (l.length : ℚ)⌉₊ 1 >>= index (sorted l)) = _
  rw [checkedSub_of_le hc.1]
  rfl

theorem quantile_eq (hl : l ≠ []) {v : T} :
    quantile l (q / 100) = .ok (some v) ↔
      (sorted l)[roundedPlace l.length q]? = some v := by
  have hn : 0 < l.length := List.length_pos_iff.mpr hl
  rw [← index_eq_ok, quantile, if_neg hl, checkedSub_of_le hn]
  change (index (sorted l) (roundedPlace l.length q) >>= fun x => .ok (some x)) = _ ↔ _
  cases index (sorted l) (roundedPlace l.length q) with
  | error e => exact iff_of_false (fun h => by cases h) (fun h => by cases h)
  | ok x => exact ⟨fun h => by cases h; rfl, fun h => by cases h; rfl⟩

/-- **The nearest rank** is the percentile. -/
theorem nearestRank_iff (hl : l ≠ []) (hq : 0 < q) (hq' : q ≤ 100) {v : T} :
    nearestRank (sorted l) q = .ok v ↔ IsPercentile l q v := by
  rw [nearestRank_sorted hl hq hq', index_eq_ok, sorted_place_iff hl hq hq']

theorem exists_percentile (hl : l ≠ []) (hq : 0 < q) (hq' : q ≤ 100) :
    ∃ v, IsPercentile l q v := by
  have hlt : place l.length q < (sorted l).length := by
    rw [length_sorted]
    exact place_lt (List.length_pos_iff.mpr hl) hq hq'
  exact ⟨_, (sorted_place_iff hl hq hq').mp (List.getElem?_eq_getElem hlt)⟩

/-- A larger percentage names no smaller sample. -/
theorem IsPercentile.mono {r : ℚ} {v w : T} (hl : l ≠ []) (hq : 0 < q) (hr : r ≤ 100) (h : q ≤ r)
    (hv : IsPercentile l q v) (hw : IsPercentile l r w) : v ≤ w :=
  le_of_rank_le (pairwise_sorted l) (place_le_place h)
    ((sorted_place_iff hl hq (h.trans hr)).mpr hv)
    ((sorted_place_iff hl (hq.trans_le h) hr).mpr hw)

/-! ## The summary -/

/-- What the five numbers of a summary are. -/
structure Summary.Reports (s : Summary T) (l : List T) : Prop where
  n : s.n = l.length
  min : s.min ∈ l ∧ ∀ x ∈ l, s.min ≤ x
  p50 : IsPercentile l 50 s.p50
  p90 : IsPercentile l 90 s.p90
  p99 : IsPercentile l 99 s.p99
  max : s.max ∈ l ∧ ∀ x ∈ l, x ≤ s.max

theorem first_iff {v : T} : (sorted l)[0]? = some v ↔ v ∈ l ∧ ∀ x ∈ l, v ≤ x := by
  rw [rank_iff, Nat.le_zero, List.countP_eq_zero, List.countP_pos_iff]
  simp only [decide_eq_true_eq, not_lt]
  exact ⟨fun ⟨h, hmin, _⟩ => ⟨h, hmin⟩, fun ⟨h, hmin⟩ => ⟨h, hmin, v, h, le_refl v⟩⟩

theorem last_iff {v : T} : (sorted l)[l.length - 1]? = some v ↔ v ∈ l ∧ ∀ x ∈ l, x ≤ v := by
  have hall : (l.countP fun x => decide (x ≤ v)) = l.length ↔ ∀ x ∈ l, x ≤ v := by
    simp [List.countP_eq_length]
  have hle : (l.countP fun x => decide (x ≤ v)) ≤ l.length := List.countP_le_length
  rw [rank_iff]
  constructor
  · rintro ⟨h, -, hlast⟩
    exact ⟨h, hall.mp (by omega)⟩
  · rintro ⟨h, hmax⟩
    have hpos := List.length_pos_of_mem h
    have hne : (l.countP fun x => decide (x < v)) ≠ l.length := by
      intro he
      have := List.countP_eq_length.mp he v h
      simp at this
    have hlt : (l.countP fun x => decide (x < v)) ≤ l.length := List.countP_le_length
    have := hall.mpr hmax
    exact ⟨h, by omega, by omega⟩

/-- **What is reported** is what it is called. -/
theorem Summary.of_iff (hl : l ≠ []) {s : Summary T} :
    Summary.of l = .ok (some s) ↔ s.Reports l := by
  have hn : 1 ≤ l.length := List.length_pos_iff.mpr hl
  simp only [Summary.of, if_neg hl, length_sorted, checkedSub_of_le hn, bind_eq_ok, index_eq_ok,
    Except.ok.injEq, exists_eq_left', first_iff, last_iff]
  constructor
  · rintro ⟨min, hmin, p50, h50, p90, h90, p99, h99, max, hmax, he⟩
    cases he
    exact ⟨rfl, hmin, (nearestRank_iff hl (by norm_num) (by norm_num)).mp h50,
      (nearestRank_iff hl (by norm_num) (by norm_num)).mp h90,
      (nearestRank_iff hl (by norm_num) (by norm_num)).mp h99, hmax⟩
  · intro h
    refine ⟨s.min, h.min, s.p50, (nearestRank_iff hl (by norm_num) (by norm_num)).mpr h.p50,
      s.p90, (nearestRank_iff hl (by norm_num) (by norm_num)).mpr h.p90,
      s.p99, (nearestRank_iff hl (by norm_num) (by norm_num)).mpr h.p99, s.max, h.max, ?_⟩
    rw [← h.n]
    rfl

theorem IsPercentile.perm {l' : List T} {v : T} (hp : l.Perm l') (h : IsPercentile l q v) :
    IsPercentile l' q v := by
  refine ⟨hp.mem_iff.mp h.mem, ?_, ?_⟩
  · rw [← hp.length_eq, ← hp.countP_eq]
    exact h.reached
  · rw [← hp.length_eq, ← hp.countP_eq]
    exact h.below

theorem Summary.Reports.perm {l' : List T} {s : Summary T} (hp : l.Perm l') (h : s.Reports l) :
    s.Reports l' :=
  ⟨h.n.trans hp.length_eq, ⟨hp.mem_iff.mp h.min.1, fun x hx => h.min.2 x (hp.mem_iff.mpr hx)⟩,
    h.p50.perm hp, h.p90.perm hp, h.p99.perm hp,
    ⟨hp.mem_iff.mp h.max.1, fun x hx => h.max.2 x (hp.mem_iff.mpr hx)⟩⟩

theorem Summary.Reports.ascending {s : Summary T} (hl : l ≠ []) (h : s.Reports l) :
    s.min ≤ s.p50 ∧ s.p50 ≤ s.p90 ∧ s.p90 ≤ s.p99 ∧ s.p99 ≤ s.max :=
  ⟨h.min.2 _ h.p50.mem, h.p50.mono hl (by norm_num) (by norm_num) (by norm_num) h.p90,
    h.p90.mono hl (by norm_num) (by norm_num) (by norm_num) h.p99, h.max.2 _ h.p99.mem⟩

theorem Summary.exists_of (hl : l ≠ []) : ∃ s, Summary.of l = .ok (some s) ∧ s.Reports l := by
  have hn : 0 < (sorted l).length := by
    rw [length_sorted]
    exact List.length_pos_iff.mpr hl
  have hlast : l.length - 1 < (sorted l).length := by
    rw [length_sorted] at hn ⊢
    omega
  obtain ⟨p50, h50⟩ := exists_percentile (q := 50) hl (by norm_num) (by norm_num)
  obtain ⟨p90, h90⟩ := exists_percentile (q := 90) hl (by norm_num) (by norm_num)
  obtain ⟨p99, h99⟩ := exists_percentile (q := 99) hl (by norm_num) (by norm_num)
  have h : Summary.Reports ⟨l.length, (sorted l)[0], p50, p90, p99, (sorted l)[l.length - 1]⟩ l :=
    ⟨rfl, first_iff.mp (List.getElem?_eq_getElem hn), h50, h90, h99,
      last_iff.mp (List.getElem?_eq_getElem hlast)⟩
  exact ⟨_, (Summary.of_iff hl).mpr h, h⟩

/-- **Every number of a table** is a sample that has its share of the others at or below
it, and not below; the numbers ascend, and the order of the samples leaves no trace. -/
theorem Summary.of_percentiles {samples : List T} (h : samples ≠ []) :
    ∃ s, Summary.of samples = .ok (some s) ∧ s.Reports samples ∧
      (∀ q, 0 < q → q ≤ 100 →
        ∃ v, nearestRank (sorted samples) q = .ok v ∧ IsPercentile samples q v) ∧
      (s.min ≤ s.p50 ∧ s.p50 ≤ s.p90 ∧ s.p90 ≤ s.p99 ∧ s.p99 ≤ s.max) ∧
      ∀ samples', samples'.Perm samples → Summary.of samples' = Summary.of samples := by
  obtain ⟨s, hs, hr⟩ := Summary.exists_of h
  refine ⟨s, hs, hr, fun q hq hq' => ?_, hr.ascending h, fun samples' hp => ?_⟩
  · obtain ⟨v, hv⟩ := exists_percentile h hq hq'
    exact ⟨v, (nearestRank_iff h hq hq').mpr hv, hv⟩
  · have hne : samples' ≠ [] := fun he => h (List.nil_perm.mp (he ▸ hp))
    rw [hs]
    exact (Summary.of_iff hne).mpr (hr.perm hp.symm)

theorem of_percentiles_three :
    ∃ s, Summary.of [30, 10, 20] = .ok (some s) ∧ s.Reports [30, 10, 20] ∧
      (∀ q, 0 < q → q ≤ 100 →
        ∃ v, nearestRank (sorted [30, 10, 20]) q = .ok v ∧ IsPercentile [30, 10, 20] q v) ∧
      (s.min ≤ s.p50 ∧ s.p50 ≤ s.p90 ∧ s.p90 ≤ s.p99 ∧ s.p99 ≤ s.max) ∧
      ∀ samples', samples'.Perm [30, 10, 20] → Summary.of samples' = Summary.of [30, 10, 20] :=
  Summary.of_percentiles (by decide)

/-! ## The three of them -/

/-- All three return one sample for a percentage. -/
def Agree (l : List T) (q : ℚ) : Prop :=
  ∃ v, nearestRank (sorted l) q = .ok v ∧ pct l q = .ok v ∧ quantile l (q / 100) = .ok (some v)

/-- One value fills the places from `i` to `j` when the samples are in order: few enough
are below it, and enough are at most it. -/
def OneValue (l : List T) (i j : Nat) : Prop :=
  ∃ v ∈ l, (l.countP fun x => decide (x < v)) ≤ min i j ∧
    max i j < l.countP fun x => decide (x ≤ v)

theorem oneValue_iff {i j : Nat} :
    OneValue l i j ↔ ∃ v, (sorted l)[i]? = some v ∧ (sorted l)[j]? = some v := by
  simp only [OneValue, rank_iff, le_min_iff, max_lt_iff]
  constructor
  · rintro ⟨v, hv, ⟨hi, hj⟩, hi', hj'⟩
    exact ⟨v, ⟨hv, hi, hi'⟩, hv, hj, hj'⟩
  · rintro ⟨v, ⟨hv, hi, hi'⟩, -, hj, hj'⟩
    exact ⟨v, hv, ⟨hi, hj⟩, hi', hj'⟩

/-- Different samples fill one place each. -/
theorem oneValue_of_nodup (hd : l.Nodup) {i j : Nat} (hi : i < l.length) :
    OneValue l i j ↔ i = j := by
  rw [oneValue_iff]
  have hi : i < (sorted l).length := by rwa [length_sorted]
  constructor
  · rintro ⟨v, hv, hv'⟩
    exact (List.getElem?_inj hi ((sorted_perm l).nodup_iff.mpr hd)).mp (hv.trans hv'.symm)
  · rintro rfl
    exact ⟨_, List.getElem?_eq_getElem hi, List.getElem?_eq_getElem hi⟩

theorem agree_iff_oneValue (hl : l ≠ []) (hq : 0 < q) (hq' : q ≤ 100) :
    Agree l q ↔ OneValue l (place l.length q) (roundedPlace l.length q) := by
  simp only [Agree, oneValue_iff, nearestRank_sorted hl hq hq', pct_eq hl hq hq', index_eq_ok,
    quantile_eq hl, and_self_left]

/-- The medians agree for an odd number of different samples, and for no even one. -/
theorem agree_median_iff (hl : l ≠ []) (hd : l.Nodup) : Agree l 50 ↔ Odd l.length := by
  have hn : 0 < l.length := List.length_pos_iff.mpr hl
  rw [agree_iff_oneValue hl (by norm_num) (by norm_num),
    oneValue_of_nodup hd (place_lt hn (by norm_num) (by norm_num))]
  generalize l.length = n at hn
  obtain ⟨k, rfl | rfl⟩ := Nat.even_or_odd' n
  · have hplace : place (2 * k) 50 = k - 1 := by
      rw [place, show (50 / 100 : ℚ) * (2 * k : Nat) = k by push_cast; ring, Nat.ceil_natCast]
    have hrounded : roundedPlace (2 * k) 50 = k := by
      have hcast : ((2 * k - 1 : Nat) : ℚ) = 2 * k - 1 := by
        rw [Nat.cast_sub hn]
        push_cast
        ring
      rw [roundedPlace, hcast, show (2 * (k : ℚ) - 1) * (50 / 100) + 1 / 2 = k by ring,
        Nat.floor_natCast]
    rw [hplace, hrounded]
    exact iff_of_false (by omega) (Nat.not_odd_iff_even.mpr (even_two_mul k))
  · have hplace : place (2 * k + 1) 50 = k := by
      have hceil : ⌈(50 / 100 : ℚ) * (2 * k + 1 : Nat)⌉₊ = k + 1 := by
        rw [Nat.ceil_eq_iff (by omega)]
        push_cast
        constructor <;> linarith
      rw [place, hceil, Nat.add_sub_cancel]
    have hrounded : roundedPlace (2 * k + 1) 50 = k := by
      rw [roundedPlace, Nat.add_sub_cancel, Nat.floor_eq_iff (by positivity)]
      push_cast
      constructor <;> linarith
    rw [hplace, hrounded]
    exact iff_of_true rfl (odd_two_mul_add_one k)

/-- **When a percentage means one statistic.** `nearestRank` and `pct` are the same always;
`quantile` names their sample where one value fills both places, and among different
samples that is one place. -/
theorem agree_iff (hl : l ≠ []) (hq : 0 < q) (hq' : q ≤ 100) :
    nearestRank (sorted l) q = pct l q ∧
      (Agree l q ↔ OneValue l (place l.length q) (roundedPlace l.length q)) ∧
      (l.Nodup → (Agree l q ↔ place l.length q = roundedPlace l.length q)) := by
  refine ⟨by rw [nearestRank_sorted hl hq hq', pct_eq hl hq hq'], agree_iff_oneValue hl hq hq',
    fun hd => ?_⟩
  rw [agree_iff_oneValue hl hq hq',
    oneValue_of_nodup hd (place_lt (List.length_pos_iff.mpr hl) hq hq')]

theorem agree_three :
    nearestRank (sorted [30, 10, 20]) 50 = pct [30, 10, 20] 50 ∧
      (Agree [30, 10, 20] 50 ↔ OneValue [30, 10, 20] (place 3 50) (roundedPlace 3 50)) ∧
      ([30, 10, 20].Nodup → (Agree [30, 10, 20] 50 ↔ place 3 50 = roundedPlace 3 50)) :=
  agree_iff (by decide) (by norm_num) (by norm_num)

/-- The median of two samples is the lower one, and `quantile` takes the upper. -/
theorem median_of_two :
    nearestRank (sorted [10, 20]) 50 = .ok 10 ∧ pct [10, 20] 50 = .ok 10 ∧
      quantile [10, 20] (50 / 100) = .ok (some 20) ∧ ¬ Agree [10, 20] 50 := by
  refine ⟨by decide +kernel, by decide +kernel, by decide +kernel, ?_⟩
  rw [agree_median_iff (by decide) (by decide)]
  decide

end FreenetHarness.Percentile
