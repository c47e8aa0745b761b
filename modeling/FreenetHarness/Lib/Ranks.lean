import Mathlib.Data.List.Sort
import Mathlib.Order.Lattice

/-! # Counting and ranking

How many values are at most `v`, and which value comes `k`-th when they are sorted, are
two readings of one list. `lt_countP_iff` goes from one to the other. -/
namespace FreenetHarness.Lib.Ranks

variable {α : Type*} [LinearOrder α]

/-- Ascending, equal values in the order they came. -/
def sorted (l : List α) : List α := l.insertionSort (· ≤ ·)

theorem pairwise_sorted (l : List α) : (sorted l).Pairwise (· ≤ ·) :=
  List.pairwise_insertionSort _ l

theorem sorted_perm (l : List α) : (sorted l).Perm l := List.perm_insertionSort _ l

@[simp] theorem length_sorted (l : List α) : (sorted l).length = l.length :=
  List.length_insertionSort _ l

theorem mem_sorted {l : List α} {x : α} : x ∈ sorted l ↔ x ∈ l := (sorted_perm l).mem_iff

/-- More than `k` values have a property that smaller values inherit where the value of
rank `k` has it. -/
theorem lt_countP_of_lower {l : List α} (h : l.Pairwise (· ≤ ·)) {p : α → Bool}
    (hp : ∀ x y, x ≤ y → p y = true → p x = true) {k : Nat} :
    k < l.countP p ↔ ∃ x, l[k]? = some x ∧ p x = true := by
  induction l generalizing k with
  | nil => simp
  | cons a l ih =>
    obtain ⟨ha, hl⟩ := List.pairwise_cons.mp h
    by_cases hav : p a = true
    · rw [List.countP_cons_of_pos hav]
      cases k with
      | zero => simpa using hav
      | succ k =>
        rw [Nat.succ_lt_succ_iff, ih hl]
        rfl
    · have hnone : ∀ x ∈ a :: l, ¬ p x = true := by
        intro x hx hxv
        rcases List.mem_cons.mp hx with rfl | hx
        · exact hav hxv
        · exact hav (hp a x (ha x hx) hxv)
      constructor
      · intro hk
        rw [List.countP_eq_zero.mpr hnone] at hk
        exact absurd hk (Nat.not_lt_zero k)
      · intro ⟨x, hx, hxv⟩
        exact absurd hxv (hnone x (List.mem_of_getElem? hx))

/-- **Counting and ranking agree**: more than `k` values are at most `v` where the value
of rank `k` is one of them. -/
theorem lt_countP_iff {l : List α} (h : l.Pairwise (· ≤ ·)) {k : Nat} {v : α} :
    k < l.countP (fun x => decide (x ≤ v)) ↔ ∃ x, l[k]? = some x ∧ x ≤ v := by
  rw [lt_countP_of_lower h fun x y hxy hy => decide_eq_true (hxy.trans (of_decide_eq_true hy))]
  simp only [decide_eq_true_eq]

/-- More than `k` values are below `v` where the value of rank `k` is one of them. -/
theorem lt_countP_lt_iff {l : List α} (h : l.Pairwise (· ≤ ·)) {k : Nat} {v : α} :
    k < l.countP (fun x => decide (x < v)) ↔ ∃ x, l[k]? = some x ∧ x < v := by
  rw [lt_countP_of_lower h fun x y hxy hy => decide_eq_true (hxy.trans_lt (of_decide_eq_true hy))]
  simp only [decide_eq_true_eq]

/-- **The value of rank `k`** is the one that at most `k` values are below and more than
`k` are at most. -/
theorem rank_iff {l : List α} {k : Nat} {v : α} :
    (sorted l)[k]? = some v ↔ v ∈ l ∧ l.countP (fun x => decide (x < v)) ≤ k ∧
      k < l.countP fun x => decide (x ≤ v) := by
  have h := pairwise_sorted l
  rw [← (sorted_perm l).countP_eq, ← (sorted_perm l).countP_eq, ← mem_sorted, lt_countP_iff h,
    ← not_lt, lt_countP_lt_iff h]
  constructor
  · intro hk
    refine ⟨List.mem_of_getElem? hk, ?_, v, hk, le_refl v⟩
    rintro ⟨x, hx, hlt⟩
    rw [hk] at hx
    exact absurd hlt (Option.some.inj hx ▸ lt_irrefl x)
  · rintro ⟨-, hlow, x, hx, hle⟩
    rw [hx, hle.eq_of_not_lt fun hlt => hlow ⟨x, hx, hlt⟩]

/-- The `k`-th smallest of the values. -/
def IsKth (k : Nat) (l : List α) (v : α) : Prop :=
  v ∈ l ∧ l.countP (fun x => decide (x < v)) < k ∧ k ≤ l.countP fun x => decide (x ≤ v)

theorem isKth_iff {l : List α} {k : Nat} {v : α} (hk : 1 ≤ k) :
    (sorted l)[k - 1]? = some v ↔ IsKth k l v := by
  have hlt (c : Nat) : k - 1 < c ↔ k ≤ c := by omega
  rw [rank_iff, IsKth, Nat.le_sub_one_iff_lt hk, hlt]

/-- Ranks are ordered as their values are. -/
theorem le_of_rank_le {l : List α} (h : l.Pairwise (· ≤ ·)) {i j : Nat} {x y : α} (hij : i ≤ j)
    (hx : l[i]? = some x) (hy : l[j]? = some y) : x ≤ y := by
  obtain ⟨z, hz, hzy⟩ := (lt_countP_iff h).mp
    (hij.trans_lt ((lt_countP_iff h).mpr ⟨y, hy, le_refl y⟩))
  rw [hx] at hz
  exact (Option.some.inj hz) ▸ hzy

end FreenetHarness.Lib.Ranks
