import Mathlib.Data.List.Count

/-! # Dealing in rounds

Every round gives one to each item whose quota is not full. However early the dealing is
cut, there is a round that it was cut in, and every item has had one of each round before,
as far as its quota goes: nobody is ahead by more than the round in progress. -/
namespace FreenetHarness.Lib.Quota

variable {α : Type*}

/-- What `n` rounds deal, in order. -/
def dealt (round : Nat → List α) (n : Nat) : List α := (List.range n).flatMap round

theorem dealt_succ (round : Nat → List α) (n : Nat) :
    dealt round (n + 1) = dealt round n ++ round n := by
  rw [dealt, List.range_succ, List.flatMap_append, List.flatMap_singleton]
  rfl

/-- A cut falls into some round. -/
theorem exists_round {round : Nat → List α} {n : Nat} {p : List α} (hp : p <+: dealt round n) :
    ∃ i q, q <+: round i ∧ p = dealt round i ++ q := by
  induction n with
  | zero =>
    obtain rfl := List.prefix_nil.mp hp
    exact ⟨0, [], List.nil_prefix, rfl⟩
  | succ n ih =>
    rw [dealt_succ] at hp
    rcases List.prefix_or_prefix_of_prefix hp (List.prefix_append ..) with hp' | ⟨q, rfl⟩
    · exact ih hp'
    · exact ⟨n, q, (List.prefix_append_right_inj _).mp hp, rfl⟩

/-! ## Quotas -/

variable [BEq α] {quota : α → Nat} {round : Nat → List α}

/-- The `i`-th round gives one to each item with room for more than `i`. -/
def Deals (quota : α → Nat) (round : Nat → List α) : Prop :=
  ∀ i x, (round i).count x = if i < quota x then 1 else 0

/-- Two counts that differ by one at most. -/
def Near (m n : Nat) : Prop := m ≤ n + 1 ∧ n ≤ m + 1

theorem Near.symm {m n : Nat} (h : Near m n) : Near n m := ⟨h.2, h.1⟩

theorem count_dealt (h : Deals quota round) (n : Nat) (x : α) :
    (dealt round n).count x = min (quota x) n := by
  induction n with
  | zero => simp [dealt]
  | succ n ih =>
    rw [dealt_succ, List.count_append, ih, h n x]
    split <;> omega

/-- **What a cut leaves.** Every item has had one of each full round, and one of the round
in progress at most. -/
theorem count_prefix (h : Deals quota round) {n : Nat} {p : List α} (hp : p <+: dealt round n) :
    ∃ i, ∀ x, min (quota x) i ≤ p.count x ∧ p.count x ≤ min (quota x) (i + 1) := by
  obtain ⟨i, q, hq, rfl⟩ := exists_round hp
  refine ⟨i, fun x => ?_⟩
  have hle : q.count x ≤ (round i).count x := hq.sublist.count_le x
  have hround := h i x
  rw [List.count_append, count_dealt h]
  split at hround <;> omega

/-- While one of two items has room for what both may have, neither is ahead. -/
theorem near_of_room (h : Deals quota round) {n : Nat} {p : List α} (hp : p <+: dealt round n)
    {x y : α} (hroom : p.count x < min (quota x) (quota y)) : Near (p.count x) (p.count y) := by
  obtain ⟨i, hi⟩ := count_prefix h hp
  have hx := hi x
  have hy := hi y
  constructor <;> omega

/-- Items of one quota are never apart. -/
theorem near_of_eq (h : Deals quota round) {n : Nat} {p : List α} (hp : p <+: dealt round n)
    {x y : α} (hq : quota x = quota y) : Near (p.count x) (p.count y) := by
  obtain ⟨i, hi⟩ := count_prefix h hp
  have hx := hi x
  have hy := hi y
  constructor <;> omega

end FreenetHarness.Lib.Quota
