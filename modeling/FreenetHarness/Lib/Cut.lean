import Mathlib.Data.List.Dedup
import Mathlib.Data.List.Perm.Subperm
import Mathlib.Order.Lattice

/-! # Joins cut to the first `m`

Entries stand in the order of their ranks. A join of two sets of them is their union, and
the cut keeps the first `m`. -/
namespace FreenetHarness.Lib.Cut

variable {α ρ : Type*} [LinearOrder ρ] (rank : α → ρ)

/-- In the order of the ranks. -/
def rankSort (as : List α) : List α := as.mergeSort fun a b => decide (rank a ≤ rank b)

/-- In strict order, and no more than `m`. -/
structure Within (m : Nat) (as : List α) : Prop where
  ordered : as.Pairwise (rank · < rank ·)
  length_le : as.length ≤ m

instance (m : Nat) (as : List α) : Decidable (Within rank m as) :=
  decidable_of_iff (as.Pairwise (rank · < rank ·) ∧ as.length ≤ m)
    ⟨fun h => ⟨h.1, h.2⟩, fun h => ⟨h.ordered, h.length_le⟩⟩

variable {rank}

theorem rankSort_perm (as : List α) : (rankSort rank as).Perm as := List.mergeSort_perm ..

theorem length_rankSort (as : List α) : (rankSort rank as).length = as.length :=
  (rankSort_perm as).length_eq

/-- Different ranks, sorted, are in strict order. -/
theorem ordered_rankSort {as : List α} (h : (as.map rank).Nodup) :
    (rankSort rank as).Pairwise (rank · < rank ·) := by
  have hsort : (rankSort rank as).Pairwise fun a b => decide (rank a ≤ rank b) = true :=
    List.pairwise_mergeSort (fun _ _ _ hab hbc => by simp at *; exact hab.trans hbc)
      (fun a b => by simpa using le_total (rank a) (rank b)) as
  have hne : ((rankSort rank as).map rank).Nodup := ((rankSort_perm as).map rank).nodup_iff.mpr h
  rw [List.Nodup, List.pairwise_map] at hne
  exact (hsort.and hne).imp fun hab => lt_of_le_of_ne (of_decide_eq_true hab.1) hab.2

/-- What is in strict order is not moved. -/
theorem rankSort_of_ordered {as : List α} (h : as.Pairwise (rank · < rank ·)) :
    rankSort rank as = as :=
  List.mergeSort_of_pairwise (h.imp fun hab => decide_eq_true hab.le)

theorem Within.nodup {m : Nat} {as : List α} (h : Within rank m as) : as.Nodup :=
  h.ordered.imp fun hab heq => absurd (heq ▸ hab) (lt_irrefl _)

variable [DecidableEq α]

variable (rank) in
/-- The union, cut to the first `m`. -/
def joinCut (m : Nat) (as bs : List α) : List α := (rankSort rank (as ++ bs).dedup).take m

/-- **The join keeps the order and the bound.** -/
theorem within_joinCut (hinj : Function.Injective rank) (m : Nat) (as bs : List α) :
    Within rank m (joinCut rank m as bs) where
  ordered := (ordered_rankSort ((List.nodup_dedup _).map hinj)).sublist (List.take_sublist ..)
  length_le := List.length_take_le ..

theorem length_joinCut (m : Nat) (as bs : List α) :
    (joinCut rank m as bs).length = min m (as ++ bs).dedup.length := by
  rw [joinCut, List.length_take, length_rankSort]

/-- Nothing new changes nothing. -/
theorem joinCut_nil {m : Nat} {as : List α} (h : Within rank m as) : joinCut rank m as [] = as := by
  rw [joinCut, List.append_nil, h.nodup.dedup, rankSort_of_ordered h.ordered,
    List.take_of_length_le h.length_le]

/-- The join holds nothing else. -/
theorem mem_of_joinCut {m : Nat} {as bs : List α} {a : α} (h : a ∈ joinCut rank m as bs) :
    a ∈ as ∨ a ∈ bs := by
  have hmem := (rankSort_perm _).mem_iff.mp (List.mem_of_mem_take h)
  rwa [List.mem_dedup, List.mem_append] at hmem

/-- What fills the bound alone fills it. -/
theorem length_joinCut_of_full {m : Nat} {as bs : List α} (h : bs.Nodup) (hm : m ≤ bs.length) :
    (joinCut rank m as bs).length = m := by
  have hle : bs.length ≤ (as ++ bs).dedup.length :=
    (List.subperm_of_subset h fun b hb =>
      List.mem_dedup.mpr (List.mem_append_right _ hb)).length_le
  rw [length_joinCut]
  exact min_eq_left (hm.trans hle)

/-- What has nothing in common adds up. -/
theorem length_dedup_append {as bs : List α} (h : as.Nodup) (h' : bs.Nodup)
    (hd : ∀ a ∈ as, a ∉ bs) : (as ++ bs).dedup.length = as.length + bs.length := by
  rw [(List.nodup_append.mpr ⟨h, h', fun a ha b hb hab => hd a ha (hab ▸ hb)⟩).dedup,
    List.length_append]

end FreenetHarness.Lib.Cut
