import Mathlib.Data.Finset.Lattice.Fold
import Mathlib.Data.Fintype.Defs
import Mathlib.Logic.Function.Basic

/-! # Places that only grow

Values of a join-semilattice are put at places, and what a place holds is carried to another,
in any order. `whole_run` says what the places hold together, and `run_of_not_into` what one
place holds to which nothing is carried. -/
namespace FreenetHarness.Lib.Spread

inductive Move (ι α : Type*) where
  | put (i : ι) (a : α)
  | carry (i j : ι)
  deriving DecidableEq

variable {ι α : Type*} [SemilatticeSup α]

section Apply

variable [DecidableEq ι]

def Move.apply (f : ι → α) : Move ι α → ι → α
  | put i a => Function.update f i (f i ⊔ a)
  | carry i j => Function.update f j (f j ⊔ f i)

/-- **No place shrinks.** -/
theorem Move.le_apply (f : ι → α) (m : Move ι α) : f ≤ m.apply f := by
  intro k
  cases m with
  | put i a => by_cases h : k = i <;> simp [apply, h]
  | carry i j => by_cases h : k = j <;> simp [apply, h]

def run (f : ι → α) (ms : List (Move ι α)) : ι → α := ms.foldl Move.apply f

theorem run_append (f : ι → α) (ms ns : List (Move ι α)) : run f (ms ++ ns) = run (run f ms) ns :=
  List.foldl_append ..

end Apply

variable [OrderBot α]

/-- The join of a list. -/
def joined (as : List α) : α := as.foldr (· ⊔ ·) ⊥

theorem joined_cons (a : α) (as : List α) : joined (a :: as) = a ⊔ joined as := rfl

theorem joined_append (as bs : List α) : joined (as ++ bs) = joined as ⊔ joined bs := by
  induction as with
  | nil => exact (bot_sup_eq _).symm
  | cons a as ih => rw [List.cons_append, joined_cons, joined_cons, ih, sup_assoc]

namespace Move

/-- What a move puts, wherever that is. -/
def value : Move ι α → α
  | put _ a => a
  | carry _ _ => ⊥

variable [DecidableEq ι]

/-- What a move puts here. -/
def valueAt (k : ι) : Move ι α → α
  | put i a => if i = k then a else ⊥
  | carry _ _ => ⊥

/-- It carries something here. -/
def into (k : ι) : Move ι α → Bool
  | put _ _ => false
  | carry _ j => j = k

theorem apply_of_not_into {f : ι → α} {m : Move ι α} {k : ι} (h : m.into k = false) :
    m.apply f k = f k ⊔ m.valueAt k := by
  cases m with
  | put i a => by_cases hk : k = i <;> simp [apply, valueAt, hk, eq_comm]
  | carry i j =>
    have hk : k ≠ j := fun hk => of_decide_eq_false h hk.symm
    simp [apply, valueAt, Function.update_of_ne hk]

end Move

variable [DecidableEq ι]

/-- **A place to which nothing is carried** holds what it held and what was put there. -/
theorem run_of_not_into {f : ι → α} {ms : List (Move ι α)} {k : ι}
    (h : ∀ m ∈ ms, m.into k = false) :
    run f ms k = f k ⊔ joined (ms.map (Move.valueAt k)) := by
  induction ms generalizing f with
  | nil => exact (sup_bot_eq _).symm
  | cons m ms ih =>
    obtain ⟨hm, hms⟩ := List.forall_mem_cons.mp h
    show run (m.apply f) ms k = _
    rw [ih hms, Move.apply_of_not_into hm, List.map_cons, joined_cons, sup_assoc]

section Whole

omit [DecidableEq ι]

variable [Fintype ι]

/-- What the places hold together. -/
def whole (f : ι → α) : α := Finset.univ.sup f

theorem le_whole (f : ι → α) (i : ι) : f i ≤ whole f := Finset.le_sup (Finset.mem_univ i)

variable [DecidableEq ι]

/-- **Step.** A carry adds nothing to the whole, and a put what it puts. -/
theorem whole_apply (f : ι → α) (m : Move ι α) : whole (m.apply f) = whole f ⊔ m.value := by
  refine le_antisymm (Finset.sup_le fun k _ => ?_) (sup_le ?_ ?_)
  · cases m with
    | put i a =>
      by_cases h : k = i
      · subst h
        rw [Move.apply, Function.update_self]
        exact sup_le_sup_right (le_whole f k) _
      · rw [Move.apply, Function.update_of_ne h]
        exact (le_whole f k).trans le_sup_left
    | carry i j =>
      by_cases h : k = j
      · subst h
        rw [Move.apply, Function.update_self]
        exact (sup_le (le_whole f k) (le_whole f i)).trans le_sup_left
      · rw [Move.apply, Function.update_of_ne h]
        exact (le_whole f k).trans le_sup_left
  · exact Finset.sup_mono_fun fun k _ => m.le_apply f k
  · cases m with
    | put i a =>
      refine le_trans ?_ (le_whole _ i)
      rw [Move.apply, Function.update_self]
      exact le_sup_right
    | carry i j => exact bot_le

/-- **The whole is what was put**, and what there was before. -/
theorem whole_run (f : ι → α) (ms : List (Move ι α)) :
    whole (run f ms) = whole f ⊔ joined (ms.map Move.value) := by
  induction ms generalizing f with
  | nil => exact (sup_bot_eq _).symm
  | cons m ms ih =>
    show whole (run (m.apply f) ms) = _
    rw [ih, whole_apply, List.map_cons, joined_cons, sup_assoc]

end Whole

end FreenetHarness.Lib.Spread
