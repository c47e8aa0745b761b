import FreenetHarness.Lib.Quota
import FreenetHarness.Parity.Complete

/-! # The plan is balanced wherever it is cut

A link that degrades partway through a run is to move every arm and every size alike.
`plan_balanced` says so of the plan at each cut; a run makes one (`begun_cuts`). -/
namespace FreenetHarness.Parity
open FreenetHarness.Lib.Count FreenetHarness.Lib.Quota

/-- How many groups of an arm each size gets. -/
def Opts.total (o : Opts) : Arm → Nat
  | .full => o.groups
  | .control => o.controlGroups

def Opts.quota (o : Opts) (x : UInt64 × Arm) : Nat := if x.1 ∈ o.ms then o.total x.2 else 0

/-- One pass of the plan over the sizes. -/
def planRound (o : Opts) (i : Nat) : List (UInt64 × Arm) :=
  o.ms.flatMap fun m =>
    (if i < o.groups then [(m, Arm.full)] else []) ++
      if i < o.controlGroups then [(m, Arm.control)] else []

/-- The groups of a prefix of the plan, compared by size and by arm. -/
structure Balanced (o : Opts) (p : List (UInt64 × Arm)) : Prop where
  sizes : ∀ m ∈ o.ms, ∀ m' ∈ o.ms, ∀ arm, Near (p.count (m, arm)) (p.count (m', arm))
  /-- As long as one of the two has fewer groups than both get. -/
  arms : ∀ m ∈ o.ms, ∀ arm, p.count (m, arm) < min o.groups o.controlGroups →
    Near (p.count (m, Arm.full)) (p.count (m, Arm.control))

theorem plan_eq_dealt (o : Opts) :
    plan o = dealt (planRound o) (max o.groups o.controlGroups) := rfl

/-- What a pass gives one size. -/
theorem count_pass (o : Opts) (i : Nat) (m m' : UInt64) (arm : Arm) :
    ((if i < o.groups then [(m', Arm.full)] else []) ++
        if i < o.controlGroups then [(m', Arm.control)] else []).count (m, arm) =
      if m = m' then if i < o.total arm then 1 else 0 else 0 := by
  by_cases hm : m = m'
  · subst hm
    cases arm <;> by_cases hf : i < o.groups <;> by_cases hc : i < o.controlGroups <;>
      simp [hf, hc, Opts.total]
  · rw [if_neg hm, List.count_eq_zero]
    intro hmem
    rcases List.mem_append.mp hmem with h | h <;> split at h <;> simp_all

theorem planRound_deals {o : Opts} (h : o.ms.Nodup) : Deals o.quota (planRound o) := by
  intro i x
  obtain ⟨m, arm⟩ := x
  have hcount : (planRound o i).count (m, arm) =
      (o.ms.map fun m' => if m = m' then if i < o.total arm then 1 else 0 else 0).sum := by
    rw [planRound, List.count_flatMap]
    exact congrArg List.sum (List.map_congr_left fun m' _ => count_pass o i m m' arm)
  rw [hcount, Opts.quota]
  by_cases hm : m ∈ o.ms
  · rw [sum_ite_eq h hm, if_pos hm]
  · have hzero : ∀ m' ∈ o.ms, (if m = m' then if i < o.total arm then 1 else 0 else 0) = 0 :=
      fun m' hm' => if_neg (by rintro rfl; exact hm hm')
    rw [List.map_congr_left hzero, if_neg hm]
    simp

/-- The plan as a whole: each size has all the groups of each arm, and nothing else is in it. -/
theorem count_plan {o : Opts} (h : o.ms.Nodup) (x : UInt64 × Arm) :
    (plan o).count x = o.quota x := by
  have htotal : o.quota x ≤ max o.groups o.controlGroups := by
    obtain ⟨m, arm⟩ := x
    rw [Opts.quota]
    split
    · cases arm with
      | full => exact le_max_left ..
      | control => exact le_max_right ..
    · exact Nat.zero_le _
  rw [plan_eq_dealt, count_dealt (planRound_deals h), min_eq_left htotal]

theorem balanced_of_cut {o : Opts} (h : o.ms.Nodup) {p : List (UInt64 × Arm)}
    (hp : p <+: plan o) : Balanced o p := by
  have hdeals := planRound_deals h
  have hquota : ∀ m ∈ o.ms, ∀ arm, o.quota (m, arm) = o.total arm := fun m hm arm => if_pos hm
  constructor
  · intro m hm m' hm' arm
    exact near_of_eq hdeals hp ((hquota m hm arm).trans (hquota m' hm' arm).symm)
  · intro m hm arm hroom
    have hfull := hquota m hm .full
    have hcontrol := hquota m hm .control
    cases arm with
    | full =>
      refine near_of_room hdeals hp ?_
      rw [hfull, hcontrol]
      exact hroom
    | control =>
      refine (near_of_room hdeals hp ?_).symm
      rw [hfull, hcontrol, min_comm]
      exact hroom

/-- **The plan is balanced.** It holds each size as often in each arm as was asked for, and
at every point where it may be cut no size is ahead of another, and no arm of the other. -/
theorem plan_balanced (o : Opts) (h : o.ms.Nodup) :
    (∀ m ∈ o.ms, (plan o).count (m, Arm.full) = o.groups ∧
      (plan o).count (m, Arm.control) = o.controlGroups) ∧
      (∀ x ∈ plan o, x.1 ∈ o.ms) ∧ ∀ p, p <+: plan o → Balanced o p := by
  have hcount : ∀ m ∈ o.ms, ∀ arm, (plan o).count (m, arm) = o.total arm :=
    fun m hm arm => (count_plan h (m, arm)).trans (if_pos hm)
  refine ⟨fun m hm => ⟨hcount m hm .full, hcount m hm .control⟩, fun x hx => ?_,
    fun p hp => balanced_of_cut h hp⟩
  by_contra hnot
  have hzero : (plan o).count x = 0 := (count_plan h x).trans (if_neg hnot)
  exact List.count_eq_zero.mp hzero hx

def threeAndOne : Opts :=
  { ms := [5, 10], groups := 3, controlGroups := 1, parity := 2, ackSecs := 30, budgetMins := 1
    out := "groups" }

theorem plan_balanced_three_and_one :
    Near ([(5, Arm.full)].count ((5 : UInt64), Arm.full)) ([(5, Arm.full)].count (10, Arm.full)) :=
  ((plan_balanced threeAndOne (by decide)).2.2 [(5, .full)] ⟨_, rfl⟩).sizes 5 (by decide) 10
    (by decide) .full

/-! ## Where a run cuts it -/

/-- The groups that begin within the budget. -/
def begun (env : Nat → GroupEnv) : Nat → List (UInt64 × Arm) → List (UInt64 × Arm)
  | _, [] => []
  | gid, g :: rest => if (env gid).overBudget then [] else g :: begun env (gid + 1) rest

theorem begun_cuts (env : Nat → GroupEnv) (gid : Nat) (gs : List (UInt64 × Arm)) :
    begun env gid gs <+: gs := by
  induction gs generalizing gid with
  | nil => exact List.prefix_rfl
  | cons g gs ih =>
    rw [begun]
    split
    · exact List.nil_prefix
    · exact List.cons_prefix_cons.mpr ⟨rfl, ih (gid + 1)⟩

/-- What a run sends is, group by group, what it begins. -/
theorem groupsSent_begun (parity : UInt64) (env : Nat → GroupEnv) (gid : Nat)
    (gs : List (UInt64 × Arm)) :
    groupsSent parity env gid gs =
      ((begun env gid gs).zipIdx gid).flatMap fun g =>
        groupSent parity g.2 g.1.1 g.1.2 (env g.2) := by
  induction gs generalizing gid with
  | nil => rfl
  | cons g gs ih =>
    obtain ⟨m, arm⟩ := g
    rw [groupsSent, begun]
    split
    · rfl
    · rw [ih (gid + 1), List.zipIdx_cons, List.flatMap_cons]

/-- However soon its budget runs out, a run has begun balanced groups, and the blocks of
its file are theirs. -/
theorem run_balanced {o : Opts} {env : Nat → GroupEnv} {tail : List Drain} {r : Run}
    (h : o.ms.Nodup) (hr : collect o env tail = .ok r) :
    Balanced o (begun env 0 (plan o)) ∧
      blocks r.entries = (begun env 0 (plan o)).zipIdx.flatMap fun g =>
        groupSent o.parity g.2 g.1.1 g.1.2 (env g.2) := by
  refine ⟨balanced_of_cut h (begun_cuts env 0 _), ?_⟩
  obtain ⟨s, hs, hr⟩ := Lib.Run.bind_eq_ok.mp hr
  cases hr
  rw [drainTail_blocks, writeGroups_blocks hs, groupsSent_begun]
  rfl

end FreenetHarness.Parity
