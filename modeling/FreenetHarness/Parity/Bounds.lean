import Mathlib.Tactic.Linarith
import FreenetHarness.Parity.Agree
import FreenetHarness.Parity.Binomial
import FreenetHarness.Parity.Ready

/-! # Where a score is cut short

Widths, `m` and the members read come from two files and do not know of one another.
`score_ok_iff` says for which files every subtraction stays above zero and every lookup
in its list. -/
namespace FreenetHarness.Parity
open FreenetHarness.Lib.Ranks FreenetHarness.Lib.Run

theorem checkedSub_ok_iff {a b : Nat} : (∃ d, checkedSub a b = .ok d) ↔ b ≤ a := by
  constructor
  · intro ⟨d, h⟩
    by_contra hlt
    rw [checkedSub_of_lt (Nat.lt_of_not_le hlt)] at h
    cases h
  · exact fun h => ⟨_, checkedSub_of_le h⟩

theorem index_ok_iff {α : Type} {l : List α} {i : Nat} : (∃ x, index l i = .ok x) ↔ i < l.length := by
  unfold index
  cases h : l[i]? with
  | none => simpa using h
  | some x =>
    obtain ⟨hlt, -⟩ := List.getElem?_eq_some_iff.mp h
    simpa using hlt

/-! ## Table 4 -/

theorem binomial_ok_iff {n k : Nat} {p : ℚ} : (∃ x, binomial n k p = .ok x) ↔ k ≤ n := by
  constructor
  · intro ⟨x, h⟩
    obtain ⟨c, -, h⟩ := bind_eq_ok.mp h
    obtain ⟨d, hd, -⟩ := bind_eq_ok.mp h
    exact checkedSub_ok_iff.mp ⟨d, hd⟩
  · exact fun h => ⟨_, binomial_eq h p⟩

/-- The last cell needs what the four before it need. -/
theorem predicted_ok_iff {n k : Nat} {p : ℚ} (hk : k < 5) :
    (∃ x, predicted n p k = .ok x) ↔ min k 3 ≤ n := by
  unfold predicted
  split
  · rw [exists_bind_pure, mapM_ok_iff]
    simp only [binomial_ok_iff, List.mem_range]
    constructor
    · intro h
      have := h 3 (by omega)
      omega
    · intro h j hj
      omega
  · rw [binomial_ok_iff]
    omega

/-- **A column of table 4** is computed for groups of three members and more. -/
theorem missRow_ok_iff {T : Type} (reads : Reads T) {m : Nat} {gs : List Group} :
    (∃ r, missRow reads m gs = .ok r) ↔ 3 ≤ width m gs := by
  unfold missRow
  dsimp only
  rw [exists_bind_pure, mapM_ok_iff]
  have hcell : ∀ k ∈ List.range 5,
      ((∃ y : Nat × ℚ, (predicted (width m gs) (missRate reads gs) k >>= fun pred =>
        pure (measuredCount reads gs k, pred)) = .ok y) ↔ min k 3 ≤ width m gs) := by
    intro k hk
    rw [exists_bind_pure, predicted_ok_iff (List.mem_range.mp hk)]
  constructor
  · intro h
    exact (hcell 3 (by decide)).mp (h 3 (by decide))
  · intro h k hk
    exact (hcell k hk).mpr (by omega)

theorem three_le_width {m : Nat} {gs : List Group} (hne : gs ≠ []) :
    3 ≤ width m gs ↔ ∃ g ∈ gs, 3 ≤ g.members.length := by
  obtain ⟨w, hw⟩ : ∃ w, (gs.map fun g => g.members.length).max? = some w :=
    Option.ne_none_iff_exists'.mp fun h => hne (by simpa using h)
  have hle := fun x => List.max?_le_iff hw (x := x)
  rw [width, hw, Option.getD_some]
  constructor
  · intro h
    by_contra hno
    have := (hle 2).mpr fun b hb => by
      obtain ⟨g, hg, rfl⟩ := List.mem_map.mp hb
      by_contra hlt
      exact hno ⟨g, hg, by omega⟩
    omega
  · rintro ⟨g, hg, h⟩
    exact h.trans ((hle w).mp le_rfl _ (List.mem_map_of_mem hg))

theorem table4_ok_iff {T : Type} (reads : Reads T) {ms : List Nat} {gs : List Group} :
    (∃ r, table4 reads ms gs = .ok r) ↔ ∀ m ∈ ms, ∀ g ∈ scored gs m .full,
      ∃ g' ∈ scored gs m .full, 3 ≤ g'.members.length := by
  unfold table4
  rw [mapM_ok_iff]
  constructor
  · intro h m hm g hg
    have hne : scored gs m .full ≠ [] := List.ne_nil_of_mem hg
    exact (three_le_width hne).mp ((missRow_ok_iff reads).mp
      (h m (List.mem_filter.mpr ⟨hm, decide_eq_true hne⟩)))
  · intro h m hm
    obtain ⟨hm, hne⟩ := List.mem_filter.mp hm
    have hne : scored gs m .full ≠ [] := of_decide_eq_true hne
    obtain ⟨g, hg⟩ := List.exists_mem_of_ne_nil _ hne
    exact (missRow_ok_iff reads).mpr ((three_le_width hne).mpr (h m hm g hg))

/-! ## The times -/

section Times
variable {T : Type} [LinearOrder T] (reads : Reads T)

theorem ranked_ok_iff {v : List T} {m : Nat} :
    (∃ x, ranked v m = .ok x) ↔ 1 ≤ m ∧ m ≤ v.length := by
  by_cases hm : 1 ≤ m
  · have : ranked v m = index (sorted v) (m - 1) := by
      rw [ranked, checkedSub_of_le hm]
      rfl
    rw [this, index_ok_iff, length_sorted]
    omega
  · constructor
    · intro h
      obtain ⟨x, hx⟩ := h
      obtain ⟨i, hi, -⟩ := bind_eq_ok.mp hx
      exact absurd (checkedSub_ok_iff.mp ⟨i, hi⟩) hm
    · exact fun h => absurd h.1 hm

theorem exists_map_ok {α β : Type} {x : Except Fault α} {f : α → β} :
    (∃ y, x.map f = .ok y) ↔ ∃ a, x = .ok a := by
  cases x <;> simp [Except.map]

theorem fastest_ok_iff {m : Nat} {g : Group} : (∃ x, fastest reads m g = .ok x) ↔ 0 < m := by
  rw [fastest]
  by_cases hlen : m ≤ (times reads g.members).length
  · rw [if_pos hlen, exists_map_ok, ranked_ok_iff]
    exact and_iff_left hlen
  · rw [if_neg hlen]
    exact iff_of_true ⟨_, rfl⟩ (by omega)

theorem slowest_ok_iff {m : Nat} {g : Group} :
    (∃ x, slowest reads m g = .ok x) ↔ 0 < m ∨ times reads (dataOf g) ≠ [] := by
  rw [slowest]
  by_cases hlen : (times reads (dataOf g)).length = m
  · rw [if_pos hlen, exists_map_ok, ranked_ok_iff, ← List.length_pos_iff]
    omega
  · rw [if_neg hlen, ← List.length_pos_iff]
    exact iff_of_true ⟨_, rfl⟩ (by omega)

/-- A quantile is always among the values. -/
theorem quantile_ok (v : List T) {q : ℚ} (h : q ≤ 1) : ∃ x, quantile v q = .ok x := by
  unfold quantile
  by_cases hv : v = []
  · exact ⟨none, if_pos hv⟩
  · have hpos := List.length_pos_iff.mpr hv
    rw [if_neg hv, checkedSub_of_le (show 1 ≤ v.length by omega)]
    refine exists_bind_pure.mpr (index_ok_iff.mpr ?_)
    rw [length_sorted]
    have hlast : ((v.length - 1 : ℕ) : ℚ) * q + 1 / 2 < ((v.length - 1 : ℕ) : ℚ) + 1 := by
      have hle : ((v.length - 1 : ℕ) : ℚ) * q ≤ ((v.length - 1 : ℕ) : ℚ) :=
        mul_le_of_le_one_right (Nat.cast_nonneg _) h
      linarith
    have := (Nat.floor_lt' (by omega)).mpr (show _ < ((v.length : ℕ) : ℚ) by
      rwa [show ((v.length : ℕ) : ℚ) = ((v.length - 1 : ℕ) : ℚ) + 1 by
        rw [← Nat.cast_add_one, Nat.sub_add_cancel hpos]])
    exact this

theorem table5_ok_iff {ms : List Nat} {gs : List Group} :
    (∃ r, table5 reads ms gs = .ok r) ↔ ∀ m ∈ ms, ∀ g ∈ scored gs m .full, 0 < m := by
  unfold table5
  rw [mapM_ok_iff]
  refine forall₂_congr fun m _ => ?_
  dsimp only
  constructor
  · intro ⟨r, h⟩ g hg
    obtain ⟨whole, hw, -⟩ := bind_eq_ok.mp h
    exact (fastest_ok_iff reads).mp (mapM_ok_iff.mp ⟨whole, hw⟩ g hg)
  · intro h
    refine bind_ok (mapM_ok_iff.mpr fun g hg => (fastest_ok_iff reads).mpr (h g hg)) fun _ => ?_
    refine bind_ok (mapM_ok_iff.mpr fun g hg => (slowest_ok_iff reads).mpr (.inl (h g hg)))
      fun _ => ?_
    refine bind_ok (quantile_ok _ (by norm_num)) fun _ => ?_
    refine bind_ok (quantile_ok _ (by norm_num)) fun _ => ?_
    refine bind_ok (quantile_ok _ (by norm_num)) fun _ => ?_
    exact exists_bind_pure.mpr (quantile_ok _ (by norm_num))

theorem costRow_ok_iff {m : Nat} {arm : Arm} {gs : List Group} :
    (∃ r, costRow reads gs m arm = .ok r) ↔
      ∀ g ∈ scored gs m arm, 0 < m ∨ times reads (dataOf g) ≠ [] := by
  unfold costRow
  dsimp only
  constructor
  · intro ⟨r, h⟩ g hg
    obtain ⟨last, hl, -⟩ := bind_eq_ok.mp h
    exact (slowest_ok_iff reads).mp (mapM_ok_iff.mp ⟨last, hl⟩ g hg)
  · intro h
    refine bind_ok (mapM_ok_iff.mpr fun g hg => (slowest_ok_iff reads).mpr (h g hg)) fun _ => ?_
    refine bind_ok (quantile_ok _ (by norm_num)) fun _ => ?_
    exact exists_bind_pure.mpr (quantile_ok _ (by norm_num))

theorem table6_ok_iff {ms : List Nat} {gs : List Group} :
    (∃ r, table6 reads ms gs = .ok r) ↔ ∀ m ∈ ms, ∀ arm, ∀ g ∈ scored gs m arm,
      0 < m ∨ times reads (dataOf g) ≠ [] := by
  unfold table6
  rw [mapM_ok_iff]
  constructor
  · intro h m hm arm
    refine (costRow_ok_iff reads).mp (h (m, arm) (List.mem_flatMap.mpr ⟨m, hm, ?_⟩))
    cases arm <;> simp
  · intro h x hx
    obtain ⟨m, hm, hx⟩ := List.mem_flatMap.mp hx
    have hmx : x.1 = m := by
      simp only [List.mem_cons, List.not_mem_nil, or_false] at hx
      rcases hx with rfl | rfl <;> rfl
    exact (costRow_ok_iff reads).mpr (hmx ▸ h m hm x.2)

theorem table7_ok (again : Reads T) (blocks : List Block) :
    ∃ r, table7 reads again blocks = .ok r := by
  refine bind_ok (quantile_ok _ (by norm_num)) fun _ => ?_
  exact exists_bind_pure.mpr (quantile_ok _ (by norm_num))

/-! ## The whole report -/

theorem score_ok_tables (reput : Option (Reads T)) (thresholds : List T) (minGroups : Nat)
    (blocks : List Block) :
    (∃ r, score reads reput thresholds minGroups blocks = .ok r) ↔
      (∃ r, table4 reads (msValues blocks) (byGroup blocks) = .ok r) ∧
        (∃ r, table5 reads (msValues blocks) (byGroup blocks) = .ok r) ∧
          ∃ r, table6 reads (msValues blocks) (byGroup blocks) = .ok r := by
  unfold score
  dsimp only
  constructor
  · intro ⟨r, h⟩
    obtain ⟨rows, h4, h⟩ := bind_eq_ok.mp h
    obtain ⟨times, h5, h⟩ := bind_eq_ok.mp h
    obtain ⟨cost, h6, -⟩ := bind_eq_ok.mp h
    exact ⟨⟨rows, h4⟩, ⟨times, h5⟩, ⟨cost, h6⟩⟩
  · intro ⟨h4, h5, h6⟩
    refine bind_ok h4 fun _ => bind_ok h5 fun _ => bind_ok h6 fun _ => ?_
    cases reput with
    | none => exact ⟨_, rfl⟩
    | some again => exact exists_bind_pure.mpr (exists_map_ok.mpr (table7_ok reads again blocks))

/-- **Where a score is computed to its end**: where every Full group has an `m` of at
least one and, among the groups of its `m`, one of three members and more; and every
Control group without an `m` has a data block that was fetched. -/
theorem score_ok_iff (reput : Option (Reads T)) (thresholds : List T) (minGroups : Nat)
    (blocks : List Block) :
    (∃ r, score reads reput thresholds minGroups blocks = .ok r) ↔
      (∀ g ∈ byGroup blocks, g.arm = .full → 0 < g.m ∧
        ∃ g' ∈ byGroup blocks, g'.arm = .full ∧ g'.m = g.m ∧ 3 ≤ g'.members.length) ∧
      ∀ g ∈ byGroup blocks, g.arm = .control → g.m = 0 →
        ∃ b ∈ g.members, b.parity = false ∧ fetched reads b = true := by
  have hdata : ∀ g : Group, times reads (dataOf g) ≠ [] ↔
      ∃ b ∈ g.members, b.parity = false ∧ fetched reads b = true := by
    intro g
    rw [times, Ne, List.filterMap_eq_nil_iff]
    push Not
    constructor
    · intro h
      obtain ⟨b, hb, ht⟩ := h
      obtain ⟨hb, hp⟩ := List.mem_filter.mp hb
      exact ⟨b, hb, by simpa using hp, Option.isSome_iff_ne_none.mpr ht⟩
    · intro h
      obtain ⟨b, hb, hp, hf⟩ := h
      exact ⟨b, List.mem_filter.mpr ⟨hb, by simpa using hp⟩, Option.isSome_iff_ne_none.mp hf⟩
  rw [score_ok_tables, table4_ok_iff, table5_ok_iff, table6_ok_iff,
    scored_all blocks .full fun m _ => ∃ g' ∈ scored (byGroup blocks) m .full,
      3 ≤ g'.members.length,
    scored_all blocks .full fun m _ => 0 < m]
  constructor
  · intro h
    obtain ⟨h4, h5, h6⟩ := h
    constructor
    · intro g hg ha
      obtain ⟨g', hg', hw⟩ := h4 g hg ha
      obtain ⟨hmem, hm, ha'⟩ := mem_scored.mp hg'
      exact ⟨h5 g hg ha, g', hmem, ha', hm, hw⟩
    · intro g hg ha hm
      have := h6 g.m (Group.m_mem hg) .control g (mem_scored.mpr ⟨hg, rfl, ha⟩)
      exact (hdata g).mp (this.resolve_left (by omega))
  · intro h
    obtain ⟨hfull, hcontrol⟩ := h
    refine ⟨?_, fun g hg ha => (hfull g hg ha).1, ?_⟩
    · intro g hg ha
      obtain ⟨-, g', hmem, ha', hm, hw⟩ := hfull g hg ha
      exact ⟨g', mem_scored.mpr ⟨hmem, hm, ha'⟩, hw⟩
    · intro m _ arm g hg
      obtain ⟨hmem, rfl, rfl⟩ := mem_scored.mp hg
      cases ha : g.arm with
      | full => exact .inl (hfull g hmem ha).1
      | control =>
        by_cases hm : 0 < g.m
        · exact .inl hm
        · exact .inr ((hdata g).mpr (hcontrol g hmem ha (by omega)))

end Times

/-- One Full group of two members, or one of three without an `m`: the score panics. -/
theorem two_members_panic :
    score (fun _ => some (some 5) : Reads ℚ) none [] 0 (groupOf 2 2) = .error .panic ∧
      score (fun _ => some (some 5) : Reads ℚ) none [] 0 (groupOf 0 3) = .error .panic :=
  ⟨rfl, rfl⟩

end FreenetHarness.Parity
