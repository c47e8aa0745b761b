import FreenetHarness.Parity.Score

/-! # When a group can be read

Table 3 counts the members that were fetched in time, table 5 sorts their times and takes
the `m`-th. `ready_iff` says that the two are one readiness, and that the `m`-th of the
whole group is never later than the last of the data. -/
namespace FreenetHarness.Parity
open FreenetHarness.Lib.Ranks

variable {T : Type} (reads : Reads T)

/-- How many parity members a group has. -/
def parityCount (g : Group) : Nat := g.members.countP (·.parity)

/-- A group as the write role lays it out: indices from zero without a gap, and `m` data
members. -/
structure Laid (g : Group) : Prop where
  pos : 1 ≤ g.m
  idx : (g.members.map fun b => b.idx.toNat).Perm (List.range g.members.length)
  data : (dataOf g).length = g.m

theorem Laid.width {g : Group} (h : Laid g) : g.m + parityCount g = g.members.length := by
  have hlen := List.length_eq_countP_add_countP (fun b : Block => b.parity) (l := g.members)
  have hdata := h.data
  rw [dataOf, ← List.countP_eq_length_filter] at hdata
  simp only [Bool.not_eq_true, Bool.decide_eq_false] at hlen
  rw [parityCount]
  omega

theorem Laid.idx_lt {g : Group} (h : Laid g) {b : Block} (hb : b ∈ g.members) :
    b.idx.toNat < g.m + parityCount g := by
  rw [h.width]
  exact List.mem_range.mp (h.idx.subset (List.mem_map_of_mem hb))

/-- All of the parity is all of the group. -/
theorem Laid.upToParity_all {g : Group} (h : Laid g) :
    upToParity g.m (parityCount g) g = g.members :=
  List.filter_eq_self.mpr fun b hb => by simp [h.idx_lt hb]

theorem length_times {bs : List Block} (h : ∀ b ∈ bs, fetched reads b = true) :
    (times reads bs).length = bs.length := by
  induction bs with
  | nil => rfl
  | cons b bs ih =>
    obtain ⟨x, hx⟩ := Option.isSome_iff_exists.mp (h b (by simp))
    rw [times, List.filterMap_cons_some hx, List.length_cons, List.length_cons]
    exact congrArg (· + 1) (ih fun c hc => h c (List.mem_cons_of_mem b hc))

variable [LinearOrder T]

theorem countP_within (t : T) (bs : List Block) :
    bs.countP (within reads t) = (times reads bs).countP fun x => decide (x ≤ t) := by
  induction bs with
  | nil => rfl
  | cons b bs ih =>
    cases hb : time reads b with
    | none => simp [times, within, hb, ih]
    | some x => simp [times, within, hb, ih, List.countP_cons]

theorem ranked_eq_ok {v : List T} {m : Nat} {x : T} (hm : 1 ≤ m) :
    ranked v m = .ok x ↔ (sorted v)[m - 1]? = some x := by
  rw [ranked, checkedSub, if_pos hm]
  show index (sorted v) (m - 1) = .ok x ↔ _
  cases h : (sorted v)[m - 1]? with
  | none => simp [index, h]
  | some y => simp [index, h]

/-- The `m`-th fastest is the value of that rank, where there is one. -/
theorem fastest_eq_ok {g : Group} {m : Nat} {x : T} (hm : 1 ≤ m) :
    fastest reads m g = .ok (some x) ↔ (sorted (times reads g.members))[m - 1]? = some x := by
  rw [← ranked_eq_ok hm, fastest]
  by_cases hlen : m ≤ (times reads g.members).length
  · rw [if_pos hlen]
    cases ranked (times reads g.members) m <;> simp [Except.map]
  · have hnone : (sorted (times reads g.members))[m - 1]? = none :=
      List.getElem?_eq_none (by rw [length_sorted]; omega)
    rw [if_neg hlen, ranked_eq_ok hm, hnone]
    simp

theorem slowest_eq_ok {g : Group} {m : Nat} {x : T} (hm : 1 ≤ m)
    (hlen : (times reads (dataOf g)).length = m) :
    slowest reads m g = .ok (some x) ↔ (sorted (times reads (dataOf g)))[m - 1]? = some x := by
  rw [← ranked_eq_ok hm, slowest, if_pos hlen]
  cases ranked (times reads (dataOf g)) m <;> simp [Except.map]

theorem countP_sorted (v : List T) (t : T) :
    (sorted v).countP (fun x => decide (x ≤ t)) = v.countP fun x => decide (x ≤ t) :=
  (sorted_perm v).countP_eq _

/-- More parity and more time only help. -/
theorem readable_mono {g : Group} {m p p' : Nat} {t t' : T} (hp : p ≤ p') (ht : t ≤ t')
    (h : readable reads m p t g = true) : readable reads m p' t' g = true := by
  have hsub : (upToParity m p g).Sublist (upToParity m p' g) := by
    refine List.monotone_filter_right _ fun b hb => ?_
    simp only [Bool.or_eq_true, decide_eq_true_iff] at hb ⊢
    exact hb.imp id fun hlt => by omega
  have hwithin : (upToParity m p g).countP (within reads t) ≤
      (upToParity m p g).countP (within reads t') := by
    refine List.countP_mono_left fun b _ hb => ?_
    unfold within at hb ⊢
    cases htime : time reads b with
    | none => rw [htime] at hb; cases hb
    | some x =>
      rw [htime] at hb
      exact decide_eq_true ((of_decide_eq_true hb).trans ht)
  have h : m ≤ (upToParity m p g).countP (within reads t) := of_decide_eq_true h
  exact decide_eq_true (h.trans (hwithin.trans hsub.countP_le))

/-- **Counting and ranking are one readiness.** -/
theorem readable_iff_fastest {g : Group} (h : Laid g) (t : T) :
    readable reads g.m (parityCount g) t g = true ↔
      ∃ x, fastest reads g.m g = .ok (some x) ∧ x ≤ t := by
  have hpos := h.pos
  have hrank := lt_countP_iff (pairwise_sorted (times reads g.members)) (k := g.m - 1) (v := t)
  rw [countP_sorted, ← countP_within] at hrank
  rw [readable, h.upToParity_all, decide_eq_true_iff]
  simp only [fastest_eq_ok reads h.pos]
  rw [← hrank]
  omega

/-- The slowest data member: its time, and that no data member took longer. -/
def IsSlowest (g : Group) (w : T) : Prop :=
  (∃ b ∈ dataOf g, time reads b = some w) ∧ ∀ b ∈ dataOf g, ∀ x, time reads b = some x → x ≤ w

/-- **The whole group is no slower than its data.** -/
theorem fastest_le_slowest {g : Group} (h : Laid g)
    (hread : ∀ b ∈ dataOf g, fetched reads b = true) :
    ∃ v w, fastest reads g.m g = .ok (some v) ∧ slowest reads g.m g = .ok (some w) ∧
      IsSlowest reads g w ∧ v ≤ w := by
  have hpos := h.pos
  have hlen : (times reads (dataOf g)).length = g.m := (length_times reads hread).trans h.data
  have hlast : g.m - 1 < (sorted (times reads (dataOf g))).length := by
    rw [length_sorted, hlen]
    omega
  obtain ⟨w, hw⟩ : ∃ w, (sorted (times reads (dataOf g)))[g.m - 1]? = some w :=
    ⟨_, List.getElem?_eq_getElem hlast⟩
  have hall : ∀ x ∈ times reads (dataOf g), x ≤ w := by
    intro x hx
    obtain ⟨i, hi⟩ := List.mem_iff_getElem?.mp (mem_sorted.mpr hx)
    obtain ⟨hlt, -⟩ := List.getElem?_eq_some_iff.mp hi
    rw [length_sorted, hlen] at hlt
    exact le_of_rank_le (pairwise_sorted _) (by omega) hi hw
  have hcount : g.m ≤ (times reads g.members).countP fun x => decide (x ≤ w) := by
    have hsub : (times reads (dataOf g)).Sublist (times reads g.members) :=
      List.filter_sublist.filterMap _
    calc g.m = (times reads (dataOf g)).countP fun x => decide (x ≤ w) := by
          rw [List.countP_eq_length.mpr fun x hx => decide_eq_true (hall x hx), hlen]
      _ ≤ _ := hsub.countP_le
  rw [← countP_sorted] at hcount
  have hrank : g.m - 1 < (sorted (times reads g.members)).countP fun x => decide (x ≤ w) := by
    omega
  obtain ⟨v, hv, hvw⟩ := (lt_countP_iff (pairwise_sorted _)).mp hrank
  refine ⟨v, w, (fastest_eq_ok reads hpos).mpr hv, (slowest_eq_ok reads hpos hlen).mpr hw, ⟨?_, ?_⟩,
    hvw⟩
  · exact List.mem_filterMap.mp (mem_sorted.mp (List.mem_of_getElem? hw))
  · exact fun b hb x hx => hall x (List.mem_filterMap.mpr ⟨b, hb, hx⟩)

/-- **When a group can be read.** Readiness only grows with parity and time; with all of
the parity it is that the `m`-th fastest member came in time; and where all data was
fetched, the `m`-th fastest of the group came no later than the last of it. -/
theorem ready_iff {g : Group} (h : Laid g) :
    (∀ p p' t t', p ≤ p' → t ≤ t' → readable reads g.m p t g = true →
      readable reads g.m p' t' g = true) ∧
    (∀ t, readable reads g.m (parityCount g) t g = true ↔
      ∃ x, fastest reads g.m g = .ok (some x) ∧ x ≤ t) ∧
    ((∀ b ∈ dataOf g, fetched reads b = true) →
      ∃ v w, fastest reads g.m g = .ok (some v) ∧ slowest reads g.m g = .ok (some w) ∧
        IsSlowest reads g w ∧ v ≤ w) :=
  ⟨fun _ _ _ _ hp ht hr => readable_mono reads hp ht hr, readable_iff_fastest reads h,
    fastest_le_slowest reads h⟩

/-- Two data blocks and one of parity, fetched after five, seven and three. -/
def threeMembers : Group :=
  ⟨memberOf 2 0, [memberOf 2 1, memberOf 2 2], fun _ h => by
    rcases List.mem_cons.mp h with rfl | h
    · rfl
    · rw [List.mem_singleton.mp h]
      rfl⟩

def threeReads : Reads Nat := fun key =>
  some (if key = (memberOf 2 0).key then some 5 else if key = (memberOf 2 1).key then some 7
    else some 3)

theorem threeMembers_ready :
    readable threeReads 2 1 8 threeMembers = true ∧
      (∃ x, fastest threeReads 2 threeMembers = .ok (some x) ∧ x ≤ 5) ∧
      ∃ v w, fastest threeReads 2 threeMembers = .ok (some v) ∧
        slowest threeReads 2 threeMembers = .ok (some w) ∧ IsSlowest threeReads threeMembers w ∧
        v ≤ w := by
  have hlaid : Laid threeMembers := ⟨by decide, by decide, by decide⟩
  obtain ⟨hmono, hready, hslow⟩ := ready_iff threeReads hlaid
  exact ⟨hmono 0 1 7 8 (by decide) (by decide) (by decide), (hready 5).mp (by decide),
    hslow (by decide)⟩

end FreenetHarness.Parity
