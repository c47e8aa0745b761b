import FreenetHarness.Parity.Score

/-! # What the tables take for a miss

Table 1 is over the blocks that were asked for, table 4 over the members of the groups.
`agrees_iff` says for which blocks and reads the two have the same misses. -/
namespace FreenetHarness.Parity
open FreenetHarness.Lib.Count FreenetHarness.Lib.Ranks

/-! ## Groups hold the blocks -/

theorem push_perm (gs : List Group) (b : Block) :
    ((push gs b).flatMap Group.members).Perm (gs.flatMap Group.members ++ [b]) := by
  induction gs with
  | nil => exact List.Perm.refl _
  | cons g gs ih =>
    unfold push
    split
    · rw [List.flatMap_cons, List.flatMap_cons, Group.add_members, List.append_assoc,
        List.append_assoc]
      exact (List.perm_append_comm).append_left _
    · rw [List.flatMap_cons, List.flatMap_cons, List.append_assoc]
      exact ih.append_left _

/-- **Grouping loses nothing.** The members of the groups are the blocks, in another
order. -/
theorem byGroup_perm (blocks : List Block) :
    ((byGroup blocks).flatMap Group.members).Perm blocks := by
  induction blocks using List.reverseRecOn with
  | nil => exact List.Perm.refl _
  | append_singleton blocks b ih =>
    rw [byGroup, List.foldl_concat]
    exact (push_perm _ b).trans (ih.append_right [b])

theorem Group.first_mem (g : Group) : g.first ∈ g.members := List.mem_cons_self

theorem mem_of_mem_byGroup {blocks : List Block} {g : Group} {b : Block} (hg : g ∈ byGroup blocks)
    (hb : b ∈ g.members) : b ∈ blocks :=
  (byGroup_perm blocks).subset (List.mem_flatMap.mpr ⟨g, hg, hb⟩)

theorem mem_msValues {blocks : List Block} {m : Nat} :
    m ∈ msValues blocks ↔ ∃ b ∈ blocks, b.m.toNat = m := by
  rw [msValues, mem_sorted, List.mem_dedup, List.mem_map]

theorem nodup_msValues (blocks : List Block) : (msValues blocks).Nodup :=
  (sorted_perm _).nodup_iff.mpr (List.nodup_dedup _)

theorem Group.m_mem {blocks : List Block} {g : Group} (hg : g ∈ byGroup blocks) :
    g.m ∈ msValues blocks := mem_msValues.mpr ⟨g.first, mem_of_mem_byGroup hg g.first_mem, rfl⟩

theorem mem_scored {gs : List Group} {m : Nat} {arm : Arm} {g : Group} :
    g ∈ scored gs m arm ↔ g ∈ gs ∧ g.m = m ∧ g.arm = arm := by
  rw [scored, List.mem_filter, decide_eq_true_iff]

theorem scored_all (blocks : List Block) (arm : Arm) (P : Nat → Group → Prop) :
    (∀ m ∈ msValues blocks, ∀ g ∈ scored (byGroup blocks) m arm, P m g) ↔
      ∀ g ∈ byGroup blocks, g.arm = arm → P g.m g := by
  constructor
  · exact fun h g hg ha => h g.m (Group.m_mem hg) g (mem_scored.mpr ⟨hg, rfl, ha⟩)
  · intro h m _ g hg
    obtain ⟨hmem, rfl, ha⟩ := mem_scored.mp hg
    exact h g hmem ha

/-! ## What the tables say of a block -/

variable {T : Type} (reads : Reads T)

/-- A miss by the rule of table 1: asked for, and not fetched. -/
def missed (b : Block) : Bool := asked reads b && !fetched reads b

/-- The misses that table 4 counts, over every `m`. -/
def table4Misses (blocks : List Block) : Nat :=
  ((msValues blocks).map fun m =>
    ((scored (byGroup blocks) m .full).map (misses reads)).sum).sum

/-- The blocks of the groups that are scored as Full, and of the other groups. -/
def fullMembers (blocks : List Block) : List Block :=
  ((byGroup blocks).filter fun g => g.arm = .full).flatMap Group.members

def otherMembers (blocks : List Block) : List Block :=
  ((byGroup blocks).filter fun g => g.arm ≠ .full).flatMap Group.members

theorem members_perm (blocks : List Block) :
    (fullMembers blocks ++ otherMembers blocks).Perm blocks := by
  rw [fullMembers, otherMembers, ← List.flatMap_append]
  refine List.Perm.trans ?_ (byGroup_perm blocks)
  refine List.Perm.flatMap_right _ ?_
  simpa using List.filter_append_perm (fun g : Group => decide (g.arm = .full)) (byGroup blocks)

theorem table4Misses_eq (blocks : List Block) :
    table4Misses reads blocks = (fullMembers blocks).countP fun b => !fetched reads b := by
  have hfiber : ((msValues blocks).map fun m =>
      ((((byGroup blocks).filter fun g => g.arm = .full).filter fun g => g.m = m).map
        (misses reads)).sum).sum =
      (((byGroup blocks).filter fun g => g.arm = .full).map (misses reads)).sum :=
    sum_fiber (nodup_msValues blocks)
      (fun g hg => Group.m_mem (List.mem_filter.mp hg).1) (misses reads)
  rw [fullMembers, List.countP_flatMap]
  refine Eq.trans ?_ hfiber
  rw [table4Misses]
  congr 1
  apply List.map_congr_left
  intro m _
  rw [List.filter_filter, scored]
  simp only [Bool.decide_and]

theorem table1_never [LinearOrder T] (thresholds : List T) (blocks : List Block) :
    (table1 reads thresholds blocks).never = blocks.countP (missed reads) := by
  have hlen : ∀ bs : List Block, bs.length - bs.countP (fetched reads) =
      bs.countP fun b => !fetched reads b := by
    intro bs
    have := List.length_eq_countP_add_countP (fetched reads) (l := bs)
    simp only [Bool.not_eq_true, Bool.decide_eq_false] at this
    omega
  show (blocks.filter (asked reads)).length -
    (blocks.filter (asked reads)).countP (fetched reads) = _
  rw [hlen, List.countP_filter]
  exact List.countP_congr fun b _ => by rw [missed, Bool.and_comm]

/-- How many missed blocks are of one arm and in a group of another: marked otherwise in
a Full group, and marked Full in another group. -/
def strayOut (blocks : List Block) : Nat :=
  (fullMembers blocks).countP fun b => decide (b.arm ≠ .full) && missed reads b

def strayIn (blocks : List Block) : Nat :=
  (otherMembers blocks).countP fun b => decide (b.arm = .full) && missed reads b

theorem countP_full (blocks : List Block) :
    (blocks.countP fun b => decide (b.arm = .full) && missed reads b) + strayOut reads blocks =
      (fullMembers blocks).countP (missed reads) + strayIn reads blocks := by
  have hsplit : ∀ bs : List Block, bs.countP (missed reads) =
      (bs.countP fun b => decide (b.arm = .full) && missed reads b) +
        bs.countP fun b => decide (b.arm ≠ .full) && missed reads b := by
    intro bs
    induction bs with
    | nil => rfl
    | cons b bs ih =>
      simp only [List.countP_cons, ih]
      by_cases ha : b.arm = .full <;> simp [ha] <;> omega
  rw [← (members_perm blocks).countP_eq, List.countP_append, hsplit (fullMembers blocks), strayIn,
    strayOut]
  omega

/-! ## The result -/

variable [LinearOrder T]

/-- The tables agree: on how many Full-arm blocks were asked for and not fetched; on the
floors, where only groups count that were asked for; and on a block that was not asked
for, which is no miss and not fetchable in any of them. -/
structure Agrees (blocks : List Block) : Prop where
  total : table4Misses reads blocks = blocks.countP fun b => decide (b.arm = .full) && missed reads b
  floor : ∀ m ∈ msValues blocks, ∀ g ∈ scored (byGroup blocks) m .full, ∀ b ∈ g.members,
    asked reads b = true
  notMiss : ∀ b ∈ blocks, asked reads b = false → missed reads b = false ∧
    ∀ m ∈ msValues blocks, ∀ g ∈ scored (byGroup blocks) m .full,
      b ∉ g.members.filter fun b => !fetched reads b
  notFetchable : ∀ b ∈ blocks, asked reads b = false →
    fetched reads b = false ∧ time reads b = none ∧ ∀ t, within reads t b = false

/-- **The tables agree** where every member of a group that is scored as Full was asked
for, and the missed blocks of one arm in a group of another even out. -/
theorem agrees_iff (blocks : List Block) :
    Agrees reads blocks ↔
      (∀ g ∈ byGroup blocks, g.arm = .full → ∀ b ∈ g.members, asked reads b = true) ∧
        strayOut reads blocks = strayIn reads blocks := by
  have hstray : (∀ g ∈ byGroup blocks, g.arm = .full → ∀ b ∈ g.members, asked reads b = true) →
      table4Misses reads blocks = (fullMembers blocks).countP (missed reads) := by
    intro hasked
    rw [table4Misses_eq]
    apply List.countP_congr
    intro b hb
    obtain ⟨g, hg, hb⟩ := List.mem_flatMap.mp hb
    obtain ⟨hg, ha⟩ := List.mem_filter.mp hg
    rw [missed, hasked g hg (by simpa using ha) b hb, Bool.true_and]
  have hcount := countP_full reads blocks
  constructor
  · intro h
    have hasked := (scored_all blocks .full fun _ g => ∀ b ∈ g.members, asked reads b = true).mp h.floor
    have htotal := h.total
    rw [hstray hasked] at htotal
    exact ⟨hasked, by omega⟩
  · intro ⟨hasked, heven⟩
    have hfetched : ∀ b, asked reads b = false → fetched reads b = false := by
      intro b hb
      by_contra hf
      rw [asked_of_fetched reads (by simpa using hf)] at hb
      cases hb
    refine ⟨?_, (scored_all blocks .full _).mpr hasked, ?_, ?_⟩
    · rw [hstray hasked]
      omega
    · intro b _ hb
      refine ⟨by rw [missed, hb, Bool.false_and], (scored_all blocks .full fun _ g =>
        b ∉ g.members.filter fun b => !fetched reads b).mpr fun g hg ha hm => ?_⟩
      rw [hasked g hg ha b (List.mem_filter.mp hm).1] at hb
      cases hb
    · intro b _ hb
      have ht : time reads b = none := by simpa [fetched] using hfetched b hb
      exact ⟨hfetched b hb, ht, fun t => by rw [within, ht]⟩

/-- A reader that stopped after the first block of a group of four. -/
def earlyReads : Reads ℚ := fun key => if key = (memberOf 1 0).key then some (some 5) else none

/-- Table 4 has three misses, and table 1 none. -/
theorem earlyReads_disagree : ¬ Agrees earlyReads (groupOf 1 4) := by
  intro h
  exact absurd h.total (by decide)

end FreenetHarness.Parity
