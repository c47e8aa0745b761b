import FreenetHarness.Parity.File
import FreenetHarness.XNode.Minted

/-! # REPUT: the same block again, from its record

A block's record holds its seed and the length of its state, which is one more than the
size its body was minted with. `rebuilt` says that along both paths, this one and the
cross-node one, the later role has the block of the earlier one. -/
namespace FreenetHarness.Parity
open FreenetHarness.Lib.Text FreenetHarness.Lib.Number FreenetHarness.Mint
open FreenetHarness.XNode (Planned mints mintOnly planOf planOf_mintOnly)

/-- The block of a record, minted again; it is not put under another key. -/
def remint (c : Crates) (code : Bytes) (b : Block) : Except Fault Minted :=
  let again := mintSeeded c code b.seed (b.size.toNat - 1)
  if again.id ≠ b.key then
    .error (.bail ("re-mint from the recorded seed produced " ++ String.ofList again.id ++ ", not " ++
      String.ofList b.key ++ ".\n  The seed round trip is broken, so a re-put would be putting " ++
      "DIFFERENT blocks and calling their fetch rate a recovery rate."))
  else .ok again

/-- The record is of a block minted with a body of `size` bytes: its key, and the length
of its state. -/
structure Block.Records (c : Crates) (code : Bytes) (size : Nat) (b : Block) : Prop where
  key : b.key = (mintSeeded c code b.seed size).id
  size : b.size.toNat = (mintSeeded c code b.seed size).state.length

/-- A recorded block is minted again as it was, whatever its outcome. -/
theorem Block.Records.remint {c : Crates} {code : Bytes} {size : Nat} {b : Block}
    (h : b.Records c code size) (ack : Ack) :
    Parity.remint c code { b with ack } = .ok (mintSeeded c code b.seed size) := by
  have hs : b.size.toNat - 1 = size := by
    rw [h.size, length_state, Nat.add_sub_cancel]
  unfold Parity.remint
  simp only [hs]
  rw [if_neg (not_not.mpr h.key.symm)]

/-- **The same block.** A body has the size it was asked for. Every block of a groups file
is minted again from its record as it was minted for it, key and state. The put role
builds from the mint role's file the blocks that were minted. -/
theorem rebuilt (c : Crates) (code : Bytes) :
    (∀ seed size, (bodyFromSeed c seed size).length = size) ∧
      (∀ (path : String) (bound : Nat) (es : List Entry) (size : Block → Nat),
        (∀ e ∈ es, e.Written) → blocks es ≠ [] →
          (∀ b ∈ blocks es, b.Records c code (size b)) →
            ∃ back, parseGroups path (.ok (encode (fileText bound es))) = .ok back ∧
              back.map (remint c code) =
                (blocks es).map fun b => .ok (mintSeeded c code b.seed (size b))) ∧
      ∀ samples sizes arms draw, ∃ plan,
        planOf (mintOnly c code samples sizes arms draw) = .ok plan ∧
          plan.map (Planned.mint c code) =
            (mints samples sizes arms draw).map (Planned.mint c code) := by
  refine ⟨length_bodyFromSeed c, ?_, fun samples sizes arms draw => ?_⟩
  · intro path bound es size hw hne hrec
    refine ⟨readBack bound es, ?_, ?_⟩
    · rw [parseGroups_file path bound hw, parseLines_written path bound hw hne]
    · rw [readBack, List.map_map]
      exact List.map_congr_left fun b hb => (hrec b hb).remint _
  · exact ⟨_, planOf_mintOnly .., rfl⟩

/-! ## Three blocks, recorded and rebuilt -/

/-- Sixteen ones. -/
def oneSeed : Seed := ⟨List.replicate 16 1, rfl⟩

/-- BLAKE3 of the zero seed and of the ones, each with its counter. -/
def expanded : List (Bytes × Bytes) :=
  [(zeroSeed.bytes ++ toLeBytes 0,
      [219, 39, 240, 48, 173, 142, 70, 124, 9, 139, 235, 185, 231, 195, 158, 10, 202, 247, 148,
       185, 187, 216, 60, 234, 149, 217, 62, 8, 214, 8, 39, 167]),
    (oneSeed.bytes ++ toLeBytes 0,
      [244, 71, 69, 160, 18, 178, 117, 157, 168, 25, 215, 184, 49, 14, 225, 180, 144, 46, 156,
       239, 167, 226, 49, 90, 102, 77, 105, 145, 123, 146, 108, 69]),
    (oneSeed.bytes ++ toLeBytes 1,
      [169, 199, 23, 208, 81, 119, 119, 128, 125, 70, 208, 3, 55, 5, 232, 6, 195, 100, 198, 169,
       107, 68, 116, 52, 209, 151, 158, 36, 82, 189, 191, 135])]

/-- BLAKE3 of three states: two of the zero seed, of sixteen bytes and of eight, and one of the
ones, of forty. -/
def hashed : List (Bytes × Bytes) :=
  [([0, 219, 39, 240, 48, 173, 142, 70, 124, 9, 139, 235, 185, 231, 195, 158, 10],
      [110, 123, 205, 55, 13, 35, 140, 145, 187, 37, 213, 212, 233, 68, 133, 233, 48, 235, 186,
       149, 216, 106, 66, 193, 215, 98, 135, 169, 164, 218, 250, 127]),
    ([0, 244, 71, 69, 160, 18, 178, 117, 157, 168, 25, 215, 184, 49, 14, 225, 180, 144, 46, 156,
      239, 167, 226, 49, 90, 102, 77, 105, 145, 123, 146, 108, 69, 169, 199, 23, 208, 81, 119,
      119, 128],
      [43, 80, 36, 29, 4, 66, 236, 142, 50, 189, 107, 134, 255, 215, 198, 210, 136, 217, 38, 91,
       238, 211, 27, 77, 24, 25, 134, 173, 116, 177, 106, 233]),
    ([0, 219, 39, 240, 48, 173, 142, 70, 124],
      [105, 246, 142, 132, 109, 2, 11, 105, 44, 145, 251, 86, 107, 138, 209, 123, 105, 41, 55, 61,
       147, 176, 138, 219, 20, 91, 52, 194, 156, 168, 126, 235])]

/-- The keys of these states, as they print. -/
def named : List (Bytes × Str) :=
  (hashed.map Prod.snd).zip
    ["CfdVzeBf9YWq5v4BkzWezAtNBYpTKJRL6q4E38RW8WXS".toList,
      "GeF2MzMyfqktE4pfvrKJpiVw8eW2FFRxugcVhXLNBcPw".toList,
      "HydK6dfW71goUtUp5VUjAYmTV41THvRcz4ggvDhLLLiv".toList]

/-- What is true of every entry of a table and of the default is true of what is looked up. -/
theorem getD_lookup {α β : Type} [BEq α] [LawfulBEq α] {P : β → Prop} {table : List (α × β)}
    {d : β} (h : ∀ x ∈ table, P x.2) (hd : P d) (a : α) : P ((table.lookup a).getD d) := by
  cases hl : table.lookup a with
  | none => exact hd
  | some b =>
    obtain ⟨l, r, rfl, -⟩ := List.lookup_eq_some_iff.mp hl
    exact h (a, b) (by simp)

/-- The libraries, as far as these blocks need them. -/
def tabled : Crates where
  blake3 bytes := ((expanded ++ hashed).lookup bytes).getD (List.replicate 32 0)
  blake3_length := getD_lookup (P := fun d : Bytes => d.length = 32) (by decide) rfl
  raw := 0
  encode kind body := kind :: body
  encode_length _ _ := rfl
  contractId _ params := (named.lookup params).getD "A".toList
  isWord_contractId _ := getD_lookup (by decide) (by decide)

/-- The record of a block minted from this seed, before it is acknowledged. -/
def recorded (seed : Seed) (size : Nat) (idx : UInt64) : Block :=
  { seed, gid := 0, m := 2, arm := .full, idx, parity := decide (2 ≤ idx)
    key := (mintSeeded tabled [] seed size).id, tSend := 1, ack := .never
    size := .ofNat (size + 1) }

/-- The first block is acknowledged twice, the second late, the third never. -/
def threeBlocks : List Entry :=
  let first := recorded zeroSeed 16 0
  let second := recorded oneSeed 40 1
  [.block first, .block second, .ack first.key 1200, .block (recorded zeroSeed 8 2),
    .ack first.key 1500, .ack second.key 31000]

theorem blocks_three : blocks threeBlocks =
    [recorded zeroSeed 16 0, recorded oneSeed 40 1, recorded zeroSeed 8 2] := rfl

theorem keys_three : (blocks threeBlocks).map Block.key = named.map Prod.snd := by decide +kernel

theorem records_three {seed : Seed} {size : Nat} {idx : UInt64} (h : size < 255) :
    (recorded seed size idx).Records tabled [] ((recorded seed size idx).size.toNat - 1) := by
  have hsize : (recorded seed size idx).size.toNat = size + 1 := by
    show (UInt64.ofNat (size + 1)).toNat = size + 1
    rw [UInt64.toNat_ofNat']
    omega
  rw [hsize, Nat.add_sub_cancel]
  exact ⟨rfl, by rw [hsize, length_state]⟩

/-- Three keys that differ, and every block again under its own. -/
theorem rebuilt_three :
    (blocks threeBlocks).map Block.key = named.map Prod.snd ∧
    ∃ back, parseGroups "groups.txt" (.ok (encode (fileText 30000 threeBlocks))) = .ok back ∧
      back.map (remint tabled []) =
        [.ok (mintSeeded tabled [] zeroSeed 16), .ok (mintSeeded tabled [] oneSeed 40),
          .ok (mintSeeded tabled [] zeroSeed 8)] := by
  refine ⟨keys_three, (rebuilt tabled []).2.1 "groups.txt" 30000 threeBlocks
    (fun b => b.size.toNat - 1) ?_ ?_ ?_⟩
  · have hword (seed : Seed) (size : Nat) (idx : UInt64) : IsWord (recorded seed size idx).key :=
      isWord_id tabled [] seed size
    have hack : (0 : ℚ) ≤ 1200 ∧ (0 : ℚ) ≤ 1500 ∧ (0 : ℚ) ≤ 31000 := by norm_num
    simp only [threeBlocks, List.forall_mem_cons, List.not_mem_nil, false_imp_iff, implies_true,
      and_true]
    exact ⟨⟨hword .., rfl⟩, ⟨hword .., rfl⟩, ⟨hword .., hack.1⟩, ⟨hword .., rfl⟩,
      ⟨hword .., hack.2.1⟩, hword .., hack.2.2⟩
  · rw [blocks_three]
    exact List.cons_ne_nil _ _
  · simp only [blocks_three, List.forall_mem_cons, List.not_mem_nil, false_imp_iff, implies_true,
      and_true]
    exact ⟨records_three (by decide), records_three (by decide), records_three (by decide)⟩

/-- Where no digest is looked at: a hash that is always zero, and a key that is always `A`. -/
def zeroHash : Crates where
  blake3 _ := List.replicate 32 0
  blake3_length _ := List.length_replicate
  raw := 1
  encode kind body := kind :: body
  encode_length _ _ := rfl
  contractId _ _ := "A".toList
  isWord_contractId _ _ := by decide

end FreenetHarness.Parity
