import Mathlib.Data.List.Sort
import FreenetHarness.Lib.Framing

/-! # `pack`: the body of a PACK block

The harness writes the body itself, member for member, because the cases that matter are
the ones a correct builder refuses to produce. `wire_ordered_iff` says that it is a name
for the members, whatever the order they are given in. -/
namespace FreenetHarness.Pack
open FreenetHarness.Lib.Number FreenetHarness.Lib.Framing

/-- A member's kind and its body. -/
abbrev Member := UInt8 × List UInt8

/-- One member: its kind, the length of its body, its body. -/
def memberFrame (m : Member) : List UInt8 := m.1 :: sized 4 m.2

/-- A pack body member for member, in the order given, after the block crate's `MAGIC`. -/
def wire (magic : List UInt8) (members : List Member) : List UInt8 :=
  magic ++ counted 2 memberFrame members

section Ordered

variable {Id : Type} [LinearOrder Id] (blockId : UInt8 → List UInt8 → Id)

/-- One member's id is not above another's. -/
def idLe (x y : Member) : Prop := blockId x.1 x.2 ≤ blockId y.1 y.2

instance : DecidableRel (idLe blockId) := fun x y =>
  inferInstanceAs (Decidable (blockId x.1 x.2 ≤ blockId y.1 y.2))

/-- Members in the order the format requires: ascending by their own block id. -/
def ordered (members : List Member) : List Member := members.insertionSort (idLe blockId)

/-- A pack state built by the harness's own encoder, in wire order. -/
def packed (encode : UInt8 → List UInt8 → List UInt8) (pack : UInt8) (magic : List UInt8)
    (members : List Member) : List UInt8 :=
  encode pack (wire magic (ordered blockId members))

theorem length_wire (magic : List UInt8) (members : List Member) :
    (wire magic members).length =
      magic.length + 2 + (members.map fun m => 5 + m.2.length).sum := by
  have hframe : ∀ m : Member, (memberFrame m).length = 5 + m.2.length := by
    intro m
    simp only [memberFrame, sized, List.length_cons, List.length_append, leBytes_length]
    omega
  rw [wire, List.length_append, length_counted, List.map_congr_left fun m _ => hframe m]
  omega

/-! ## The body names its members -/

/-- What the format's fields can hold. -/
def Fits (members : List Member) : Prop :=
  members.length < 65536 ∧ ∀ m ∈ members, m.2.length < 2 ^ 32

theorem memberFrame_prefixFree : PrefixFree memberFrame fun m => m.2.length < 2 ^ 32 := by
  have h := (sized_prefixFree 4).tagged
  rwa [show (256 ^ 4 : Nat) = 2 ^ 32 by norm_num] at h

/-- **The framing loses nothing**: no two lists of members have one body. -/
theorem wire_inj {magic : List UInt8} {a b : List Member} (ha : Fits a) (hb : Fits b)
    (h : wire magic a = wire magic b) : a = b := by
  have hfree := counted_prefixFree 2 memberFrame_prefixFree
  exact hfree.inj ha hb (List.append_cancel_left h)

theorem ordered_perm (members : List Member) : (ordered blockId members).Perm members :=
  List.perm_insertionSort _ members

theorem Fits.perm {a b : List Member} (hp : a.Perm b) (ha : Fits a) : Fits b :=
  ⟨hp.length_eq ▸ ha.1, fun m hm => ha.2 m (hp.mem_iff.mpr hm)⟩

variable {blockId}

/-- **Ordering forgets the order given, and nothing else.** -/
theorem ordered_eq_iff (hid : ∀ x y : Member, blockId x.1 x.2 = blockId y.1 y.2 → x = y)
    {a b : List Member} : ordered blockId a = ordered blockId b ↔ b.Perm a := by
  constructor
  · intro h
    exact (ordered_perm blockId b).symm.trans (h ▸ ordered_perm blockId a)
  · intro hp
    have : Std.Total (idLe blockId) := ⟨fun x y => le_total (blockId x.1 x.2) (blockId y.1 y.2)⟩
    have : IsTrans Member (idLe blockId) := ⟨fun _ _ _ => le_trans⟩
    have hperm : (ordered blockId a).Perm (ordered blockId b) :=
      (ordered_perm blockId a).trans (hp.symm.trans (ordered_perm blockId b).symm)
    exact hperm.eq_of_pairwise (fun x y _ _ hxy hyx => hid x y (le_antisymm hxy hyx))
      (List.pairwise_insertionSort _ a) (List.pairwise_insertionSort _ b)

/-- The order given does not change the pack. -/
theorem packed_perm (encode : UInt8 → List UInt8 → List UInt8) (pack : UInt8)
    (magic : List UInt8) (hid : ∀ x y : Member, blockId x.1 x.2 = blockId y.1 y.2 → x = y)
    {a b : List Member} (hp : b.Perm a) :
    packed blockId encode pack magic a = packed blockId encode pack magic b := by
  rw [packed, packed, (ordered_eq_iff hid).mpr hp]

/-- **One body for one multiset of members.** Two lists have one body exactly when each is
the other in some order, duplicates kept. -/
theorem wire_ordered_iff (magic : List UInt8)
    (hid : ∀ x y : Member, blockId x.1 x.2 = blockId y.1 y.2 → x = y) {a b : List Member}
    (ha : Fits a) (hb : Fits b) :
    wire magic (ordered blockId a) = wire magic (ordered blockId b) ↔ b.Perm a := by
  rw [← ordered_eq_iff hid]
  constructor
  · exact wire_inj (ha.perm (ordered_perm blockId a).symm) (hb.perm (ordered_perm blockId b).symm)
  · intro h
    rw [h]

end Ordered

/-- A name that can be read: a member's own bytes. -/
def readableId (kind : UInt8) (body : List UInt8) : List Nat := kind.toNat :: body.map UInt8.toNat

theorem readableId_inj (x y : Member) (h : readableId x.1 x.2 = readableId y.1 y.2) : x = y := by
  obtain ⟨hk, hb⟩ := List.cons_eq_cons.mp h
  have hbytes : Function.Injective (List.map UInt8.toNat) :=
    List.map_injective_iff.mpr fun _ _ => UInt8.toNat_inj.mp
  exact Prod.ext (UInt8.toNat_inj.mp hk) (hbytes hb)

/-- The bytes of `PK01`. -/
def pk01 : List UInt8 := [80, 75, 48, 49]

/-- Three members, one of them twice, given in two orders. -/
theorem wire_ordered_twice :
    wire pk01 (ordered readableId [(1, [7]), (0, [9]), (1, [7])]) =
        wire pk01 (ordered readableId [(0, [9]), (1, [7]), (1, [7])]) ↔
      [(0, [9]), (1, [7]), (1, [7])].Perm [(1, [7]), (0, [9]), ((1, [7]) : Member)] :=
  wire_ordered_iff pk01 readableId_inj (by simp [Fits]) (by simp [Fits])

end FreenetHarness.Pack
