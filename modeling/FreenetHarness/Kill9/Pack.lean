import FreenetHarness.Lib.Run
import FreenetHarness.Pack
import FreenetHarness.Parity.Score

/-! # `make_pack`: a pack of the size asked for

The members share what the framing leaves of the body, and the last one takes the
remainder. `makePack_size` says that the state has the size asked for, or the largest one
pack may have where more is asked for. -/
namespace FreenetHarness.Kill9
open FreenetHarness.Lib.Run FreenetHarness.Pack FreenetHarness.Parity

/-! ## The arithmetic -/

def memberBytes : Nat := 64 * 1024

/-- `PK01` and the count. -/
def header : Nat := 4 + 2

/-- A kind and a length. -/
def perMember : Nat := 1 + 4

/-- The body is bounded, and the framing is part of the body. -/
def bodyCap (maxPack target : Nat) : Nat := min (target - 1) maxPack

def memberCount (cap : Nat) : Nat :=
  max ((cap - header + (memberBytes + perMember) - 1) / (memberBytes + perMember)) 1

/-- What the framing leaves; a `checked_sub`. -/
def room (cap : Nat) : Option Nat :=
  if header + memberCount cap * perMember ≤ cap then
    some (cap - (header + memberCount cap * perMember))
  else none

/-- The last member takes the remainder. -/
def memberLen (avail count i : Nat) : Except Fault Nat :=
  if i + 1 = count then do
    checkedSub avail (avail / count * (← checkedSub count 1))
  else .ok (avail / count)

/-! ## The pack -/

/-- What the harness takes from the block crate. -/
structure BlockCrate where
  raw : UInt8
  pack : UInt8
  maxPack : Nat
  magic : List UInt8
  magic_length : magic.length = 4
  /-- A body of some kind, as a block's state: the kind takes one byte. -/
  encode : UInt8 → List UInt8 → List UInt8
  encode_length : ∀ kind body, (encode kind body).length = body.length + 1
  build : List Member → Except String (List UInt8)
  /-- Pairwise different members are kept, in an order of the builder's, and framed. -/
  build_ok : ∀ ms body, ms.Nodup → build ms = .ok body → ∃ ms', ms'.Perm ms ∧ body = wire magic ms'
  /-- The contract accepts a state under the hash of it. -/
  check : List UInt8 → Bool

/-- The random bytes each member is filled with. -/
abbrev Draw := Nat → (len : Nat) → Except String { bs : List UInt8 // bs.length = len }

def okOrElse {α : Type} (r : Option α) (e : String) : Except Fault α :=
  match r with
  | some x => .ok x
  | none => .error (.bail e)

/-- The lengths the members are given. -/
def memberLens (avail count : Nat) : Except Fault (List Nat) :=
  (List.range count).mapM (memberLen avail count)

def members (c : BlockCrate) (draw : Draw) (avail count : Nat) : Except Fault (List Member) :=
  (List.range count).mapM fun i => do
    let len ← memberLen avail count i
    let b ← orFail (draw i len)
    return (c.raw, b.val)

/-- A PACK whose state is close to `target` bytes, made of RAW members. -/
def makePack (c : BlockCrate) (draw : Draw) (target : Nat) : Except Fault (List UInt8) := do
  let cap := bodyCap c.maxPack target
  let count := memberCount cap
  let avail ← okOrElse (room cap) s!"a {target} B pack has no room for {count} members"
  let ms ← members c draw avail count
  let body ← orFail ((c.build ms).mapError fun e => s!"building a {target} B pack: {e}")
  let state := c.encode c.pack body
  if c.check state then
    return state
  else
    throw (.bail (s!"the pack this fixture built ({state.length} B of state) is not one " ++
      "block.wasm accepts"))

/-- The members drawn for a target are pairwise different. -/
def Different (c : BlockCrate) (draw : Draw) (target : Nat) : Prop :=
  ∀ avail ms, room (bodyCap c.maxPack target) = some avail →
    members c draw avail (memberCount (bodyCap c.maxPack target)) = .ok ms → ms.Nodup

/-! ## The members fill the body -/

theorem memberCount_pos (cap : Nat) : 0 < memberCount cap :=
  Nat.lt_of_lt_of_le Nat.one_pos (le_max_right ..)

/-- There is room from eleven bytes on: the framing of one empty member. -/
theorem room_isSome_iff (cap : Nat) : (room cap).isSome ↔ header + perMember ≤ cap := by
  unfold room
  rw [Option.isSome_ite]
  simp only [memberCount, header, perMember, memberBytes]
  omega

/-- The length of a member, without the checks. -/
def len (avail count i : Nat) : Nat :=
  if i + 1 = count then avail - avail / count * (count - 1) else avail / count

theorem share_le (avail count : Nat) : avail / count * (count - 1) ≤ avail :=
  (Nat.mul_le_mul_left _ (Nat.sub_le count 1)).trans (Nat.div_mul_le_self avail count)

/-- **No subtraction of the lengths goes below zero.** -/
theorem memberLen_ok {avail count : Nat} (hc : 0 < count) (i : Nat) :
    memberLen avail count i = .ok (len avail count i) := by
  unfold memberLen len
  split
  · rw [checkedSub_of_le hc]
    exact checkedSub_of_le (share_le avail count)
  · rfl

theorem memberLens_eq {avail count : Nat} (hc : 0 < count) :
    memberLens avail count = .ok ((List.range count).map (len avail count)) :=
  mapM_of_ok fun i _ => memberLen_ok hc i

/-- **The lengths are all there is room for.** -/
theorem sum_len {avail count : Nat} (hc : 0 < count) :
    ((List.range count).map (len avail count)).sum = avail := by
  obtain ⟨n, rfl⟩ : ∃ n, count = n + 1 := ⟨count - 1, by omega⟩
  have hshares : (List.range n).map (len avail (n + 1)) =
      (List.range n).map fun _ => avail / (n + 1) := by
    refine List.map_congr_left fun i hi => ?_
    have := List.mem_range.mp hi
    exact if_neg (by omega)
  have hlast : len avail (n + 1) n = avail - avail / (n + 1) * n := if_pos rfl
  have hle : avail / (n + 1) * n ≤ avail := share_le avail (n + 1)
  rw [List.range_succ, List.map_append, List.sum_append, hshares, List.map_singleton,
    List.sum_singleton, hlast, List.map_const', List.length_range, List.sum_replicate_nat,
    Nat.mul_comm n]
  omega

/-- Framed, the lengths fill the body. -/
theorem sum_framed {cap avail : Nat} (h : room cap = some avail) {lens : List Nat}
    (hl : lens = (List.range (memberCount cap)).map (len avail (memberCount cap))) :
    header + (lens.map fun n => perMember + n).sum = cap := by
  have hsum : lens.sum = avail := hl ▸ sum_len (memberCount_pos cap)
  have hlength : lens.length = memberCount cap := by rw [hl, List.length_map, List.length_range]
  have hframes : (lens.map fun n => perMember + n).sum = lens.length * perMember + lens.sum := by
    rw [List.sum_map_add, List.map_const', List.sum_replicate_nat, List.map_id']
  unfold room at h
  split at h
  · rename_i hle
    rw [hframes, hlength, hsum, ← Option.some.inj h]
    omega
  · cases h

/-! ## The size of the pack -/

variable {c : BlockCrate} {draw : Draw} {target avail count : Nat} {ms : List Member}

theorem members_lens (hc : 0 < count) (h : members c draw avail count = .ok ms) :
    ms.map (fun m => m.2.length) = (List.range count).map (len avail count) := by
  refine map_of_mapM_ok (fun i _ m hm => ?_) h
  rw [memberLen_ok hc] at hm
  change (orFail (draw i (len avail count i)) >>= _) = _ at hm
  rw [bind_eq_ok] at hm
  obtain ⟨b, -, hm⟩ := hm
  cases hm
  exact b.property

theorem okOrElse_ne_panic {α : Type} (r : Option α) (e : String) :
    okOrElse r e ≠ .error .panic := by
  intro h
  cases r <;> cases h

theorem members_ne_panic (hc : 0 < count) : members c draw avail count ≠ .error .panic := by
  intro h
  obtain ⟨i, -, hi⟩ := of_mapM_error h
  rw [memberLen_ok hc] at hi
  obtain hi | ⟨b, -, hi⟩ := bind_eq_error.mp (show orFail (draw i _) >>= _ = _ from hi)
  · exact orFail_ne_panic _ hi
  · cases hi

theorem makePack_ne_panic (c : BlockCrate) (draw : Draw) (target : Nat) :
    makePack c draw target ≠ .error .panic := by
  intro h
  rw [makePack, bind_eq_error] at h
  obtain h | ⟨avail, -, h⟩ := h
  · exact okOrElse_ne_panic _ _ h
  rw [bind_eq_error] at h
  obtain h | ⟨ms, -, h⟩ := h
  · exact members_ne_panic (memberCount_pos _) h
  rw [bind_eq_error] at h
  obtain h | ⟨body, -, h⟩ := h
  · exact orFail_ne_panic _ h
  dsimp only at h
  split at h <;> cases h

/-- **What is built** is the members, framed, in the builder's order. -/
theorem of_makePack {state : List UInt8} (h : makePack c draw target = .ok state) :
    ∃ avail ms body, room (bodyCap c.maxPack target) = some avail ∧
      members c draw avail (memberCount (bodyCap c.maxPack target)) = .ok ms ∧
      c.build ms = .ok body ∧ state = c.encode c.pack body := by
  simp only [makePack, bind_eq_ok] at h
  obtain ⟨avail, hr, ms, hms, body, hb, h⟩ := h
  refine ⟨avail, ms, body, ?_, hms, ?_, ?_⟩
  · cases hroom : room (bodyCap c.maxPack target) with
    | none => rw [hroom] at hr; cases hr
    | some a => rw [hroom] at hr; cases hr; rfl
  · cases hbuild : c.build ms with
    | error e => rw [hbuild] at hb; cases hb
    | ok b => rw [hbuild] at hb; cases hb; rfl
  · split at h <;> cases h
    rfl

theorem length_of_makePack {state : List UInt8} (hd : Different c draw target)
    (h : makePack c draw target = .ok state) : state.length = bodyCap c.maxPack target + 1 := by
  obtain ⟨avail, ms, body, hr, hms, hb, rfl⟩ := of_makePack h
  obtain ⟨ms', hp, rfl⟩ := c.build_ok ms body (hd avail ms hr hms) hb
  have hfill := sum_framed hr (members_lens (memberCount_pos _) hms)
  rw [List.map_map] at hfill
  have hsum := (hp.map fun m : Member => 5 + m.2.length).sum_eq
  have hfields : (ms.map fun m : Member => 5 + m.2.length) =
      ms.map ((fun n => perMember + n) ∘ fun m : Member => m.2.length) := rfl
  rw [c.encode_length, length_wire, c.magic_length, hsum, hfields]
  exact congrArg (· + 1) hfill

/-- A body that has room for a member is one byte short of the target, or as long as a body
may be. -/
theorem bodyCap_succ {maxPack avail : Nat} (h : room (bodyCap maxPack target) = some avail) :
    bodyCap maxPack target + 1 = min target (maxPack + 1) := by
  have hroom : header + perMember ≤ bodyCap maxPack target :=
    (room_isSome_iff _).mp (by rw [h]; rfl)
  unfold bodyCap header perMember at *
  omega

/-- **A pack has the size asked for**, or the largest one there is where more is asked for:
the framed members fill the body, and no step goes below zero. -/
theorem makePack_size (c : BlockCrate) (draw : Draw) (target : Nat) :
    makePack c draw target ≠ .error .panic ∧
      (∀ avail, room (bodyCap c.maxPack target) = some avail →
        ∃ lens, memberLens avail (memberCount (bodyCap c.maxPack target)) = .ok lens ∧
          lens.length = memberCount (bodyCap c.maxPack target) ∧
          header + (lens.map fun n => perMember + n).sum = bodyCap c.maxPack target) ∧
      ∀ state, Different c draw target → makePack c draw target = .ok state →
        state.length = min target (c.maxPack + 1) := by
  refine ⟨makePack_ne_panic c draw target, ?_, ?_⟩
  · intro avail hr
    refine ⟨_, memberLens_eq (memberCount_pos _), ?_, sum_framed hr rfl⟩
    rw [List.length_map, List.length_range]
  · intro state hd h
    obtain ⟨avail, ms, body, hr, -⟩ := of_makePack h
    rw [length_of_makePack hd h, bodyCap_succ hr]

/-! ## A pack above the bound -/

/-- A block crate whose ids can be read. -/
def readableCrate : BlockCrate where
  raw := 0
  pack := 1
  maxPack := 1048576
  magic := pk01
  magic_length := rfl
  encode kind body := kind :: body
  encode_length _ _ := rfl
  build ms := .ok (wire pk01 (ordered readableId ms.dedup))
  build_ok ms body hd h := by
    cases h
    exact ⟨_, ordered_perm readableId _, by rw [hd.dedup]⟩
  check _ := true

/-- Every member is filled with its number. -/
def numbered : Draw := fun i n => .ok ⟨List.replicate n (UInt8.ofNat i), List.length_replicate⟩

theorem members_numbered (hc : 0 < count) : members c numbered avail count =
    .ok ((List.range count).map fun i =>
      (c.raw, List.replicate (len avail count i) (UInt8.ofNat i))) := by
  refine mapM_of_ok fun i _ => ?_
  rw [memberLen_ok hc]
  rfl

/-- Where there is more than one member, none is empty. -/
theorem memberCount_le_room {cap : Nat} (h : room cap = some avail) :
    memberCount cap = 1 ∨ memberCount cap ≤ avail := by
  unfold room at h
  split at h
  · have := Option.some.inj h
    simp only [memberCount, header, perMember, memberBytes] at *
    omega
  · cases h

theorem one_le_len (hc : 0 < count) (h : count ≤ avail) (i : Nat) : 1 ≤ len avail count i := by
  have hshare : 1 ≤ avail / count := (Nat.one_le_div_iff hc).mpr h
  have hall : avail / count * count ≤ avail := Nat.div_mul_le_self avail count
  unfold len
  split
  · rw [Nat.mul_sub_one]
    omega
  · exact hshare

theorem different_numbered (hcount : memberCount (bodyCap c.maxPack target) ≤ 256) :
    Different c numbered target := by
  intro avail ms hr hms
  have hpos := memberCount_pos (bodyCap c.maxPack target)
  have hroom := memberCount_le_room hr
  generalize memberCount (bodyCap c.maxPack target) = count at *
  rw [members_numbered hpos] at hms
  cases hms
  obtain rfl | hle := hroom
  · exact List.nodup_singleton _
  refine List.nodup_range.map_on fun i hi j hj h => ?_
  have hi := List.mem_range.mp hi
  have hj := List.mem_range.mp hj
  have hhead := congrArg List.head? (Prod.mk.inj h).2
  have hlen : ∀ i, len avail count i ≠ 0 := fun i => Nat.pos_iff_ne_zero.mp (one_le_len hpos hle i)
  rw [List.head?_replicate, List.head?_replicate, if_neg (hlen i), if_neg (hlen j)] at hhead
  have hnat := congrArg UInt8.toNat (Option.some.inj hhead)
  rw [UInt8.toNat_ofNat', UInt8.toNat_ofNat'] at hnat
  omega

theorem makePack_readable (target : Nat) (h : header + perMember ≤ bodyCap 1048576 target) :
    ∃ state, makePack readableCrate numbered target = .ok state := by
  obtain ⟨avail, hr⟩ := Option.isSome_iff_exists.mp ((room_isSome_iff _).mpr h)
  rw [makePack, show room (bodyCap readableCrate.maxPack target) = some avail from hr]
  simp only [bind_eq_ok, members_numbered (memberCount_pos _)]
  exact ⟨_, avail, rfl, _, rfl, _, rfl, rfl⟩

/-- Two mebibytes are asked for, one mebibyte and a byte come back. -/
theorem makePack_two_mebibytes : Different readableCrate numbered 2097152 ∧
    ∃ state, makePack readableCrate numbered 2097152 = .ok state ∧ state.length = 1048577 := by
  have hd : Different readableCrate numbered 2097152 := different_numbered (by decide)
  obtain ⟨state, h⟩ := makePack_readable 2097152 (by decide)
  refine ⟨hd, state, h, ?_⟩
  rw [length_of_makePack hd h]
  rfl

theorem makePack_size_page :
    ∃ state, makePack readableCrate numbered 4096 = .ok state ∧ state.length = 4096 := by
  obtain ⟨state, h⟩ := makePack_readable 4096 (by decide)
  have hd : Different readableCrate numbered 4096 := different_numbered (by decide)
  exact ⟨state, h, (makePack_size readableCrate numbered 4096).2.2 state hd h⟩

end FreenetHarness.Kill9
