import FreenetHarness.Lib.Programs
import FreenetHarness.Upgrade.Register

/-! # One epoch change, end to end

The blocks' half of a run and the Register half. `cycle_ok_iff`: against a node whose block code
keeps what hashes to its params and whose register code joins, a run fails where there is no
upgrade to demonstrate, and nowhere else. -/
namespace FreenetHarness.Upgrade
open FreenetHarness.Lib.Programs FreenetHarness.Lib.Run

variable {Key : Type} [DecidableEq Key] (c : Crates Key)

/-- A byte string. -/
def text (s : String) : Bytes := s.toUTF8.toList

/-! ## The Register half -/

section Register

variable (reg : Bytes → Merge) (w : World) (u : Epochs)

def putting (e : Side) (state : Bytes) : Program (Store Key) String Bool := do
  let store ← get
  modify fun _ => (putAt c reg w u e state store).2
  return (putAt c reg w u e state store).1

def getting (e : Side) : Program (Store Key) String (Option Bytes) := do
  let store ← get
  return store ((u.at e).keyAt c w.params)

/-- What is read under A, put under B. -/
def carrying : Program (Store Key) String Bool := do
  match ← getting c w u .a with
  | some bytes => putting c reg w u .b bytes
  | none => return false

/-- The two controls: a tampered record of the highest seq so far is refused, and the same one
untampered is accepted. -/
def controls : Program (Store Key) String Bool :=
  let clean9 := w.record 9 (text "nine")
  let forged := tampered clean9
  if clean9.length < 8 then throw "attempt to subtract with overflow"
  else if forged = clean9 then
    throw "the tamper changed nothing — this control would pass against anything"
  else do
    let before ← getting c w u .b
    let tookForged ← putting c reg w u .b forged
    let afterForged ← getting c w u .b
    let tookClean ← putting c reg w u .b clean9
    let afterClean ← getting c w u .b
    return (!tookForged && decide (seqOf w afterForged = seqOf w before)) &&
      (tookClean && decide (seqOf w afterClean = (9 : Nat)))

/-- A signature binds the params, so a record crosses epochs. -/
def registerHalf : Program (Store Key) String Bool := do
  let storedA ← putting c reg w u .a (w.record 3 (text "three"))
  let carried ← carrying c reg w u
  let putA5 ← putting c reg w u .a (w.record 5 (text "five"))
  let fromB ← getting c w u .b
  let fromA ← getting c w u .a
  -- the window closes: a reader with `[B]` alone
  let afterClose ← getting c w u .b
  let healedPut ← carrying c reg w u
  let healed ← getting c w u .b
  let controlled ← controls c reg w u
  return (storedA && carried) &&
    (putA5 && decide (max (seqOf w fromA) (seqOf w fromB) = (5 : Nat))) &&
    decide (seqOf w afterClose = (3 : Nat)) &&
    (healedPut && decide (seqOf w healed = (5 : Nat))) && controlled

end Register

/-! ## The blocks' half -/

/-- A RAW block of these random bytes. -/
def mintBlock (raw : UInt8) (body : Bytes) : Blk :=
  ⟨c.blake3 (c.encode raw body), c.encode raw body⟩

def blocksHalf (u : Epochs) (blocks : List Blk) : Program (Store Key) String (List Bool) := do
  let store ← get
  let n := blocks.length
  let stored := blocks.foldl (putOne c u.a) (0, store)
  let p ← attempt (migration c u stored.2 blocks)
  let q := blocks.foldl (again c u p.store) {}
  modify fun _ => p.store
  return [stored.1 == n, p.migrated == n, q.found2 == n && q.puts2 == 0 && q.gets2 == n,
    foundAlone c u.b p.store blocks == n]

/-- The same claimed id, and one byte of the body flipped. -/
def wrong (state : Bytes) : Bytes := state.modify 1 (· ^^^ 0xff)

/-- The codes of a run. -/
structure Loaded where
  blockA : Epoch
  blockB : Epoch
  regA : Epoch
  regB : Epoch

/-- The blocks of a run, of the bytes it draws. -/
def blocksOf (raw : UInt8) (n : Nat) (draw : Nat → Bytes) : List Blk :=
  (List.range n).map fun i => mintBlock c raw (draw (i + 1))

/-- Two sha256 that differ are of codes that differ. -/
def epochsOf (sha : Bytes → List Char) (a b : Epoch) : Except String Epochs :=
  if h : sha a.code = sha b.code then
    throw s!"the same code ({String.ofList ((sha a.code).take 16)}) — there is no upgrade to demonstrate"
  else return ⟨a, b, fun heq => h (congrArg sha heq)⟩

def run (sha : Bytes → List Char) (raw : UInt8) (reg : Bytes → Merge) (n : Nat) (draw : Nat → Bytes)
    (loads : Except String Loaded) (connected : Except String Unit) (world : Except String World) :
    Program (Store Key) String Unit := do
  let l ← attempt loads
  let blocks ← attempt ((epochsOf sha l.blockA l.blockB).mapError ("block A and B are " ++ ·))
  let registers ← attempt ((epochsOf sha l.regA l.regB).mapError ("register A and B are " ++ ·))
  attempt connected
  let probe := mintBlock c raw (draw 0)
  let moved := decide (blocks.a.keyAt c probe.id ≠ blocks.b.keyAt c probe.id)
  let oks ← blocksHalf c blocks (blocksOf c raw n draw)
  let liar := mintBlock c raw (draw (n + 1))
  if liar.state.length < 2 then throw "index out of bounds: the len is 1 but the index is 1"
  else do
    let store ← get
    modify fun _ => (put c blocks.b liar.id (wrong liar.state) store).2
    let refused := !(put c blocks.b liar.id (wrong liar.state) store).1
    let w ← attempt world
    let half ← registerHalf c reg w registers
    if moved && oks.all id && refused && half then pure () else throw "upgrade cycle: FAIL"

/-! ## The Register half, against a code that joins -/

section Half

variable {c} {reg : Bytes → Merge} {w : World} {u : Epochs} {v : Nat → Bytes} {store : Store Key}
  {f : Side → WithBot Nat}

omit [DecidableEq Key] in
theorem exec_getting (e : Side) (store : Store Key) :
    exec (getting c w u e) store = (.ok (store ((u.at e).keyAt c w.params)), store) := rfl

/-- A tampered record is no record. -/
theorem Joins.tampered_ne {m : Merge} (h : Joins w m) (seq seq' : Nat) (v v' : Bytes) :
    tampered (w.record seq v) ≠ w.record seq' v' := by
  intro heq
  have hrefuse := h.refuseFirst seq v
  rw [heq, h.create] at hrefuse
  cases hrefuse

variable (hj : ∀ e, Joins w (reg (u.at e).code))

include hj

/-- A record of no lower seq is kept. -/
theorem Stands.keeps (hs : Stands c w u v store f) (e : Side) (seq : Nat)
    (hle : f e ≤ WithBot.some seq) :
    ∃ s', exec (putting c reg w u e (w.record seq (v seq))) store = (.ok true, s') ∧
      Stands c w u v s' (Function.update f e (WithBot.some seq)) := by
  have hjoin : reg (u.at e).code w.params (heldOf w v (f e)) (w.record seq (v seq)) =
      heldOf w v (WithBot.some seq) := by
    rw [(hj e).join, sup_of_le_right hle]
  have hkept : (putAt c reg w u e (w.record seq (v seq)) store).1 = true := by
    show (Function.update store ((u.at e).keyAt c w.params) _ _ == some _) = true
    rw [Function.update_self, hs e, hjoin]
    exact beq_self_eq_true _
  refine ⟨_, ?_, hs.put hjoin⟩
  rw [← hkept]
  rfl

/-- A tampered one is not. -/
theorem Stands.refuses (hs : Stands c w u v store f) (e : Side) (seq : Nat) :
    ∃ s', exec (putting c reg w u e (tampered (w.record seq (v seq)))) store =
      (.ok false, s') ∧ Stands c w u v s' f := by
  have hrefused := (hj e).refused (v := v) (f e) seq
  have hkept : (putAt c reg w u e (tampered (w.record seq (v seq))) store).1 = false := by
    show (Function.update store ((u.at e).keyAt c w.params) _ _ == some _) = false
    rw [Function.update_self, hs e, hrefused]
    cases hf : f e with
    | bot => rfl
    | coe held => exact beq_false_of_ne fun heq => (hj e).tampered_ne _ _ _ _ (Option.some.inj heq).symm
  refine ⟨_, ?_, Function.update_eq_self e f ▸ hs.put hrefused⟩
  rw [← hkept]
  rfl

theorem Stands.carries (hs : Stands c w u v store f) (seq : Nat)
    (ha : f .a = WithBot.some seq) (hle : f .b ≤ WithBot.some seq) :
    ∃ s', exec (carrying c reg w u) store = (.ok true, s') ∧
      Stands c w u v s' (Function.update f .b (WithBot.some seq)) := by
  obtain ⟨s', hput, hs'⟩ := hs.keeps hj .b seq hle
  refine ⟨s', ?_, hs'⟩
  have hread : store ((u.at .a).keyAt c w.params) = some (w.record seq (v seq)) := by
    rw [hs .a, ha]
    rfl
  unfold carrying
  rw [exec_bind, exec_getting, hread]
  exact hput

omit [DecidableEq Key] in
/-- What a reader of one side gets. -/
theorem Stands.read (hs : Stands c w u v store f) (e : Side) :
    seqOf w (store ((u.at e).keyAt c w.params)) = f e := hs.alone hj e

/-- What is published, by its seq. -/
def spoken : Nat → Bytes
  | 3 => text "three"
  | 5 => text "five"
  | 9 => text "nine"
  | _ => []

theorem Stands.controlled (hs : Stands c w u spoken store f) (hle : f .b ≤ WithBot.some 9)
    (hlen : 8 ≤ (w.record 9 (text "nine")).length) :
    ∃ s', exec (controls c reg w u) store = (.ok true, s') := by
  obtain ⟨s₁, hrefuse, hs₁⟩ := hs.refuses hj .b 9
  obtain ⟨s₂, hput, hs₂⟩ := hs₁.keeps hj .b 9 hle
  refine ⟨s₂, ?_⟩
  unfold controls
  dsimp only
  rw [if_neg (Nat.not_lt.mpr hlen), if_neg ((hj .b).tampered_ne 9 9 _ _)]
  refine exec_bind_ok.mpr ⟨_, _, exec_getting .b store, ?_⟩
  refine exec_bind_ok.mpr ⟨_, _, hrefuse, ?_⟩
  refine exec_bind_ok.mpr ⟨_, _, exec_getting .b s₁, ?_⟩
  refine exec_bind_ok.mpr ⟨_, _, hput, ?_⟩
  refine exec_bind_ok.mpr ⟨_, _, exec_getting .b s₂, ?_⟩
  rw [hs.read hj, hs₁.read hj, hs₂.read hj, Function.update_self]
  simp
  rfl

/-- **The Register half passes.** -/
theorem Stands.half_passes (hs : Stands c w u spoken store fun _ => ⊥)
    (hlen : 8 ≤ (w.record 9 (text "nine")).length) :
    ∃ s', exec (registerHalf c reg w u) store = (.ok true, s') := by
  have hmono {m n : Nat} (hle : m ≤ n) : WithBot.some m ≤ WithBot.some n := WithBot.coe_le_coe.mpr hle
  obtain ⟨s₁, h₁, hs₁⟩ := hs.keeps hj .a 3 bot_le
  obtain ⟨s₂, h₂, hs₂⟩ := hs₁.carries hj 3 rfl bot_le
  obtain ⟨s₃, h₃, hs₃⟩ := hs₂.keeps hj .a 5 (hmono (by decide))
  obtain ⟨s₄, h₄, hs₄⟩ := hs₃.carries hj 5 rfl (hmono (by decide))
  obtain ⟨s₅, h₅⟩ := hs₄.controlled hj (hmono (by decide)) hlen
  refine ⟨s₅, ?_⟩
  unfold registerHalf
  refine exec_bind_ok.mpr ⟨_, _, h₁, ?_⟩
  refine exec_bind_ok.mpr ⟨_, _, h₂, ?_⟩
  refine exec_bind_ok.mpr ⟨_, _, h₃, ?_⟩
  refine exec_bind_ok.mpr ⟨_, _, exec_getting .b s₃, ?_⟩
  refine exec_bind_ok.mpr ⟨_, _, exec_getting .a s₃, ?_⟩
  refine exec_bind_ok.mpr ⟨_, _, exec_getting .b s₃, ?_⟩
  refine exec_bind_ok.mpr ⟨_, _, h₄, ?_⟩
  refine exec_bind_ok.mpr ⟨_, _, exec_getting .b s₄, ?_⟩
  refine exec_bind_ok.mpr ⟨_, _, h₅, ?_⟩
  rw [hs₃.read hj, hs₃.read hj, hs₄.read hj]
  simp
  rfl

end Half

/-! ## The blocks' half -/

section Blocks

variable {c} {u : Epochs} {store : Store Key} {blocks : List Blk}

/-- Its verdicts, and what a migration leaves. -/
theorem exec_blocksHalf {p : Pass Key}
    (hp : migration c u (blocks.foldl (putOne c u.a) (0, store)).2 blocks = .ok p) :
    exec (blocksHalf c u blocks) store = (verdicts c u store blocks, p.store) := by
  unfold blocksHalf verdicts
  rw [exec_bind, exec_get]
  dsimp only
  rw [hp, attempt_ok_bind]
  rfl

/-- What the blocks' half leaves of the rest of the node. -/
structure Left (c : Crates Key) (u : Epochs) (store store' : Store Key) (blocks : List Blk) :
    Prop where
  frame : ∀ k, (∀ b ∈ blocks, k ≠ u.a.keyAt c b.id ∧ k ≠ u.b.keyAt c b.id) → store' k = store k
  certified : Certified c store u.b → Certified c store' u.b

/-- **The blocks' half passes.** -/
theorem blocksHalf_ok (hd : (blocks.map Blk.id).Nodup) (hash : ∀ b ∈ blocks, c.blake3 b.state = b.id)
    (fresh : ∀ b ∈ blocks, store (u.b.keyAt c b.id) = none) (h : Certified c store u.a) :
    ∃ store', exec (blocksHalf c u blocks) store = (.ok [true, true, true, true], store') ∧
      Left c u store store' blocks := by
  obtain ⟨-, hs⟩ := putOne_foldl (e := u.a) (s := (0, store)) hd hash
  obtain ⟨p, hp, hpass⟩ := passed (p := { store := (blocks.foldl (putOne c u.a) (0, store)).2 }) hd
    (hs.certified hash h)
  refine ⟨p.store, ?_, fun k hk => ?_, fun hcert params state hstate => ?_⟩
  · rw [exec_blocksHalf hp, verdicts_pass hd hash fresh h]
  · exact (hpass.frame k fun b hb => (hk b hb).2).trans (hs.frame k fun b hb => (hk b hb).1)
  · by_cases hb : ∃ b ∈ blocks, params = b.id
    · obtain ⟨b, hb, rfl⟩ := hb
      have hread := hpass.found b hb
      rw [(hs.onlyA fresh hb).2, hstate] at hread
      obtain rfl := Option.some.inj hread
      exact hash b hb
    · push Not at hb
      have hkept : p.store (u.b.keyAt c params) = store (u.b.keyAt c params) :=
        (hpass.frame _ fun b hmem heq => hb b hmem (keyAt_inj heq)).trans
          (hs.frame _ fun b _ heq => keyA_ne_keyB b.id params heq.symm)
      exact hcert params state (hkept ▸ hstate)

/-- A state that does not hash to its params is not kept. -/
theorem put_of_ne_hash {e : Epoch} {params state : Bytes} (hcert : Certified c store e)
    (h : c.blake3 state ≠ params) : put c e params state store = (false, store) := by
  have haccept : accept c e params state store = store := if_neg h
  unfold put
  rw [haccept]
  refine Prod.ext (beq_false_of_ne fun hheld => h (hcert params state hheld)) rfl

end Blocks

/-! ## The run -/

/-- What a run finds: codes that certify what the node holds under them, and nothing held under
the keys of the blocks and of the register that are minted for it. -/
structure New (c : Crates Key) (raw : UInt8) (n : Nat) (draw : Nat → Bytes) (l : Loaded) (w : World)
    (store : Store Key) : Prop where
  ids : ((blocksOf c raw n draw).map Blk.id).Nodup
  under : Certified c store l.blockA ∧ Certified c store l.blockB
  blocks : ∀ b ∈ blocksOf c raw n draw, store (l.blockB.keyAt c b.id) = none
  register : store (l.regA.keyAt c w.params) = none ∧ store (l.regB.keyAt c w.params) = none
  /-- The register's params are not the id of a block. -/
  apart : ∀ b ∈ blocksOf c raw n draw, b.id ≠ w.params
  /-- The byte that is flipped changes the hash. -/
  liar : c.blake3 (wrong (c.encode raw (draw (n + 1)))) ≠ c.blake3 (c.encode raw (draw (n + 1)))

section Main

variable {c} {sha : Bytes → List Char} {raw : UInt8} {reg : Bytes → Merge} {n : Nat}
  {draw : Nat → Bytes} {l : Loaded} {connected : Except String Unit} {w : World} {store : Store Key}

theorem epochsOf_ok {a b : Epoch} {u : Epochs} {f : String → String}
    (h : (epochsOf sha a b).mapError f = .ok u) : sha a.code ≠ sha b.code ∧ u.a = a ∧ u.b = b := by
  unfold epochsOf at h
  split at h
  · cases h
  · rename_i hne
    cases h
    exact ⟨hne, rfl, rfl⟩

theorem exists_epochsOf {a b : Epoch} (h : sha a.code ≠ sha b.code) (f : String → String) :
    ∃ u : Epochs, (epochsOf sha a b).mapError f = .ok u ∧ u.a = a ∧ u.b = b := by
  unfold epochsOf
  rw [dif_neg h]
  exact ⟨_, rfl, rfl, rfl⟩

omit [DecidableEq Key] in
theorem blocksOf_hash {b : Blk} (hb : b ∈ blocksOf c raw n draw) : c.blake3 b.state = b.id := by
  obtain ⟨i, -, rfl⟩ := List.mem_map.mp hb
  rfl

/-- What a run that passes has gone through. -/
theorem of_cycle_ok {loads : Except String Loaded} {world : Except String World}
    (h : (exec (run c sha raw reg n draw loads connected world) store).1 = .ok ()) :
    ∃ l, loads = .ok l ∧ sha l.blockA.code ≠ sha l.blockB.code ∧
      sha l.regA.code ≠ sha l.regB.code ∧ connected = .ok () ∧ draw (n + 1) ≠ [] := by
  obtain ⟨s', g⟩ : ∃ s', exec (run c sha raw reg n draw loads connected world) store = (.ok (), s') :=
    ⟨_, Prod.ext h rfl⟩
  obtain ⟨l, _, hl, g⟩ := exec_bind_ok.mp g
  obtain ⟨u, _, hu, g⟩ := exec_bind_ok.mp g
  obtain ⟨v, _, hv, g⟩ := exec_bind_ok.mp g
  obtain ⟨_, _, hc, g⟩ := exec_bind_ok.mp g
  obtain ⟨oks, _, -, g⟩ := exec_bind_ok.mp g
  rw [exec_attempt, Prod.mk.injEq] at hl hu hv hc
  refine ⟨l, hl.1, (epochsOf_ok hu.1).1, (epochsOf_ok hv.1).1, hc.1, fun hempty => ?_⟩
  have hshort : (mintBlock c raw (draw (n + 1))).state.length < 2 := by
    rw [mintBlock, c.encode_length, hempty]
    exact Nat.one_lt_two
  rw [if_pos hshort] at g
  cases g

/-- **When the cycle passes**: both pairs of codes differ, the node is there, and a block has a
byte to flip. -/
theorem cycle_ok_iff (hnew : New c raw n draw l w store) (hA : Joins w (reg l.regA.code))
    (hB : Joins w (reg l.regB.code)) (hlen : 8 ≤ (w.record 9 (text "nine")).length) :
    (exec (run c sha raw reg n draw (.ok l) connected (.ok w)) store).1 = .ok () ↔
      sha l.blockA.code ≠ sha l.blockB.code ∧ sha l.regA.code ≠ sha l.regB.code ∧
        connected = .ok () ∧ draw (n + 1) ≠ [] := by
  constructor
  · intro h
    obtain ⟨l', hl, hrest⟩ := of_cycle_ok h
    obtain rfl := Except.ok.inj hl
    exact hrest
  · intro h
    obtain ⟨hblock, hreg, rfl, hbyte⟩ := h
    obtain ⟨u, hu, hua, hub⟩ := exists_epochsOf hblock ("block A and B are " ++ ·)
    obtain ⟨v, hv, hva, hvb⟩ := exists_epochsOf hreg ("register A and B are " ++ ·)
    obtain ⟨s₁, h₁, hleft⟩ := blocksHalf_ok (u := u) hnew.ids (fun b hb => blocksOf_hash hb)
      (hub ▸ hnew.blocks) (hua ▸ hnew.under.1)
    have hliar : put c u.b (mintBlock c raw (draw (n + 1))).id
        (wrong (mintBlock c raw (draw (n + 1))).state) s₁ = (false, s₁) :=
      put_of_ne_hash (hleft.certified (hub ▸ hnew.under.2)) hnew.liar
    have hkept : ∀ k : Side, s₁ ((v.at k).keyAt c w.params) = none := fun k => by
      have hother : ∀ e : Epoch, s₁ (e.keyAt c w.params) = store (e.keyAt c w.params) := fun e =>
        hleft.frame _ fun b hb => ⟨fun heq => hnew.apart b hb (c.key_injective heq).2.symm,
          fun heq => hnew.apart b hb (c.key_injective heq).2.symm⟩
      cases k with
      | a => exact (hother v.a).trans (hva ▸ hnew.register.1)
      | b => exact (hother v.b).trans (hvb ▸ hnew.register.2)
    have hj : ∀ k : Side, Joins w (reg (v.at k).code) := fun k => by
      cases k with
      | a =>
        show Joins w (reg v.a.code)
        rwa [hva]
      | b =>
        show Joins w (reg v.b.code)
        rwa [hvb]
    obtain ⟨s₂, h₂⟩ := Stands.half_passes (c := c) (u := v) hj hkept hlen
    have hmoved : u.a.keyAt c (mintBlock c raw (draw 0)).id ≠
        u.b.keyAt c (mintBlock c raw (draw 0)).id := fun heq => keyA_ne_keyB _ _ heq
    have hlong : ¬ (mintBlock c raw (draw (n + 1))).state.length < 2 := by
      have hpos := List.length_pos_iff.mpr hbyte
      rw [mintBlock, c.encode_length]
      omega
    unfold run
    rw [attempt_ok_bind, hu, attempt_ok_bind, hv, attempt_ok_bind, attempt_ok_bind]
    dsimp only
    rw [exec_bind, h₁]
    dsimp only
    rw [if_neg hlong, exec_bind, exec_get]
    dsimp only
    rw [exec_bind, exec_modify]
    dsimp only
    rw [hliar, attempt_ok_bind, exec_bind, h₂]
    simp [hmoved]
    rfl

end Main

/-! ## One run -/

/-- BLAKE3 of the blocks of this run. -/
def shortHash : Bytes → Bytes
  | [0, 1] => [0x7b, 0x70, 0x15, 0xbb, 0x92, 0xcf, 0x0b, 0x31, 0x80, 0x37, 0x70, 0x2a, 0x6c, 0xdd,
      0x81, 0xde, 0xe4, 0x12, 0x24, 0xf7, 0x34, 0x68, 0x4c, 0x2c, 0x12, 0x2c, 0xd6, 0x35,
      0x9c, 0xb1, 0xee, 0x63]
  | [0, 2] => [0x00, 0x13, 0xf4, 0xc8, 0x4c, 0x09, 0xed, 0x4f, 0x90, 0x6f, 0x56, 0x1e, 0x31, 0xfb,
      0x6c, 0xb5, 0x33, 0x61, 0x07, 0xf6, 0x81, 0x32, 0x06, 0xa1, 0xf8, 0x86, 0x0a, 0xb1,
      0xad, 0x35, 0xf2, 0xb8]
  | [0, 3] => [0xa8, 0x87, 0x40, 0xcd, 0x9f, 0xb4, 0x1a, 0x2c, 0xba, 0x30, 0x2d, 0x89, 0x34, 0xe1,
      0x54, 0xb9, 0xb3, 0x6e, 0x88, 0x57, 0x44, 0xe8, 0xf9, 0xe9, 0x0b, 0x26, 0x95, 0xf8,
      0x7c, 0x88, 0x9b, 0xaa]
  | [0, 252] => [0x96, 0xca, 0x01, 0x8b, 0xea, 0xa1, 0x69, 0x6f, 0x93, 0x8c, 0x0f, 0xf3, 0xfd,
      0xb6, 0xb1, 0xe6, 0xbc, 0xab, 0x30, 0x8b, 0xbf, 0xd5, 0xae, 0xf9, 0xf8, 0x1b,
      0xe6, 0x89, 0x15, 0x97, 0xc9, 0x5a]
  | _ => emptyHash

def shortCrates : Crates (Bytes × Bytes) := { pairs with blake3 := shortHash }

/-- SHA-256 of its codes. -/
def shortSha (code : Bytes) : List Char :=
  if code = [0] then "6e340b9cffb37a989ca544e6bb780a2c78901d3fb33738768511a30617afa01d".toList
  else "4bf5122f344554c53bde2ebb8cd2b7e3d1600ad631c385a5d7cce23c7785459a".toList

def zeroAndOne : Loaded where
  blockA := ⟨[0]⟩
  blockB := ⟨[1]⟩
  regA := ⟨[0]⟩
  regB := ⟨[1]⟩

theorem new_short :
    New shortCrates 0 1 (fun i => [.ofNat (i + 1)]) zeroAndOne ones fun _ => none where
  ids := List.nodup_singleton _
  under := ⟨fun _ _ h => (by cases h), fun _ _ h => (by cases h)⟩
  blocks _ _ := rfl
  register := ⟨rfl, rfl⟩
  apart := by decide
  liar := by decide

theorem cycle_ok_short :
    (exec (run shortCrates shortSha 0 (fun _ => keepOnes) 1 (fun i => [.ofNat (i + 1)])
      (.ok zeroAndOne) (.ok ()) (.ok ones)) fun _ => none).1 = .ok () :=
  (cycle_ok_iff new_short keepOnes_joins keepOnes_joins (by decide)).mpr
    ⟨by decide +kernel, by decide +kernel, rfl, by decide⟩

end FreenetHarness.Upgrade
