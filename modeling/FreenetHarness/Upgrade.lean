import Mathlib.Logic.Function.Basic
import FreenetHarness.Lib.Run

/-! # `upgrade-cycle`: one change of a contract's code

A contract's key is a hash of its code and its params, so a new code moves every
instance; a block's id is a hash of its bytes and does not move. A reader that holds the
table `[B, A]` looks under B, falls back to A, and puts what it found under B.
`migration_spec` says what one pass over the blocks leaves behind and what a second one
costs, `verdicts_pass` when a run ends well. The node answers within its wait, and keeps a
state that hashes to its params. -/
namespace FreenetHarness.Upgrade
open FreenetHarness.Lib.Run

abbrev Bytes := List UInt8

/-- What the run takes from the libraries: the hash, the block crate's encoding, and the key of a
contract of some code and params. -/
structure Crates (Key : Type) where
  blake3 : Bytes → Bytes
  /-- A body of some kind, as a block's state: the kind takes one byte. -/
  encode : UInt8 → Bytes → Bytes
  encode_length : ∀ kind body, (encode kind body).length = body.length + 1
  key : Bytes → Bytes → Key
  key_injective : ∀ {code code' params params' : Bytes},
    key code params = key code' params' → code = code' ∧ params = params'

/-- One epoch's code. -/
structure Epoch where
  code : Bytes
  deriving DecidableEq, Repr

/-- The two epochs of a run, which refuses two of the same code. -/
structure Epochs where
  a : Epoch
  b : Epoch
  changed : a.code ≠ b.code

/-- A block's id, which is the params of its contract, and its bytes. -/
structure Blk where
  id : Bytes
  state : Bytes
  deriving DecidableEq, Repr

inductive Request (Key : Type) where
  | get (key : Key)
  | put (key : Key) (state : Bytes)
  deriving DecidableEq, Repr

/-- What the node holds. -/
abbrev Store (Key : Type) := Key → Option Bytes

variable {Key : Type}

/-- The key this epoch gives these params. -/
def Epoch.keyAt (c : Crates Key) (e : Epoch) (params : Bytes) : Key := c.key e.code params

/-- A pass over the blocks: what the node holds, the requests made of it, and the counters
the report prints. -/
structure Pass (Key : Type) where
  store : Store Key
  log : List (Request Key) := []
  missB : Nat := 0
  hitA : Nat := 0
  migrated : Nat := 0
  gets : Nat := 0
  putsB : Nat := 0

section Passes

variable [DecidableEq Key]

/-- The node keeps exactly the states that hash to their params. -/
def accept (c : Crates Key) (e : Epoch) (params state : Bytes) (store : Store Key) : Store Key :=
  if c.blake3 state = params then Function.update store (e.keyAt c params) (some state) else store

/-- Put, and read back: `true` when the node kept the state. -/
def put (c : Crates Key) (e : Epoch) (params state : Bytes) (store : Store Key) :
    Bool × Store Key :=
  let store := accept c e params state store
  (store (e.keyAt c params) == some state, store)

/-- One block of the migration pass. -/
def migrate (c : Crates Key) (u : Epochs) (p : Pass Key) (b : Blk) : Except String (Pass Key) :=
  let keyB := u.b.keyAt c b.id
  let keyA := u.a.keyAt c b.id
  let p := { p with gets := p.gets + 1, log := p.log ++ [Request.get keyB] }
  if (p.store keyB).isSome then .ok p
  else
    let p := { p with missB := p.missB + 1, gets := p.gets + 1, log := p.log ++ [Request.get keyA] }
    match p.store keyA with
    | none => .ok p
    | some found =>
      let p := { p with hitA := p.hitA + 1 }
      if c.blake3 found ≠ b.id then
        .error "a block read under A does not hash to the id it was asked for"
      else
        let (kept, store) := put c u.b b.id found p.store
        .ok { p with
          store
          putsB := p.putsB + 1
          log := p.log ++ [Request.put keyB found, Request.get keyB]
          migrated := if kept then p.migrated + 1 else p.migrated }

/-- A pass of a reader with the table `[B, A]`. -/
def migration (c : Crates Key) (u : Epochs) (store : Store Key) (blocks : List Blk) :
    Except String (Pass Key) :=
  blocks.foldlM (migrate c u) { store }

/-- One block put under this epoch, and how many were kept so far. -/
def putOne (c : Crates Key) (e : Epoch) (s : Nat × Store Key) (b : Blk) : Nat × Store Key :=
  let (kept, store) := put c e b.id b.state s.2
  (if kept then s.1 + 1 else s.1, store)

end Passes

/-- The blocks that a reader holding one epoch alone finds, with the bytes they were minted
with. -/
def foundAlone (c : Crates Key) (e : Epoch) (store : Store Key) (blocks : List Blk) : Nat :=
  blocks.countP fun b => store (e.keyAt c b.id) == some b.state

/-- The second pass that is measured: it counts the puts it would make, and makes none. -/
structure Again (Key : Type) where
  log : List (Request Key) := []
  gets2 : Nat := 0
  puts2 : Nat := 0
  found2 : Nat := 0
  deriving DecidableEq, Repr

def again (c : Crates Key) (u : Epochs) (store : Store Key) (q : Again Key) (b : Blk) : Again Key :=
  let keyB := u.b.keyAt c b.id
  let keyA := u.a.keyAt c b.id
  let q := { q with gets2 := q.gets2 + 1, log := q.log ++ [Request.get keyB] }
  if (store keyB).isSome then { q with found2 := q.found2 + 1 }
  else
    let q := { q with gets2 := q.gets2 + 1, log := q.log ++ [Request.get keyA] }
    if (store keyA).isSome then { q with puts2 := q.puts2 + 1 } else q

/-- The blocks' half of a run, as its four verdicts: stored under A, migrated, steady, and
found under B alone. -/
def verdicts [DecidableEq Key] (c : Crates Key) (u : Epochs) (store : Store Key)
    (blocks : List Blk) : Except String (List Bool) := do
  let n := blocks.length
  let (storedA, store) := blocks.foldl (putOne c u.a) (0, store)
  let p ← migration c u store blocks
  let q := blocks.foldl (again c u p.store) {}
  return [storedA == n, p.migrated == n, q.found2 == n && q.puts2 == 0 && q.gets2 == n,
    foundAlone c u.b p.store blocks == n]

/-! ## The two epochs -/

section Spec

variable (c : Crates Key) (u : Epochs) (store : Store Key)

/-- What a reader of the table `[B, A]` finds. -/
def readable (id : Bytes) : Option Bytes :=
  (store (u.b.keyAt c id)).or (store (u.a.keyAt c id))

/-- Every state held under this epoch hashes to its params. -/
def Certified (e : Epoch) : Prop :=
  ∀ params state, store (e.keyAt c params) = some state → c.blake3 state = params

/-- What the pass asks for one block. -/
def requests (b : Blk) : List (Request Key) :=
  .get (u.b.keyAt c b.id) ::
    if (store (u.b.keyAt c b.id)).isSome then []
    else .get (u.a.keyAt c b.id) ::
      match store (u.a.keyAt c b.id) with
      | none => []
      | some found => [.put (u.b.keyAt c b.id) found, .get (u.b.keyAt c b.id)]

/-- The block is held under A and not under B. -/
def onlyA (b : Blk) : Bool :=
  (store (u.b.keyAt c b.id)).isNone && (store (u.a.keyAt c b.id)).isSome

end Spec

variable {c : Crates Key} {u : Epochs} {store : Store Key}

theorem keyA_ne_keyB (params params' : Bytes) : u.a.keyAt c params ≠ u.b.keyAt c params' :=
  fun h => u.changed (c.key_injective h).1

theorem keyAt_inj {e : Epoch} {params params' : Bytes}
    (h : e.keyAt c params = e.keyAt c params') : params = params' := (c.key_injective h).2

/-! ## One block -/

/-- A block is asked for as before while nothing held under its two keys changes. -/
theorem asked_congr {store store' : Store Key} {b : Blk}
    (hB : store' (u.b.keyAt c b.id) = store (u.b.keyAt c b.id))
    (hA : store' (u.a.keyAt c b.id) = store (u.a.keyAt c b.id)) :
    readable c u store' b.id = readable c u store b.id ∧
      requests c u store' b = requests c u store b ∧ onlyA c u store' b = onlyA c u store b := by
  refine ⟨?_, ?_, ?_⟩
  · rw [readable, readable, hB, hA]
  · rw [requests, requests, hB, hA]
  · rw [onlyA, onlyA, hB, hA]

section Step

variable [DecidableEq Key]

/-- A state that hashes to its params is kept, and read back. -/
theorem put_of_hash {e : Epoch} {params state : Bytes} (h : c.blake3 state = params)
    (store : Store Key) :
    put c e params state store = (true, Function.update store (e.keyAt c params) (some state)) := by
  simp [put, accept, h]

/-- **Step.** A block of the pass is asked for as `requests` says, and what a reader of the
table finds is what B holds afterwards. -/
theorem migrate_spec {p : Pass Key} {b : Blk} (h : Certified c p.store u.a) :
    ∃ p', migrate c u p b = .ok p' ∧
      p'.store = Function.update p.store (u.b.keyAt c b.id) (readable c u p.store b.id) ∧
      p'.log = p.log ++ requests c u p.store b ∧
      p'.putsB = p.putsB + (if onlyA c u p.store b then 1 else 0) ∧
      p'.migrated = p.migrated + if onlyA c u p.store b then 1 else 0 := by
  unfold migrate readable requests onlyA
  dsimp only
  cases hB : p.store (u.b.keyAt c b.id) with
  | some s =>
    refine ⟨_, rfl, ?_, rfl, rfl, rfl⟩
    show p.store = _
    rw [Option.some_or, ← hB, Function.update_eq_self]
  | none =>
    cases hA : p.store (u.a.keyAt c b.id) with
    | none =>
      refine ⟨_, rfl, ?_, by simp, rfl, rfl⟩
      show p.store = _
      rw [Option.none_or, ← hB, Function.update_eq_self]
    | some found =>
      have hhash := h b.id found hA
      have hkept := put_of_hash (e := u.b) hhash p.store
      simp [hhash, hkept]

/-! ## A pass -/

/-- What a pass leaves behind, and what it asked for. -/
structure Passed (c : Crates Key) (u : Epochs) (p p' : Pass Key) (blocks : List Blk) : Prop where
  frame : ∀ k, (∀ b ∈ blocks, k ≠ u.b.keyAt c b.id) → p'.store k = p.store k
  found : ∀ b ∈ blocks, p'.store (u.b.keyAt c b.id) = readable c u p.store b.id
  log : p'.log = p.log ++ blocks.flatMap (requests c u p.store)
  putsB : p'.putsB = p.putsB + blocks.countP (onlyA c u p.store)
  migrated : p'.migrated = p.migrated + blocks.countP (onlyA c u p.store)

/-- **A pass over blocks with distinct ids.** -/
theorem passed {p : Pass Key} {blocks : List Blk} (hd : (blocks.map Blk.id).Nodup)
    (h : Certified c p.store u.a) :
    ∃ p', blocks.foldlM (migrate c u) p = .ok p' ∧ Passed c u p p' blocks := by
  induction blocks generalizing p with
  | nil => exact ⟨p, rfl, fun _ _ => rfl, by simp, by simp, rfl, rfl⟩
  | cons b blocks ih =>
    obtain ⟨p₁, hp₁, hstore, hlog, hputs, hmig⟩ := migrate_spec (c := c) (u := u) (b := b) h
    rw [List.map_cons, List.nodup_cons] at hd
    obtain ⟨hb, hd⟩ := hd
    have hother : ∀ k, k ≠ u.b.keyAt c b.id → p₁.store k = p.store k := by
      intro k hk
      rw [hstore, Function.update_of_ne hk]
    have hA : ∀ params, p₁.store (u.a.keyAt c params) = p.store (u.a.keyAt c params) :=
      fun params => hother _ (keyA_ne_keyB params b.id)
    have hid : ∀ d ∈ blocks, u.b.keyAt c d.id ≠ u.b.keyAt c b.id := by
      intro d hmem heq
      exact hb (keyAt_inj heq ▸ List.mem_map_of_mem hmem)
    have hsame : ∀ d ∈ blocks, readable c u p₁.store d.id = readable c u p.store d.id ∧
        requests c u p₁.store d = requests c u p.store d ∧
          onlyA c u p₁.store d = onlyA c u p.store d :=
      fun d hmem => asked_congr (hother _ (hid d hmem)) (hA d.id)
    have hcert : Certified c p₁.store u.a := by
      intro params state hs
      rw [hA] at hs
      exact h params state hs
    obtain ⟨p₂, hp₂, hpass⟩ := ih hd hcert
    have hcount : blocks.countP (onlyA c u p₁.store) = blocks.countP (onlyA c u p.store) :=
      List.countP_congr fun d hmem => by rw [(hsame d hmem).2.2]
    refine ⟨p₂, ?_, ?_⟩
    · rw [List.foldlM_cons, bind_eq_ok]
      exact ⟨p₁, hp₁, hp₂⟩
    refine ⟨fun k hk => ?_, fun d hmem => ?_, ?_, ?_, ?_⟩
    · rw [hpass.frame k fun d hmem => hk d (List.mem_cons_of_mem b hmem),
        hother k (hk b List.mem_cons_self)]
    · rcases List.mem_cons.mp hmem with rfl | hmem
      · rw [hpass.frame _ fun d hmem => (hid d hmem).symm, hstore, Function.update_self]
      · rw [hpass.found d hmem, (hsame d hmem).1]
    · rw [hpass.log, hlog, List.flatMap_cons, List.append_assoc]
      congr 2
      exact List.flatMap_congr fun d hmem => (hsame d hmem).2.1
    · rw [hpass.putsB, hputs, hcount, List.countP_cons, Nat.add_assoc, Nat.add_comm (ite _ _ _)]
    · rw [hpass.migrated, hmig, hcount, List.countP_cons, Nat.add_assoc,
        Nat.add_comm (ite _ _ _)]

end Step

/-! ## The migration and the steady state -/

/-- A put of the log, with the bytes it offers. -/
def Request.putOf : Request Key → Option (Key × Option Bytes)
  | .put key state => some (key, some state)
  | .get _ => none

/-- What a block costs a reader of `[B, A]` when all that is held under A is held under B. -/
def steady (c : Crates Key) (u : Epochs) (store : Store Key) (b : Blk) : List (Request Key) :=
  if (readable c u store b.id).isSome then [.get (u.b.keyAt c b.id)]
  else [.get (u.b.keyAt c b.id), .get (u.a.keyAt c b.id)]

/-- What B holds of a block is what was readable, and nothing under A has changed. -/
def Settled (c : Crates Key) (u : Epochs) (store store' : Store Key) (b : Blk) : Prop :=
  store' (u.b.keyAt c b.id) = readable c u store b.id ∧
    store' (u.a.keyAt c b.id) = store (u.a.keyAt c b.id)

/-- A settled block is read where it is held, and is no longer held under A alone. -/
theorem Settled.spec {store' : Store Key} {b : Blk} (h : Settled c u store store' b) :
    readable c u store' b.id = readable c u store b.id ∧
      requests c u store' b = steady c u store b ∧ onlyA c u store' b = false := by
  obtain ⟨hB, hA⟩ := h
  unfold requests onlyA steady
  cases hr : readable c u store b.id with
  | some s =>
    have hs : store' (u.b.keyAt c b.id) = some s := hB.trans hr
    exact ⟨by rw [readable, hs, Option.some_or], by simp [hs], by simp [hs]⟩
  | none =>
    have hs : store' (u.b.keyAt c b.id) = none := hB.trans hr
    have hnone : store' (u.a.keyAt c b.id) = none := hA.trans (Option.or_eq_none_iff.mp hr).2
    exact ⟨by rw [readable, hs, hnone, Option.or_none], by simp [hs, hnone], by simp [hs, hnone]⟩

/-- One block of the pass that is measured. -/
theorem again_spec {store' : Store Key} {q : Again Key} {b : Blk}
    (h : Settled c u store store' b) :
    (again c u store' q b).log = q.log ++ steady c u store b ∧
      (again c u store' q b).puts2 = q.puts2 ∧
      (again c u store' q b).found2 =
        q.found2 + if (readable c u store b.id).isSome then 1 else 0 := by
  obtain ⟨hB, hA⟩ := h
  unfold again steady
  cases hr : readable c u store b.id with
  | some s =>
    have hs : store' (u.b.keyAt c b.id) = some s := hB.trans hr
    simp [hs]
  | none =>
    have hs : store' (u.b.keyAt c b.id) = none := hB.trans hr
    have hnone : store' (u.a.keyAt c b.id) = none := hA.trans (Option.or_eq_none_iff.mp hr).2
    simp [hs, hnone]

/-- The pass that is measured, over blocks that are all settled. -/
theorem again_foldl {store' : Store Key} {blocks : List Blk} (q : Again Key)
    (h : ∀ b ∈ blocks, Settled c u store store' b) :
    (blocks.foldl (again c u store') q).log = q.log ++ blocks.flatMap (steady c u store) ∧
      (blocks.foldl (again c u store') q).puts2 = q.puts2 ∧
      (blocks.foldl (again c u store') q).found2 =
        q.found2 + blocks.countP fun b => (readable c u store b.id).isSome := by
  induction blocks generalizing q with
  | nil => exact ⟨(List.append_nil _).symm, rfl, rfl⟩
  | cons b blocks ih =>
    obtain ⟨hlog, hputs, hfound⟩ := again_spec (q := q) (h b List.mem_cons_self)
    obtain ⟨hlogs, hputss, hfounds⟩ := ih (again c u store' q b)
      fun d hd => h d (List.mem_cons_of_mem b hd)
    rw [List.foldl_cons]
    refine ⟨?_, ?_, ?_⟩
    · rw [hlogs, hlog, List.flatMap_cons, List.append_assoc]
    · rw [hputss, hputs]
    · rw [hfounds, hfound, List.countP_cons, Nat.add_assoc, Nat.add_comm (ite _ _ _)]

/-- The pass that is measured counts what it asks for. -/
theorem again_gets2 {store' : Store Key} (blocks : List Blk) (q : Again Key)
    (h : q.gets2 = q.log.length) :
    (blocks.foldl (again c u store') q).gets2 = (blocks.foldl (again c u store') q).log.length := by
  induction blocks generalizing q with
  | nil => exact h
  | cons b blocks ih =>
    refine ih _ ?_
    unfold again
    dsimp only
    split
    · simp [h]
    · split <;> simp [h]

/-- The puts a block costs. -/
theorem requests_putOf (b : Blk) :
    (requests c u store b).filterMap Request.putOf =
      if onlyA c u store b then [(u.b.keyAt c b.id, store (u.a.keyAt c b.id))] else [] := by
  unfold requests onlyA
  cases hB : store (u.b.keyAt c b.id) with
  | some s => rfl
  | none =>
    cases hA : store (u.a.keyAt c b.id) with
    | none => rfl
    | some found => rfl

theorem flatMap_putOf (blocks : List Blk) :
    (blocks.flatMap (requests c u store)).filterMap Request.putOf =
      (blocks.filter (onlyA c u store)).map fun b =>
        (u.b.keyAt c b.id, store (u.a.keyAt c b.id)) := by
  induction blocks with
  | nil => rfl
  | cons b blocks ih =>
    rw [List.flatMap_cons, List.filterMap_append, ih, requests_putOf]
    cases honly : onlyA c u store b with
    | true => rw [List.filter_cons_of_pos honly]; rfl
    | false => rw [List.filter_cons_of_neg (by rw [honly]; exact Bool.false_ne_true)]; rfl

/-- What a pass leaves settled. -/
theorem Passed.settled {p p' : Pass Key} {blocks : List Blk} (h : Passed c u p p' blocks) :
    ∀ b ∈ blocks, Settled c u p.store p'.store b :=
  fun b hb => ⟨h.found b hb, h.frame _ fun d _ => keyA_ne_keyB b.id d.id⟩

section Main

variable [DecidableEq Key]

/-- **A pass over settled blocks** changes nothing, puts nothing, and asks for each block
once where it is held. -/
theorem Passed.again {p p' q : Pass Key} {blocks : List Blk} (h : Passed c u p p' blocks)
    (hq : Passed c u { store := p'.store } q blocks) :
    q.store = p'.store ∧ q.log = blocks.flatMap (steady c u p.store) ∧ q.putsB = 0 := by
  have hspec := fun b hb => (h.settled b hb).spec
  refine ⟨?_, ?_, ?_⟩
  · funext k
    by_cases hk : ∃ b ∈ blocks, k = u.b.keyAt c b.id
    · obtain ⟨b, hb, rfl⟩ := hk
      rw [hq.found b hb, (hspec b hb).1, ← h.found b hb]
    · push Not at hk
      exact hq.frame k hk
  · rw [hq.log, List.nil_append]
    exact List.flatMap_congr fun b hb => (hspec b hb).2.1
  · rw [hq.putsB, Nat.zero_add, List.countP_eq_zero]
    intro b hb
    rw [(hspec b hb).2.2]
    exact Bool.false_ne_true

/-- What the migration leaves behind, and what the blocks cost a reader from then on. -/
structure Migrated (c : Crates Key) (u : Epochs) (store : Store Key) (blocks : List Blk)
    (p : Pass Key) : Prop where
  /-- What was readable under either epoch is readable under B, with the same bytes. -/
  found : ∀ b ∈ blocks, p.store (u.b.keyAt c b.id) = readable c u store b.id
  underA : ∀ params, p.store (u.a.keyAt c params) = store (u.a.keyAt c params)
  frame : ∀ k, (∀ b ∈ blocks, k ≠ u.b.keyAt c b.id) → p.store k = store k
  /-- The puts are of the blocks held only under A, each with the bytes held there. -/
  puts : p.log.filterMap Request.putOf =
    (blocks.filter (onlyA c u store)).map fun b => (u.b.keyAt c b.id, store (u.a.keyAt c b.id))
  counted : p.putsB = (blocks.filter (onlyA c u store)).length ∧ p.migrated = p.putsB
  /-- The same pass again changes nothing and asks for what the steady state costs. -/
  second : ∃ q, migration c u p.store blocks = .ok q ∧ q.store = p.store ∧
    q.log = blocks.flatMap (steady c u store) ∧ q.putsB = 0
  /-- So does the pass that is measured. -/
  measured : (blocks.foldl (again c u p.store) {}).log = blocks.flatMap (steady c u store) ∧
    (blocks.foldl (again c u p.store) {}).puts2 = 0 ∧
    (blocks.foldl (again c u p.store) {}).found2 =
      blocks.countP fun b => (readable c u store b.id).isSome

/-- **The migration.** Over blocks with distinct ids, from any store whose states under A
hash to their params. -/
theorem migration_spec {blocks : List Blk} (hd : (blocks.map Blk.id).Nodup)
    (h : Certified c store u.a) :
    ∃ p, migration c u store blocks = .ok p ∧ Migrated c u store blocks p := by
  obtain ⟨p, hp, hpass⟩ := passed (p := { store }) hd h
  have hunderA : ∀ params, p.store (u.a.keyAt c params) = store (u.a.keyAt c params) :=
    fun params => hpass.frame _ fun b _ => keyA_ne_keyB params b.id
  have hcert : Certified c p.store u.a := by
    intro params state hs
    rw [hunderA] at hs
    exact h params state hs
  obtain ⟨q, hq, hqpass⟩ := passed (p := { store := p.store }) hd hcert
  have hlog : p.log = blocks.flatMap (requests c u store) := hpass.log
  have hputs : p.putsB = blocks.countP (onlyA c u store) := hpass.putsB.trans (Nat.zero_add _)
  have hmig : p.migrated = blocks.countP (onlyA c u store) := hpass.migrated.trans (Nat.zero_add _)
  have hmeasured := again_foldl {} hpass.settled
  rw [List.nil_append, Nat.zero_add] at hmeasured
  exact ⟨p, hp, {
    found := hpass.found
    underA := hunderA
    frame := hpass.frame
    puts := by rw [hlog, flatMap_putOf]
    counted := ⟨by rw [hputs, List.countP_eq_length_filter], by rw [hmig, hputs]⟩
    second := ⟨q, hq, hpass.again hqpass⟩
    measured := hmeasured }⟩

end Main

/-! ## The blocks' half of a run -/

/-- What putting the blocks under one epoch leaves. -/
structure Stored (c : Crates Key) (e : Epoch) (store store' : Store Key) (blocks : List Blk) :
    Prop where
  frame : ∀ k, (∀ b ∈ blocks, k ≠ e.keyAt c b.id) → store' k = store k
  held : ∀ b ∈ blocks, store' (e.keyAt c b.id) = some b.state

theorem putOne_foldl [DecidableEq Key] {e : Epoch} {s : Nat × Store Key} {blocks : List Blk}
    (hd : (blocks.map Blk.id).Nodup) (hash : ∀ b ∈ blocks, c.blake3 b.state = b.id) :
    (blocks.foldl (putOne c e) s).1 = s.1 + blocks.length ∧
      Stored c e s.2 (blocks.foldl (putOne c e) s).2 blocks := by
  induction blocks generalizing s with
  | nil => exact ⟨rfl, fun _ _ => rfl, fun _ hb => (List.not_mem_nil hb).elim⟩
  | cons b blocks ih =>
    rw [List.map_cons, List.nodup_cons] at hd
    obtain ⟨hb, hd⟩ := hd
    have hone : putOne c e s b = (s.1 + 1, Function.update s.2 (e.keyAt c b.id) (some b.state)) := by
      simp [putOne, put_of_hash (hash b List.mem_cons_self)]
    have hid : ∀ d ∈ blocks, e.keyAt c b.id ≠ e.keyAt c d.id := by
      intro d hmem heq
      exact hb (keyAt_inj heq ▸ List.mem_map_of_mem hmem)
    rw [List.foldl_cons, hone]
    obtain ⟨hcount, hstored⟩ := ih hd fun d hmem => hash d (List.mem_cons_of_mem b hmem)
    refine ⟨?_, fun k hk => ?_, fun d hmem => ?_⟩
    · rw [hcount, List.length_cons, Nat.add_assoc, Nat.add_comm 1]
    · rw [hstored.frame k fun d hmem => hk d (List.mem_cons_of_mem b hmem)]
      exact Function.update_of_ne (hk b List.mem_cons_self) ..
    · rcases List.mem_cons.mp hmem with rfl | hmem
      · rw [hstored.frame _ hid]
        exact Function.update_self ..
      · exact hstored.held d hmem

theorem Stored.certified {e : Epoch} {store' : Store Key} {blocks : List Blk}
    (hs : Stored c e store store' blocks) (hash : ∀ b ∈ blocks, c.blake3 b.state = b.id)
    (h : Certified c store e) : Certified c store' e := by
  intro params state hstate
  by_cases hp : ∃ b ∈ blocks, params = b.id
  · obtain ⟨b, hb, rfl⟩ := hp
    rw [hs.held b hb] at hstate
    obtain rfl := Option.some.inj hstate
    exact hash b hb
  · push Not at hp
    rw [hs.frame _ fun b hb heq => hp b hb (keyAt_inj heq)] at hstate
    exact h params state hstate

/-- A block put under A that B does not hold is read from A, and from nowhere else. -/
theorem Stored.onlyA {store' : Store Key} {blocks : List Blk}
    (hs : Stored c u.a store store' blocks)
    (fresh : ∀ b ∈ blocks, store (u.b.keyAt c b.id) = none) {b : Blk} (hb : b ∈ blocks) :
    onlyA c u store' b = true ∧ readable c u store' b.id = some b.state := by
  have hnone : store' (u.b.keyAt c b.id) = none := by
    rw [hs.frame _ fun d _ => (keyA_ne_keyB d.id b.id).symm, fresh b hb]
  refine ⟨?_, ?_⟩
  · simp [Upgrade.onlyA, hnone, hs.held b hb]
  · rw [readable, hnone, hs.held b hb, Option.none_or]

/-- Blocks that are all readable cost one get each. -/
theorem length_steady {blocks : List Blk}
    (h : ∀ b ∈ blocks, (readable c u store b.id).isSome = true) :
    (blocks.flatMap (steady c u store)).length = blocks.length := by
  have hone : blocks.flatMap (steady c u store) =
      blocks.flatMap fun b => [.get (u.b.keyAt c b.id)] :=
    List.flatMap_congr fun b hb => if_pos (h b hb)
  rw [hone, ← List.map_eq_flatMap, List.length_map]

/-- **The cycle.** Blocks with distinct ids that hash to them, and that B does not hold
yet, are stored, migrated, read in one get each, and found under B alone. -/
theorem verdicts_pass [DecidableEq Key] {blocks : List Blk} (hd : (blocks.map Blk.id).Nodup)
    (hash : ∀ b ∈ blocks, c.blake3 b.state = b.id)
    (fresh : ∀ b ∈ blocks, store (u.b.keyAt c b.id) = none) (h : Certified c store u.a) :
    verdicts c u store blocks = .ok [true, true, true, true] := by
  obtain ⟨hcount, hs⟩ := putOne_foldl (e := u.a) (s := (0, store)) hd hash
  unfold verdicts
  generalize blocks.foldl (putOne c u.a) (0, store) = s at hcount hs
  obtain ⟨storedA, held⟩ := s
  obtain ⟨p, hp, hpass⟩ := passed (p := { store := held }) hd (hs.certified hash h)
  have hread : ∀ b ∈ blocks, readable c u held b.id = some b.state :=
    fun b hb => (hs.onlyA fresh hb).2
  have hsome : ∀ b ∈ blocks, (readable c u held b.id).isSome = true :=
    fun b hb => by rw [hread b hb, Option.isSome_some]
  have hmig : p.migrated = blocks.length := by
    rw [hpass.migrated, Nat.zero_add]
    exact List.countP_eq_length.mpr fun b hb => (hs.onlyA fresh hb).1
  obtain ⟨hlog, hputs, hfound⟩ := again_foldl {} hpass.settled
  have hfound2 : (blocks.foldl (again c u p.store) {}).found2 = blocks.length := by
    rw [hfound, Nat.zero_add]
    exact List.countP_eq_length.mpr hsome
  have hgets2 : (blocks.foldl (again c u p.store) {}).gets2 = blocks.length := by
    rw [again_gets2 blocks {} rfl, hlog, List.nil_append, length_steady hsome]
  have halone : foundAlone c u.b p.store blocks = blocks.length := by
    refine List.countP_eq_length.mpr fun b hb => ?_
    rw [hpass.found b hb, hread b hb, beq_self_eq_true]
  have hstored : storedA = blocks.length := hcount.trans (Nat.zero_add _)
  show (migration c u held blocks >>= _) = _
  rw [bind_eq_ok]
  refine ⟨p, hp, ?_⟩
  simp only [hstored, hmig, hfound2, hputs, hgets2, halone, beq_self_eq_true, Bool.and_true]
  rfl

/-! ## One run

A block whose state is empty, put under A only, and one that is nowhere. -/

/-- BLAKE3 of no bytes. -/
def emptyHash : Bytes :=
  [0xaf, 0x13, 0x49, 0xb9, 0xf5, 0xf9, 0xa1, 0xa6, 0xa0, 0x40, 0x4d, 0xea, 0x36, 0xdc, 0xc9, 0x49,
    0x9b, 0xcb, 0x25, 0xc9, 0xad, 0xc1, 0x12, 0xb7, 0xcc, 0x9a, 0x93, 0xca, 0xe4, 0x1f, 0x32, 0x62]

/-- A key written as its code and its params. -/
def pairs : Crates (Bytes × Bytes) where
  blake3 _ := emptyHash
  encode kind body := kind :: body
  encode_length _ _ := rfl
  key := Prod.mk
  key_injective h := ⟨congrArg Prod.fst h, congrArg Prod.snd h⟩

def twoEpochs : Epochs where
  a := ⟨[0]⟩
  b := ⟨[1]⟩
  changed := by decide

def emptyUnderA : Store (Bytes × Bytes) :=
  Function.update (fun _ => none) (twoEpochs.a.keyAt pairs emptyHash) (some [])

def lostId : Bytes := [7]

theorem migration_empty :
    ∃ p, migration pairs twoEpochs emptyUnderA [⟨emptyHash, []⟩, ⟨lostId, [9]⟩] = .ok p ∧
      Migrated pairs twoEpochs emptyUnderA [⟨emptyHash, []⟩, ⟨lostId, [9]⟩] p := by
  refine migration_spec (by decide) ?_
  intro params state hs
  by_cases heq : params = emptyHash
  · exact heq.symm
  · rw [emptyUnderA, Function.update_of_ne fun hk => heq (congrArg Prod.snd hk)] at hs
    cases hs

example : (migration pairs twoEpochs emptyUnderA [⟨emptyHash, []⟩, ⟨lostId, [9]⟩]).map
    (fun p => (p.gets, p.missB, p.putsB, p.migrated)) = .ok (4, 2, 1, 1) := by rfl

end FreenetHarness.Upgrade
