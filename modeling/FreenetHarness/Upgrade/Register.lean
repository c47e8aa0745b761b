import Mathlib
import FreenetHarness.Lib.Spread
import FreenetHarness.Upgrade

/-! # A register across two epochs

A record's signature binds the params and not the code, so anyone can put it again under the
new code. `window_reads`: whatever is published, re-published and tampered with, in whatever
order, a reader across `[B, A]` gets the highest seq there is, and one that holds `[B]` alone
is behind it exactly by what A took since the last re-publication. -/
namespace FreenetHarness.Upgrade
open FreenetHarness.Lib.Spread

/-- The register crate at the params of a run: the state of a signed record of this seq and
value, and the seq of the record that is read of a state. -/
structure World where
  params : Bytes
  record : Nat → Bytes → Bytes
  parse : Bytes → Option (Option Nat)

/-- What a contract's code makes, under its params, of what is held and of what is put. -/
abbrev Merge := Bytes → Option Bytes → Bytes → Option Bytes

variable {Key : Type} [DecidableEq Key] (c : Crates Key)

/-- Put one state under one epoch's code, and read it back: `true` when the node kept it. -/
def putUnder (m : Merge) (e : Epoch) (params state : Bytes) (store : Store Key) :
    Bool × Store Key :=
  let key := e.keyAt c params
  let store := Function.update store key (m params (store key) state)
  (store key == some state, store)

/-- A block's code keeps exactly the states that hash to their params. -/
def certifying : Merge := fun params held state => if c.blake3 state = params then some state else held

theorem put_eq_putUnder (e : Epoch) (params state : Bytes) (store : Store Key) :
    put c e params state store = putUnder c (certifying c) e params state store := by
  have haccept : accept c e params state store =
      Function.update store (e.keyAt c params)
        (certifying c params (store (e.keyAt c params)) state) := by
    unfold accept certifying
    split
    · rfl
    · exact (Function.update_eq_self ..).symm
  unfold put putUnder
  rw [haccept]

/-- `None` is below every seq. -/
def seqOf (w : World) (state : Option Bytes) : WithBot Nat := (state.bind w.parse).join

/-- One byte of the eighth from the end, flipped. -/
def tampered (state : Bytes) : Bytes := state.modify (state.length - 8) (· ^^^ 0xff)

inductive Side where
  | a
  | b
  deriving DecidableEq

instance fintypeSide : Fintype Side := ⟨{.a, .b}, fun e => by cases e <;> simp⟩

def Side.other : Side → Side
  | .a => .b
  | .b => .a

def Epochs.at (u : Epochs) : Side → Epoch
  | .a => u.a
  | .b => u.b

/-- What can happen to a register while the window is open: its writer publishes under one of
the codes, a keeper puts under this one what it reads under the other, and someone puts a
record with a tampered signature. -/
inductive Op where
  | publish (e : Side) (seq : Nat)
  | republish (e : Side)
  | tamper (e : Side) (seq : Nat)
  deriving DecidableEq

variable (reg : Bytes → Merge) (w : World) (u : Epochs)

/-- A put under one side's code. -/
def putAt (e : Side) (state : Bytes) (store : Store Key) : Bool × Store Key :=
  putUnder c (reg (u.at e).code) (u.at e) w.params state store

/-- What is read under the other code, put under this one. -/
def republishAt (e : Side) (store : Store Key) : Bool × Store Key :=
  match store ((u.at e.other).keyAt c w.params) with
  | some bytes => putAt c reg w u e bytes store
  | none => (false, store)

/-- What a reader of this side alone gets. -/
def alone (store : Store Key) (e : Side) : WithBot Nat := seqOf w (store ((u.at e).keyAt c w.params))

/-- What a reader across `[B, A]` gets. -/
def across (store : Store Key) : WithBot Nat := max (alone c w u store .a) (alone c w u store .b)

/-- `v` is the one value decided at each seq. -/
def Op.exec (v : Nat → Bytes) (store : Store Key) : Op → Store Key
  | .publish e seq => (putAt c reg w u e (w.record seq (v seq)) store).2
  | .republish e => (republishAt c reg w u e store).2
  | .tamper e seq => (putAt c reg w u e (tampered (w.record seq (v seq))) store).2

def Op.run (v : Nat → Bytes) (store : Store Key) (ops : List Op) : Store Key :=
  ops.foldl (Op.exec c reg w u v) store

/-- The highest seq published, under either code. -/
def published (ops : List Op) : WithBot Nat :=
  joined (ops.map fun
    | .publish _ seq => WithBot.some seq
    | _ => ⊥)

/-- And under this one. -/
def publishedAt (k : Side) (ops : List Op) : WithBot Nat :=
  joined (ops.map fun
    | .publish e seq => if e = k then WithBot.some seq else ⊥
    | _ => ⊥)

/-! ## A register's code -/

/-- The record of the highest seq is held, and what was tampered with is refused. -/
structure Joins (w : World) (m : Merge) : Prop where
  create : ∀ seq v, m w.params none (w.record seq v) = some (w.record seq v)
  higher : ∀ seq v seq' v', seq < seq' →
    m w.params (some (w.record seq v)) (w.record seq' v') = some (w.record seq' v')
  lower : ∀ seq v seq' v', seq' < seq →
    m w.params (some (w.record seq v)) (w.record seq' v') = some (w.record seq v)
  same : ∀ seq v, m w.params (some (w.record seq v)) (w.record seq v) = some (w.record seq v)
  refuseFirst : ∀ seq v, m w.params none (tampered (w.record seq v)) = none
  refuse : ∀ seq v seq' v',
    m w.params (some (w.record seq v)) (tampered (w.record seq' v')) = some (w.record seq v)
  parse : ∀ seq v, w.parse (w.record seq v) = some (some seq)

/-- The state that stands for a seq. -/
def heldOf (v : Nat → Bytes) (n : WithBot Nat) : Option Bytes :=
  Option.map (fun seq => w.record seq (v seq)) n

variable {w} {m : Merge} {v : Nat → Bytes}

theorem Joins.seqOf_heldOf (h : Joins w m) (n : WithBot Nat) : seqOf w (heldOf w v n) = n := by
  cases n with
  | bot => rfl
  | coe seq =>
    show ((some (w.record seq (v seq))).bind w.parse).join = _
    rw [Option.bind_some, h.parse]
    rfl

/-- **A put joins.** -/
theorem Joins.join (h : Joins w m) (n : WithBot Nat) (seq : Nat) :
    m w.params (heldOf w v n) (w.record seq (v seq)) = heldOf w v (n ⊔ WithBot.some seq) := by
  cases n with
  | bot =>
    rw [bot_sup_eq]
    exact h.create seq (v seq)
  | coe held =>
    obtain hlt | rfl | hgt := lt_trichotomy held seq
    · rw [sup_of_le_right (WithBot.coe_le_coe.mpr hlt.le)]
      exact h.higher held (v held) seq (v seq) hlt
    · rw [sup_idem]
      exact h.same held (v held)
    · rw [sup_of_le_left (WithBot.coe_le_coe.mpr hgt.le)]
      exact h.lower held (v held) seq (v seq) hgt

theorem Joins.refused (h : Joins w m) (n : WithBot Nat) (seq : Nat) :
    m w.params (heldOf w v n) (tampered (w.record seq (v seq))) = heldOf w v n := by
  cases n with
  | bot => exact h.refuseFirst seq (v seq)
  | coe held => exact h.refuse held (v held) seq (v seq)

/-! ## The node, as two seqs -/

variable (w) in
/-- What is held under each side's key stands for this seq. -/
def Stands (v : Nat → Bytes) (store : Store Key) (f : Side → WithBot Nat) : Prop :=
  ∀ e, store ((u.at e).keyAt c w.params) = heldOf w v (f e)

/-- What an operation comes to. -/
def Op.move : Op → Move Side (WithBot Nat)
  | .publish e seq => .put e (WithBot.some seq)
  | .republish e => .carry e.other e
  | .tamper e _ => .put e ⊥

variable {c reg u} {store : Store Key} {f : Side → WithBot Nat}

omit [DecidableEq Key] in
theorem key_side_inj {e e' : Side} (h : (u.at e).keyAt c w.params = (u.at e').keyAt c w.params) :
    e = e' := by
  cases e <;> cases e'
  · rfl
  · exact (keyA_ne_keyB _ _ h).elim
  · exact (keyA_ne_keyB _ _ h.symm).elim
  · rfl

/-- A put changes what is held under its own key. -/
theorem Stands.put (hs : Stands c w u v store f) {e : Side} {state : Bytes} {n : WithBot Nat}
    (h : reg (u.at e).code w.params (heldOf w v (f e)) state = heldOf w v n) :
    Stands c w u v (putAt c reg w u e state store).2 (Function.update f e n) := by
  intro k
  show Function.update store ((u.at e).keyAt c w.params)
    (reg (u.at e).code w.params (store ((u.at e).keyAt c w.params)) state) _ = _
  by_cases hk : k = e
  · subst hk
    rw [Function.update_self, Function.update_self, hs k, h]
  · rw [Function.update_of_ne hk, Function.update_of_ne fun hkey => hk (key_side_inj hkey)]
    exact hs k

theorem whole_sides (f : Side → WithBot Nat) : whole f = f .b ⊔ f .a := by
  have huniv : (Finset.univ : Finset Side) = {.a, .b} := rfl
  rw [whole, huniv, Finset.sup_insert, Finset.sup_singleton, sup_comm]

variable (hj : ∀ e, Joins w (reg (u.at e).code))

include hj

theorem Stands.republish (hs : Stands c w u v store f) (e : Side) :
    Stands c w u v (republishAt c reg w u e store).2 (Function.update f e (f e ⊔ f e.other)) := by
  unfold republishAt
  rw [hs e.other]
  cases f e.other with
  | bot =>
    rw [sup_bot_eq, Function.update_eq_self]
    exact hs
  | coe seq => exact hs.put ((hj e).join (f e) seq)

/-- **Step.** -/
theorem Stands.step (hs : Stands c w u v store f) (op : Op) :
    Stands c w u v (op.exec c reg w u v store) (op.move.apply f) := by
  cases op with
  | publish e seq => exact hs.put ((hj e).join (f e) seq)
  | republish e => exact hs.republish hj e
  | tamper e seq =>
    show Stands c w u v _ (Function.update f e (f e ⊔ ⊥))
    rw [sup_bot_eq]
    exact hs.put ((hj e).refused (f e) seq)

/-- **Run.** -/
theorem Stands.run (hs : Stands c w u v store f) (ops : List Op) :
    Stands c w u v (Op.run c reg w u v store ops) (run f (ops.map Op.move)) := by
  induction ops generalizing store f with
  | nil => exact hs
  | cons op ops ih => exact ih (hs.step hj op)

omit [DecidableEq Key] in
theorem Stands.alone (hs : Stands c w u v store f) (e : Side) : alone c w u store e = f e := by
  unfold Upgrade.alone
  rw [hs e]
  exact (hj e).seqOf_heldOf (f e)

omit [DecidableEq Key] in
theorem Stands.across (hs : Stands c w u v store f) : across c w u store = whole f := by
  unfold Upgrade.across
  rw [hs.alone hj, hs.alone hj, whole_sides, sup_comm]

omit hj

/-! ## The window -/

theorem joined_move (ops : List Op) : joined ((ops.map Op.move).map Move.value) = published ops := by
  rw [List.map_map]
  refine congrArg joined (List.map_congr_left fun op _ => ?_)
  cases op <;> rfl

theorem joined_moveAt (k : Side) (ops : List Op) :
    joined ((ops.map Op.move).map (Move.valueAt k)) = publishedAt k ops := by
  rw [List.map_map]
  refine congrArg joined (List.map_congr_left fun op _ => ?_)
  cases op with
  | tamper e seq => exact ite_self _
  | publish e seq => rfl
  | republish e => rfl

theorem published_append (pre post : List Op) :
    published (pre ++ post) = published pre ⊔ published post := by
  unfold published
  rw [List.map_append, joined_append]

/-- What is published is published under one of the codes. -/
theorem published_eq (ops : List Op) : published ops = publishedAt .a ops ⊔ publishedAt .b ops := by
  induction ops with
  | nil => exact (sup_idem _).symm
  | cons op ops ih =>
    show _ ⊔ published ops = (_ ⊔ publishedAt .a ops) ⊔ (_ ⊔ publishedAt .b ops)
    rw [ih, sup_sup_sup_comm]
    congr 1
    cases op with
    | publish e seq => cases e <;> simp
    | republish e => simp
    | tamper e seq => simp

/-- **The window.** From a node that holds the register under neither code: across `[B, A]` a
reader gets the highest seq published; after a re-publication under B a reader of `[B]` alone
lacks what was published under A since, and no more, so it is rolled back exactly when that
is the highest. -/
theorem window_reads (hj : ∀ e, Joins w (reg (u.at e).code))
    (hfresh : ∀ e, store ((u.at e).keyAt c w.params) = none) :
    (∀ ops, across c w u (Op.run c reg w u v store ops) = published ops) ∧
      ∀ pre post, .republish .b ∉ post →
        let held := Op.run c reg w u v store (pre ++ .republish .b :: post)
        alone c w u held .b = published pre ⊔ publishedAt .b post ∧
          (alone c w u held .b < across c w u held ↔
            published pre ⊔ publishedAt .b post < publishedAt .a post) := by
  have hs : Stands c w u v store fun _ => ⊥ := hfresh
  have hwhole : ∀ ops, whole (run (fun _ => ⊥) (ops.map Op.move)) = published ops := fun ops => by
    rw [whole_run, joined_move]
    exact (congrArg (· ⊔ _) (Finset.sup_bot _)).trans (bot_sup_eq _)
  have hacross : ∀ ops, across c w u (Op.run c reg w u v store ops) = published ops := fun ops =>
    ((hs.run hj ops).across hj).trans (hwhole ops)
  refine ⟨hacross, fun pre post hpost => ?_⟩
  have halone : alone c w u (Op.run c reg w u v store (pre ++ .republish .b :: post)) .b =
      published pre ⊔ publishedAt .b post := by
    rw [(hs.run hj _).alone hj, List.map_append, run_append, List.map_cons, ← hwhole pre,
      whole_sides, ← joined_moveAt]
    show run (Move.apply _ (.carry .a .b)) (post.map Op.move) .b = _
    refine run_of_not_into fun m hm => ?_
    obtain ⟨op, hop, rfl⟩ := List.mem_map.mp hm
    cases op with
    | publish e seq => rfl
    | tamper e seq => rfl
    | republish e =>
      cases e with
      | a => rfl
      | b => exact absurd hop hpost
  have hall : published (pre ++ .republish .b :: post) =
      published pre ⊔ publishedAt .b post ⊔ publishedAt .a post := by
    have hpost : published (.republish .b :: post) = published post := bot_sup_eq _
    rw [published_append, hpost, published_eq post, sup_comm (publishedAt .a post), sup_assoc]
  refine ⟨halone, ?_⟩
  rw [halone, hacross, hall, left_lt_sup, not_le]

/-! ## A small register -/

/-- A record of as many ones as its seq and eight more, unsigned. -/
def ones : World where
  params := [7]
  record seq _ := List.replicate (seq + 8) 1
  parse s := some (some (s.length - 8))

/-- The longer one is held, of ones alone. -/
def keepOnes : Merge := fun _ held s =>
  if s.all (· == 1) then
    match held with
    | some h => if h.length < s.length then some s else some h
    | none => some s
  else held

theorem all_ones (n : Nat) : (List.replicate n (1 : UInt8)).all (· == 1) = true := by simp

theorem tampered_ones (seq : Nat) : (tampered (List.replicate (seq + 8) 1)).all (· == 1) = false := by
  have hat : (tampered (List.replicate (seq + 8) 1))[seq]? = some 0xfe := by
    simp only [tampered, List.length_replicate, Nat.add_sub_cancel, List.getElem?_modify]
    simp
    rfl
  exact List.all_eq_false.mpr ⟨0xfe, List.mem_of_getElem? hat, by decide⟩

theorem keepOnes_joins : Joins ones keepOnes where
  create seq v := if_pos (all_ones _)
  higher seq v seq' v' h := by
    refine (if_pos (all_ones _)).trans (if_pos ?_)
    simpa [ones] using h
  lower seq v seq' v' h := by
    refine (if_pos (all_ones _)).trans (if_neg ?_)
    simpa [ones] using h.le
  same seq v := (if_pos (all_ones _)).trans (if_neg (lt_irrefl _))
  refuseFirst seq v := if_neg (by rw [Bool.not_eq_true]; exact tampered_ones seq)
  refuse seq v seq' v' := if_neg (by rw [Bool.not_eq_true]; exact tampered_ones seq')
  parse seq v := by simp [ones]

/-- The newest record exists only under A. -/
theorem window_reads_rolled_back :
    let held := Op.run pairs (fun _ => keepOnes) ones twoEpochs (fun _ => []) (fun _ => none)
      [.publish .a 3, .republish .b, .publish .a 5]
    alone pairs ones twoEpochs held .b < across pairs ones twoEpochs held :=
  ((window_reads (fun _ => keepOnes_joins) fun _ => rfl).2 [.publish .a 3] [.publish .a 5]
    (by decide)).2.mpr (by decide)

end FreenetHarness.Upgrade
