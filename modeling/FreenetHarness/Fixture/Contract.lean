import FreenetHarness.Lib.Bytes
import FreenetHarness.Lib.Run

/-! # The `validate-cost` contract

A measurement fixture: the state is a byte string that only grows, a delta is tagged by
its first byte, and of two full states the longer wins. `sync_iff` is about the delta a
peer is sent, `converge_iff` about two nodes that exchange full states. -/
namespace FreenetHarness.Fixture
open FreenetHarness.Lib.Number FreenetHarness.Lib.Run

abbrev Bytes := List UInt8

def tagAppend : UInt8 := 0x01
def tagNoop : UInt8 := 0xFF

inductive UpdateData where
  | state (s : Bytes)
  | delta (d : Bytes)
  | stateAndDelta (state delta : Bytes)
  /-- The kinds that carry a related contract's state. -/
  | related
  deriving DecidableEq, Repr

inductive ContractError where
  | invalidUpdate
  deriving DecidableEq, Repr

inductive ValidateResult where
  | valid
  | invalid
  deriving DecidableEq, Repr

/-- `[mode, repeat_le32, salt..]`; anything shorter is rejected. -/
def paramsOf (p : Bytes) : Option (UInt8 × Nat) :=
  match p with
  | mode :: r0 :: r1 :: r2 :: r3 :: _ => some (mode, ofLeBytes [r0, r1, r2, r3])
  | _ => none

/-- The first byte of the digest of `repeat` passes over the whole state, each chained to
the one before. -/
def burn (blake3 : Bytes → Vector UInt8 32) (state : Bytes) (passes : Nat) : UInt8 :=
  ((fun carry : Vector UInt8 32 => blake3 (carry.toList ++ state))^[passes]
    (Vector.replicate 32 0))[0]

def validateState (blake3 : Bytes → Vector UInt8 32) (parameters state : Bytes) :
    ValidateResult :=
  match paramsOf parameters with
  | none => .invalid
  | some (mode, passes) =>
    if mode = 0 ∧ burn blake3 state passes = 0xAB ∧ state = [] then .invalid else .valid

/-- One item of an update, merged into the state so far. -/
def merge (next : Bytes) : UpdateData → Except ContractError Bytes
  | .state s => .ok (if next.length < s.length then s else next)
  | .stateAndDelta s _ => .ok (if next.length < s.length then s else next)
  | .related => .ok next
  | .delta [] => .error .invalidUpdate
  | .delta (tag :: rest) =>
    if tag = tagNoop then .ok next
    else if tag = tagAppend then .ok (next ++ rest)
    else .error .invalidUpdate

def updateState (blake3 : Bytes → Vector UInt8 32) (parameters state : Bytes)
    (data : List UpdateData) : Except ContractError Bytes :=
  match paramsOf parameters with
  | none => .error .invalidUpdate
  | some (mode, passes) => do
    let next ← data.foldlM merge state
    if mode = 1 ∧ burn blake3 next passes = 0xAB ∧ next = [] then .error .invalidUpdate
    else .ok next

/-- The length of the state; it says nothing about the content. -/
def summarizeState (_parameters state : Bytes) : Bytes := toLeBytes (UInt64.ofNat state.length)

/-- `as usize`, in wasm32. -/
def asUsize (n : Nat) : Nat := n % 2 ^ 32

/-- Everything past the peer's known length. -/
def getStateDelta (_parameters state summary : Bytes) : Bytes :=
  let known := asUsize (if summary.length = 8 then ofLeBytes summary else 0)
  if state.length ≤ known then [] else tagAppend :: state.drop known

/-! ## One update -/

variable {blake3 : Bytes → Vector UInt8 32} {parameters : Bytes}

theorem updateState_of_none (h : paramsOf parameters = none) (state : Bytes)
    (data : List UpdateData) :
    updateState blake3 parameters state data = .error .invalidUpdate := by
  simp only [updateState, h]

variable (blake3) in
/-- With params that are read, one item is merged, and the guard is about an empty result. -/
theorem updateState_of_merge (h : (paramsOf parameters).isSome) {state next : Bytes}
    {d : UpdateData} (hm : merge state d = .ok next) :
    updateState blake3 parameters state [d] = .ok next ∨
      updateState blake3 parameters state [d] = .error .invalidUpdate ∧ next = [] := by
  obtain ⟨⟨mode, passes⟩, hp⟩ := Option.isSome_iff_exists.mp h
  have hfold : [d].foldlM merge state = .ok next := by
    rw [List.foldlM_cons, hm]
    rfl
  have hstep : updateState blake3 parameters state [d] =
      if mode = 1 ∧ burn blake3 next passes = 0xAB ∧ next = [] then .error .invalidUpdate
      else .ok next := by
    simp only [updateState, hp, hfold]
    rfl
  rw [hstep]
  split
  · rename_i hguard
    exact .inr ⟨rfl, hguard.2.2⟩
  · exact .inl rfl

theorem updateState_of_error (h : (paramsOf parameters).isSome) {state : Bytes} {d : UpdateData}
    {e : ContractError} (hm : merge state d = .error e) :
    updateState blake3 parameters state [d] = .error e := by
  obtain ⟨⟨mode, passes⟩, hp⟩ := Option.isSome_iff_exists.mp h
  simp only [updateState, hp, List.foldlM_cons, hm]
  rfl

/-- The state only grows. -/
theorem length_le_merge {state next : Bytes} {d : UpdateData} (hm : merge state d = .ok next) :
    state.length ≤ next.length := by
  unfold merge at hm
  split at hm
  · cases hm
    split <;> omega
  · cases hm
    split <;> omega
  · cases hm
    exact le_rfl
  · cases hm
  · split at hm
    · cases hm
      exact le_rfl
    · split at hm
      · cases hm
        simp
      · cases hm

theorem length_le_updateState {state next : Bytes} {data : List UpdateData}
    (hu : updateState blake3 parameters state data = .ok next) : state.length ≤ next.length := by
  unfold updateState at hu
  split at hu
  · cases hu
  · obtain ⟨merged, hfold, hu⟩ := bind_eq_ok.mp hu
    split at hu
    · cases hu
    · cases hu
      exact foldlM_invariant (I := fun s : Bytes => state.length ≤ s.length)
        (fun _ _ _ _ hle hm => hle.trans (length_le_merge hm)) le_rfl hfold

/-- **No update makes a valid state invalid.** -/
theorem valid_updateState {state next : Bytes} {data : List UpdateData}
    (hv : validateState blake3 parameters state = .valid)
    (hu : updateState blake3 parameters state data = .ok next) :
    validateState blake3 parameters next = .valid := by
  have hle := length_le_updateState hu
  by_cases hnext : next = []
  · -- then nothing was held, and nothing was added
    have hstate : next = state := by
      subst hnext
      exact (List.eq_nil_of_length_eq_zero (Nat.le_zero.mp hle)).symm
    rwa [hstate]
  · cases hp : paramsOf parameters with
    | none => simp [validateState, hp] at hv
    | some m => simp only [validateState, hp, if_neg fun h : _ ∧ _ ∧ next = [] => hnext h.2.2]

/-! ## What a peer is sent -/

/-- A state that a replica can hold: its length is a `usize`. -/
structure Held where
  bytes : Bytes
  fits : bytes.length < 2 ^ 32

/-- What a peer is told of its own state is how long it is. -/
theorem known_length {p : Bytes} (h : p.length < 2 ^ 32) :
    asUsize (ofLeBytes (summarizeState parameters p)) = p.length := by
  have h64 : (UInt64.ofNat p.length).toNat = p.length :=
    UInt64.toNat_ofNat_of_lt (lt_trans h (by norm_num))
  rw [summarizeState, ofLeBytes_toLeBytes, h64, asUsize, Nat.mod_eq_of_lt h]

/-- A peer that holds a beginning of the state is sent the rest, and nothing when there is
no rest: not even the tag. -/
theorem getStateDelta_append {p t : Bytes} (h : (p ++ t).length < 2 ^ 32) :
    getStateDelta parameters (p ++ t) (summarizeState parameters p) =
      if t = [] then [] else tagAppend :: t := by
  have hlen : (summarizeState parameters p).length = 8 := by
    rw [summarizeState, toLeBytes_eq, leBytes_length]
  have hp : p.length < 2 ^ 32 := by
    rw [List.length_append] at h
    omega
  simp only [getStateDelta, if_pos hlen, known_length hp, List.drop_left]
  cases t <;> simp

/-- **When the delta a peer is sent brings it to the state.** -/
theorem sync_iff (blake3 : Bytes → Vector UInt8 32) {parameters : Bytes}
    (hparams : (paramsOf parameters).isSome) (s : Held) {p : Bytes} (hp : p <+: s.bytes) :
    updateState blake3 parameters p
        [.delta (getStateDelta parameters s.bytes (summarizeState parameters p))] = .ok s.bytes ↔
      p ≠ s.bytes := by
  obtain ⟨bytes, hfits⟩ := s
  obtain ⟨t, rfl⟩ := hp
  rw [getStateDelta_append hfits]
  constructor
  · intro hok heq
    have ht : t = [] := by simpa using heq
    rw [if_pos ht, updateState_of_error hparams rfl] at hok
    cases hok
  · intro hne
    have ht : t ≠ [] := fun ht => hne (by simp [ht])
    have hm : merge p (.delta (tagAppend :: t)) = .ok (p ++ t) := by
      simp [merge, tagAppend, tagNoop]
    rw [if_neg ht]
    rcases updateState_of_merge blake3 hparams hm with hok | ⟨-, hempty⟩
    · exact hok
    · exact absurd (List.append_eq_nil_iff.mp hempty).2 ht

/-- The params of a run with no passes and no salt. -/
def plainParams : Bytes := [0, 0, 0, 0, 0]

/-- A peer one byte behind catches up. -/
theorem sync_behind :
    updateState (fun _ => Vector.replicate 32 0) plainParams [1]
      [.delta (getStateDelta plainParams [1, 2] (summarizeState plainParams [1]))] =
        .ok [1, 2] :=
  (sync_iff _ (by decide) ⟨[1, 2], by decide⟩ (by decide)).mpr (by decide)

/-- A peer that holds the state already is sent an update that is refused. -/
theorem sync_level :
    updateState (fun _ => Vector.replicate 32 0) plainParams [1]
      [.delta (getStateDelta plainParams [1] (summarizeState plainParams [1]))] =
        .error .invalidUpdate := by
  decide

/-! ## The longer of two -/

/-- The second where it is the longer one. -/
def longer {α : Type*} (a b : List α) : List α := if a.length < b.length then b else a

theorem length_le_longer {α : Type*} (a b : List α) : a.length ≤ (longer a b).length := by
  unfold longer
  split <;> omega

/-- Which of two is the longer depends on who asks only when they differ and neither is. -/
theorem longer_comm_iff {α : Type*} {a b : List α} :
    longer a b = longer b a ↔ a = b ∨ a.length ≠ b.length := by
  unfold longer
  rcases lt_trichotomy a.length b.length with hlt | heq | hgt
  · rw [if_pos hlt, if_neg (not_lt_of_gt hlt)]
    exact iff_of_true rfl (.inr hlt.ne)
  · rw [if_neg heq.not_lt, if_neg heq.not_gt]
    exact ⟨.inl, fun h => h.resolve_right (not_not.mpr heq)⟩
  · rw [if_neg (not_lt_of_gt hgt), if_pos hgt]
    exact iff_of_true rfl (.inr hgt.ne')

/-! ## Two nodes -/

/-- What a node holds after an update: an update that is refused changes nothing. -/
def applied (blake3 : Bytes → Vector UInt8 32) (parameters state : Bytes) (d : UpdateData) :
    Bytes :=
  match updateState blake3 parameters state [d] with
  | .ok next => next
  | .error _ => state

/-- The deltas the contract takes. -/
inductive Delta where
  | append (bytes : Bytes)
  | noop (tail : Bytes)
  deriving DecidableEq, Repr

def Delta.encode : Delta → Bytes
  | .append bytes => tagAppend :: bytes
  | .noop tail => tagNoop :: tail

/-- The bytes a delta adds. -/
def Delta.adds : Delta → Bytes
  | .append bytes => bytes
  | .noop _ => []

/-- What a history of deltas adds. -/
def appended (ds : List Delta) : Bytes := ds.flatMap Delta.adds

/-- What a node holds after deltas on a seed. -/
def held (blake3 : Bytes → Vector UInt8 32) (parameters seed : Bytes) (ds : List Delta) : Bytes :=
  ds.foldl (fun state d => applied blake3 parameters state (.delta d.encode)) seed

theorem applied_of_none (h : paramsOf parameters = none) (state : Bytes) (d : UpdateData) :
    applied blake3 parameters state d = state := by
  rw [applied, updateState_of_none h]

/-- The guard refuses an empty result only, and that is what the node held. -/
theorem applied_of_merge (h : (paramsOf parameters).isSome) {state next : Bytes} {d : UpdateData}
    (hm : merge state d = .ok next) (hlen : state.length ≤ next.length) :
    applied blake3 parameters state d = next := by
  unfold applied
  rcases updateState_of_merge blake3 h hm with hok | ⟨herr, rfl⟩
  · rw [hok]
  · rw [herr]
    exact List.eq_nil_of_length_eq_zero (Nat.le_zero.mp hlen)

theorem applied_delta (h : (paramsOf parameters).isSome) (state : Bytes) (d : Delta) :
    applied blake3 parameters state (.delta d.encode) = state ++ d.adds := by
  cases d with
  | append bytes =>
    exact applied_of_merge h (by simp [merge, Delta.encode, Delta.adds, tagAppend, tagNoop])
      (by simp)
  | noop tail => exact applied_of_merge h (by simp [merge, Delta.encode, Delta.adds]) (by simp)

/-- Of two full states the longer wins, and on a tie the node's own. -/
theorem applied_state (h : (paramsOf parameters).isSome) (state other : Bytes) :
    applied blake3 parameters state (.state other) = longer state other :=
  applied_of_merge h rfl (length_le_longer state other)

/-- The state of a node is its seed and what was appended. -/
theorem held_eq (h : (paramsOf parameters).isSome) (seed : Bytes) (ds : List Delta) :
    held blake3 parameters seed ds = seed ++ appended ds := by
  induction ds generalizing seed with
  | nil => simp [held, appended]
  | cons d ds ih =>
    show held blake3 parameters (applied blake3 parameters seed (.delta d.encode)) ds = _
    rw [applied_delta h, ih, appended, appended, List.flatMap_cons, List.append_assoc]

theorem held_of_none (h : paramsOf parameters = none) (seed : Bytes) (ds : List Delta) :
    held blake3 parameters seed ds = seed := by
  induction ds generalizing seed with
  | nil => rfl
  | cons d ds ih =>
    show held blake3 parameters (applied blake3 parameters seed (.delta d.encode)) ds = _
    rw [applied_of_none h, ih]

/-- **When two nodes that exchange their states hold the same one.** -/
theorem converge_iff (blake3 : Bytes → Vector UInt8 32) (parameters seed : Bytes)
    (ds es : List Delta) :
    applied blake3 parameters (held blake3 parameters seed ds)
        (.state (held blake3 parameters seed es)) =
      applied blake3 parameters (held blake3 parameters seed es)
        (.state (held blake3 parameters seed ds)) ↔
    paramsOf parameters = none ∨ appended ds = appended es ∨
      (appended ds).length ≠ (appended es).length := by
  cases hp : paramsOf parameters with
  | none => simp [applied_of_none hp, held_of_none hp]
  | some m =>
    have h : (paramsOf parameters).isSome := by simp [hp]
    rw [applied_state h, applied_state h, held_eq h, held_eq h, longer_comm_iff,
      List.append_cancel_left_eq, List.length_append, List.length_append, ne_eq,
      Nat.add_left_cancel_iff]
    simp

/-- Two nodes append one byte each, and not the same one: each keeps its own. -/
theorem tie_disagrees :
    applied (fun _ => Vector.replicate 32 0) plainParams
        (held (fun _ => Vector.replicate 32 0) plainParams [0] [.append [1]])
        (.state (held (fun _ => Vector.replicate 32 0) plainParams [0] [.append [2]])) = [0, 1] ∧
      applied (fun _ => Vector.replicate 32 0) plainParams
        (held (fun _ => Vector.replicate 32 0) plainParams [0] [.append [2]])
        (.state (held (fun _ => Vector.replicate 32 0) plainParams [0] [.append [1]])) = [0, 2] ∧
      ([0, 1] : Bytes) ≠ [0, 2] := by
  decide

end FreenetHarness.Fixture
