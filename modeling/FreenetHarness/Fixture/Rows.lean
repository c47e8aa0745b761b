import FreenetHarness.Fixture.Contract
import FreenetHarness.ValidateCost

/-! # The state a row says it ran against

`validate-cost` does not ask the node what it holds: it keeps a state of its own beside
the contract's, and takes every row's length from that. `rows_match_iff` says when the
two stay in step. -/
namespace FreenetHarness.ValidateCost
open FreenetHarness.Lib.Run FreenetHarness.Lib.Number FreenetHarness.Latency
open FreenetHarness.Fixture (applied applied_delta applied_state longer paramsOf)

/-- `[mode, repeat_le32, salt]`. -/
def params (mode : UInt8) (passes : UInt32) (salt : Bytes) : Bytes :=
  mode :: leBytes 4 passes.toNat ++ salt

/-- The contract reads what the harness wrote. -/
theorem paramsOf_params (mode : UInt8) (passes : UInt32) (salt : Bytes) :
    paramsOf (params mode passes salt) = some (mode, passes.toNat) := by
  have hread : paramsOf (params mode passes salt) = some (mode, ofLeBytes (leBytes 4 passes.toNat)) :=
    rfl
  rw [hread, ofLeBytes_leBytes, Nat.mod_eq_of_lt (show passes.toNat < 256 ^ 4 from passes.toNat_lt)]

/-- An update as the contract is given it. -/
def UpdateData.item : UpdateData → Fixture.UpdateData
  | .state s => .state s
  | .delta d => .delta d

section Node

variable (blake3 : Bytes → Vector UInt8 32) (parameters : Bytes) (refused : Nat → Bool)

/-- What the node holds after the `i`-th update, which it may refuse. -/
def nodeAfter (i : Nat) (held : Bytes) (d : UpdateData) : Bytes :=
  if refused i then held else applied blake3 parameters held d.item

/-- What the node holds before each of the updates it is sent, from the `i`-th on. -/
def nodeStates (i : Nat) (held : Bytes) : List UpdateData → List Bytes
  | [] => []
  | d :: ds => held :: nodeStates (i + 1) (nodeAfter blake3 parameters refused i held d) ds

end Node

variable {Key : Type}

/-- What a run takes the node to hold before each of `n` updates from the `i`-th on, and
what it sends. -/
def script (c : Conf Key) : Nat → Nat → Bytes → List (Bytes × UpdateData)
  | 0, _, _ => []
  | n + 1, i, state =>
    let p := payload c.arm c.chunk c.salt i state
    (state, p.2) :: script c n (i + 1) p.1

section Loop

variable [DecidableEq Key]

theorem step_script {c : Conf Key} {s s' : State Key} {u : Update Key} (h : step c s u = .ok s') :
    (∃ sample, s'.rows = s.rows ++ [⟨s.rows.length, s.state.length, sample⟩]) ∧
      s'.state = (payload c.arm c.chunk c.salt s.rows.length s.state).1 ∧
      s'.sent = s.sent ++ [(payload c.arm c.chunk c.salt s.rows.length s.state).2] := by
  unfold step at h
  obtain ⟨⟨sample, inbox⟩, -, h⟩ := bind_eq_ok.mp h
  cases h
  exact ⟨⟨sample, rfl⟩, rfl, rfl⟩

/-- What the loop records and sends depends on the updates only through how many there are. -/
theorem foldlM_script {c : Conf Key} {s s' : State Key} {us : List (Update Key)}
    (h : us.foldlM (step c) s = .ok s') :
    s'.rows.map Row.stateLen = s.rows.map Row.stateLen ++
        (script c us.length s.rows.length s.state).map (fun p => p.1.length) ∧
      s'.sent = s.sent ++ (script c us.length s.rows.length s.state).map Prod.snd := by
  induction us generalizing s with
  | nil =>
    cases h
    simp [script]
  | cons u us ih =>
    rw [List.foldlM_cons, bind_eq_ok] at h
    obtain ⟨t, ht, h⟩ := h
    obtain ⟨⟨sample, hrows⟩, hstate, hsent⟩ := step_script ht
    obtain ⟨hlens, hall⟩ := ih h
    have hlen : t.rows.length = s.rows.length + 1 := by simp [hrows]
    rw [hlens, hall, hlen, hstate, hrows, hsent, List.length_cons, script]
    simp

end Loop

/-! ## The two accounts -/

variable {blake3 : Bytes → Vector UInt8 32} {parameters : Bytes} {refused : Nat → Bool}

/-- No refused update of the `n` from the `i`-th on is followed by another one. -/
def LastRefused (refused : Nat → Bool) (i n : Nat) : Prop :=
  ∀ j, i ≤ j → j < i + n → refused j = true → j + 1 = i + n

variable (blake3 refused) in
theorem nodeAfter_growth (hp : (paramsOf parameters).isSome) (chunk i : Nat) (salt state held : Bytes) :
    (nodeAfter blake3 parameters refused i held (payload .growth chunk salt i state).2).length =
      held.length + if refused i then 0 else chunk := by
  have happ : applied blake3 parameters held
      (.delta (tagAppend :: List.replicate chunk 'x'.toUInt8)) =
        held ++ List.replicate chunk 'x'.toUInt8 :=
    applied_delta hp held (.append _)
  show (if refused i then held else applied blake3 parameters held (.delta _)).length = _
  rw [happ]
  split <;> simp

variable (blake3 refused) in
/-- The other arms leave the node with what it held. -/
theorem nodeAfter_still (hp : (paramsOf parameters).isSome) {arm : Arm} (ha : arm ≠ .growth)
    (chunk i : Nat) (salt held : Bytes) :
    (payload arm chunk salt i held).1 = held ∧
      nodeAfter blake3 parameters refused i held (payload arm chunk salt i held).2 = held := by
  have hnoop : ∀ tail, applied blake3 parameters held (.delta (tagNoop :: tail)) = held := fun tail =>
    (applied_delta hp held (.noop tail)).trans (List.append_nil held)
  have hfull : applied blake3 parameters held (.state held) = held := by
    rw [applied_state hp, longer, if_neg (lt_irrefl _)]
  cases arm with
  | growth => exact absurd rfl ha
  | distinctNoop =>
    refine ⟨rfl, ?_⟩
    show (if refused i then held else applied blake3 parameters held (.delta (tagNoop :: _))) = held
    rw [hnoop, ite_self]
  | repeatDelta =>
    refine ⟨rfl, ?_⟩
    show (if refused i then held else applied blake3 parameters held (.delta (tagNoop :: _))) = held
    rw [hnoop, ite_self]
  | repeatState =>
    refine ⟨rfl, ?_⟩
    show (if refused i then held else applied blake3 parameters held (.state held)) = held
    rw [hfull, ite_self]

theorem script_still {c : Conf Key} (hp : (paramsOf parameters).isSome) (ha : c.arm ≠ .growth)
    (n i : Nat) (held : Bytes) :
    (script c n i held).map (fun p => p.1.length) =
      (nodeStates blake3 parameters refused i held ((script c n i held).map Prod.snd)).map
        List.length := by
  induction n generalizing i with
  | zero => rfl
  | succ n ih =>
    obtain ⟨hstate, hnode⟩ :=
      nodeAfter_still blake3 refused hp ha c.chunk i c.salt held
    simp only [script, List.map_cons, nodeStates, hstate, hnode]
    rw [ih]

theorem lastRefused_succ {i n : Nat} :
    LastRefused refused i (n + 1) ↔ n = 0 ∨ refused i = false ∧ LastRefused refused (i + 1) n := by
  constructor
  · intro h
    by_cases hn : n = 0
    · exact .inl hn
    · refine .inr ⟨?_, fun j hj hlt hr => ?_⟩
      · cases hr : refused i with
        | false => rfl
        | true =>
          have := h i le_rfl (by omega) hr
          omega
      · have := h j (by omega) (by omega) hr
        omega
  · rintro (rfl | ⟨hi, h⟩) j hj hlt hr
    · omega
    · rcases Nat.eq_or_lt_of_le hj with rfl | hj
      · rw [hi] at hr
        cases hr
      · have := h j hj (by omega) hr
        omega

variable (blake3 refused) in
theorem script_growth {c : Conf Key} (hp : (paramsOf parameters).isSome) (ha : c.arm = .growth)
    (n i : Nat) (state held : Bytes) :
    (script c n i state).map (fun p => p.1.length) =
        (nodeStates blake3 parameters refused i held ((script c n i state).map Prod.snd)).map
          List.length ↔
      n = 0 ∨ state.length = held.length ∧ (c.chunk = 0 ∨ LastRefused refused i n) := by
  induction n generalizing i state held with
  | zero => simp [script, nodeStates]
  | succ n ih =>
    have hgrown : (payload c.arm c.chunk c.salt i state).1.length = state.length + c.chunk := by
      simp [ha, payload]
    have hnode := nodeAfter_growth blake3 refused hp c.chunk i c.salt
      state held
    rw [← ha] at hnode
    simp only [script, List.map_cons, nodeStates, List.cons.injEq]
    rw [ih, hgrown, hnode, lastRefused_succ]
    by_cases hlen : state.length = held.length
    · -- the next row agrees exactly when this update was not refused, or adds nothing
      have hnext : state.length + c.chunk = held.length + (if refused i then 0 else c.chunk) ↔
          c.chunk = 0 ∨ refused i = false := by
        cases refused i <;> simp [hlen]
      rw [hnext]
      by_cases hchunk : c.chunk = 0 <;> simp [hlen, hchunk]
    · simp [hlen]

/-- **When every row's length is that of the state the update ran against.** -/
theorem rows_match_iff [DecidableEq Key] (blake3 : Bytes → Vector UInt8 32) (mode : UInt8)
    (passes : UInt32) (c : Conf Key) (preload : Nat) (refused : Nat → Bool)
    {us : List (Update Key)} {s : State Key}
    (h : us.foldlM (step c) { state := seedState c preload } = .ok s) :
    s.rows.map Row.stateLen =
        (nodeStates blake3 (params mode passes c.salt) refused 0 (seedState c preload) s.sent).map
          List.length ↔
      c.arm ≠ .growth ∨ c.chunk = 0 ∨ LastRefused refused 0 us.length := by
  have hp : (paramsOf (params mode passes c.salt)).isSome := by rw [paramsOf_params]; rfl
  obtain ⟨hlens, hsent⟩ := foldlM_script h
  rw [hlens, hsent]
  by_cases ha : c.arm = .growth
  · have hgrow := script_growth blake3 refused hp ha us.length 0
      (seedState c preload) (seedState c preload)
    simp only [ha, ne_eq, not_true_eq_false, false_or]
    refine hgrow.trans ⟨?_, fun hl => .inr ⟨rfl, hl⟩⟩
    rintro (hn | ⟨-, hl⟩)
    · exact .inr fun j _ hlt _ => by omega
    · exact hl
  · exact iff_of_true (script_still hp ha us.length 0 (seedState c preload)) (.inl ha)

/-! ## Two appends -/

def appends : Conf Nat :=
  { key := 7, arm := .growth, chunk := 1, salt := List.replicate 16 0, wait := seconds 90 }

/-- Two updates a second apart, each answered at once. -/
def answeredAtOnce (first second : Response Nat) : List (Update Nat) :=
  [⟨0, .ok (), 0, some ⟨first, 0, 0⟩⟩,
    ⟨seconds 1, .ok (), seconds 1, some ⟨second, seconds 1, seconds 1⟩⟩]

/-- The node refuses the first append and holds 16 bytes as the second one arrives; the
row says 17. -/
theorem refused_append_counted :
    ((answeredAtOnce (.error "refused") (.updateResponse 7 "UpdateResponse")).foldlM (step appends)
        { state := seedState appends 0 }).map (fun s =>
      (s.rows.map Row.stateLen,
        (nodeStates (fun _ => Vector.replicate 32 0) (params 0 0 appends.salt) (· == 0) 0
          (seedState appends 0) s.sent).map List.length)) = .ok ([16, 17], [16, 16]) := by
  decide +kernel

/-- What the loop holds after the two, the second of them refused. -/
def afterTwo : State Nat where
  state := List.replicate 16 0 ++ [120, 120]
  rows := [⟨0, 16, .ms 0⟩, ⟨1, 17, .failed "node error: refused"⟩]
  sent := [.delta [1, 120], .delta [1, 120]]

theorem last_refused_match :
    afterTwo.rows.map Row.stateLen =
      (nodeStates (fun _ => Vector.replicate 32 0) (params 0 0 appends.salt) (· == 1) 0
        (seedState appends 0) afterTwo.sent).map List.length := by
  have hrun : (answeredAtOnce (.updateResponse 7 "UpdateResponse") (.error "refused")).foldlM
      (step appends) { state := seedState appends 0 } = .ok afterTwo := by decide +kernel
  refine (rows_match_iff _ 0 0 appends 0 (· == 1) hrun).mpr (.inr (.inr fun j _ hj hr => ?_))
  have : j = 1 := by simpa using hr
  subst this
  rfl

end FreenetHarness.ValidateCost
