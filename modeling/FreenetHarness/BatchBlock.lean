import Mathlib.Data.Nat.Basic
import Mathlib.Tactic.Ring.Basic
import FreenetHarness.Lib.Run

/-! # `batch-block`: does a batch of sends still block the client API?

An arm sends rounds of requests that nothing can answer, until a send does not return,
its target is made or its budget is spent. The control arm reads between its sends. The
run concludes from one boolean that every arm can set; `verdict_iff` says when that is
what the arms showed. -/
namespace FreenetHarness.BatchBlock
open FreenetHarness.Lib.Run

/-- How one send settles. -/
inductive Sent where
  | returned
  | refused (e : String)
  /-- It does not return within its deadline. -/
  | blocked
  deriving DecidableEq, Repr

/-- What ended an arm. -/
inductive Ended where
  | sendBlocked (atSend inRound index : Nat)
  | completed (sends : Nat)
  | outOfBudget (sends : Nat)
  deriving DecidableEq, Repr

def Ended.isBlocked : Ended → Bool
  | .sendBlocked _ _ _ => true
  | _ => false

/-- What an arm meets. -/
structure Meets where
  connected : Except String Unit
  /-- How many rounds can begin before the deadline. -/
  rounds : Nat
  /-- How each send settles. -/
  send : Nat → Sent

/-- One arm; `drain` is the control, which reads after each send and drops what it reads. -/
structure Arm where
  batch : Nat
  drain : Bool
  meets : Meets

/-- The sends of one round, `left` of them still to make. -/
def sendRound (send : Nat → Sent) (inRound : Nat) : Nat → Nat → Nat → Except Ended Nat
  | 0, _, sends => .ok sends
  | left + 1, i, sends => match send sends with
    | .returned => sendRound send inRound left (i + 1) (sends + 1)
    | .refused _ => .error (.completed sends)
    | .blocked => .error (.sendBlocked (sends + 1) inRound (i + 1))

/-- Rounds until the target is made, `left` of them within the budget. -/
def sendRounds (target batch : Nat) (send : Nat → Sent) : Nat → Nat → Nat → Ended
  | 0, _, sends => if target ≤ sends then .completed sends else .outOfBudget sends
  | left + 1, round, sends =>
    if target ≤ sends then .completed sends
    else match sendRound send (round + 1) batch 0 sends with
      | .error ended => ended
      | .ok sends => sendRounds target batch send left (round + 1) sends

/-- The ending of an arm that is connected. -/
def Arm.ending (target : Nat) (a : Arm) : Ended :=
  sendRounds target a.batch a.meets.send a.meets.rounds 0 0

def arm (target : Nat) (a : Arm) : Except String Ended :=
  a.meets.connected.map fun () => a.ending target

/-- A line of the report. -/
structure Line where
  batch : Nat
  drain : Bool
  outcome : Ended
  deriving DecidableEq, Repr

structure Report where
  lines : List Line := []
  anyBlocked : Bool := false
  deriving DecidableEq, Repr

/-- The arms of a run, in order: each batch size batched and then one at a time. -/
def arms (batches : List Nat) (meets : Nat → Bool → Meets) : List Arm :=
  batches.zipIdx.flatMap fun (batch, i) => [false, true].map fun drain =>
    { batch, drain, meets := meets i drain }

def runArm (target : Nat) (r : Report) (a : Arm) : Except String Report := do
  let outcome ← arm target a
  return { lines := r.lines ++ [⟨a.batch, a.drain, outcome⟩]
           anyBlocked := outcome.isBlocked || r.anyBlocked }

def run (target : Nat) (batches : List Nat) (meets : Nat → Bool → Meets) : Except String Report :=
  (arms batches meets).foldlM (runArm target) {}

inductive Verdict where
  | reproduces
  | doesNotReproduce
  deriving DecidableEq, Repr

def Verdict.text : Verdict → String
  | .reproduces => "REPRODUCES: at least one batched arm blocked its own send."
  | .doesNotReproduce => "DOES NOT REPRODUCE at this send count. That is evidence the batched\n" ++
    "form no longer blocks here, NOT proof it cannot: the original deaths\n" ++
    "were non-deterministic, and two of five landed in the first round."

def Report.verdict (r : Report) : Verdict := if r.anyBlocked then .reproduces else .doesNotReproduce

/-! ## What the arms showed -/

/-- The verdict says of the batched arms what happened to them, and no arm counts as
completed that has not made its target. -/
structure Right (target : Nat) (r : Report) : Prop where
  completed : ∀ l ∈ r.lines, ∀ sends, l.outcome = .completed sends → target ≤ sends
  reproduces : r.verdict = .reproduces ↔
    ∃ l ∈ r.lines, l.drain = false ∧ l.outcome.isBlocked = true
  doesNotReproduce : r.verdict = .doesNotReproduce →
    ∀ l ∈ r.lines, l.drain = false → ∃ sends, l.outcome = .completed sends

/-- An arm comes to its `k`-th send: every earlier one returned, and its round begins
within the budget and short of the target. -/
structure Arm.Reaches (target : Nat) (a : Arm) (k : Nat) : Prop where
  budget : k < a.batch * a.meets.rounds
  short : k / a.batch * a.batch < target
  returned : ∀ j < k, a.meets.send j = .returned

/-- A send that the arm comes to does not return. -/
def Arm.Blocks (target : Nat) (a : Arm) : Prop :=
  ∃ k, a.Reaches target k ∧ a.meets.send k = .blocked

/-- Every send returns, and the budget is too small for the target. -/
def Arm.RunsOut (target : Nat) (a : Arm) : Prop :=
  a.batch * a.meets.rounds < target ∧ ∀ k < a.batch * a.meets.rounds, a.meets.send k = .returned

/-- No arm's send is refused short of its target; a control blocks only when a batched
arm does; and where none blocks, no batched arm runs out of budget. -/
structure Conclusive (target : Nat) (as : List Arm) : Prop where
  refused : ∀ a ∈ as, ∀ k < target, a.Reaches target k → ∀ e, a.meets.send k ≠ .refused e
  control : (∃ a ∈ as, a.drain = true ∧ a.Blocks target) →
    ∃ a ∈ as, a.drain = false ∧ a.Blocks target
  budget : (∃ a ∈ as, a.Blocks target) ∨ ∀ a ∈ as, a.drain = false → ¬ a.RunsOut target

/-! ## One arm -/

/-- The ways an arm can end, and the send or the count that ends it. -/
inductive Arm.Ends (target : Nat) (a : Arm) : Ended → Prop where
  | refused {k : Nat} {e : String} (h : a.Reaches target k) (hk : a.meets.send k = .refused e) :
    Ends target a (.completed k)
  | blocked {k : Nat} (inRound index : Nat) (h : a.Reaches target k)
    (hk : a.meets.send k = .blocked) : Ends target a (.sendBlocked (k + 1) inRound index)
  | completed {rounds : Nat} (hle : rounds ≤ a.meets.rounds) (h : target ≤ a.batch * rounds)
    (hr : ∀ j < a.batch * rounds, a.meets.send j = .returned) :
    Ends target a (.completed (a.batch * rounds))
  | outOfBudget (h : a.RunsOut target) : Ends target a (.outOfBudget (a.batch * a.meets.rounds))

variable {target : Nat} {a : Arm}

/-- A round within the budget and short of the target goes on, or ends the arm at one of
its sends. -/
theorem sendRound_spec (target : Nat) {round : Nat} (hround : round < a.meets.rounds)
    (hshort : a.batch * round < target) {left i : Nat} (hi : i + left = a.batch)
    (hr : ∀ j < a.batch * round + i, a.meets.send j = .returned) :
    (sendRound a.meets.send (round + 1) left i (a.batch * round + i) = .ok (a.batch * (round + 1)) ∧
        ∀ j < a.batch * (round + 1), a.meets.send j = .returned) ∨
      ∃ ended, sendRound a.meets.send (round + 1) left i (a.batch * round + i) = .error ended ∧
        a.Ends target ended := by
  induction left generalizing i with
  | zero =>
    have hend : a.batch * round + i = a.batch * (round + 1) := by
      rw [Nat.mul_succ]
      omega
    rw [hend] at hr ⊢
    exact .inl ⟨rfl, hr⟩
  | succ left ih =>
    have hreach : a.Reaches target (a.batch * round + i) := by
      refine ⟨?_, ?_, hr⟩
      · calc a.batch * round + i < a.batch * (round + 1) := by rw [Nat.mul_succ]; omega
          _ ≤ a.batch * a.meets.rounds := Nat.mul_le_mul_left _ hround
      · have hdiv : (a.batch * round + i) / a.batch = round := by
          rw [Nat.mul_add_div (by omega), Nat.div_eq_of_lt (by omega), Nat.add_zero]
        rwa [hdiv, Nat.mul_comm]
    rw [sendRound]
    cases hs : a.meets.send (a.batch * round + i) with
    | returned =>
      refine ih (by omega) fun j hj => ?_
      rcases Nat.lt_succ_iff_lt_or_eq.mp hj with hj | rfl
      · exact hr j hj
      · exact hs
    | refused e => exact .inr ⟨_, rfl, .refused hreach hs⟩
    | blocked => exact .inr ⟨_, rfl, .blocked _ _ hreach hs⟩

theorem sendRounds_ends {left round : Nat} (hleft : round + left = a.meets.rounds)
    (hr : ∀ j < a.batch * round, a.meets.send j = .returned) :
    a.Ends target (sendRounds target a.batch a.meets.send left round (a.batch * round)) := by
  induction left generalizing round with
  | zero =>
    rw [sendRounds]
    split
    · rename_i hmade
      exact .completed (by omega) hmade hr
    · rename_i hshort
      obtain rfl : round = a.meets.rounds := hleft
      exact .outOfBudget ⟨by omega, hr⟩
  | succ left ih =>
    rw [sendRounds]
    split
    · rename_i hmade
      exact .completed (by omega) hmade hr
    · rename_i hshort
      have hspec := sendRound_spec target (i := 0) (by omega) (Nat.lt_of_not_le hshort)
        (Nat.zero_add _) hr
      simp only [Nat.add_zero] at hspec
      rcases hspec with ⟨hround, hr⟩ | ⟨ended, hround, hends⟩
      · rw [hround]
        exact ih (by omega) hr
      · rw [hround]
        exact hends

/-- **How an arm ends.** -/
theorem Arm.ends_ending (target : Nat) (a : Arm) : a.Ends target (a.ending target) := by
  have hnone : ∀ j < a.batch * 0, a.meets.send j = .returned := by simp
  have h : a.Ends target _ := sendRounds_ends (Nat.zero_add _) hnone
  rwa [Nat.mul_zero] at h

/-- An arm comes to no send but the first that does not return. -/
theorem Arm.Reaches.unique {k l : Nat} (hk : a.Reaches target k) (hl : a.Reaches target l)
    (hks : a.meets.send k ≠ .returned) (hls : a.meets.send l ≠ .returned) : k = l := by
  rcases Nat.lt_trichotomy k l with h | h | h
  · exact absurd (hl.returned k h) hks
  · exact h
  · exact absurd (hk.returned l h) hls

/-- Once whole rounds have made the target, an arm comes to no send. -/
theorem Arm.Reaches.lt_of_rounds {k rounds : Nat} (hk : a.Reaches target k)
    (h : target ≤ a.batch * rounds) : k < a.batch * rounds := by
  by_contra hle
  have hpos : 0 < a.batch := Nat.pos_of_mul_pos_right (Nat.lt_of_le_of_lt (Nat.zero_le _) hk.budget)
  have hdiv : rounds ≤ k / a.batch := by
    rw [Nat.le_div_iff_mul_le hpos, Nat.mul_comm]
    omega
  have hmul := Nat.mul_le_mul_left a.batch hdiv
  have hshort := hk.short
  rw [Nat.mul_comm] at hshort
  omega

theorem Arm.isBlocked_ending : (a.ending target).isBlocked = true ↔ a.Blocks target := by
  have hends := a.ends_ending target
  generalize a.ending target = ended at hends
  constructor
  · intro hb
    cases hends with
    | blocked inRound index h hk => exact ⟨_, h, hk⟩
    | refused h hk => cases hb
    | completed hle h hr => cases hb
    | outOfBudget h => cases hb
  · rintro ⟨k, hk, hs⟩
    cases hends with
    | blocked inRound index h hk => rfl
    | refused h he =>
      obtain rfl := hk.unique h (by simp [hs]) (by simp [he])
      rw [hs] at he
      cases he
    | completed hle h hr =>
      rw [hr k (hk.lt_of_rounds h)] at hs
      cases hs
    | outOfBudget h =>
      rw [h.2 k hk.budget] at hs
      cases hs

theorem Arm.completed_short_iff :
    (∃ sends, a.ending target = .completed sends ∧ sends < target) ↔
      ∃ k < target, a.Reaches target k ∧ ∃ e, a.meets.send k = .refused e := by
  have hends := a.ends_ending target
  generalize a.ending target = ended at hends
  constructor
  · rintro ⟨sends, rfl, hlt⟩
    cases hends with
    | refused h hk => exact ⟨sends, hlt, h, _, hk⟩
    | completed hle h hr => omega
  · rintro ⟨k, hlt, hk, e, hs⟩
    cases hends with
    | refused h he =>
      obtain rfl := hk.unique h (by simp [hs]) (by simp [he])
      exact ⟨k, rfl, hlt⟩
    | blocked inRound index h hb =>
      obtain rfl := hk.unique h (by simp [hs]) (by simp [hb])
      rw [hs] at hb
      cases hb
    | completed hle h hr =>
      rw [hr k (hk.lt_of_rounds h)] at hs
      cases hs
    | outOfBudget h =>
      rw [h.2 k hk.budget] at hs
      cases hs

theorem Arm.outOfBudget_iff :
    (∃ sends, a.ending target = .outOfBudget sends) ↔ a.RunsOut target := by
  have hends := a.ends_ending target
  generalize a.ending target = ended at hends
  constructor
  · rintro ⟨sends, rfl⟩
    cases hends with
    | outOfBudget h => exact h
  · intro hout
    cases hends with
    | outOfBudget h => exact ⟨_, rfl⟩
    | refused h hk =>
      rw [hout.2 _ h.budget] at hk
      cases hk
    | blocked inRound index h hk =>
      rw [hout.2 _ h.budget] at hk
      cases hk
    | completed hle h hr =>
      have hmul := Nat.mul_le_mul_left a.batch hle
      have hlt := hout.1
      omega

/-! ## A run -/

/-- A run that concludes has a line for each of its arms. -/
theorem run_eq {as : List Arm} {r r' : Report} (h : as.foldlM (runArm target) r = .ok r') :
    r'.lines = r.lines ++ as.map (fun a => ⟨a.batch, a.drain, a.ending target⟩) ∧
      (r'.anyBlocked = true ↔
        r.anyBlocked = true ∨ ∃ a ∈ as, (a.ending target).isBlocked = true) := by
  induction as generalizing r with
  | nil =>
    cases h
    simp
  | cons a as ih =>
    rw [List.foldlM_cons, bind_eq_ok] at h
    obtain ⟨r₁, hr₁, h⟩ := h
    obtain ⟨hlines, hblocked⟩ := ih h
    unfold runArm at hr₁
    obtain ⟨outcome, harm, hr₁⟩ := bind_eq_ok.mp hr₁
    cases hr₁
    have hout : a.ending target = outcome := by
      unfold arm at harm
      cases hc : a.meets.connected with
      | error e => rw [hc] at harm; cases harm
      | ok u => rw [hc] at harm; exact Except.ok.inj harm
    subst hout
    refine ⟨?_, ?_⟩
    · rw [hlines, List.map_cons, List.append_assoc, List.singleton_append]
    · rw [hblocked, Bool.or_eq_true, List.exists_mem_cons_iff]
      tauto

section Report

variable {batches : List Nat} {meets : Nat → Bool → Meets} {r : Report}

theorem mem_lines (h : run target batches meets = .ok r) {l : Line} :
    l ∈ r.lines ↔ ∃ a ∈ arms batches meets, ⟨a.batch, a.drain, a.ending target⟩ = l := by
  rw [(run_eq h).1, List.nil_append, List.mem_map]

theorem reproduces_iff (h : run target batches meets = .ok r) :
    r.verdict = .reproduces ↔ ∃ a ∈ arms batches meets, a.Blocks target := by
  have hblocked := (run_eq h).2
  simp only [Arm.isBlocked_ending, Bool.false_eq_true, false_or] at hblocked
  rw [← hblocked, Report.verdict]
  cases r.anyBlocked <;> simp

theorem doesNotReproduce_iff (h : run target batches meets = .ok r) :
    r.verdict = .doesNotReproduce ↔ ¬ ∃ a ∈ arms batches meets, a.Blocks target := by
  rw [← reproduces_iff h]
  cases r.verdict <;> simp

theorem completed_right_iff (h : run target batches meets = .ok r) :
    (∀ l ∈ r.lines, ∀ sends, l.outcome = .completed sends → target ≤ sends) ↔
      ∀ a ∈ arms batches meets, ∀ k < target, a.Reaches target k →
        ∀ e, a.meets.send k ≠ .refused e := by
  constructor
  · intro hright a ha k hk hreach e hs
    obtain ⟨sends, hend, hlt⟩ := Arm.completed_short_iff.mpr ⟨k, hk, hreach, e, hs⟩
    have hle := hright _ ((mem_lines h).mpr ⟨a, ha, rfl⟩) sends hend
    omega
  · intro hc l hl sends hs
    obtain ⟨a, ha, rfl⟩ := (mem_lines h).mp hl
    by_contra hlt
    obtain ⟨k, hk, hreach, e, he⟩ := Arm.completed_short_iff.mp ⟨sends, hs, by omega⟩
    exact hc a ha k hk hreach e he

theorem reproduces_right_iff (h : run target batches meets = .ok r) :
    (r.verdict = .reproduces ↔ ∃ l ∈ r.lines, l.drain = false ∧ l.outcome.isBlocked = true) ↔
      ((∃ a ∈ arms batches meets, a.drain = true ∧ a.Blocks target) →
        ∃ a ∈ arms batches meets, a.drain = false ∧ a.Blocks target) := by
  have hbatched : (∃ l ∈ r.lines, l.drain = false ∧ l.outcome.isBlocked = true) ↔
      ∃ a ∈ arms batches meets, a.drain = false ∧ a.Blocks target := by
    simp only [mem_lines h, exists_exists_and_eq_and, Arm.isBlocked_ending]
  rw [reproduces_iff h, hbatched]
  constructor
  · intro hiff hcontrol
    obtain ⟨a, ha, -, hb⟩ := hcontrol
    exact hiff.mp ⟨a, ha, hb⟩
  · intro hcontrol
    refine ⟨fun hany => ?_, fun hb => ?_⟩
    · obtain ⟨a, ha, hb⟩ := hany
      cases hd : a.drain with
      | false => exact ⟨a, ha, hd, hb⟩
      | true => exact hcontrol ⟨a, ha, hd, hb⟩
    · obtain ⟨a, ha, -, hb⟩ := hb
      exact ⟨a, ha, hb⟩

theorem doesNotReproduce_right_iff (h : run target batches meets = .ok r) :
    (r.verdict = .doesNotReproduce →
        ∀ l ∈ r.lines, l.drain = false → ∃ sends, l.outcome = .completed sends) ↔
      (∃ a ∈ arms batches meets, a.Blocks target) ∨
        ∀ a ∈ arms batches meets, a.drain = false → ¬ a.RunsOut target := by
  rw [doesNotReproduce_iff h]
  by_cases hany : ∃ a ∈ arms batches meets, a.Blocks target
  · exact iff_of_true (fun hno => absurd hany hno) (.inl hany)
  have hcompleted : ∀ a ∈ arms batches meets,
      (∃ sends, a.ending target = .completed sends) ↔ ¬ a.RunsOut target := by
    intro a ha
    rw [← Arm.outOfBudget_iff]
    cases hend : a.ending target with
    | completed sends => simp
    | outOfBudget sends => simp
    | sendBlocked k round index =>
      exact absurd ⟨a, ha, Arm.isBlocked_ending.mp (by rw [hend]; rfl)⟩ hany
  constructor
  · intro hright
    refine .inr fun a ha hd => (hcompleted a ha).mp ?_
    exact hright hany _ ((mem_lines h).mpr ⟨a, ha, rfl⟩) hd
  · intro hc _ l hl hd
    obtain ⟨a, ha, rfl⟩ := (mem_lines h).mp hl
    exact (hcompleted a ha).mpr (hc.resolve_left hany a ha hd)

/-- **When the verdict says what the batched arms showed.** -/
theorem verdict_iff (h : run target batches meets = .ok r) :
    Right target r ↔ Conclusive target (arms batches meets) := by
  constructor
  · intro hr
    exact ⟨(completed_right_iff h).mp hr.completed, (reproduces_right_iff h).mp hr.reproduces,
      (doesNotReproduce_right_iff h).mp hr.doesNotReproduce⟩
  · intro hc
    exact ⟨(completed_right_iff h).mpr hc.refused, (reproduces_right_iff h).mpr hc.control,
      (doesNotReproduce_right_iff h).mpr hc.budget⟩

end Report

/-! ## Two runs -/

/-- What an arm meets whose `k`-th send settles so, every earlier one having returned. -/
def meetsAt (rounds k : Nat) (sent : Sent) : Meets :=
  ⟨.ok (), rounds, fun j => if j = k then sent else .returned⟩

/-- The batched arm has one round for its two sends and makes them; the control's second
send blocks. -/
def controlBlocks : Nat → Bool → Meets
  | _, false => meetsAt 1 2 .returned
  | _, true => meetsAt 1 1 .blocked

theorem control_blocks_reproduces :
    run 2 [2] controlBlocks =
        .ok ⟨[⟨2, false, .completed 2⟩, ⟨2, true, .sendBlocked 2 1 2⟩], true⟩ ∧
      ¬ Right 2 ⟨[⟨2, false, .completed 2⟩, ⟨2, true, .sendBlocked 2 1 2⟩], true⟩ := by
  refine ⟨rfl, fun h => ?_⟩
  obtain ⟨l, hl, hd, hb⟩ := h.reproduces.mp rfl
  simp only [List.mem_cons, List.not_mem_nil, or_false] at hl
  rcases hl with rfl | rfl
  · cases hb
  · cases hd

/-- Both arms make their two sends. -/
theorem both_complete_right :
    Right 2 ⟨[⟨2, false, .completed 2⟩, ⟨2, true, .completed 2⟩], false⟩ := by
  have hrun : run 2 [2] (fun _ _ => meetsAt 1 2 .returned) =
      .ok ⟨[⟨2, false, .completed 2⟩, ⟨2, true, .completed 2⟩], false⟩ := rfl
  have hreturned : ∀ a ∈ arms [2] (fun _ _ => meetsAt 1 2 .returned),
      ∀ k, a.meets.send k = .returned := by
    intro a ha k
    obtain rfl | rfl : a = ⟨2, false, meetsAt 1 2 .returned⟩ ∨
        a = ⟨2, true, meetsAt 1 2 .returned⟩ := by simpa [arms] using ha
    · exact ite_self _
    · exact ite_self _
  refine (verdict_iff hrun).mpr ⟨fun a ha k _ _ e hs => ?_, fun hb => ?_, .inr fun a ha _ hout => ?_⟩
  · rw [hreturned a ha k] at hs
    cases hs
  · obtain ⟨a, ha, -, k, -, hs⟩ := hb
    rw [hreturned a ha k] at hs
    cases hs
  · have hlt := hout.1
    obtain rfl | rfl : a = ⟨2, false, meetsAt 1 2 .returned⟩ ∨
        a = ⟨2, true, meetsAt 1 2 .returned⟩ := by simpa [arms] using ha
    · exact absurd hlt (by decide)
    · exact absurd hlt (by decide)

end FreenetHarness.BatchBlock
