import FreenetHarness.Parity.Reput
import FreenetHarness.XNode.PutMinted

/-! # The wait for stragglers

Once every trial is sent and marked, the put role's loop waits only for acknowledgements
and read-backs that are late, for as long as `settle` says. The code counts that wait from
before the loop; `promised_iff` says which runs are sure to get all of it. -/
namespace FreenetHarness.XNode.PutMinted
open FreenetHarness.Lib.Number FreenetHarness.Lib.Run

/-- The states the exits are decided in, one for each pass. -/
def checks (c : Conf) : State → List Pass → List State
  | _, [] => []
  | s, p :: ps =>
    if (s.tick p.check).clock < c.budget then
      match pass c (s.tick p.check) p with
      | .error _ => []
      | .ok s' => s' :: if (exit c s').isNone then checks c s' ps else []
    else []

/-- Every planned trial was sent, and every trial was marked. -/
def ready (c : Conf) (s : State) : Bool := allSent c s && allMarked s

def firstReady (c : Conf) (clock : Nat) (ps : List Pass) : Option State :=
  (checks c (start clock) ps).find? (ready c)

/-- Enough conditioned trials in each arm. -/
def Milestone (c : Conf) (s : State) : Prop :=
  0 < c.untilConditioned ∧ c.untilConditioned ≤ conditioned s .control ∧
    c.untilConditioned ≤ conditioned s .hedge

instance (c : Conf) (s : State) : Decidable (Milestone c s) := by
  unfold Milestone
  infer_instance

/-- Nothing is left to wait for but stragglers. -/
structure Waiting (c : Conf) (s : State) : Prop where
  ready : ready c s = true
  unsettled : allSettled s = false
  below : ¬ Milestone c s

/-! ## The exit -/

theorem exit_nothingFurther {c : Conf} {s : State} :
    exit c s = some .nothingFurther ↔ ¬ Milestone c s ∧ ready c s = true ∧
      (allSettled s = true ∨ settle ≤ s.clock - c.started) := by
  show (if Milestone c s then _ else _) = _ ↔ _
  by_cases hm : Milestone c s
  · simp [hm]
  · rw [if_neg hm, ← ready]
    cases ready c s <;> cases allSettled s <;> simp [hm]

/-- The loop leaves at the one check whose exit says so. -/
theorem loop_left {c : Conf} {s x : State} {ps : List Pass} :
    loop c s ps = .left x .nothingFurther ↔
      x ∈ checks c s ps ∧ exit c x = some .nothingFurther := by
  induction ps generalizing s with
  | nil => simp [loop, checks]
  | cons p ps ih =>
    rw [loop, checks]
    split
    · cases pass c (s.tick p.check) p with
      | error e => simp
      | ok t =>
        dsimp only
        cases ht : exit c t with
        | none =>
          dsimp only
          rw [ih, Option.isNone_none, if_pos rfl, List.mem_cons]
          constructor
          · exact fun h => ⟨.inr h.1, h.2⟩
          · rintro ⟨rfl | h, hx⟩
            · rw [ht] at hx; cases hx
            · exact ⟨h, hx⟩
        | some y =>
          dsimp only
          rw [Option.isNone_some, if_neg Bool.false_ne_true, List.mem_singleton]
          constructor
          · intro h
            cases h
            exact ⟨rfl, ht⟩
          · rintro ⟨rfl, hx⟩
            rw [ht] at hx
            cases hx
            rfl
    · simp

/-! ## Which runs wait -/

/-- If the loop leaves because nothing further can change, with a trial unsettled, then
`settle` has gone by since every trial was sent and marked. -/
def Waits (c : Conf) (clock : Nat) (ps : List Pass) : Prop :=
  ∀ s, loop c (start clock) ps = .left s .nothingFurther → allSettled s = false →
    ∃ first, firstReady c clock ps = some first ∧ first.clock + settle ≤ s.clock

/-- No check of a run that waits leaves with `settle` gone by since the loop's start alone. -/
theorem Waits.not_hasty {c : Conf} {clock : Nat} {ps : List Pass} {first s : State}
    (h : Waits c clock ps) (hf : firstReady c clock ps = some first)
    (hs : s ∈ checks c (start clock) ps) (hw : Waiting c s) :
    ¬ (settle ≤ s.clock - c.started ∧ s.clock < first.clock + settle) := by
  rintro ⟨hlo, hhi⟩
  have hleft : loop c (start clock) ps = .left s .nothingFurther :=
    loop_left.mpr ⟨hs, exit_nothingFurther.mpr ⟨hw.below, hw.ready, .inr hlo⟩⟩
  obtain ⟨first', hf', hle⟩ := h s hleft hw.unsettled
  obtain rfl : first = first' := Option.some.inj (hf.symm.trans hf')
  omega

/-- Exactly those runs wait that have no waiting check that reads the clock when `settle` has
gone by since the loop's start and not since the first ready check. -/
theorem waits_iff (c : Conf) (clock : Nat) (ps : List Pass) :
    Waits c clock ps ↔
      ∀ first, firstReady c clock ps = some first →
        ∀ s ∈ checks c (start clock) ps, Waiting c s →
          ¬ (settle ≤ s.clock - c.started ∧ s.clock < first.clock + settle) := by
  constructor
  · exact fun h first hf s hs hw => h.not_hasty hf hs hw
  · intro h s hleft hu
    obtain ⟨hs, hx⟩ := loop_left.mp hleft
    obtain ⟨hm, hr, hlo⟩ := exit_nothingFurther.mp hx
    have hsome : (firstReady c clock ps).isSome := List.find?_isSome.mpr ⟨s, hs, hr⟩
    obtain ⟨first, hf⟩ := Option.isSome_iff_exists.mp hsome
    refine ⟨first, hf, Nat.le_of_not_lt fun hhi => h first hf s hs ⟨hr, hu, hm⟩ ⟨?_, hhi⟩⟩
    rcases hlo with hlo | hlo
    · rw [hu] at hlo; cases hlo
    · exact hlo

/-! ## A run that can leave too soon -/

theorem checks_append {c : Conf} {s s' : State} {ps qs : List Pass}
    (h : loop c s ps = .running s') : checks c s (ps ++ qs) = checks c s ps ++ checks c s' qs := by
  induction ps generalizing s with
  | nil => cases h; rfl
  | cons p ps ih =>
    rw [loop] at h
    rw [List.cons_append, checks, checks]
    split at h
    · rename_i hb
      rw [if_pos hb, if_pos hb]
      cases hp : pass c (s.tick p.check) p with
      | error e => rw [hp] at h; cases h
      | ok t =>
        rw [hp] at h
        dsimp only at h ⊢
        cases hx : exit c t with
        | some x => rw [hx] at h; cases h
        | none =>
          rw [hx] at h
          rw [Option.isNone_none, if_pos rfl, if_pos rfl, ih h, List.cons_append]
    · cases h

/-- A pass that meets nothing and takes `d` to its exit. -/
def idlePass (d : Nat) : Pass where
  check := 0
  send := { before := 0, sentNs := 0, sent := .ok (), took := 0 }
  acks := []
  now := 0
  rePut _ := { sent := .ok (), took := 0 }
  look := { found := .ok none, took := 0 }
  leave := d

theorem foldlM_marks {c : Conf} {s : State} (hm : allMarked s = true) (rePut : Nat → RePut)
    (is : List Nat) : (is.map fun i => .mark i (rePut i)).foldlM (step c) s = .ok s := by
  induction is with
  | nil => rfl
  | cons i is ih =>
    have hone : step c s (.mark i (rePut i)) = .ok s := by
      rw [step, markTrial]
      split
      · rename_i d t _ ht
        have := List.all_eq_true.mp hm t (List.mem_of_getElem? ht)
        rw [this, Bool.true_or, if_pos rfl]
      · rfl
    rw [List.map_cons, List.foldlM_cons, hone]
    exact ih

theorem pass_idle {c : Conf} {s : State} (hr : ready c s = true) (d : Nat) :
    ∃ s', pass c s (idlePass d) = .ok s' ∧ s'.trials = s.trials ∧ s'.toSend = s.toSend ∧
      s'.clock = s.clock + d := by
  obtain ⟨hs, hm⟩ := Bool.and_eq_true_iff.mp hr
  have hsend : sendNext c s (idlePass d).send = .ok s := by
    rw [sendNext, beq_iff_eq.mp hs, List.getElem?_eq_none le_rfl]
  let s₁ : State := { s.tick 0 with now := s.clock + 0 }
  have hmarks := foldlM_marks (c := c) (s := s₁) hm (idlePass d).rePut (List.range (trialsIn c s))
  have hlook : ∃ next, look s₁ (idlePass d).look = .ok { s₁ with next } := by
    unfold look
    split
    · exact ⟨_, rfl⟩
    · exact ⟨_, rfl⟩
  obtain ⟨next, hlook⟩ := hlook
  refine ⟨State.tick { s₁ with next } d, ?_, rfl, rfl, rfl⟩
  unfold pass Pass.events
  rw [List.foldlM_append, List.foldlM_append, bind_assoc]
  refine bind_eq_ok.mpr ⟨s, ?_, bind_eq_ok.mpr ⟨s₁, hmarks, ?_⟩⟩
  · exact bind_eq_ok.mpr ⟨s, hsend, rfl⟩
  · exact bind_eq_ok.mpr ⟨_, hlook, rfl⟩

/-- A loop that goes on did not leave at its last check. -/
theorem exit_of_running {c : Conf} {s s' : State} {ps : List Pass}
    (h : loop c s ps = .running s') : s' = s ∨ exit c s' = none := by
  induction ps generalizing s with
  | nil =>
    cases h
    exact .inl rfl
  | cons p ps ih =>
    rw [loop] at h
    split at h
    · cases hp : pass c (s.tick p.check) p with
      | error e => rw [hp] at h; cases h
      | ok t =>
        rw [hp] at h
        dsimp only at h
        cases hx : exit c t with
        | some x => rw [hx] at h; cases h
        | none =>
          rw [hx] at h
          rcases ih h with rfl | hs
          · exact .inr hx
          · exact .inr hs
    · cases h

/-- While the loop waits, `settle` has not gone by since its start. -/
theorem Waiting.clock_le {c : Conf} {clock : Nat} {ps : List Pass} {s : State}
    (hw : Waiting c s) (hrun : loop c (start clock) ps = .running s) :
    s.clock ≤ c.started + settle := by
  rcases exit_of_running hrun with rfl | hx
  · cases hw.unsettled
  · by_contra hlt
    have hleft := exit_nothingFurther.mpr ⟨hw.below, hw.ready, .inr (by omega)⟩
    rw [hx] at hleft
    cases hleft

theorem firstReady_append {c : Conf} {clock : Nat} {ps qs : List Pass} {s first : State}
    (hrun : loop c (start clock) ps = .running s) (hf : firstReady c clock ps = some first) :
    firstReady c clock (ps ++ qs) = some first := by
  rw [firstReady, checks_append hrun, List.find?_append, ← firstReady, hf, Option.some_or]

/-- Every delay of the last send counts: a run that first gets ready after the loop's start
can go on to leave too soon. -/
theorem exists_hasty {c : Conf} {clock : Nat} {ps : List Pass} {s first : State}
    (hrun : loop c (start clock) ps = .running s) (hf : firstReady c clock ps = some first)
    (hw : Waiting c s) (hlate : c.started < first.clock) (hb : s.clock < c.budget) :
    ∃ p, ¬ Waits c clock (ps ++ [p]) := by
  have hs := hw.clock_le hrun
  obtain ⟨s', hp, ht, hn, hc⟩ := pass_idle hw.ready (c.started + settle - s.clock)
  refine ⟨idlePass (c.started + settle - s.clock), fun h => ?_⟩
  have hcheck : checks c (start clock) (ps ++ [idlePass (c.started + settle - s.clock)]) =
      checks c (start clock) ps ++ [s'] := by
    rw [checks_append hrun, checks]
    have htick : s.tick (idlePass (c.started + settle - s.clock)).check = s := rfl
    rw [htick, if_pos hb, hp]
    simp [checks]
  have hfirst : firstReady c clock (ps ++ [idlePass (c.started + settle - s.clock)]) =
      some first := firstReady_append hrun hf
  have hw' : Waiting c s' := by
    refine ⟨?_, ?_, ?_⟩
    · rw [ready, allSent, allMarked, ht, hn]; exact hw.ready
    · rw [allSettled, ht]; exact hw.unsettled
    · unfold Milestone conditioned; rw [ht]; exact hw.below
  have hmem : s' ∈ checks c (start clock) (ps ++ [idlePass (c.started + settle - s.clock)]) := by
    rw [hcheck]; simp
  exact h.not_hasty hfirst hmem hw' ⟨by omega, by omega⟩

theorem waits_of_ready_by_start {c : Conf} {clock : Nat} {ps : List Pass}
    (h : ∀ first, firstReady c clock ps = some first → first.clock ≤ c.started) :
    Waits c clock ps := by
  refine (waits_iff c clock ps).mpr fun first hf s _ _ hs => ?_
  have hfirst := h first hf
  have hsettle : 0 < settle := by decide
  omega

/-- **Which runs are promised the wait.** A run waits if everything was sent and marked by the
clock reading that the wait is counted from. Of a run that is waiting and has budget left, every
way to go on waits exactly then. -/
theorem promised_iff (c : Conf) (clock : Nat) :
    (∀ ps, (∀ first, firstReady c clock ps = some first → first.clock ≤ c.started) →
      Waits c clock ps) ∧
    ∀ (ps : List Pass) (s first : State), loop c (start clock) ps = .running s →
      firstReady c clock ps = some first → Waiting c s → s.clock < c.budget →
        ((∀ qs, Waits c clock (ps ++ qs)) ↔ first.clock ≤ c.started) := by
  refine ⟨fun ps => waits_of_ready_by_start, fun ps s first hrun hf hw hb => ⟨fun h => ?_, ?_⟩⟩
  · by_contra hlate
    obtain ⟨p, hp⟩ := exists_hasty hrun hf hw (by omega) hb
    exact hp (h [p])
  · intro hle qs
    refine waits_of_ready_by_start fun first' hf' => ?_
    rw [firstReady_append hrun hf] at hf'
    cases hf'
    exact hle

/-! ## Two sends that outlast the wait -/

/-- Two blocks to put, with no hedge. -/
def twoBlocks : Conf where
  crates := Parity.zeroHash
  code := []
  plan := [⟨Parity.zeroSeed, 16, .control⟩, ⟨Parity.zeroSeed, 32, .control⟩]
  hedge := none
  untilConditioned := 0
  started := 0
  budget := 600000000000

/-- Sends that take no time: the loop leaves when all of the wait is over. -/
theorem quick_sends_wait :
    (∃ s, loop twoBlocks (start 0) [idlePass 0, idlePass 0, idlePass settle] =
      .left s .nothingFurther ∧ allSettled s = false) ∧
      Waits twoBlocks 0 [idlePass 0, idlePass 0, idlePass settle] := by
  refine ⟨⟨_, rfl, rfl⟩, (promised_iff twoBlocks 0).1 _ fun first hf => ?_⟩
  cases hf
  exact le_rfl

/-- A pass whose send takes 40 s. -/
def slowSend : Pass := { idlePass 0 with
  send := { before := 0, sentNs := 1, sent := .ok (), took := 40000000000 } }

/-- The second block goes out after 80 s, and the loop leaves in that pass: it does not wait
for its acknowledgement at all. -/
theorem sends_outlast_wait :
    (∃ s, loop twoBlocks (start 0) [slowSend, slowSend] = .left s .nothingFurther ∧
      firstReady twoBlocks 0 [slowSend, slowSend] = some s ∧ s.trials.length = 2 ∧
      s.trials.all (fun t => t.ackMs.isNone) = true) ∧
      ¬ Waits twoBlocks 0 [slowSend, slowSend] := by
  have hrun : ∃ s, loop twoBlocks (start 0) [slowSend, slowSend] = .left s .nothingFurther ∧
      firstReady twoBlocks 0 [slowSend, slowSend] = some s ∧ s.trials.length = 2 ∧
      s.trials.all (fun t => t.ackMs.isNone) = true ∧ allSettled s = false :=
    ⟨_, rfl, rfl, rfl, rfl, rfl⟩
  obtain ⟨s, hleft, hf, hlen, hack, hu⟩ := hrun
  refine ⟨⟨s, hleft, hf, hlen, hack⟩, fun h => ?_⟩
  obtain ⟨first, hf', hle⟩ := h s hleft hu
  obtain rfl : s = first := Option.some.inj (hf.symm.trans hf')
  exact absurd hle (by simp [settle])

end FreenetHarness.XNode.PutMinted
