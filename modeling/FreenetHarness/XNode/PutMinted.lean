import FreenetHarness.Lib.Count
import FreenetHarness.Lib.Run
import FreenetHarness.XNode.Minted

/-! # The put role's loop

One loop sends the plan, reads acknowledgements, marks every trial at its hedge time and
hedges some, reads back, and leaves. A pass is the events it makes in their order, and
`step` says what each does; `loop_invariant` is about every state between two events.
Clock readings are nanoseconds, each a distance from the one before. -/
namespace FreenetHarness.XNode
open FreenetHarness.Lib.Text FreenetHarness.Lib.Number FreenetHarness.Lib.Count
  FreenetHarness.Lib.Run FreenetHarness.Stats FreenetHarness.Mint
open FreenetHarness.Parity (Seed)

namespace PutMinted

/-- How long to wait for straggler acknowledgements, `SETTLE`. -/
def settle : Nat := 75000000000

/-- One trial's whole life. -/
structure Trial where
  key : Str
  size : UInt64
  seed : Seed
  arm : Arm
  sentNs : Nat
  t0 : Nat
  ackMs : Option ℚ := none
  confirmMs : Option ℚ := none
  unackedAtT : Option Bool := none
  hedged : Bool := false
  marked : Bool
  deriving DecidableEq

/-- The entry of the plan a trial was sent for. -/
def Trial.planned (t : Trial) : Planned := ⟨t.seed, t.size, t.arm⟩

/-- A put that is sent: the first of a trial, or its hedge. -/
inductive Put where
  | first (i : Nat)
  | again (i : Nat)
  deriving DecidableEq

def Put.first? : Put → Option Nat
  | .first i => some i
  | .again _ => none

structure Conf where
  crates : Crates
  code : Bytes
  plan : List Planned
  hedge : Option Nat
  untilConditioned : Nat
  /-- The clock as `spent_waiting` is set. -/
  started : Nat
  /-- The clock at which the run's budget ends. -/
  budget : Nat

structure State where
  trials : List Trial := []
  toSend : Nat := 0
  next : Nat := 0
  hedgedBytes : Nat := 0
  puts : List Put := []
  clock : Nat
  /-- The clock as the marks of this pass read it. -/
  now : Nat
  deriving DecidableEq

/-! ## Events -/

/-- A send: the time to its clock reading, the wall clock, how it settles and after how
long. -/
structure SendEnv where
  before : Nat
  sentNs : BitVec 128
  sent : Except String Unit
  took : Nat
  deriving DecidableEq

structure RePut where
  sent : Except String Unit
  took : Nat
  deriving DecidableEq

structure Probe where
  found : Except String (Option Nat)
  took : Nat
  deriving DecidableEq

inductive Event where
  /-- The clock is read. -/
  | tick (d : Nat)
  | send (e : SendEnv)
  /-- A message is read: the key it acknowledges, if it does. -/
  | ack (d : Nat) (key : Option Str)
  /-- The clock is read for the marks. -/
  | now (d : Nat)
  | mark (i : Nat) (e : RePut)
  | look (e : Probe)
  deriving DecidableEq

def State.tick (s : State) (d : Nat) : State := { s with clock := s.clock + d }

/-- The next entry of the plan, if there is one. -/
def sendNext (c : Conf) (s : State) (e : SendEnv) : Except String State :=
  match c.plan[s.toSend]? with
  | none => .ok s
  | some p =>
    match e.sent with
    | .error m => .error m
    | .ok () => .ok { s with
        toSend := s.toSend + 1
        clock := s.clock + e.before + e.took
        puts := s.puts ++ [.first s.toSend]
        trials := s.trials ++
          [{ key := (p.mint c.crates c.code).id, size := p.size, seed := p.seed, arm := p.arm
             sentNs := e.sentNs.toNat, t0 := s.clock + e.before, marked := c.hedge.isNone }] }

def Trial.acked (clock : Nat) (t : Trial) : Trial :=
  { t with ackMs := t.ackMs.or (some (msSince t.t0 clock)) }

/-- An acknowledgement goes to the first trial of its key. -/
def readAck (s : State) (d : Nat) (key : Option Str) : State :=
  let s := s.tick d
  match key.bind fun k => s.trials.findIdx? fun t => t.key == k with
  | none => s
  | some i => { s with trials := s.trials.modify i (Trial.acked s.clock) }

def Trial.mark (still : Bool) (t : Trial) : Trial :=
  { t with marked := true, unackedAtT := some still }

def Trial.hedge (t : Trial) : Trial := { t with hedged := true }

/-- The mark of one trial, and the hedge on it. -/
def markTrial (c : Conf) (s : State) (i : Nat) (e : RePut) : Except String State :=
  match c.hedge, s.trials[i]? with
  | some d, some t =>
    if t.marked || decide (s.now < t.t0 + d) then .ok s
    else
      let still := t.ackMs.isNone
      let s := { s with trials := s.trials.modify i (Trial.mark still) }
      if still && t.arm == .hedge then
        match e.sent with
        | .error m => .error m
        | .ok () => .ok { s with
            trials := s.trials.modify i Trial.hedge
            hedgedBytes := s.hedgedBytes +
              ((t.planned.mint c.crates c.code).state.length + c.code.length)
            puts := s.puts ++ [.again i]
            clock := s.clock + e.took }
      else .ok s
  | _, _ => .ok s

/-- The round-robin over the trials that have no read-back: where it stands after at most
`n` looks, and the trial it found. -/
def nextUnconfirmed (ts : List Trial) : Nat → Nat → Nat × Option Nat
  | 0, next => (next, none)
  | n + 1, next =>
    match ts[next % ts.length]? with
    | some t =>
      if t.confirmMs.isNone then (next + 1, some (next % ts.length))
      else nextUnconfirmed ts n (next + 1)
    | none => (next, none)

def Trial.confirmed (clock : Nat) (t : Trial) : Trial :=
  { t with confirmMs := some (msSince t.t0 clock) }

/-- One read-back attempt. -/
def look (s : State) (e : Probe) : Except String State :=
  match nextUnconfirmed s.trials s.trials.length s.next with
  | (next, none) => .ok { s with next }
  | (next, some i) =>
    match e.found with
    | .error m => .error m
    | .ok found =>
      let s := { s with next, clock := s.clock + e.took }
      .ok { s with
        trials := if found.isSome then s.trials.modify i (Trial.confirmed s.clock) else s.trials }

def step (c : Conf) (s : State) : Event → Except String State
  | .tick d => .ok (s.tick d)
  | .send e => sendNext c s e
  | .ack d key => .ok (readAck s d key)
  | .now d => .ok { s.tick d with now := s.clock + d }
  | .mark i e => markTrial c s i e
  | .look e => look s e

/-! ## The loop -/

/-- What one pass meets. -/
structure Pass where
  /-- From the last clock reading to that of the loop's condition. -/
  check : Nat
  send : SendEnv
  acks : List (Nat × Option Str)
  now : Nat
  rePut : Nat → RePut
  look : Probe
  /-- To the clock reading of the exit. -/
  leave : Nat

/-- How many trials there are once a pass has sent. -/
def trialsIn (c : Conf) (s : State) : Nat :=
  if s.toSend < c.plan.length then s.trials.length + 1 else s.trials.length

def Pass.events (c : Conf) (s : State) (p : Pass) : List Event :=
  .send p.send :: p.acks.map (fun a => .ack a.1 a.2) ++
    .now p.now :: (List.range (trialsIn c s)).map (fun i => .mark i (p.rePut i)) ++
    [.look p.look, .tick p.leave]

def pass (c : Conf) (s : State) (p : Pass) : Except String State :=
  (p.events c s).foldlM (step c) s

inductive Exit where
  | budget
  | milestone
  | nothingFurther
  deriving DecidableEq

def conditioned (s : State) (arm : Arm) : Nat :=
  s.trials.countP fun t => t.arm == arm && t.unackedAtT == some true

def allSent (c : Conf) (s : State) : Bool := s.toSend == c.plan.length

def allMarked (s : State) : Bool := s.trials.all Trial.marked

def allSettled (s : State) : Bool :=
  s.trials.all fun t => t.confirmMs.isSome && t.ackMs.isSome

/-- The exits at the end of a pass. -/
def exit (c : Conf) (s : State) : Option Exit :=
  if 0 < c.untilConditioned ∧ c.untilConditioned ≤ conditioned s .control ∧
      c.untilConditioned ≤ conditioned s .hedge then some .milestone
  else if allSent c s && allMarked s &&
      (allSettled s || decide (settle ≤ s.clock - c.started)) then some .nothingFurther
  else none

inductive Outcome where
  /-- The loop has made these passes and goes on. -/
  | running (s : State)
  | left (s : State) (x : Exit)
  | failed (e : String)

def loop (c : Conf) : State → List Pass → Outcome
  | s, [] => .running s
  | s, p :: ps =>
    if (s.tick p.check).clock < c.budget then
      match pass c (s.tick p.check) p with
      | .error e => .failed e
      | .ok s =>
        match exit c s with
        | some x => .left s x
        | none => loop c s ps
    else .left (s.tick p.check) .budget

/-- The loop is entered just after the wait and the budget are set. -/
def start (clock : Nat) : State := { clock, now := clock }

/-- The states a run of events goes through, each between two events. -/
def visited (c : Conf) : State → List Event → List State
  | s, [] => [s]
  | s, e :: es => s :: match step c s e with
    | .error _ => []
    | .ok s' => visited c s' es

/-- The events the loop makes over these passes. -/
def trace (c : Conf) : State → List Pass → List Event
  | _, [] => []
  | s, p :: ps => .tick p.check ::
      if (s.tick p.check).clock < c.budget then
        p.events c (s.tick p.check) ++
          match pass c (s.tick p.check) p with
          | .error _ => []
          | .ok s' => if (exit c s').isNone then trace c s' ps else []
      else []

/-! ## What a trial keeps -/

/-- What no event takes from a trial: what was sent and when, and every reading it has. -/
structure Trial.Keeps (t t' : Trial) : Prop where
  planned : t'.planned = t.planned
  key : t'.key = t.key
  sentNs : t'.sentNs = t.sentNs
  t0 : t'.t0 = t.t0
  ackMs : ∀ ms, t.ackMs = some ms → t'.ackMs = some ms
  confirmMs : ∀ ms, t.confirmMs = some ms → t'.confirmMs = some ms
  unackedAtT : ∀ b, t.unackedAtT = some b → t'.unackedAtT = some b

theorem Trial.Keeps.refl (t : Trial) : t.Keeps t :=
  ⟨rfl, rfl, rfl, rfl, fun _ h => h, fun _ h => h, fun _ h => h⟩

theorem Trial.Keeps.trans {t u v : Trial} (h : t.Keeps u) (h' : u.Keeps v) : t.Keeps v where
  planned := h'.planned.trans h.planned
  key := h'.key.trans h.key
  sentNs := h'.sentNs.trans h.sentNs
  t0 := h'.t0.trans h.t0
  ackMs := fun ms hm => h'.ackMs ms (h.ackMs ms hm)
  confirmMs := fun ms hm => h'.confirmMs ms (h.confirmMs ms hm)
  unackedAtT := fun b hb => h'.unackedAtT b (h.unackedAtT b hb)

/-- Every trial is still there, with all it had. -/
def Keeps (s s' : State) : Prop :=
  ∀ (i : Nat) (t : Trial), s.trials[i]? = some t → ∃ t', s'.trials[i]? = some t' ∧ t.Keeps t'

theorem Keeps.refl (s : State) : Keeps s s := fun _ t h => ⟨t, h, .refl t⟩

theorem Keeps.trans {s t u : State} (h : Keeps s t) (h' : Keeps t u) : Keeps s u := by
  intro i x hx
  obtain ⟨y, hy, hxy⟩ := h i x hx
  obtain ⟨z, hz, hyz⟩ := h' i y hy
  exact ⟨z, hz, hxy.trans hyz⟩

/-! ## The invariant -/

/-- One trial, at a clock reading. -/
structure TrialInv (c : Conf) (clock : Nat) (t : Trial) : Prop where
  key : t.key = (t.planned.mint c.crates c.code).id
  sentNs : t.sentNs < 2 ^ 128
  sent : t.t0 ≤ clock
  hedged : t.hedged = true ↔ t.arm = .hedge ∧ t.unackedAtT = some true
  marked : c.hedge.isSome → (t.marked = true ↔ t.unackedAtT.isSome)
  /-- A mark is taken no earlier than T. -/
  due : ∀ d, c.hedge = some d → t.unackedAtT.isSome → t.t0 + d ≤ clock
  /-- What is unacknowledged at T has no acknowledgement from before it. -/
  late : ∀ d, c.hedge = some d → t.unackedAtT = some true →
    ∀ ms, t.ackMs = some ms → millis d ≤ ms
  ackMs : ∀ ms, t.ackMs = some ms → 0 ≤ ms
  confirmMs : ∀ ms, t.confirmMs = some ms → 0 ≤ ms

theorem TrialInv.mono {c : Conf} {clock clock' : Nat} {t : Trial} (h : TrialInv c clock t)
    (hc : clock ≤ clock') : TrialInv c clock' t :=
  { h with
    sent := h.sent.trans hc
    due := fun d hd hu => (h.due d hd hu).trans hc }

structure Inv (c : Conf) (s : State) : Prop where
  /-- The trials are the beginning of the plan. -/
  trials : s.trials.map Trial.planned = c.plan.take s.toSend
  length : s.trials.length = s.toSend
  /-- Each of them is sent once. -/
  sentOnce : s.puts.filterMap Put.first? = List.range s.toSend
  puts : s.puts.length = s.trials.length + s.trials.countP Trial.hedged
  now : s.now ≤ s.clock
  each : ∀ t ∈ s.trials, TrialInv c s.clock t

theorem inv_start (c : Conf) (clock : Nat) : Inv c (start clock) := by
  constructor <;> simp [start]

/-! ## What a step does -/

variable {c : Conf} {s s' : State}

/-- The clock does not go back, and the marks' reading is a past one. -/
theorem step_clock {e : Event} (h : step c s e = .ok s') :
    s.clock ≤ s'.clock ∧ (s.now ≤ s.clock → s'.now ≤ s'.clock) := by
  cases e with
  | tick d => cases h; simp only [State.tick]; omega
  | send e =>
    simp only [step, sendNext] at h
    split at h
    · cases h; omega
    split at h
    · cases h
    · cases h; dsimp only; omega
  | ack d key =>
    simp only [step, readAck] at h
    split at h <;> cases h <;> simp only [State.tick] <;> omega
  | now d => cases h; simp only [State.tick]; omega
  | mark i e =>
    simp only [step, markTrial] at h
    split at h
    · split at h
      · cases h; omega
      split at h
      · split at h
        · cases h
        · cases h; dsimp only; omega
      · cases h; dsimp only; omega
    · cases h; omega
  | look e =>
    simp only [step, look] at h
    split at h
    · cases h; dsimp only; omega
    split at h
    · cases h
    · cases h; dsimp only; omega

/-- Everything a step can do to the trials and the puts. -/
inductive Change (c : Conf) (s s' : State) : Prop where
  | idle (trials : s'.trials = s.trials) (toSend : s'.toSend = s.toSend) (puts : s'.puts = s.puts)
  | sent (t : Trial) (planned : c.plan[s.toSend]? = some t.planned) (inv : TrialInv c s'.clock t)
      (fresh : t.hedged = false) (trials : s'.trials = s.trials ++ [t])
      (toSend : s'.toSend = s.toSend + 1) (puts : s'.puts = s.puts ++ [.first s.toSend])
  | one (i : Nat) (t t' : Trial) (at_i : s.trials[i]? = some t) (keeps : t.Keeps t')
      (inv : TrialInv c s'.clock t') (trials : s'.trials = s.trials.set i t')
      (toSend : s'.toSend = s.toSend) (again : List Put) (puts : s'.puts = s.puts ++ again)
      (noFirst : again.filterMap Put.first? = [])
      (hedges : again.length + (if t.hedged then 1 else 0) = if t'.hedged then 1 else 0)

theorem sendNext_change {e : SendEnv} (h : sendNext c s e = .ok s') : Change c s s' := by
  unfold sendNext at h
  split at h
  · cases h; exact .idle rfl rfl rfl
  rename_i p hp
  split at h
  · cases h
  cases h
  let t : Trial :=
    { key := (p.mint c.crates c.code).id, size := p.size, seed := p.seed, arm := p.arm
      sentNs := e.sentNs.toNat, t0 := s.clock + e.before, marked := c.hedge.isNone }
  refine .sent t hp ?_ rfl rfl rfl rfl
  refine ⟨rfl, e.sentNs.isLt, Nat.le_add_right .., ?_, ?_, ?_, ?_, ?_, ?_⟩
  · simp [t]
  · intro hsome
    simp [t, Option.ne_none_iff_isSome.mpr hsome]
  all_goals simp [t]

theorem Trial.keeps_acked (clock : Nat) (t : Trial) : t.Keeps (t.acked clock) := by
  refine ⟨rfl, rfl, rfl, rfl, ?_, fun _ h => h, fun _ h => h⟩
  intro ms hms
  simp [Trial.acked, hms]

/-- A time an acknowledgement sets is the one from its send. -/
theorem ackMs_acked {clock : Nat} {t : Trial} {ms : ℚ} (h : (t.acked clock).ackMs = some ms) :
    t.ackMs = some ms ∨ ms = msSince t.t0 clock := by
  cases ha : t.ackMs with
  | some ms' => rw [Trial.acked, ha] at h; exact .inl h
  | none => rw [Trial.acked, ha] at h; cases h; exact .inr rfl

theorem TrialInv.acked {clock : Nat} {t : Trial} (h : TrialInv c clock t) :
    TrialInv c clock (t.acked clock) := by
  refine ⟨h.key, h.sentNs, h.sent, h.hedged, h.marked, h.due, ?_, ?_, h.confirmMs⟩
  · intro d hd hu ms hms
    rcases ackMs_acked hms with hms | rfl
    · exact h.late d hd hu ms hms
    · have hu' : t.unackedAtT = some true := hu
      have hdue := h.due d hd (by rw [hu']; rfl)
      rw [msSince, millis_le]
      omega
  · intro ms hms
    rcases ackMs_acked hms with hms | rfl
    · exact h.ackMs ms hms
    · exact msSince_nonneg ..

theorem readAck_change {d : Nat} {key : Option Str} (hi : Inv c s) :
    Change c s (readAck s d key) := by
  unfold readAck
  dsimp only
  split
  · exact .idle rfl rfl rfl
  rename_i i hf
  obtain ⟨k, -, hk⟩ := Option.bind_eq_some_iff.mp hf
  obtain ⟨hlt, -, -⟩ := List.findIdx?_eq_some_iff_getElem.mp hk
  have hget : (s.tick d).trials[i]? = some ((s.tick d).trials[i]) := List.getElem?_eq_getElem hlt
  have hinv := (hi.each _ (List.getElem_mem hlt)).mono (Nat.le_add_right s.clock d)
  exact .one i _ _ hget (Trial.keeps_acked _ _) hinv.acked (modify_eq_set hget _) rfl []
    (List.append_nil _).symm rfl (Nat.zero_add _)

/-- A trial that is not marked has no mark, and no hedge. -/
theorem TrialInv.unmarked {clock d : Nat} {t : Trial} (h : TrialInv c clock t)
    (hd : c.hedge = some d) (hm : t.marked = false) : t.unackedAtT = none ∧ t.hedged = false := by
  have hmarked := h.marked (by rw [hd]; rfl)
  have hhedged := h.hedged
  rw [hm] at hmarked
  have hnone : t.unackedAtT = none := by simpa using hmarked
  rw [hnone] at hhedged
  exact ⟨hnone, by simpa using hhedged⟩

theorem Trial.keeps_mark {t : Trial} (h : t.unackedAtT = none) (still : Bool) :
    t.Keeps (t.mark still) := by
  refine ⟨rfl, rfl, rfl, rfl, fun _ hm => hm, fun _ hm => hm, fun b hb => ?_⟩
  rw [h] at hb
  cases hb

theorem Trial.keeps_hedge (t : Trial) : t.Keeps t.hedge :=
  ⟨rfl, rfl, rfl, rfl, fun _ hm => hm, fun _ hm => hm, fun _ hb => hb⟩

/-- The mark, where it fires no hedge. -/
theorem TrialInv.mark {clock d : Nat} {t : Trial} (h : TrialInv c clock t)
    (hd : c.hedge = some d) (hm : t.marked = false) (hdue : t.t0 + d ≤ clock)
    (hno : ¬ (t.ackMs = none ∧ t.arm = .hedge)) : TrialInv c clock (t.mark t.ackMs.isNone) := by
  refine ⟨h.key, h.sentNs, h.sent, ?_, ?_, ?_, ?_, h.ackMs, h.confirmMs⟩
  · simp only [Trial.mark, (h.unmarked hd hm).2, Bool.false_eq_true, false_iff]
    rintro ⟨harm, hu⟩
    exact hno ⟨by simpa using hu, harm⟩
  · simp [Trial.mark]
  · intro d' hd' _
    obtain rfl : d = d' := Option.some.inj (hd.symm.trans hd')
    exact hdue
  · intro d' _ hu ms hms
    have hack : t.ackMs = none := by simpa [Trial.mark] using hu
    exact absurd (hack.symm.trans hms) (by simp)

/-- The mark of an unacknowledged trial of the hedge arm, and its hedge. -/
theorem TrialInv.hedge {clock d : Nat} {t : Trial} (h : TrialInv c clock t)
    (hd : c.hedge = some d) (hdue : t.t0 + d ≤ clock) (hack : t.ackMs = none)
    (harm : t.arm = .hedge) : TrialInv c clock (t.mark t.ackMs.isNone).hedge := by
  refine ⟨h.key, h.sentNs, h.sent, ?_, ?_, ?_, ?_, h.ackMs, h.confirmMs⟩
  · simp [Trial.hedge, Trial.mark, harm, hack]
  · simp [Trial.hedge, Trial.mark]
  · intro d' hd' _
    obtain rfl : d = d' := Option.some.inj (hd.symm.trans hd')
    exact hdue
  · intro d' _ _ ms hms
    exact absurd (hack.symm.trans hms) (by simp)

theorem markTrial_change {i : Nat} {e : RePut} (hi : Inv c s) (h : markTrial c s i e = .ok s') :
    Change c s s' := by
  unfold markTrial at h
  split at h
  case h_2 => cases h; exact .idle rfl rfl rfl
  rename_i d t hd ht
  split at h
  · cases h; exact .idle rfl rfl rfl
  rename_i hdue
  obtain ⟨hmarked, hnow⟩ : t.marked = false ∧ t.t0 + d ≤ s.now := by
    simpa [Bool.or_eq_true, not_or] using hdue
  have hinv := hi.each t (List.mem_of_getElem? ht)
  have hdue : t.t0 + d ≤ s.clock := hnow.trans hi.now
  obtain ⟨hnone, hfresh⟩ := hinv.unmarked hd hmarked
  have hkeeps := Trial.keeps_mark hnone t.ackMs.isNone
  dsimp only at h
  split at h
  · rename_i hstill
    obtain ⟨hack, harm⟩ : t.ackMs = none ∧ t.arm = .hedge := by simpa using hstill
    split at h
    · cases h
    cases h
    refine .one i t _ ht (hkeeps.trans (Trial.keeps_hedge _))
      ((hinv.hedge hd hdue hack harm).mono (Nat.le_add_right ..)) ?_ rfl [.again i] rfl rfl
      (by simp [Trial.hedge, hfresh])
    rw [List.modify_modify_eq, modify_eq_set ht]
    rfl
  · rename_i hstill
    cases h
    exact .one i t _ ht hkeeps (hinv.mark hd hmarked hdue (by simpa using hstill))
      (modify_eq_set ht _) rfl [] (List.append_nil _).symm rfl (Nat.zero_add _)

/-- The trial that is looked at has no read-back. -/
theorem nextUnconfirmed_some {ts : List Trial} {n next next' i : Nat}
    (h : nextUnconfirmed ts n next = (next', some i)) :
    ∃ t, ts[i]? = some t ∧ t.confirmMs = none := by
  induction n generalizing next with
  | zero => cases h
  | succ n ih =>
    unfold nextUnconfirmed at h
    split at h
    · rename_i t ht
      split at h
      · rename_i hnone
        cases h
        exact ⟨t, ht, by simpa using hnone⟩
      · exact ih h
    · cases h

theorem look_change {e : Probe} (hi : Inv c s) (h : look s e = .ok s') : Change c s s' := by
  unfold look at h
  split at h
  · cases h; exact .idle rfl rfl rfl
  rename_i next i hn
  split at h
  · cases h
  rename_i found _
  cases h
  cases found with
  | none => exact .idle rfl rfl rfl
  | some v =>
    obtain ⟨t, ht, hnone⟩ := nextUnconfirmed_some hn
    have hinv := (hi.each t (List.mem_of_getElem? ht)).mono (Nat.le_add_right s.clock e.took)
    refine .one i t (t.confirmed (s.clock + e.took)) ht
      ⟨rfl, rfl, rfl, rfl, fun _ hm => hm, ?_, fun _ hb => hb⟩
      { hinv with confirmMs := ?_ } (modify_eq_set ht _) rfl
      [] (List.append_nil _).symm rfl (Nat.zero_add _)
    · intro ms hms
      exact absurd (hnone.symm.trans hms) (by simp)
    · intro ms hms
      cases hms
      exact msSince_nonneg ..

theorem step_change {e : Event} (hi : Inv c s) (h : step c s e = .ok s') : Change c s s' := by
  cases e with
  | tick d => cases h; exact .idle rfl rfl rfl
  | send e => exact sendNext_change h
  | ack d key => cases h; exact readAck_change hi
  | now d => cases h; exact .idle rfl rfl rfl
  | mark i e => exact markTrial_change hi h
  | look e => exact look_change hi h

theorem Change.keeps (h : Change c s s') : Keeps s s' := by
  intro j x hx
  cases h with
  | idle trials => exact ⟨x, by rw [trials, hx], .refl x⟩
  | sent t _ _ _ trials =>
    have hj : j < s.trials.length := (List.getElem?_eq_some_iff.mp hx).1
    exact ⟨x, by rw [trials, List.getElem?_append_left hj, hx], .refl x⟩
  | one i t t' at_i keeps _ trials =>
    by_cases hij : i = j
    · subst hij
      obtain rfl : t = x := Option.some.inj (at_i.symm.trans hx)
      have hj : i < s.trials.length := (List.getElem?_eq_some_iff.mp hx).1
      exact ⟨t', by rw [trials, List.getElem?_set_self hj], keeps⟩
    · exact ⟨x, by rw [trials, List.getElem?_set_ne hij, hx], .refl x⟩

theorem Change.inv (h : Change c s s') (hi : Inv c s) (hclock : s.clock ≤ s'.clock)
    (hnow : s'.now ≤ s'.clock) : Inv c s' := by
  have hold : ∀ t ∈ s.trials, TrialInv c s'.clock t := fun t ht => (hi.each t ht).mono hclock
  cases h with
  | idle trials toSend puts =>
    refine ⟨?_, ?_, ?_, ?_, hnow, ?_⟩
    · rw [trials, toSend]; exact hi.trials
    · rw [trials, toSend]; exact hi.length
    · rw [puts, toSend]; exact hi.sentOnce
    · rw [puts, trials]; exact hi.puts
    · rw [trials]; exact hold
  | sent t planned inv fresh trials toSend puts =>
    refine ⟨?_, ?_, ?_, ?_, hnow, ?_⟩
    · rw [trials, toSend, List.map_append, hi.trials, List.take_add_one, planned]
      rfl
    · rw [trials, toSend, List.length_append, hi.length]
      rfl
    · rw [puts, toSend, List.filterMap_append, hi.sentOnce, List.range_succ]
      rfl
    · rw [puts, trials, List.length_append, List.length_append, List.countP_append, hi.puts]
      simp [fresh]
      omega
    · rw [trials]
      intro x hx
      rcases List.mem_append.mp hx with hx | hx
      · exact hold x hx
      · obtain rfl := List.mem_singleton.mp hx
        exact inv
  | one i t t' at_i keeps inv trials toSend again puts noFirst hedges =>
    refine ⟨?_, ?_, ?_, ?_, hnow, ?_⟩
    · rw [trials, toSend, map_set_of_eq at_i keeps.planned]; exact hi.trials
    · rw [trials, toSend, List.length_set]; exact hi.length
    · rw [puts, toSend, List.filterMap_append, noFirst, List.append_nil]; exact hi.sentOnce
    · have hcount := countP_set (p := Trial.hedged) (y := t') at_i
      have hputs := hi.puts
      rw [puts, trials, List.length_append, List.length_set]
      omega
    · rw [trials]
      intro x hx
      rcases List.mem_or_eq_of_mem_set hx with hx | rfl
      · exact hold x hx
      · exact inv

theorem step_inv {e : Event} (hi : Inv c s) (h : step c s e = .ok s') : Inv c s' := by
  obtain ⟨hclock, hnow⟩ := step_clock h
  exact (step_change hi h).inv hi hclock (hnow hi.now)

/-! ## Every state the loop goes through -/

theorem visited_inv {es : List Event} (hi : Inv c s) :
    ∀ x ∈ visited c s es, Inv c x ∧ Keeps s x := by
  induction es generalizing s with
  | nil =>
    intro x hx
    obtain rfl := List.mem_singleton.mp hx
    exact ⟨hi, .refl x⟩
  | cons e es ih =>
    intro x hx
    rw [visited, List.mem_cons] at hx
    rcases hx with rfl | hx
    · exact ⟨hi, .refl x⟩
    cases hs : step c s e with
    | error m => rw [hs] at hx; cases hx
    | ok s' =>
      rw [hs] at hx
      obtain ⟨hx, hk⟩ := ih (step_inv hi hs) x hx
      exact ⟨hx, (step_change hi hs).keeps.trans hk⟩

theorem visited_pairwise {es : List Event} (hi : Inv c s) : (visited c s es).Pairwise Keeps := by
  induction es generalizing s with
  | nil => exact List.pairwise_singleton ..
  | cons e es ih =>
    rw [visited, List.pairwise_cons]
    cases hs : step c s e with
    | error m => simp
    | ok s' =>
      refine ⟨fun x hx => ?_, ih (step_inv hi hs)⟩
      exact (step_change hi hs).keeps.trans (visited_inv (step_inv hi hs) x hx).2

theorem mem_visited_append {es fs : List Event} {x : State} (h : es.foldlM (step c) s = .ok s')
    (hx : x ∈ visited c s' fs) : x ∈ visited c s (es ++ fs) := by
  induction es generalizing s with
  | nil => cases h; exact hx
  | cons e es ih =>
    rw [List.foldlM_cons, bind_eq_ok] at h
    obtain ⟨t, ht, h⟩ := h
    rw [List.cons_append, visited, ht]
    exact List.mem_cons_of_mem _ (ih h)

theorem head_mem_visited (c : Conf) (s : State) (es : List Event) : s ∈ visited c s es := by
  cases es <;> simp [visited]

/-- The state a loop goes on in or is left in. -/
def Outcome.state? : Outcome → Option State
  | .running s => some s
  | .left s _ => some s
  | .failed _ => none

/-- Wherever the loop gets to is a state it went through. -/
theorem loop_visited {ps : List Pass} (h : (loop c s ps).state? = some s') :
    s' ∈ visited c s (trace c s ps) := by
  induction ps generalizing s with
  | nil =>
    cases h
    exact head_mem_visited ..
  | cons p ps ih =>
    rw [loop] at h
    rw [trace, visited, step]
    refine List.mem_cons_of_mem _ ?_
    dsimp only
    split at h
    · rename_i hb
      rw [if_pos hb]
      cases hp : pass c (s.tick p.check) p with
      | error m => rw [hp] at h; cases h
      | ok t =>
        rw [hp] at h
        refine mem_visited_append hp ?_
        dsimp only at h ⊢
        cases hx : exit c t with
        | some x => rw [hx] at h; cases h; exact head_mem_visited ..
        | none => rw [hx] at h; exact ih h
    · cases h
      exact head_mem_visited ..

/-- **The loop's invariant.** In every state between two events of the loop the trials are
what was sent of the plan, and a later state keeps every trial with every reading it had. -/
theorem loop_invariant (c : Conf) (clock : Nat) (ps : List Pass) :
    (∀ s ∈ visited c (start clock) (trace c (start clock) ps), Inv c s) ∧
      (visited c (start clock) (trace c (start clock) ps)).Pairwise Keeps :=
  ⟨fun s hs => (visited_inv (inv_start c clock) s hs).1, visited_pairwise (inv_start c clock)⟩

end PutMinted

end FreenetHarness.XNode
