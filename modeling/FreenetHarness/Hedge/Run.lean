import FreenetHarness.Hedge
import FreenetHarness.Latency.Series
import FreenetHarness.Lib.Laps

/-! # `hedge`: a run and its report

The control and the hedged arms are visited in order, one trial each, lap after lap, until
every hedge time has its target of conditioned trials. `run_interleaves` says which trial of
which arm each visit made and that the reason given for the end is the true one;
`report_conditions` what the rows for a hedge time rest on. -/
namespace FreenetHarness.Hedge
open FreenetHarness.Lib.Run FreenetHarness.Lib.Laps FreenetHarness.Lib.Number
  FreenetHarness.Parity FreenetHarness.Percentile FreenetHarness.Stats
open FreenetHarness.Latency (seconds)

structure Arm where
  /-- `none` is the control, which never hedges. -/
  t : Option Nat
  trials : List Trial := []

/-- A whole number of seconds as such, all else in milliseconds. -/
def secs (d : Nat) : String :=
  if d / 1000000 % 1000 = 0 then s!"{d / 1000000000} s" else s!"{d / 1000000} ms"

def Arm.name (a : Arm) : String :=
  match a.t with
  | none => "no hedge (control)"
  | some t => s!"hedge at {secs t}"

def Arm.acks (a : Arm) : List ℚ := a.trials.filterMap Trial.ack

def Arm.hedges (a : Arm) : Nat := a.trials.countP Trial.hedged

structure Opts where
  size : Nat
  tsMs : List Nat
  /-- Conditioned trials to reach for every hedge time, on both sides. -/
  targetConditioned : Nat
  /-- A row below this many conditioned trials reports no finding. -/
  minReport : Nat
  maxRounds : Nat
  trialSecs : Nat
  budgetSecs : Nat

/-- `Duration::from_millis`. -/
def fromMillis (ms : Nat) : Nat := ms * 1000000

def Opts.ts (o : Opts) : List Nat := o.tsMs.map fromMillis

/-! ## The loop -/

/-- What a trial meets: the clock as the budget is checked, the block it mints, when it
puts it and how that settles, and the passes of its loop. -/
structure Turn where
  now : Nat
  block : Except String (String × List UInt8)
  t0 : Nat
  put : Except String Unit
  passes : List Pass
  exit : Nat

/-- What a run meets. The `n`-th trial it begins meets `turns n`. -/
structure Setting where
  /-- The length of the contract's code, if it loads. -/
  code : Except String Nat
  writer : Except String Unit
  reader : Except String Unit
  start : Nat
  turns : Nat → Turn

/-- How a run does not report. -/
inductive Halt where
  /-- The passes are not those that the trial makes. -/
  | unscripted
  | fault (f : Fault)

def bail (e : String) : Halt := .fault (.bail e)

/-- One trial of an arm. -/
def Turn.trial (o : Opts) (t : Option Nat) (m : Turn) : Except Halt Trial :=
  match m.block with
  | .error e => .error (bail e)
  | .ok (id, state) =>
    let c : Setup := { id, state, t0 := m.t0, t, deadlineIn := seconds (max o.trialSecs 1) }
    match Hedge.trial c m.put m.passes m.exit with
    | none => .error .unscripted
    | some (.error e) => .error (bail e)
    | some (.ok x) => .ok x

/-- The arms, and how many trials were begun. -/
structure Progress where
  arms : List Arm
  begun : Nat := 0

def Progress.push (p : Progress) (i : Nat) (x : Trial) : Progress where
  arms := p.arms.modify i fun a => { a with trials := a.trials ++ [x] }
  begun := p.begun + 1

/-- The control first, and an arm for each hedge time. -/
def Opts.arms (o : Opts) : List Arm := { t := none } :: o.ts.map fun t => { t := some t }

/-- How many conditioned trials a hedge time has so far, of the control and hedged. -/
def conditioned (arms : List Arm) (t : Nat) : Nat × Nat :=
  (((arms.find? fun a => a.t.isNone).map fun a =>
      a.trials.countP fun x => x.ack.all fun a => decide (millis t < a)).getD 0,
    ((arms.find? fun a => a.t == some t).map Arm.hedges).getD 0)

def enough (o : Opts) (p : Progress) : Bool :=
  o.ts.all fun t =>
    decide (o.targetConditioned ≤ (conditioned p.arms t).1) &&
      decide (o.targetConditioned ≤ (conditioned p.arms t).2)

def budget (o : Opts) (start : Nat) : Option Nat :=
  if 0 < o.budgetSecs then some (start + seconds o.budgetSecs) else none

/-- The budget is looked at before every trial. -/
def spent (o : Opts) (w : Setting) (p : Progress) : Bool :=
  (budget o w.start).any fun d => d ≤ (w.turns p.begun).now

def visit (o : Opts) (w : Setting) (p : Progress) (i : Nat) : Except Halt Progress :=
  match p.arms[i]? with
  | none => .ok p
  | some a => do
    let x ← (w.turns p.begun).trial o a.t
    return p.push i x

def rounds (o : Opts) (w : Setting) : Except Halt (Ended Progress) :=
  laps (visit o w) (spent o w) (enough o) (List.range o.arms.length) o.maxRounds 0
    { arms := o.arms }

/-! ## The report -/

/-- `ack p50`, `ack p90` and `ack max`. -/
def ackCells (acks : List ℚ) : Except Fault (List String) := do
  match ← Summary.of acks with
  | some s => return [s.p50, s.p90, s.max].map fun v => String.ofList (print0 v)
  | none => return List.replicate 3 "—"

/-- A row of the first table, over every trial of an arm. -/
def row (o : Opts) (codeLen : Nat) (a : Arm) : Except Fault (List String) := do
  let cells ← ackCells a.acks
  return [a.name, toString a.trials.length, s!"{a.acks.length}/{a.trials.length}",
    toString a.hedges, kib (a.hedges * (o.size + codeLen))] ++ cells

/-- A row of the second table, over the trials still unacknowledged at `t`. Below the floor
it says so in words. -/
def conditionedRow (o : Opts) (t : Nat) (label : String) (pool : List Trial) :
    Except Fault (List String) := do
  let acks := pool.filterMap Trial.ack
  let head := [secs t, label, toString pool.length, s!"{acks.length}/{pool.length}"]
  if pool.length < o.minReport then
    return head ++ ["no finding", s!"n={pool.length} < {o.minReport}", ""]
  else
    let cells ← ackCells acks
    return head ++ cells

/-- The control's trials still unacknowledged at `t`. -/
def waiting (control : Arm) (t : Nat) : List Trial := control.trials.filter (unackedAt · t)

/-- The two rows of a hedged arm. -/
def conditionedRows (o : Opts) (control a : Arm) (t : Nat) :
    Except Fault (List String × List String) := do
  let unhedged ← conditionedRow o t "no hedge" (waiting control t)
  let hedged ← conditionedRow o t "hedged" (a.trials.filter Trial.hedged)
  return (unhedged, hedged)

/-- What the control did, unaided, on the population a hedge fires on. -/
structure Unaided where
  pool : Nat
  acked : Nat
  p50 : Option ℚ
  p90 : Option ℚ

def Unaided.of (control : List Trial) (t : Nat) : Except Fault Unaided := do
  let pool := control.filter (unackedAt · t)
  let acks := pool.filterMap Trial.ack
  let s ← Summary.of acks
  return { pool := pool.length, acked := acks.length, p50 := s.map (·.p50), p90 := s.map (·.p90) }

def Unaided.line (u : Unaided) : String :=
  match u.pool, u.p50, u.p90 with
  | pool + 1, some p50, some p90 =>
    s!"of the {pool + 1} control trials in the same state, {u.acked} acked without help — but at " ++
      s!"p50 {String.ofList (print0 p50)} ms and p90 {String.ofList (print0 p90)} ms, so " ++
      "\"unnecessary\" is the wrong word wherever that is slower than the hedged arm above"
  | _, _, _ => "no control population at this T to compare against"

/-- What the hedges of an arm cost, and what the control did without them. -/
def cost (o : Opts) (codeLen : Nat) (control a : Arm) (t : Nat) : Except Fault (String × String) := do
  let unaided ← Unaided.of control.trials t
  let wire := kib (a.hedges * (o.size + codeLen))
  return (s!"   {a.name}: {a.hedges} extra puts, {wire} extra on the wire", s!"      {unaided.line}")

/-- How far the rows of a hedge time can be relied on. -/
inductive Standing where
  | tooFew
  | underTarget
  | firm
  deriving DecidableEq

def standing (o : Opts) (c f : Nat) : Standing :=
  if c < o.minReport ∨ f < o.minReport then .tooFew
  else if c < o.targetConditioned ∨ f < o.targetConditioned then .underTarget
  else .firm

def Standing.text : Standing → String
  | .tooFew => " — TOO FEW, that row reports no finding"
  | .underTarget => " — under target, treat the row as weak"
  | .firm => ""

def rests (o : Opts) (arms : List Arm) (t : Nat) : String :=
  let (c, f) := conditioned arms t
  s!"   {secs t}: {c} / {f}  (target {o.targetConditioned}){(standing o c f).text}"

def reason : Stop → String
  | .enough => "every T reached its conditioned target"
  | .budget => "the budget"
  | .cap => "the round cap"

/-- The tables and the lines of a run, less their captions. -/
structure Report where
  every : List (List String)
  /-- The two rows of every hedged arm. -/
  conditioned : List (List String × List String)
  /-- The two lines of every hedged arm. -/
  costs : List (String × String)
  stopped : String
  rests : List String
  cut : Option String

/-- The arms with a hedge time. -/
def hedgedArms (arms : List Arm) : List (Arm × Nat) := arms.filterMap fun a => a.t.map (a, ·)

def report (o : Opts) (codeLen : Nat) (e : Ended Progress) : Except Fault Report := do
  let arms := e.state.arms
  let every ← arms.mapM (row o codeLen)
  match arms.find? fun a => a.t.isNone with
  | none => .error .panic
  | some control => do
    let conditioned ← (hedgedArms arms).mapM fun x => conditionedRows o control x.1 x.2
    let costs ← (hedgedArms arms).mapM fun x => cost o codeLen control x.1 x.2
    return {
      every
      conditioned
      costs
      stopped := s!"stopped after {e.laps} rounds on {reason e.stop}."
      rests := o.ts.map (Hedge.rests o arms)
      cut := if e.stop = .budget then
        some (s!"the run reached its {o.budgetSecs} s budget; what it did not reach is NOT " ++
          "within it")
        else none }

def run (o : Opts) (w : Setting) : Except Halt (Ended Progress × Report) :=
  if o.tsMs = [] ∨ o.maxRounds = 0 then
    .error (bail "nothing to measure: --ts-ms and --max-rounds must both be non-empty")
  else do
    let codeLen ← w.code.mapError bail
    w.writer.mapError bail
    w.reader.mapError bail
    let e ← rounds o w
    let r ← (report o codeLen e).mapError Halt.fault
    return (e, r)

/-! ## The order of the trials -/

theorem visit_ok {o : Opts} {w : Setting} {p p' : Progress} {i : Nat} (hi : i < p.arms.length)
    (h : visit o w p i = .ok p') :
    ∃ x, (w.turns p.begun).trial o p.arms[i].t = .ok x ∧ p' = p.push i x := by
  unfold visit at h
  rw [List.getElem?_eq_getElem hi] at h
  obtain ⟨x, hx, h⟩ := bind_eq_ok.mp h
  cases h
  exact ⟨x, hx, rfl⟩

/-- The trial `x` of the `j`-th arm is the `n`-th one begun, within the budget. -/
def Made (o : Opts) (w : Setting) (n j : Nat) (x : Trial) : Prop :=
  (∀ d ∈ budget o w.start, (w.turns n).now < d) ∧
    ∃ a ∈ o.arms[j]?, (w.turns n).trial o a.t = .ok x

/-- The arms, `k` visits into the lap after the `r`-th. -/
structure Interleaved (o : Opts) (w : Setting) (r k : Nat) (p : Progress) : Prop where
  arms : p.arms.map Arm.t = o.arms.map Arm.t
  begun : p.begun = r * o.arms.length + k
  filed : Filed (Made o w) o.arms.length r k (p.arms.map Arm.trials)

namespace Interleaved

variable {o : Opts} {w : Setting} {r k : Nat} {p : Progress}

theorem length_eq (h : Interleaved o w r k p) : p.arms.length = o.arms.length := by
  simpa using congrArg List.length h.arms

theorem start : Interleaved o w 0 0 { arms := o.arms } := by
  refine ⟨rfl, by simp, ?_⟩
  have hempty : o.arms.map Arm.trials = List.replicate o.arms.length [] := by
    simp [Opts.arms, List.eq_replicate_iff]
  rw [hempty]
  exact Filed.start _

/-- **Step.** A visit in time makes the next trial of its arm. -/
theorem push (h : Interleaved o w r k p) (hk : k < p.arms.length) (hspent : spent o w p = false)
    {x : Trial} (hx : (w.turns p.begun).trial o p.arms[k].t = .ok x) :
    Interleaved o w r (k + 1) (p.push k x) := by
  have hmade : Made o w (r * o.arms.length + k) k x := by
    rw [← h.begun]
    refine ⟨fun d hd => ?_, ?_⟩
    · rw [spent, hd, Option.any_some, decide_eq_false_iff_not] at hspent
      exact Nat.not_le.mp hspent
    · have ht : (p.arms.map Arm.t)[k]? = (o.arms.map Arm.t)[k]? := by rw [h.arms]
      rw [List.getElem?_map, List.getElem?_map, List.getElem?_eq_getElem hk] at ht
      obtain ⟨a, ha, hat⟩ := Option.map_eq_some_iff.mp ht.symm
      exact ⟨a, ha, hat ▸ hx⟩
  refine ⟨?_, ?_, ?_⟩
  · show (p.arms.modify k _).map Arm.t = _
    rw [← h.arms, map_modify_eq]
    exact fun _ => rfl
  · show p.begun + 1 = _
    rw [h.begun]
    rfl
  · have hmap : (p.push k x).arms.map Arm.trials = file (p.arms.map Arm.trials) k x :=
      map_modify_file (fun _ => rfl) p.arms k
    rw [hmap]
    exact h.filed.file hmade

end Interleaved

/-- **The loop** makes its trials in order, and ends for its reason. -/
theorem rounds_ok {o : Opts} {w : Setting} {e : Ended Progress} (h : rounds o w = .ok e) :
    ∃ k, Interleaved o w e.laps k e.state ∧
      e.At (spent o w) (enough o) o.arms.length o.maxRounds k := by
  have hlen : (List.range o.arms.length).length = o.arms.length := List.length_range
  have hvisit : ∀ r k i p p', (List.range o.arms.length)[k]? = some i → spent o w p = false →
      Interleaved o w r k p → visit o w p i = .ok p' → Interleaved o w r (k + 1) p' := by
    intro r k i p p' hi hspent hp hv
    obtain ⟨hk, hi⟩ := List.getElem?_eq_some_iff.mp hi
    rw [List.getElem_range] at hi
    subst hi
    rw [hlen, ← hp.length_eq] at hk
    obtain ⟨x, hx, rfl⟩ := visit_ok hk hv
    exact hp.push hk hspent hx
  have hlap : ∀ r p, Interleaved o w r (List.range o.arms.length).length p →
      Interleaved o w (r + 1) 0 p := by
    intro r p hp
    rw [hlen] at hp
    refine ⟨hp.arms, ?_, hp.filed.lap⟩
    rw [hp.begun, Nat.add_mul, Nat.one_mul, Nat.add_zero]
  obtain ⟨k, hk, hat⟩ := laps_ok hvisit hlap Interleaved.start h
  exact ⟨k, hk, hlen ▸ hat⟩

theorem run_ok {o : Opts} {w : Setting} {e : Ended Progress} {r : Report}
    (h : run o w = .ok (e, r)) :
    ∃ codeLen, w.code = .ok codeLen ∧ rounds o w = .ok e ∧ report o codeLen e = .ok r := by
  unfold run at h
  split at h
  · cases h
  · obtain ⟨codeLen, hcode, h⟩ := bind_eq_ok.mp h
    obtain ⟨_, -, h⟩ := bind_eq_ok.mp h
    obtain ⟨_, -, h⟩ := bind_eq_ok.mp h
    obtain ⟨e', he, h⟩ := bind_eq_ok.mp h
    obtain ⟨r', hr, h⟩ := bind_eq_ok.mp h
    cases h
    refine ⟨codeLen, ?_, he, ?_⟩
    · cases hc : w.code with
      | error _ => rw [hc] at hcode; cases hcode
      | ok n => rw [hc] at hcode; cases hcode; rfl
    · cases hp : report o codeLen e with
      | error _ => rw [hp] at hr; cases hr
      | ok n => rw [hp] at hr; cases hr; rfl

/-- A trial without a hedge time is never hedged. -/
theorem passes_unhedged {c : Setup} {s : State} {exit : Nat} {ps : List Pass} {out : Trial}
    (ht : c.t = none) (h : passes c s exit ps = some (.ok out)) : out.hedged = s.out.hedged := by
  induction ps generalizing s with
  | nil =>
    unfold passes at h
    split at h
    · cases h
    · cases h
      rfl
  | cons p ps ih =>
    obtain ⟨s', hp, h⟩ := passes_cons h
    obtain ⟨s1, h1, hp⟩ := bind_eq_ok.mp hp
    obtain ⟨s2, h2, h3⟩ := bind_eq_ok.mp hp
    have hmark : s1 = s := by
      rw [mark, ht] at h1
      cases h1
      rfl
    rw [ih h, (look_eq h3).2.1, (probe_eq h2).2.2, hmark]

theorem Turn.trial_control {o : Opts} {m : Turn} {x : Trial} (h : m.trial o none = .ok x) :
    x.hedged = false := by
  unfold Turn.trial at h
  split at h
  · cases h
  · dsimp only at h
    split at h
    · cases h
    · cases h
    · rename_i hx
      cases h
      unfold Hedge.trial at hx
      split at hx
      · cases hx
      · exact passes_unhedged rfl hx

/-- **The trials of a run.** The `q`-th trial of the `j`-th arm is the one begun after `q`
laps over all the arms and `j` visits more; no arm is ever more than one trial ahead of
another, and none at all where the budget did not cut the run; the control is never hedged;
and the run ended for the reason it gives. -/
theorem run_interleaves {o : Opts} {w : Setting} {e : Ended Progress} {r : Report}
    (h : run o w = .ok (e, r)) :
    ∃ k, Interleaved o w e.laps k e.state ∧
      (∀ a ∈ e.state.arms, e.laps ≤ a.trials.length ∧ a.trials.length ≤ e.laps + 1) ∧
      (∀ a ∈ e.state.arms, a.t = none → ∀ x ∈ a.trials, x.hedged = false) ∧
      e.laps ≤ o.maxRounds ∧
      match e.stop with
      | .enough => k = 0 ∧ ∀ t ∈ o.ts, o.targetConditioned ≤ (conditioned e.state.arms t).1 ∧
          o.targetConditioned ≤ (conditioned e.state.arms t).2
      | .budget => k < o.arms.length ∧
          ∃ d ∈ budget o w.start, d ≤ (w.turns e.state.begun).now
      | .cap => k = 0 ∧ e.laps = o.maxRounds := by
  obtain ⟨codeLen, -, he, -⟩ := run_ok h
  obtain ⟨k, hk, hat⟩ := rounds_ok he
  refine ⟨k, hk, ?_, ?_, hat.laps_le, ?_⟩
  · intro a ha
    obtain ⟨j, hj⟩ := List.mem_iff_getElem?.mp ha
    have hcount := hk.filed.count j a.trials (by rw [List.getElem?_map, hj]; rfl)
    unfold visits at hcount
    split at hcount <;> omega
  · intro a ha ht x hx
    obtain ⟨j, hj⟩ := List.mem_iff_getElem?.mp ha
    obtain ⟨q, hq⟩ := List.mem_iff_getElem?.mp hx
    obtain ⟨-, b, hb, htrial⟩ :=
      hk.filed.order j a.trials q x (by rw [List.getElem?_map, hj]; rfl) hq
    have hat : (o.arms.map Arm.t)[j]? = some a.t := by
      rw [← hk.arms, List.getElem?_map, hj, Option.map_some]
    rw [List.getElem?_map, hb, Option.map_some, Option.some.injEq, ht] at hat
    rw [hat] at htrial
    exact Turn.trial_control htrial
  · cases hs : e.stop with
    | enough =>
      refine ⟨hat.eq_zero (by rw [hs]; exact nofun), ?_⟩
      have := hat.enough hs
      rw [enough, List.all_eq_true] at this
      intro t ht
      simpa using this t ht
    | budget =>
      refine ⟨hat.lt hs, ?_⟩
      have := hat.spent hs
      rw [spent, Option.any_eq_true] at this
      simpa using this
    | cap => exact ⟨hat.eq_zero (by rw [hs]; exact nofun), hat.cap hs⟩

/-! ## What the rows rest on -/

theorem arms_cases {o : Opts} {arms : List Arm} (h : arms.map Arm.t = o.arms.map Arm.t) :
    ∃ control hs, arms = control :: hs ∧ control.t = none ∧ hs.map Arm.t = o.ts.map some := by
  cases arms with
  | nil => cases h
  | cons control hs =>
    rw [Opts.arms, List.map_cons, List.map_cons, List.map_map, List.cons.injEq] at h
    exact ⟨control, hs, rfl, h⟩

theorem hedgedArms_eq {hs : List Arm} {ts : List Nat} (h : hs.map Arm.t = ts.map some) :
    hedgedArms hs = hs.zip ts := by
  induction hs generalizing ts with
  | nil => rfl
  | cons a hs ih =>
    cases ts with
    | nil => cases h
    | cons t ts =>
      rw [List.map_cons, List.map_cons, List.cons.injEq] at h
      rw [List.zip_cons_cons, ← ih h.2, hedgedArms, List.filterMap_cons, h.1]
      rfl

/-- Of arms with distinct hedge times, the one found for a time is the one that has it. -/
theorem find_hedged {hs : List Arm} {ts : List Nat} (h : hs.map Arm.t = ts.map some)
    (hnd : ts.Nodup) {j : Nat} {a : Arm} {t : Nat} (ha : hs[j]? = some a) (ht : ts[j]? = some t) :
    hs.find? (fun a => a.t == some t) = some a := by
  induction hs generalizing ts j with
  | nil => cases ha
  | cons b hs ih =>
    cases ts with
    | nil => cases h
    | cons u ts =>
      rw [List.map_cons, List.map_cons, List.cons.injEq] at h
      rw [List.nodup_cons] at hnd
      cases j with
      | zero =>
        cases ha
        cases ht
        rw [List.find?_cons_of_pos (by rw [h.1]; exact beq_self_eq_true _)]
      | succ j =>
        have hne : u ≠ t := fun he => hnd.1 (he ▸ List.mem_of_getElem? ht)
        rw [List.find?_cons_of_neg (by rw [h.1]; simpa using hne)]
        exact ih h.2 hnd.2 ha ht

theorem exists_ackCells (acks : List ℚ) :
    ∃ cells, ackCells acks = .ok cells ∧ cells[0]? ≠ some "no finding" := by
  obtain ⟨sum, hs⟩ := Latency.exists_summary acks
  unfold ackCells
  rw [hs]
  cases sum with
  | none => exact ⟨_, rfl, by decide⟩
  | some s =>
    refine ⟨_, rfl, fun h => ?_⟩
    have hl := congrArg String.toList (Option.some.inj h)
    rw [String.toList_ofList] at hl
    have hn : 'n' ∈ print0 s.p50 := by
      rw [hl]
      decide
    obtain hm | hd := List.mem_append.mp hn
    · split at hm
      · exact absurd (List.mem_singleton.mp hm) (by decide)
      · cases hm
    · exact absurd (digits_isDigit hd) (by decide)

/-- A row that says in words that it has too few trials. -/
def SaysNoFinding (row : List String) : Prop := row[4]? = some "no finding"

theorem conditionedRow_ok (o : Opts) (t : Nat) (label : String) (pool : List Trial) :
    ∃ row, conditionedRow o t label pool = .ok row ∧ row[2]? = some (toString pool.length) ∧
      (SaysNoFinding row ↔ pool.length < o.minReport) := by
  unfold conditionedRow
  by_cases hp : pool.length < o.minReport
  · rw [if_pos hp]
    exact ⟨_, rfl, rfl, iff_of_true rfl hp⟩
  · rw [if_neg hp]
    obtain ⟨cells, hc, hne⟩ := exists_ackCells (pool.filterMap Trial.ack)
    rw [hc]
    exact ⟨_, rfl, rfl, iff_of_false hne hp⟩

theorem exists_row (o : Opts) (codeLen : Nat) (a : Arm) : ∃ r, row o codeLen a = .ok r := by
  obtain ⟨cells, hc, -⟩ := exists_ackCells a.acks
  unfold row
  rw [hc]
  exact ⟨_, rfl⟩

/-- **The control, unaided.** Its percentiles are over acknowledgements that came after the
hedge time, every one of them. -/
theorem Unaided.of_ok (control : List Trial) (t : Nat) :
    ∃ u, Unaided.of control t = .ok u ∧ u.pool = control.countP (unackedAt · t) ∧
      u.acked ≤ u.pool ∧ (u.p50 = none ↔ u.acked = 0) ∧
      (∀ v ∈ u.p50, millis t < v) ∧ ∀ v ∈ u.p90, millis t < v := by
  have hlate : ∀ v ∈ (control.filter (unackedAt · t)).filterMap Trial.ack, millis t < v := by
    intro v hv
    obtain ⟨x, hx, hack⟩ := List.mem_filterMap.mp hv
    have := (List.mem_filter.mp hx).2
    rw [unackedAt, hack] at this
    exact of_decide_eq_true this
  have hpool : (control.filter (unackedAt · t)).length = control.countP (unackedAt · t) :=
    List.countP_eq_length_filter.symm
  unfold Unaided.of
  generalize hacks : (control.filter (unackedAt · t)).filterMap Trial.ack = acks at hlate
  have hle : acks.length ≤ (control.filter (unackedAt · t)).length :=
    hacks ▸ List.length_filterMap_le _ _
  by_cases hne : acks = []
  · subst hne
    dsimp only
    rw [hacks]
    refine ⟨_, rfl, hpool, hle, iff_of_true rfl rfl, fun v hv => ?_, fun v hv => ?_⟩
    · cases hv
    · cases hv
  · obtain ⟨s, hs, hr⟩ := Summary.exists_of hne
    dsimp only
    rw [hacks, hs]
    have hsome : ¬(some s.p50 = none) := Option.some_ne_none _
    refine ⟨_, rfl, hpool, hle,
      iff_of_false hsome fun h => hne (List.eq_nil_of_length_eq_zero h),
      fun v hv => ?_, fun v hv => ?_⟩
    · obtain rfl := Option.some.inj hv
      exact hlate _ hr.p50.mem
    · obtain rfl := Option.some.inj hv
      exact hlate _ hr.p90.mem

theorem standing_tooFew {o : Opts} {c f : Nat} :
    standing o c f = .tooFew ↔ c < o.minReport ∨ f < o.minReport := by
  unfold standing
  split
  · exact iff_of_true rfl ‹_›
  · split
    · exact iff_of_false nofun ‹_›
    · exact iff_of_false nofun ‹_›

theorem standing_firm {o : Opts} {c f : Nat} (hc : o.targetConditioned ≤ c)
    (hf : o.targetConditioned ≤ f) (hmin : o.minReport ≤ o.targetConditioned) :
    standing o c f = .firm := by
  unfold standing
  rw [if_neg (by omega), if_neg (by omega)]

/-- What a report says of the `j`-th hedge time. -/
structure Says (o : Opts) (e : Ended Progress) (r : Report) (j t : Nat) : Prop where
  /-- The two rows count what the loop stops on, each reports no finding exactly where its own
  count is too low, and the last lines mark them as too few exactly where one of them does. -/
  rows : ∃ unhedged hedged, r.conditioned[j]? = some (unhedged, hedged) ∧
    unhedged[2]? = some (toString (conditioned e.state.arms t).1) ∧
    hedged[2]? = some (toString (conditioned e.state.arms t).2) ∧
    (SaysNoFinding unhedged ↔ (conditioned e.state.arms t).1 < o.minReport) ∧
    (SaysNoFinding hedged ↔ (conditioned e.state.arms t).2 < o.minReport) ∧
    (standing o (conditioned e.state.arms t).1 (conditioned e.state.arms t).2 = .tooFew ↔
      SaysNoFinding unhedged ∨ SaysNoFinding hedged)
  rest : r.rests[j]? = some (rests o e.state.arms t)
  firm : e.stop = .enough → o.minReport ≤ o.targetConditioned →
    standing o (conditioned e.state.arms t).1 (conditioned e.state.arms t).2 = .firm
  /-- What the control did unaided is over its trials in the row above, all of which took
  longer. -/
  unaided : ∃ u wire, r.costs[j]? = some (wire, s!"      {Unaided.line u}") ∧
    u.pool = (conditioned e.state.arms t).1 ∧ u.acked ≤ u.pool ∧
    (∀ v ∈ u.p50, millis t < v) ∧ ∀ v ∈ u.p90, millis t < v

theorem nodup_ts {o : Opts} (h : o.tsMs.Nodup) : o.ts.Nodup :=
  h.map fun a b hab => Nat.eq_of_mul_eq_mul_right (by decide) hab

theorem conditionedRows_ok (o : Opts) (control a : Arm) (t : Nat) :
    ∃ rows, conditionedRows o control a t = .ok rows ∧
      rows.1[2]? = some (toString (waiting control t).length) ∧
      rows.2[2]? = some (toString a.hedges) ∧
      (SaysNoFinding rows.1 ↔ (waiting control t).length < o.minReport) ∧
      (SaysNoFinding rows.2 ↔ a.hedges < o.minReport) := by
  obtain ⟨row, hr, hn, hf⟩ := conditionedRow_ok o t "no hedge" (waiting control t)
  obtain ⟨row', hr', hn', hf'⟩ := conditionedRow_ok o t "hedged" (a.trials.filter Trial.hedged)
  rw [← List.countP_eq_length_filter] at hn' hf'
  refine ⟨(row, row'), ?_, hn, hn', hf, hf'⟩
  unfold conditionedRows
  rw [hr, hr']
  rfl

theorem cost_ok (o : Opts) (codeLen : Nat) (control a : Arm) (t : Nat) :
    ∃ y u wire, cost o codeLen control a t = .ok y ∧ y = (wire, s!"      {Unaided.line u}") ∧
      u.pool = (waiting control t).length ∧ u.acked ≤ u.pool ∧
      (∀ v ∈ u.p50, millis t < v) ∧ ∀ v ∈ u.p90, millis t < v := by
  obtain ⟨u, hu, hpool, hacked, -, h50, h90⟩ := Unaided.of_ok control.trials t
  rw [List.countP_eq_length_filter] at hpool
  unfold cost
  rw [hu]
  exact ⟨_, u, _, rfl, rfl, hpool, hacked, h50, h90⟩

section Arms

variable {o : Opts} {control : Arm} {hs : List Arm} (hc : control.t = none)
  (hhs : hs.map Arm.t = o.ts.map some)
include hc hhs

/-- The counts that the loop stops on are those of the rows. -/
theorem conditioned_eq (hts : o.ts.Nodup) {j t : Nat} {a : Arm} (ha : hs[j]? = some a)
    (ht : o.ts[j]? = some t) :
    conditioned (control :: hs) t = ((waiting control t).length, a.hedges) := by
  unfold conditioned
  rw [List.find?_cons_of_pos (by rw [hc]; rfl), List.find?_cons_of_neg (by rw [hc]; exact nofun),
    find_hedged hhs hts ha ht]
  show (control.trials.countP _, a.hedges) = _
  rw [waiting, ← List.countP_eq_length_filter]
  congr 2
  funext x
  unfold unackedAt
  cases x.ack <;> rfl

theorem report_ok (codeLen : Nat) {e : Ended Progress} (harms : e.state.arms = control :: hs) :
    ∃ r, report o codeLen e = .ok r ∧ r.rests = o.ts.map (rests o (control :: hs)) ∧
      ((hs.zip o.ts).mapM fun x => conditionedRows o control x.1 x.2) = .ok r.conditioned ∧
      ((hs.zip o.ts).mapM fun x => cost o codeLen control x.1 x.2) = .ok r.costs := by
  have hhedged : hedgedArms (control :: hs) = hs.zip o.ts := by
    rw [← hedgedArms_eq hhs, hedgedArms, List.filterMap_cons, hc]
    rfl
  have hfind : (control :: hs).find? (fun a => a.t.isNone) = some control := by
    rw [List.find?_cons_of_pos (by rw [hc]; rfl)]
  obtain ⟨every, hevery⟩ := mapM_ok_iff.mpr fun a (_ : a ∈ control :: hs) => exists_row o codeLen a
  obtain ⟨two, htwo⟩ := mapM_ok_iff.mpr fun (x : Arm × Nat) (_ : x ∈ hs.zip o.ts) =>
    (conditionedRows_ok o control x.1 x.2).imp fun _ h => h.1
  obtain ⟨costs, hcosts⟩ := mapM_ok_iff.mpr fun (x : Arm × Nat) (_ : x ∈ hs.zip o.ts) =>
    (cost_ok o codeLen control x.1 x.2).imp fun _ ⟨_, _, h, _⟩ => h
  unfold report
  dsimp only
  rw [harms, hevery, hhedged, hfind]
  dsimp only [bind, Except.bind]
  rw [htwo, hcosts]
  exact ⟨_, rfl, rfl, rfl, rfl⟩

end Arms

/-- **The report of a run** always comes, and agrees with itself. -/
theorem report_conditions {o : Opts} {w : Setting} {e : Ended Progress} (he : rounds o w = .ok e)
    (hts : o.tsMs.Nodup) (codeLen : Nat) :
    ∃ r, report o codeLen e = .ok r ∧ ∀ j t, o.ts[j]? = some t → Says o e r j t := by
  obtain ⟨k, hk, hat⟩ := rounds_ok he
  obtain ⟨control, hs, harms, hc, hhs⟩ := arms_cases hk.arms
  obtain ⟨r, hr, hrests, hrows, hcosts⟩ := report_ok hc hhs codeLen harms
  refine ⟨r, hr, fun j t ht => ?_⟩
  obtain ⟨a, ha⟩ : ∃ a, hs[j]? = some a := by
    have hlen : hs.length = o.ts.length := by simpa using congrArg List.length hhs
    have hj := (List.getElem?_eq_some_iff.mp ht).1
    exact ⟨_, List.getElem?_eq_getElem (hlen ▸ hj)⟩
  have hzip : (hs.zip o.ts)[j]? = some (a, t) := List.getElem?_zip_eq_some.mpr ⟨ha, ht⟩
  have hcond := conditioned_eq hc hhs (nodup_ts hts) ha ht
  rw [← harms] at hcond
  obtain ⟨rows, hj, hrow⟩ := getElem?_of_mapM_ok hrows hzip
  obtain ⟨rows', hrow', hn, hn', hf, hf'⟩ := conditionedRows_ok o control a t
  obtain rfl := Except.ok.inj (hrow'.symm.trans hrow)
  obtain ⟨y, hjc, hy⟩ := getElem?_of_mapM_ok hcosts hzip
  obtain ⟨y', u, wire, hy', rfl, hpool, hacked, h50, h90⟩ := cost_ok o codeLen control a t
  obtain rfl := Except.ok.inj (hy'.symm.trans hy)
  refine ⟨⟨rows'.1, rows'.2, hj, ?_, ?_, ?_, ?_, ?_⟩, ?_, fun hstop hmin => ?_,
    u, wire, hjc, ?_, hacked, h50, h90⟩
  · rw [hcond]
    exact hn
  · rw [hcond]
    exact hn'
  · rw [hcond, hf]
  · rw [hcond, hf']
  · rw [hcond, standing_tooFew, hf, hf']
  · rw [hrests, ← harms, List.getElem?_map, ht, Option.map_some]
  · have := hat.enough hstop
    rw [enough, List.all_eq_true] at this
    obtain ⟨h1, h2⟩ : o.targetConditioned ≤ (conditioned e.state.arms t).1 ∧
        o.targetConditioned ≤ (conditioned e.state.arms t).2 := by
      simpa using this t (List.mem_of_getElem? ht)
    exact standing_firm h1 h2 hmin
  · rw [hpool, hcond]

/-- Every 30 ms one trial; the blocks are acknowledged at 45 ms. -/
def slow : Setting where
  code := .ok 4
  writer := .ok ()
  reader := .ok ()
  start := 0
  turns n :=
    { now := n, block := .ok ("A", [1]), t0 := 0, put := .ok ()
      passes :=
        [{ check := 0, now := 0, probeStart := 1000000
           messages := [(1000000, .got "A" [1] 5000000)], probeEnd := 5000000 },
          { check := 30000000, now := 30000000, writer := .put "A" 45000000 }]
      exit := 45000000 }

/-- One hedge time, of 30 ms, and one conditioned trial of each side to reach. -/
def oneEach : Opts :=
  { size := 1, tsMs := [30], targetConditioned := 1, minReport := 1, maxRounds := 5, trialSecs := 60,
    budgetSecs := 60 }

theorem rounds_slow : ∃ e, rounds oneEach slow = .ok e ∧ e.laps = 1 ∧ e.stop = .enough := by
  have h : (match rounds oneEach slow with
      | .ok e => decide (e.laps = 1 ∧ e.stop = .enough)
      | .error _ => false) = true := by decide +kernel
  split at h
  · rename_i e he
    exact ⟨e, he, of_decide_eq_true h⟩
  · cases h

theorem run_interleaves_slow : ∃ e r k, run oneEach slow = .ok (e, r) ∧
    Interleaved oneEach slow e.laps k e.state := by
  obtain ⟨e, he, -⟩ := rounds_slow
  obtain ⟨k, hk, -⟩ := rounds_ok he
  obtain ⟨control, hs, harms, hc, hhs⟩ := arms_cases hk.arms
  obtain ⟨r, hr, -⟩ := report_ok hc hhs 4 harms
  have h : run oneEach slow = .ok (e, r) := by
    unfold run
    rw [he, if_neg (by decide)]
    show ((report oneEach 4 e).mapError Halt.fault >>= fun r => pure (e, r)) = _
    rw [hr]
    rfl
  obtain ⟨k, hk, -⟩ := run_interleaves h
  exact ⟨e, r, k, h, hk⟩

theorem report_conditions_slow : ∃ e r, rounds oneEach slow = .ok e ∧
    report oneEach 4 e = .ok r ∧ Says oneEach e r 0 30000000 := by
  obtain ⟨e, he, -⟩ := rounds_slow
  obtain ⟨r, hr, h⟩ := report_conditions he (by decide) 4
  exact ⟨e, r, he, hr, h 0 30000000 rfl⟩

end FreenetHarness.Hedge
