import FreenetHarness.Lib.Count
import FreenetHarness.Stats

/-! # `kill9`: does a read-back-confirmed PUT survive the node dying?

A run walks a plan of cells; every cell takes its trials one after the other and
keeps three counters. The report subtracts two of them to say how many confirmed
puts were lost, so what is asked here is when that subtraction is the number of
trials that were confirmed and then gone (`loss_figures_iff`). -/
namespace FreenetHarness.Kill9
open FreenetHarness.Lib.Count FreenetHarness.Stats

/-- One cell of the table. -/
structure Cell where
  size : Nat
  /-- Milliseconds between the read-back and the kill; `none` is the control,
  killed before any read-back. -/
  delay : Option Nat
  want : Nat
  confirmed : Nat := 0
  survived : Nat := 0
  trials : Nat := 0
  deriving DecidableEq

def Cell.label (c : Cell) : String :=
  match c.delay with
  | none => "CONTROL (killed before read-back)"
  | some d => s!"{d} ms"

structure Opts where
  port : Nat
  sizes : List Nat
  delaysMs : List Nat
  /-- Trials per delay, matched to `delaysMs` by position. -/
  nPerDelay : List Nat
  nControl : Nat
  budgetSecs : Nat

/-- How one trial went: what the read-back before the kill said, had the cell
asked for one, and what the read after the restart said. -/
structure Outcome where
  readBack : Bool
  survived : Bool
  deriving DecidableEq

/-! ## The run -/

/-- One trial, as the cell counts it. The control takes no read-back. -/
def Cell.trial (c : Cell) (o : Outcome) : Cell :=
  let confirmed := match c.delay with
    | none => false
    | some _ => o.readBack
  let c := { c with trials := c.trials + 1 }
  let c := if confirmed then { c with confirmed := c.confirmed + 1 } else c
  if o.survived then { c with survived := c.survived + 1 } else c

/-- Up to `n` trials of one cell; `true` when the budget ran out before all of
them. -/
def takeTrials : Nat → Cell → List Outcome → Cell × List Outcome × Bool
  | 0, c, os => (c, os, false)
  | _ + 1, c, [] => (c, [], true)
  | n + 1, c, o :: os => takeTrials n (c.trial o) os

/-- The `'cells` loop: the outcomes are the trials the budget left room for. -/
def runCells : List Cell → List Outcome → List Cell × Bool
  | [], _ => ([], false)
  | c :: cs, os =>
    let r := takeTrials c.want c os
    if r.2.2 then (r.1 :: cs, true)
    else
      let rest := runCells cs r.2.1
      (r.1 :: rest.1, rest.2)

/-- The cells of a plan: each size under each delay, then its control. -/
def plan (o : Opts) : List Cell :=
  o.sizes.flatMap fun size =>
    (o.delaysMs.zip o.nPerDelay).map (fun p => { size, delay := some p.1, want := p.2 }) ++
      [{ size, delay := none, want := o.nControl }]

/-! ## The report -/

/-- The `lost / n` column. -/
inductive LostCell where
  | control (lost n : Nat)
  | dash
  | of (lost n : Nat)
  deriving DecidableEq

def LostCell.text : LostCell → String
  | .control lost n => s!"{lost} / {n} (control: LOST is expected)"
  | .dash => "—"
  | .of lost n => s!"{lost} / {n}"

structure Row where
  size : String
  label : String
  want : Nat
  trials : Nat
  confirmed : Nat
  lost : LostCell
  deriving DecidableEq

/-- The number reported as lost for a delay cell. -/
def Cell.lost (c : Cell) : Nat := c.confirmed - min c.survived c.confirmed

def Cell.lostCell (c : Cell) : LostCell :=
  if c.delay = none then .control (c.trials - c.survived) c.trials
  else if c.confirmed = 0 then .dash
  else .of c.lost c.confirmed

/-- A cell no trial was taken of prints no row. -/
def Cell.row (c : Cell) : Option Row :=
  if c.trials = 0 then none
  else some { size := kib c.size, label := c.label, want := c.want, trials := c.trials,
              confirmed := c.confirmed, lost := c.lostCell }

structure Report where
  rows : List Row
  ctlLost : Nat
  ctlTrials : Nat
  d0Lost : Nat
  d0Conf : Nat
  lost : Nat
  conf : Nat
  cut : Bool
  deriving DecidableEq

def report (cells : List Cell) (cut : Bool) : Report :=
  let ctl := cells.filter fun c => c.delay == none && decide (0 < c.trials)
  let d0 := cells.filter fun c => c.delay == some 0 && decide (0 < c.trials)
  let delayed := cells.filter fun c => c.delay.isSome
  { rows := cells.filterMap Cell.row
    ctlLost := (ctl.map fun c => c.trials - c.survived).sum
    ctlTrials := (ctl.map Cell.trials).sum
    d0Lost := (d0.map Cell.lost).sum
    d0Conf := (d0.map Cell.confirmed).sum
    lost := (delayed.map Cell.lost).sum
    conf := (delayed.map Cell.confirmed).sum
    cut }

/-- The sentences printed under the table. -/
def Report.lines (r : Report) (budgetSecs : Nat) : List String :=
  [s!"CONTROL — killed before any read-back: {r.ctlLost} of {r.ctlTrials} lost. " ++
      if r.ctlLost = 0 then
        "NOTHING WAS EVER LOST, so this run does not show the kill landing where it is meant to " ++
          "— treat every cell above as unproven."
      else
        "The kill does destroy an unconfirmed put, so the cells above are testing what they claim.",
    "POOLED, killed 0 ms after the read-back, all sizes: " ++ lossClaim r.d0Lost r.d0Conf,
    "ALL confirmed puts, every delay: " ++ lossClaim r.lost r.conf] ++
  if r.cut then
    [s!"the run reached its {budgetSecs} s budget; the cells not taken are NOT within it"]
  else []

/-- Free space demanded before a run that writes blocks in a loop, in GiB. -/
def needFreeGib : Nat := 15

/-- What a run refuses before it starts a node, in the order it looks. -/
def refuse (freeGib : Option Nat) (load : Except String Unit) (o : Opts) : Except String Unit := do
  if let some g := freeGib then
    if g < needFreeGib then
      throw (s!"{g} GiB free on / — this run spawns nodes and writes blocks in a loop; " ++
        s!"it wants at least {needFreeGib} GiB. Free some space first.")
  if o.port = 7509 ∨ o.port = 7609 then
    throw s!"port {o.port} is the owner's node. This run must spawn its OWN."
  load
  if o.nPerDelay.length ≠ o.delaysMs.length then
    throw (s!"--n-per-delay has {o.nPerDelay.length} entries for {o.delaysMs.length} delays; " ++
      "they are matched positionally, so a mismatch would silently run the wrong plan")

def run (freeGib : Option Nat) (load : Except String Unit) (o : Opts) (os : List Outcome) :
    Except String Report := do
  refuse freeGib load o
  let r := runCells (plan o) os
  return report r.1 r.2

/-! ## Which trials a cell took -/

/-- The trials each cell of a plan takes from the outcomes of a run. -/
def allot : List Cell → List Outcome → List (Cell × List Outcome)
  | [], _ => []
  | c :: cs, os => (c, os.take c.want) :: allot cs (os.drop c.want)

/-- A cell after its trials. -/
def finish (x : Cell × List Outcome) : Cell := x.2.foldl Cell.trial x.1

theorem takeTrials_eq (n : Nat) (c : Cell) (os : List Outcome) :
    takeTrials n c os = (finish (c, os.take n), os.drop n, decide (os.length < n)) := by
  induction n generalizing c os with
  | zero => simp [takeTrials, finish]
  | succ n ih =>
    cases os with
    | nil => simp [takeTrials, finish]
    | cons o os => simp [takeTrials, finish, ih]

theorem finish_allot_nil (cs : List Cell) : (allot cs []).map finish = cs := by
  induction cs with
  | nil => rfl
  | cons c cs ih => simp [allot, finish, ih]

theorem runCells_fst (cs : List Cell) (os : List Outcome) :
    (runCells cs os).1 = (allot cs os).map finish := by
  induction cs generalizing os with
  | nil => rfl
  | cons c cs ih =>
    simp only [runCells, takeTrials_eq, allot, List.map_cons]
    by_cases hcut : os.length < c.want
    · simp [hcut, List.drop_eq_nil_of_le hcut.le, finish_allot_nil]
    · simp [hcut, ih]

/-! ## What the counters count -/

@[simp] theorem trial_delay (c : Cell) (o : Outcome) : (c.trial o).delay = c.delay := by
  unfold Cell.trial; dsimp only; split_ifs <;> rfl

@[simp] theorem trial_size (c : Cell) (o : Outcome) : (c.trial o).size = c.size := by
  unfold Cell.trial; dsimp only; split_ifs <;> rfl

@[simp] theorem trial_want (c : Cell) (o : Outcome) : (c.trial o).want = c.want := by
  unfold Cell.trial; dsimp only; split_ifs <;> rfl

@[simp] theorem trial_trials (c : Cell) (o : Outcome) : (c.trial o).trials = c.trials + 1 := by
  unfold Cell.trial; dsimp only; split_ifs <;> rfl

@[simp] theorem trial_survived (c : Cell) (o : Outcome) :
    (c.trial o).survived = c.survived + if o.survived then 1 else 0 := by
  unfold Cell.trial; dsimp only; split_ifs <;> rfl

@[simp] theorem trial_confirmed (c : Cell) (o : Outcome) :
    (c.trial o).confirmed =
      c.confirmed + if c.delay.isSome && o.readBack then 1 else 0 := by
  unfold Cell.trial
  cases hd : c.delay <;> cases hr : o.readBack <;> cases hs : o.survived <;> simp

/-- The counters are three independent counts over the cell's trials. -/
theorem finish_counts (c : Cell) (ts : List Outcome) :
    (finish (c, ts)).delay = c.delay ∧ (finish (c, ts)).size = c.size ∧
      (finish (c, ts)).want = c.want ∧ (finish (c, ts)).trials = c.trials + ts.length ∧
      (finish (c, ts)).survived = c.survived + ts.countP Outcome.survived ∧
      (finish (c, ts)).confirmed =
        c.confirmed + ts.countP fun t => c.delay.isSome && t.readBack := by
  induction ts generalizing c with
  | nil => simp [finish]
  | cons t ts ih =>
    obtain ⟨hd, hz, hw, ht, hs, hc⟩ := ih (c.trial t)
    simp only [finish, List.foldl_cons] at hd hz hw ht hs hc ⊢
    simp only [trial_delay, trial_size, trial_want, trial_trials, trial_survived,
      trial_confirmed] at hd hz hw ht hs hc
    refine ⟨hd, hz, hw, by rw [ht, List.length_cons]; omega, ?_, ?_⟩
    · rw [hs, List.countP_cons]; omega
    · rw [hc, List.countP_cons]; omega

/-- A cell no trial has been counted in. -/
structure Cell.Fresh (c : Cell) : Prop where
  confirmed : c.confirmed = 0
  survived : c.survived = 0
  trials : c.trials = 0

theorem plan_fresh {o : Opts} {c : Cell} (h : c ∈ plan o) : c.Fresh := by
  simp only [plan, List.mem_flatMap, List.mem_append, List.mem_map, List.mem_singleton] at h
  obtain ⟨size, -, ⟨p, -, rfl⟩ | rfl⟩ := h <;> exact ⟨rfl, rfl, rfl⟩

theorem mem_allot {cs : List Cell} {os : List Outcome} {x : Cell × List Outcome}
    (h : x ∈ allot cs os) : x.1 ∈ cs := by
  induction cs generalizing os with
  | nil => simp [allot] at h
  | cons c cs ih =>
    rcases List.mem_cons.mp h with rfl | h
    · simp
    · exact List.mem_cons_of_mem _ (ih h)

/-! ## What was lost -/

/-- The trials that were confirmed by read-back and not readable after the
restart. -/
def confirmedLost (ts : List Outcome) : Nat := ts.countP fun t => t.readBack && !t.survived

/-- The trials the loss is reported over. -/
def confirmedAll (ts : List Outcome) : Nat := ts.countP Outcome.readBack

/-- The trials that survived without ever having been confirmed. -/
def strays (ts : List Outcome) : Nat := ts.countP fun t => !t.readBack && t.survived

/-- A confirmed trial was lost and an unconfirmed one survived. -/
def Mixed (ts : List Outcome) : Prop :=
  (∃ t ∈ ts, t.readBack = true ∧ t.survived = false) ∧
    ∃ t ∈ ts, t.readBack = false ∧ t.survived = true

instance (ts : List Outcome) : Decidable (Mixed ts) := inferInstanceAs (Decidable (_ ∧ _))

theorem not_mixed_iff (ts : List Outcome) : ¬ Mixed ts ↔ confirmedLost ts = 0 ∨ strays ts = 0 := by
  simp only [Mixed, confirmedLost, strays, List.countP_eq_zero, not_and_or]
  simp

/-- **The subtraction.** A stray survivor hides a lost confirmed put, one for
one. -/
theorem finish_lost {c : Cell} (hf : c.Fresh) (hd : c.delay.isSome = true)
    (ts : List Outcome) :
    (finish (c, ts)).lost = confirmedLost ts - strays ts ∧
      (finish (c, ts)).confirmed = confirmedAll ts := by
  obtain ⟨-, -, -, -, hs, hc⟩ := finish_counts c ts
  simp only [hf.survived, hf.confirmed, hd, Bool.true_and, Nat.zero_add] at hs hc
  have hsplit : ∀ ts : List Outcome, ∃ both, ts.countP Outcome.survived = both + strays ts ∧
      confirmedAll ts = both + confirmedLost ts := by
    intro ts
    induction ts with
    | nil => exact ⟨0, rfl, rfl⟩
    | cons t ts ih =>
      obtain ⟨both, h1, h2⟩ := ih
      simp only [confirmedAll, confirmedLost, strays, List.countP_cons] at h1 h2 ⊢
      refine ⟨both + if t.readBack && t.survived then 1 else 0, ?_, ?_⟩ <;>
        cases t.readBack <;> cases t.survived <;> simp <;> omega
  obtain ⟨both, h1, h2⟩ := hsplit ts
  have hc : (finish (c, ts)).confirmed = confirmedAll ts := hc
  refine ⟨?_, hc⟩
  rw [Cell.lost, hc, hs, h1, h2]
  omega

/-- The row an honest table has for a cell and its trials. -/
def trueRow (x : Cell × List Outcome) : Option Row :=
  if x.2 = [] then none
  else some { size := kib x.1.size, label := x.1.label, want := x.1.want, trials := x.2.length,
              confirmed := if x.1.delay = none then 0 else confirmedAll x.2
              lost :=
                if x.1.delay = none then
                  .control (x.2.countP fun t => !t.survived) x.2.length
                else if confirmedAll x.2 = 0 then .dash
                else .of (confirmedLost x.2) (confirmedAll x.2) }

/-- **Honest figures.** Every number reported as lost is the number of trials
confirmed and then gone, over the number confirmed, in each row and in the two
pooled totals; and a trial that was never confirmed moves none of them. -/
structure LossFigures (xs : List (Cell × List Outcome)) (r : Report) : Prop where
  rows : r.rows = xs.filterMap trueRow
  d0Lost : r.d0Lost =
    ((xs.filter fun x => x.1.delay == some 0).map fun x => confirmedLost x.2).sum
  d0Conf : r.d0Conf =
    ((xs.filter fun x => x.1.delay == some 0).map fun x => confirmedAll x.2).sum
  lost : r.lost = ((xs.filter fun x => x.1.delay.isSome).map fun x => confirmedLost x.2).sum
  conf : r.conf = ((xs.filter fun x => x.1.delay.isSome).map fun x => confirmedAll x.2).sum
  blind : ∀ x ∈ xs, x.1.delay.isSome = true →
    (finish x).lostCell = (finish (x.1, x.2.filter Outcome.readBack)).lostCell

/-! ## When the figures are honest -/

theorem finish_row_control {c : Cell} (hf : c.Fresh) (hd : c.delay = none)
    (ts : List Outcome) : (finish (c, ts)).row = trueRow (c, ts) := by
  obtain ⟨hdl, hz, hw, ht, hs, hc⟩ := finish_counts c ts
  have hlen : ts.length - ts.countP Outcome.survived = ts.countP fun t => !t.survived := by
    have := List.length_eq_countP_add_countP Outcome.survived (l := ts)
    simp only [Bool.not_eq_true, Bool.decide_eq_false] at this
    omega
  simp only [hd, Option.isSome_none, Bool.false_and, List.countP_false] at hdl hc
  simp only [hf.trials, hf.survived, hf.confirmed, Nat.zero_add] at ht hs hc
  simp [Cell.row, trueRow, Cell.lostCell, Cell.label, hdl, hd, hz, hw, ht, hs, hc, hlen]

/-- Where nothing strays, or nothing is lost, the subtraction is exact. -/
theorem finish_lost_of_not_mixed {c : Cell} (hf : c.Fresh) (hd : c.delay.isSome = true)
    {ts : List Outcome} (hm : ¬ Mixed ts) : (finish (c, ts)).lost = confirmedLost ts := by
  obtain ⟨hl, -⟩ := finish_lost hf hd ts
  rcases (not_mixed_iff ts).mp hm with h | h <;> omega

theorem finish_row_delayed {c : Cell} (hf : c.Fresh) (hd : c.delay.isSome = true)
    {ts : List Outcome} (hm : ¬ Mixed ts) : (finish (c, ts)).row = trueRow (c, ts) := by
  obtain ⟨hdl, hz, hw, ht, -, -⟩ := finish_counts c ts
  obtain ⟨-, hc⟩ := finish_lost hf hd ts
  have hl := finish_lost_of_not_mixed hf hd hm
  have hne : c.delay ≠ none := Option.isSome_iff_ne_none.mp hd
  simp only [hf.trials, Nat.zero_add] at ht
  simp [Cell.row, trueRow, Cell.lostCell, Cell.label, hdl, hne, hz, hw, ht, hl, hc]

/-- The trials that were never confirmed do not move a delay cell's figure. -/
theorem lostCell_readBack {c : Cell} (hf : c.Fresh) (hd : c.delay.isSome = true)
    {ts : List Outcome} (hm : ¬ Mixed ts) :
    (finish (c, ts)).lostCell = (finish (c, ts.filter Outcome.readBack)).lostCell := by
  have hdelay : ∀ us, (finish (c, us)).delay ≠ none := fun us => by
    rw [(finish_counts c us).1]
    exact Option.isSome_iff_ne_none.mp hd
  have hkept : ¬ Mixed (ts.filter Outcome.readBack) := by
    rintro ⟨-, t, ht, hr, -⟩
    rw [(List.mem_filter.mp ht).2] at hr
    cases hr
  have hlost : confirmedLost (ts.filter Outcome.readBack) = confirmedLost ts := by
    simp only [confirmedLost, List.countP_filter]
    congr 1
    funext t
    cases t.readBack <;> simp
  have hall : confirmedAll (ts.filter Outcome.readBack) = confirmedAll ts := by
    simp only [confirmedAll, List.countP_filter, Bool.and_self]
  simp only [Cell.lostCell, hdelay, if_false, finish_lost_of_not_mixed hf hd hm,
    finish_lost_of_not_mixed hf hd hkept, (finish_lost hf hd _).2, hlost, hall]

/-! ## The pooled totals -/

section Pooled

variable {xs : List (Cell × List Outcome)} {f : Cell → Nat} {g : List Outcome → Nat}

/-- One pooled total over the 0 ms cells: a cell without trials adds nothing. -/
theorem pooled_zero (hf : ∀ x ∈ xs, x.1.Fresh) (hg : g [] = 0)
    (hfg : ∀ x ∈ xs, x.1.delay.isSome = true → f (finish x) = g x.2) :
    (((xs.map finish).filter fun c => c.delay == some 0 && decide (0 < c.trials)).map f).sum =
      ((xs.filter fun x => x.1.delay == some 0).map fun x => g x.2).sum := by
  rw [List.filter_map, List.map_map]
  apply sum_filter_congr
  intro x hx
  obtain ⟨hdelay, -, -, htrials, -, -⟩ := finish_counts x.1 x.2
  rw [(hf x hx).trials, Nat.zero_add] at htrials
  simp only [Function.comp_apply, hdelay, htrials]
  by_cases hd : x.1.delay = some 0
  · have := hfg x hx (by simp [hd])
    cases hts : x.2 with
    | nil => simp [hd, hg]
    | cons t ts => simp [hd, this, hts]
  · simp [hd]

theorem pooled_delayed (hfg : ∀ x ∈ xs, x.1.delay.isSome = true → f (finish x) = g x.2) :
    (((xs.map finish).filter fun c => c.delay.isSome).map f).sum =
      ((xs.filter fun x => x.1.delay.isSome).map fun x => g x.2).sum := by
  rw [List.filter_map, List.map_map]
  apply sum_filter_congr
  intro x hx
  simp only [Function.comp_apply, (finish_counts x.1 x.2).1]
  split
  · rename_i hd
    exact hfg x hx hd
  · rfl

end Pooled

theorem run_eq_ok {freeGib : Option Nat} {load : Except String Unit} {o : Opts}
    {os : List Outcome} {r : Report} (h : run freeGib load o os = .ok r) :
    ∃ cut, r = report ((allot (plan o) os).map finish) cut := by
  unfold run at h
  cases hr : refuse freeGib load o with
  | error e => rw [hr] at h; cases h
  | ok u =>
    rw [hr] at h
    refine ⟨(runCells (plan o) os).2, ?_⟩
    rw [← runCells_fst]
    exact (Except.ok.inj h).symm

theorem lossFigures_of_not_mixed {xs : List (Cell × List Outcome)} {cut : Bool}
    (hf : ∀ x ∈ xs, x.1.Fresh) (hm : ∀ x ∈ xs, x.1.delay ≠ none → ¬ Mixed x.2) :
    LossFigures xs (report (xs.map finish) cut) := by
  have hm : ∀ x ∈ xs, x.1.delay.isSome = true → ¬ Mixed x.2 :=
    fun x hx hd => hm x hx (Option.isSome_iff_ne_none.mp hd)
  have hlost : ∀ x ∈ xs, x.1.delay.isSome = true → (finish x).lost = confirmedLost x.2 :=
    fun x hx hd => finish_lost_of_not_mixed (hf x hx) hd (hm x hx hd)
  have hconf : ∀ x ∈ xs, x.1.delay.isSome = true → (finish x).confirmed = confirmedAll x.2 :=
    fun x hx hd => (finish_lost (hf x hx) hd x.2).2
  refine ⟨?_, pooled_zero hf rfl hlost, pooled_zero hf rfl hconf, pooled_delayed hlost,
    pooled_delayed hconf, fun x hx hd => lostCell_readBack (hf x hx) hd (hm x hx hd)⟩
  rw [report, List.filterMap_map]
  apply List.filterMap_congr
  intro x hx
  cases hd : x.1.delay with
  | none => exact finish_row_control (hf x hx) hd x.2
  | some d =>
    have hsome : x.1.delay.isSome = true := by simp [hd]
    exact finish_row_delayed (hf x hx) hsome (hm x hx hsome)

/-- **When a loss is reported in full.** The figures of a run are honest exactly
when no delay cell has both a confirmed put that was lost and an unconfirmed one
that survived. -/
theorem loss_figures_iff {freeGib : Option Nat} {load : Except String Unit} {o : Opts}
    {os : List Outcome} {r : Report} (h : run freeGib load o os = .ok r) :
    LossFigures (allot (plan o) os) r ↔
      ∀ x ∈ allot (plan o) os, x.1.delay ≠ none → ¬ Mixed x.2 := by
  obtain ⟨cut, rfl⟩ := run_eq_ok h
  have hf : ∀ x ∈ allot (plan o) os, x.1.Fresh := fun x hx => plan_fresh (mem_allot hx)
  constructor
  · intro hl x hx hd
    have hd : x.1.delay.isSome = true := Option.isSome_iff_ne_none.mpr hd
    -- the total over every delay already tells: no cell can report too many
    have hle : ∀ y ∈ (allot (plan o) os).filter fun x => x.1.delay.isSome,
        (finish y).lost ≤ confirmedLost y.2 := by
      intro y hy
      obtain ⟨hy, hdy⟩ := List.mem_filter.mp hy
      have := (finish_lost (hf y hy) hdy y.2).1
      have this : (finish y).lost = _ := this
      omega
    have hsum := hl.lost
    have hfilter : ((allot (plan o) os).map finish).filter (fun c => c.delay.isSome) =
        ((allot (plan o) os).filter fun x => x.1.delay.isSome).map finish := by
      rw [List.filter_map]
      congr 1
      apply List.filter_congr
      intro y _
      simp [(finish_counts y.1 y.2).1]
    simp only [report, hfilter, List.map_map] at hsum
    have heq := eq_of_sum_le hle hsum x (List.mem_filter.mpr ⟨hx, hd⟩)
    have hfin : (finish x).lost = _ := (finish_lost (hf x hx) hd x.2).1
    rw [not_mixed_iff]
    omega
  · exact lossFigures_of_not_mixed hf

/-- One delay of 0 ms, two trials, one size. -/
def twoTrials : Opts :=
  { port := 7600, sizes := [1024], delaysMs := [0], nPerDelay := [2], nControl := 0,
    budgetSecs := 0 }

/-- The rule at work: both trials confirmed, one of them lost. -/
theorem loss_figures_two_confirmed :
    LossFigures (allot (plan twoTrials) [⟨true, false⟩, ⟨true, true⟩])
      (report ((allot (plan twoTrials) [⟨true, false⟩, ⟨true, true⟩]).map finish) false) :=
  have hr : run none (.ok ()) twoTrials [⟨true, false⟩, ⟨true, true⟩] = .ok _ := rfl
  (loss_figures_iff hr).mpr (by decide)

/-- A confirmed put is lost, a put that never confirmed is found afterwards: the
run reports that nothing was lost. -/
theorem stray_hides_loss :
    ∃ r, run none (.ok ()) twoTrials [⟨true, false⟩, ⟨false, true⟩] = .ok r ∧
      r.lost = 0 ∧ r.conf = 1 ∧
      ¬ LossFigures (allot (plan twoTrials) [⟨true, false⟩, ⟨false, true⟩]) r := by
  refine ⟨_, rfl, rfl, rfl, fun h => ?_⟩
  exact absurd h.lost (by decide)

end FreenetHarness.Kill9
