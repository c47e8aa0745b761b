import FreenetHarness.Lib.LeastSquares
import FreenetHarness.Latency.Series
import FreenetHarness.ValidateCost

/-! # The report of `validate-cost`

Under the table of the updates stands the slope of latency over state size, which says
whether the cost tracks the state. `fit_best` says that it is the slope of the best line,
and that it is withheld exactly where there is none or too little to fit. -/
namespace FreenetHarness.ValidateCost
open FreenetHarness.Lib.Number FreenetHarness.Lib.LeastSquares FreenetHarness.Stats
  FreenetHarness.Latency FreenetHarness.Percentile FreenetHarness.Parity

def Arm.label : Arm → String
  | .growth => "growth"
  | .distinctNoop => "distinct-noop"
  | .repeatDelta => "repeat-delta"
  | .repeatState => "repeat-state"

/-- The line under the summary. -/
inductive Fit where
  | line (slope intercept : ℚ)
  | constant
  deriving DecidableEq

/-- `{:+.1}` of a finite float. -/
def printSigned1 (q : ℚ) : String := String.ofList (if q < 0 then print1 q else '+' :: print1 q)

def Fit.text : Fit → String
  | .line slope intercept =>
    let perKib := String.ofList (printPlaces 4 (slope * 1024))
    let perMib := printSigned1 (slope * 1024 * 1024)
    let intercept := String.ofList (print1 intercept)
    s!"  fit: {perKib} ms per KiB of state ({perMib} ms at 1 MiB), intercept {intercept} ms"
  | .constant =>
    "  fit: state size constant across this arm — slope undefined, as expected"

/-- Least squares on latency against state size. -/
def fit (ok : List (ℚ × ℚ)) : Option Fit :=
  if 3 ≤ ok.length then
    let n : ℚ := ok.length
    let s := ok.foldl (fun a p => (a.1 + p.1, a.2 + p.2)) (0, 0)
    let mx := s.1 / n
    let my := s.2 / n
    let num := (ok.map fun p => (p.1 - mx) * (p.2 - my)).sum
    let den := (ok.map fun p => (p.1 - mx) ^ 2).sum
    if 0 < den then
      let slope := num / den
      some (.line slope (my - slope * mx))
    else some .constant
  else none

/-- The updates that were answered: the size of the state, and the latency. -/
def answered (rows : List Row) : List (ℚ × ℚ) :=
  rows.filterMap fun r => match r.sample with
    | .ms v => some ((r.stateLen : ℚ), v)
    | .failed _ => none

def Row.cells (r : Row) : List String :=
  [toString r.i, kib r.stateLen, match r.sample with
    | .ms v => String.ofList (print1 v)
    | .failed _ => "ERROR"]

def summaryText (errors : Nat) : Option (Summary ℚ) → String
  | some s =>
    let min := String.ofList (print1 s.min)
    let p50 := String.ofList (print1 s.p50)
    let p90 := String.ofList (print1 s.p90)
    let max := String.ofList (print1 s.max)
    s!"  n={s.n} errors={errors}  min {min}  p50 {p50}  p90 {p90}  max {max}"
  | none => "  no successful updates"

/-- What is printed: a title, a table under its headings, a summary, and a fit. -/
structure Report where
  title : String
  headings : List String := ["update", "state", "latency ms"]
  table : List (List String)
  summary : String
  fit : Option Fit

def report (arm : Arm) (mode repeats : Nat) (rows : List Row) : Except Fault Report := do
  let ok := answered rows
  let sum ← Summary.of (ok.map Prod.snd)
  let work := if mode = 0 then "work in validate_state" else "work in update_state"
  return {
    title := s!"validate-cost  arm={arm.label}  mode={mode} ({work})  repeat={repeats}"
    table := rows.map Row.cells
    summary := summaryText (rows.length - ok.length) sum
    fit := fit ok }

/-- **A report can always be printed.** Its fit is that of the updates that were answered. -/
theorem report_ok (arm : Arm) (mode repeats : Nat) (rows : List Row) :
    ∃ r, report arm mode repeats rows = .ok r ∧ r.fit = fit (answered rows) := by
  obtain ⟨sum, hs⟩ := exists_summary ((answered rows).map Prod.snd)
  rw [report, hs]
  exact ⟨_, rfl, rfl⟩

/-! ## The fit -/

theorem foldl_sums (ok : List (ℚ × ℚ)) (a : ℚ × ℚ) :
    ok.foldl (fun a p => (a.1 + p.1, a.2 + p.2)) a =
      (a.1 + (ok.map Prod.fst).sum, a.2 + (ok.map Prod.snd).sum) := by
  induction ok generalizing a with
  | nil => simp
  | cons p ok ih =>
    rw [List.foldl_cons, ih, List.map_cons, List.map_cons, List.sum_cons, List.sum_cons,
      add_assoc, add_assoc]

/-- The code computes the moments of the samples about their means. -/
theorem fit_eq (ok : List (ℚ × ℚ)) :
    fit ok = if 3 ≤ ok.length then
        some (if 0 < spread ok then .line (fittedSlope ok) (fittedIntercept ok) else .constant)
      else none := by
  have hsums := foldl_sums ok (0, 0)
  simp only [zero_add] at hsums
  have hx : mean (ok.map Prod.fst) = (ok.map Prod.fst).sum / (ok.length : ℚ) := by
    rw [mean, List.length_map]
  have hy : mean (ok.map Prod.snd) = (ok.map Prod.snd).sum / (ok.length : ℚ) := by
    rw [mean, List.length_map]
  by_cases hlen : 3 ≤ ok.length
  · rw [if_pos hlen, fit, if_pos hlen]
    simp only [hsums, ← hx, ← hy]
    by_cases hden : 0 < spread ok
    · rw [if_pos hden]
      exact if_pos hden
    · rw [if_neg hden]
      exact if_neg hden
  · rw [if_neg hlen, fit, if_neg hlen]

/-- Too few samples, samples of one size, or a line. -/
theorem fit_cases (ok : List (ℚ × ℚ)) :
    (ok.length < 3 ∧ fit ok = none) ∨
      (3 ≤ ok.length ∧ ¬ TwoAbscissas ok ∧ fit ok = some .constant) ∨
      3 ≤ ok.length ∧ TwoAbscissas ok ∧
        fit ok = some (.line (fittedSlope ok) (fittedIntercept ok)) := by
  rw [fit_eq, ← spread_pos_iff]
  by_cases hlen : 3 ≤ ok.length
  · rw [if_pos hlen]
    by_cases hs : 0 < spread ok
    · exact .inr (.inr ⟨hlen, hs, by rw [if_pos hs]⟩)
    · exact .inr (.inl ⟨hlen, hs, by rw [if_neg hs]⟩)
  · exact .inl ⟨not_le.mp hlen, if_neg hlen⟩

theorem fit_eq_line_iff {ok : List (ℚ × ℚ)} {b a : ℚ} :
    fit ok = some (.line b a) ↔
      3 ≤ ok.length ∧ TwoAbscissas ok ∧ b = fittedSlope ok ∧ a = fittedIntercept ok := by
  rcases fit_cases ok with ⟨hlen, hf⟩ | ⟨hlen, htwo, hf⟩ | ⟨hlen, htwo, hf⟩
  · simp [hf, not_le.mpr hlen]
  · simp [hf, htwo]
  · simp [hf, hlen, htwo, eq_comm]

theorem fit_eq_constant_iff {ok : List (ℚ × ℚ)} :
    fit ok = some .constant ↔ 3 ≤ ok.length ∧ ¬ TwoAbscissas ok := by
  rcases fit_cases ok with ⟨hlen, hf⟩ | ⟨hlen, htwo, hf⟩ | ⟨hlen, htwo, hf⟩
  · simp [hf, not_le.mpr hlen]
  · simp [hf, hlen, htwo]
  · simp [hf, htwo]

/-- **The fit is the best line.** It is attempted for three samples or more where two sizes
differ, and withheld from those for which no line is the best. What it gives is the one line
that leaves the least squares, and so the line that the samples lie on if they do. -/
theorem fit_best (ok : List (ℚ × ℚ)) :
    ((∃ b a, fit ok = some (.line b a)) ↔ 3 ≤ ok.length ∧ ∃ p ∈ ok, ∃ q ∈ ok, p.1 ≠ q.1) ∧
      (fit ok = some .constant ↔ 3 ≤ ok.length ∧ ¬ ∃ a b, Best ok a b) ∧
      ∀ b a, fit ok = some (.line b a) →
        Best ok a b ∧ ∀ a' b', OnLine ok a' b' → a = a' ∧ b = b' := by
  refine ⟨?_, ?_, fun b a h => ?_⟩
  · constructor
    · rintro ⟨b, a, h⟩
      obtain ⟨hlen, htwo, -⟩ := fit_eq_line_iff.mp h
      exact ⟨hlen, htwo⟩
    · rintro ⟨hlen, htwo⟩
      exact ⟨_, _, fit_eq_line_iff.mpr ⟨hlen, htwo, rfl, rfl⟩⟩
  · rw [fit_eq_constant_iff, exists_best_iff]
  · obtain ⟨-, htwo, rfl, rfl⟩ := fit_eq_line_iff.mp h
    have hbest := best_fitted (spread_pos_iff.mpr htwo)
    refine ⟨hbest, fun a' b' hon => ?_⟩
    obtain ⟨ha, hb⟩ := hbest.eq_of_onLine hon
    exact ⟨ha.symm, hb.symm⟩

/-- Three updates on a line: a millisecond, and another for every KiB. -/
example : (fit [(1024, 2), (2048, 3), (4096, 5)]).map Fit.text =
    some "  fit: 1.0000 ms per KiB of state (+1024.0 ms at 1 MiB), intercept 1.0 ms" := by
  decide +kernel

end FreenetHarness.ValidateCost
