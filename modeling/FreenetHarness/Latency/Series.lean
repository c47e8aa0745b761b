import FreenetHarness.Latency
import FreenetHarness.Percentile

/-! # The tables of a series

A series that has fewer samples than were asked for gets a note under its row, which says
that the run reached its budget. `shortfall_iff` says when that is what happened. -/
namespace FreenetHarness.Latency
open FreenetHarness.Lib.Inbox FreenetHarness.Lib.Number FreenetHarness.Lib.Run
  FreenetHarness.Parity FreenetHarness.Percentile FreenetHarness.Stats

/-! ## The table -/

/-- Latencies only; the failures are counted and printed separately. -/
def latencies (samples : List Sample) : List ℚ :=
  samples.filterMap fun
    | .ms v => some v
    | .failed _ => none

def failures (samples : List Sample) : List String :=
  samples.filterMap fun
    | .ms _ => none
    | .failed e => some e

def stallMs : ℚ := 240000

def stalls (samples : List Sample) : Nat := (latencies samples).countP fun v => stallMs ≤ v

def tailFactor : ℚ := 10

/-- Samples more than `tailFactor` times the median. -/
def tail (samples : List Sample) : Except Fault Nat := do
  match ← Summary.of (latencies samples) with
  | some s => return (latencies samples).countP fun v => s.p50 * tailFactor < v
  | none => return 0

/-- The five numbers as table cells. -/
def cells (s : Summary ℚ) : List String :=
  [s.min, s.p50, s.p90, s.p99, s.max].map fun v => String.ofList (print1 v)

/-- A line under the table. -/
inductive Note where
  | stale (kind : String) (size late : Nat)
  | budget (kind : String) (size taken wanted : Nat)
  | errors (kind : String) (size failed : Nat) (first : String)
  deriving DecidableEq

def Note.text : Note → String
  | .stale kind size late =>
    s!"{kind} {kib size}: {late} late answer(s) to requests already given up on were " ++
      "discarded, not charged to a later sample"
  | .budget kind size taken wanted =>
    s!"{kind} {kib size}: {taken} of {wanted} samples taken — the run reached its budget, " ++
      "the rest are NOT within it"
  | .errors kind size failed first => s!"   {kind} {kib size}: {failed} error(s), first: {first}"

variable {Key : Type}

section Print

variable (c : SeriesSpec) (s : Series Key) (samples : List Sample)

def rowOf : Except Fault (List String) := do
  let tail ← tail samples
  let sum ← Summary.of (latencies samples)
  return [c.kind, kib c.size, kib s.stateBytes, toString c.n,
      toString (latencies samples).length, toString (failures samples).length,
      toString (stalls samples), toString tail] ++
    match sum with
    | some sum => cells sum
    | none => List.replicate 5 "-"

def notesOf : List Note :=
  (if 0 < s.stalePut + s.staleGet then [.stale c.kind c.size (s.stalePut + s.staleGet)] else []) ++
    (if samples.length < c.n then [.budget c.kind c.size samples.length c.n] else []) ++
    match failures samples with
    | first :: _ => [.errors c.kind c.size (failures samples).length first]
    | [] => []

end Print

/-- The rows and the notes of a table, of the puts or of the gets. -/
def printSeries (pick : Series Key → List Sample) (series : List (SeriesSpec × Series Key)) :
    Except Fault (List (List String) × List Note) := do
  let rows ← series.mapM fun x => rowOf x.1 x.2 (pick x.2)
  return (rows, series.flatMap fun x => notesOf x.1 x.2 (pick x.2))

theorem exists_summary (samples : List ℚ) : ∃ sum, Summary.of samples = .ok sum := by
  by_cases h : samples = []
  · exact ⟨none, if_pos h⟩
  · obtain ⟨s, hs, -⟩ := Summary.exists_of h
    exact ⟨some s, hs⟩

theorem exists_rowOf (c : SeriesSpec) (s : Series Key) (samples : List Sample) :
    ∃ row, rowOf c s samples = .ok row := by
  obtain ⟨sum, hs⟩ := exists_summary (latencies samples)
  have htail : ∃ k, tail samples = .ok k := by
    unfold tail
    rw [hs]
    cases sum <;> exact ⟨_, rfl⟩
  refine bind_ok htail fun k => ?_
  rw [hs]
  exact ⟨_, rfl⟩

/-- **A table can always be printed**, and under it stand the notes of its series. -/
theorem printSeries_ok (pick : Series Key → List Sample) (series : List (SeriesSpec × Series Key)) :
    ∃ rows, printSeries pick series =
      .ok (rows, series.flatMap fun x => notesOf x.1 x.2 (pick x.2)) := by
  obtain ⟨rows, hrows⟩ := mapM_ok_iff.mpr fun (x : SeriesSpec × Series Key) (_ : x ∈ series) =>
    exists_rowOf x.1 x.2 (pick x.2)
  refine ⟨rows, ?_⟩
  rw [printSeries, hrows]
  rfl

/-- The table of a series says that it reached its budget. -/
def SaysBudget (pick : Series Key → List Sample) (c : SeriesSpec) (s : Series Key) : Prop :=
  ∃ rows notes taken, printSeries pick [(c, s)] = .ok (rows, notes) ∧
    Note.budget c.kind c.size taken c.n ∈ notes

theorem saysBudget_iff {pick : Series Key → List Sample} {c : SeriesSpec} {s : Series Key} :
    SaysBudget pick c s ↔ (pick s).length < c.n := by
  obtain ⟨rows, hp⟩ := printSeries_ok pick [(c, s)]
  rw [List.flatMap_singleton] at hp
  constructor
  · rintro ⟨rows', notes, taken, hp', hm⟩
    cases hp.symm.trans hp'
    unfold notesOf at hm
    by_contra hn
    rw [if_neg hn] at hm
    split at hm <;> split at hm <;> simp at hm
  · intro hlt
    refine ⟨rows, _, (pick s).length, hp, ?_⟩
    unfold notesOf
    rw [if_pos hlt]
    simp

/-! ## What stops a series -/

/-- A latency, or a failure. -/
def Sample.isMs : Sample → Bool
  | .ms _ => true
  | .failed _ => false

section Loops

variable [DecidableEq Key] {c : SeriesSpec} {s : Series Key} {p : PutPass Key}

/-- Where the puts of a series leave it. -/
def putLoop (c : SeriesSpec) (s : Series Key) (puts : Nat → PutPass Key) : Series Key :=
  after (putStep c) s ((List.range c.n).map puts)

/-- The put of a pass, if it makes one, is acknowledged: of the messages that can be read
within its wait, the first that is the answer or an error is the answer. -/
def Acknowledged (c : SeriesSpec) (s : Series Key) (p : PutPass Key) : Prop :=
  ∀ key, Puts c s p key → ∃ a,
    (readable (p.request.t + c.wait) p.request.clock s.inbox).find?
      (fun a => ends putKey key a.msg) = some a ∧ a.msg = .response (.putResponse key)

theorem putStep_of_stopped (h : s.stop ≠ none) (p : PutPass Key) : putStep c s p = s := by
  unfold putStep
  split
  · rfl
  · contradiction

theorem getStep_of_stopped (h : s.stop ≠ none) (x : (Key × Bytes) × GetPass) :
    getStep c s x = s := by
  unfold getStep
  split
  · rfl
  · contradiction

/-- **One pass of the put loop**: it puts nothing and stops the series, or it adds a sample,
and a block held where that is a latency. -/
theorem putStep_cases (h0 : s.stop = none) (p : PutPass Key) :
    (∃ stop, (putStep c s p).stop = some stop ∧ (putStep c s p).put = s.put ∧
        (putStep c s p).held = s.held ∧ (stop = .budget → ∀ key, ¬ Puts c s p key)) ∨
      ∃ key r, Puts c s p key ∧
        timedPut c.wait key p.request s.stalePut s.inbox = .ok r ∧
        (putStep c s p).stop = none ∧ (putStep c s p).put = s.put ++ [r.sample] ∧
        (putStep c s p).held.length = s.held.length + if r.sample.isMs then 1 else 0 := by
  unfold putStep
  rw [h0]
  dsimp only
  cases hp : prepare c s p with
  | error stop =>
    refine .inl ⟨stop, rfl, rfl, rfl, ?_⟩
    rintro - key ⟨-, state, h⟩
    cases hp.symm.trans h
  | ok x =>
    obtain ⟨key, state⟩ := x
    dsimp only
    cases hr : timedPut c.wait key p.request s.stalePut s.inbox with
    | error e => exact .inl ⟨.failed e, rfl, rfl, rfl, fun h => by cases h⟩
    | ok r =>
      refine .inr ⟨key, r, ⟨h0, state, hp⟩, hr, rfl, rfl, ?_⟩
      cases hs : r.sample <;> simp [Sample.isMs, hs]

theorem getStep_cases (h0 : s.stop = none) (x : (Key × Bytes) × GetPass) :
    ((getStep c s x).stop ≠ none ∧ (getStep c s x).get.length = s.get.length ∨
      (getStep c s x).stop = none ∧ (getStep c s x).get.length = s.get.length + 1) ∧
      (getStep c s x).put = s.put := by
  unfold getStep
  rw [h0]
  dsimp only
  split
  · simp
  · split
    · simp
    · simp

/-- The puts come to one sample a pass exactly when nothing stops them. -/
theorem putLoop_length (h0 : s.stop = none) (ps : List (PutPass Key)) :
    (after (putStep c) s ps).put.length ≤ s.put.length + ps.length ∧
      ((after (putStep c) s ps).stop = none ↔
        (after (putStep c) s ps).put.length = s.put.length + ps.length) := by
  have hstep (s : Series Key) (p : PutPass Key) (hs : ¬ s.stop ≠ none) :
      (putStep c s p).stop ≠ none ∧ (putStep c s p).put.length = s.put.length ∨
        ¬ (putStep c s p).stop ≠ none ∧ (putStep c s p).put.length = s.put.length + 1 := by
    obtain ⟨stop, h1, h2, -⟩ | ⟨key, r, -, -, h1, h2, -⟩ := putStep_cases (c := c) (not_not.mp hs) p
    · exact .inl ⟨by simp [h1], by rw [h2]⟩
    · exact .inr ⟨by simp [h1], by rw [h2, List.length_append, List.length_singleton]⟩
  have h := after_count (fun s => s.put.length) (fun s => s.stop ≠ none)
    (fun s p hs => putStep_of_stopped hs p) hstep (not_not.mpr h0) ps
  rwa [not_not] at h

theorem getLoop_length (h0 : s.stop = none) (xs : List ((Key × Bytes) × GetPass)) :
    (after (getStep c) s xs).get.length ≤ s.get.length + xs.length ∧
      ((after (getStep c) s xs).stop = none ↔
        (after (getStep c) s xs).get.length = s.get.length + xs.length) := by
  have hstep (s : Series Key) (x : (Key × Bytes) × GetPass) (hs : ¬ s.stop ≠ none) :
      (getStep c s x).stop ≠ none ∧ (getStep c s x).get.length = s.get.length ∨
        ¬ (getStep c s x).stop ≠ none ∧ (getStep c s x).get.length = s.get.length + 1 := by
    rw [not_not]
    exact (getStep_cases (not_not.mp hs) x).1
  have h := after_count (fun s => s.get.length) (fun s => s.stop ≠ none)
    (fun s x hs => getStep_of_stopped hs x) hstep (not_not.mpr h0) xs
  rwa [not_not] at h

/-- A put that returns has a latency exactly when it is acknowledged. -/
theorem isMs_iff {key : Key} {r : Timed Key} (hp : Puts c s p key)
    (hr : timedPut c.wait key p.request s.stalePut s.inbox = .ok r) :
    r.sample.isMs = true ↔ Acknowledged c s p := by
  have hended : (putScan c.wait key p.request s.inbox).ended = _ :=
    scan_ended (ends putKey key) (p.request.t + c.wait) p.request.clock s.inbox
  have hkey : ∀ key', Puts c s p key' → key' = key := by
    rintro key' ⟨-, state', h'⟩
    obtain ⟨-, state, h⟩ := hp
    cases h.symm.trans h'
    rfl
  rw [(timedPut_ok hr).1]
  unfold Acknowledged
  constructor
  · intro h key' hp'
    rw [hkey key' hp', ← hended]
    cases ho : (putScan c.wait key p.request s.inbox).ended with
    | none =>
      rw [ho] at h
      cases h
    | some a =>
      refine ⟨a, rfl, ?_⟩
      obtain hm | ⟨e, cause, hm⟩ := ends_putKey (of_scan_ended ho).1
      · exact hm
      · rw [ho, ending, hm] at h
        cases h
  · intro h
    obtain ⟨a, ha, hm⟩ := h key hp
    rw [hended, ha, ending, hm]
    rfl

/-- **The puts of a series** all have a latency exactly when each is acknowledged. -/
theorem putLoop_isMs (h0 : s.stop = none) (ps : List (PutPass Key))
    (hend : ∀ e, (after (putStep c) s ps).stop ≠ some (.failed e)) :
    (∀ x ∈ (after (putStep c) s ps).put, x.isMs = true) ↔
      (∀ x ∈ s.put, x.isMs = true) ∧ Along (putStep c) (Acknowledged c) s ps := by
  induction ps generalizing s with
  | nil => simp
  | cons p ps ih =>
    rw [after_cons] at hend ⊢
    rw [along_cons]
    obtain ⟨stop, hstop, hput, -, hno⟩ | ⟨key, r, hp, hr, hstop, hput, -⟩ := putStep_cases h0 p
    · have hne : (putStep c s p).stop ≠ none := by
        rw [hstop]
        exact nofun
      have halong : Along (putStep c) (Acknowledged c) (putStep c s p) ps :=
        along_of_fixed (putStep_of_stopped hne) (fun p key hp => absurd hp.1 hne) ps
      rw [after_of_fixed (putStep_of_stopped hne)] at hend ⊢
      have hack : Acknowledged c s p := by
        intro key hp
        cases stop with
        | budget => exact absurd hp (hno rfl key)
        | failed e => exact absurd hstop (hend e)
      simp [hput, hack, halong]
    · rw [ih hstop hend, hput, ← isMs_iff hp hr]
      simp only [List.forall_mem_append, List.forall_mem_singleton, and_assoc]

/-- What is held is what was acknowledged. -/
theorem putLoop_held (h : s.held.length = s.put.countP Sample.isMs) (ps : List (PutPass Key)) :
    (after (putStep c) s ps).held.length = (after (putStep c) s ps).put.countP Sample.isMs := by
  refine after_invariant (I := fun s : Series Key => s.held.length = s.put.countP Sample.isMs) ps h
    fun s p _ hi => ?_
  by_cases hs : s.stop = none
  · obtain ⟨stop, -, hput, hheld, -⟩ | ⟨key, r, -, -, -, hput, hheld⟩ := putStep_cases (c := c) hs p
    · rw [hput, hheld]
      exact hi
    · rw [hput, hheld, hi, List.countP_append, List.countP_singleton]
  · rw [putStep_of_stopped hs]
    exact hi

theorem putStep_get (c : SeriesSpec) (s : Series Key) (p : PutPass Key) :
    (putStep c s p).get = s.get := by
  unfold putStep
  split
  · rfl
  · split
    · rfl
    · dsimp only
      split <;> rfl

theorem putLoop_get (ps : List (PutPass Key)) : (after (putStep c) s ps).get = s.get :=
  after_invariant (I := fun t : Series Key => t.get = s.get) ps rfl
    fun t p _ hi => (putStep_get c t p).trans hi

theorem getLoop_put (xs : List ((Key × Bytes) × GetPass)) :
    (after (getStep c) s xs).put = s.put := by
  refine after_invariant (I := fun t : Series Key => t.put = s.put) xs rfl fun t x _ hi => ?_
  by_cases ht : t.stop = none
  · rw [(getStep_cases ht x).2]
    exact hi
  · rw [getStep_of_stopped ht]
    exact hi

/-- What the table of a series says of a shortfall. -/
structure Faithful (c : SeriesSpec) (s : Series Key) (puts : Nat → PutPass Key)
    (r : Series Key) : Prop where
  /-- The puts are said to have reached the budget only where that stopped them. -/
  put : SaysBudget Series.put c r → (putLoop c s puts).stop = some .budget
  /-- The gets only where it stopped them or the puts. -/
  get : SaysBudget Series.get c r →
    (putLoop c s puts).stop = some .budget ∨ r.stop = some .budget
  /-- A get that was not made because its put failed is not said to be one for which there
  was no time. -/
  failed : (∃ e, .failed e ∈ r.put) → ¬ SaysBudget Series.get c r

/-- **What a series leaves** for its tables. -/
theorem of_measureSeries {inbox : List (Arrival (Message Key))} {puts : Nat → PutPass Key}
    {gets : Nat → GetPass} {r : Series Key}
    (h : measureSeries c { inbox := inbox } puts gets = .ok r) :
    r.put = (putLoop c { inbox := inbox } puts).put ∧
      (∀ e, (putLoop c { inbox := inbox } puts).stop ≠ some (.failed e)) ∧
      (∀ e, r.stop ≠ some (.failed e)) ∧
      r.get.length ≤ (putLoop c { inbox := inbox } puts).held.length ∧
      (r.stop = none ↔ r.get.length = (putLoop c { inbox := inbox } puts).held.length) := by
  unfold measureSeries at h
  generalize hp : putLoop c { inbox := inbox } puts = s at *
  rw [show after (putStep c) { inbox := inbox } ((List.range c.n).map puts) = s from hp] at h
  dsimp only at h
  have hget : s.get.length = 0 := by
    rw [← hp]
    exact congrArg List.length (putLoop_get _)
  have hheld : (s.held.zip ((List.range s.held.length).map gets)).length = s.held.length := by
    simp
  split at h
  · cases h
  · rename_i hput
    obtain ⟨hle, hiff⟩ := getLoop_length (c := c) (s := { s with stop := none }) rfl
      (s.held.zip ((List.range s.held.length).map gets))
    split at h
    · cases h
    · rename_i hend
      cases h
      simp only [hheld, hget, Nat.zero_add] at hle hiff
      exact ⟨getLoop_put _, fun e he => hput e he, fun e he => hend e he, hle, hiff⟩

theorem budget_of_ne {o : Option Stop} (h : o ≠ none) (hf : ∀ e, o ≠ some (.failed e)) :
    o = some .budget := by
  cases o with
  | none => exact absurd rfl h
  | some stop =>
    cases stop with
    | budget => rfl
    | failed e => exact absurd rfl (hf e)

/-- **A shortfall of a series** is said to be the budget's only where it was, exactly when
every put made was acknowledged. -/
theorem shortfall_iff {inbox : List (Arrival (Message Key))} {puts : Nat → PutPass Key}
    {gets : Nat → GetPass} {r : Series Key}
    (h : measureSeries c { inbox := inbox } puts gets = .ok r) :
    Faithful c { inbox := inbox } puts r ↔
      Along (putStep c) (Acknowledged c) { inbox := inbox } ((List.range c.n).map puts) := by
  obtain ⟨hput, hend, hend', hle, hiff⟩ := of_measureSeries h
  obtain ⟨hlen, hstop⟩ := putLoop_length (c := c) (s := { inbox := inbox }) rfl
    ((List.range c.n).map puts)
  have hms := (putLoop_isMs (c := c) (s := { inbox := inbox }) rfl ((List.range c.n).map puts)
    hend).trans (and_iff_right (List.forall_mem_nil _))
  have hheld := putLoop_held (c := c) (s := { inbox := inbox }) rfl ((List.range c.n).map puts)
  rw [show after (putStep c) { inbox := inbox } ((List.range c.n).map puts) =
    putLoop c { inbox := inbox } puts from rfl] at hlen hstop hms hheld
  generalize hloop : putLoop c { inbox := inbox } puts = s at *
  simp only [List.length_nil, Nat.zero_add, List.length_map, List.length_range] at hlen hstop
  rw [← hms]
  constructor
  · intro hf x hx
    by_contra hn
    have hfew : s.put.countP Sample.isMs < s.put.length :=
      List.countP_lt_length_iff.mpr ⟨x, hx, by simpa using hn⟩
    have hshort : SaysBudget Series.get c r := saysBudget_iff.mpr (by omega)
    cases x with
    | ms v => exact hn rfl
    | failed e => exact hf.failed ⟨e, hput ▸ hx⟩ hshort
  · intro hall
    have hfull : s.held.length = s.put.length := hheld.trans (List.countP_eq_length.mpr hall)
    refine ⟨fun hs => ?_, fun hs => ?_, ?_⟩
    · have hs := saysBudget_iff.mp hs
      rw [hput] at hs
      rw [hloop]
      exact budget_of_ne (fun h => absurd (hstop.mp h) (Nat.ne_of_lt hs)) hend
    · have hs := saysBudget_iff.mp hs
      rw [hloop]
      by_cases hn : s.stop = none
      · have := hstop.mp hn
        exact .inr (budget_of_ne (fun h => by have := hiff.mp h; omega) hend')
      · exact .inl (budget_of_ne hn hend)
    · rintro ⟨e, he⟩ -
      cases hall _ (hput ▸ he)

end Loops

/-! ## Two puts without a budget -/

/-- Put 1 at 0 s, put 2 at 90 s. -/
def putTwo (i : Nat) : PutPass Nat :=
  { checked := seconds (90 * i), made := .ok (i + 1, [0])
    request := ⟨seconds (90 * i), .ok (), seconds (90 * i)⟩ }

def getOne (_ : Nat) : GetPass :=
  { checked := seconds 93, request := ⟨seconds 93, .ok (), seconds 93⟩ }

/-- The answers to put 1, if it is answered, and to put 2. -/
def answers (first : Option (Arrival (Message Nat))) : List (Arrival (Message Nat)) :=
  first.toList ++ [⟨.response (.putResponse 2), seconds 92, seconds 92⟩]

/-- Put 1 is not answered, and nothing is stopped: the gets are said to have reached a
budget that there is not. -/
theorem unanswered_put_reported :
    ∃ r, measureSeries twoPuts { inbox := answers none } putTwo getOne = .ok r ∧
      (putLoop twoPuts { inbox := answers none } putTwo).stop = none ∧ r.stop = none ∧
      SaysBudget Series.get twoPuts r ∧ ¬ Faithful twoPuts { inbox := answers none } putTwo r := by
  refine ⟨_, rfl, rfl, rfl, saysBudget_iff.mpr (by decide), fun hf => ?_⟩
  exact hf.failed ⟨_, List.mem_cons_self ..⟩ (saysBudget_iff.mpr (by decide))

/-- Both puts are answered. -/
theorem shortfall_iff_answered :
    let inbox := answers (some ⟨.response (.putResponse 1), seconds 1, seconds 1⟩)
    ∃ r, measureSeries twoPuts { inbox := inbox } putTwo getOne = .ok r ∧
      Faithful twoPuts { inbox := inbox } putTwo r := by
  intro inbox
  obtain ⟨r, hr⟩ : ∃ r, measureSeries twoPuts { inbox := inbox } putTwo getOne = .ok r := ⟨_, rfl⟩
  refine ⟨r, hr, (shortfall_iff hr).mpr ⟨?_, ?_, trivial⟩⟩
  · rintro key ⟨-, state, hp⟩
    cases hp
    exact ⟨_, rfl, rfl⟩
  · rintro key ⟨-, state, hp⟩
    cases hp
    exact ⟨_, rfl, rfl⟩

end FreenetHarness.Latency
