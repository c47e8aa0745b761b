import FreenetHarness.Lib.Laps
import FreenetHarness.OneGroup
import FreenetHarness.Stats.Table

/-! # `group`: a run over the three arms

The arms take a group each in turn. `run_groups` says what the two tables and the lines
under them rest on: that the arms are never more than a group apart, that a group never
reaches all of its pieces before k of them, and that every put is counted. -/
namespace FreenetHarness.OneGroup
open FreenetHarness.Lib.Inbox FreenetHarness.Lib.Laps FreenetHarness.Lib.Number
  FreenetHarness.Lib.Ranks FreenetHarness.Lib.Run FreenetHarness.Lib.Rounds FreenetHarness.Lib.Table FreenetHarness.Latency
  FreenetHarness.Percentile FreenetHarness.Stats
open FreenetHarness.Parity (Fault orFail)

def Arm.name : Arm → String
  | .raw => "RAW"
  | .rawConcurrent => "RAW-CONC"
  | .baseline => "BASELINE"

def arms : List Arm := [.raw, .rawConcurrent, .baseline]

structure Opts where
  size : Nat
  n : Nat
  k : Nat
  groups : Nat
  attemptMs : Nat
  groupSecs : Nat
  budgetSecs : Nat

/-- What a run meets: the `i`-th group it begins has its budget checked at the clock
`(turns i).1`, and meets `(turns i).2`. -/
structure Setting (Key : Type) where
  /-- The length of the contract's code, if it is read. -/
  code : Except String Nat
  writer : Except String Unit
  reader : Except String Unit
  start : Nat
  turns : Nat → Nat × Meets Key

variable {Key : Type} [DecidableEq Key]

/-- What is counted over all groups. -/
structure Counts (Key : Type) where
  out : List Group := []
  minted : Finset Key := ∅
  requests : Nat := 0

/-- The keys a group puts. -/
def keysOf (n : Nat) (m : Meets Key) : List Key :=
  match (List.range n).mapM fun i => orFail (m.mint i) with
  | .error _ => []
  | .ok pieces => pieces.map Prod.fst

def budget (o : Opts) (start : Nat) : Option Nat :=
  if 0 < o.budgetSecs then some (start + seconds o.budgetSecs) else none

def spent (o : Opts) (w : Setting Key) (s : Counts Key) : Bool :=
  (budget o w.start).any fun d => d ≤ (w.turns s.out.length).1

/-- The next group, of this arm. -/
def Opts.group (o : Opts) (arm : Arm) (m : Meets Key) : Except Fault Group :=
  oneGroup arm o.n o.k (max o.attemptMs 50 * 1000000) (seconds (max o.groupSecs 1)) m

def visit (o : Opts) (w : Setting Key) (s : Counts Key) (arm : Arm) : Except Fault (Counts Key) := do
  let m := (w.turns s.out.length).2
  let g ← o.group arm m
  return {
    out := s.out ++ [g]
    minted := s.minted ∪ (keysOf o.n m).toFinset
    requests := s.requests + (keysOf o.n m).length }

def groups (o : Opts) (w : Setting Key) : Except Fault (Ended (Counts Key)) :=
  laps (visit o w) (spent o w) (fun _ => false) arms o.groups 0 {}

/-! ## The report -/

/-- The groups of an arm. -/
def mine (out : List Group) (arm : Arm) : List Group := out.filter (Group.arm · = arm)

/-- `min` to `max`, less the `p75` of the first table. -/
def toNCells (vals : List ℚ) : Except Fault (List String) := do
  match ← Summary.of vals with
  | some s => return [s.min, s.p50, s.p90, s.max].map fun v => String.ofList (print0 v)
  | none => return List.replicate 4 "—"

def toKCells (vals : List ℚ) : Except Fault (List String) := do
  match ← Summary.of vals with
  | some s => do
    let p75 ← pct vals 75
    return [s.min, s.p50, p75, s.p90, s.max].map fun v => String.ofList (print0 v)
  | none => return List.replicate 5 "—"

/-- What an arm of these groups puts on the wire, a group. -/
def bytesPerGroup (o : Opts) (codeLen : Nat) (gs : List Group) : Nat :=
  if gs = [] then 0
  else
    let puts := gs.length * o.n + (gs.map Group.hedged).sum
    (puts * (o.size + codeLen) + (gs.map Group.readable).sum * o.size) / gs.length

/-- GET attempts for one piece. -/
def attemptsCell (o : Opts) (gs : List Group) : String :=
  if gs = [] then "—"
  else String.ofList (print1 (((gs.map Group.attempts).sum : ℚ) / (gs.length * o.n : Nat)))

/-- What the write side of an arm did: the late acknowledgements, or the hedges. -/
def writeCell (arm : Arm) (gs : List Group) : String :=
  match arm with
  | .baseline => s!"{(gs.map Group.hedged).sum} hedged"
  | _ => s!"{(gs.map Group.lateAcks).sum} late"

def toKRow (o : Opts) (codeLen : Nat) (out : List Group) (arm : Arm) : Except Fault (List String) := do
  let gs := mine out arm
  let vals := gs.filterMap Group.toK
  let cells ← toKCells vals
  return [arm.name, toString gs.length, s!"{vals.length}/{gs.length}", attemptsCell o gs,
    writeCell arm gs, kib (bytesPerGroup o codeLen gs)] ++ cells

def toNRow (out : List Group) (arm : Arm) : Except Fault (List String) := do
  let gs := mine out arm
  let vals := gs.filterMap Group.toN
  let cells ← toNCells vals
  return [arm.name, s!"{vals.length}/{gs.length}"] ++ cells

/-- The pause between the rounds of the arm that reads again. -/
def gapMs : ℚ := 10

/-- Only BASELINE asks, waits one attempt and asks again. -/
def unresolved (o : Opts) (out : List Group) : Except Fault (Option String) := do
  let s ← Summary.of ((mine out .baseline).filterMap Group.toK)
  return s.bind ((Grid.new o.attemptMs gapMs).unresolved Arm.baseline.name)

def controlLine (requests distinct : Nat) : String :=
  let verdict := if distinct = requests then "every put was a first put"
    else "REPEATED KEYS: the arms are not comparable"
  s!"control: {requests} put requests, {distinct} distinct contract keys — {verdict}"

structure Report where
  toK : List (List String)
  unresolved : Option String
  toN : List (List String)
  control : String
  short : Option String
  cut : Option String

def shortLine (o : Opts) (short : Nat) : String :=
  s!"{short} group(s) never reached {o.k} of {o.n} within {o.groupSecs} s and are recorded as " ++
    "`not within T`, not as a latency"

def report (o : Opts) (codeLen : Nat) (e : Ended (Counts Key)) : Except Fault Report := do
  let out := e.state.out
  let toK ← arms.mapM (toKRow o codeLen out)
  let unresolved ← unresolved o out
  let toN ← arms.mapM (toNRow out)
  let short := out.countP fun g => g.toK.isNone
  return {
    toK
    unresolved
    toN
    control := controlLine e.state.requests e.state.minted.card
    short := if 0 < short then some (shortLine o short) else none
    cut := if e.stop = .budget then
      some (s!"the run reached its {o.budgetSecs} s budget; the groups not taken are NOT within it")
      else none }

def run (o : Opts) (w : Setting Key) : Except Fault (Ended (Counts Key) × Report) :=
  if o.k = 0 ∨ o.n < o.k then
    .error (.bail s!"k must be between 1 and n (got k={o.k} n={o.n})")
  else do
    let codeLen ← orFail w.code
    orFail w.writer
    orFail w.reader
    let e ← groups o w
    let r ← report o codeLen e
    return (e, r)

/-! ## One group of a run -/

section Group

variable {arm : Arm} {n k attempt deadlineIn : Nat} {want : HashMap Key Bytes} {t0 : Nat}

/-- Only the arms that wait for their acknowledgements count late ones. -/
theorem put_lateAcks {deadline : Nat} {s s' : Written Key} {x : (Key × Bytes) × Put}
    (h : put .baseline deadline s x = .ok s') : s'.lateAcks = s.lateAcks := by
  unfold put at h
  split at h
  · cases h
  · cases h
    rfl

/-- Only BASELINE puts again. -/
theorem readSide_hedged {keys : List Key} {writer : List (Arrival (Message Key))} {m : Meets Key}
    {r : Gathered Key} (harm : arm ≠ .baseline)
    (h : readSide want arm n attempt deadlineIn keys writer m = .ok r) : r.hedged = 0 := by
  unfold readSide at h
  split at h
  · obtain ⟨_, -, h⟩ := bind_eq_ok.mp h
    cases h
    rfl
  · obtain ⟨s, hs, h⟩ := bind_eq_ok.mp h
    cases h
    refine roundsWith_invariant (I := fun r : Reader Key => r.hedged = 0)
      (fun side key t side' b hside hturn => ?_) (fun s b side hside hhedge => ?_) rfl hs
    · unfold turn at hturn
      split at hturn
      · cases hturn
        exact hside
      · split at hturn
        · cases hturn
        · split at hturn
          · cases hturn
          · cases hturn
            exact hside
    · rw [hedge, if_neg fun h => harm h.1] at hhedge
      cases hhedge
      exact hside

theorem readSide_attempts {keys : List Key} {writer : List (Arrival (Message Key))} {m : Meets Key}
    {r : Gathered Key} (h : readSide want .rawConcurrent n attempt deadlineIn keys writer m = .ok r) :
    r.attempts = keys.length := by
  rw [readSide, if_pos rfl] at h
  obtain ⟨_, -, h⟩ := bind_eq_ok.mp h
  cases h
  rfl

/-- What a group of an arm counts. -/
structure Counted (arm : Arm) (n k : Nat) (g : Group) : Prop where
  of_arm : g.arm = arm
  hedged : arm ≠ .baseline → g.hedged = 0
  lateAcks : arm = .baseline → g.lateAcks = 0
  attempts : arm = .rawConcurrent → g.attempts = n
  /-- A group that has all of its pieces has k of them, no later. -/
  toK : ∀ b ∈ g.toN, ∃ a ∈ g.toK, a ≤ b

omit [DecidableEq Key] in
theorem length_pieces {m : Meets Key} {pieces : List (Key × Bytes)}
    (h : (List.range n).mapM (fun i => orFail (m.mint i)) = .ok pieces) : pieces.length = n := by
  have hmap : pieces.map (fun _ => ()) = (List.range n).map fun _ => () :=
    map_of_mapM_ok (fun _ _ _ _ => rfl) h
  simpa using congrArg List.length hmap

theorem counted {m : Meets Key} {g : Group} (hk : 1 ≤ k) (hn : k ≤ n)
    (h : oneGroup arm n k attempt deadlineIn m = .ok g) :
    Counted arm n k g ∧ (keysOf n m).length = n := by
  simp only [oneGroup, bind_eq_ok] at h
  obtain ⟨pieces, hp, w, hw, r, hr, toK, hK, toN, hN, h⟩ := h
  cases h
  obtain ⟨hKs, hKt⟩ := kth_ok hk hK
  obtain ⟨hNs, hNt⟩ := kth_ok (hk.trans hn) hN
  have hkeys : (pieces.map Prod.fst).length = n := by rw [List.length_map, length_pieces hp]
  refine ⟨⟨rfl, fun harm => readSide_hedged harm hr, fun harm => ?_, fun harm => ?_, fun b hb => ?_⟩,
    ?_⟩
  · subst harm
    exact foldlM_invariant (I := fun s : Written Key => s.lateAcks = 0)
      (fun s x _ s' hs hput => (put_lateAcks hput).trans hs) rfl hw
  · subst harm
    exact (readSide_attempts hr).trans hkeys
  · have hlen := of_decide_eq_true (hNs.mp (Option.isSome_iff_exists.mpr ⟨b, hb⟩))
    obtain ⟨a, ha⟩ := Option.isSome_iff_exists.mp (hKs.mpr (decide_eq_true (hlen ▸ hn)))
    exact ⟨a, ha, le_of_rank_le (pairwise_sorted _) (Nat.sub_le_sub_right hn 1) (hKt a ha).1
      (hNt b hb).1⟩
  · unfold keysOf
    rw [hp]
    exact hkeys

end Group

/-! ## The order of the groups -/

/-- Every key that the first `n` groups put. -/
def putKeys (o : Opts) (w : Setting Key) (n : Nat) : List Key :=
  (List.range n).flatMap fun i => keysOf o.n (w.turns i).2

omit [DecidableEq Key] in
theorem putKeys_succ (o : Opts) (w : Setting Key) (n : Nat) :
    putKeys o w (n + 1) = putKeys o w n ++ keysOf o.n (w.turns n).2 := by
  rw [putKeys, List.range_succ, List.flatMap_append, List.flatMap_singleton]
  rfl

/-- The group `g` of the `j`-th arm is the `i`-th one begun, within the budget. -/
def Made (o : Opts) (w : Setting Key) (i j : Nat) (g : Group) : Prop :=
  (∀ d ∈ budget o w.start, (w.turns i).1 < d) ∧ ∃ arm ∈ arms[j]?, o.group arm (w.turns i).2 = .ok g

/-- The groups, `k` visits into the lap after the `r`-th. -/
structure Interleaved (o : Opts) (w : Setting Key) (r k : Nat) (s : Counts Key) : Prop where
  begun : s.out.length = r * arms.length + k
  filed : Filed (Made o w) arms.length r k (arms.map (mine s.out))
  requests : s.requests = (putKeys o w s.out.length).length
  minted : s.minted = (putKeys o w s.out.length).toFinset
  length : (putKeys o w s.out.length).length = s.out.length * o.n

theorem groups_ok {o : Opts} {w : Setting Key} {e : Ended (Counts Key)} (hk : 1 ≤ o.k)
    (hn : o.k ≤ o.n) (h : groups o w = .ok e) :
    ∃ k, Interleaved o w e.laps k e.state ∧
      e.At (spent o w) (fun _ => false) arms.length o.groups k := by
  refine laps_ok (I := Interleaved o w) ?_ ?_ ⟨rfl, Filed.start _, rfl, rfl, by simp [putKeys]⟩ h
  · intro r k arm s s' harm hspent hs hv
    obtain ⟨g, hg, hv⟩ := bind_eq_ok.mp hv
    cases hv
    obtain ⟨hc, hlen⟩ := counted hk hn hg
    have hkeys : putKeys o w (s.out.length + 1) = _ := putKeys_succ o w s.out.length
    have hmade : Made o w (r * arms.length + k) k g := by
      rw [← hs.begun]
      refine ⟨fun d hd => ?_, arm, harm, hg⟩
      rw [spent, hd, Option.any_some, decide_eq_false_iff_not] at hspent
      exact Nat.not_le.mp hspent
    rw [← hc.of_arm] at harm
    refine ⟨?_, ?_, ?_, ?_, ?_⟩
    · rw [List.length_append, hs.begun]
      rfl
    · show Filed (Made o w) arms.length r (k + 1)
        (arms.map fun a => (s.out ++ [g]).filter (Group.arm · = a))
      rw [map_filter_append (by decide) harm]
      exact hs.filed.file hmade
    · rw [List.length_append, List.length_singleton, hkeys, List.length_append, ← hs.requests]
    · rw [List.length_append, List.length_singleton, hkeys, List.toFinset_append, ← hs.minted]
    · rw [List.length_append, List.length_singleton, hkeys, List.length_append, hs.length, hlen,
        Nat.add_mul, Nat.one_mul]
  · intro r s hs
    refine ⟨?_, hs.filed.lap, hs.requests, hs.minted, hs.length⟩
    rw [hs.begun, Nat.add_mul, Nat.one_mul, Nat.add_zero]

/-- Every group of an arm is one that the run made of it. -/
theorem Interleaved.counted {o : Opts} {w : Setting Key} {r k : Nat} {s : Counts Key}
    (h : Interleaved o w r k s) (hk : 1 ≤ o.k) (hn : o.k ≤ o.n) {arm : Arm} {g : Group}
    (hg : g ∈ mine s.out arm) : Counted arm o.n o.k g := by
  obtain ⟨j, hj⟩ : ∃ j, arms[j]? = some arm := by
    cases arm
    · exact ⟨0, rfl⟩
    · exact ⟨1, rfl⟩
    · exact ⟨2, rfl⟩
  obtain ⟨q, hq⟩ := List.mem_iff_getElem?.mp hg
  obtain ⟨-, arm', harm', hgroup⟩ :=
    h.filed.order j (mine s.out arm) q g (by rw [List.getElem?_map, hj]; rfl) hq
  obtain rfl := Option.some.inj (hj.symm.trans harm')
  exact (OneGroup.counted hk hn hgroup).1

/-! ## What the tables rest on -/

/-- What the rows of an arm show, after `r` whole laps. -/
structure Shows (o : Opts) (r : Nat) (arm : Arm) (gs : List Group) : Prop where
  count : r ≤ gs.length ∧ gs.length ≤ r + 1
  reached : (gs.filterMap Group.toN).length ≤ (gs.filterMap Group.toK).length
  /-- Nothing is hedged but by BASELINE, which waits for no acknowledgement. -/
  hedged : arm ≠ .baseline → (gs.map Group.hedged).sum = 0
  lateAcks : arm = .baseline → (gs.map Group.lateAcks).sum = 0
  attempts : arm = .rawConcurrent → gs ≠ [] → attemptsCell o gs = "1.0"

theorem length_filterMap_le {α β γ : Type} {f : α → Option β} {g : α → Option γ} {l : List α}
    (h : ∀ x ∈ l, (f x).isSome → (g x).isSome) : (l.filterMap f).length ≤ (l.filterMap g).length := by
  induction l with
  | nil => exact le_refl _
  | cons x l ih =>
    have ih := ih fun y hy => h y (List.mem_cons_of_mem x hy)
    have hx := h x (List.mem_cons_self ..)
    rw [List.filterMap_cons, List.filterMap_cons]
    cases hf : f x with
    | none => cases g x <;> simp <;> omega
    | some b =>
      obtain ⟨c, hc⟩ := Option.isSome_iff_exists.mp (hx (by rw [hf]; rfl))
      rw [hc]
      simpa using ih

theorem sum_map_eq {α : Type} {f : α → Nat} {l : List α} {c : Nat} (h : ∀ x ∈ l, f x = c) :
    (l.map f).sum = l.length * c := by
  rw [List.map_congr_left h, List.map_const', List.sum_replicate]
  rfl

theorem Interleaved.shows {o : Opts} {w : Setting Key} {r k : Nat} {s : Counts Key}
    (h : Interleaved o w r k s) (hk : 1 ≤ o.k) (hn : o.k ≤ o.n) {j : Nat} {arm : Arm}
    (hj : arms[j]? = some arm) : Shows o r arm (mine s.out arm) := by
  have hc : ∀ g ∈ mine s.out arm, Counted arm o.n o.k g := fun g hg => h.counted hk hn hg
  refine ⟨?_, ?_, fun harm => ?_, fun harm => ?_, fun harm hne => ?_⟩
  · have hcount := h.filed.count j (mine s.out arm) (by rw [List.getElem?_map, hj]; rfl)
    unfold Lib.Laps.visits at hcount
    split at hcount <;> omega
  · refine length_filterMap_le fun g hg hN => ?_
    obtain ⟨b, hb⟩ := Option.isSome_iff_exists.mp hN
    obtain ⟨a, ha, -⟩ := (hc g hg).toK b hb
    exact Option.isSome_iff_exists.mpr ⟨a, ha⟩
  · rw [sum_map_eq fun g hg => (hc g hg).hedged harm, Nat.mul_zero]
  · rw [sum_map_eq fun g hg => (hc g hg).lateAcks harm, Nat.mul_zero]
  · have hpos : 0 < (mine s.out arm).length * o.n :=
      Nat.mul_pos (List.length_pos_iff.mpr hne) (hk.trans hn)
    have hone : (((mine s.out arm).length * o.n : Nat) : ℚ) / ((mine s.out arm).length * o.n : Nat) = 1 :=
      div_self (Nat.cast_ne_zero.mpr hpos.ne')
    rw [attemptsCell, if_neg hne, sum_map_eq fun g hg => (hc g hg).attempts harm, hone]
    decide +kernel

/-- **A run over the arms.** They take turns; every group is in the row of one arm; the rows
are those of `Shows`; and the control line counts `n` puts a group and says that each was a
first put exactly where no key was put twice. -/
theorem run_groups {o : Opts} {w : Setting Key} {e : Ended (Counts Key)} {r : Report}
    (h : run o w = .ok (e, r)) :
    ∃ k, Interleaved o w e.laps k e.state ∧
      (∀ arm, Shows o e.laps arm (mine e.state.out arm)) ∧
      (arms.map fun arm => (mine e.state.out arm).length).sum = e.state.out.length ∧
      (r.cut = none → k = 0 ∧ e.laps = o.groups) ∧
      r.control = controlLine (e.state.out.length * o.n)
        (putKeys o w e.state.out.length).toFinset.card ∧
      ((putKeys o w e.state.out.length).toFinset.card = e.state.out.length * o.n ↔
        (putKeys o w e.state.out.length).Nodup) := by
  unfold run at h
  split at h
  · cases h
  · rename_i hkn
    rw [not_or, Nat.not_lt] at hkn
    have hk : 1 ≤ o.k := Nat.one_le_iff_ne_zero.mpr hkn.1
    obtain ⟨codeLen, -, h⟩ := bind_eq_ok.mp h
    obtain ⟨_, -, h⟩ := bind_eq_ok.mp h
    obtain ⟨_, -, h⟩ := bind_eq_ok.mp h
    obtain ⟨e', he, h⟩ := bind_eq_ok.mp h
    obtain ⟨r', hr, h⟩ := bind_eq_ok.mp h
    cases h
    obtain ⟨toK, -, hr⟩ := bind_eq_ok.mp hr
    obtain ⟨un, -, hr⟩ := bind_eq_ok.mp hr
    obtain ⟨toN, -, hr⟩ := bind_eq_ok.mp hr
    cases hr
    obtain ⟨k, hi, hat⟩ := groups_ok hk hkn.2 he
    refine ⟨k, hi, fun arm => ?_, ?_, fun hcut => ?_, ?_, ?_⟩
    · cases arm
      · exact hi.shows hk hkn.2 (j := 0) rfl
      · exact hi.shows hk hkn.2 (j := 1) rfl
      · exact hi.shows hk hkn.2 (j := 2) rfl
    · simp only [arms, mine, List.map_cons, List.map_nil, List.sum_cons, List.sum_nil,
        ← List.countP_eq_length_filter]
      induction e.state.out with
      | nil => rfl
      | cons g out ih =>
        simp only [List.countP_cons, List.length_cons]
        cases g.arm <;> simp <;> omega
    · cases hs : e.stop with
      | enough => exact absurd (hat.enough hs) Bool.false_ne_true
      | budget =>
        dsimp only at hcut
        rw [if_pos hs] at hcut
        cases hcut
      | cap => exact ⟨hat.eq_zero (by rw [hs]; exact nofun), hat.cap hs⟩
    · show controlLine e.state.requests e.state.minted.card = _
      rw [hi.requests, hi.minted, hi.length]
    · rw [← hi.length]
      exact card_toFinset_eq_length_iff

/-- One group of each arm, of two pieces; only what is asked for at once is answered. -/
def oneOfEach : Setting Nat where
  code := .ok 4
  writer := .ok ()
  reader := .ok ()
  start := 0
  turns i := (i, { oneAnswered with mint := fun p => .ok (2 * i + p, [UInt8.ofNat p])
                                    reader := [⟨.response (.getResponse 2 [0]), 5, 5⟩] })

def twoPieces : Opts :=
  { size := 1, n := 2, k := 1, groups := 1, attemptMs := 100, groupSecs := 90, budgetSecs := 60 }

theorem run_groups_each : ∃ e r, run twoPieces oneOfEach = .ok (e, r) ∧
    r.control = controlLine 6 6 ∧ Shows twoPieces 1 .rawConcurrent (mine e.state.out .rawConcurrent) := by
  have h : (match run twoPieces oneOfEach with
      | .ok (e, r) => decide (e.laps = 1 ∧ e.state.out.length = 3 ∧
          (putKeys twoPieces oneOfEach e.state.out.length).toFinset.card = 6)
      | .error _ => false) = true := by decide +kernel
  split at h
  · rename_i e r he
    obtain ⟨hlaps, hlen, hcard⟩ := of_decide_eq_true h
    obtain ⟨k, -, hshows, -, -, hcontrol, -⟩ := run_groups he
    rw [hcard, hlen] at hcontrol
    exact ⟨e, r, he, hcontrol, hlaps ▸ hshows .rawConcurrent⟩
  · cases h

end FreenetHarness.OneGroup
