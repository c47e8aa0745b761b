import Mathlib.Data.List.TakeWhile
import FreenetHarness.Lib.Run
import FreenetHarness.Lib.Rotation
import FreenetHarness.XNode.Files

/-! # The reader's rounds

`read` proves every key cold, then looks at the cold ones round by round: at most
`burst` keys a round, from a cursor that moves on over the pending list while the keys
that were read leave it. `probed_every_cycle` says when no key waits longer than the
cycle the run prints. -/
namespace FreenetHarness.XNode
open FreenetHarness.Lib.Run FreenetHarness.Lib.Rotation FreenetHarness.Lib.Text
  FreenetHarness.Lib.Number FreenetHarness.Stats

/-- How many probes one round sends, `BURST`. -/
def burst : Nat := 32

/-- How long one probe waits for its answer, `PROBE_ONE` in milliseconds. -/
def probeOne : Nat := 5

/-- A key that was not readable before polling. `Id` is the node library's contract id. -/
structure Cold (Id : Type) where
  idS : Str
  id : Id
  tSend : Nat
  size : Str
  deriving DecidableEq

/-! ## The cold control -/

/-- What a line of the keys file meets: whether the limit has run out when it is taken,
and what its probe returns. -/
structure Check where
  late : Bool
  probe : Except String (Option UInt64)

structure Control (Id : Type) where
  pending : List (Cold Id) := []
  warmAtStart : Nat := 0
  printed : List Str := []

def voidLine (idS size : Str) : Str :=
  unwords ["VOID".toList, idS, size,
    "already readable before polling — not a cold key".toList]

def lateControl (limitSecs checked : Nat) : String :=
  s!"the {limitSecs} s limit ran out during the COLD CONTROL, with {checked} of the keys " ++
    "checked. No key was proved cold, so nothing this run could measure would mean anything."

section Control

variable {Id : Type} (instanceId : Str → Except String Id) (limitSecs : Nat)

def controlLine (check : Check) (c : Control Id) (l : Str) : Except String (Control Id) :=
  if check.late then .error (lateControl limitSecs (c.pending.length + c.warmAtStart))
  else
    match keyLine l with
    | none => .ok c
    | some (idS, tSend, size) =>
      match instanceId idS with
      | .error e => .error (String.ofList idS ++ ": " ++ e)
      | .ok id =>
        match check.probe with
        | .error e => .error e
        | .ok (some _) => .ok { c with
            warmAtStart := c.warmAtStart + 1
            printed := c.printed ++ [voidLine idS size] }
        | .ok none => .ok { c with pending := c.pending ++ [{ idS, id, tSend, size }] }

/-- The control pass: how far it got, and the error that stopped it. The `n`-th line
meets `checks n`. -/
def control (checks : Nat → Check) : Nat → Control Id → List Str → Control Id × Except String Unit
  | _, c, [] => (c, .ok ())
  | n, c, l :: ls =>
    match controlLine instanceId limitSecs (checks n) c l with
    | .error e => (c, .error e)
    | .ok c => control checks (n + 1) c ls

end Control

/-! ## The rounds -/

/-- What a round meets: at which probe the limit has run out, what each probe finds, and
the time the round ends. -/
structure Round where
  late : Nat → Bool
  probe : Nat → Option UInt64
  hitAt : Nat

structure Reader (Id : Type) where
  pending : List (Cold Id)
  cursor : Nat := 0
  /-- Milliseconds from a key's send time to the end of the round it was read in. -/
  firstReads : List ℚ := []
  printed : List Str := []

variable {Id : Type}

/-- The key a probe asks for. -/
def target (s : Reader Id) (step : Nat) : Option (Cold Id) :=
  s.pending[(s.cursor + step) % s.pending.length]?

/-- How many probes a round is to make. -/
def roundSize (s : Reader Id) : Nat := min burst s.pending.length

/-- The probes a round makes: it stops where the limit runs out. -/
def stepsMade (s : Reader Id) (r : Round) : List Nat :=
  (List.range (roundSize s)).takeWhile fun step => !r.late step

/-- The keys a round asks for. -/
def asked (s : Reader Id) (r : Round) : List (Cold Id) := (stepsMade s r).filterMap (target s)

/-- The ids a round found readable. -/
def seen (s : Reader Id) (r : Round) : List Id :=
  ((stepsMade s r).filter fun step => (r.probe step).isSome).filterMap fun step =>
    (target s step).map Cold.id

/-- Where the cursor moves to: over the keys of the round, in the list as it was. -/
def nextCursor (s : Reader Id) : Nat := (s.cursor + roundSize s) % s.pending.length

/-- What is printed as a key's first-readable time. -/
def deltaMs (hitAt : Nat) (e : Cold Id) : ℚ := millis (hitAt - e.tSend)

/-- The `READ` line of a key. -/
def readOf (hitAt : Nat) (e : Cold Id) : Str := readLine e.idS e.size (deltaMs hitAt e)

section Rounds

variable [DecidableEq Id]

/-- The keys a round reads. -/
def readIn (s : Reader Id) (r : Round) : List (Cold Id) :=
  s.pending.filter fun e => (seen s r).contains e.id

def round (s : Reader Id) (r : Round) : Reader Id :=
  { pending := s.pending.filter fun e => !(seen s r).contains e.id
    cursor := nextCursor s
    firstReads := s.firstReads ++ (readIn s r).map (deltaMs r.hitAt)
    printed := s.printed ++ (readIn s r).map (readOf r.hitAt) }

/-- The rounds that begin before the limit. A round in which a probe fails ends the run
there: nothing of it is printed. -/
def rounds : Reader Id → List (Except String Round) → Reader Id × Except String Unit
  | s, [] => (s, .ok ())
  | s, r :: rs =>
    if s.pending.isEmpty then (s, .ok ())
    else
      match r with
      | .error e => (s, .error e)
      | .ok r => rounds (round s r) rs

/-- The rounds of them that are made. -/
def made : Reader Id → List (Except String Round) → List Round
  | _, [] => []
  | s, r :: rs =>
    if s.pending.isEmpty then []
    else
      match r with
      | .error _ => []
      | .ok r => r :: made (round s r) rs

/-- How many rounds the run says a key waits between two looks at it. -/
def roundsPerCycle (cold : List (Cold Id)) : Nat := max ((cold.length + burst - 1) / burst) 1

/-! ## The whole role -/

/-- A line that is not a record. -/
def comment (pieces : List Str) : Str := '#' :: ' ' :: pieces.flatten

def controlDone (c : Control Id) : Str :=
  comment ["control done: ".toList, digits c.pending.length, " cold, ".toList,
    digits c.warmAtStart, " already readable".toList]

def probeGrid (cold : List (Cold Id)) : Str :=
  comment ["probe grid: one probe at a time, up to ".toList, digits probeOne,
    " ms each, ".toList, digits burst, " keys per round, ".toList,
    digits (roundsPerCycle cold), " round(s) per cycle — a first-readable time is ".toList,
    "resolved to about ".toList, digits (roundsPerCycle cold * burst * probeOne),
    " ms, which is what a key waits between two looks at it".toList]

def missLine (limitSecs : Nat) (e : Cold Id) : Str :=
  unwords ["MISS".toList, e.idS, e.size, "not readable within".toList, digits limitSecs,
    "s".toList]

def closing (c : Control Id) (s : Reader Id) : Str :=
  comment ["cold-confirmed=".toList, digits c.pending.length, " void(warm at start)=".toList,
    digits c.warmAtStart, " read=".toList, digits s.firstReads.length, " missed=".toList,
    digits (c.pending.length - s.firstReads.length)]

/-- A reader about to begin its first round. -/
def start (cold : List (Cold Id)) (printed : List Str) : Reader Id :=
  { pending := cold, printed }

/-- What is printed before the first round. -/
def preamble (c : Control Id) : List Str :=
  c.printed ++ [controlDone c, probeGrid c.pending]

/-- The reader role on the text of a keys file: the lines it prints, and how it ends. -/
def read (instanceId : Str → Except String Id) (limitSecs : Nat) (text : Str)
    (checks : Nat → Check) (rs : List (Except String Round)) : List Str × Except String Unit :=
  match control instanceId limitSecs checks 0 {} (lines text) with
  | (c, .error e) => (c.printed, .error e)
  | (c, .ok ()) =>
    match rounds (start c.pending (preamble c)) rs with
    | (s, .error e) => (s.printed, .error e)
    | (s, .ok ()) => (s.printed ++ s.pending.map (missLine limitSecs) ++ [closing c s], .ok ())

end Rounds

/-! ## The pending list as a queue -/

section Queue

variable {s : Reader Id} {r : Round}

/-- The pending keys in the order they will be asked for. -/
def queue (s : Reader Id) : List (Cold Id) := s.pending.rotate s.cursor

/-- The limit does not run out during the round. -/
def InTime (r : Round) : Prop := ∀ step, r.late step = false

@[simp] theorem mem_queue {e : Cold Id} : e ∈ queue s ↔ e ∈ s.pending := List.mem_rotate

@[simp] theorem length_queue : (queue s).length = s.pending.length := List.length_rotate ..

theorem target_eq {step : Nat} (h : step < roundSize s) : target s step = (queue s)[step]? := by
  have hlt : step < s.pending.length := lt_of_lt_of_le h (min_le_right ..)
  rw [queue, List.getElem?_rotate hlt, target, Nat.add_comm]

/-- A round in time asks for the first keys of the queue. -/
theorem asked_of_inTime (h : InTime r) : asked s r = (queue s).take burst := by
  have hsteps : stepsMade s r = List.range (roundSize s) := by
    rw [stepsMade, List.takeWhile_eq_self_iff]
    intro step _
    simp [h step]
  rw [asked, hsteps, List.filterMap_congr fun step hs => target_eq (List.mem_range.mp hs),
    filterMap_range, roundSize, ← length_queue, ← List.take_eq_take_min]

/-- Those behind the first `burst` are not asked for. -/
theorem not_asked_of_drop (hin : InTime r) (hd : (s.pending.map Cold.id).Nodup) {e : Cold Id}
    (he : e ∈ (queue s).drop burst) : e ∉ asked s r := by
  have hnd : (queue s).Nodup := List.nodup_rotate.mpr (List.Nodup.of_map _ hd)
  rw [asked_of_inTime hin]
  exact fun ht => List.disjoint_take_drop hnd le_rfl ht he

/-- The ids a round finds are those of keys it asked for. -/
theorem mem_asked_of_seen {x : Id} (h : x ∈ seen s r) : ∃ e ∈ asked s r, e.id = x := by
  obtain ⟨step, hstep, hid⟩ := List.mem_filterMap.mp h
  obtain ⟨e, ht, rfl⟩ := Option.map_eq_some_iff.mp hid
  exact ⟨e, List.mem_filterMap.mpr ⟨step, List.mem_of_mem_filter hstep, ht⟩, rfl⟩

theorem length_le_cycle (cold : List (Cold Id)) : cold.length ≤ burst * roundsPerCycle cold := by
  have : (cold.length + burst - 1) / burst ≤ roundsPerCycle cold := le_max_left ..
  simp only [burst] at this ⊢
  omega

variable [DecidableEq Id]

/-- Whether a pending key is still pending after the round. -/
def stays (s : Reader Id) (r : Round) (e : Cold Id) : Bool := !(seen s r).contains e.id

theorem mem_round {e : Cold Id} : e ∈ (round s r).pending ↔ e ∈ s.pending ∧ stays s r e = true :=
  List.mem_filter

theorem length_round_le : (round s r).pending.length ≤ s.pending.length :=
  List.length_filter_le ..

/-- No key that waits loses its turn: those left are few enough to be asked for in one
round, or no key that was read stood before the cursor. -/
def KeepsTurn (s : Reader Id) (r : Round) : Prop :=
  (round s r).pending.length ≤ burst ∨
    ∀ e ∈ s.pending.take (nextCursor s), e.id ∉ seen s r

/-- How many keys the cursor jumps over: those that left from before it. -/
def jumped (s : Reader Id) (r : Round) : Nat :=
  (s.pending.take (nextCursor s)).countP fun e => !stays s r e

theorem jumped_eq_zero :
    jumped s r = 0 ↔ ∀ e ∈ s.pending.take (nextCursor s), e.id ∉ seen s r := by
  simp [jumped, stays]

/-- A round is one turn of the queue, and a jump. -/
theorem queue_round (hne : s.pending ≠ []) :
    queue (round s r) = (turn (roundSize s) (stays s r) (queue s)).rotate (jumped s r) :=
  rotate_turn (min_le_right ..) hne

/-! ## No key waits longer than a cycle -/

theorem rounds_fst (s : Reader Id) (rs : List (Except String Round)) :
    (rounds s rs).1 = after round s (made s rs) := by
  induction rs generalizing s with
  | nil => rfl
  | cons r rs ih =>
    cases r with
    | error e =>
      rw [rounds, made]
      split <;> rfl
    | ok r =>
      rw [rounds, made]
      split
      · rfl
      · exact ih (round s r)

theorem length_after_le (rs : List Round) :
    (after round s rs).pending.length ≤ s.pending.length :=
  after_invariant (I := fun t : Reader Id => t.pending.length ≤ s.pending.length) rs le_rfl
    fun _ _ _ h => length_round_le.trans h

/-- **One round brings a waiting key closer.** A key among the next `burst * (m + 1)` that
is not asked for and stays is among the next `burst * m` afterwards. -/
theorem mem_take_round {m : Nat} {e : Cold Id} (hin : InTime r) (hk : KeepsTurn s r)
    (h : e ∈ (queue s).take (burst * (m + 1))) (hask : e ∉ asked s r)
    (hstay : 0 < m → e ∈ (round s r).pending) : e ∈ (queue (round s r)).take (burst * m) := by
  rw [asked_of_inTime hin] at hask
  rcases Nat.eq_zero_or_pos m with rfl | hm
  · exact absurd (by simpa using h) hask
  obtain ⟨hpend, hs⟩ := mem_round.mp (hstay hm)
  rcases hk with hfew | hturn
  · have hle : burst ≤ burst * m := Nat.le_mul_of_pos_right _ hm
    rw [List.take_of_length_le (by rw [length_queue]; omega)]
    exact mem_queue.mpr (hstay hm)
  · have hsize : roundSize s = burst := by
      refine min_eq_left (le_of_not_gt fun hlt => hask ?_)
      rw [List.take_of_length_le (by rw [length_queue]; omega)]
      exact mem_queue.mpr hpend
    rw [queue_round (List.ne_nil_of_mem hpend), jumped_eq_zero.mpr hturn, List.rotate_zero, hsize]
    refine mem_take_turn ?_ hask hs
    rwa [Nat.mul_succ, Nat.add_comm] at h

/-- With distinct ids, a key that was not asked for stays. -/
theorem stays_of_not_asked (hin : InTime r) (hd : (s.pending.map Cold.id).Nodup) {e : Cold Id}
    (he : e ∈ s.pending) (hask : e ∉ asked s r) : stays s r e = true := by
  by_contra hs
  obtain ⟨e', he', hid⟩ := mem_asked_of_seen (x := e.id) (s := s) (r := r) (by simpa [stays] using hs)
  rw [asked_of_inTime hin] at he'
  have hpend : e' ∈ s.pending := mem_queue.mp (List.mem_of_mem_take he')
  obtain rfl := List.inj_on_of_nodup_map hd hpend he hid
  exact hask (by rwa [asked_of_inTime hin])

theorem stays_of_drop (hin : InTime r) (hd : (s.pending.map Cold.id).Nodup) {e : Cold Id}
    (he : e ∈ (queue s).drop burst) : stays s r e = true :=
  stays_of_not_asked hin hd (mem_queue.mp (List.mem_of_mem_drop he)) (not_asked_of_drop hin hd he)

/-- The cursor jumps over no more keys than were read of those asked for. -/
theorem jumped_le (hin : InTime r) (hd : (s.pending.map Cold.id).Nodup) :
    jumped s r ≤ ((queue s).take burst).countP fun e => !stays s r e := by
  have hdrop : ((queue s).drop burst).countP (fun e => !stays s r e) = 0 := by
    rw [List.countP_eq_zero]
    intro e he
    simp [stays_of_drop hin hd he]
  calc jumped s r
      ≤ s.pending.countP fun e => !stays s r e := (List.take_sublist ..).countP_le
    _ = (queue s).countP fun e => !stays s r e := ((List.rotate_perm ..).countP_eq _).symm
    _ = ((queue s).take burst).countP fun e => !stays s r e := by
        rw [← List.take_append_drop burst (queue s), List.countP_append, hdrop,
          List.take_append_drop, Nat.add_zero]

/-- Where more keys are left than a round asks for, a jump puts a key that is due next at
the end of the queue. -/
theorem exists_put_off (hin : InTime r) (hd : (s.pending.map Cold.id).Nodup)
    (hmany : burst < (round s r).pending.length) (hjump : jumped s r ≠ 0) :
    ∃ e ∈ (queue s).take (burst * 2), e ∉ asked s r ∧
      (queue (round s r))[(queue (round s r)).length - 1]? = some e := by
  have hle := @length_round_le _ s r _
  have hleft := jumped_le hin hd
  have hsize : roundSize s = burst := min_eq_left (by omega)
  -- the queue after the round: those that waited, and those asked for that stay
  have hqueue := @queue_round _ s r _ (List.ne_nil_of_length_pos (by omega))
  rw [turn, List.filter_append, hsize,
    List.filter_eq_self.mpr fun e he => stays_of_drop hin hd he] at hqueue
  have hlen : (round s r).pending.length =
      ((queue s).drop burst).length + (((queue s).take burst).filter (stays s r)).length := by
    rw [← length_queue, hqueue, List.length_rotate, List.length_append]
  have hserved : (((queue s).take burst).filter (stays s r)).length +
      ((queue s).take burst).countP (fun e => !stays s r e) ≤ burst := by
    rw [length_filter_add_countP]
    exact List.length_take_le ..
  -- more wait than the cursor jumps over: the last one jumped over is due next
  obtain ⟨k, hk⟩ : ∃ k, jumped s r = k + 1 := Nat.exists_eq_succ_of_ne_zero hjump
  have hkw : k < ((queue s).drop burst).length := by omega
  refine ⟨((queue s).drop burst)[k], ?_, not_asked_of_drop hin hd (List.getElem_mem hkw), ?_⟩
  · rw [List.getElem_drop, List.mem_take_iff_getElem]
    exact ⟨burst + k, by rw [List.length_drop] at hkw; omega, rfl⟩
  · have := @getElem_jumped _ _ (((queue s).take burst).filter (stays s r)) _ hkw
    rw [← hk, ← List.length_rotate _ (jumped s r), ← hqueue] at this
    exact this

/-- **The condition is exact.** With distinct ids, a round keeps turns just when every key
due after it that it did not ask for is asked for in the next round. -/
theorem keepsTurn_iff {r' : Round} (hin : InTime r) (hin' : InTime r')
    (hd : (s.pending.map Cold.id).Nodup) :
    KeepsTurn s r ↔
      ∀ e ∈ (queue s).take (burst * 2), e ∉ asked s r → e ∈ asked (round s r) r' := by
  rw [asked_of_inTime hin']
  constructor
  · intro hk e he hask
    have hpend : e ∈ s.pending := mem_queue.mp (List.mem_of_mem_take he)
    have hstay := mem_round.mpr ⟨hpend, stays_of_not_asked hin hd hpend hask⟩
    simpa using mem_take_round hin hk he hask fun _ => hstay
  · intro h
    by_contra hk
    obtain ⟨hmany, hjump⟩ : burst < (round s r).pending.length ∧ jumped s r ≠ 0 := by
      rw [KeepsTurn, ← jumped_eq_zero] at hk
      omega
    obtain ⟨e, he, hask, hlast⟩ := exists_put_off hin hd hmany hjump
    obtain ⟨i, hi, hget⟩ := List.mem_take_iff_getElem.mp (h e he hask)
    have hnd : (queue (round s r)).Nodup :=
      List.nodup_rotate.mpr ((List.Nodup.of_map _ hd).filter _)
    rw [lt_min_iff] at hi
    have hsame := (List.getElem?_inj hi.2 hnd).mp
      ((List.getElem?_eq_getElem hi.2).trans ((congrArg some hget).trans hlast.symm))
    rw [length_queue] at hsame
    omega

theorem asked_within {rs : List Round} {e : Cold Id} (hin : ∀ r ∈ rs, InTime r)
    (hk : Along round KeepsTurn s rs) (h : e ∈ (queue s).take (burst * rs.length))
    (hstay : ∀ i < rs.length, e ∈ (after round s (rs.take i)).pending) :
    ∃ i, ∃ hi : i < rs.length, e ∈ asked (after round s (rs.take i)) rs[i] := by
  induction rs generalizing s with
  | nil => simp at h
  | cons r rs ih =>
    by_cases hask : e ∈ asked s r
    · exact ⟨0, by simp, hask⟩
    have hstay' : ∀ i < rs.length, e ∈ (after round (round s r) (rs.take i)).pending := by
      intro i hi
      exact hstay (i + 1) (by simpa using hi)
    have hclose := mem_take_round (hin r (by simp)) hk.1 h hask (hstay' 0)
    obtain ⟨i, hi, he⟩ := ih (fun r hr => hin r (List.mem_cons_of_mem _ hr)) hk.2 hclose hstay'
    exact ⟨i + 1, by simpa using hi, he⟩

/-- **No key waits longer than a cycle.** In a run whose rounds are in time and let no
waiting key lose its turn, a key that stays pending is asked for in any
`roundsPerCycle` consecutive rounds. -/
theorem probed_every_cycle {cold : List (Cold Id)} {printed : List Str} {rs ws : List Round}
    {e : Cold Id} (hlen : ws.length = roundsPerCycle cold) (hin : ∀ r ∈ ws, InTime r)
    (hk : Along round KeepsTurn (after round (start cold printed) rs) ws)
    (hstay : ∀ i < ws.length, e ∈ (after round (start cold printed) (rs ++ ws.take i)).pending) :
    ∃ i, ∃ hi : i < ws.length,
      e ∈ asked (after round (start cold printed) (rs ++ ws.take i)) ws[i] := by
  simp only [after_append] at hstay ⊢
  refine asked_within hin hk ?_ hstay
  have hpos : 0 < ws.length := by rw [hlen]; exact Nat.lt_of_lt_of_le Nat.one_pos (le_max_right ..)
  have hle : (after round (start cold printed) rs).pending.length ≤ cold.length :=
    length_after_le rs
  have hcycle := length_le_cycle cold
  rw [List.take_of_length_le (by rw [length_queue, hlen]; omega)]
  exact mem_queue.mpr (hstay 0 hpos)

end Queue

/-- Keys named by their place in the list. -/
def coldKeys (n : Nat) : List (Cold Nat) :=
  (List.range n).map fun i => { idS := digits i, id := i, tSend := 0, size := "1024".toList }

/-- A round in time that finds the key of the probes `hits`. -/
def roundFinding (hits : List Nat) : Round :=
  { late := fun _ => false, probe := fun step => if step ∈ hits then some 1024 else none
    hitAt := 0 }

/-- Nothing is read for two rounds: the last of 33 keys is asked for in the second. -/
theorem last_key_probed :
    ∃ i, ∃ hi : i < 2,
      (⟨digits 32, 32, 0, "1024".toList⟩ : Cold Nat) ∈
        asked (after round (start (coldKeys 33) []) ([] ++ [roundFinding [], roundFinding []].take i))
          [roundFinding [], roundFinding []][i] := by
  refine @probed_every_cycle Nat _ (coldKeys 33) [] [] [roundFinding [], roundFinding []] _
    (by decide) ?_ ?_ ?_
  · simp [InTime, roundFinding]
  · exact ⟨Or.inr (by simp [seen, roundFinding]), Or.inr (by simp [seen, roundFinding]), trivial⟩
  · decide +kernel

/-- The first of 64 keys is read in the first round: the cursor jumps over key 32, which
neither of the two rounds of the cycle asks for. -/
theorem key_jumped_over :
    roundsPerCycle (coldKeys 64) = 2 ∧ (∀ r ∈ [roundFinding [0], roundFinding []], InTime r) ∧
      (∀ i < 2, (⟨digits 32, 32, 0, "1024".toList⟩ : Cold Nat) ∈
        (after round (start (coldKeys 64) []) ([roundFinding [0], roundFinding []].take i)).pending) ∧
      ¬ ∃ i, ∃ hi : i < 2, (⟨digits 32, 32, 0, "1024".toList⟩ : Cold Nat) ∈
        asked (after round (start (coldKeys 64) []) ([roundFinding [0], roundFinding []].take i))
          [roundFinding [0], roundFinding []][i] := by
  refine ⟨by decide, by simp [InTime, roundFinding], by decide +kernel, ?_⟩
  decide +kernel

end FreenetHarness.XNode
