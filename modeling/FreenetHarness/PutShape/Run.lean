import FreenetHarness.Latency.Series
import FreenetHarness.Lib.Laps
import FreenetHarness.Lib.Table
import FreenetHarness.PutShape
import FreenetHarness.Stats.Table

/-! # `put-shape`: one payload as one contract or as several

A trial puts its pieces at once and watches for their acknowledgements on one connection
and for their read-back on another; both connections outlive it. `trial_reports` says what
the numbers of a trial are, `run_controls` what the lines under the tables say of a run:
that its arms put one payload, each contract once. -/
namespace FreenetHarness.PutShape
open FreenetHarness.Lib.Inbox FreenetHarness.Lib.Laps FreenetHarness.Lib.Number
  FreenetHarness.Lib.Run FreenetHarness.Lib.Rounds FreenetHarness.Lib.Table FreenetHarness.Latency
  FreenetHarness.Percentile FreenetHarness.Stats
open FreenetHarness.Parity (Fault orFail)

/-- One trial of one arm. -/
structure Trial where
  /-- To the last acknowledgement, if none is missing. -/
  ackLast : Option ℚ
  /-- Until every piece read back. -/
  readableLast : Option ℚ
  acks : Nat
  readable : Nat
  /-- Answers to requests an earlier trial had given up on. -/
  stale : Nat

structure Arm where
  split : Nat
  piece : Nat
  trials : List Trial := []

/-- `f64::MIN`. -/
def f64Min : ℚ := -((2 ^ 53 - 1) * 2 ^ 971)

def maxOf (v : List ℚ) : ℚ := v.foldl max f64Min

/-- What a trial meets: the clock as the budget is checked, the pieces it mints, when it
starts to put them and how each send settles, the clock at the first look for an
acknowledgement, and the rounds of reading that begin in time. -/
structure Meets (Key : Type) where
  now : Nat
  mint : Nat → Nat → Except String (Key × Bytes)
  t0 : Nat
  sends : Nat → Except String Unit
  clock : Nat
  passes : List (Nat → Turn)

/-- The connections, with what is still to come on them. -/
structure Conns (Key : Type) where
  writer : List (Arrival (Message Key))
  reader : List (Arrival (Message Key))

variable {Key : Type} [DecidableEq Key]

/-! ## One trial -/

/-- The keys acknowledged, each with the time of its first acknowledgement. -/
structure Acks (Key : Type) where
  seen : List (Key × ℚ) := []
  stale : Nat := 0

/-- An answer that is no acknowledgement of this trial's is an earlier one's. -/
def Acks.take (ids : List Key) (t0 : Nat) (s : Acks Key) (r : HostResponse Key) (clock : Nat) :
    Acks Key :=
  match r with
  | .putResponse key =>
    if key ∈ ids then { s with seen := addFirst s.seen (key, msSince t0 clock) }
    else { s with stale := s.stale + 1 }
  | _ => { s with stale := s.stale + 1 }

/-- What is acknowledged, and what is left on the connection. -/
def collectAcks (ids : List Key) (deadline t0 : Nat) :
    Acks Key → Nat → List (Arrival (Message Key)) →
      Except Fault (Acks Key × List (Arrival (Message Key)))
  | s, _, [] => .ok (s, [])
  | s, now, a :: rest =>
    if ids.length ≤ s.seen.length then .ok (s, a :: rest)
    else if now ≤ deadline ∧ a.arrives ≤ deadline then
      match a.msg with
      | .response r => collectAcks ids deadline t0 (s.take ids t0 r a.clock) a.clock rest
      | .error e _ => .error (.bail s!"node error while collecting acks: {e}")
    else .ok (s, a :: rest)

/-- What reads back, with the keys, and what is left on the connection. -/
def poll (want : Key → Option Bytes) (t0 deadline probe : Nat) (keys : List Key)
    (inbox : List (Arrival (Message Key))) (rs : List (Nat → Turn)) :
    Except Fault (List (Key × ℚ) × List (Arrival (Message Key))) := do
  let s ← orFail (rounds (turn want t0 deadline probe) (polling keys inbox) rs)
  return (s.served, s.side)

def pieces (m : Meets Key) (piece split : Nat) : Except Fault (List (Key × Bytes)) :=
  (List.range split).mapM fun i => orFail (m.mint piece i)

/-- Put the pieces at once and watch both clocks. -/
def trial (wait probe : Nat) (ps : List (Key × Bytes)) (c : Conns Key) (m : Meets Key) :
    Except Fault (Conns Key × Trial) := do
  let keys := ps.map Prod.fst
  let _ ← (List.range ps.length).mapM fun i => orFail (m.sends i)
  let deadline := m.t0 + wait
  let (s, writer) ← collectAcks keys.dedup deadline m.t0 {} m.clock c.writer
  let (read, reader) ← poll (fill ∅ ps).lookup m.t0 deadline probe keys c.reader m.passes
  return ({ writer, reader },
    { acks := s.seen.length
      readable := read.length
      ackLast := if s.seen.length = ps.length then some (maxOf (s.seen.map Prod.snd)) else none
      readableLast := if read.length = ps.length then some (maxOf (read.map Prod.snd)) else none
      stale := s.stale })

/-! ## The acknowledgements of a trial -/

/-- The acknowledgement a message is, of one of the keys. -/
def ackOf (ids : List Key) (t0 : Nat) (a : Arrival (Message Key)) : Option (Key × ℚ) :=
  match a.msg with
  | .response (.putResponse key) => if key ∈ ids then some (key, msSince t0 a.clock) else none
  | _ => none

theorem take_seen (ids : List Key) (t0 : Nat) (s : Acks Key) {a : Arrival (Message Key)}
    {r : HostResponse Key} (h : a.msg = .response r) :
    (s.take ids t0 r a.clock).seen = (ackOf ids t0 a).toList.foldl addFirst s.seen ∧
      (s.take ids t0 r a.clock).stale = s.stale + if (ackOf ids t0 a).isSome then 0 else 1 := by
  unfold Acks.take ackOf
  rw [h]
  cases r with
  | putResponse key => by_cases hk : key ∈ ids <;> simp [hk]
  | getResponse key state => exact ⟨rfl, rfl⟩
  | other => exact ⟨rfl, rfl⟩

/-- What a trial takes in of its messages: the first acknowledgement of each of its keys,
and everything else that is not one of them counted as stale. -/
structure Took (ids : List Key) (t0 : Nat) (p : List (Arrival (Message Key))) (s : Acks Key) :
    Prop where
  nodup : (s.seen.map Prod.fst).Nodup
  first : ∀ key, firstFor s.seen key = firstFor (p.filterMap (ackOf ids t0)) key
  stale : s.stale = p.countP fun a => (ackOf ids t0 a).isNone

theorem Took.nil (ids : List Key) (t0 : Nat) : Took ids t0 [] ({} : Acks Key) :=
  ⟨List.nodup_nil, fun _ => rfl, rfl⟩

/-- **Step.** -/
theorem Took.take {ids : List Key} {t0 : Nat} {p : List (Arrival (Message Key))} {s : Acks Key}
    (h : Took ids t0 p s) {a : Arrival (Message Key)} {r : HostResponse Key}
    (ha : a.msg = .response r) : Took ids t0 (p ++ [a]) (s.take ids t0 r a.clock) := by
  obtain ⟨hseen, hstale⟩ := take_seen ids t0 s ha
  cases hack : ackOf ids t0 a with
  | none =>
    rw [hack] at hseen hstale
    refine ⟨?_, fun key => ?_, ?_⟩
    · rw [hseen]
      exact h.nodup
    · rw [hseen, List.filterMap_append, List.filterMap_cons, hack, List.filterMap_nil,
        List.append_nil]
      exact h.first key
    · rw [hstale, h.stale, List.countP_append, List.countP_singleton, hack]
      rfl
  | some x =>
    rw [hack] at hseen hstale
    refine ⟨?_, fun key => ?_, ?_⟩
    · rw [hseen]
      exact nodup_addFirst h.nodup x
    · rw [hseen, List.filterMap_append, List.filterMap_cons, hack, List.filterMap_nil,
        firstFor_append, ← h.first key, ← firstFor_append]
      exact firstFor_addFirst s.seen x key
    · rw [hstale, h.stale, List.countP_append, List.countP_singleton, hack]
      rfl

/-- **Run.** The messages taken are the first ones on the connection, none after the
deadline. -/
theorem collectAcks_ok {ids : List Key} {deadline t0 now : Nat} {p : List (Arrival (Message Key))}
    {s s' : Acks Key} {inbox rest : List (Arrival (Message Key))} (hs : Took ids t0 p s)
    (h : collectAcks ids deadline t0 s now inbox = .ok (s', rest)) :
    ∃ q, inbox = q ++ rest ∧ Took ids t0 (p ++ q) s' ∧ ∀ a ∈ q, a.arrives ≤ deadline := by
  induction inbox generalizing p s now with
  | nil =>
    cases h
    exact ⟨[], rfl, by rwa [List.append_nil], nofun⟩
  | cons a inbox ih =>
    unfold collectAcks at h
    split at h
    · cases h
      exact ⟨[], rfl, by rwa [List.append_nil], nofun⟩
    · split at h
      · rename_i hin
        split at h
        · rename_i r hm
          obtain ⟨q, rfl, hq, hle⟩ := ih (hs.take hm) h
          exact ⟨a :: q, rfl, by simpa using hq, List.forall_mem_cons.mpr ⟨hin.2, hle⟩⟩
        · cases h
      · cases h
        exact ⟨[], rfl, by rwa [List.append_nil], nofun⟩

/-! ## The numbers of a trial -/

theorem foldl_max (v : List ℚ) (a : ℚ) :
    v.foldl max a ∈ a :: v ∧ ∀ x ∈ a :: v, x ≤ v.foldl max a := by
  induction v generalizing a with
  | nil => exact ⟨List.mem_singleton_self a, fun x hx => (List.mem_singleton.mp hx).le⟩
  | cons b v ih =>
    obtain ⟨hmem, hle⟩ := ih (max a b)
    have hab := hle _ (List.mem_cons_self ..)
    refine ⟨?_, fun x hx => ?_⟩
    · obtain h | h := List.mem_cons.mp hmem
      · rw [List.foldl_cons, h]
        obtain h | h := max_choice a b <;> rw [h] <;> simp
      · exact List.mem_cons_of_mem _ (List.mem_cons_of_mem _ h)
    · obtain rfl | hx := List.mem_cons.mp hx
      · exact (le_max_left ..).trans hab
      · obtain rfl | hx := List.mem_cons.mp hx
        · exact (le_max_right ..).trans hab
        · exact hle x (List.mem_cons_of_mem _ hx)

/-- The greatest of some times. -/
theorem maxOf_isGreatest {v : List ℚ} (hv : v ≠ []) (hnn : ∀ x ∈ v, 0 ≤ x) :
    maxOf v ∈ v ∧ ∀ x ∈ v, x ≤ maxOf v := by
  obtain ⟨hmem, hle⟩ := foldl_max v f64Min
  refine ⟨?_, fun x hx => hle x (List.mem_cons_of_mem _ hx)⟩
  obtain h | h := List.mem_cons.mp hmem
  · obtain ⟨x, hx⟩ := List.exists_mem_of_ne_nil v hv
    have hx' := (hnn x hx).trans (hle x (List.mem_cons_of_mem _ hx))
    rw [h] at hx'
    exact absurd hx' (by norm_num [f64Min])
  · exact h

/-- The time of the last piece, where there is none missing: the greatest of the times. -/
structure LastOf (keys : List Key) (got : List (Key × ℚ)) (last : Option ℚ) : Prop where
  isSome : last.isSome ↔ ∀ key ∈ keys, key ∈ got.map Prod.fst
  mem : ∀ v ∈ last, v ∈ got.map Prod.snd
  le : ∀ v ∈ last, ∀ q ∈ got, q.2 ≤ v

omit [DecidableEq Key] in
theorem lastOf {keys : List Key} {got : List (Key × ℚ)} (hne : keys ≠ [])
    (hkeys : keys.Nodup) (hgot : (got.map Prod.fst).Nodup) (hsub : ∀ q ∈ got, q.1 ∈ keys)
    (hnn : ∀ q ∈ got, 0 ≤ q.2) :
    LastOf keys got
      (if got.length = keys.length then some (maxOf (got.map Prod.snd)) else none) := by
  have hsub' : got.map Prod.fst ⊆ keys := fun k hk => by
    obtain ⟨q, hq, rfl⟩ := List.mem_map.mp hk
    exact hsub q hq
  have hall : got.length = keys.length ↔ ∀ key ∈ keys, key ∈ got.map Prod.fst := by
    constructor
    · intro hlen key hkey
      have hp := hgot.subperm hsub'
      exact (hp.perm_of_length_le (by rw [List.length_map, hlen])).mem_iff.mpr hkey
    · intro h
      have h1 := (hgot.subperm hsub').length_le
      have h2 := (hkeys.subperm h).length_le
      rw [List.length_map] at h1 h2
      exact Nat.le_antisymm h1 h2
  have hlast : ∀ v ∈ (if got.length = keys.length then some (maxOf (got.map Prod.snd)) else none),
      v ∈ got.map Prod.snd ∧ ∀ q ∈ got, q.2 ≤ v := by
    intro v hv
    split at hv
    · rename_i hlen
      obtain rfl := Option.some.inj hv
      have hv : got.map Prod.snd ≠ [] := by
        intro he
        rw [List.map_eq_nil_iff.mp he] at hlen
        exact hne (List.eq_nil_of_length_eq_zero hlen.symm)
      obtain ⟨hmem, hle⟩ := maxOf_isGreatest hv fun x hx => by
        obtain ⟨q, hq, rfl⟩ := List.mem_map.mp hx
        exact hnn q hq
      exact ⟨hmem, fun q hq => hle _ (List.mem_map_of_mem hq)⟩
    · cases hv
  refine ⟨?_, fun v hv => (hlast v hv).1, fun v hv => (hlast v hv).2⟩
  rw [← hall]
  split
  · exact iff_of_true rfl ‹_›
  · exact iff_of_false nofun ‹_›

theorem ackOf_eq_some {ids : List Key} {t0 : Nat} {a : Arrival (Message Key)} {x : Key × ℚ} :
    ackOf ids t0 a = some x ↔
      a.msg = .response (.putResponse x.1) ∧ x.1 ∈ ids ∧ x.2 = msSince t0 a.clock := by
  unfold ackOf
  split
  · rename_i key hm
    rw [hm]
    split
    · rename_i hk
      constructor
      · intro h
        cases h
        exact ⟨rfl, hk, rfl⟩
      · rintro ⟨he, -, ht⟩
        cases he
        rw [← ht]
    · rename_i hk
      refine iff_of_false nofun ?_
      rintro ⟨he, hx, -⟩
      cases he
      exact hk hx
  · rename_i hm
    exact iff_of_false nofun fun h => hm _ h.1

theorem poll_ok {want : Key → Option Bytes} {t0 deadline probe : Nat} {keys : List Key}
    {inbox rest : List (Arrival (Message Key))} {rs : List (Nat → Turn)} {read : List (Key × ℚ)}
    (hd : keys.Nodup) (h : poll want t0 deadline probe keys inbox rs = .ok (read, rest)) :
    (read.map Prod.fst).Nodup ∧ ∀ q ∈ read, q.1 ∈ keys ∧ 0 ≤ q.2 := by
  obtain ⟨s, hs, h⟩ := bind_eq_ok.mp h
  cases h
  cases hr : rounds (turn want t0 deadline probe) (polling keys inbox) rs with
  | error e =>
    rw [hr] at hs
    cases hs
  | ok s' =>
    rw [hr] at hs
    cases hs
    have hperm : (s.served.map Prod.fst ++ s.still).Perm keys := rounds_perm hr
    refine ⟨(List.nodup_append.mp (hperm.nodup_iff.mpr hd)).1, fun q hq => ⟨?_, ?_⟩⟩
    · exact hperm.mem_iff.mp (List.mem_append_left _ (List.mem_map_of_mem hq))
    · rw [served_eq hr] at hq
      obtain ⟨v, -, hgives⟩ := List.mem_filterMap.mp hq
      obtain ⟨-, -, a, -, -, ht⟩ := gives_iff.mp hgives
      rw [ht]
      exact msSince_nonneg ..

/-- **The numbers of a trial** whose pieces have different keys. It takes the first messages
of its connection, none later than its deadline; of those it counts the first
acknowledgement of each of its own keys, and as stale what acknowledges none of them; and
the time of the last piece is given exactly where no piece is missing. -/
theorem trial_reports {wait probe : Nat} {ps : List (Key × Bytes)} {c c' : Conns Key}
    {m : Meets Key} {x : Trial} (hne : ps ≠ []) (hd : (ps.map Prod.fst).Nodup)
    (h : trial wait probe ps c m = .ok (c', x)) :
    ∃ p acked read, c.writer = p ++ c'.writer ∧ (∀ a ∈ p, a.arrives ≤ m.t0 + wait) ∧
      (∀ key t, (key, t) ∈ acked ↔
        firstFor (p.filterMap (ackOf (ps.map Prod.fst) m.t0)) key = some t) ∧
      (acked.map Prod.fst).Nodup ∧
      x.acks = acked.length ∧ LastOf (ps.map Prod.fst) acked x.ackLast ∧
      x.stale = (p.countP fun a => (ackOf (ps.map Prod.fst) m.t0 a).isNone) ∧
      (∀ q ∈ read, q.1 ∈ ps.map Prod.fst) ∧ (read.map Prod.fst).Nodup ∧
      x.readable = read.length ∧ LastOf (ps.map Prod.fst) read x.readableLast := by
  obtain ⟨_, -, h⟩ := bind_eq_ok.mp h
  obtain ⟨⟨s, writer⟩, hs, h⟩ := bind_eq_ok.mp h
  obtain ⟨⟨read, reader⟩, hread, h⟩ := bind_eq_ok.mp h
  cases h
  rw [List.dedup_eq_self.mpr hd] at hs
  obtain ⟨p, hp, htook, hle⟩ := collectAcks_ok (Took.nil _ _) hs
  rw [List.nil_append] at htook
  obtain ⟨hrnd, hr⟩ := poll_ok hd hread
  have hkeys : ps.map Prod.fst ≠ [] := fun he => hne (List.map_eq_nil_iff.mp he)
  have hmem : ∀ key t, (key, t) ∈ s.seen ↔
      firstFor (p.filterMap (ackOf (ps.map Prod.fst) m.t0)) key = some t := fun key t => by
    rw [← firstFor_eq_some_iff htook.nodup, htook.first]
  have hacks : ∀ q ∈ s.seen, q.1 ∈ ps.map Prod.fst ∧ 0 ≤ q.2 := by
    intro q hq
    have hf := (hmem q.1 q.2).mp hq
    obtain ⟨y, hy, hq2⟩ := Option.map_eq_some_iff.mp hf
    obtain ⟨hin, hk⟩ := List.mem_filter.mp (List.mem_of_mem_head? hy)
    obtain ⟨a, -, ha⟩ := List.mem_filterMap.mp hin
    obtain ⟨-, hid, ht⟩ := ackOf_eq_some.mp ha
    rw [← hq2, ← of_decide_eq_true hk, ht]
    exact ⟨hid, msSince_nonneg ..⟩
  have hlen : (ps.map Prod.fst).length = ps.length := List.length_map ..
  refine ⟨p, s.seen, read, hp, hle, hmem, htook.nodup, rfl, ?_, htook.stale,
    fun q hq => (hr q hq).1, hrnd, rfl, ?_⟩
  · have := lastOf hkeys hd htook.nodup (fun q hq => (hacks q hq).1) fun q hq => (hacks q hq).2
    rwa [hlen] at this
  · have := lastOf hkeys hd hrnd (fun q hq => (hr q hq).1) fun q hq => (hr q hq).2
    rwa [hlen] at this

/-! ## A run -/

structure Opts where
  total : Nat
  splits : List Nat
  rounds : Nat
  budgetSecs : Nat
  probeMs : Nat
  wait : Nat

/-- What a run meets. The `n`-th trial it begins meets `turns n`. -/
structure Setting (Key : Type) where
  /-- The length of the contract's code, if it is read. -/
  code : Except String Nat
  /-- `block::PARAMS_LEN`. -/
  paramsLen : Nat
  opened : Except String Unit
  reopened : Except String Unit
  start : Nat
  conns : Conns Key
  turns : Nat → Meets Key

/-- The arms, the connections, and what is counted over all trials. -/
structure Progress (Key : Type) where
  arms : List Arm
  begun : Nat := 0
  conns : Conns Key
  minted : Finset Key := ∅
  requests : Nat := 0

def Progress.push (p : Progress Key) (i : Nat) (ps : List (Key × Bytes)) (c : Conns Key)
    (x : Trial) : Progress Key where
  arms := p.arms.modify i fun a => { a with trials := a.trials ++ [x] }
  begun := p.begun + 1
  conns := c
  minted := p.minted ∪ (ps.map Prod.fst).toFinset
  requests := p.requests + ps.length

/-- The bound of one probe. -/
def Opts.probe (o : Opts) : Nat := max o.probeMs 20 * 1000000

/-- Every arm has to put the same payload. -/
def checkSplits (o : Opts) : Except Fault Unit :=
  if o.splits = [] ∨ o.rounds = 0 then
    .error (.bail "nothing to measure: --splits and --rounds must both be non-empty")
  else match o.splits.find? fun s => s = 0 ∨ o.total % s ≠ 0 with
    | none => .ok ()
    | some s => .error (.bail (s!"--total {o.total} does not divide evenly by split {s} — the arms " ++
        "would not be putting the same payload"))

def Opts.arms (o : Opts) : List Arm := o.splits.map fun split => { split, piece := o.total / split }

def budget (o : Opts) (start : Nat) : Option Nat :=
  if 0 < o.budgetSecs then some (start + seconds o.budgetSecs) else none

def spent (o : Opts) (w : Setting Key) (p : Progress Key) : Bool :=
  (budget o w.start).any fun d => d ≤ (w.turns p.begun).now

def visit (o : Opts) (w : Setting Key) (p : Progress Key) (i : Nat) :
    Except Fault (Progress Key) :=
  match p.arms[i]? with
  | none => .ok p
  | some a => do
    let ps ← pieces (w.turns p.begun) a.piece a.split
    let (c, x) ← trial o.wait o.probe ps p.conns (w.turns p.begun)
    return p.push i ps c x

/-- Every arm gets a round before any arm gets the next. -/
def trials (o : Opts) (w : Setting Key) : Except Fault (Ended (Progress Key)) :=
  laps (visit o w) (spent o w) (fun _ => false) (List.range o.arms.length) o.rounds 0
    { arms := o.arms, conns := w.conns }

/-! ## The report -/

def Arm.acks (a : Arm) : List ℚ := a.trials.filterMap Trial.ackLast

def Arm.reads (a : Arm) : List ℚ := a.trials.filterMap Trial.readableLast

/-- Every put carries the whole contract, so `split` pieces carry the code `split` times. -/
def sent (o : Opts) (w : Setting Key) (codeLen : Nat) (a : Arm) : Nat :=
  o.total + a.split * (codeLen + w.paramsLen)

def summaryCells : Option (Summary ℚ) → List String
  | some s => cells s
  | none => List.replicate 5 "—"

def ackRow (o : Opts) (w : Setting Key) (codeLen : Nat) (a : Arm) : Except Fault (List String) := do
  let s ← Summary.of a.acks
  return [s!"{a.split}x", kib a.piece, toString a.trials.length,
    s!"{a.acks.length}/{a.trials.length}", kib (sent o w codeLen a)] ++ summaryCells s

/-- The row of the second table, and the note where the instrument did not resolve it. -/
def readRow (g : Grid) (a : Arm) : Except Fault (List String × Option String) := do
  let s ← Summary.of a.reads
  return ([s!"{a.split}x", kib a.piece, s!"{a.reads.length}/{a.trials.length}"] ++ summaryCells s,
    s.bind (g.unresolved s!"{a.split}x{kib a.piece}"))

/-- The line that checks that the arms can be compared. -/
def controlLine (requests distinct : Nat) : String :=
  let verdict := if distinct = requests then "every put was a first put"
    else "REPEATED KEYS: some puts were merges and the arms are not comparable"
  s!"control: {requests} put requests, {distinct} distinct contract keys — {verdict}"

/-- A trial without one of its two times. -/
def Trial.short (x : Trial) : Bool := x.ackLast.isNone || x.readableLast.isNone

def shortLine (a : Arm) (i : Nat) (x : Trial) : String :=
  s!"   {a.split}x{kib a.piece} trial {i + 1}: {x.acks} of {a.split} acked, " ++
    s!"{x.readable} of {a.split} readable"

def shortLines (arms : List Arm) : List String :=
  arms.flatMap fun a =>
    (a.trials.zipIdx.filter fun x => x.1.short).map fun x => shortLine a x.2 x.1

structure Report where
  acks : List (List String)
  reads : List (List String)
  unresolved : List String
  control : String
  stale : Option String
  /-- The trials that did not complete: a line over them, and one for each. -/
  short : Option (String × List String)
  cut : Option String

def report (o : Opts) (w : Setting Key) (codeLen : Nat) (e : Ended (Progress Key)) :
    Except Fault Report := do
  let arms := e.state.arms
  let g := Grid.new (millis o.probe) 10
  let acks ← arms.mapM (ackRow o w codeLen)
  let reads ← arms.mapM (readRow g)
  let stale := ((arms.flatMap Arm.trials).map Trial.stale).sum
  let short := (arms.flatMap Arm.trials).countP Trial.short
  return {
    acks
    reads := reads.map Prod.fst
    unresolved := reads.filterMap Prod.snd
    control := controlLine e.state.requests e.state.minted.card
    stale := if 0 < stale then
      some (s!"{stale} late answer(s) to earlier trials were discarded, not charged to a later one")
      else none
    short := if 0 < short then
      some (s!"{short} trial(s) did not complete within {asSecs o.wait} s and are EXCLUDED from " ++
        "the percentiles above — an incomplete trial is not a fast one", shortLines arms)
      else none
    cut := if e.stop = .budget then
      some (s!"the run reached its {o.budgetSecs} s budget; the rounds not taken are NOT within it")
      else none }

def run (o : Opts) (w : Setting Key) : Except Fault (Ended (Progress Key) × Report) := do
  checkSplits o
  let codeLen ← orFail w.code
  orFail w.opened
  orFail w.reopened
  let e ← trials o w
  let r ← report o w codeLen e
  return (e, r)

/-! ## What a run put -/

/-- The keys that the `n`-th trial begun puts. -/
def keysAt (o : Opts) (w : Setting Key) (n : Nat) : List Key :=
  match o.arms[n % o.arms.length]? with
  | none => []
  | some a =>
    match pieces (w.turns n) a.piece a.split with
    | .error _ => []
    | .ok ps => ps.map Prod.fst

/-- Every key that the first `n` trials put. -/
def putKeys (o : Opts) (w : Setting Key) (n : Nat) : List Key := (List.range n).flatMap (keysAt o w)

omit [DecidableEq Key] in
theorem putKeys_succ (o : Opts) (w : Setting Key) (n : Nat) :
    putKeys o w (n + 1) = putKeys o w n ++ keysAt o w n := by
  rw [putKeys, List.range_succ, List.flatMap_append, List.flatMap_singleton]
  rfl

/-- The trial `x` of the `j`-th arm is the `n`-th one begun, within the budget. -/
def Made (o : Opts) (w : Setting Key) (n j : Nat) (x : Trial) : Prop :=
  (∀ d ∈ budget o w.start, (w.turns n).now < d) ∧
    ∃ a ∈ o.arms[j]?, ∃ ps c c', pieces (w.turns n) a.piece a.split = .ok ps ∧
      trial o.wait o.probe ps c (w.turns n) = .ok (c', x)

/-- What an arm puts. -/
def Arm.shape (a : Arm) : Nat × Nat := (a.split, a.piece)

/-- The run, `k` visits into the lap after the `r`-th. -/
structure Interleaved (o : Opts) (w : Setting Key) (r k : Nat) (p : Progress Key) : Prop where
  arms : p.arms.map Arm.shape = o.arms.map Arm.shape
  begun : p.begun = r * o.arms.length + k
  filed : Filed (Made o w) o.arms.length r k (p.arms.map Arm.trials)
  requests : p.requests = (putKeys o w p.begun).length
  minted : p.minted = (putKeys o w p.begun).toFinset

namespace Interleaved

variable {o : Opts} {w : Setting Key} {r k : Nat} {p : Progress Key}

theorem length_eq (h : Interleaved o w r k p) : p.arms.length = o.arms.length := by
  simpa using congrArg List.length h.arms

theorem start : Interleaved o w 0 0 { arms := o.arms, conns := w.conns } := by
  have hempty : o.arms.map Arm.trials = List.replicate o.arms.length [] := by
    simp [Opts.arms, List.eq_replicate_iff]
  refine ⟨rfl, by simp, ?_, rfl, rfl⟩
  rw [hempty]
  exact Filed.start _

/-- **Step.** A visit in time puts the pieces of its arm and makes its trial. -/
theorem push (h : Interleaved o w r k p) (hk : k < p.arms.length) (hspent : spent o w p = false)
    {ps : List (Key × Bytes)} {c : Conns Key} {x : Trial}
    (hps : pieces (w.turns p.begun) p.arms[k].piece p.arms[k].split = .ok ps)
    (hx : trial o.wait o.probe ps p.conns (w.turns p.begun) = .ok (c, x)) :
    Interleaved o w r (k + 1) (p.push k ps c x) := by
  obtain ⟨a, ha, hsplit, hpiece⟩ :
      ∃ a, o.arms[k]? = some a ∧ a.split = p.arms[k].split ∧ a.piece = p.arms[k].piece := by
    have hshape := congrArg (·[k]?) h.arms
    rw [List.getElem?_map, List.getElem?_map, List.getElem?_eq_getElem hk, Option.map_some] at hshape
    obtain ⟨a, ha, hshape⟩ := Option.map_eq_some_iff.mp hshape.symm
    exact ⟨a, ha, (Prod.mk.inj hshape).1, (Prod.mk.inj hshape).2⟩
  rw [← hsplit, ← hpiece] at hps
  have hmade : Made o w (r * o.arms.length + k) k x := by
    rw [← h.begun]
    refine ⟨fun d hd => ?_, a, ha, ps, p.conns, c, hps, hx⟩
    rw [spent, hd, Option.any_some, decide_eq_false_iff_not] at hspent
    exact Nat.not_le.mp hspent
  have hkeys : keysAt o w p.begun = ps.map Prod.fst := by
    have hmod : p.begun % o.arms.length = k := by
      rw [h.begun, Nat.mul_add_mod_self_right, Nat.mod_eq_of_lt (h.length_eq ▸ hk)]
    unfold keysAt
    rw [hmod, ha]
    dsimp only
    rw [hps]
  refine ⟨?_, ?_, ?_, ?_, ?_⟩
  · show (p.arms.modify k _).map Arm.shape = _
    rw [← h.arms, map_modify_eq]
    exact fun _ => rfl
  · show p.begun + 1 = _
    rw [h.begun]
    rfl
  · have hmap : (p.push k ps c x).arms.map Arm.trials = file (p.arms.map Arm.trials) k x :=
      map_modify_file (fun _ => rfl) p.arms k
    rw [hmap]
    exact h.filed.file hmade
  · show p.requests + ps.length = (putKeys o w (p.begun + 1)).length
    rw [putKeys_succ, hkeys, List.length_append, List.length_map, ← h.requests]
  · show p.minted ∪ _ = (putKeys o w (p.begun + 1)).toFinset
    rw [putKeys_succ, hkeys, List.toFinset_append, ← h.minted]

end Interleaved

theorem visit_ok {o : Opts} {w : Setting Key} {p p' : Progress Key} {i : Nat}
    (hi : i < p.arms.length) (h : visit o w p i = .ok p') :
    ∃ ps c x, pieces (w.turns p.begun) p.arms[i].piece p.arms[i].split = .ok ps ∧
      trial o.wait o.probe ps p.conns (w.turns p.begun) = .ok (c, x) ∧ p' = p.push i ps c x := by
  unfold visit at h
  rw [List.getElem?_eq_getElem hi] at h
  obtain ⟨ps, hps, h⟩ := bind_eq_ok.mp h
  obtain ⟨⟨c, x⟩, hx, h⟩ := bind_eq_ok.mp h
  cases h
  exact ⟨ps, c, x, hps, hx, rfl⟩

theorem trials_ok {o : Opts} {w : Setting Key} {e : Ended (Progress Key)} (h : trials o w = .ok e) :
    ∃ k, Interleaved o w e.laps k e.state ∧
      e.At (spent o w) (fun _ => false) o.arms.length o.rounds k := by
  have hlen : (List.range o.arms.length).length = o.arms.length := List.length_range
  have hvisit : ∀ r k i p p', (List.range o.arms.length)[k]? = some i → spent o w p = false →
      Interleaved o w r k p → visit o w p i = .ok p' → Interleaved o w r (k + 1) p' := by
    intro r k i p p' hi hspent hp hv
    obtain ⟨hk, hi⟩ := List.getElem?_eq_some_iff.mp hi
    rw [List.getElem_range] at hi
    subst hi
    rw [hlen, ← hp.length_eq] at hk
    obtain ⟨ps, c, x, hps, hx, rfl⟩ := visit_ok hk hv
    exact hp.push hk hspent hps hx
  have hlap : ∀ r p, Interleaved o w r (List.range o.arms.length).length p →
      Interleaved o w (r + 1) 0 p := by
    intro r p hp
    rw [hlen] at hp
    refine ⟨hp.arms, ?_, hp.filed.lap, hp.requests, hp.minted⟩
    rw [hp.begun, Nat.add_mul, Nat.one_mul, Nat.add_zero]
  obtain ⟨k, hk, hat⟩ := laps_ok hvisit hlap Interleaved.start h
  exact ⟨k, hk, hlen ▸ hat⟩

theorem of_checkSplits {o : Opts} (h : checkSplits o = .ok ()) {a : Arm} (ha : a ∈ o.arms) :
    0 < a.split ∧ a.split * a.piece = o.total := by
  obtain ⟨s, hs, rfl⟩ := List.mem_map.mp ha
  unfold checkSplits at h
  split at h
  · cases h
  · split at h
    · rename_i hnone
      have := List.find?_eq_none.mp hnone s hs
      rw [decide_eq_true_eq, not_or, not_not] at this
      exact ⟨Nat.pos_of_ne_zero this.1, Nat.mul_div_cancel' (Nat.dvd_of_mod_eq_zero this.2)⟩
    · cases h

/-- **The controls of a run.** Every arm puts the whole payload; the arms take turns, so that
none is more than a trial ahead of another; and the control line counts every put of the run
and says that each was a first put exactly where no key was put twice. -/
theorem run_controls {o : Opts} {w : Setting Key} {e : Ended (Progress Key)} {r : Report}
    (h : run o w = .ok (e, r)) :
    ∃ k, Interleaved o w e.laps k e.state ∧
      (∀ a ∈ e.state.arms, 0 < a.split ∧ a.split * a.piece = o.total ∧
        e.laps ≤ a.trials.length ∧ a.trials.length ≤ e.laps + 1) ∧
      (r.cut = none → k = 0 ∧ e.laps = o.rounds) ∧
      r.control = controlLine (putKeys o w e.state.begun).length
        (putKeys o w e.state.begun).toFinset.card ∧
      ((putKeys o w e.state.begun).toFinset.card = (putKeys o w e.state.begun).length ↔
        (putKeys o w e.state.begun).Nodup) := by
  obtain ⟨_, hsplits, h⟩ := bind_eq_ok.mp h
  obtain ⟨codeLen, -, h⟩ := bind_eq_ok.mp h
  obtain ⟨_, -, h⟩ := bind_eq_ok.mp h
  obtain ⟨_, -, h⟩ := bind_eq_ok.mp h
  obtain ⟨e', he, h⟩ := bind_eq_ok.mp h
  obtain ⟨r', hr, h⟩ := bind_eq_ok.mp h
  cases h
  obtain ⟨acks, -, hr⟩ := bind_eq_ok.mp hr
  obtain ⟨reads, -, hr⟩ := bind_eq_ok.mp hr
  cases hr
  obtain ⟨k, hk, hat⟩ := trials_ok he
  refine ⟨k, hk, fun a ha => ?_, fun hcut => ?_, ?_, card_toFinset_eq_length_iff⟩
  · obtain ⟨j, hj⟩ := List.mem_iff_getElem?.mp ha
    have hshape : (o.arms.map Arm.shape)[j]? = some a.shape := by
      rw [← hk.arms, List.getElem?_map, hj, Option.map_some]
    rw [List.getElem?_map] at hshape
    obtain ⟨b, hb, hshape⟩ := Option.map_eq_some_iff.mp hshape
    obtain ⟨hpos, htotal⟩ := of_checkSplits hsplits (List.mem_of_getElem? hb)
    rw [(Prod.mk.inj hshape).1] at hpos htotal
    rw [(Prod.mk.inj hshape).2] at htotal
    have hcount := hk.filed.count j a.trials (by rw [List.getElem?_map, hj]; rfl)
    unfold Lib.Laps.visits at hcount
    refine ⟨hpos, htotal, ?_⟩
    split at hcount <;> omega
  · cases hs : e.stop with
    | enough => exact absurd (hat.enough hs) Bool.false_ne_true
    | budget =>
      dsimp only at hcut
      rw [if_pos hs] at hcut
      cases hcut
    | cap => exact ⟨hat.eq_zero (by rw [hs]; exact nofun), hat.cap hs⟩
  · show controlLine e.state.requests e.state.minted.card = _
    rw [hk.requests, hk.minted]

/-- Two arms, of one piece and of two, one trial each; every piece is acknowledged, behind a
late answer to something else. -/
def oneAndTwo : Setting Nat where
  code := .ok 4
  paramsLen := 32
  opened := .ok ()
  reopened := .ok ()
  start := 0
  conns :=
    { writer := [⟨.response (.putResponse 7), 5, 5⟩, ⟨.response (.putResponse 0), 6, 6⟩,
        ⟨.response (.putResponse 11), 15, 15⟩, ⟨.response (.putResponse 10), 16, 16⟩]
      reader := [] }
  turns n :=
    { now := 10 * n, mint := fun _ i => .ok (10 * n + i, [1]), t0 := 10 * n, sends := fun _ => .ok ()
      clock := 10 * n, passes := [] }

def oneRoundOfEach : Opts :=
  { total := 2, splits := [1, 2], rounds := 1, budgetSecs := 60, probeMs := 50, wait := 1000 }

theorem trial_reports_one : ∃ c' x acked, trial 1000 50 [(0, [1])] oneAndTwo.conns
      (oneAndTwo.turns 0) = .ok (c', x) ∧ x.stale = 1 ∧ LastOf [0] acked x.ackLast := by
  obtain ⟨-, acked, -, -, -, -, -, -, hlast, -⟩ := @trial_reports _ _ 1000 50
    [(0, [1])] oneAndTwo.conns _ (oneAndTwo.turns 0) _ (by decide) (by decide) rfl
  exact ⟨_, _, acked, rfl, rfl, hlast⟩

theorem run_controls_two : ∃ e r, run oneRoundOfEach oneAndTwo = .ok (e, r) ∧
    r.control = controlLine 3 3 ∧ e.laps = 1 := by
  have h : (match run oneRoundOfEach oneAndTwo with
      | .ok (e, r) => decide (r.cut = none ∧ e.laps = 1 ∧
          putKeys oneRoundOfEach oneAndTwo e.state.begun = [0, 10, 11])
      | .error _ => false) = true := by decide +kernel
  split at h
  · rename_i e r he
    obtain ⟨hcut, hlaps, hkeys⟩ := of_decide_eq_true h
    obtain ⟨k, -, -, -, hcontrol, -⟩ := run_controls he
    rw [hkeys] at hcontrol
    exact ⟨e, r, he, hcontrol, hlaps⟩
  · cases h

end FreenetHarness.PutShape
