import FreenetHarness.Lib.Count
import FreenetHarness.Lib.Run
import FreenetHarness.Parity.File

/-! # WRITE: put whole groups, and read the file back

Every member of a group is sent before any acknowledgement is collected;
acknowledgements are drained between groups and once more at the end. The run then
counts outcomes twice, from the times it measured and from the file it wrote, and
fails when the two counts differ. `readback_iff` says when they agree. -/
namespace FreenetHarness.Parity
open FreenetHarness.Lib.Text FreenetHarness.Lib.Number FreenetHarness.Lib.Run
  FreenetHarness.Lib.Count

structure Opts where
  ms : List UInt64
  groups : Nat
  controlGroups : Nat
  parity : UInt64
  ackSecs : UInt64
  budgetMins : Nat
  out : String

/-- The groups to put, the arms and the sizes interleaved. -/
def plan (o : Opts) : List (UInt64 × Arm) :=
  (List.range (max o.groups o.controlGroups)).flatMap fun i =>
    o.ms.flatMap fun m =>
      (if i < o.groups then [(m, Arm.full)] else []) ++
        if i < o.controlGroups then [(m, Arm.control)] else []

/-- The bound in milliseconds, as the file and the tally use it. -/
def Opts.boundMs (o : Opts) : Nat := (o.ackSecs * 1000).toNat

/-! ## What the run meets -/

/-- One block: what was drawn and minted for it, how its send settled, and the
clock in milliseconds once it had. -/
structure SendEnv where
  seed : Seed
  key : Str
  tSend : BitVec 128
  stateLen : UInt64
  settled : Except String Unit
  clock : ℚ

/-- A message the connection delivers while acknowledgements are drained. -/
inductive Arrival where
  | put (key : Str) (clock : ℚ)
  | get (key : Str)
  | other
  deriving DecidableEq

/-- What one drain is given before its wait expires or the connection ends. -/
structure Drain where
  arrivals : List Arrival
  closed : Bool

structure GroupEnv where
  overBudget : Bool
  send : Nat → SendEnv
  drain : Drain

/-- What went over the connection, in order: the keyed puts, and the messages read. -/
inductive Happened where
  | sent (key : Str) (clock : ℚ)
  | arrived (a : Arrival)
  deriving DecidableEq

/-! ## The run -/

structure Run where
  /-- The file after its first line. -/
  entries : List Entry := []
  sentAt : List (Str × ℚ) := []
  ackMs : List (Str × ℚ) := []
  seen : Nat := 0
  nBlocks : Nat := 0
  /-- What the connection's recording is about. -/
  happened : List Happened := []

def elapsed (since clock : ℚ) : ℚ := max 0 (clock - since)

/-- One message of `drain_acks`. -/
def arrive (r : Run) (a : Arrival) : Run :=
  let r := { r with happened := r.happened ++ [.arrived a] }
  match a with
  | .put key clock => match r.sentAt.lookup key with
    | some t => match r.ackMs.lookup key with
      | some _ => r
      | none =>
        { r with
          ackMs := (key, elapsed t clock) :: r.ackMs
          seen := r.seen + 1
          entries := r.entries ++ [.ack key (elapsed t clock)] }
    | none => r
  | .get _ => r
  | .other => r

/-- `drain_acks`: false only if the connection ended. -/
def drainAcks (want : Nat) (closed : Bool) : List Arrival → Run → Run × Bool
  | [], r => if want ≤ r.seen then (r, true) else (r, !closed)
  | a :: as, r => if want ≤ r.seen then (r, true) else drainAcks want closed as (arrive r a)

/-- Put one block and append its record. -/
def sendBlock (gid : Nat) (m : UInt64) (arm : Arm) (idx : Nat) (e : SendEnv) (r : Run) :
    Except Fault Run :=
  match e.settled with
  | .error msg => .error (.bail msg)
  | .ok () =>
    let b : Block :=
      { seed := e.seed, gid := UInt64.ofNat gid, m, arm, idx := UInt64.ofNat idx
        parity := m ≤ UInt64.ofNat idx, key := e.key, tSend := e.tSend, ack := .never
        size := e.stateLen }
    .ok { r with
      sentAt := (e.key, e.clock) :: r.sentAt
      nBlocks := r.nBlocks + 1
      entries := r.entries ++ [.block b]
      happened := r.happened ++ [.sent e.key e.clock] }

/-- One group: its sends, then whatever has arrived. -/
def writeGroup (parity : UInt64) (gid : Nat) (m : UInt64) (arm : Arm) (e : GroupEnv) (r : Run) :
    Except Fault Run := do
  let r ← (List.range (m + parity).toNat).foldlM
    (fun r idx => sendBlock gid m arm idx (e.send idx) r) r
  return (drainAcks r.nBlocks e.drain.closed e.drain.arrivals r).1

def writeGroups (parity : UInt64) (env : Nat → GroupEnv) :
    Nat → List (UInt64 × Arm) → Run → Except Fault Run
  | _, [], r => .ok r
  | gid, (m, arm) :: rest, r =>
    if (env gid).overBudget then .ok r
    else do writeGroups parity env (gid + 1) rest (← writeGroup parity gid m arm (env gid) r)

/-- The tail: one drain after another until every block is acknowledged, the
connection ends or the deadline passes. -/
def drainTail : List Drain → Run → Run
  | [], r => r
  | d :: ds, r =>
    if r.nBlocks ≤ r.seen then r
    else match drainAcks r.nBlocks d.closed d.arrivals r with
      | (r, true) => drainTail ds r
      | (r, false) => r

/-- The run up to the point where everything it will write is written. -/
def collect (o : Opts) (env : Nat → GroupEnv) (tail : List Drain) : Except Fault Run := do
  return drainTail tail (← writeGroups o.parity env 0 (plan o) {})

/-! ## The two tallies -/

inductive Verdict where
  | within
  | late
  | never
  deriving DecidableEq, Repr

structure Tally where
  within : Nat
  late : Nat
  never : Nat
  deriving DecidableEq, Repr

def tally (vs : List Verdict) : Tally := ⟨vs.count .within, vs.count .late, vs.count .never⟩

/-- What the recording says of a keyed operation. -/
inductive Answered where
  | never
  | once
  | late
  | twice
  deriving DecidableEq, Repr

def sentKeys (hs : List Happened) : List Str :=
  hs.filterMap fun
    | .sent key _ => some key
    | .arrived _ => none

/-- An answer named the key. -/
def Named (key : Str) (hs : List Happened) : Prop :=
  (∃ clock, .arrived (.put key clock) ∈ hs) ∨ .arrived (.get key) ∈ hs

/-- What the run relies on from the recording: one entry for each keyed operation,
by the key its label stands for, and `never` exactly when no answer named it. -/
structure Recording where
  answers : List Happened → List (Str × Answered)
  keyed : ∀ hs, ((answers hs).map Prod.fst).Perm (sentKeys hs)
  never_iff : ∀ hs key a, (key, a) ∈ answers hs → (a = .never ↔ ¬ Named key hs)

/-- The outcome of an operation by the time measured for its key. -/
def classify (bound : Nat) (r : Run) : Str × Answered → Verdict
  | (_, .never) => .never
  | (key, _) => match r.ackMs.lookup key with
    | some ms => if ms ≤ bound then .within else .late
    | none => .late

def Ack.verdict : Ack → Verdict
  | .within _ => .within
  | .late _ => .late
  | .never => .never

/-- The outcomes by the recording and the times in memory. -/
def memoryTally (rec : Recording) (o : Opts) (r : Run) : Tally :=
  tally ((rec.answers r.happened).map (classify o.boundMs r))

/-- The outcomes of the blocks the file gives back. -/
def fileTally (o : Opts) (r : Run) : Except Fault Tally := do
  let back ← parseGroups o.out (.ok (encode (fileText o.boundMs r.entries)))
  return tally (back.map fun b => b.ack.verdict)

def mismatch (recorded file : Tally) : Fault :=
  .bail ("the file this run wrote does not read back as what the recording says.\n  " ++
    s!"recording: {recorded.within} within / {recorded.late} late / {recorded.never} never\n  " ++
    s!"file:      {file.within} within / {file.late} late / {file.never} never\n  " ++
    "Both derive from the same projection now, so a mismatch is a " ++
    "serialisation fault in this tool, not a disagreement about what " ++
    "happened.")

def write (rec : Recording) (o : Opts) (env : Nat → GroupEnv) (tail : List Drain) :
    Except Fault Tally := do
  let r ← collect o env tail
  let file ← fileTally o r
  if file ≠ memoryTally rec o r then .error (mismatch (memoryTally rec o r) file)
  else return memoryTally rec o r

/-! ## What the run measured -/

/-- The last send of a key and the time of its first acknowledgement, one event on. -/
def measure (key : Str) (s : Option ℚ × Option ℚ) : Happened → Option ℚ × Option ℚ
  | .sent k clock => if k = key then (some clock, s.2) else s
  | .arrived (.put k clock) =>
    if k = key then (s.1, s.2.or (s.1.map fun t => elapsed t clock)) else s
  | .arrived _ => s

/-- The time from the send of a key to the first acknowledgement that names it. -/
def ackTime (key : Str) (hs : List Happened) : Option ℚ := (after (measure key) (none, none) hs).2

theorem measure_sent (key k : Str) (clock : ℚ) (s : Option ℚ × Option ℚ) :
    measure key s (.sent k clock) = if k = key then (some clock, s.2) else s := rfl

theorem measure_put (key k : Str) (clock : ℚ) (s : Option ℚ × Option ℚ) :
    measure key s (.arrived (.put k clock)) =
      if k = key then (s.1, s.2.or (s.1.map fun t => elapsed t clock)) else s := rfl

theorem mem_sentKeys {key : Str} {hs : List Happened} :
    key ∈ sentKeys hs ↔ ∃ clock, .sent key clock ∈ hs := by
  simp only [sentKeys, List.mem_filterMap]
  constructor
  · rintro ⟨h, hm, hk⟩
    cases h with
    | sent k clock => cases hk; exact ⟨clock, hm⟩
    | arrived a => cases hk
  · rintro ⟨clock, hm⟩
    exact ⟨_, hm, rfl⟩

/-- What is known of a key comes from the run: its send, and an answer after it. -/
structure Measured (key : Str) (hs : List Happened) (s : Option ℚ × Option ℚ) : Prop where
  sent : ∀ t, s.1 = some t → key ∈ sentKeys hs
  acked : ∀ ms, s.2 = some ms → Named key hs ∧ key ∈ sentKeys hs ∧ 0 ≤ ms

theorem Measured.step {key : Str} {hs : List Happened} {s : Option ℚ × Option ℚ}
    (h : Measured key hs s) {e : Happened} (he : e ∈ hs) : Measured key hs (measure key s e) := by
  cases e with
  | sent k clock =>
    rw [measure_sent]
    split
    · rename_i hk
      exact ⟨fun _ _ => mem_sentKeys.mpr ⟨clock, hk ▸ he⟩, h.acked⟩
    · exact h
  | arrived msg =>
    cases msg with
    | get k => exact h
    | other => exact h
    | put k clock =>
      rw [measure_put]
      split
      · rename_i hk
        refine ⟨h.sent, fun ms hms => ?_⟩
        rcases Option.or_eq_some_iff.mp hms with hms | ⟨-, hms⟩
        · exact h.acked ms hms
        · obtain ⟨t, ht, rfl⟩ := Option.map_eq_some_iff.mp hms
          exact ⟨Or.inl ⟨clock, hk ▸ he⟩, h.sent t ht, le_max_left _ _⟩
      · exact h

theorem measured (key : Str) (hs : List Happened) :
    Measured key hs (after (measure key) (none, none) hs) :=
  after_invariant hs ⟨by simp, by simp⟩ fun _ _ he h => h.step he

/-- What a run has written and what it remembers are both what happened. -/
structure Run.Kept (r : Run) : Prop where
  written : ∀ e ∈ r.entries, e.Written
  keys : (blocks r.entries).map Block.key = sentKeys r.happened
  times : ∀ key, (r.sentAt.lookup key, r.ackMs.lookup key) =
    after (measure key) (none, none) r.happened
  acks : ∀ key, firstAck r.entries key =
    (r.ackMs.lookup key).map fun ms => F64.fin (tenths ms / 10)

theorem Run.kept_nil : ({} : Run).Kept :=
  ⟨fun _ h => absurd h List.not_mem_nil, rfl, fun _ => rfl, fun _ => rfl⟩

theorem Run.Kept.ackTime {r : Run} (h : r.Kept) (key : Str) :
    r.ackMs.lookup key = ackTime key r.happened := congrArg Prod.snd (h.times key)

/-- A key that was sent is one word, like every key in the file. -/
theorem Run.Kept.isWord {r : Run} (h : r.Kept) {key : Str} (hk : key ∈ sentKeys r.happened) :
    IsWord key := by
  rw [← h.keys] at hk
  obtain ⟨b, hb, rfl⟩ := List.mem_map.mp hk
  exact Block.Sent.key (h.written _ (mem_blocks.mp hb))

theorem sentKeys_append (hs ks : List Happened) :
    sentKeys (hs ++ ks) = sentKeys hs ++ sentKeys ks := List.filterMap_append

theorem Run.Kept.sendBlock {r r' : Run} (h : r.Kept) {gid idx : Nat} {m : UInt64} {arm : Arm}
    {e : SendEnv} (hk : IsWord e.key) (hr : sendBlock gid m arm idx e r = .ok r') : r'.Kept := by
  unfold Parity.sendBlock at hr
  split at hr
  · cases hr
  · cases hr
    refine ⟨fun x hx => ?_, ?_, fun key => ?_, fun key => ?_⟩
    · rcases List.mem_append.mp hx with hx | hx
      · exact h.written x hx
      · rw [List.mem_singleton.mp hx]
        exact ⟨hk, rfl⟩
    · simp only [blocks_append, sentKeys_append, List.map_append, h.keys]
      rfl
    · rw [after_append, ← h.times key]
      simp only [after_cons, after_nil, measure_sent, lookup_cons_eq]
      split <;> rfl
    · simp only [firstAck_append, h.acks key, firstAck_block, Option.or_none]

theorem sentKeys_arrived (hs : List Happened) (a : Arrival) :
    sentKeys (hs ++ [.arrived a]) = sentKeys hs := by
  rw [sentKeys_append]
  exact List.append_nil _

/-- A message that no time comes from is noted, and changes nothing else. -/
theorem Run.Kept.noted {r : Run} (h : r.Kept) {a : Arrival}
    (hm : ∀ key, measure key (r.sentAt.lookup key, r.ackMs.lookup key) (.arrived a) =
      (r.sentAt.lookup key, r.ackMs.lookup key)) :
    ({ r with happened := r.happened ++ [.arrived a] } : Run).Kept := by
  refine ⟨h.written, ?_, fun key => ?_, h.acks⟩
  · rw [sentKeys_arrived]
    exact h.keys
  · rw [after_append, ← h.times key]
    exact (hm key).symm

/-- The first acknowledgement of a key that was sent. -/
theorem Run.Kept.acked {r : Run} (h : r.Kept) {k : Str} {t : ℚ} (clock : ℚ)
    (ht : r.sentAt.lookup k = some t) (hms : r.ackMs.lookup k = none) :
    ({ r with
        happened := r.happened ++ [.arrived (.put k clock)]
        ackMs := (k, elapsed t clock) :: r.ackMs
        seen := r.seen + 1
        entries := r.entries ++ [.ack k (elapsed t clock)] } : Run).Kept := by
  have hsent : k ∈ sentKeys r.happened := by
    refine (measured k r.happened).sent t ?_
    rw [← h.times k]
    exact ht
  refine ⟨fun x hx => ?_, ?_, fun key => ?_, fun key => ?_⟩
  · rcases List.mem_append.mp hx with hx | hx
    · exact h.written x hx
    · rw [List.mem_singleton.mp hx]
      exact ⟨h.isWord hsent, le_max_left _ _⟩
  · rw [sentKeys_arrived, ← h.keys, blocks_append]
    simp [blocks, Entry.block?]
  · rw [after_append, ← h.times key]
    simp only [after_cons, after_nil, measure_put, lookup_cons_eq]
    split
    · rename_i hk
      rw [← hk, ht, hms]
      rfl
    · rfl
  · rw [firstAck_append, h.acks key, firstAck_ack, lookup_cons_eq]
    split
    · rename_i hk
      rw [← hk, hms]
      rfl
    · rw [Option.or_none]

theorem Run.Kept.arrive {r : Run} (h : r.Kept) (a : Arrival) : (arrive r a).Kept := by
  cases a with
  | get k => exact h.noted fun _ => rfl
  | other => exact h.noted fun _ => rfl
  | put k clock =>
    unfold Parity.arrive
    dsimp only
    split
    · rename_i t ht
      split
      · rename_i ms hms
        refine h.noted fun key => ?_
        rw [measure_put]
        split
        · rename_i hk
          rw [← hk, hms, Option.some_or]
        · rfl
      · rename_i hms
        exact h.acked clock ht hms
    · rename_i ht
      refine h.noted fun key => ?_
      rw [measure_put]
      split
      · rename_i hk
        rw [← hk, ht, Option.map_none, Option.or_none]
      · rfl

theorem Run.Kept.drainAcks {r : Run} (h : r.Kept) (want : Nat) (closed : Bool)
    (as : List Arrival) : (drainAcks want closed as r).1.Kept := by
  induction as generalizing r with
  | nil => unfold Parity.drainAcks; split <;> exact h
  | cons a as ih =>
    unfold Parity.drainAcks
    split
    · exact h
    · exact ih (h.arrive a)

theorem Run.Kept.writeGroups {parity : UInt64} {env : Nat → GroupEnv}
    (hk : ∀ gid idx, IsWord ((env gid).send idx).key) {plan : List (UInt64 × Arm)} {gid : Nat}
    {r r' : Run} (h : r.Kept) (hr : writeGroups parity env gid plan r = .ok r') : r'.Kept := by
  induction plan generalizing gid r with
  | nil => cases hr; exact h
  | cons g rest ih =>
    obtain ⟨m, arm⟩ := g
    unfold Parity.writeGroups at hr
    split at hr
    · cases hr; exact h
    · obtain ⟨s, hs, hr⟩ := bind_eq_ok.mp hr
      obtain ⟨t, ht, hs⟩ := bind_eq_ok.mp hs
      cases hs
      have ht : t.Kept := foldlM_invariant (fun _ _ _ _ h hs => h.sendBlock (hk gid _) hs) h ht
      exact ih (ht.drainAcks _ _ _) hr

theorem Run.Kept.drainTail {ds : List Drain} {r : Run} (h : r.Kept) : (drainTail ds r).Kept := by
  induction ds generalizing r with
  | nil => exact h
  | cons d ds ih =>
    have hd := h.drainAcks r.nBlocks d.closed d.arrivals
    unfold Parity.drainTail
    split
    · exact h
    · split
      · rename_i heq
        rw [heq] at hd
        exact ih hd
      · rename_i heq
        rw [heq] at hd
        exact hd

/-- **Run.** What every run has written is what happened to it. -/
theorem collect_kept {o : Opts} {env : Nat → GroupEnv} {tail : List Drain} {r : Run}
    (hk : ∀ gid idx, IsWord ((env gid).send idx).key) (hr : collect o env tail = .ok r) :
    r.Kept := by
  obtain ⟨s, hs, hr⟩ := bind_eq_ok.mp hr
  cases hr
  exact (Run.kept_nil.writeGroups hk hs).drainTail

/-! ## When the tallies agree -/

/-- Two classifications, the second of which keeps the first one's `within` and
`never`, tally the same only when they are the same. -/
theorem tally_eq_iff {α : Type} {l : List α} {f g : α → Verdict}
    (hw : ∀ x ∈ l, f x = .within → g x = .within) (hn : ∀ x ∈ l, f x = .never → g x = .never) :
    tally (l.map f) = tally (l.map g) ↔ ∀ x ∈ l, f x = g x := by
  constructor
  · intro h x hx
    have hwc : l.countP (fun x => f x == .within) = l.countP fun x => g x == .within := by
      simpa [tally, List.count, List.countP_map, Function.comp_def] using congrArg Tally.within h
    have hnc : l.countP (fun x => f x == .never) = l.countP fun x => g x == .never := by
      simpa [tally, List.count, List.countP_map, Function.comp_def] using congrArg Tally.never h
    have hw' := of_countP_eq (by simpa using hw) hwc x hx
    have hn' := of_countP_eq (by simpa using hn) hnc x hx
    have := hw x hx
    have := hn x hx
    cases hf : f x <;> cases hg : g x <;> simp_all
  · intro h
    rw [List.map_congr_left h]

theorem tally_perm {vs ws : List Verdict} (h : vs.Perm ws) : tally vs = tally ws := by
  simp only [tally, h.count_eq]

/-- A time printed with one decimal is within a whole bound exactly when it is at
most half a tenth past it. -/
theorem printed_le_iff {ms : ℚ} (h : 0 ≤ ms) (bound : Nat) :
    (tenths ms : ℚ) / 10 ≤ bound ↔ ms ≤ bound + 1 / 20 := by
  have hle : (tenths ms : ℚ) / 10 ≤ bound ↔ tenths ms ≤ bound * 10 := by
    rw [div_le_iff₀ (by norm_num)]
    exact_mod_cast Iff.rfl
  have heven : bound * 10 % 2 = 0 := by omega
  rw [hle, tenths, abs_of_nonneg h, roundHalfEven_le_iff (by positivity)]
  push_cast
  constructor
  · rintro (h | ⟨h, -⟩) <;> linarith
  · intro h
    rcases lt_or_eq_of_le h with h | h
    · exact Or.inl (by linarith)
    · exact Or.inr ⟨by linarith, heven⟩

/-- Something was sent, no measured time is past the bound by half a tenth of a
millisecond or less, and every key that was sent and that an answer named has a
time. -/
structure Agree (bound : Nat) (hs : List Happened) : Prop where
  sent : sentKeys hs ≠ []
  clear : ∀ key ms, ackTime key hs = some ms → ¬ ((bound : ℚ) < ms ∧ ms ≤ bound + 1 / 20)
  timed : ∀ key ∈ sentKeys hs, Named key hs → ∃ ms, ackTime key hs = some ms

/-- The outcome the file gives a key. -/
def fileVerdict (bound : Nat) (r : Run) (key : Str) : Verdict :=
  (judge (.fin bound) (firstAck r.entries key)).verdict

theorem Run.Kept.fileTally {r : Run} (h : r.Kept) (o : Opts) (hs : sentKeys r.happened ≠ []) :
    fileTally o r = .ok (tally ((sentKeys r.happened).map (fileVerdict o.boundMs r))) := by
  have hb : blocks r.entries ≠ [] := by
    rintro hb
    rw [← h.keys, hb] at hs
    exact hs rfl
  unfold Parity.fileTally
  rw [parseGroups_file o.out o.boundMs h.written, parseLines_written o.out o.boundMs h.written hb,
    ← h.keys]
  simp only [bind, Except.bind, pure, Except.pure, readBack, List.map_map]
  rfl

theorem Run.Kept.fileVerdict_none {r : Run} (h : r.Kept) (bound : Nat) {key : Str}
    (hk : Parity.ackTime key r.happened = none) : fileVerdict bound r key = .never := by
  rw [fileVerdict, h.acks, h.ackTime, hk]
  rfl

theorem Run.Kept.fileVerdict_some {r : Run} (h : r.Kept) (bound : Nat) {key : Str} {ms : ℚ}
    (hk : Parity.ackTime key r.happened = some ms) :
    fileVerdict bound r key = if ms ≤ bound + 1 / 20 then .within else .late := by
  have h0 := ((measured key r.happened).acked ms hk).2.2
  rw [fileVerdict, h.acks, h.ackTime, hk]
  simp only [Option.map_some, judge, F64.le_fin, printed_le_iff h0, decide_eq_true_eq]
  split <;> rfl

theorem Run.Kept.classify_some {r : Run} (h : r.Kept) (bound : Nat) {key : Str} {ms : ℚ}
    (hk : Parity.ackTime key r.happened = some ms) {a : Answered} (ha : a ≠ .never) :
    classify bound r (key, a) = if ms ≤ bound then .within else .late := by
  cases a <;> first | exact absurd rfl ha | simp [classify, h.ackTime, hk]

theorem Run.Kept.classify_none {r : Run} (h : r.Kept) (bound : Nat) {key : Str}
    (hk : Parity.ackTime key r.happened = none) (a : Answered) :
    classify bound r (key, a) = if a = .never then .never else .late := by
  cases a <;> simp [classify, h.ackTime, hk]

/-- The two outcomes of one operation: the file keeps `within` and `never`, and they
are the same when the time is clear of the bound and there is one if the key was named. -/
theorem Run.Kept.verdicts {r : Run} (h : r.Kept) (bound : Nat) {key : Str} {a : Answered}
    (ha : a = .never ↔ ¬ Named key r.happened) :
    (classify bound r (key, a) = .within → fileVerdict bound r key = .within) ∧
      (classify bound r (key, a) = .never → fileVerdict bound r key = .never) ∧
      (classify bound r (key, a) = fileVerdict bound r key ↔
        (∀ ms, Parity.ackTime key r.happened = some ms →
          ¬ ((bound : ℚ) < ms ∧ ms ≤ bound + 1 / 20)) ∧
        (Named key r.happened → ∃ ms, Parity.ackTime key r.happened = some ms)) := by
  cases hk : Parity.ackTime key r.happened with
  | none =>
    rw [h.classify_none bound hk, h.fileVerdict_none bound hk]
    by_cases hn : a = .never
    · have := ha.mp hn
      simp [hn, this]
    · have : Named key r.happened := by
        by_contra hc
        exact hn (ha.mpr hc)
      simp [hn, this]
  | some ms =>
    have hnamed := ((measured key r.happened).acked ms hk).1
    have hn : a ≠ .never := fun hn => ha.mp hn hnamed
    rw [h.classify_some bound hk hn, h.fileVerdict_some bound hk]
    have hlimit : (bound : ℚ) ≤ bound + 1 / 20 := by norm_num
    generalize (bound : ℚ) + 1 / 20 = limit at hlimit
    by_cases h1 : ms ≤ bound
    · have h2 := h1.trans hlimit
      simp [h1, h2, not_lt.mpr h1]
    · by_cases h2 : ms ≤ limit
      · simp [h1, h2, not_le.mp h1]
      · simp [h1, h2, not_le.mp h2]

/-- What a run that got to its check says. -/
theorem write_eq (rec : Recording) {o : Opts} {env : Nat → GroupEnv} {tail : List Drain} {r : Run}
    {t : Tally} (hr : collect o env tail = .ok r) (ht : fileTally o r = .ok t) :
    write rec o env tail =
      if t ≠ memoryTally rec o r then .error (mismatch (memoryTally rec o r) t)
      else .ok (memoryTally rec o r) := by
  simp only [write, hr, ht, bind, Except.bind]
  rfl

/-- **The read-back check.** The outcomes in memory tally with those of the file
exactly when something was sent, no time falls just past the bound, and no key was
named by an answer without its time being measured. -/
theorem readback_iff (rec : Recording) {o : Opts} {env : Nat → GroupEnv} {tail : List Drain}
    {r : Run} (hk : ∀ gid idx, IsWord ((env gid).send idx).key)
    (hr : collect o env tail = .ok r) :
    (fileTally o r = .ok (memoryTally rec o r) ↔ Agree o.boundMs r.happened) ∧
      (write rec o env tail = .ok (memoryTally rec o r) ↔ Agree o.boundMs r.happened) := by
  have h := collect_kept hk hr
  have hwrite : write rec o env tail = .ok (memoryTally rec o r) ↔
      fileTally o r = .ok (memoryTally rec o r) := by
    cases ht : fileTally o r with
    | error e => simp [write, hr, ht, bind, Except.bind]
    | ok t =>
      rw [write_eq rec hr ht]
      split
      · rename_i hne
        simp only [reduceCtorEq, Except.ok.injEq, false_iff]
        exact hne
      · rename_i heq
        simp [not_not.mp heq]
  rw [hwrite, and_self]
  by_cases hs : sentKeys r.happened = []
  · have hb : blocks r.entries = [] := by
      have := h.keys
      rw [hs] at this
      exact List.map_eq_nil_iff.mp this
    have hfail : fileTally o r = .error
        (.bail s!"{o.out}: no GROUP lines — the write role wrote nothing") := by
      unfold fileTally
      rw [parseGroups_file o.out o.boundMs h.written,
        parseLines_no_blocks o.out o.boundMs h.written hb]
      rfl
    rw [hfail]
    exact ⟨fun he => (nomatch he), fun ha => absurd hs ha.sent⟩
  · have hperm : tally ((sentKeys r.happened).map (fileVerdict o.boundMs r)) =
        tally ((rec.answers r.happened).map fun p => fileVerdict o.boundMs r p.1) := by
      have := (rec.keyed r.happened).map (fileVerdict o.boundMs r)
      rw [List.map_map] at this
      exact (tally_perm this).symm
    have hspec : ∀ p ∈ rec.answers r.happened, p.2 = .never ↔ ¬ Named p.1 r.happened :=
      fun p hp => rec.never_iff r.happened p.1 p.2 hp
    rw [h.fileTally o hs, Except.ok.injEq, hperm, eq_comm, memoryTally, tally_eq_iff
      (fun p hp => (h.verdicts o.boundMs (hspec p hp)).1)
      (fun p hp => (h.verdicts o.boundMs (hspec p hp)).2.1)]
    constructor
    · intro hall
      have key_mem : ∀ key ∈ sentKeys r.happened, ∃ p ∈ rec.answers r.happened, p.1 = key :=
        fun key hkey => List.mem_map.mp ((rec.keyed r.happened).symm.subset hkey)
      refine ⟨hs, fun key ms hms => ?_, fun key hkey => ?_⟩
      · obtain ⟨p, hp, rfl⟩ := key_mem key ((measured key r.happened).acked ms hms).2.1
        exact ((h.verdicts o.boundMs (hspec p hp)).2.2.mp (hall p hp)).1 ms hms
      · obtain ⟨p, hp, rfl⟩ := key_mem key hkey
        exact ((h.verdicts o.boundMs (hspec p hp)).2.2.mp (hall p hp)).2
    · intro ha p hp
      have hkey : p.1 ∈ sentKeys r.happened :=
        (rec.keyed r.happened).subset (List.mem_map_of_mem hp)
      exact (h.verdicts o.boundMs (hspec p hp)).2.2.mpr ⟨ha.clear p.1, ha.timed p.1 hkey⟩

/-! ## One block, acknowledged just past the bound -/

/-- Whether a message names the key. -/
def Happened.names (key : Str) : Happened → Bool
  | .arrived (.put k _) => k == key
  | .arrived (.get k) => k == key
  | _ => false

theorem any_names (key : Str) (hs : List Happened) :
    hs.any (Happened.names key) = true ↔ Named key hs := by
  rw [List.any_eq_true, Named]
  constructor
  · rintro ⟨h, hm, hn⟩
    rcases h with _ | (⟨k, clock⟩ | k | _) <;> simp [Happened.names] at hn
    · exact Or.inl ⟨clock, hn ▸ hm⟩
    · exact Or.inr (hn ▸ hm)
  · rintro (⟨clock, hm⟩ | hm)
    · exact ⟨_, hm, by simp [Happened.names]⟩
    · exact ⟨_, hm, by simp [Happened.names]⟩

/-- A recording that says of every keyed put whether it was answered. -/
def answeredOnce : Recording where
  answers hs := (sentKeys hs).map fun key =>
    (key, if hs.any (Happened.names key) then .once else .never)
  keyed hs := by simp [Function.comp_def]
  never_iff hs key a h := by
    obtain ⟨k, -, he⟩ := List.mem_map.mp h
    obtain ⟨rfl, rfl⟩ := Prod.mk.inj he
    rw [← any_names]
    split <;> simp_all

def oneBlock : Opts :=
  { ms := [1], groups := 1, controlGroups := 0, parity := 0, ackSecs := 30, budgetMins := 1,
    out := "groups.txt" }

/-- A block with the key `A`, sent at 0 ms. -/
def sendA : Nat → GroupEnv := fun _ =>
  { overBudget := false
    send := fun _ =>
      { seed := zeroSeed, key := "A".toList, tSend := 1, stateLen := 17
        settled := .ok (), clock := 0 }
    drain := ⟨[], false⟩ }

/-- Its acknowledgement, at `clock`. -/
def ackA (clock : ℚ) : List Drain := [⟨[.put "A".toList clock], false⟩]

def runA (clock : ℚ) : Run :=
  { entries :=
      [.block { seed := zeroSeed, gid := 0, m := 1, arm := .full, idx := 0
                parity := false, key := "A".toList, tSend := 1, ack := .never, size := 17 },
        .ack "A".toList (elapsed 0 clock)]
    sentAt := [("A".toList, 0)]
    ackMs := [("A".toList, elapsed 0 clock)]
    seen := 1
    nBlocks := 1
    happened := [.sent "A".toList 0, .arrived (.put "A".toList clock)] }

theorem collect_A (clock : ℚ) : collect oneBlock sendA (ackA clock) = .ok (runA clock) := rfl

theorem isWord_sendA (gid idx : Nat) : IsWord ((sendA gid).send idx).key := by
  show IsWord "A".toList
  decide

/-- Acknowledged 0.03 ms past the bound: late in memory, within in the file. -/
theorem just_past_the_bound :
    memoryTally answeredOnce oneBlock (runA 30000.03) = ⟨0, 1, 0⟩ ∧
      fileTally oneBlock (runA 30000.03) = .ok ⟨1, 0, 0⟩ ∧
      write answeredOnce oneBlock sendA (ackA 30000.03) =
        .error (mismatch ⟨0, 1, 0⟩ ⟨1, 0, 0⟩) := by
  have hmem : memoryTally answeredOnce oneBlock (runA 30000.03) = ⟨0, 1, 0⟩ := by decide +kernel
  have hfile : fileTally oneBlock (runA 30000.03) = .ok ⟨1, 0, 0⟩ := by
    rw [(collect_kept isWord_sendA (collect_A 30000.03)).fileTally oneBlock (by decide)]
    decide +kernel
  refine ⟨hmem, hfile, ?_⟩
  rw [write_eq answeredOnce (collect_A 30000.03) hfile, hmem]
  exact if_pos (by decide)

/-! ## Two groups: acknowledged in time, twice, late and never -/

def twoGroups : Opts := { oneBlock with controlGroups := 1, parity := 1 }

def keyOf : Nat → Nat → Str
  | 0, 0 => "A0".toList
  | 0, _ => "A1".toList
  | _, 0 => "B0".toList
  | _, _ => "B1".toList

/-- The second group is sent two seconds after the first, whose drain has read `A0` twice by
then, and a key that nothing was sent under. -/
def sendTwo : Nat → GroupEnv := fun gid =>
  { overBudget := false
    send := fun idx =>
      { seed := zeroSeed, key := keyOf gid idx, tSend := 1, stateLen := 17
        settled := .ok (), clock := 2000 * gid + idx }
    drain :=
      ⟨if gid = 0 then
        [.put "A0".toList 1200, .put "A0".toList 1500, .put "C".toList 1600] else [], false⟩ }

/-- `B0` comes half a second after its send, `A1` past the bound, `B1` not at all. -/
def tailTwo : List Drain :=
  [⟨[.other, .get "A0".toList, .put "B0".toList 2500], false⟩, ⟨[.put "A1".toList 31500], false⟩,
    ⟨[], true⟩]

def runTwo : Run :=
  match collect twoGroups sendTwo tailTwo with
  | .ok r => r
  | .error _ => {}

theorem collect_two : collect twoGroups sendTwo tailTwo = .ok runTwo := rfl

theorem isWord_sendTwo (gid idx : Nat) : IsWord ((sendTwo gid).send idx).key := by
  show IsWord (keyOf gid idx)
  unfold keyOf
  split <;> decide

theorem sentKeys_two : sentKeys runTwo.happened =
    ["A0".toList, "A1".toList, "B0".toList, "B1".toList] := by decide +kernel

theorem ackTime_two : (sentKeys runTwo.happened).map (ackTime · runTwo.happened) =
    [some 1200, some 31499, some 500, none] := by decide +kernel

theorem agree_two : Agree 30000 runTwo.happened := by
  have htimes := ackTime_two
  rw [sentKeys_two] at htimes
  simp only [List.map_cons, List.map_nil, List.cons.injEq, and_true] at htimes
  obtain ⟨ha0, ha1, hb0, hb1⟩ := htimes
  have hkeys : ∀ key ∈ sentKeys runTwo.happened, key = "A0".toList ∨ key = "A1".toList ∨
      key = "B0".toList ∨ key = "B1".toList := by
    intro key hkey
    simpa [sentKeys_two] using hkey
  refine ⟨by rw [sentKeys_two]; exact List.cons_ne_nil _ _, ?_, ?_⟩
  · intro key ms hms
    obtain rfl | rfl | rfl | rfl := hkeys key ((measured key _).acked ms hms).2.1
    · obtain rfl := Option.some.inj (ha0.symm.trans hms)
      norm_num
    · obtain rfl := Option.some.inj (ha1.symm.trans hms)
      norm_num
    · obtain rfl := Option.some.inj (hb0.symm.trans hms)
      norm_num
    · rw [hb1] at hms
      cases hms
  · intro key hkey hnamed
    obtain rfl | rfl | rfl | rfl := hkeys key hkey
    · exact ⟨_, ha0⟩
    · exact ⟨_, ha1⟩
    · exact ⟨_, hb0⟩
    · rw [← any_names] at hnamed
      exact absurd hnamed (by decide +kernel)

/-- The tallies agree: two within the bound, one late, one never. -/
theorem readback_two_groups : write answeredOnce twoGroups sendTwo tailTwo = .ok ⟨2, 1, 1⟩ := by
  have hmem : memoryTally answeredOnce twoGroups runTwo = ⟨2, 1, 1⟩ := by decide +kernel
  rw [← hmem]
  exact (readback_iff answeredOnce isWord_sendTwo collect_two).2.mpr agree_two

end FreenetHarness.Parity
