import FreenetHarness.Lib.Run
import FreenetHarness.Stats

/-! # `hedge`: does re-offering an unacknowledged block help?

One trial puts a block and watches for its acknowledgement and its read-back; the
hedged arm offers the block again at a set time if it is still unacknowledged. The
control's population is computed afterwards from its acknowledgement times, and
`hedged_iff` says when that is the condition the hedge fired on. Clock readings are
nanoseconds. -/
namespace FreenetHarness.Hedge
open FreenetHarness.Lib.Run FreenetHarness.Stats

/-- One read-back attempt, and the gap to the next. -/
def probeWait : Nat := 250000000

structure Trial where
  /-- Milliseconds from the first send to the first acknowledgement for this key. -/
  ack : Option ℚ := none
  readable : Option ℚ := none
  hedged : Bool := false
  deriving DecidableEq

/-- Was the trial still unacknowledged when `t` came round? -/
def unackedAt (x : Trial) (t : Nat) : Bool :=
  match x.ack with
  | some a => decide (millis t < a)
  | none => true

/-! ## What a trial meets -/

/-- A message on the reader's connection, with the clock just after it. -/
inductive ReadMsg where
  | got (key : String) (state : List UInt8) (clock : Nat)
  | other
  /-- The wait ran out, or the connection failed. -/
  | ended

/-- What the look at the writer's connection found. -/
inductive WriterMsg where
  | put (key : String) (clock : Nat)
  | other
  | failed (e : String)
  | timeout

/-- One pass of the loop: its clock readings, and what the connections did if they
were asked. -/
structure Pass where
  check : Nat
  now : Nat
  rePut : Except String Unit := .ok ()
  sendGet : Except String Unit := .ok ()
  probeStart : Nat := 0
  /-- The clock before each wait, and the message it brought. -/
  messages : List (Nat × ReadMsg) := []
  probeEnd : Nat := 0
  writer : WriterMsg := .timeout

/-- The block of a trial, when it was first sent, and when to give up and to hedge. -/
structure Setup where
  id : String
  state : List UInt8
  t0 : Nat
  t : Option Nat
  deadlineIn : Nat

/-! ## The loop -/

structure State where
  out : Trial := {}
  marked : Bool := false
  nextProbe : Nat

/-- The condition of the loop, at one reading of the clock. -/
def goesOn (c : Setup) (s : State) (clock : Nat) : Bool :=
  clock < c.t0 + c.deadlineIn && (s.out.ack.isNone || s.out.readable.isNone)

/-- The mark, and the hedge on it. -/
def mark (c : Setup) (s : State) (p : Pass) : Except String State :=
  match c.t with
  | none => .ok s
  | some t =>
    if !s.marked && decide (c.t0 + t ≤ p.now) then
      let s := { s with marked := true }
      if s.out.ack.isNone then do
        p.rePut
        return { s with out := { s.out with hedged := true } }
      else .ok s
    else .ok s

/-- The messages of one read-back attempt. -/
def readBack (c : Setup) (endAt : Nat) : List (Nat × ReadMsg) → Option ℚ
  | [] => none
  | (clock, msg) :: rest =>
    if clock ≤ endAt then
      match msg with
      | .got key state after =>
        if key = c.id then (if state = c.state then some (msSince c.t0 after) else none)
        else readBack c endAt rest
      | .other => readBack c endAt rest
      | .ended => none
    else none

/-- A read-back attempt, on the second connection. -/
def probe (c : Setup) (s : State) (p : Pass) : Except String State :=
  if s.out.readable.isNone && decide (s.nextProbe ≤ p.now) then do
    p.sendGet
    return { s with
      out := { s.out with readable := readBack c (p.probeStart + probeWait) p.messages }
      nextProbe := p.probeEnd + probeWait }
  else .ok s

/-- A short look at the writer for the acknowledgement. -/
def look (c : Setup) (s : State) (p : Pass) : Except String State :=
  if s.out.ack.isNone then
    match p.writer with
    | .put key clock =>
      if key = c.id then .ok { s with out := { s.out with ack := some (msSince c.t0 clock) } }
      else .ok s
    | .other => .ok s
    | .failed e => .error s!"node error while waiting for an ack: {e}"
    | .timeout => .ok s
  else .ok s

def pass (c : Setup) (s : State) (p : Pass) : Except String State := do
  look c (← probe c (← mark c s p) p) p

/-- The loop over exactly the passes it makes; `exit` is the clock it leaves at.
`none` where the passes are not the ones this loop would make. -/
def passes (c : Setup) (s : State) (exit : Nat) : List Pass → Option (Except String Trial)
  | [] => if goesOn c s exit then none else some (.ok s.out)
  | p :: ps =>
    if goesOn c s p.check then
      match pass c s p with
      | .error e => if ps.isEmpty then some (.error e) else none
      | .ok s => passes c s exit ps
    else none

/-- One trial: put, optionally hedge, and watch both clocks. -/
def trial (c : Setup) (put : Except String Unit) (ps : List Pass) (exit : Nat) :
    Option (Except String Trial) :=
  match put with
  | .error e => some (.error e)
  | .ok () => passes c { nextProbe := c.t0 } exit ps

/-! ## One pass -/

/-- The acknowledgement a pass reads, if it looks. -/
def Pass.ack (c : Setup) (p : Pass) : Option Nat :=
  match p.writer with
  | .put key clock => if key = c.id then some clock else none
  | _ => none

/-- A pass comes at or after the hedge time. -/
def Pass.past (c : Setup) (t : Nat) (p : Pass) : Prop := c.t0 + t ≤ p.now

instance (c : Setup) (t : Nat) (p : Pass) : Decidable (p.past c t) := Nat.decLe _ _

theorem mark_eq {c : Setup} {s s' : State} {p : Pass} {t : Nat} (ht : c.t = some t)
    (h : mark c s p = .ok s') :
    s'.marked = (s.marked || decide (p.past c t)) ∧ s'.out.ack = s.out.ack ∧
      s'.out.hedged =
        (s.out.hedged || (!s.marked && decide (p.past c t) && s.out.ack.isNone)) := by
  simp only [mark, ht, show (c.t0 + t ≤ p.now) = p.past c t from rfl] at h
  by_cases hm : (!s.marked && decide (p.past c t)) = true
  · rw [if_pos hm] at h
    have hpast : decide (p.past c t) = true := (Bool.and_eq_true_iff.mp hm).2
    rw [hm, hpast, Bool.or_true, Bool.true_and]
    cases ha : s.out.ack with
    | none =>
      simp only [ha, Option.isNone_none, if_true] at h
      obtain ⟨_, -, h⟩ := bind_eq_ok.mp h
      cases h
      simp
    | some a =>
      simp only [ha, Option.isNone_some, Bool.false_eq_true, if_false] at h
      cases h
      simp [ha]
  · rw [if_neg hm] at h
    cases h
    rw [Bool.not_eq_true] at hm
    rw [hm, Bool.false_and, Bool.or_false]
    refine ⟨?_, rfl, rfl⟩
    cases hmk : s.marked with
    | true => rfl
    | false => simpa [hmk] using hm

theorem probe_eq {c : Setup} {s s' : State} {p : Pass} (h : probe c s p = .ok s') :
    s'.marked = s.marked ∧ s'.out.ack = s.out.ack ∧ s'.out.hedged = s.out.hedged := by
  unfold probe at h
  split at h
  · obtain ⟨_, -, h⟩ := bind_eq_ok.mp h
    cases h
    exact ⟨rfl, rfl, rfl⟩
  · cases h
    exact ⟨rfl, rfl, rfl⟩

theorem look_eq {c : Setup} {s s' : State} {p : Pass} (h : look c s p = .ok s') :
    s'.marked = s.marked ∧ s'.out.hedged = s.out.hedged ∧
      s'.out.ack = s.out.ack.or ((p.ack c).map fun clock => msSince c.t0 clock) := by
  unfold look at h
  cases ha : s.out.ack with
  | some a =>
    simp only [ha, Option.isNone_some, Bool.false_eq_true, if_false] at h
    cases h
    exact ⟨rfl, rfl, by simp [ha]⟩
  | none =>
    simp only [ha, Option.isNone_none, if_true] at h
    unfold Pass.ack
    cases hw : p.writer with
    | put key clock =>
      simp only [hw] at h ⊢
      split at h <;> rename_i hk
      · cases h; simp [hk]
      · cases h; simp [hk, ha]
    | other => simp only [hw] at h ⊢; cases h; simp [ha]
    | timeout => simp only [hw] at h ⊢; cases h; simp [ha]
    | failed e => simp only [hw] at h; cases h

/-- **Step.** What one pass can do to the mark, the hedge and the acknowledgement. -/
theorem pass_eq {c : Setup} {s s' : State} {p : Pass} {t : Nat} (ht : c.t = some t)
    (h : pass c s p = .ok s') :
    s'.marked = (s.marked || decide (p.past c t)) ∧
      s'.out.hedged =
        (s.out.hedged || (!s.marked && decide (p.past c t) && s.out.ack.isNone)) ∧
      s'.out.ack = s.out.ack.or ((p.ack c).map fun clock => msSince c.t0 clock) := by
  obtain ⟨s1, h1, h⟩ := bind_eq_ok.mp h
  obtain ⟨s2, h2, h3⟩ := bind_eq_ok.mp h
  obtain ⟨hm1, ha1, hh1⟩ := mark_eq ht h1
  obtain ⟨hm2, ha2, hh2⟩ := probe_eq h2
  obtain ⟨hm3, hh3, ha3⟩ := look_eq h3
  exact ⟨by rw [hm3, hm2, hm1], by rw [hh3, hh2, hh1], by rw [ha3, ha2, ha1]⟩

/-! ## A whole trial -/

/-- The first acknowledgement the passes read. -/
def firstAck (c : Setup) (ps : List Pass) : Option Nat := ps.findSome? (Pass.ack c)

/-- The first pass that comes at or after the hedge time, or reads the
acknowledgement, exists; and the acknowledgement is later than the hedge time if the
pass comes at or after it, and is not if the pass only reads it. -/
def Fair (c : Setup) (t : Nat) : List Pass → Prop
  | [] => False
  | p :: ps =>
    if p.past c t then ∀ clock, firstAck c (p :: ps) = some clock → t < clock - c.t0
    else match p.ack c with
      | some clock => clock - c.t0 ≤ t
      | none => Fair c t ps

theorem passes_cons {c : Setup} {s : State} {exit : Nat} {p : Pass} {ps : List Pass} {out : Trial}
    (h : passes c s exit (p :: ps) = some (.ok out)) :
    ∃ s', pass c s p = .ok s' ∧ passes c s' exit ps = some (.ok out) := by
  unfold passes at h
  split at h
  · cases hp : pass c s p with
    | error e =>
      simp only [hp] at h
      split at h <;> cases h
    | ok s' => exact ⟨s', rfl, by simpa only [hp] using h⟩
  · cases h

/-- **Run.** The trial's acknowledgement is the first one read. -/
theorem passes_ack {c : Setup} {s : State} {exit : Nat} {ps : List Pass} {out : Trial} {t : Nat}
    (ht : c.t = some t) (h : passes c s exit ps = some (.ok out)) :
    out.ack = s.out.ack.or ((firstAck c ps).map fun clock => msSince c.t0 clock) := by
  induction ps generalizing s with
  | nil =>
    unfold passes at h
    split at h
    · cases h
    · cases h; simp [firstAck]
  | cons p ps ih =>
    obtain ⟨s', hp, h⟩ := passes_cons h
    rw [ih h, (pass_eq ht hp).2.2, Option.or_assoc]
    congr 1
    cases hpa : p.ack c <;> simp [firstAck, hpa]

/-- Once the mark is taken, or the acknowledgement read, no hedge is fired any more. -/
theorem passes_hedged {c : Setup} {s : State} {exit : Nat} {ps : List Pass} {out : Trial} {t : Nat}
    (ht : c.t = some t) (hs : s.marked = true ∨ s.out.ack ≠ none)
    (h : passes c s exit ps = some (.ok out)) : out.hedged = s.out.hedged := by
  induction ps generalizing s with
  | nil =>
    unfold passes at h
    split at h
    · cases h
    · cases h; rfl
  | cons p ps ih =>
    obtain ⟨s', hp, h⟩ := passes_cons h
    obtain ⟨hm, hh, ha⟩ := pass_eq ht hp
    have hkeep : s'.out.hedged = s.out.hedged := by
      rw [hh]
      rcases hs with hs | hs
      · simp [hs]
      · simp [Option.isNone_iff_eq_none, hs]
    rw [ih ?_ h, hkeep]
    rcases hs with hs | hs
    · exact Or.inl (by simp [hm, hs])
    · right
      obtain ⟨a, ha'⟩ := Option.ne_none_iff_exists'.mp hs
      simp [ha, ha']

theorem unackedAt_iff {c : Setup} {x : Trial} {t : Nat} {a : Option Nat}
    (h : x.ack = a.map fun clock => msSince c.t0 clock) :
    unackedAt x t = true ↔ ∀ clock, a = some clock → t < clock - c.t0 := by
  cases a with
  | none => simp [unackedAt, h]
  | some clock => simp [unackedAt, h, msSince, millis_lt]

theorem passes_fair {c : Setup} {s : State} {exit : Nat} {ps : List Pass} {out : Trial} {t : Nat}
    (ht : c.t = some t) (hm : s.marked = false) (ha : s.out.ack = none)
    (hh : s.out.hedged = false) (h : passes c s exit ps = some (.ok out)) :
    (out.hedged = true ↔ unackedAt out t = true) ↔ Fair c t ps := by
  induction ps generalizing s with
  | nil =>
    unfold passes at h
    split at h
    · cases h
    · cases h; simp [Fair, unackedAt, ha, hh]
  | cons p ps ih =>
    have hack := passes_ack ht h
    rw [ha, Option.none_or] at hack
    obtain ⟨s', hp, h⟩ := passes_cons h
    obtain ⟨hm', hh', ha'⟩ := pass_eq ht hp
    by_cases hpast : p.past c t
    · have hout := passes_hedged ht (s := s') (Or.inl (by simp [hm', hpast])) h
      have hfired : s'.out.hedged = true := by simp [hh', hm, hpast, ha]
      rw [hout, hfired, unackedAt_iff hack]
      simp [Fair, hpast]
    · rw [ha, Option.none_or] at ha'
      have hidle : s'.out.hedged = false := by simp [hh', hh, hpast]
      cases hpa : p.ack c with
      | some clock =>
        rw [hpa, Option.map_some] at ha'
        have hout := passes_hedged ht (s := s') (Or.inr (by simp [ha'])) h
        have hfirst : firstAck c (p :: ps) = some clock := by simp [firstAck, hpa]
        rw [hout, hidle, unackedAt_iff hack, hfirst]
        simp [Fair, hpast, hpa]
      | none =>
        rw [hpa, Option.map_none] at ha'
        rw [ih (by simp [hm', hm, hpast]) ha' hidle h]
        simp [Fair, hpast, hpa]

/-- **The two populations.** A trial with a hedge time was hedged exactly when it was
still unacknowledged at that time, exactly when the passes were fair. -/
theorem hedged_iff {c : Setup} {t : Nat} (ht : c.t = some t) {put : Except String Unit}
    {ps : List Pass} {exit : Nat} {out : Trial} (h : trial c put ps exit = some (.ok out)) :
    (out.hedged = true ↔ unackedAt out t = true) ↔ Fair c t ps := by
  cases put with
  | error e => cases h
  | ok u => exact passes_fair ht rfl rfl rfl h

/-- A hedge at 30 ms in a trial of a minute, started at clock zero. -/
def hedgeAt30 : Setup :=
  { id := "A", state := [1], t0 := 0, t := some 30000000, deadlineIn := 60000000000 }

/-- The block reads back at 5 ms, and the look at the writer that starts then ends at
`clock` with the acknowledgement. -/
def onePass (clock : Nat) : List Pass :=
  [{ check := 0, now := 0, probeStart := 1000000
     messages := [(1000000, .got "A" [1] 5000000)], probeEnd := 5000000
     writer := .put "A" clock }]

/-- What the trial reports when the acknowledgement took `ms`. -/
def acked (ms : ℚ) : Trial := { ack := some ms, readable := some 5, hedged := false }

/-- Acknowledged at 20 ms: not hedged, and not unacknowledged at 30 ms. -/
theorem acked_before_the_mark : (acked 20).hedged = true ↔ unackedAt (acked 20) 30000000 = true := by
  have h : trial hedgeAt30 (.ok ()) (onePass 20000000) 20000000 = some (.ok (acked 20)) := by
    decide +kernel
  exact (hedged_iff rfl h).mpr (by simp [Fair, onePass, Pass.past, hedgeAt30, Pass.ack])

/-- The acknowledgement comes at 45 ms, inside the wait that began before the hedge
time: no hedge is fired on a trial that was unacknowledged at 30 ms. -/
theorem acked_in_the_wait :
    trial hedgeAt30 (.ok ()) (onePass 45000000) 45000000 = some (.ok (acked 45)) ∧
      (acked 45).hedged = false ∧ unackedAt (acked 45) 30000000 = true := by
  decide +kernel

end FreenetHarness.Hedge
