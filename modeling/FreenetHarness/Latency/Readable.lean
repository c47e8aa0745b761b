import Mathlib.Tactic.Linarith
import FreenetHarness.Latency

/-! # When a block can be read back, and when its put is acknowledged

A put goes out on one connection while another is polled for the block. `poll_resolution` says
how far from the instant a block becomes readable a poll can put it, and `served_first` what
stands behind a sample that counts as served before its put was acknowledged. -/
namespace FreenetHarness.Latency
open FreenetHarness.Lib.Inbox FreenetHarness.Lib.Run FreenetHarness.Stats

/-- 40 ms. -/
def probeAttempt : Nat := 40000000

/-- 10 ms. -/
def probeGap : Nat := 10000000

/-- One poll period. -/
def probeGridMs : ℚ := 50

def probeLimit : Nat := seconds 30

/-- When a put was acknowledged, and when its block could be read: milliseconds from t0. -/
structure Readable where
  put : Sample
  readable : Sample

/-- t_read - t_ack for this sample. -/
def Readable.deltaMs (r : Readable) : Option ℚ :=
  match r.put, r.readable with
  | .ms ack, .ms read => some (read - ack)
  | _, _ => none

/-- One get of a poll: the clock as the deadline is checked, how the send settles, the clock its
wait is bounded from, and the one at the first look at the connection. -/
structure Attempt where
  checked : Nat
  sent : Except String Unit
  started : Nat
  looked : Nat

variable {Key : Type}

section Poll

variable [DecidableEq Key] (key : Key) (want : Bytes)

/-- Exactly the bytes wanted, under the key. -/
def isHit (m : Message Key) : Bool := decide (m = .response (.getResponse key want))

/-- The wait of one attempt: the message that hits, if one does, and what is left. Any other
message is not yet an answer. -/
def probeLoop (deadline attemptEnd : Nat) :
    Nat → List (Arrival (Message Key)) →
      Option (Arrival (Message Key)) × List (Arrival (Message Key))
  | _, [] => (none, [])
  | now, a :: rest =>
    if now < deadline ∧ now ≤ attemptEnd ∧ a.arrives ≤ attemptEnd then
      if isHit key want a.msg then (some a, rest)
      else probeLoop deadline attemptEnd a.clock rest
    else (none, a :: rest)

/-- The attempts that begin, until one hits. -/
def pollUntil (start limit : Nat) :
    List (Arrival (Message Key)) → List Attempt →
      Except String (Sample × List (Arrival (Message Key)))
  | inbox, [] => .ok (.failed s!"not readable on this node within {asSecs limit} s", inbox)
  | inbox, a :: as =>
    if a.checked < start + limit then
      match a.sent with
      | .error e => .error e
      | .ok () =>
        match probeLoop key want (start + limit) (a.started + probeAttempt) a.looked inbox with
        | (some x, rest) => .ok (.ms (msSince start x.clock), rest)
        | (none, rest) => pollUntil start limit rest as
    else .ok (.failed s!"not readable on this node within {asSecs limit} s", inbox)

/-- Ask for `key` until the node returns exactly `want`. -/
def pollReadable (start wait : Nat) (inbox : List (Arrival (Message Key))) (as : List Attempt) :
    Except String (Sample × List (Arrival (Message Key))) :=
  pollUntil key want start (min wait probeLimit) inbox as

/-- What one sample meets: what `make` gives, the clock of both, the put's own readings of it,
and the attempts of its poll. -/
structure ReadablePass (Key : Type) where
  made : Except String (Key × Bytes)
  start : Nat
  put : Request
  attempts : List Attempt

/-- What is unread on both connections, the keys put, and the samples. -/
structure Measured (Key : Type) where
  writer : List (Arrival (Message Key))
  reader : List (Arrival (Message Key))
  minted : List Key := []
  out : List Readable := []

/-- One sample: the put and the poll both end before either is looked at. -/
def readableStep (wait : Nat) (s : Measured Key) (p : ReadablePass Key) :
    Except String (Measured Key) := do
  let (key, state) ← p.made
  let put ← timedPut wait key p.put 0 s.writer
  let (readable, reader) ← pollReadable key state p.start wait s.reader p.attempts
  return ⟨put.inbox, reader, s.minted ++ [key], s.out ++ [⟨put.sample, readable⟩]⟩

def measureReadable (wait : Nat) (s : Measured Key) (ps : List (ReadablePass Key)) :
    Except String (Measured Key) :=
  ps.foldlM (readableStep wait) s

/-! ## One poll -/

variable {key want} {deadline attemptEnd now : Nat} {inbox : List (Arrival (Message Key))}

/-- What a wait that hits nothing passes is no hit. -/
theorem probeLoop_none {rest : List (Arrival (Message Key))}
    (h : probeLoop key want deadline attemptEnd now inbox = (none, rest)) :
    rest <:+ inbox ∧ ∀ a ∈ inbox, isHit key want a.msg = true → a ∈ rest := by
  induction inbox generalizing now with
  | nil =>
    cases h
    exact ⟨List.suffix_rfl, fun _ ha _ => ha⟩
  | cons a inbox ih =>
    unfold probeLoop at h
    split at h
    · split at h
      · cases h
      · rename_i hno
        obtain ⟨hsuffix, hkept⟩ := ih h
        refine ⟨hsuffix.trans (List.suffix_cons a inbox), fun b hb hhit => ?_⟩
        exact hkept b ((List.mem_cons.mp hb).resolve_left fun heq => hno (heq ▸ hhit)) hhit
    · cases h
      exact ⟨List.suffix_rfl, fun _ hb _ => hb⟩

/-- What a wait hits came by its end, and was there. -/
theorem probeLoop_some {x : Arrival (Message Key)} {rest : List (Arrival (Message Key))}
    (h : probeLoop key want deadline attemptEnd now inbox = (some x, rest)) :
    x ∈ inbox ∧ rest <:+ inbox ∧ isHit key want x.msg = true ∧ x.arrives ≤ attemptEnd := by
  induction inbox generalizing now with
  | nil => cases h
  | cons a inbox ih =>
    unfold probeLoop at h
    split at h
    · rename_i hin
      split at h
      · rename_i hhit
        cases h
        exact ⟨List.mem_cons_self .., List.suffix_cons .., hhit, hin.2.2⟩
      · obtain ⟨hx, hsuffix, hrest⟩ := ih h
        exact ⟨List.mem_cons_of_mem a hx, hsuffix.trans (List.suffix_cons ..), hrest⟩
    · cases h

/-- **One attempt hits** where a hit comes in time for it and nothing holds the reader up. -/
theorem probeLoop_hits {s bound : Nat} (hsorted : inbox.Pairwise (·.arrives ≤ ·.arrives))
    (hclock : ∀ a ∈ inbox, a.arrives ≤ bound → a.clock ≤ max s a.arrives) (hs : s ≤ bound)
    (hend : bound ≤ attemptEnd) (hdeadline : bound < deadline) (hnow : now ≤ bound)
    {x : Arrival (Message Key)} (hx : x ∈ inbox) (hhit : isHit key want x.msg = true)
    (harrives : x.arrives ≤ bound) :
    ∃ y rest, probeLoop key want deadline attemptEnd now inbox = (some y, rest) ∧
      y ∈ inbox ∧ isHit key want y.msg = true ∧ y.clock ≤ bound := by
  induction inbox generalizing now with
  | nil => cases hx
  | cons a inbox ih =>
    obtain ⟨hfirst, hsorted⟩ := List.pairwise_cons.mp hsorted
    have ha : a.arrives ≤ bound := by
      obtain rfl | hx := List.mem_cons.mp hx
      · exact harrives
      · exact (hfirst x hx).trans harrives
    have hdealt : a.clock ≤ bound :=
      (hclock a (List.mem_cons_self ..) ha).trans (max_le hs ha)
    have hin : now < deadline ∧ now ≤ attemptEnd ∧ a.arrives ≤ attemptEnd :=
      ⟨by omega, by omega, by omega⟩
    unfold probeLoop
    rw [if_pos hin]
    by_cases hhita : isHit key want a.msg = true
    · rw [if_pos hhita]
      exact ⟨a, inbox, rfl, List.mem_cons_self .., hhita, hdealt⟩
    · rw [if_neg hhita]
      have hx : x ∈ inbox := (List.mem_cons.mp hx).resolve_left fun heq => hhita (heq ▸ hhit)
      obtain ⟨y, rest, hloop, hy, hrest⟩ := ih hsorted
        (fun b hb => hclock b (List.mem_cons_of_mem a hb)) hdealt hx
      exact ⟨y, rest, hloop, List.mem_cons_of_mem a hy, hrest⟩

/-- What a poll leaves unread, and what it took if it hit. -/
theorem pollUntil_took {start limit : Nat} {as : List Attempt} {sample : Sample}
    {rest : List (Arrival (Message Key))}
    (h : pollUntil key want start limit inbox as = .ok (sample, rest)) :
    rest <:+ inbox ∧ ∀ v, sample = .ms v →
      ∃ x ∈ inbox, x.msg = .response (.getResponse key want) ∧ v = msSince start x.clock := by
  induction as generalizing inbox with
  | nil =>
    cases h
    exact ⟨List.suffix_rfl, fun v hv => by cases hv⟩
  | cons a as ih =>
    unfold pollUntil at h
    split at h
    · split at h
      · cases h
      · split at h
        · rename_i x rest' hloop
          cases h
          obtain ⟨hx, hsuffix, hhit, -⟩ := probeLoop_some hloop
          exact ⟨hsuffix, fun v hv => ⟨x, hx, of_decide_eq_true hhit, (Sample.ms.inj hv).symm⟩⟩
        · rename_i rest' hloop
          obtain ⟨hpassed, -⟩ := probeLoop_none hloop
          obtain ⟨hsuffix, htook⟩ := ih h
          refine ⟨hsuffix.trans hpassed, fun v hv => ?_⟩
          obtain ⟨x, hx, hrest⟩ := htook v hv
          exact ⟨x, hpassed.subset hx, hrest⟩
    · cases h
      exact ⟨List.suffix_rfl, fun v hv => by cases hv⟩

/-! ## The grid -/

theorem period_pos : 0 < probeAttempt + probeGap := by
  unfold probeAttempt probeGap
  norm_num

/-- When the i-th attempt begins on a reader that nothing holds up. -/
def gridStart (start i : Nat) : Nat := start + i * (probeAttempt + probeGap)

/-- The attempts of such a reader, one every poll period. -/
def gridAttempts (start limit : Nat) : List Attempt :=
  (List.range (limit / (probeAttempt + probeGap) + 1)).map fun i =>
    ⟨gridStart start i, .ok (), gridStart start i, gridStart start i⟩

variable (key want) in
/-- The block can be read from `ready` on: no hit comes before it, and a get sent since is
answered within `delay`. A message is dealt with as it comes, or as the next attempt begins. -/
structure Served (start ready delay : Nat) (inbox : List (Arrival (Message Key))) : Prop where
  sorted : inbox.Pairwise (·.arrives ≤ ·.arrives)
  dealt : ∀ a ∈ inbox, a.arrives ≤ a.clock ∧
    ∀ i, a.arrives ≤ gridStart start i + probeAttempt → a.clock ≤ max (gridStart start i) a.arrives
  honest : ∀ a ∈ inbox, isHit key want a.msg = true → ready ≤ a.arrives
  answered : ∀ i, ready ≤ gridStart start i →
    ∃ a ∈ inbox, isHit key want a.msg = true ∧ a.arrives ≤ gridStart start i + delay

theorem gridStart_succ (start i : Nat) :
    gridStart start (i + 1) = gridStart start i + probeAttempt + probeGap := by
  unfold gridStart
  rw [Nat.add_mul, Nat.one_mul, Nat.add_assoc, Nat.add_assoc]

theorem gridStart_mono {start i j : Nat} (h : i ≤ j) : gridStart start i ≤ gridStart start j :=
  Nat.add_le_add_left (Nat.mul_le_mul_right _ h) start

/-- From an attempt on, the poll hits by the end of the first one that a hit comes in time for. -/
theorem pollUntil_hits {start limit delay i n j : Nat} (hdelay : delay ≤ probeAttempt)
    (hsorted : inbox.Pairwise (·.arrives ≤ ·.arrives))
    (hdealt : ∀ a ∈ inbox, ∀ i, a.arrives ≤ gridStart start i + probeAttempt →
      a.clock ≤ max (gridStart start i) a.arrives)
    (hij : i ≤ j) (hjn : j < i + n) (hlimit : gridStart start j + delay < start + limit)
    {x : Arrival (Message Key)} (hx : x ∈ inbox) (hhit : isHit key want x.msg = true)
    (harrives : x.arrives ≤ gridStart start j + delay) :
    ∃ y ∈ inbox, isHit key want y.msg = true ∧ y.clock ≤ gridStart start j + delay ∧
      ∃ rest, pollUntil key want start limit inbox ((List.range' i n).map fun i =>
        ⟨gridStart start i, .ok (), gridStart start i, gridStart start i⟩) =
          .ok (.ms (msSince start y.clock), rest) := by
  induction n generalizing i inbox with
  | zero => omega
  | succ n ih =>
    have hstart : gridStart start i ≤ gridStart start j := gridStart_mono hij
    have hbound : i < j → gridStart start i + probeAttempt ≤ gridStart start j := fun hlt => by
      have hnext : gridStart start (i + 1) ≤ gridStart start j :=
        gridStart_mono (Nat.succ_le_of_lt hlt)
      rw [gridStart_succ] at hnext
      exact (Nat.le_add_right _ probeGap).trans hnext
    -- in the attempt that the hit comes in time for
    have hlast : i = j → ∃ y rest, probeLoop key want (start + limit)
        (gridStart start i + probeAttempt) (gridStart start i) inbox = (some y, rest) ∧
          y ∈ inbox ∧ isHit key want y.msg = true ∧ y.clock ≤ gridStart start j + delay := by
      intro heq
      subst heq
      exact probeLoop_hits hsorted
        (fun a ha hle => hdealt a ha i (hle.trans (Nat.add_le_add_left hdelay _)))
        (Nat.le_add_right ..) (Nat.add_le_add_left hdelay _) hlimit (Nat.le_add_right ..) hx hhit
        harrives
    have hbegins : gridStart start i < start + limit :=
      (hstart.trans (Nat.le_add_right _ delay)).trans_lt hlimit
    rw [List.range'_succ, List.map_cons, pollUntil, if_pos hbegins]
    dsimp only
    cases hloop : probeLoop key want (start + limit) (gridStart start i + probeAttempt)
        (gridStart start i) inbox with
    | mk hit rest =>
      cases hit with
      | some y =>
        obtain ⟨hy, -, hhity, hby⟩ := probeLoop_some hloop
        refine ⟨y, hy, hhity, ?_, rest, rfl⟩
        obtain heq | hlt := Nat.eq_or_lt_of_le hij
        · obtain ⟨y', rest', hloop', -, -, hclock⟩ := hlast heq
          rw [hloop, Prod.mk.injEq, Option.some.injEq] at hloop'
          rw [hloop'.1]
          exact hclock
        · calc y.clock
              ≤ max (gridStart start i) y.arrives := hdealt y hy i hby
            _ ≤ gridStart start i + probeAttempt := max_le (Nat.le_add_right ..) hby
            _ ≤ gridStart start j := hbound hlt
            _ ≤ gridStart start j + delay := Nat.le_add_right ..
      | none =>
        obtain ⟨hsuffix, hkept⟩ := probeLoop_none hloop
        obtain heq | hlt := Nat.eq_or_lt_of_le hij
        · obtain ⟨y', rest', hloop', -⟩ := hlast heq
          rw [hloop] at hloop'
          cases hloop'
        · obtain ⟨y, hy, hrest⟩ := ih (i := i + 1) (hsorted.sublist hsuffix.sublist)
            (fun a ha => hdealt a (hsuffix.subset ha)) hlt (by omega) (hkept x hx hhit)
          exact ⟨y, hsuffix.subset hy, hrest⟩

/-- The first multiple that is not below `d`. -/
theorem exists_mul_ge {p : Nat} (hp : 0 < p) (d : Nat) : ∃ j, d ≤ j * p ∧ j * p < d + p := by
  have hle := Nat.div_mul_le_self (d + p - 1) p
  have hlt := Nat.lt_div_mul_add (a := d + p - 1) hp
  exact ⟨(d + p - 1) / p, by omega, by omega⟩

/-- The first attempt that does not begin before `ready`. -/
theorem exists_gridStart {start ready : Nat} (h : start ≤ ready) :
    ∃ j, ready ≤ gridStart start j ∧ gridStart start j < ready + (probeAttempt + probeGap) := by
  obtain ⟨j, hge, hlt⟩ := exists_mul_ge period_pos (ready - start)
  refine ⟨j, ?_, ?_⟩
  · exact Nat.sub_le_iff_le_add'.mp hge
  · calc start + j * (probeAttempt + probeGap)
        < start + (ready - start + (probeAttempt + probeGap)) := Nat.add_lt_add_left hlt start
      _ = ready + (probeAttempt + probeGap) := by rw [← Nat.add_assoc, Nat.add_sub_cancel' h]

/-- **The resolution of a poll.** On a reader that nothing holds up, a block that becomes readable
a poll period and the node's own delay before the limit is reported, never early, and late by no
more than those two. -/
theorem poll_resolution {start wait ready delay : Nat} (h : Served key want start ready delay inbox)
    (hready : start ≤ ready) (hdelay : delay ≤ probeAttempt)
    (hlimit : ready + (probeAttempt + probeGap) + delay ≤ start + min wait probeLimit) :
    ∃ v rest, pollReadable key want start wait inbox (gridAttempts start (min wait probeLimit)) =
        .ok (.ms v, rest) ∧
      msSince start ready ≤ v ∧ v ≤ msSince start ready + probeGridMs + millis delay := by
  obtain ⟨j, hj, hjlt⟩ := exists_gridStart hready
  obtain ⟨x, hx, hhit, harrives⟩ := h.answered j hj
  have hjn : j < 0 + (min wait probeLimit / (probeAttempt + probeGap) + 1) := by
    have hle : j * (probeAttempt + probeGap) ≤ min wait probeLimit :=
      (Nat.lt_of_add_lt_add_left (hjlt.trans_le ((Nat.le_add_right _ delay).trans hlimit))).le
    have hdiv := (Nat.le_div_iff_mul_le period_pos).mpr hle
    rw [Nat.zero_add]
    exact Nat.lt_succ_of_le hdiv
  have hend : gridStart start j + delay < start + min wait probeLimit :=
    (Nat.add_lt_add_right hjlt delay).trans_le hlimit
  obtain ⟨y, hy, hhity, hclock, rest, hpoll⟩ := pollUntil_hits hdelay h.sorted
    (fun a ha => (h.dealt a ha).2) (Nat.zero_le j) hjn hend hx hhit harrives
  refine ⟨msSince start y.clock, rest, ?_, ?_, ?_⟩
  · rw [← List.range_eq_range'] at hpoll
    exact hpoll
  · exact millis_le.mpr (Nat.sub_le_sub_right ((h.honest y hy hhity).trans (h.dealt y hy).1) start)
  · have hgrid : probeGridMs = millis (probeAttempt + probeGap) := by
      unfold probeGridMs millis probeAttempt probeGap
      norm_num
    have hsum : msSince start ready + probeGridMs + millis delay =
        millis (ready - start + (probeAttempt + probeGap) + delay) := by
      rw [hgrid, msSince, millis, millis, millis, millis]
      push_cast
      ring
    have hlate : y.clock < ready + (probeAttempt + probeGap) + delay :=
      hclock.trans_lt (Nat.add_lt_add_right hjlt delay)
    rw [hsum]
    generalize probeAttempt + probeGap = p at hlate
    exact millis_le.mpr (by omega)

/-- A hit that comes while the second get is out. -/
theorem poll_resolution_second :
    ∃ v rest, pollReadable (7 : Nat) [1] 0 (seconds 30)
        [⟨.response (.getResponse 7 [1]), 60000000, 60000000⟩]
        (gridAttempts 0 (min (seconds 30) probeLimit)) = .ok (.ms v, rest) ∧
      msSince 0 60000000 ≤ v ∧ v ≤ msSince 0 60000000 + probeGridMs + millis 0 := by
  have hserved : Served (7 : Nat) [1] 0 60000000 0
      [⟨.response (.getResponse 7 [1]), 60000000, 60000000⟩] :=
    { sorted := List.pairwise_singleton ..
      dealt := fun a ha => by
        obtain rfl := List.mem_singleton.mp ha
        exact ⟨le_refl _, fun i _ => le_max_right ..⟩
      honest := fun a ha _ => by
        obtain rfl := List.mem_singleton.mp ha
        exact le_refl _
      answered := fun i hi =>
        ⟨_, List.mem_singleton_self _, by decide, hi.trans (Nat.le_add_right ..)⟩ }
  exact poll_resolution hserved (Nat.zero_le _) (Nat.zero_le _) (by decide)

/-! ## Every sample of a run -/

/-- What a sample that was put and read rests on: a hit and an acknowledgement of its own key,
off the two connections, and the hit came first where the sample says so. -/
def Readable.Rests (writer reader : List (Arrival (Message Key))) (p : ReadablePass Key)
    (r : Readable) : Prop :=
  ∃ key state, p.made = .ok (key, state) ∧ ∀ d, r.deltaMs = some d →
    ∃ read ∈ reader, ∃ ack ∈ writer,
      read.msg = .response (.getResponse key state) ∧ ack.msg = .response (.putResponse key) ∧
        d = msSince p.start read.clock - msSince p.put.t ack.clock ∧
        (d < 0 → read.clock < ack.clock)

omit [DecidableEq Key] in
theorem Readable.Rests.mono {writer writer' reader reader' : List (Arrival (Message Key))}
    {p : ReadablePass Key} {r : Readable} (h : r.Rests writer reader p)
    (hw : writer ⊆ writer') (hr : reader ⊆ reader') : r.Rests writer' reader' p := by
  obtain ⟨key, state, hmade, hrests⟩ := h
  refine ⟨key, state, hmade, fun d hd => ?_⟩
  obtain ⟨read, hread, ack, hack, hmsgs⟩ := hrests d hd
  exact ⟨read, hr hread, ack, hw hack, hmsgs⟩

theorem Readable.deltaMs_some {r : Readable} {d : ℚ} (h : r.deltaMs = some d) :
    ∃ ack read, r.put = .ms ack ∧ r.readable = .ms read ∧ d = read - ack := by
  unfold Readable.deltaMs at h
  split at h
  · rename_i ack read hput hread
    exact ⟨ack, read, hput, hread, (Option.some.inj h).symm⟩
  · cases h

/-- The put reads its own clock no earlier than the poll's, so that it can only look faster. -/
theorem clock_lt_of_delta_neg {start t read ack : Nat} (h : start ≤ t)
    (hneg : msSince start read - msSince t ack < 0) : read < ack := by
  have hlt : read - start < ack - t := millis_lt.mp (sub_neg.mp hneg)
  omega

/-- What a put leaves unread, and what it took if it was acknowledged. -/
theorem timedPut_took {wait stale : Nat} {key : Key} {q : Request} {r : Timed Key}
    (h : timedPut wait key q stale inbox = .ok r) :
    r.inbox <:+ inbox ∧ ∀ v, r.sample = .ms v →
      ∃ a ∈ inbox, a.msg = .response (.putResponse key) ∧ v = msSince q.t a.clock := by
  have happ := scan_append (ends putKey key) (q.t + wait) q.clock inbox
  obtain ⟨hsample, -, hinbox⟩ := timedPut_ok h
  refine ⟨⟨_, hinbox ▸ happ⟩, fun v hv => ?_⟩
  have hs := sampleOf_ended wait key q inbox
  rw [← hsample, hv] at hs
  obtain ⟨a, hended, hmsg, -⟩ := hs.of_ms
  rw [hended] at hs
  obtain ⟨-, ⟨-, hms⟩ | ⟨e, cause, hm, -⟩⟩ := hs
  · refine ⟨a, ?_, hmsg, Sample.ms.inj hms⟩
    have hmem : a ∈ (scan (ends putKey key) (q.t + wait) q.clock inbox).ended.toList :=
      Option.mem_toList.mpr hended
    rw [← happ]
    exact List.mem_append_left _ (List.mem_append_right _ hmem)
  · rw [hmsg] at hm
    cases hm

/-- **Step.** -/
theorem readableStep_ok {wait : Nat} {s t : Measured Key} {p : ReadablePass Key}
    (h : readableStep wait s p = .ok t) (hclock : p.start ≤ p.put.t) :
    t.writer <:+ s.writer ∧ t.reader <:+ s.reader ∧
      ∃ r, t.out = s.out ++ [r] ∧ r.Rests s.writer s.reader p := by
  unfold readableStep at h
  obtain ⟨⟨key, state⟩, hmade, h⟩ := bind_eq_ok.mp h
  obtain ⟨put, hput, h⟩ := bind_eq_ok.mp h
  obtain ⟨⟨readable, reader⟩, hpoll, h⟩ := bind_eq_ok.mp h
  cases h
  obtain ⟨hwriter, hacked⟩ := timedPut_took hput
  obtain ⟨hreader, hhit⟩ := pollUntil_took hpoll
  refine ⟨hwriter, hreader, _, rfl, key, state, hmade, fun d hd => ?_⟩
  obtain ⟨ackMs, readMs, hack, hread, rfl⟩ := Readable.deltaMs_some hd
  obtain ⟨ack, hackmem, hackmsg, rfl⟩ := hacked ackMs hack
  obtain ⟨read, hreadmem, hreadmsg, rfl⟩ := hhit readMs hread
  exact ⟨read, hreadmem, ack, hackmem, hreadmsg, hackmsg, rfl, clock_lt_of_delta_neg hclock⟩

/-- **Run.** -/
theorem measure_rests {wait : Nat} {s s' : Measured Key} {ps : List (ReadablePass Key)}
    (h : measureReadable wait s ps = .ok s') (hclock : ∀ p ∈ ps, p.start ≤ p.put.t) :
    ∃ rows, s'.out = s.out ++ rows ∧
      List.Forall₂ (fun p r => r.Rests s.writer s.reader p) ps rows := by
  induction ps generalizing s with
  | nil =>
    cases h
    exact ⟨[], (List.append_nil _).symm, .nil⟩
  | cons p ps ih =>
    obtain ⟨t, hstep, hrest⟩ := bind_eq_ok.mp ((List.foldlM_cons ..).symm.trans h)
    obtain ⟨hwriter, hreader, r, hout, hr⟩ :=
      readableStep_ok hstep (hclock p (List.mem_cons_self ..))
    obtain ⟨rows, hrows, hall⟩ := ih hrest fun q hq => hclock q (List.mem_cons_of_mem p hq)
    refine ⟨r :: rows, ?_, .cons hr (hall.imp fun _ _ h => h.mono hwriter.subset hreader.subset)⟩
    rw [hrows, hout, List.append_assoc, List.singleton_append]

/-- **Served first.** One sample for each pass, in order; one that was put and read took a hit
and an acknowledgement of its own key, off different connections; and where it counts as
`read<ack` the hit was in hand before the acknowledgement was. -/
theorem served_first {wait : Nat} {writer reader : List (Arrival (Message Key))}
    {s' : Measured Key} {ps : List (ReadablePass Key)}
    (h : measureReadable wait { writer, reader } ps = .ok s')
    (hclock : ∀ p ∈ ps, p.start ≤ p.put.t) :
    List.Forall₂ (fun p r => r.Rests writer reader p) ps s'.out := by
  obtain ⟨rows, hrows, hall⟩ := measure_rests h hclock
  rw [hrows]
  exact hall

/-- Read at 3 ns, acknowledged at 6. -/
theorem served_first_one :
    ∃ s' : Measured Nat,
      measureReadable 9 ⟨[⟨.response (.putResponse 7), 5, 6⟩],
        [⟨.response (.getResponse 7 [1]), 3, 3⟩], [], []⟩
        [⟨.ok (7, [1]), 0, ⟨0, .ok (), 0⟩, [⟨0, .ok (), 0, 0⟩]⟩] = .ok s' ∧
      List.Forall₂ (fun p r => r.Rests [⟨.response (.putResponse 7), 5, 6⟩]
        [⟨.response (.getResponse 7 [1]), 3, 3⟩] p)
        [⟨.ok (7, [1]), 0, ⟨0, .ok (), 0⟩, [⟨0, .ok (), 0, 0⟩]⟩] s'.out := by
  refine ⟨_, rfl, ?_⟩
  exact served_first (show measureReadable 9 _ _ = .ok _ from rfl) fun p hp =>
    (List.mem_singleton.mp hp) ▸ le_refl _

end Poll

end FreenetHarness.Latency
