import FreenetHarness.Latency
import FreenetHarness.Lib.Rounds
import FreenetHarness.Parity.Score

/-! # `group`: k of n pieces, read on another node

Three arms: each piece put and read in turn, all of them asked for at once, and every
attempt bounded and made again. `one_group_reports` says what the numbers of a group are,
whichever arm it is. -/
namespace FreenetHarness.OneGroup
open FreenetHarness.Lib.Inbox FreenetHarness.Lib.Ranks FreenetHarness.Lib.Rounds
  FreenetHarness.Lib.Run FreenetHarness.Lib.Table FreenetHarness.Latency FreenetHarness.Stats
open FreenetHarness.Parity (Fault checkedSub checkedSub_of_le index index_eq_ok orFail
  orFail_ne_panic)

inductive Arm where
  | raw
  | rawConcurrent
  | baseline
  deriving DecidableEq

/-- How long the RAW arm waits for one acknowledgement. -/
def ackBound : Nat := seconds 10

/-- freenet's own `OPERATION_TTL`. -/
def ttl : Nat := seconds 60

/-- One group's result. -/
structure Group where
  arm : Arm
  /-- Until the kth piece was readable on the far node. -/
  toK : Option ℚ
  /-- Until all n were. -/
  toN : Option ℚ
  readable : Nat
  attempts : Nat
  hedged : Nat
  lateAcks : Nat

/-! ## What a group meets -/

/-- A put: the clock as the connection is drained, how the send settles, the clock its wait
is bounded from, and the one at the first look at the connection. -/
structure Put where
  drained : Nat
  sent : Except String Unit
  now : Nat
  clock : Nat

/-- The turn of a key that is read: the clock as the deadline is checked, the one its bound
is computed at, how its request settles, the clock its probe is bounded from, and the one at
the first look at the connection. -/
structure Turn where
  now : Nat
  bounded : Nat
  sent : Except String Unit
  probed : Nat
  clock : Nat

structure Reput where
  drained : Nat
  sent : Except String Unit

/-- What comes after a round: the clock, the puts made again, and the clock after them. -/
structure Hedge where
  now : Nat
  reputs : Nat → Reput
  rearmed : Nat

structure Meets (Key : Type) where
  mint : Nat → Except String (Key × Bytes)
  t0 : Nat
  writer : List (Arrival (Message Key))
  puts : Nat → Put
  reader : List (Arrival (Message Key))
  /-- The clock as the reading connection is drained, where all are asked for at once. -/
  drained : Nat
  asks : Nat → Except String Unit
  clock : Nat
  /-- The rounds that begin in time, where the keys are read in turn. -/
  passes : List ((Nat → Turn) × Hedge)

variable {Key : Type}

/-- Read whatever is already waiting; a millisecond without a message ends it. -/
def drain : Nat → List (Arrival (Message Key)) → List (Arrival (Message Key))
  | _, [] => []
  | now, a :: rest => if a.arrives ≤ now + 1000000 then drain a.clock rest else a :: rest

/-- An answer came. -/
def acked : Ending Key → Bool
  | .answered _ _ => true
  | _ => false

/-- When a probe was answered with these bytes. -/
def matchedAt (want : Bytes) : Ending Key → Option Nat
  | .answered (.getResponse _ state) clock => if state = want then some clock else none
  | _ => none

/-! ## The write side -/

structure Written (Key : Type) where
  inbox : List (Arrival (Message Key))
  lateAcks : Nat := 0

section OneGroup

variable [DecidableEq Key]

/-- One piece put; RAW waits for its acknowledgement. -/
def put (arm : Arm) (deadline : Nat) (s : Written Key) (x : (Key × Bytes) × Put) :
    Except Fault (Written Key) :=
  match x.2.sent with
  | .error e => .error (.bail e)
  | .ok () =>
    let inbox := drain x.2.drained s.inbox
    match arm with
    | .baseline => .ok { s with inbox }
    | _ =>
      let r := scan (ends putKey x.1.1) (min (x.2.now + ackBound) deadline) x.2.clock inbox
      .ok { inbox := r.rest
            lateAcks := if acked (ending r.ended) then s.lateAcks else s.lateAcks + 1 }

/-! ## All asked for at once -/

structure Collected (Key : Type) where
  /-- The pieces seen, each with the time of its hit. -/
  hits : List (Key × ℚ) := []
  stopped : Bool := false

variable (want : HashMap Key Bytes) (t0 : Nat)

/-- One message: an answer is a hit of the piece it names, with the bytes checked. -/
def collect (s : Collected Key) (a : Arrival (Message Key)) : Collected Key :=
  match a.msg with
  | .error _ _ => { s with stopped := true }
  | .response (.getResponse key state) =>
    if want.lookup key = some state ∧ key ∉ s.hits.map Prod.fst then
      { s with hits := s.hits ++ [(key, msSince t0 a.clock)] }
    else s
  | .response _ => s

/-- There is nothing left to wait for. -/
def full (n : Nat) (s : Collected Key) : Bool := s.stopped || decide (n ≤ s.hits.length)

/-! ## One key at a time -/

/-- Both connections, and what is counted on them. -/
structure Reader (Key : Type) where
  inbox : List (Arrival (Message Key))
  writer : List (Arrival (Message Key))
  attempts : Nat := 0
  hedged : Nat := 0
  hedgeAfter : Nat

/-- The bounded wait of one probe. -/
def probe (key : Key) (bound : Nat) (m : Turn) (inbox : List (Arrival (Message Key))) :
    Scan (Message Key) :=
  scan (ends getKey key) (m.probed + bound) m.clock inbox

/-- RAW is bounded by the platform's own TTL, BASELINE bounds every attempt. -/
def boundOf (arm : Arm) (deadline attempt : Nat) (m : Turn) : Nat :=
  match arm with
  | .raw => min ttl (deadline - m.bounded)
  | _ => attempt

/-- One turn: a hit if the answer for the key carries its bytes. -/
def turn (arm : Arm) (deadline attempt : Nat) (s : Reader Key) (key : Key) (m : Turn) :
    Except Fault (Reader Key × Option ℚ) :=
  if deadline ≤ m.now then .ok (s, none)
  else match want.lookup key with
  | none => .error .panic
  | some w => match m.sent with
    | .error e => .error (.bail e)
    | .ok () =>
      let r := probe key (boundOf arm deadline attempt m) m s.inbox
      .ok ({ s with inbox := r.rest, attempts := s.attempts + 1 },
        (matchedAt w (ending r.ended)).map (msSince t0))

def reput (s : Reader Key) (x : Key × Reput) : Except Fault (Reader Key) :=
  match want.lookup x.1 with
  | none => .error .panic
  | some _ => match x.2.sent with
    | .error e => .error (.bail e)
    | .ok () => .ok { s with writer := drain x.2.drained s.writer, hedged := s.hedged + 1 }

/-- BASELINE puts again what nobody can read, a quarter of the deadline after the last time. -/
def hedge (arm : Arm) (deadlineIn : Nat) (s : Progress Key (Reader Key) ℚ) (h : Hedge) :
    Except Fault (Reader Key) :=
  if arm = .baseline ∧ s.side.hedgeAfter ≤ h.now ∧ s.still ≠ [] then do
    let side ← (order s.still h.reputs).foldlM (reput want) s.side
    return { side with hedgeAfter := h.rearmed + deadlineIn / 4 }
  else .ok s.side

/-! ## One group -/

/-- The hits of a group, and what is counted with them. -/
structure Gathered (Key : Type) where
  hits : List (Key × ℚ)
  attempts : Nat
  hedged : Nat := 0

/-- What is read with all asked for at once. -/
def readAtOnce (n deadline : Nat) (keys : List Key) (m : Meets Key) :
    Except Fault (Gathered Key) := do
  let inbox := drain m.drained m.reader
  let _ ← (List.range keys.length).mapM fun i => orFail (m.asks i)
  let s := gather (full n) (collect want m.t0) (min (m.t0 + ttl) deadline) {} m.clock inbox
  return { hits := s.hits, attempts := keys.length }

/-- Every key outstanding. -/
def opening (deadlineIn : Nat) (keys : List Key) (writer : List (Arrival (Message Key)))
    (m : Meets Key) : Progress Key (Reader Key) ℚ :=
  { side := { inbox := m.reader, writer, hedgeAfter := m.t0 + deadlineIn / 4 }, still := keys }

/-- What is read one key at a time. -/
def readInTurn (arm : Arm) (attempt deadlineIn : Nat) (keys : List Key)
    (writer : List (Arrival (Message Key))) (m : Meets Key) : Except Fault (Gathered Key) := do
  let s ← roundsWith (turn want m.t0 arm (m.t0 + deadlineIn) attempt) (hedge want arm deadlineIn)
    (opening deadlineIn keys writer m) m.passes
  return { hits := s.served, attempts := s.side.attempts, hedged := s.side.hedged }

/-- The read side of an arm. -/
def readSide (arm : Arm) (n attempt deadlineIn : Nat) (keys : List Key)
    (writer : List (Arrival (Message Key))) (m : Meets Key) : Except Fault (Gathered Key) :=
  if arm = .rawConcurrent then readAtOnce want n (m.t0 + deadlineIn) keys m
  else readInTurn want arm attempt deadlineIn keys writer m

/-- `hits[k - 1]`, where there are enough. -/
def kth (hits : List ℚ) (enough : Bool) (k : Nat) : Except Fault (Option ℚ) :=
  if enough then do
    let i ← checkedSub k 1
    let x ← index hits i
    return some x
  else .ok none

def oneGroup (arm : Arm) (n k attempt deadlineIn : Nat) (m : Meets Key) : Except Fault Group := do
  let pieces ← (List.range n).mapM fun i => orFail (m.mint i)
  let keys := pieces.map Prod.fst
  let want := fill ∅ pieces
  let deadline := m.t0 + deadlineIn
  let w ← (order pieces m.puts).foldlM (put arm deadline) { inbox := m.writer }
  let r ← readSide want arm n attempt deadlineIn keys w.inbox m
  let hits := sorted (r.hits.map Prod.snd)
  let toK ← kth hits (decide (k ≤ hits.length)) k
  let toN ← kth hits (decide (hits.length = n)) n
  return { arm, toK, toN, readable := hits.length, attempts := r.attempts,
           hedged := r.hedged, lateAcks := w.lateAcks }

/-! ## The answers accepted -/

variable {want t0}

/-- The hit a message is, if it is one. -/
def hitOf (want : HashMap Key Bytes) (t0 : Nat) (a : Arrival (Message Key)) : Option (Key × ℚ) :=
  match a.msg with
  | .response (.getResponse key state) =>
    if want.lookup key = some state then some (key, msSince t0 a.clock) else none
  | _ => none

theorem hitOf_eq_some {a : Arrival (Message Key)} {x : Key × ℚ} :
    hitOf want t0 a = some x ↔ Exact want.lookup x.1 a.msg ∧ x.2 = msSince t0 a.clock := by
  unfold hitOf Exact
  constructor
  · intro h
    split at h
    · rename_i key state hm
      split at h
      · rename_i hw
        cases h
        exact ⟨⟨state, hm, hw⟩, rfl⟩
      · cases h
    · cases h
  · rintro ⟨⟨state, hm, hw⟩, ht⟩
    rw [hm]
    dsimp only
    rw [if_pos hw, ← ht]

theorem collect_hits (s : Collected Key) (a : Arrival (Message Key)) :
    (collect want t0 s a).hits = match hitOf want t0 a with
      | some x => if x.1 ∈ s.hits.map Prod.fst then s.hits else s.hits ++ [x]
      | none => s.hits := by
  unfold collect hitOf
  split
  · rename_i hm
    rw [hm]
  · rename_i key state hm
    rw [hm]
    dsimp only
    by_cases hw : want.lookup key = some state
    · rw [if_pos hw]
      by_cases hseen : key ∈ s.hits.map Prod.fst
      · rw [if_neg fun h => h.2 hseen]
        exact (if_pos hseen).symm
      · rw [if_pos ⟨hw, hseen⟩]
        exact (if_neg hseen).symm
    · rw [if_neg hw, if_neg fun h => hw h.1]
  · rename_i r hr hm
    rw [hm]
    cases r with
    | getResponse key state => exact absurd rfl (hr key state)
    | putResponse key => rfl
    | other => rfl

/-- An exact answer names one key. -/
theorem exact_key {key key' : Key} {msg : Message Key} (h : Exact want.lookup key msg)
    (h' : Exact want.lookup key' msg) : key = key' := by
  obtain ⟨state, hm, -⟩ := h
  obtain ⟨state', hm', -⟩ := h'
  cases hm.symm.trans hm'
  rfl

/-- The hits are, for each piece, its first exact answer among the messages. -/
structure Collects (want : HashMap Key Bytes) (t0 : Nat) (p : List (Arrival (Message Key)))
    (hits : List (Key × ℚ)) : Prop where
  nodup : (hits.map Prod.fst).Nodup
  mem : ∀ key t, (key, t) ∈ hits ↔
    ∃ a, p.find? (fun a => Exact want.lookup key a.msg) = some a ∧ t = msSince t0 a.clock

section Collects

variable {p : List (Arrival (Message Key))} {hits : List (Key × ℚ)} {a : Arrival (Message Key)}

theorem Collects.seen (h : Collects want t0 p hits) (key : Key) :
    key ∈ hits.map Prod.fst ↔ (p.find? fun a => Exact want.lookup key a.msg).isSome := by
  rw [List.mem_map, Option.isSome_iff_exists]
  constructor
  · rintro ⟨⟨k, t⟩, hin, rfl⟩
    obtain ⟨b, hb, -⟩ := (h.mem k t).mp hin
    exact ⟨b, hb⟩
  · rintro ⟨b, hb⟩
    exact ⟨_, (h.mem key _).mpr ⟨b, hb, rfl⟩, rfl⟩

/-- A message that answers no piece, or one that is answered, is no hit. -/
theorem Collects.kept (h : Collects want t0 p hits)
    (hold : ∀ key, Exact want.lookup key a.msg → key ∈ hits.map Prod.fst) :
    Collects want t0 (p ++ [a]) hits := by
  refine ⟨h.nodup, fun key t => ?_⟩
  rw [h.mem, List.find?_append]
  by_cases he : Exact want.lookup key a.msg
  · obtain ⟨b, hb⟩ := Option.isSome_iff_exists.mp ((h.seen key).mp (hold key he))
    rw [hb]
    rfl
  · rw [List.find?_singleton, decide_eq_false he]
    simp

/-- The first exact answer to a piece. -/
theorem Collects.added (h : Collects want t0 p hits) {x : Key × ℚ}
    (hexact : Exact want.lookup x.1 a.msg) (ht : x.2 = msSince t0 a.clock)
    (hnew : x.1 ∉ hits.map Prod.fst) : Collects want t0 (p ++ [a]) (hits ++ [x]) := by
  constructor
  · rw [List.map_append, List.map_singleton]
    exact h.nodup.append (List.nodup_singleton _) (by simpa using hnew)
  · intro key t
    rw [List.mem_append, h.mem, List.mem_singleton, List.find?_append]
    by_cases hk : key = x.1
    · have hnone : (p.find? fun a => Exact want.lookup key a.msg) = none := by
        rw [← Option.not_isSome_iff_eq_none, ← h.seen, hk]
        exact hnew
      rw [hnone, List.find?_singleton, decide_eq_true (hk ▸ hexact)]
      subst hk
      simp [Prod.ext_iff, ht]
    · have hother : ¬ Exact want.lookup key a.msg := fun he => hk (exact_key he hexact)
      have hne : (key, t) ≠ x := fun he => hk (congrArg Prod.fst he)
      rw [List.find?_singleton, decide_eq_false hother]
      simp [hne]

end Collects

/-- **What is collected** is, for each piece, its first exact answer. -/
theorem collects (want : HashMap Key Bytes) (t0 : Nat) (p : List (Arrival (Message Key))) :
    Collects want t0 p (p.foldl (collect want t0) {}).hits := by
  induction p using List.reverseRecOn with
  | nil => exact ⟨List.nodup_nil, by simp⟩
  | append_singleton p a ih =>
    rw [List.foldl_append, List.foldl_cons, List.foldl_nil, collect_hits]
    cases hx : hitOf want t0 a with
    | none =>
      refine ih.kept fun key h => ?_
      cases hx.symm.trans (hitOf_eq_some.mpr ⟨h, rfl⟩ : hitOf want t0 a = some (key, _))
    | some x =>
      obtain ⟨hexact, ht⟩ := hitOf_eq_some.mp hx
      dsimp only
      split
      · rename_i hin
        refine ih.kept fun key h => ?_
        rw [exact_key h hexact]
        exact hin
      · rename_i hnew
        exact ih.added hexact ht hnew

/-- A turn that probes its key, and `a` is the first message within its bound that names the
key or fails, and carries the exact bytes. -/
def Answered (want : HashMap Key Bytes) (arm : Arm) (deadline attempt : Nat)
    (v : Visit Key (Reader Key) Turn) (a : Arrival (Message Key)) : Prop :=
  v.meets.now < deadline ∧ v.meets.sent = .ok () ∧
    ((readable (v.meets.probed + boundOf arm deadline attempt v.meets) v.meets.clock
      v.side.inbox).find? fun a => ends getKey v.item a.msg) = some a ∧
    Exact want.lookup v.item a.msg

variable {arm : Arm} {deadline attempt deadlineIn n k : Nat}

/-- A probe is answered with the bytes of the answer for its key that ended it. -/
theorem matchedAt_eq_some {key : Key} {bound clock : Nat} {m : Turn} {w : Bytes}
    {inbox : List (Arrival (Message Key))} :
    matchedAt w (ending (probe key bound m inbox).ended) = some clock ↔
      ∃ a, (probe key bound m inbox).ended = some a ∧
        a.msg = .response (.getResponse key w) ∧ clock = a.clock := by
  cases ho : (probe key bound m inbox).ended with
  | none => simp [ending, matchedAt]
  | some a =>
    have hends := (of_scan_ended ho).1
    obtain ⟨msg, arrives, c⟩ := a
    cases msg with
    | error e cause => simp [ending, matchedAt]
    | response r =>
      cases r with
      | putResponse k => simp [ends, getKey] at hends
      | other => simp [ends, getKey] at hends
      | getResponse k state =>
        have hk : k = key := by simpa [ends, getKey] using hends
        subst hk
        by_cases hs : state = w
        · simp [ending, matchedAt, hs, eq_comm]
        · simp [ending, matchedAt, hs]

theorem gives_of_sent {v : Visit Key (Reader Key) Turn} {w : Bytes}
    (hnow : v.meets.now < deadline) (hw : want.lookup v.item = some w)
    (hs : v.meets.sent = .ok ()) :
    v.gives (turn want t0 arm deadline attempt) =
      (matchedAt w (ending (probe v.item (boundOf arm deadline attempt v.meets) v.meets
        v.side.inbox).ended)).map fun clock => (v.item, msSince t0 clock) := by
  unfold Visit.gives turn
  rw [if_neg (Nat.not_le.mpr hnow), hw, hs]
  dsimp only
  cases matchedAt w (ending (probe v.item (boundOf arm deadline attempt v.meets) v.meets
    v.side.inbox).ended) <;> rfl

/-- A turn that gives something is one that sends its request. -/
theorem sent_of_gives {v : Visit Key (Reader Key) Turn} {x : Key × ℚ}
    (h : v.gives (turn want t0 arm deadline attempt) = some x) :
    v.meets.now < deadline ∧ (∃ w, want.lookup v.item = some w) ∧ v.meets.sent = .ok () := by
  unfold Visit.gives turn at h
  split at h
  · rename_i hr
    split at hr
    · cases hr
    · rename_i hnow
      split at hr
      · cases hr
      · rename_i w hw
        split at hr
        · cases hr
        · rename_i hs
          exact ⟨Nat.lt_of_not_le hnow, ⟨w, hw⟩, hs⟩
  · cases h

/-- **What a turn gives** is a hit at the exact answer for its key. -/
theorem gives_iff {v : Visit Key (Reader Key) Turn} {key : Key} {t : ℚ} :
    v.gives (turn want t0 arm deadline attempt) = some (key, t) ↔
      v.item = key ∧ ∃ a, Answered want arm deadline attempt v a ∧ t = msSince t0 a.clock := by
  constructor
  · intro h
    obtain ⟨hnow, ⟨w, hw⟩, hs⟩ := sent_of_gives h
    rw [gives_of_sent hnow hw hs, Option.map_eq_some_iff] at h
    obtain ⟨clock, hm, h⟩ := h
    obtain ⟨a, ha, hmsg, rfl⟩ := matchedAt_eq_some.mp hm
    cases h
    rw [probe, scan_ended] at ha
    exact ⟨rfl, a, ⟨hnow, hs, ha, w, hmsg, hw⟩, rfl⟩
  · rintro ⟨rfl, a, ⟨hnow, hs, ha, w, hmsg, hw⟩, rfl⟩
    rw [← scan_ended, ← probe] at ha
    rw [gives_of_sent hnow hw hs, matchedAt_eq_some.mpr ⟨a, ha, hmsg, rfl⟩]
    rfl

/-- The messages taken in where all are asked for at once: all that can be read, up to the
last piece or an error. -/
def takenIn (want : HashMap Key Bytes) (n deadline : Nat) (m : Meets Key) :
    List (Arrival (Message Key)) :=
  upTo (fun p => full n (p.foldl (collect want m.t0) {}))
    (readable (min (m.t0 + ttl) deadline) m.clock (drain m.drained m.reader))

/-- The turns of a group whose keys are read in turn. -/
def turns (want : HashMap Key Bytes) (arm : Arm) (attempt deadlineIn : Nat) (keys : List Key)
    (writer : List (Arrival (Message Key))) (m : Meets Key) : List (Visit Key (Reader Key) Turn) :=
  visitsWith (turn want m.t0 arm (m.t0 + deadlineIn) attempt) (hedge want arm deadlineIn)
    (opening deadlineIn keys writer m) m.passes

/-- The answer for a key that is accepted: the first exact one taken in, or the one that
ended a probe of it. -/
def Accepted (want : HashMap Key Bytes) (arm : Arm) (n attempt deadlineIn : Nat)
    (keys : List Key) (writer : List (Arrival (Message Key))) (m : Meets Key) (key : Key)
    (a : Arrival (Message Key)) : Prop :=
  match arm with
  | .rawConcurrent =>
    (takenIn want n (m.t0 + deadlineIn) m).find? (fun a => Exact want.lookup key a.msg) = some a
  | _ => ∃ v ∈ turns want arm attempt deadlineIn keys writer m,
    v.item = key ∧ Answered want arm (m.t0 + deadlineIn) attempt v a

theorem accepted_inTurn {keys : List Key} {writer : List (Arrival (Message Key))} {m : Meets Key}
    (harm : arm ≠ .rawConcurrent) {key : Key} {a : Arrival (Message Key)} :
    Accepted want arm n attempt deadlineIn keys writer m key a ↔
      ∃ v ∈ turns want arm attempt deadlineIn keys writer m,
        v.item = key ∧ Answered want arm (m.t0 + deadlineIn) attempt v a := by
  cases arm with
  | rawConcurrent => exact absurd rfl harm
  | raw => exact Iff.rfl
  | baseline => exact Iff.rfl

/-- The hits of a read: each of a piece, no piece's twice, at the answers accepted. -/
structure Hits (want : HashMap Key Bytes) (arm : Arm) (n attempt deadlineIn : Nat)
    (keys : List Key) (writer : List (Arrival (Message Key))) (m : Meets Key)
    (hits : List (Key × ℚ)) : Prop where
  /-- As often as it is among the keys, at most. -/
  pieces : (hits.map Prod.fst).Subperm keys
  accepted : ∀ key t, (key, t) ∈ hits ↔
    ∃ a, Accepted want arm n attempt deadlineIn keys writer m key a ∧ t = msSince m.t0 a.clock

theorem readAtOnce_hits {keys : List Key} {writer : List (Arrival (Message Key))} {m : Meets Key}
    {r : Gathered Key} (hkeys : ∀ key, key ∈ want → key ∈ keys)
    (h : readAtOnce want n (m.t0 + deadlineIn) keys m = .ok r) :
    Hits want .rawConcurrent n attempt deadlineIn keys writer m r.hits := by
  obtain ⟨_, -, h⟩ := bind_eq_ok.mp h
  cases h
  rw [gather_eq]
  obtain ⟨hd, hmem⟩ := collects want m.t0 (takenIn want n (m.t0 + deadlineIn) m)
  refine ⟨?_, hmem⟩
  refine hd.subperm fun key hkey => ?_
  obtain ⟨⟨piece, t⟩, hin, rfl⟩ := List.mem_map.mp hkey
  obtain ⟨a, ha, -⟩ := (hmem piece t).mp hin
  have hexact : Exact want.lookup piece a.msg := by simpa using List.find?_some ha
  obtain ⟨state, -, hw⟩ := hexact
  exact hkeys piece (AList.lookup_isSome.mp (Option.isSome_iff_exists.mpr ⟨state, hw⟩))

theorem readInTurn_hits {keys : List Key} {writer : List (Arrival (Message Key))} {m : Meets Key}
    {r : Gathered Key} (harm : arm ≠ .rawConcurrent)
    (h : readInTurn want arm attempt deadlineIn keys writer m = .ok r) :
    Hits want arm n attempt deadlineIn keys writer m r.hits := by
  obtain ⟨s, hs, h⟩ := bind_eq_ok.mp h
  cases h
  have hperm : (s.served.map Prod.fst ++ s.still).Perm keys := roundsWith_perm hs
  have hserved : s.served = (turns want arm attempt deadlineIn keys writer m).filterMap
      (Visit.gives (turn want m.t0 arm (m.t0 + deadlineIn) attempt)) := servedWith_eq hs
  refine ⟨(List.sublist_append_left _ _).subperm.trans hperm.subperm, fun key t => ?_⟩
  simp only [hserved, List.mem_filterMap, gives_iff, accepted_inTurn harm]
  constructor
  · rintro ⟨v, hv, hitem, a, ha, ht⟩
    exact ⟨a, ⟨v, hv, hitem, ha⟩, ht⟩
  · rintro ⟨a, ⟨v, hv, hitem, ha⟩, ht⟩
    exact ⟨v, hv, hitem, a, ha, ht⟩

theorem readSide_hits {keys : List Key} {writer : List (Arrival (Message Key))} {m : Meets Key}
    {r : Gathered Key} (hkeys : ∀ key, key ∈ want → key ∈ keys)
    (h : readSide want arm n attempt deadlineIn keys writer m = .ok r) :
    Hits want arm n attempt deadlineIn keys writer m r.hits := by
  unfold readSide at h
  split at h
  · rename_i harm
    subst harm
    exact readAtOnce_hits hkeys h
  · rename_i harm
    exact readInTurn_hits harm h

/-! ## No step panics -/

theorem put_ne_panic (s : Written Key) (x : (Key × Bytes) × Put) :
    put arm deadline s x ≠ .error .panic := by
  intro h
  unfold put at h
  split at h
  · cases h
  · cases arm <;> cases h

theorem turn_ne_panic {s : Reader Key} {key : Key} {m : Turn} (hkey : key ∈ want) :
    turn want t0 arm deadline attempt s key m ≠ .error .panic := by
  intro h
  obtain ⟨w, hw⟩ := Option.isSome_iff_exists.mp (AList.lookup_isSome.mpr hkey)
  unfold turn at h
  rw [hw] at h
  split at h
  · cases h
  · dsimp only at h
    split at h <;> cases h

theorem hedge_ne_panic {s : Progress Key (Reader Key) ℚ} {e : Hedge}
    (hkeys : ∀ key ∈ s.still, key ∈ want) : hedge want arm deadlineIn s e ≠ .error .panic := by
  intro h
  unfold hedge at h
  split at h
  · obtain h | ⟨side, -, h⟩ := bind_eq_error.mp h
    · obtain ⟨r, x, hx, hr⟩ := of_foldlM_error h
      have hmem : x.1 ∈ (order s.still e.reputs).map Prod.fst := List.mem_map_of_mem hx
      rw [order_fst] at hmem
      obtain ⟨w, hw⟩ := Option.isSome_iff_exists.mp (AList.lookup_isSome.mpr (hkeys _ hmem))
      unfold reput at hr
      rw [hw] at hr
      dsimp only at hr
      split at hr <;> cases hr
    · cases h
  · cases h

theorem readSide_ne_panic {keys : List Key} {writer : List (Arrival (Message Key))}
    {m : Meets Key} (hkeys : ∀ key ∈ keys, key ∈ want) :
    readSide want arm n attempt deadlineIn keys writer m ≠ .error .panic := by
  intro h
  unfold readSide at h
  split at h
  · obtain h | ⟨_, -, h⟩ := bind_eq_error.mp h
    · obtain ⟨i, -, hi⟩ := of_mapM_error h
      exact orFail_ne_panic _ hi
    · cases h
  · obtain h | ⟨_, -, h⟩ := bind_eq_error.mp h
    · obtain ⟨side, key, hkey, t, ht⟩ | ⟨t, e, ht, he⟩ := of_roundsWith_error h
      · exact turn_ne_panic (hkeys key hkey) ht
      · exact hedge_ne_panic (fun key hkey => hkeys key (ht hkey)) he
    · cases h

/-! ## The numbers of a group -/

theorem kth_ok {hits : List ℚ} {enough : Bool} {r : Option ℚ} (hk : 1 ≤ k)
    (h : kth (sorted hits) enough k = .ok r) :
    (r.isSome ↔ enough = true) ∧ ∀ t ∈ r, (sorted hits)[k - 1]? = some t ∧ IsKth k hits t := by
  unfold kth at h
  cases enough with
  | false =>
    cases h
    simp
  | true =>
    rw [if_pos rfl, checkedSub_of_le hk] at h
    obtain ⟨x, hx, h⟩ := bind_eq_ok.mp (show index (sorted hits) (k - 1) >>= _ = _ from h)
    cases h
    rw [index_eq_ok] at hx
    simp [hx, ← isKth_iff hk]

theorem kth_ne_panic {hits : List ℚ} {enough : Bool} (hk : 1 ≤ k)
    (he : enough = true → k ≤ hits.length) : kth hits enough k ≠ .error .panic := by
  intro h
  unfold kth at h
  cases enough with
  | false => cases h
  | true =>
    rw [if_pos rfl, checkedSub_of_le hk] at h
    obtain hx | ⟨x, -, hx⟩ := bind_eq_error.mp (show index hits (k - 1) >>= _ = _ from h)
    · have hlt : k - 1 < hits.length := by
        have := he rfl
        omega
      rw [index, List.getElem?_eq_getElem hlt] at hx
      cases hx
    · cases hx

/-- What a group says of the times of its hits. -/
structure Reports (n k : Nat) (times : List ℚ) (g : Group) : Prop where
  readable : g.readable = times.length
  readable_le : g.readable ≤ n
  toK_isSome : g.toK.isSome ↔ k ≤ g.readable
  toK_isKth : ∀ t ∈ g.toK, IsKth k times t
  toN_isSome : g.toN.isSome ↔ g.readable = n
  toN_isKth : ∀ t ∈ g.toN, IsKth n times t
  toK_le_toN : ∀ a ∈ g.toK, ∀ b ∈ g.toN, a ≤ b

/-- The write side and the read side of a group that comes to its end. -/
theorem of_oneGroup {m : Meets Key} {g : Group}
    (h : oneGroup arm n k attempt deadlineIn m = .ok g) :
    ∃ pieces w r, (List.range n).mapM (fun i => orFail (m.mint i)) = .ok pieces ∧
      (order pieces m.puts).foldlM (put arm (m.t0 + deadlineIn)) { inbox := m.writer } = .ok w ∧
      readSide (fill ∅ pieces) arm n attempt deadlineIn (pieces.map Prod.fst) w.inbox m = .ok r ∧
      g.readable = r.hits.length ∧
      kth (sorted (r.hits.map Prod.snd)) (decide (k ≤ g.readable)) k = .ok g.toK ∧
      kth (sorted (r.hits.map Prod.snd)) (decide (g.readable = n)) n = .ok g.toN := by
  simp only [oneGroup, bind_eq_ok] at h
  obtain ⟨pieces, hp, w, hw, r, hr, toK, hK, toN, hN, h⟩ := h
  cases h
  have hlen : (sorted (r.hits.map Prod.snd)).length = r.hits.length := by
    rw [length_sorted, List.length_map]
  rw [hlen] at hK hN
  exact ⟨pieces, w, r, hp, hw, hr, hlen, by rw [hlen]; exact hK, by rw [hlen]; exact hN⟩

theorem reports {times : List ℚ} {g : Group} (hk : 1 ≤ k) (hn : k ≤ n)
    (hlen : g.readable = times.length) (hle : times.length ≤ n)
    (hK : kth (sorted times) (decide (k ≤ g.readable)) k = .ok g.toK)
    (hN : kth (sorted times) (decide (g.readable = n)) n = .ok g.toN) : Reports n k times g := by
  obtain ⟨hKs, hKt⟩ := kth_ok hk hK
  obtain ⟨hNs, hNt⟩ := kth_ok (hk.trans hn) hN
  refine ⟨hlen, hlen ▸ hle, by simpa using hKs, fun t ht => (hKt t ht).2, by simpa using hNs,
    fun t ht => (hNt t ht).2, fun a ha b hb => ?_⟩
  exact le_of_rank_le (pairwise_sorted times) (Nat.sub_le_sub_right hn 1) (hKt a ha).1 (hNt b hb).1

theorem oneGroup_ne_panic (m : Meets Key) (hk : 1 ≤ k) (hn : k ≤ n) :
    oneGroup arm n k attempt deadlineIn m ≠ .error .panic := by
  intro h
  simp only [oneGroup] at h
  obtain h | ⟨pieces, -, h⟩ := bind_eq_error.mp h
  · obtain ⟨i, -, hi⟩ := of_mapM_error h
    exact orFail_ne_panic _ hi
  obtain h | ⟨w, -, h⟩ := bind_eq_error.mp h
  · obtain ⟨s, x, -, hx⟩ := of_foldlM_error h
    exact put_ne_panic s x hx
  obtain h | ⟨r, -, h⟩ := bind_eq_error.mp h
  · exact readSide_ne_panic (fun key hkey => mem_fill.mpr hkey) h
  obtain h | ⟨toK, -, h⟩ := bind_eq_error.mp h
  · exact kth_ne_panic hk of_decide_eq_true h
  obtain h | ⟨toN, -, h⟩ := bind_eq_error.mp h
  · exact kth_ne_panic (hk.trans hn) (fun he => (of_decide_eq_true he).ge) h
  · cases h

/-- **The numbers of a group**, whichever arm it is: what is readable is the pieces for
which an exact answer was accepted, each once; the time to k is the kth smallest of their
times, where there are k, the time to n the largest, where there are n, and the one is not
above the other. -/
theorem one_group_reports (arm : Arm) {n k : Nat} (attempt deadlineIn : Nat) (m : Meets Key)
    (hk : 1 ≤ k) (hn : k ≤ n) :
    oneGroup arm n k attempt deadlineIn m ≠ .error .panic ∧
      ∀ g, oneGroup arm n k attempt deadlineIn m = .ok g →
        ∃ pieces w hits, (List.range n).mapM (fun i => orFail (m.mint i)) = .ok pieces ∧
          (order pieces m.puts).foldlM (put arm (m.t0 + deadlineIn)) { inbox := m.writer } =
            .ok w ∧
          Hits (fill ∅ pieces) arm n attempt deadlineIn (pieces.map Prod.fst) w.inbox m hits ∧
          ((pieces.map Prod.fst).Nodup → (hits.map Prod.fst).Nodup) ∧
          Reports n k (hits.map Prod.snd) g := by
  refine ⟨oneGroup_ne_panic m hk hn, fun g h => ?_⟩
  obtain ⟨pieces, w, r, hp, hw, hr, hlen, hK, hN⟩ := of_oneGroup h
  have hhits := readSide_hits (fun key hkey => mem_fill.mp hkey) hr
  have hn' : pieces.length = n := by
    have hmap : pieces.map (fun _ => ()) = (List.range n).map fun _ => () :=
      map_of_mapM_ok (fun _ _ _ _ => rfl) hp
    simpa using congrArg List.length hmap
  refine ⟨pieces, w, r.hits, hp, hw, hhits, fun hd => ?_, reports hk hn ?_ ?_ hK hN⟩
  · obtain ⟨l, hl, hsub⟩ := hhits.pieces
    exact hl.nodup_iff.mp (hd.sublist hsub)
  · rw [hlen, List.length_map]
  · have := hhits.pieces.length_le
    simpa [hn'] using this

end OneGroup

/-- Two pieces asked for at once: one answered twice, the other with the wrong bytes. -/
def oneAnswered : Meets Nat where
  mint i := .ok (i, [UInt8.ofNat i])
  t0 := 0
  writer := []
  puts _ := ⟨0, .ok (), 0, 0⟩
  reader :=
    [⟨.response (.getResponse 0 [0]), 2000000, 2000000⟩,
      ⟨.response (.getResponse 1 [9]), 3000000, 3000000⟩,
      ⟨.response (.getResponse 7 [7]), 4000000, 4000000⟩,
      ⟨.response (.getResponse 0 [0]), 5000000, 5000000⟩]
  drained := 0
  asks _ := .ok ()
  clock := 0
  passes := []

/-- The same answers, each to a probe of its own: the second is ended by the wrong bytes. -/
def probedInTurn : Meets Nat := { oneAnswered with
  passes := [(fun i => ⟨i, i, .ok (), i, i⟩, ⟨2, fun _ => ⟨2, .ok ()⟩, 2⟩)] }

theorem one_group_reports_one :
    (∃ g times, oneGroup .rawConcurrent 2 1 0 (seconds 90) oneAnswered = .ok g ∧
      g.readable = 1 ∧ Reports 2 1 times g) ∧
    ∃ g times, oneGroup .baseline 2 1 50000000 (seconds 90) probedInTurn = .ok g ∧
      g.readable = 1 ∧ g.attempts = 2 ∧ Reports 2 1 times g := by
  constructor
  · obtain ⟨-, hreports⟩ := one_group_reports .rawConcurrent (n := 2) (k := 1) 0 (seconds 90)
      oneAnswered (by decide) (by decide)
    obtain ⟨-, -, hits, -, -, -, -, hr⟩ := hreports _ rfl
    exact ⟨_, hits.map Prod.snd, rfl, rfl, hr⟩
  · obtain ⟨-, hreports⟩ := one_group_reports .baseline (n := 2) (k := 1) 50000000 (seconds 90)
      probedInTurn (by decide) (by decide)
    obtain ⟨-, -, hits, -, -, -, -, hr⟩ := hreports _ rfl
    exact ⟨_, hits.map Prod.snd, rfl, rfl, rfl, hr⟩

end FreenetHarness.OneGroup
