import FreenetHarness.Latency

/-! # `validate-cost`: what the host's re-validation costs

Every update of a run addresses one contract, so the key of an answer does not say which
update it answers. `owned_iff` says when each update is paired with its own answer. -/
namespace FreenetHarness.ValidateCost
open FreenetHarness.Lib.Inbox FreenetHarness.Lib.Run FreenetHarness.Lib.Number
  FreenetHarness.Stats FreenetHarness.Latency

def tagAppend : UInt8 := 0x01
def tagNoop : UInt8 := 0xFF

inductive Arm where
  /-- Append a chunk per update; the state grows. -/
  | growth
  /-- Distinct bytes, identical outcome. -/
  | distinctNoop
  /-- The same delta bytes every time. -/
  | repeatDelta
  /-- The same full state every time. -/
  | repeatState
  deriving DecidableEq

inductive UpdateData where
  | state (s : Bytes)
  | delta (d : Bytes)
  deriving DecidableEq

/-- What the `i`-th update of an arm sends, and the state the run takes the node to hold
after it. -/
def payload (arm : Arm) (chunk : Nat) (salt : Bytes) (i : Nat) (state : Bytes) :
    Bytes × UpdateData :=
  match arm with
  | .growth =>
    let grown := List.replicate chunk 'x'.toUInt8
    (state ++ grown, .delta (tagAppend :: grown))
  | .distinctNoop => (state, .delta (tagNoop :: toLeBytes (UInt64.ofNat i) ++ salt))
  | .repeatDelta => (state, .delta (tagNoop :: salt))
  | .repeatState => (state, .state state)

/-! ## One update -/

/-- What a receive hands over. The texts are how the code prints the responses that it
did not expect. -/
inductive Response (Key : Type) where
  | updateResponse (key : Key) (debug : String)
  | other (debug : String)
  | error (e : String)
  deriving DecidableEq

/-- A response, and the update it answers, which it does not name. -/
structure Answer (Key : Type) where
  update : Nat
  response : Response Key
  deriving DecidableEq

/-- What one update meets: the clock as it is made, how its send settles, the clock as
the wait for its answer begins, and the node's answer to it, if it ever answers. -/
structure Update (Key : Type) where
  t : Nat
  sent : Except String Unit
  start : Nat
  answer : Option (Arrival (Response Key))
  deriving DecidableEq

/-- One update's observation, paired with the state size it ran against. -/
structure Row where
  i : Nat
  stateLen : Nat
  sample : Sample
  deriving DecidableEq

structure Conf (Key : Type) where
  key : Key
  arm : Arm
  chunk : Nat
  salt : Bytes
  wait : Nat

structure State (Key : Type) where
  state : Bytes
  rows : List Row := []
  /-- The updates the node was sent. -/
  sent : List UpdateData := []
  /-- The answers that have been given and not been read, in order. -/
  inbox : List (Arrival (Answer Key)) := []
  deriving DecidableEq

variable {Key : Type}

def unexpected (debug : String) : Sample := .failed s!"unexpected response: {debug}"

/-- When the wait of an update ends. -/
def deadline (wait : Nat) (u : Update Key) : Nat := u.start + wait

/-- A response as the answer to the `i`-th update. -/
def answerTo (i : Nat) (a : Arrival (Response Key)) : Arrival (Answer Key) :=
  ⟨⟨i, a.msg⟩, a.arrives, a.clock⟩

@[simp] theorem answerTo_update (i : Nat) (a : Arrival (Response Key)) :
    (answerTo i a).msg.update = i := rfl

@[simp] theorem answerTo_arrives (i : Nat) (a : Arrival (Response Key)) :
    (answerTo i a).arrives = a.arrives := rfl

/-- The inbox once the `i`-th update is sent: the node answers in order. -/
def offered (i : Nat) (u : Update Key) (inbox : List (Arrival (Answer Key))) :
    List (Arrival (Answer Key)) :=
  inbox ++ (u.answer.map (answerTo i)).toList

section Run

variable [DecidableEq Key]

/-- The sample one receive gives. -/
def sampleOf (key : Key) (t clock : Nat) : Response Key → Sample
  | .updateResponse k debug => if k = key then .ms (msSince t clock) else unexpected debug
  | .other debug => unexpected debug
  | .error e => nodeError e

/-- Send an update and take the next response. -/
def timedUpdate (c : Conf Key) (i : Nat) (u : Update Key) (inbox : List (Arrival (Answer Key))) :
    Except String (Sample × List (Arrival (Answer Key))) :=
  match u.sent with
  | .error e => .error e
  | .ok () => match offered i u inbox with
    | [] => .ok (noResponse c.wait, [])
    | a :: rest =>
      if a.arrives ≤ deadline c.wait u then
        .ok (sampleOf c.key u.t a.clock a.msg.response, rest)
      else .ok (noResponse c.wait, a :: rest)

/-- One pass of the update loop. -/
def step (c : Conf Key) (s : State Key) (u : Update Key) : Except String (State Key) := do
  let i := s.rows.length
  let (state, data) := payload c.arm c.chunk c.salt i s.state
  let (sample, inbox) ← timedUpdate c i u s.inbox
  return { state, inbox, sent := s.sent ++ [data],
           rows := s.rows ++ [{ i, stateLen := s.state.length, sample }] }

/-- The state a run seeds its contract with: the salt, filled up to the preload. -/
def seedState (c : Conf Key) (preload : Nat) : Bytes :=
  c.salt ++ List.replicate (preload - c.salt.length) '.'.toUInt8

/-- The rows of a run, from the acknowledged put of the seed on. -/
def run (c : Conf Key) (preload : Nat) (us : List (Update Key)) : Except String (List Row) := do
  return (← us.foldlM (step c) { state := seedState c preload }).rows

end Run

/-! ## Which update an answer is recorded for -/

/-- The response an update takes, if it takes one, is the answer to it; and it takes one
if it is given a latency. -/
def Own (s : State Key) (u : Update Key) (s' : State Key) : Prop :=
  (∀ row v, s'.rows = s.rows ++ [row] → row.sample = .ms v →
      ∃ a, offered s.rows.length u s.inbox = a :: s'.inbox ∧ a.msg.update = s.rows.length) ∧
    ∀ a, offered s.rows.length u s.inbox = a :: s'.inbox → a.msg.update = s.rows.length

/-- The updates that are waited for: a send that fails ends the run. -/
def waited (us : List (Update Key)) : List (Update Key) := us.takeWhile fun u => u.sent.isOk

/-- The node's answers arrive in the order of the updates. -/
def InOrder (us : List (Update Key)) : Prop :=
  us.Pairwise fun u v => ∀ a ∈ u.answer, ∀ b ∈ v.answer, a.arrives ≤ b.arrives

/-- No answer that misses its own wait arrives before the end of a later one. -/
def LateUnread (wait : Nat) (us : List (Update Key)) : Prop :=
  us.Pairwise fun u v => ∀ a ∈ u.answer, deadline wait u < a.arrives → deadline wait v < a.arrives

/-- What is unread is answers to earlier updates, in order, and before what is to come. -/
structure Backlog (s : State Key) (us : List (Update Key)) : Prop where
  earlier : ∀ a ∈ s.inbox, a.msg.update < s.rows.length
  sorted : s.inbox.Pairwise fun a b => a.arrives ≤ b.arrives
  before : ∀ a ∈ s.inbox, ∀ u ∈ us, ∀ b ∈ u.answer, a.arrives ≤ b.arrives

/-- The answer to the `i`-th update, if it misses its wait. -/
def late (wait i : Nat) (u : Update Key) : List (Arrival (Answer Key)) :=
  match u.answer with
  | some a => if deadline wait u < a.arrives then [answerTo i a] else []
  | none => []

theorem mem_late {wait i : Nat} {u : Update Key} {b : Arrival (Answer Key)} :
    b ∈ late wait i u ↔ ∃ a ∈ u.answer, deadline wait u < a.arrives ∧ b = answerTo i a := by
  unfold late
  cases u.answer with
  | none => simp
  | some a => by_cases ha : deadline wait u < a.arrives <;> simp [ha]

theorem late_pairwise (wait i : Nat) (u : Update Key) :
    (late wait i u).Pairwise fun a b => a.arrives ≤ b.arrives := by
  unfold late
  cases u.answer with
  | none => simp
  | some a => by_cases ha : deadline wait u < a.arrives <;> simp [ha]

theorem waited_cons {u : Update Key} (us : List (Update Key)) (h : u.sent = .ok ()) :
    waited (u :: us) = u :: waited us := by
  simp [waited, h, Except.isOk, Except.toBool]

theorem waited_of_error {u : Update Key} (us : List (Update Key)) {e : String}
    (h : u.sent = .error e) : waited (u :: us) = [] := by
  simp [waited, h, Except.isOk, Except.toBool]

section Paired

variable [DecidableEq Key]

/-- What one pass does: it takes the first answer of the inbox if that is there in time. -/
theorem step_ok {c : Conf Key} {s s' : State Key} {u : Update Key} (h : step c s u = .ok s') :
    u.sent = .ok () ∧ ∃ sample, s'.rows = s.rows ++ [⟨s.rows.length, s.state.length, sample⟩] ∧
      ((∃ a, offered s.rows.length u s.inbox = a :: s'.inbox ∧ a.arrives ≤ deadline c.wait u ∧
          sample = sampleOf c.key u.t a.clock a.msg.response) ∨
        s'.inbox = offered s.rows.length u s.inbox ∧ sample = noResponse c.wait ∧
          ∀ a rest, s'.inbox = a :: rest → deadline c.wait u < a.arrives) := by
  unfold step at h
  obtain ⟨⟨sample, inbox⟩, hu, h⟩ := bind_eq_ok.mp h
  cases h
  unfold timedUpdate at hu
  split at hu
  · cases hu
  · rename_i hsent
    refine ⟨hsent, sample, rfl, ?_⟩
    split at hu
    · rename_i hoff
      cases hu
      exact Or.inr ⟨hoff.symm, rfl, by simp⟩
    · rename_i a rest hoff
      split at hu
      · rename_i ha
        cases hu
        exact Or.inl ⟨a, hoff, ha, rfl⟩
      · rename_i ha
        cases hu
        refine Or.inr ⟨hoff.symm, rfl, fun b rest' hb => ?_⟩
        cases hb
        exact Nat.lt_of_not_le ha

/-- With nothing earlier to read in time, an update takes its own answer, or leaves it for
being late. -/
theorem step_own {c : Conf Key} {s s' : State Key} {u : Update Key} {us : List (Update Key)}
    (hb : Backlog s (u :: us)) (hl : ∀ a ∈ s.inbox, deadline c.wait u < a.arrives)
    (h : step c s u = .ok s') :
    s'.inbox = s.inbox ++ late c.wait s.rows.length u ∧ Own s u s' := by
  obtain ⟨-, sample, hrows, ⟨a, hoff, ha, -⟩ | ⟨hin, hs, hlate⟩⟩ := step_ok h
  · -- only the update's own answer can be the one that was in time
    cases hi : s.inbox with
    | cons b rest =>
      rw [offered, hi, List.cons_append] at hoff
      obtain ⟨rfl, -⟩ := List.cons.inj hoff
      exact absurd (hl b (by simp [hi])) (Nat.not_lt.mpr ha)
    | nil =>
      cases hu : u.answer with
      | none => simp [offered, hi, hu] at hoff
      | some b =>
        simp only [offered, hi, hu, Option.map_some, Option.toList_some, List.nil_append,
          List.cons.injEq] at hoff
        obtain ⟨rfl, hnil⟩ := hoff
        have hnot : ¬ deadline c.wait u < b.arrives := Nat.not_lt.mpr ha
        have hone : offered s.rows.length u s.inbox = answerTo s.rows.length b :: s'.inbox := by
          simp [offered, hi, hu, ← hnil]
        refine ⟨by simp [late, hu, hnot, ← hnil], fun _ _ _ _ => ⟨_, hone, rfl⟩, fun x hx => ?_⟩
        rw [hone] at hx
        rw [← (List.cons.inj hx).1, answerTo_update]
  · refine ⟨?_, fun row v hrow hv => ?_, fun x hx => ?_⟩
    · rw [hin, offered]
      congr 1
      cases hu : u.answer with
      | none => simp [late, hu]
      | some b =>
        have hbl : deadline c.wait u < b.arrives := by
          cases hi : s.inbox with
          | nil =>
            exact hlate (answerTo s.rows.length b) [] (by rw [hin, offered, hi, hu]; rfl)
          | cons x rest =>
            exact lt_of_lt_of_le (hl x (by simp [hi]))
              (hb.before x (by simp [hi]) u (by simp) b (by simp [hu]))
        simp [late, hu, hbl]
    · have := List.append_cancel_left (hrow.symm.trans hrows)
      cases this
      rw [hs] at hv
      cases hv
    · have := congrArg List.length hx
      rw [hin, List.length_cons] at this
      omega

/-- An earlier answer that can be read in time is taken for the update's own. -/
theorem step_not_own {c : Conf Key} {s s' : State Key} {u : Update Key} {us : List (Update Key)}
    (hb : Backlog s (u :: us)) {a : Arrival (Answer Key)} (ha : a ∈ s.inbox)
    (hd : a.arrives ≤ deadline c.wait u) (h : step c s u = .ok s') : ¬ Own s u s' := by
  rintro ⟨-, hown⟩
  cases hi : s.inbox with
  | nil => simp [hi] at ha
  | cons x rest =>
    have hx : x.arrives ≤ deadline c.wait u := by
      have hs := hb.sorted
      rw [hi] at hs ha
      rcases List.mem_cons.mp ha with rfl | ha
      · exact hd
      · exact (List.rel_of_pairwise_cons hs ha).trans hd
    have hlt := hb.earlier x (by simp [hi])
    obtain ⟨-, sample, -, ⟨y, hoff, -, -⟩ | ⟨hin, -, hlate⟩⟩ := step_ok h
    · have hy := hown y hoff
      rw [offered, hi, List.cons_append] at hoff
      obtain ⟨rfl, -⟩ := List.cons.inj hoff
      omega
    · rw [offered, hi, List.cons_append] at hin
      have := hlate x _ hin
      omega

theorem Backlog.step {c : Conf Key} {s s' : State Key} {u : Update Key} {us : List (Update Key)}
    (hb : Backlog s (u :: us)) (ho : InOrder (u :: us))
    (hl : ∀ a ∈ s.inbox, deadline c.wait u < a.arrives) (h : step c s u = .ok s') :
    Backlog s' us := by
  obtain ⟨hin, -⟩ := step_own hb hl h
  obtain ⟨-, sample, hrows, -⟩ := step_ok h
  have hlen : s'.rows.length = s.rows.length + 1 := by simp [hrows]
  refine ⟨fun a ha => ?_, ?_, fun a ha v hv b hvb => ?_⟩
  · rw [hin] at ha
    rcases List.mem_append.mp ha with ha | ha
    · have := hb.earlier a ha
      omega
    · obtain ⟨b, -, -, rfl⟩ := mem_late.mp ha
      exact hlen ▸ Nat.lt_succ_self _
  · rw [hin, List.pairwise_append]
    refine ⟨hb.sorted, late_pairwise .., fun a ha b hbl => ?_⟩
    obtain ⟨x, hx, -, rfl⟩ := mem_late.mp hbl
    exact hb.before a ha u (by simp) x hx
  · rw [hin] at ha
    rcases List.mem_append.mp ha with ha | ha
    · exact hb.before a ha v (by simp [hv]) b hvb
    · obtain ⟨x, hx, -, rfl⟩ := mem_late.mp ha
      exact List.rel_of_pairwise_cons ho hv x hx b hvb

/-- An update that is sent gets its row. -/
theorem exists_step (c : Conf Key) (s : State Key) {u : Update Key} (h : u.sent = .ok ()) :
    ∃ s', step c s u = .ok s' := by
  obtain ⟨r, hr⟩ : ∃ r, timedUpdate c s.rows.length u s.inbox = .ok r := by
    unfold timedUpdate
    rw [h]
    dsimp only
    split
    · exact ⟨_, rfl⟩
    · split
      · exact ⟨_, rfl⟩
      · exact ⟨_, rfl⟩
  exact ⟨_, bind_eq_ok.mpr ⟨r, hr, rfl⟩⟩

/-- From any backlog: every later update takes its own answer exactly when neither the
backlog nor a late answer of these updates can be read in the wait of a later one. -/
theorem owned_from (c : Conf Key) {s : State Key} {us : List (Update Key)} (hb : Backlog s us)
    (ho : InOrder us) :
    AlongM (step c) Own s us ↔
      (∀ a ∈ s.inbox, ∀ u ∈ waited us, deadline c.wait u < a.arrives) ∧
        LateUnread c.wait (waited us) := by
  induction us generalizing s with
  | nil => simp [AlongM, waited, LateUnread]
  | cons u us ih =>
    cases hsent : u.sent with
    | error e =>
      have hfail : ∀ s', step c s u ≠ .ok s' := by
        intro s' hs
        have := (step_ok hs).1
        rw [hsent] at this
        cases this
      simp [AlongM, hfail, waited_of_error us hsent, LateUnread]
    | ok x =>
      obtain ⟨s', hs'⟩ := exists_step c s hsent
      have hone : AlongM (step c) Own s (u :: us) ↔ Own s u s' ∧ AlongM (step c) Own s' us := by
        constructor
        · exact fun h => h s' hs'
        · intro h t ht
          rw [hs'] at ht
          cases ht
          exact h
      rw [hone, waited_cons us hsent]
      by_cases hl : ∀ a ∈ s.inbox, deadline c.wait u < a.arrives
      · obtain ⟨hin, hown⟩ := step_own hb hl hs'
        rw [ih (hb.step ho hl hs') ho.of_cons, hin]
        simp only [List.mem_append, LateUnread, List.pairwise_cons, List.mem_cons, hown, true_and]
        constructor
        · rintro ⟨hall, hrest⟩
          refine ⟨fun a ha v hv => ?_, fun v hv a ha hlt => ?_, hrest⟩
          · rcases hv with rfl | hv
            · exact hl a ha
            · exact hall a (Or.inl ha) v hv
          · exact hall _ (Or.inr (mem_late.mpr ⟨a, ha, hlt, rfl⟩)) v hv
        · rintro ⟨hall, hu, hrest⟩
          refine ⟨fun a ha v hv => ?_, hrest⟩
          rcases ha with ha | ha
          · exact hall a ha v (Or.inr hv)
          · obtain ⟨x, hx, hlt, rfl⟩ := mem_late.mp ha
            exact hu v hv x hx hlt
      · obtain ⟨a, ha, hd⟩ : ∃ a ∈ s.inbox, a.arrives ≤ deadline c.wait u := by simpa using hl
        constructor
        · rintro ⟨hown, -⟩
          exact absurd hown (step_not_own hb ha hd hs')
        · rintro ⟨hall, -⟩
          exact absurd (hall a ha u (by simp)) (Nat.not_lt.mpr hd)

/-- **A run.** Against a node that answers in order, every update of a run is given its
own answer or none exactly when no answer that misses its own wait arrives before the
end of a later one. -/
theorem owned_iff (c : Conf Key) (preload : Nat) {us : List (Update Key)} (ho : InOrder us) :
    AlongM (step c) Own { state := seedState c preload } us ↔ LateUnread c.wait (waited us) := by
  have hb : Backlog ({ state := seedState c preload } : State Key) us := ⟨by simp, by simp, by simp⟩
  simp [owned_from c hb ho]

end Paired

/-! ## Two updates, the first given up on -/

def noops : Conf Nat :=
  { key := 7, arm := .repeatDelta, chunk := 0, salt := List.replicate 16 0, wait := seconds 90 }

/-- Update 0 at 0 s and update 1 at 90 s; the node answers the first at `first` and the
second at 100 s. -/
def twoUpdates (first : Nat) (response : Response Nat) : List (Update Nat) :=
  [⟨0, .ok (), 0, some ⟨response, first, first⟩⟩,
    ⟨seconds 90, .ok (), seconds 90,
      some ⟨.updateResponse 7 "UpdateResponse", seconds 100, seconds 100⟩⟩]

/-- Answered within its wait, an update leaves the next one its own answer. -/
theorem owned_in_time :
    AlongM (step noops) Own { state := seedState noops 0 }
      (twoUpdates (seconds 1) (.updateResponse 7 "UpdateResponse")) :=
  (owned_iff noops 0 (by simp [InOrder, twoUpdates, seconds])).mpr
    (by simp [LateUnread, waited, twoUpdates, seconds, deadline, noops, Except.isOk,
      Except.toBool])

/-- Answered at 95 s, update 0 has no sample, and its answer is the sample of update 1. -/
theorem late_answer_taken :
    run noops 0 (twoUpdates (seconds 95) (.updateResponse 7 "UpdateResponse")) =
        .ok [⟨0, 16, .failed "no response within 90 s"⟩, ⟨1, 16, .ms 5000⟩] ∧
      run noops 0 (twoUpdates (seconds 95) (.error "refused")) =
        .ok [⟨0, 16, .failed "no response within 90 s"⟩,
          ⟨1, 16, .failed "node error: refused"⟩] ∧
      ¬ AlongM (step noops) Own { state := seedState noops 0 }
        (twoUpdates (seconds 95) (.updateResponse 7 "UpdateResponse")) := by
  refine ⟨by decide +kernel, by decide +kernel, fun h => ?_⟩
  obtain ⟨-, h⟩ := h _ rfl
  obtain ⟨⟨-, hown⟩, -⟩ := h _ rfl
  exact absurd (hown _ rfl) (by decide)

end FreenetHarness.ValidateCost
