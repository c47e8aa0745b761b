import FreenetHarness.Lib.Programs
import FreenetHarness.RoundTrip

/-! # A script, a connection and a node

`bag`, `register` and `set` put one contract on a node, send it deltas and read the state
back after each. `put` and `updateNode` do so over a connection; `Heard` is the node itself,
with the reads left out that are never answered. While answers come within their waits or
never, a script goes over the connection exactly as it goes there (`connection_follows`,
`heard_follows`). -/
namespace FreenetHarness.RoundTrip
open FreenetHarness.Lib.Inbox FreenetHarness.Lib.Programs

/-- What a node with the contract's code makes of a put of a state it does not hold yet, and
of a delta. -/
structure Contract where
  create : Bytes → Option Bytes
  update : Bytes → Bytes → Bytes

/-- How a request and the get after it go: how their sends settle, the clock as each wait
begins, the node's word on the request, and when the state asked for arrives and is taken. -/
structure Meets (Key : Type) where
  sent : Except String Unit
  start : Nat
  answer : Option (Arrival (Response Key))
  no_state : ∀ a ∈ answer, ∀ key state, a.msg ≠ .getResponse key state
  getSent : Except String Unit
  getStart : Nat
  getAnswer : Option (Nat × Nat)

/-- The node's state, and the connection to it. -/
structure World (Key : Type) where
  held : Option Bytes := none
  conn : State Key := {}

variable {Key : Type}

/-- A message, as it comes. -/
def arrival (r : Response Key) (x : Nat × Nat) : Arrival (Response Key) := ⟨r, x.1, x.2⟩

/-- A node without a state answers a get with something else. -/
def stateAnswer (key : Key) : Option Bytes → Response Key
  | some s => .getResponse key s
  | none => .other

/-- A call to a node that holds this once it has handled the request. -/
def Meets.call (m : Meets Key) (key : Key) (held : Option Bytes) : Call Key where
  updateSent := m.sent
  updateStart := m.start
  updateAnswer := m.answer
  getSent := m.getSent
  getStart := m.getStart
  getAnswer := m.getAnswer.map (arrival (stateAnswer key held))
  no_state := m.no_state

/-- One receive, whatever it hands over. -/
def receiveAny (deadline : Nat) : List (Arrival (Answer Key)) → List (Arrival (Answer Key))
  | [] => []
  | a :: rest => if a.arrives ≤ deadline then rest else a :: rest

def stateOf : Option (Answer Key) → Option Bytes
  | some ⟨_, _, .getResponse _ s⟩ => some s
  | _ => none

section Scripts

variable [DecidableEq Key] (key : Key) (c : Contract) (t : Nat → Meets Key)

/-- Put a state under a new key, take one message, and read the state back. -/
def put (state : Bytes) : Program (World Key) String (Option Bytes) := do
  let w ← get
  let i := w.conn.results.length
  attempt (t i).sent
  let inbox := receiveAny ((t i).start + stepWait)
    (offered i .update (t i).answer w.conn.inbox)
  let r ← attempt (getState key i ((t i).call key (c.create state)) inbox)
  modify fun w =>
    { held := c.create state, conn := { results := w.conn.results ++ [r.1], inbox := r.2 } }
  return stateOf r.1

/-- Apply a delta and return the state the node then holds. -/
def updateNode (delta : Bytes) : Program (World Key) String (Option Bytes) := do
  let w ← get
  let held := w.held.map fun s => c.update s delta
  let i := w.conn.results.length
  let r ← attempt (update key i ((t i).call key held) w.conn.inbox)
  modify fun w => { held, conn := { results := w.conn.results ++ [r.1], inbox := r.2 } }
  return stateOf r.1

end Scripts

/-! ## At the node itself -/

/-- The node's state, and how many calls it has had. -/
structure Heard where
  held : Option Bytes := none
  calls : Nat := 0

namespace Heard

variable (c : Contract) (answered : Nat → Bool)

/-- What is read back, if the read is answered. -/
def read (s : Heard) : Option Bytes := if answered s.calls then s.held else none

def holds (s : Heard) (held : Option Bytes) : Program Heard String (Option Bytes) := do
  modify fun _ => { held, calls := s.calls + 1 }
  return read answered { s with held }

def put (state : Bytes) : Program Heard String (Option Bytes) := do
  holds answered (← get) (c.create state)

def update (delta : Bytes) : Program Heard String (Option Bytes) := do
  let s ← get
  holds answered s (s.held.map fun x => c.update x delta)

theorem exec_put (state : Bytes) (s : Heard) :
    exec (put c answered state) s =
      (.ok (if answered s.calls then c.create state else none), ⟨c.create state, s.calls + 1⟩) := rfl

theorem exec_update (delta : Bytes) (s : Heard) :
    exec (update c answered delta) s =
      (.ok (if answered s.calls then s.held.map fun x => c.update x delta else none),
        ⟨s.held.map fun x => c.update x delta, s.calls + 1⟩) := rfl

end Heard

/-! ## The connection and the node -/

/-- Answers come within their waits, or never. -/
def InTime (t : Nat → Meets Key) : Prop :=
  ∀ i, (∀ a ∈ (t i).answer, a.arrives ≤ (t i).start + stepWait) ∧
    ∀ x ∈ (t i).getAnswer, x.1 ≤ (t i).getStart + stepWait

def Sent (t : Nat → Meets Key) : Prop := ∀ i, (t i).sent = .ok () ∧ (t i).getSent = .ok ()

/-- Which reads are answered. -/
def answered (t : Nat → Meets Key) (i : Nat) : Bool := (t i).getAnswer.isSome

/-- The same state and the same calls, and nothing unread. -/
structure Level (w : World Key) (s : Heard) : Prop where
  held : w.held = s.held
  calls : w.conn.results.length = s.calls
  inbox : w.conn.inbox = []

variable [DecidableEq Key] {key : Key} {c : Contract} {t : Nat → Meets Key}

/-- The wait of a get that alone is unanswered. -/
theorem drain_get {i start : Nat} {held : Option Bytes} {answer : Option (Nat × Nat)}
    (h : ∀ x ∈ answer, x.1 ≤ start + stepWait) :
    stateOf (drain (isGet key) (start + stepWait) start
        (offered i .get (answer.map (arrival (stateAnswer key held))) [])).1 =
      if answer.isSome then held else none := by
  cases answer with
  | none => rfl
  | some x =>
    have hin : start < start + stepWait ∧
        (answerTo i .get (arrival (stateAnswer key held) x)).arrives ≤ start + stepWait :=
      ⟨Nat.lt_add_of_pos_right (by decide), h x rfl⟩
    show stateOf (drain (isGet key) _ _ [answerTo i .get (arrival (stateAnswer key held) x)]).1 = held
    unfold drain
    rw [if_pos hin]
    cases held with
    | none => rfl
    | some s => simp [answerTo, arrival, stateAnswer, isGet, stateOf]

/-- What a get reads, and what it leaves. -/
theorem getState_ok {i : Nat} {m : Meets Key} {held : Option Bytes}
    {r : Option (Answer Key) × List (Arrival (Answer Key))}
    (hin : ∀ x ∈ m.getAnswer, x.1 ≤ m.getStart + stepWait)
    (h : getState key i (m.call key held) [] = .ok r) :
    r.2 = [] ∧ stateOf r.1 = if m.getAnswer.isSome then held else none := by
  unfold getState at h
  split at h
  · cases h
  · cases h
    refine ⟨drain_one _ _ _ _ fun a ha => ?_, @drain_get _ _ key i m.getStart held m.getAnswer hin⟩
    obtain ⟨x, hx, rfl⟩ := Option.map_eq_some_iff.mp ha
    exact hin x hx

theorem afterUpdate_nil {i : Nat} {m : Meets Key} {held : Option Bytes}
    (hin : ∀ a ∈ m.answer, a.arrives ≤ m.start + stepWait) :
    afterUpdate key i (m.call key held) [] = [] := drain_one _ _ _ _ hin

omit [DecidableEq Key] in
theorem receiveAny_offered {i : Nat} {m : Meets Key}
    (hin : ∀ a ∈ m.answer, a.arrives ≤ m.start + stepWait) :
    receiveAny (m.start + stepWait) (offered i .update m.answer []) = [] := by
  cases h : m.answer with
  | none => rfl
  | some a => exact if_pos (hin a h)

/-- What a put reads. -/
theorem simulates_put (ht : InTime t) (state : Bytes) :
    Simulates Level Eq (put key c t state) (Heard.put c (answered t) state) := by
  intro w s hw r w' h
  obtain ⟨_, _, h₀, h⟩ := exec_bind_ok.mp h
  cases h₀
  obtain ⟨_, _, h₁, h⟩ := exec_bind_ok.mp h
  obtain ⟨g, _, h₂, h⟩ := exec_bind_ok.mp h
  rw [exec_attempt, Prod.mk.injEq] at h₁ h₂
  obtain ⟨-, rfl⟩ := h₁
  obtain ⟨hg, rfl⟩ := h₂
  rw [hw.inbox, receiveAny_offered (ht _).1] at hg
  obtain ⟨hleft, hread⟩ := getState_ok (ht _).2 hg
  cases h
  refine ⟨_, ⟨c.create state, s.calls + 1⟩, Heard.exec_put .., ?_, ⟨rfl, ?_, hleft⟩⟩
  · rw [hread, hw.calls]
    rfl
  · show (w.conn.results ++ [g.1]).length = s.calls + 1
    rw [List.length_append, hw.calls, List.length_singleton]

/-- What an update reads. -/
theorem simulates_update (ht : InTime t) (delta : Bytes) :
    Simulates Level Eq (updateNode key c t delta) (Heard.update c (answered t) delta) := by
  intro w s hw r w' h
  obtain ⟨_, _, h₀, h⟩ := exec_bind_ok.mp h
  cases h₀
  obtain ⟨g, _, h₁, h⟩ := exec_bind_ok.mp h
  rw [exec_attempt, Prod.mk.injEq] at h₁
  obtain ⟨hg, rfl⟩ := h₁
  cases h
  unfold update at hg
  split at hg
  · cases hg
  · rw [hw.inbox, afterUpdate_nil (ht _).1] at hg
    obtain ⟨hleft, hread⟩ := getState_ok (ht _).2 hg
    refine ⟨_, ⟨s.held.map fun x => c.update x delta, s.calls + 1⟩, Heard.exec_update .., ?_,
      ⟨congrArg (Option.map _) hw.held, ?_, hleft⟩⟩
    · rw [hread, hw.calls, hw.held]
      rfl
    · show (w.conn.results ++ [g.1]).length = s.calls + 1
      rw [List.length_append, hw.calls, List.length_singleton]

/-- A request that is sent is made. -/
theorem exists_put (hs : Sent t) (w : World Key) (state : Bytes) :
    ∃ r w', exec (put key c t state) w = (.ok r, w') := by
  have hsent := hs w.conn.results.length
  unfold put
  simp only [exec_bind, exec_get, exec_attempt, exec_modify, exec_pure, hsent.1, getState,
    Meets.call, hsent.2]
  exact ⟨_, _, rfl⟩

theorem exists_updateNode (hs : Sent t) (w : World Key) (delta : Bytes) :
    ∃ r w', exec (updateNode key c t delta) w = (.ok r, w') := by
  have hsent := hs w.conn.results.length
  unfold updateNode
  simp only [exec_bind, exec_get, exec_attempt, exec_modify, exec_pure, update, getState,
    Meets.call, hsent.1, hsent.2]
  exact ⟨_, _, rfl⟩

/-! ## Scripts -/

/-- How a script puts a state and applies a delta. -/
structure Io (σ : Type) where
  put : Bytes → Program σ String (Option Bytes)
  update : Bytes → Program σ String (Option Bytes)

variable (key c t) in
def connection : Io (World Key) where
  put := put key c t
  update := updateNode key c t

def Heard.io (c : Contract) (answered : Nat → Bool) : Io Heard where
  put := put c answered
  update := update c answered

/-- What a script works on, and the lines it has printed. -/
structure Session (σ : Type) where
  world : σ
  printed : List String := []

variable {σ τ : Type}

def println (line : String) : Program (Session σ) String Unit :=
  modify fun s => { s with printed := s.printed ++ [line] }

def on {α : Type} (x : Program σ String α) : Program (Session σ) String α :=
  focus Session.world (fun s w => { s with world := w }) x

/-- A byte string. -/
def text (s : String) : Bytes := s.toUTF8.toList

def verdict (b : Bool) : String := if b then "PASS" else "FAIL"

/-- Related, with the same lines printed. -/
def Beside (R : σ → τ → Prop) (s : Session σ) (t : Session τ) : Prop :=
  R s.world t.world ∧ s.printed = t.printed

/-- Requests that go as others do. -/
structure Io.Follows (R : σ → τ → Prop) (io : Io σ) (io' : Io τ) : Prop where
  put : ∀ state, Simulates R Eq (io.put state) (io'.put state)
  update : ∀ delta, Simulates R Eq (io.update delta) (io'.update delta)

/-- **What goes over the connection goes so at the node.** -/
theorem connection_follows (ht : InTime t) :
    Io.Follows Level (connection key c t) (Heard.io c (answered t)) :=
  ⟨simulates_put ht, simulates_update ht⟩

/-- **And the other way round**, where every request is sent. -/
theorem heard_follows (ht : InTime t) (hs : Sent t) :
    Io.Follows (fun s w => Level w s) (Heard.io c (answered t)) (connection key c t) where
  put state := by
    intro s w hw a s' h
    obtain ⟨r, w', hr⟩ := @exists_put _ _ key c t hs w state
    obtain ⟨_, s'', hs'', rfl, hw'⟩ := simulates_put ht state w s hw r w' hr
    obtain ⟨ha, rfl⟩ := Prod.mk.inj (h.symm.trans hs'')
    exact ⟨r, w', hr, Except.ok.inj ha, hw'⟩
  update delta := by
    intro s w hw a s' h
    obtain ⟨r, w', hr⟩ := @exists_updateNode _ _ key c t hs w delta
    obtain ⟨_, s'', hs'', rfl, hw'⟩ := simulates_update ht delta w s hw r w' hr
    obtain ⟨ha, rfl⟩ := Prod.mk.inj (h.symm.trans hs'')
    exact ⟨r, w', hr, Except.ok.inj ha, hw'⟩

variable {R : σ → τ → Prop}

omit [DecidableEq Key] in
theorem simulates_println (line : String) :
    Simulates (Beside R) Eq (println line : Program (Session σ) String Unit) (println line) :=
  .modify fun _ _ h => ⟨h.1, congrArg (· ++ [line]) h.2⟩

omit [DecidableEq Key] in
theorem simulates_on {α β : Type} {S : α → β → Prop} {x : Program σ String α}
    {y : Program τ String β} (h : Simulates R S x y) : Simulates (Beside R) S (on x) (on y) :=
  h.focus (fun _ _ hst => hst.1) fun _ _ hst _ _ huv => ⟨huv, hst.2⟩

/-- A connection on which every request is sent, and these gets are answered at once. -/
def prompt (answers : Nat → Bool) : Nat → Meets Nat := fun i =>
  { sent := .ok (), start := 0, answer := none, no_state := by simp, getSent := .ok (), getStart := 0
    getAnswer := if answers i then some (1, 1) else none }

theorem prompt_inTime (answers : Nat → Bool) : InTime (prompt answers) := by
  refine fun i => ⟨fun a ha => (by cases ha), fun x hx => ?_⟩
  obtain ⟨-, hx⟩ := Option.ite_none_right_eq_some.mp (Option.mem_def.mp hx)
  cases hx
  exact Nat.le_add_left 1 _

theorem prompt_sent (answers : Nat → Bool) : Sent (prompt answers) := fun _ => ⟨rfl, rfl⟩

theorem answered_prompt (answers : Nat → Bool) (i : Nat) :
    answered (prompt answers) i = answers i := by
  unfold answered prompt
  cases answers i <;> rfl

/-! ## The frame of a script -/

section Frame

variable {ρ : Type} (name line : String) (before connected : Except String Unit)

/-- What every script does around its requests. -/
def roundTrip (reads : Program (Session σ) String ρ) (passes : ρ → Bool) :
    Program (Session σ) String Unit := do
  attempt before
  println line
  attempt connected
  let r ← reads
  println ""
  println s!"{name} round-trip: {verdict (passes r)}"
  if passes r then pure () else throw s!"{name} round-trip failed"

variable {name line before connected} {reads : Program (Session σ) String ρ}
  {reads' : Program (Session τ) String ρ} {passes : ρ → Bool}

omit [DecidableEq Key] in
/-- **A script passes** where its artefact and its connection do and its reads pass. -/
theorem roundTrip_ok_iff {s : Session σ} :
    (exec (roundTrip name line before connected reads passes) s).1 = .ok () ↔
      before = .ok () ∧ connected = .ok () ∧
        ∃ r t, exec reads ⟨s.world, s.printed ++ [line]⟩ = (.ok r, t) ∧ passes r = true := by
  constructor
  · intro h
    obtain ⟨s', g⟩ : ∃ s', exec (roundTrip name line before connected reads passes) s = (.ok (), s') :=
      ⟨_, Prod.ext h rfl⟩
    obtain ⟨_, t₀, hbefore, g₀⟩ := exec_bind_ok.mp g
    obtain ⟨_, t₁, hprint, g₁⟩ := exec_bind_ok.mp g₀
    obtain ⟨_, t₂, hconn, g₂⟩ := exec_bind_ok.mp g₁
    obtain ⟨r, t₃, hr, g₃⟩ := exec_bind_ok.mp g₂
    obtain ⟨_, t₄, -, g₄⟩ := exec_bind_ok.mp g₃
    obtain ⟨_, t₅, -, g₅⟩ := exec_bind_ok.mp g₄
    rw [exec_attempt, Prod.mk.injEq] at hbefore hconn
    obtain ⟨hbefore, rfl⟩ := hbefore
    obtain ⟨hconn, rfl⟩ := hconn
    have hnamed : ⟨s.world, s.printed ++ [line]⟩ = t₁ := congrArg Prod.snd hprint
    refine ⟨hbefore, hconn, r, t₃, hnamed ▸ hr, ?_⟩
    by_contra hfail
    rw [if_neg hfail] at g₅
    cases g₅
  · intro h
    obtain ⟨hbefore, hconn, r, t, hr, hpass⟩ := h
    have hprint : exec (println line) s = (.ok (), ⟨s.world, s.printed ++ [line]⟩) := rfl
    unfold roundTrip
    rw [hbefore, hconn, attempt_ok_bind, exec_bind, hprint]
    dsimp only
    rw [attempt_ok_bind, exec_bind, hr]
    simp only [hpass]
    rfl

omit [DecidableEq Key] in
theorem simulates_roundTrip (h : Simulates (Beside R) Eq reads reads') :
    Simulates (Beside R) Eq (roundTrip name line before connected reads passes)
      (roundTrip name line before connected reads' passes) := by
  refine .bind .attempt fun _ _ _ => ?_
  refine .bind (simulates_println _) fun _ _ _ => ?_
  refine .bind .attempt fun _ _ _ => ?_
  refine .bind h fun r _ hr => hr ▸ ?_
  refine .bind (simulates_println _) fun _ _ _ => ?_
  refine .bind (simulates_println _) fun _ _ _ => ?_
  exact .ite (fun _ => .pure rfl) fun _ => .throw

omit [DecidableEq Key] in
/-- A script that passes over the connection passes at the node. -/
theorem heard_ok {reads : Program (Session (World Key)) String ρ}
    {reads' : Program (Session Heard) String ρ} (h : Simulates (Beside Level) Eq reads reads')
    (hok : (exec (roundTrip name line before connected reads passes) { world := {} }).1 = .ok ()) :
    (exec (roundTrip name line before connected reads' passes) { world := {} }).1 = .ok () := by
  obtain ⟨_, _, hs, rfl, -⟩ := simulates_roundTrip h { world := {} } { world := {} }
    ⟨⟨rfl, rfl, rfl⟩, rfl⟩ () _ (Prod.ext hok rfl)
  rw [hs]

omit [DecidableEq Key] in
theorem connection_ok {reads : Program (Session (World Key)) String ρ}
    {reads' : Program (Session Heard) String ρ}
    (h : Simulates (Beside fun s w => Level w s) Eq reads' reads)
    (hok : (exec (roundTrip name line before connected reads' passes) { world := {} }).1 = .ok ()) :
    (exec (roundTrip name line before connected reads passes) { world := {} }).1 = .ok () := by
  obtain ⟨_, _, hs, rfl, -⟩ := simulates_roundTrip h { world := {} } { world := {} }
    ⟨⟨rfl, rfl, rfl⟩, rfl⟩ () _ (Prod.ext hok rfl)
  rw [hs]

end Frame

end FreenetHarness.RoundTrip
