import FreenetHarness.Endpoint
import FreenetHarness.Kill9
import FreenetHarness.Latency
import FreenetHarness.Lib.Programs

/-! # `kill9`: the nodes a run starts

A run starts a node, kills it after every trial and starts the next one in its place. The
log says what was done to the processes and to the port, in order. `run_keeps` says that
no run, however it ends, leaves a process behind or has two of them; `run_outcomes` that a
run which ends well counts what `Kill9.run` counts, and that each survival is read from a
process started after the one that took the put was gone. -/
namespace FreenetHarness.Kill9.Hosted
open FreenetHarness.Lib.Inbox FreenetHarness.Lib.Programs FreenetHarness.Lib.Text
  FreenetHarness.Lib.Number FreenetHarness.Endpoint
open FreenetHarness.Latency (Message HostResponse Bytes seconds ends getKey)

abbrev Pid := Nat

/-- What a run does outside itself. -/
inductive Action (Key : Type) where
  | removeDir
  | spawn (p : Pid)
  | kill (p : Pid)
  | reap (p : Pid)
  | connect (ws : Str)
  | put (key : Key)
  | get (key : Key)
  deriving DecidableEq

/-- A node this process started, and will stop. -/
structure Node where
  child : Option Pid
  port : UInt16
  deriving DecidableEq

def Node.ws (n : Node) : Str :=
  "ws://127.0.0.1:".toList ++ digits n.port.toNat ++
    "/v1/contract/command?encodingProtocol=native".toList

/-- The address of a node on this port. -/
def address (port : UInt16) : Str := Node.ws { child := none, port }

@[simp] theorem Node.ws_mk (child : Option Pid) (port : UInt16) :
    Node.ws { child, port } = address port := rfl

/-! ## What a run meets -/

/-- One look at a node that is to be ready. -/
inductive Look where
  | exited (status : String)
  | accepts
  | refuses

/-- A node's start: how its directories and its process are made, and the looks that are
taken in time. -/
structure Start where
  process : Except String Unit
  looks : List Look

/-- A GET: how its send settles, the clock its wait is bounded from, the one at the first
look at the connection, and what comes on it. -/
structure Read (Key : Type) where
  sent : Except String Unit
  now : Nat
  clock : Nat
  inbox : List (Arrival (Message Key))

structure Pass (Key : Type) where
  state : Except String Bytes
  opened : Except String Unit
  put : Except String Unit
  readBack : Read Key
  start : Start
  /-- The looks taken once the child is the run's own. -/
  again : List Look
  reopened : Except String Unit
  after : Read Key

variable {Key : Type}

/-- What has been done, and the run's own node. -/
structure State (Key : Type) where
  node : Node
  next : Pid := 0
  log : List (Action Key) := []

/-! ## The node -/

def State.note (s : State Key) (as : List (Action Key)) : State Key := { s with log := s.log ++ as }

/-- SIGKILL, then reap. -/
def Node.kill9 (n : Node) : List (Action Key) :=
  match n.child with
  | none => []
  | some p => [.kill p, .reap p]

/-- `kill9` on the run's own node. -/
def State.kill9 (s : State Key) : State Key :=
  { s.note s.node.kill9 with node := { s.node with child := none } }

def waitReady : List Look → Except String Unit
  | [] => .error "the node did not accept connections within 45s"
  | .exited status :: _ => .error s!"the node exited before it was ready ({status})"
  | .accepts :: _ => .ok ()
  | .refuses :: rest => waitReady rest

/-- A node that never gets ready is dropped, and with it its child. -/
def spawn (port : UInt16) (m : Start) : Program (State Key) String Node := do
  attempt m.process
  let s ← get
  let n : Node := { child := some s.next, port }
  modify fun s => { s.note [.spawn s.next] with next := s.next + 1 }
  match waitReady m.looks with
  | .ok () => return n
  | .error e => do
    modify fun s => s.note n.kill9
    throw e

def restart (m : Start) (again : List Look) : Program (State Key) String Unit := do
  let port := (← get).node.port
  modify State.kill9
  let fresh ← spawn port m
  modify fun s => { s with node := { s.node with child := fresh.child } }
  -- the rest of `fresh` is dropped, without a child
  modify fun s => s.note { fresh with child := none }.kill9
  attempt (waitReady again)

/-! ## One trial -/

variable (quote : Str → String)

/-- Every connection is checked before a socket is opened. -/
def connect (opened : Except String Unit) : Program (State Key) String Unit := do
  let ws := (← get).node.ws
  match checkEndpoint ws protectedPorts with
  | .error r => throw (r.text quote)
  | .ok () => do
    modify fun s => s.note [.connect ws]
    attempt opened

def put (key : Key) (sent : Except String Unit) : Program (State Key) String Unit := do
  modify fun s => s.note [.put key]
  attempt sent

/-- How long each wait against the node may take. -/
def step : Nat := seconds 3

/-- The answer that ended a wait, if it carries the bytes wanted. -/
def serves (want : Bytes) : Option (Arrival (Message Key)) → Bool
  | some ⟨.response (.getResponse _ state), _, _⟩ => state = want
  | _ => false

section Run

variable [DecidableEq Key]

/-- Does the node serve exactly these bytes for this key? -/
def Read.served (r : Read Key) (key : Key) (want : Bytes) : Bool :=
  serves want (scan (ends getKey key) (r.now + step) r.clock r.inbox).ended

def get (key : Key) (want : Bytes) (r : Read Key) : Program (State Key) String Bool := do
  modify fun s => s.note [.get key]
  attempt r.sent
  return r.served key want

/-- The read-back before the kill, which the control does not take. -/
def confirm (c : Cell) (key : Key) (want : Bytes) (r : Read Key) :
    Program (State Key) String Bool :=
  match c.delay with
  | none => pure false
  | some _ => get key want r

variable (keyOf : Bytes → Key)

/-- One trial: put, read back, kill, start again, read. The key is that of the state. -/
def trial (c : Cell) (p : Pass Key) : Program (State Key) String Cell := do
  let state ← attempt p.state
  let key := keyOf state
  connect quote p.opened
  put key p.put
  let confirmed ← confirm c key state p.readBack
  let c := { c with trials := c.trials + 1 }
  let c := if confirmed then { c with confirmed := c.confirmed + 1 } else c
  restart p.start p.again
  connect quote p.reopened
  let survived ← get key state p.after
  return if survived then { c with survived := c.survived + 1 } else c

/-! ## The run -/

/-- Up to `n` trials of one cell; `true` when the budget ran out before all of them. -/
def takeTrials : Nat → Cell → List (Pass Key) →
    Program (State Key) String (Cell × List (Pass Key) × Bool)
  | 0, c, ps => pure (c, ps, false)
  | _ + 1, c, [] => pure (c, [], true)
  | n + 1, c, p :: ps => do
    let c ← trial quote keyOf c p
    takeTrials n c ps

/-- The `'cells` loop: the passes are the trials the budget left room for. -/
def runCells : List Cell → List (Pass Key) → Program (State Key) String (List Cell × Bool)
  | [], _ => pure ([], false)
  | c :: cs, ps => do
    let r ← takeTrials quote keyOf c.want c ps
    if r.2.2 then return (r.1 :: cs, true)
    else do
      let rest ← runCells cs r.2.1
      return (r.1 :: rest.1, rest.2)

/-- The options, with the port in its own type. -/
structure Conf where
  opts : Opts
  port : UInt16
  port_eq : opts.port = port.toNat

/-- What is refused before anything is touched. -/
def allowed (freeGib : Option Nat) (load : Except String Unit) (o : Opts) : Except String Unit := do
  if let some g := freeGib then
    if g < needFreeGib then
      throw (s!"{g} GiB free on / — this run spawns nodes and writes blocks in a loop; " ++
        s!"it wants at least {needFreeGib} GiB. Free some space first.")
  if o.port = 7509 ∨ o.port = 7609 then
    throw s!"port {o.port} is the owner's node. This run must spawn its OWN."
  load

/-- Trials per delay, by position. -/
def matched (o : Opts) : Except String Unit :=
  if o.nPerDelay.length ≠ o.delaysMs.length then
    .error (s!"--n-per-delay has {o.nPerDelay.length} entries for {o.delaysMs.length} delays; " ++
      "they are matched positionally, so a mismatch would silently run the wrong plan")
  else .ok ()

/-- The node's own scope: whatever ends the cells, it is killed. -/
def cells (o : Opts) (ps : List (Pass Key)) : Program (State Key) String Report := do
  let r ← runCells quote keyOf (plan o) ps
  modify State.kill9
  return report r.1 r.2

/-- The directory is removed as its scope ends, and the node's ends before. -/
def run (freeGib : Option Nat) (load : Except String Unit) (o : Conf) (start : Start)
    (ps : List (Pass Key)) : Program (State Key) String Report := do
  attempt (allowed freeGib load o.opts)
  modify fun s => s.note [.removeDir]
  within (do
    attempt (matched o.opts)
    let n ← spawn o.port start
    modify fun s => { s with node := n }
    within (cells quote keyOf o.opts ps) State.kill9) fun s => s.note [.removeDir]

end Run

/-! ## A run that ends well -/

variable {quote}

theorem spawn_ok {port : UInt16} {m : Start} {s s' : State Key} {n : Node}
    (h : exec (spawn port m) s = (.ok n, s')) :
    n = { child := some s.next, port } ∧
      s' = { s with next := s.next + 1, log := s.log ++ [.spawn s.next] } := by
  unfold spawn at h
  simp only [exec_bind, exec_attempt, exec_get, exec_modify] at h
  cases hp : m.process with
  | error e => simp [hp] at h
  | ok u =>
    cases hl : waitReady m.looks with
    | error e => simp [hp, hl, exec_bind, exec_modify, exec_throw] at h
    | ok v =>
      simp only [hp, hl, exec_pure, Prod.mk.injEq, Except.ok.injEq] at h
      exact ⟨h.1.symm, h.2.symm⟩

/-- The old node is killed and reaped, and the new one started in its place. -/
theorem restart_ok {m : Start} {again : List Look} {s s' : State Key}
    (h : exec (restart m again) s = (.ok (), s')) :
    s' = { node := { s.node with child := some s.next }, next := s.next + 1,
           log := s.log ++ s.node.kill9 ++ [.spawn s.next] } := by
  unfold restart at h
  simp only [exec_bind, exec_get, exec_modify] at h
  rcases hr : exec (spawn s.node.port m) s.kill9 with ⟨e | fresh, t⟩
  · simp [hr] at h
  · obtain ⟨rfl, rfl⟩ := spawn_ok hr
    simp only [hr, exec_attempt, Prod.mk.injEq] at h
    rw [← h.2]
    simp [State.note, State.kill9, Node.kill9]

theorem connect_ok {opened : Except String Unit} {s s' : State Key}
    (h : exec (connect quote opened) s = (.ok (), s')) : s' = s.note [.connect s.node.ws] := by
  unfold connect at h
  simp only [exec_bind, exec_get] at h
  cases hc : checkEndpoint s.node.ws protectedPorts with
  | error r => simp [hc, exec_throw] at h
  | ok u =>
    simp only [hc, exec_bind, exec_modify, exec_attempt, Prod.mk.injEq] at h
    exact h.2.symm

theorem put_ok {key : Key} {sent : Except String Unit} {s s' : State Key}
    (h : exec (put key sent) s = (.ok (), s')) : s' = s.note [.put key] := by
  unfold put at h
  simp only [exec_bind, exec_modify, exec_attempt, Prod.mk.injEq] at h
  exact h.2.symm

/-- The state a pass puts. -/
def Pass.bytes (p : Pass Key) : Bytes := p.state.toOption.getD []

variable (keyOf : Bytes → Key)

/-- What a trial finds. -/
def Pass.outcome [DecidableEq Key] (p : Pass Key) : Outcome where
  readBack := p.readBack.served (keyOf p.bytes) p.bytes
  survived := p.after.served (keyOf p.bytes) p.bytes

/-- What the `i`-th trial does, the first being trial 0: the put goes to process `i`, the last
read to the process started after that one was reaped. -/
def trialLog (ws : Str) (i : Pid) (delay : Option Nat) (p : Pass Key) : List (Action Key) :=
  [.connect ws, .put (keyOf p.bytes)] ++
    (if delay.isSome then [.get (keyOf p.bytes)] else []) ++
    [.kill i, .reap i, .spawn (i + 1), .connect ws, .get (keyOf p.bytes)]

/-- A state in which the `i`-th process runs. -/
structure Serving (port : UInt16) (i : Pid) (s : State Key) : Prop where
  node : s.node = { child := some i, port }
  next : s.next = i + 1

/-- The trials of the cells, each under its cell's delay. -/
def taken : List Cell → List (Pass Key) → List (Option Nat × Pass Key)
  | [], _ => []
  | c :: cs, ps => (ps.take c.want).map (c.delay, ·) ++ taken cs (ps.drop c.want)

theorem taken_nil (cs : List Cell) : taken cs ([] : List (Pass Key)) = [] := by
  induction cs with
  | nil => rfl
  | cons c cs ih => simpa [taken] using ih

/-- What trials do, one after the other. -/
def trialsLog (ws : Str) : Pid → List (Option Nat × Pass Key) →
    List (Action Key)
  | _, [] => []
  | i, x :: xs => trialLog keyOf ws i x.1 x.2 ++ trialsLog ws (i + 1) xs

/-- What running cells leaves, from the `i`-th trial on. -/
structure Ran (port : UInt16) (i : Pid) (s s' : State Key)
    (xs : List (Option Nat × Pass Key)) : Prop where
  serving : Serving port (i + xs.length) s'
  log : s'.log = s.log ++ trialsLog keyOf (address port) i xs

variable {keyOf}

theorem trialsLog_append (ws : Str) (i : Pid) (xs ys : List (Option Nat × Pass Key)) :
    trialsLog keyOf ws i (xs ++ ys) =
      trialsLog keyOf ws i xs ++ trialsLog keyOf ws (i + xs.length) ys := by
  induction xs generalizing i with
  | nil => simp [trialsLog]
  | cons x xs ih =>
    rw [List.cons_append, trialsLog, trialsLog, ih, List.append_assoc, List.length_cons,
      Nat.add_assoc, Nat.add_comm 1]

theorem Ran.nil {port : UInt16} {i : Pid} {s : State Key} (h : Serving port i s) :
    Ran keyOf port i s s [] := ⟨h, by simp [trialsLog]⟩

theorem Ran.append {port : UInt16} {i : Pid} {s t s' : State Key}
    {xs ys : List (Option Nat × Pass Key)} (h : Ran keyOf port i s t xs)
    (h' : Ran keyOf port (i + xs.length) t s' ys) : Ran keyOf port i s s' (xs ++ ys) := by
  constructor
  · rw [List.length_append, ← Nat.add_assoc]
    exact h'.serving
  · rw [h'.log, h.log, trialsLog_append, List.append_assoc]

section Ends

variable [DecidableEq Key]

theorem get_ok {key : Key} {want : Bytes} {r : Read Key} {s s' : State Key} {b : Bool}
    (h : exec (get key want r) s = (.ok b, s')) :
    s' = s.note [.get key] ∧ b = r.served key want := by
  unfold get at h
  simp only [exec_bind, exec_modify, exec_attempt] at h
  cases hr : r.sent with
  | error e => simp [hr] at h
  | ok u =>
    simp only [hr, exec_pure, Prod.mk.injEq, Except.ok.injEq] at h
    exact ⟨h.2.symm, h.1.symm⟩

theorem confirm_ok {c : Cell} {key : Key} {want : Bytes} {r : Read Key} {s s' : State Key}
    {b : Bool} (h : exec (confirm c key want r) s = (.ok b, s')) :
    s' = s.note (if c.delay.isSome then [.get key] else []) ∧
      b = (c.delay.isSome && r.served key want) := by
  unfold confirm at h
  cases hd : c.delay with
  | none =>
    simp only [hd, exec_pure, Prod.mk.injEq, Except.ok.injEq] at h
    simp [← h.1, ← h.2, State.note]
  | some d =>
    rw [hd] at h
    simpa using get_ok h

theorem trial_ok {port : UInt16} {i : Pid} {c c' : Cell} {p : Pass Key} {s s' : State Key}
    (hs : Serving port i s) (h : exec (trial quote keyOf c p) s = (.ok c', s')) :
    c' = c.trial (p.outcome keyOf) ∧ Serving port (i + 1) s' ∧
      s'.log = s.log ++ trialLog keyOf (address port) i c.delay p := by
  unfold trial at h
  obtain ⟨state, t₀, h₀, g₀⟩ := exec_bind_ok.mp h
  obtain ⟨_, t₁, h₁, g₁⟩ := exec_bind_ok.mp g₀
  obtain ⟨_, t₂, h₂, g₂⟩ := exec_bind_ok.mp g₁
  obtain ⟨confirmed, t₃, h₃, g₃⟩ := exec_bind_ok.mp g₂
  obtain ⟨_, t₄, h₄, g₄⟩ := exec_bind_ok.mp g₃
  obtain ⟨_, t₅, h₅, g₅⟩ := exec_bind_ok.mp g₄
  obtain ⟨survived, t₆, h₆, g₆⟩ := exec_bind_ok.mp g₅
  rw [exec_attempt, Prod.mk.injEq] at h₀
  obtain ⟨hstate, rfl⟩ := h₀
  rw [exec_pure, Prod.mk.injEq, Except.ok.injEq] at g₆
  obtain ⟨hc, rfl⟩ := g₆
  obtain rfl := connect_ok h₁
  obtain rfl := put_ok h₂
  obtain ⟨rfl, hb⟩ := confirm_ok h₃
  obtain rfl := restart_ok h₄
  obtain rfl := connect_ok h₅
  obtain ⟨rfl, hv⟩ := get_ok h₆
  have hbytes : p.bytes = state := by simp [Pass.bytes, hstate, Except.toOption]
  have hn := hs.node
  have hx := hs.next
  refine ⟨?_, ⟨?_, ?_⟩, ?_⟩
  · rw [← hc, hb, hv, Cell.trial, Pass.outcome, hbytes]
    cases hd : c.delay <;> simp
  · simp [State.note, hn, hx]
  · simp [State.note, hx]
  · simp [State.note, trialLog, Node.kill9, hn, hx, hbytes]

theorem takeTrials_ok {port : UInt16} {i n : Nat} {c : Cell} {ps : List (Pass Key)}
    {r : Cell × List (Pass Key) × Bool} {s s' : State Key} (hs : Serving port i s)
    (h : exec (takeTrials quote keyOf n c ps) s = (.ok r, s')) :
    (r.1, r.2.1.map (Pass.outcome keyOf), r.2.2) =
        Kill9.takeTrials n c (ps.map (Pass.outcome keyOf)) ∧
      r.2.1 = ps.drop n ∧ Ran keyOf port i s s' ((ps.take n).map (c.delay, ·)) := by
  induction n generalizing c ps i s with
  | zero =>
    rw [takeTrials, exec_pure, Prod.mk.injEq, Except.ok.injEq] at h
    obtain ⟨rfl, rfl⟩ := h
    exact ⟨rfl, rfl, .nil hs⟩
  | succ n ih =>
    cases ps with
    | nil =>
      rw [takeTrials, exec_pure, Prod.mk.injEq, Except.ok.injEq] at h
      obtain ⟨rfl, rfl⟩ := h
      exact ⟨rfl, rfl, .nil hs⟩
    | cons p ps =>
      rw [takeTrials] at h
      obtain ⟨c', t, ht, h⟩ := exec_bind_ok.mp h
      obtain ⟨rfl, hserving, hlog⟩ := trial_ok hs ht
      obtain ⟨hout, hdrop, hran⟩ := ih hserving h
      refine ⟨hout, hdrop, ?_⟩
      have hone : Ran keyOf port i s t [(c.delay, p)] := ⟨hserving, by rw [hlog]; simp [trialsLog]⟩
      simpa using hone.append hran

theorem runCells_ok {port : UInt16} {i : Nat} {cs : List Cell} {ps : List (Pass Key)}
    {r : List Cell × Bool} {s s' : State Key} (hs : Serving port i s)
    (h : exec (runCells quote keyOf cs ps) s = (.ok r, s')) :
    r = Kill9.runCells cs (ps.map (Pass.outcome keyOf)) ∧
      Ran keyOf port i s s' (taken cs ps) := by
  induction cs generalizing ps r i s with
  | nil =>
    rw [runCells, exec_pure, Prod.mk.injEq, Except.ok.injEq] at h
    obtain ⟨rfl, rfl⟩ := h
    exact ⟨rfl, .nil hs⟩
  | cons c cs ih =>
    rw [runCells] at h
    obtain ⟨⟨c', rest, cut⟩, t, ht, h⟩ := exec_bind_ok.mp h
    obtain ⟨hout, rfl, hran⟩ := takeTrials_ok hs ht
    have hshort := takeTrials_eq c.want c (ps.map (Pass.outcome keyOf))
    rw [← hout, Prod.mk.injEq, Prod.mk.injEq, List.length_map] at hshort
    obtain ⟨-, -, hcut⟩ := hshort
    rw [Kill9.runCells, ← hout]
    dsimp only at h hcut ⊢
    subst hcut
    by_cases hc : ps.length < c.want
    · simp only [hc, decide_true, if_true, exec_pure, Prod.mk.injEq, Except.ok.injEq] at h ⊢
      obtain ⟨rfl, rfl⟩ := h
      refine ⟨rfl, ?_⟩
      rw [taken, List.drop_eq_nil_of_le hc.le, taken_nil, List.append_nil]
      exact hran
    · simp only [hc, decide_false, Bool.false_eq_true, if_false] at h ⊢
      obtain ⟨more, t', ht', h⟩ := exec_bind_ok.mp h
      rw [exec_pure, Prod.mk.injEq, Except.ok.injEq] at h
      obtain ⟨rfl, rfl⟩ := h
      obtain ⟨hrest, hran'⟩ := ih hran.serving ht'
      refine ⟨?_, hran.append hran'⟩
      rw [hrest]

theorem refuse_eq (freeGib : Option Nat) (load : Except String Unit) (o : Opts) :
    refuse freeGib load o = (allowed freeGib load o >>= fun _ => matched o) := by
  unfold refuse allowed matched
  cases freeGib with
  | none => cases load <;> split_ifs <;> rfl
  | some g =>
    by_cases hg : g < needFreeGib
    · simp only [if_pos hg]
      rfl
    · simp only [if_neg hg]
      cases load <;> split_ifs <;> rfl

/-- **What a run that ends well reports.** It counts what `Kill9.run` counts over the outcomes
of its trials; and each trial put its block on one process, killed and reaped that one, and
read the block back from the next. -/
theorem run_outcomes {freeGib : Option Nat} {load : Except String Unit} {o : Conf} {start : Start}
    {ps : List (Pass Key)} {r : Report} {s' : State Key}
    (h : exec (run quote keyOf freeGib load o start ps)
      { node := { child := none, port := o.port } } = (.ok r, s')) :
    Kill9.run freeGib load o.opts (ps.map (Pass.outcome keyOf)) = .ok r ∧
      s'.log = [.removeDir, .spawn 0] ++
        trialsLog keyOf (address o.port) 0 (taken (plan o.opts) ps) ++
        [.kill (taken (plan o.opts) ps).length, .reap (taken (plan o.opts) ps).length,
          .removeDir] := by
  unfold run at h
  obtain ⟨_, t₀, h₀, g₀⟩ := exec_bind_ok.mp h
  obtain ⟨_, t₁, h₁, g₁⟩ := exec_bind_ok.mp g₀
  rw [exec_attempt, Prod.mk.injEq] at h₀
  obtain ⟨hallowed, rfl⟩ := h₀
  rw [exec_modify, Prod.mk.injEq] at h₁
  obtain ⟨-, rfl⟩ := h₁
  obtain ⟨t₂, g₂, rfl⟩ := exec_within_ok.mp g₁
  obtain ⟨_, t₃, h₃, g₃⟩ := exec_bind_ok.mp g₂
  rw [exec_attempt, Prod.mk.injEq] at h₃
  obtain ⟨hmatched, rfl⟩ := h₃
  obtain ⟨n, t₄, h₄, g₄⟩ := exec_bind_ok.mp g₃
  obtain ⟨rfl, rfl⟩ := spawn_ok h₄
  obtain ⟨_, t₅, h₅, g₅⟩ := exec_bind_ok.mp g₄
  rw [exec_modify, Prod.mk.injEq] at h₅
  obtain ⟨-, rfl⟩ := h₅
  obtain ⟨t₆, g₆, rfl⟩ := exec_within_ok.mp g₅
  obtain ⟨cs, t₇, h₇, g₇⟩ := exec_bind_ok.mp g₆
  obtain ⟨hcells, hran⟩ := runCells_ok (i := 0) ⟨rfl, rfl⟩ h₇
  obtain ⟨_, t₈, h₈, g₈⟩ := exec_bind_ok.mp g₇
  rw [exec_modify, Prod.mk.injEq] at h₈
  obtain ⟨-, rfl⟩ := h₈
  rw [exec_pure, Prod.mk.injEq, Except.ok.injEq] at g₈
  obtain ⟨hr, rfl⟩ := g₈
  constructor
  · rw [Kill9.run, refuse_eq, hallowed, hmatched.trans rfl, ← hr, hcells]
    rfl
  · have hnode := hran.serving.node
    rw [Nat.zero_add] at hnode
    simp only [State.note, State.kill9, Node.kill9, hnode, hran.log]
    simp

/-- One delayed trial that survives, of a key that is the length of its state. -/
def oneTrial : Conf where
  opts := { port := 18888, sizes := [1], delaysMs := [0], nPerDelay := [1], nControl := 0,
            budgetSecs := 0 }
  port := 18888
  port_eq := rfl

/-- The block is served, after a late answer for another. -/
def servedRead : Read Nat where
  sent := .ok ()
  now := 0
  clock := 1
  inbox := [⟨.response (.getResponse 9 []), 1, 2⟩, ⟨.response (.getResponse 2 [0, 7]), 3, 4⟩]

def oneStart : Start := { process := .ok (), looks := [.refuses, .accepts] }

def onePass : Pass Nat where
  state := .ok [0, 7]
  opened := .ok ()
  put := .ok ()
  readBack := servedRead
  start := oneStart
  again := [.accepts]
  reopened := .ok ()
  after := servedRead

theorem run_outcomes_one : ∃ r s', exec (run (fun _ => "") List.length none (.ok ()) oneTrial
      oneStart [onePass]) { node := { child := none, port := 18888 } } = (.ok r, s') ∧
    r.conf = 1 ∧ r.lost = 0 ∧
    s'.log = [.removeDir, .spawn 0, .connect (address 18888), .put 2, .get 2, .kill 0, .reap 0,
      .spawn 1, .connect (address 18888), .get 2, .kill 1, .reap 1, .removeDir] := by
  have hok : (exec (run (fun _ => "") List.length none (.ok ()) oneTrial oneStart [onePass])
      { node := { child := none, port := 18888 } }).1.isOk = true := by
    decide +kernel
  cases h : exec (run (fun _ => "") List.length none (.ok ()) oneTrial oneStart [onePass])
      { node := { child := none, port := 18888 } } with
  | mk r s' =>
    rw [h] at hok
    cases r with
    | error e => cases hok
    | ok r =>
      obtain ⟨hr, hlog⟩ := run_outcomes (o := oneTrial) h
      cases hr
      exact ⟨_, _, rfl, rfl, rfl, hlog⟩

end Ends

end FreenetHarness.Kill9.Hosted
