import FreenetHarness.Kill9.Node

/-! # One node at a time

`Place` is what a run's nodes are to an observer: one place that a process is started in,
killed in and reaped from, before the next one is started. A log that this machine follows
starts, kills and reaps every process once and in order (`follows_life`), and `run_keeps`
says that every run's log is one, to its end. -/
namespace FreenetHarness.Kill9.Hosted
open FreenetHarness.Lib.Programs FreenetHarness.Lib.Text FreenetHarness.Lib.Number
  FreenetHarness.Endpoint
open FreenetHarness.Latency (Bytes)

/-! ## The place of a node -/

inductive Phase where
  | idle
  | running (p : Pid)
  | dying (p : Pid)
  deriving DecidableEq

structure Place where
  phase : Phase := .idle
  next : Pid := 0
  deriving DecidableEq

def Phase.isRunning : Phase → Bool
  | .running _ => true
  | _ => false

variable {Key : Type}

/-- The moves of the place; only a running node is used, and only at its own address. -/
def Place.move (ws : Str) (w : Place) : Action Key → Option Place
  | .removeDir => if w.phase = .idle then some w else none
  | .spawn p => if w.phase = .idle ∧ p = w.next then some ⟨.running p, p + 1⟩ else none
  | .kill p => if w.phase = .running p then some { w with phase := .dying p } else none
  | .reap p => if w.phase = .dying p then some { w with phase := .idle } else none
  | .connect u => if w.phase.isRunning ∧ u = ws then some w else none
  | .put _ => if w.phase.isRunning then some w else none
  | .get _ => if w.phase.isRunning then some w else none

def Place.follows (ws : Str) (w : Place) (log : List (Action Key)) : Option Place :=
  log.foldlM (Place.move ws) w

/-! ## What a log says -/

def Action.spawned : Action Key → Option Pid
  | .spawn p => some p
  | _ => none

def Action.killed : Action Key → Option Pid
  | .kill p => some p
  | _ => none

def Action.reaped : Action Key → Option Pid
  | .reap p => some p
  | _ => none

/-- A request to the node, or a connection to it. -/
def Action.uses : Action Key → Bool
  | .connect _ => true
  | .put _ => true
  | .get _ => true
  | _ => false

def spawned (log : List (Action Key)) : List Pid := log.filterMap Action.spawned

def killed (log : List (Action Key)) : List Pid := log.filterMap Action.killed

def reaped (log : List (Action Key)) : List Pid := log.filterMap Action.reaped

/-- The processes a place has had, those killed there and those reaped from it. -/
structure Life (w : Place) (log : List (Action Key)) : Prop where
  spawned : spawned log = List.range w.next
  killed : killed log = List.range (w.next - if w.phase.isRunning then 1 else 0)
  reaped : reaped log = List.range (w.next - if w.phase = .idle then 0 else 1)
  /-- The process in the place is the last one started. -/
  last : ∀ p, w.phase = .running p ∨ w.phase = .dying p → w.next = p + 1

theorem spawned_concat (log : List (Action Key)) (a : Action Key) :
    Hosted.spawned (log ++ [a]) = Hosted.spawned log ++ a.spawned.toList := by
  rw [Hosted.spawned, List.filterMap_append]
  cases h : a.spawned <;> simp [h, Hosted.spawned]

theorem killed_concat (log : List (Action Key)) (a : Action Key) :
    Hosted.killed (log ++ [a]) = Hosted.killed log ++ a.killed.toList := by
  rw [Hosted.killed, List.filterMap_append]
  cases h : a.killed <;> simp [h, Hosted.killed]

theorem reaped_concat (log : List (Action Key)) (a : Action Key) :
    Hosted.reaped (log ++ [a]) = Hosted.reaped log ++ a.reaped.toList := by
  rw [Hosted.reaped, List.filterMap_append]
  cases h : a.reaped <;> simp [h, Hosted.reaped]

/-- What does nothing to a process leaves the place as it is. -/
theorem Life.same {w : Place} {log : List (Action Key)} (h : Life w log) {a : Action Key}
    (hs : a.spawned = none) (hk : a.killed = none) (hr : a.reaped = none) :
    Life w (log ++ [a]) := by
  refine ⟨?_, ?_, ?_, h.last⟩
  · rw [spawned_concat, hs, h.spawned, Option.toList_none, List.append_nil]
  · rw [killed_concat, hk, h.killed, Option.toList_none, List.append_nil]
  · rw [reaped_concat, hr, h.reaped, Option.toList_none, List.append_nil]

theorem Life.move {ws : Str} {w w' : Place} {log : List (Action Key)} (h : Life w log)
    {a : Action Key} (hm : w.move ws a = some w') : Life w' (log ++ [a]) := by
  cases a with
  | spawn p =>
    simp only [Place.move, Option.ite_none_right_eq_some, Option.some.injEq] at hm
    obtain ⟨⟨hi, rfl⟩, rfl⟩ := hm
    have hk := h.killed
    have hr := h.reaped
    rw [hi] at hk hr
    refine ⟨?_, ?_, ?_, ?_⟩
    · rw [spawned_concat, h.spawned, List.range_succ]
      rfl
    · rw [killed_concat, hk]
      simp [Action.killed, Phase.isRunning]
    · rw [reaped_concat, hr]
      simp [Action.reaped]
    · simp
  | kill p =>
    simp only [Place.move, Option.ite_none_right_eq_some, Option.some.injEq] at hm
    obtain ⟨hi, rfl⟩ := hm
    have hn := h.last p (.inl hi)
    have hk := h.killed
    have hr := h.reaped
    rw [hi] at hk hr
    refine ⟨?_, ?_, ?_, ?_⟩
    · rw [spawned_concat, h.spawned]
      simp [Action.spawned]
    · rw [killed_concat, hk]
      simp [Action.killed, Phase.isRunning, hn, List.range_succ]
    · rw [reaped_concat, hr]
      simp [Action.reaped]
    · simpa using hn
  | reap p =>
    simp only [Place.move, Option.ite_none_right_eq_some, Option.some.injEq] at hm
    obtain ⟨hi, rfl⟩ := hm
    have hn := h.last p (.inr hi)
    have hk := h.killed
    have hr := h.reaped
    rw [hi] at hk hr
    refine ⟨?_, ?_, ?_, ?_⟩
    · rw [spawned_concat, h.spawned]
      simp [Action.spawned]
    · rw [killed_concat, hk]
      simp [Action.killed, Phase.isRunning]
    · rw [reaped_concat, hr]
      simp [Action.reaped, hn, List.range_succ]
    · simp
  | removeDir =>
    simp only [Place.move, Option.ite_none_right_eq_some, Option.some.injEq] at hm
    exact hm.2 ▸ h.same rfl rfl rfl
  | connect u =>
    simp only [Place.move, Option.ite_none_right_eq_some, Option.some.injEq] at hm
    exact hm.2 ▸ h.same rfl rfl rfl
  | put key =>
    simp only [Place.move, Option.ite_none_right_eq_some, Option.some.injEq] at hm
    exact hm.2 ▸ h.same rfl rfl rfl
  | get key =>
    simp only [Place.move, Option.ite_none_right_eq_some, Option.some.injEq] at hm
    exact hm.2 ▸ h.same rfl rfl rfl

theorem follows_append (ws : Str) (w : Place) (log log' : List (Action Key)) :
    w.follows ws (log ++ log') = (w.follows ws log).bind fun w => w.follows ws log' :=
  List.foldlM_append

/-- A log followed to its end is followed to each of its points. -/
theorem follows_cut {ws : Str} {w w' : Place} {log log' : List (Action Key)}
    (h : w.follows ws (log ++ log') = some w') :
    ∃ v, w.follows ws log = some v ∧ v.follows ws log' = some w' := by
  rw [follows_append] at h
  exact Option.bind_eq_some_iff.mp h

/-- **What a log that is followed says** of the processes. -/
theorem follows_life {ws : Str} {w : Place} {log : List (Action Key)}
    (h : ({} : Place).follows ws log = some w) : Life w log := by
  induction log using List.reverseRecOn generalizing w with
  | nil =>
    cases h
    exact ⟨rfl, rfl, rfl, by simp⟩
  | append_singleton log a ih =>
    obtain ⟨v, hv, hm⟩ := follows_cut h
    have hm : v.move ws a = some w := by simpa [Place.follows] using hm
    exact (ih hv).move hm

/-! ## What a run keeps -/

/-- A log that leaves nothing behind, and never had two processes at once. -/
structure Orderly (port : UInt16) (log : List (Action Key)) : Prop where
  /-- Every process started is killed and reaped, once and in order. -/
  gone : ∃ n, spawned log = List.range n ∧ killed log = List.range n ∧ reaped log = List.range n
  /-- The next is started when the last is reaped. -/
  alone : ∀ pre p, pre ++ [.spawn p] <+: log → reaped pre = spawned pre
  /-- What is asked of the node is asked while one is running. -/
  served : ∀ pre a, pre ++ [a] <+: log → a.uses = true →
    ∃ p, spawned pre = killed pre ++ [p] ∧ reaped pre = killed pre
  /-- The directory is not taken from a running node. -/
  cleared : ∀ pre, pre ++ [.removeDir] <+: log → reaped pre = spawned pre
  /-- The node is the run's own. -/
  own : ∀ ws, .connect ws ∈ log → endpointPort ws = .ok port ∧ port ∉ protectedPorts

/-- The address, taken apart. -/
def url (port : UInt16) : Url where
  scheme := .ws
  userinfo := none
  host := .name "127.0.0.1".toList (by simp [isDelimiter]) (by simp)
  port := some { digits := digits port.toNat, isDigit := fun _ => digits_isDigit }
  plain h := nomatch h
  tail := ⟨'/' :: "v1/contract/command?encodingProtocol=native".toList, by simp [isDelimiter]⟩

theorem address_eq (port : UInt16) : address port = (url port).render := by
  have hhead : "ws://127.0.0.1:".toList = "ws://".toList ++ ("127.0.0.1".toList ++ [':']) := by
    decide
  have htail : "/v1/contract/command?encodingProtocol=native".toList =
      '/' :: "v1/contract/command?encodingProtocol=native".toList := by
    decide
  unfold address Node.ws url Url.render Url.authority Url.hostPort Scheme.text Host.text Port.text
  dsimp only
  rw [hhead, htail]
  simp only [List.append_assoc, List.singleton_append, Bool.false_eq_true, if_false,
    List.nil_append]

theorem endpointPort_address (port : UInt16) : endpointPort (address port) = .ok port := by
  rw [address_eq, endpointPort_eq_ok]
  refine ⟨_, rfl, digits_ne_nil _, ?_⟩
  simp [Port.value, digits]

theorem orderly_of_follows {port : UInt16} {w : Place} {log : List (Action Key)}
    (h : ({} : Place).follows (address port) log = some w) (hw : w.phase = .idle)
    (hown : log ≠ [] → port ∉ protectedPorts) : Orderly port log := by
  have hcut : ∀ pre a, pre ++ [a] <+: log → ∃ v v', ({} : Place).follows (address port) pre = some v ∧
      v.move (address port) a = some v' := by
    rintro pre a ⟨rest, hrest⟩
    rw [← hrest, List.append_assoc] at h
    obtain ⟨v, hv, h⟩ := follows_cut h
    obtain ⟨v', hv', -⟩ := follows_cut h
    exact ⟨v, v', hv, by simpa [Place.follows] using hv'⟩
  have hidle : ∀ {pre : List (Action Key)} {v : Place},
      ({} : Place).follows (address port) pre = some v → v.phase = .idle →
      reaped pre = spawned pre := by
    intro pre v hv hi
    have hlife := follows_life hv
    rw [hlife.reaped, hlife.spawned, hi]
    simp
  refine ⟨?_, ?_, ?_, ?_, ?_⟩
  · have hlife := follows_life h
    refine ⟨w.next, hlife.spawned, ?_, ?_⟩
    · rw [hlife.killed, hw]
      simp [Phase.isRunning]
    · rw [hlife.reaped, hw]
      simp
  · intro pre p hp
    obtain ⟨v, v', hv, hm⟩ := hcut pre _ hp
    simp only [Place.move, Option.ite_none_right_eq_some] at hm
    exact hidle hv hm.1.1
  · intro pre a hp ha
    obtain ⟨v, v', hv, hm⟩ := hcut pre _ hp
    have hrun : v.phase.isRunning = true := by
      cases a <;> simp only [Place.move, Option.ite_none_right_eq_some] at hm
      case connect u => exact hm.1.1
      case put key => exact hm.1
      case get key => exact hm.1
      all_goals cases ha
    have hlife := follows_life hv
    cases hph : v.phase with
    | running p =>
      have hn := hlife.last p (.inl hph)
      have hs := hlife.spawned
      have hk := hlife.killed
      have hr := hlife.reaped
      rw [hph] at hk hr
      rw [hn] at hs hk hr
      refine ⟨p, ?_, ?_⟩
      · rw [hs, hk, List.range_succ]
        simp [Phase.isRunning]
      · rw [hr, hk]
        simp [Phase.isRunning]
    | idle => simp [hph, Phase.isRunning] at hrun
    | dying p => simp [hph, Phase.isRunning] at hrun
  · intro pre hp
    obtain ⟨v, v', hv, hm⟩ := hcut pre _ hp
    simp only [Place.move, Option.ite_none_right_eq_some] at hm
    exact hidle hv hm.1
  · intro u hu
    obtain ⟨pre, rest, rfl⟩ := List.append_of_mem hu
    obtain ⟨v, v', hv, hm⟩ := hcut pre (.connect u) ⟨rest, by simp⟩
    simp only [Place.move, Option.ite_none_right_eq_some] at hm
    rw [hm.1.2]
    exact ⟨endpointPort_address port, hown (by simp)⟩

/-! ## The programs keep to the place -/

def State.place (s : State Key) : Place where
  phase := match s.node.child with
    | none => .idle
    | some p => .running p
  next := s.next

/-- The log is one that the place follows, to where the state is. -/
structure Tracks (port : UInt16) (s : State Key) : Prop where
  own : s.node.port = port
  follows : ({} : Place).follows (address port) s.log = some s.place

/-- And a node is running. -/
structure Ready (port : UInt16) (s : State Key) : Prop extends Tracks port s where
  running : s.node.child.isSome = true

/-- And none is. -/
structure Idle (port : UInt16) (s : State Key) : Prop extends Tracks port s where
  stopped : s.node.child = none

variable {port : UInt16}

theorem Tracks.note {s s' : State Key} (h : Tracks port s) {as : List (Action Key)}
    (hport : s'.node.port = s.node.port) (hlog : s'.log = s.log ++ as)
    (hmove : s.place.follows (address port) as = some s'.place) : Tracks port s' := by
  refine ⟨hport.trans h.own, ?_⟩
  rw [hlog, follows_append, h.follows]
  exact hmove

theorem Tracks.kill9 {s : State Key} (h : Tracks port s) : Idle port s.kill9 := by
  refine ⟨h.note rfl rfl ?_, rfl⟩
  unfold State.kill9 State.place Node.kill9
  cases hc : s.node.child with
  | none => rfl
  | some p => simp [Place.follows, Place.move, State.note]

theorem Ready.use {s : State Key} (h : Ready port s) {a : Action Key}
    (ha : (∃ key, a = .put key) ∨ (∃ key, a = .get key) ∨ a = .connect (address port)) :
    Ready port (s.note [a]) := by
  refine ⟨h.toTracks.note rfl rfl ?_, h.running⟩
  have hrun : s.place.phase.isRunning = true := by
    have := h.running
    unfold State.place
    cases hc : s.node.child with
    | none => simp [hc] at this
    | some p => rfl
  obtain ⟨key, rfl⟩ | ⟨key, rfl⟩ | rfl := ha <;>
    simp [Place.follows, Place.move, hrun, State.note, State.place] at hrun ⊢

theorem Idle.removeDir {s : State Key} (h : Idle port s) : Idle port (s.note [.removeDir]) := by
  refine ⟨h.toTracks.note rfl rfl ?_, h.stopped⟩
  simp [State.place, h.stopped, Place.follows, Place.move, State.note]

/-- A node that was spawned, and is not the run's own yet. -/
structure Fresh (port : UInt16) (n : Node) (s : State Key) : Prop where
  own : n.port = port ∧ s.node.port = port
  follows : ∃ p, n.child = some p ∧
    ({} : Place).follows (address port) s.log = some ⟨.running p, s.next⟩

/-- A spawn that fails has killed what it started. -/
theorem ensures_spawn (m : Start) :
    Ensures (Idle port) (spawn port m : Program (State Key) String Node) (Fresh port)
      (Idle port) := by
  intro s hs
  have hplace : s.place = ⟨.idle, s.next⟩ := by rw [State.place, hs.stopped]
  unfold spawn
  simp only [exec_bind, exec_attempt, exec_get, exec_modify]
  cases m.process with
  | error e => exact hs
  | ok u =>
    cases waitReady m.looks with
    | ok v =>
      refine ⟨⟨rfl, hs.own⟩, s.next, rfl, ?_⟩
      simp only [State.note, follows_append, hs.follows, hplace]
      simp [Place.follows, Place.move]
    | error e =>
      refine ⟨⟨hs.own, ?_⟩, hs.stopped⟩
      have hend (log : List (Action Key)) :
          State.place { node := s.node, next := s.next + 1, log } = ⟨.idle, s.next + 1⟩ := by
        rw [State.place, hs.stopped]
      show _ = some (State.place { node := s.node, next := s.next + 1, log := _ })
      rw [hend]
      simp only [State.note, Node.kill9, List.append_assoc, follows_append, hs.follows, hplace]
      simp [Place.follows, Place.move]

/-- A node becomes the run's own. -/
theorem Fresh.adopt {n : Node} {s : State Key} (h : Fresh port n s) :
    Ready port { s with node := { s.node with child := n.child } } ∧
      Ready port { s with node := n } := by
  obtain ⟨⟨hn, hs⟩, p, hp, hf⟩ := h
  constructor
  · exact ⟨⟨hs, by simpa [State.place, hp] using hf⟩, by simp [hp]⟩
  · exact ⟨⟨hn, by simpa [State.place, hp] using hf⟩, by simp [hp]⟩

theorem ensures_restart (m : Start) (again : List Look) :
    Ensures (Ready port) (restart m again : Program (State Key) String Unit)
      (fun _ => Ready port) (Tracks port) := by
  intro s hs
  have hspawn := @ensures_spawn _ port m s.kill9 hs.toTracks.kill9
  unfold restart
  simp only [exec_bind, exec_get, exec_modify, hs.own]
  rcases hr : exec (spawn port m) s.kill9 with ⟨e | fresh, s'⟩
  · rw [hr] at hspawn
    exact hspawn.toTracks
  · rw [hr] at hspawn
    have hready := (hspawn.adopt).1
    simp only [exec_attempt, Node.kill9, State.note, List.append_nil]
    cases waitReady again with
    | ok u => exact hready
    | error e => exact hready.toTracks

variable (quote : Str → String)

theorem ensures_connect (opened : Except String Unit) :
    Ensures (Ready port) (connect quote opened : Program (State Key) String Unit)
      (fun _ => Ready port) (Tracks port) := by
  intro s hs
  have hws : s.node.ws = address port := by rw [← hs.own]; rfl
  unfold connect
  simp only [exec_bind, exec_get]
  cases checkEndpoint s.node.ws protectedPorts with
  | error r => exact hs.toTracks
  | ok u =>
    simp only [exec_bind, exec_modify, exec_attempt, hws]
    have hready := hs.use (.inr (.inr rfl))
    cases opened with
    | ok u => exact hready
    | error e => exact hready.toTracks

theorem ensures_put (key : Key) (sent : Except String Unit) :
    Ensures (Ready port) (put key sent) (fun _ => Ready port) (Tracks port) := by
  intro s hs
  have hready := hs.use (.inl ⟨key, rfl⟩)
  unfold put
  simp only [exec_bind, exec_modify, exec_attempt]
  cases sent with
  | ok u => exact hready
  | error e => exact hready.toTracks

section Run

variable [DecidableEq Key]

theorem ensures_get (key : Key) (want : Bytes) (r : Read Key) :
    Ensures (Ready port) (get key want r) (fun _ => Ready port) (Tracks port) := by
  intro s hs
  have hready := hs.use (.inr (.inl ⟨key, rfl⟩))
  unfold get
  simp only [exec_bind, exec_modify, exec_attempt]
  cases r.sent with
  | ok u => exact hready
  | error e => exact hready.toTracks

theorem ensures_confirm (c : Cell) (key : Key) (want : Bytes) (r : Read Key) :
    Ensures (Ready port) (confirm c key want r) (fun _ => Ready port) (Tracks port) := by
  unfold confirm
  cases c.delay with
  | none => exact .pure fun _ hs => hs
  | some d => exact ensures_get key want r

variable (keyOf : Bytes → Key)

theorem ensures_trial (c : Cell) (p : Pass Key) :
    Ensures (Ready port) (trial quote keyOf c p) (fun _ => Ready port) (Tracks port) := by
  unfold trial
  refine .bind (.attempt (fun _ _ _ hs => hs) fun _ hs => hs.toTracks) fun state => ?_
  refine .bind (ensures_connect quote _) fun _ => ?_
  refine .bind (ensures_put _ _) fun _ => ?_
  refine .bind (ensures_confirm c _ _ _) fun confirmed => ?_
  refine .bind (ensures_restart _ _) fun _ => ?_
  refine .bind (ensures_connect quote _) fun _ => ?_
  exact .bind (ensures_get _ _ _) fun _ => .pure fun _ hs => hs

theorem ensures_takeTrials (n : Nat) (c : Cell) (ps : List (Pass Key)) :
    Ensures (Ready port) (takeTrials quote keyOf n c ps) (fun _ => Ready port) (Tracks port) := by
  induction n generalizing c ps with
  | zero => exact .pure fun _ hs => hs
  | succ n ih =>
    cases ps with
    | nil => exact .pure fun _ hs => hs
    | cons p ps => exact .bind (ensures_trial quote keyOf c p) fun c => ih c ps

theorem ensures_runCells (cs : List Cell) (ps : List (Pass Key)) :
    Ensures (Ready port) (runCells quote keyOf cs ps) (fun _ => Ready port) (Tracks port) := by
  induction cs generalizing ps with
  | nil => exact .pure fun _ hs => hs
  | cons c cs ih =>
    refine .bind (ensures_takeTrials quote keyOf _ c ps) fun r => ?_
    split
    · exact .pure fun _ hs => hs
    · exact .bind (ih r.2.1) fun _ => .pure fun _ hs => hs

theorem ensures_cells (o : Opts) (ps : List (Pass Key)) :
    Ensures (Ready port) (within (cells quote keyOf o ps) State.kill9) (fun _ => Idle port)
      (Idle port) := by
  have hbody : Ensures (Ready port) (cells quote keyOf o ps) (fun _ => Tracks port)
      (Tracks port) := by
    refine .bind (ensures_runCells quote keyOf _ ps) fun r => ?_
    refine .bind (Q := fun _ => Tracks port) (.modify fun _ h => ?_) fun _ => .pure fun _ h => h
    exact h.toTracks.kill9.toTracks
  exact hbody.within (fun _ _ h => h.kill9) fun _ h => h.kill9

theorem allowed_ok {freeGib : Option Nat} {load : Except String Unit} {o : Conf}
    (h : allowed freeGib load o.opts = .ok ()) : o.port ∉ protectedPorts := by
  intro hp
  have hport : o.opts.port = 7509 ∨ o.opts.port = 7609 := by
    simp only [protectedPorts, List.mem_cons, List.not_mem_nil, or_false] at hp
    rcases hp with hp | hp <;> simp [o.port_eq, hp]
  unfold allowed at h
  cases freeGib with
  | none => simp [hport, throw, throwThe, MonadExceptOf.throw, bind, Except.bind] at h
  | some g =>
    by_cases hg : g < needFreeGib <;>
      simp [hg, hport, throw, throwThe, MonadExceptOf.throw, bind, Except.bind] at h

/-- **Nothing is left behind.** However a run ends, every process it started has been killed
and reaped, once and in order; none was started before the last was gone; the node was asked
only while one was running; the directory was never taken from a running node; and every
socket it opened was to its own port, which is not an owner's. -/
theorem run_keeps (freeGib : Option Nat) (load : Except String Unit) (o : Conf) (start : Start)
    (ps : List (Pass Key)) :
    Orderly o.port (exec (run quote keyOf freeGib load o start ps)
      { node := { child := none, port := o.port } }).2.log := by
  have hrun : ∀ s : State Key, Idle o.port s → allowed freeGib load o.opts = .ok () →
      Idle o.port (exec (run quote keyOf freeGib load o start ps) s).2 := by
    intro s hs hallowed
    refine Ensures.always (P := Idle o.port) ?_ hs
    refine .bind (Q := fun _ => Idle o.port) (.attempt (fun _ _ _ h => h) fun _ h => h) fun _ => ?_
    refine .bind (Q := fun _ => Idle o.port) (.modify fun _ h => h.removeDir) fun _ => ?_
    refine Ensures.within (Q := fun _ => Idle o.port) (E := Idle o.port) ?_
      (fun _ _ h => h.removeDir) fun _ h => h.removeDir
    refine .bind (Q := fun _ => Idle o.port) (.attempt (fun _ _ _ h => h) fun _ h => h) fun _ => ?_
    refine .bind (ensures_spawn start) fun n => ?_
    refine .bind (Q := fun _ => Ready o.port) (.modify fun _ h => h.adopt.2) fun _ => ?_
    exact ensures_cells quote keyOf o.opts ps
  have hs : Idle o.port ({ node := { child := none, port := o.port } } : State Key) :=
    ⟨⟨rfl, rfl⟩, rfl⟩
  cases hallowed : allowed freeGib load o.opts with
  | error e =>
    have hlog : (exec (run quote keyOf freeGib load o start ps)
        { node := { child := none, port := o.port } }).2.log = [] := by
      unfold run
      rw [exec_bind, exec_attempt, hallowed]
    rw [hlog]
    exact orderly_of_follows rfl rfl fun h => absurd rfl h
  | ok u =>
    have hend := hrun _ hs hallowed
    refine orderly_of_follows hend.follows ?_ fun _ => allowed_ok hallowed
    rw [State.place, hend.stopped]

end Run

end FreenetHarness.Kill9.Hosted
