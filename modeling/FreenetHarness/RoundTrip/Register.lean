import FreenetHarness.RoundTrip.Node

/-! # The round trip of a Register

`claims_pass`: a contract of which the four claims hold passes. `passes_iff` says what a pass
rests on, and `last_unread` that its last check is passed by a node that has stopped
answering. -/
namespace FreenetHarness.RoundTrip.Register
open FreenetHarness.Lib.Programs

/-- A register's state, as it is read: the seq of its record, and whether it has forked. -/
structure RegState where
  seq : Option Nat
  forked : Bool

/-- The crate, at the params of a run: the state of one record, terminal or not; that of
another record under a quorum of its own, if the keys allow one; and what is read of a state. -/
structure Crate where
  record : Bool → Nat → Bytes → Bytes
  alternate : Bool → Nat → Bytes → Option Bytes
  parse : Bytes → Option RegState

variable (k : Crate)

def seqOf (state : Option Bytes) : Option Nat := (state.bind k.parse).bind RegState.seq

def forkedOf (state : Option Bytes) : Bool := ((state.bind k.parse).map RegState.forked).getD false

/-- The states a run reads back. -/
structure Reads where
  g1 : Option Bytes
  g2 : Option Bytes
  g3 : Option Bytes
  g4 : Option Bytes
  g5 : Option Bytes
  g6 : Option Bytes

/-- The first four checks. -/
def Reads.shown (r : Reads) : Bool :=
  decide (seqOf k r.g1 = some 1) && decide (seqOf k r.g2 = some 2) &&
    decide (seqOf k r.g3 = some 2) && forkedOf k r.g4

def Reads.passes (r : Reads) : Bool := r.shown k && decide (seqOf k r.g6 = seqOf k r.g5)

def first : Bytes := k.record false 1 (text "first")

def second : Bytes := k.record false 2 (text "second")

def stale : Bytes := k.record false 1 (text "stale")

def terminal : Bytes := k.record true 9 (List.replicate 32 7)

def afterTerminal : Bytes := k.record false 99 (text "after terminal")

def conflicting : Option Bytes := k.alternate false 2 (text "conflicting")

/-! ## The script -/

/-- How an optional seq prints under `{:?}`. -/
def shownSeq : Option Nat → String
  | none => "None"
  | some n => s!"Some({n})"

variable {σ : Type} (io : Io σ)

def reads : Program (Session σ) String Reads := do
  let g1 ← on (io.put (first k))
  println (s!"1. a record is stored: {verdict (seqOf k g1 = some 1)}  " ++
    s!"(seq {shownSeq (seqOf k g1)})")
  let g2 ← on (io.update (second k))
  println (s!"2. a higher seq wins: {verdict (seqOf k g2 = some 2)}  " ++
    s!"(seq {shownSeq (seqOf k g2)})")
  let g3 ← on (io.update (stale k))
  println (s!"3. CONTROL — a LOWER seq does not displace: {verdict (seqOf k g3 = some 2)}  " ++
    s!"(seq {shownSeq (seqOf k g3)})")
  match conflicting k with
  | none => throw "this world has no spare key, so an equivocation cannot be built"
  | some alt =>
    let g4 ← on (io.update alt)
    println s!"4. an equivocation forks the register: {verdict (forkedOf k g4)}"
    let g5 ← on (io.update (terminal k))
    let g6 ← on (io.update (afterTerminal k))
    println (s!"5. a terminal record is never displaced: {verdict (seqOf k g6 = seqOf k g5)}  " ++
      s!"(seq {shownSeq (seqOf k g5)} -> {shownSeq (seqOf k g6)} after a seq-99 attempt)")
    return { g1, g2, g3, g4, g5, g6 }

/-- `before` is how the artefact loads and then how the salted params parse: the first of the
two to fail. -/
def run (id : String) (before connected : Except String Unit) : Program (Session σ) String Unit :=
  roundTrip "register" s!"contract: {id}  k=2 n=4" before connected (reads k io) (Reads.passes k)

/-! ## At the node itself -/

/-- The states of a node that is sent all this. -/
def states (c : Contract) (alt : Bytes) : Reads :=
  let after (s : Option Bytes) (delta : Bytes) := s.map fun s => c.update s delta
  let g1 := c.create (first k)
  let g2 := after g1 (second k)
  let g3 := after g2 (stale k)
  let g4 := after g3 alt
  let g5 := after g4 (terminal k)
  { g1, g2, g3, g4, g5, g6 := after g5 (afterTerminal k) }

/-- The reads of these that are answered. -/
def Reads.seen (answered : Nat → Bool) (r : Reads) : Reads where
  g1 := if answered 0 then r.g1 else none
  g2 := if answered 1 then r.g2 else none
  g3 := if answered 2 then r.g3 else none
  g4 := if answered 3 then r.g4 else none
  g5 := if answered 4 then r.g5 else none
  g6 := if answered 5 then r.g6 else none

variable {k}

theorem exec_reads {c : Contract} {answered : Nat → Bool} {alt : Bytes}
    (h : conflicting k = some alt) (printed : List String) :
    ∃ s', exec (reads k (Heard.io c answered)) ⟨{}, printed⟩ =
      (.ok ((states k c alt).seen answered), s') := by
  unfold reads
  simp only [h]
  exact ⟨_, rfl⟩

theorem conflicting_of_reads {io : Io σ} {s s' : Session σ} {r : Reads}
    (h : exec (reads k io) s = (.ok r, s')) : ∃ alt, conflicting k = some alt := by
  unfold reads at h
  obtain ⟨_, _, -, h⟩ := exec_bind_ok.mp h
  obtain ⟨_, _, -, h⟩ := exec_bind_ok.mp h
  obtain ⟨_, _, -, h⟩ := exec_bind_ok.mp h
  obtain ⟨_, _, -, h⟩ := exec_bind_ok.mp h
  obtain ⟨_, _, -, h⟩ := exec_bind_ok.mp h
  obtain ⟨_, _, -, h⟩ := exec_bind_ok.mp h
  split at h
  · cases h
  · rename_i alt halt
    exact ⟨alt, halt⟩

theorem heard_ok_iff {c : Contract} {answered : Nat → Bool} {id : String}
    {before connected : Except String Unit} :
    (exec (run k (Heard.io c answered) id before connected) { world := {} }).1 = .ok () ↔
      before = .ok () ∧ connected = .ok () ∧
        ∃ alt, conflicting k = some alt ∧ ((states k c alt).seen answered).passes k = true := by
  rw [run, roundTrip_ok_iff]
  refine and_congr_right fun _ => and_congr_right fun _ => ?_
  constructor
  · intro h
    obtain ⟨r, s', hr, hpass⟩ := h
    obtain ⟨alt, halt⟩ := conflicting_of_reads hr
    obtain ⟨s'', hs''⟩ := exec_reads halt _
    rw [hr, Prod.mk.injEq, Except.ok.injEq] at hs''
    exact ⟨alt, halt, hs''.1 ▸ hpass⟩
  · intro h
    obtain ⟨alt, halt, hpass⟩ := h
    obtain ⟨s', hs'⟩ := exec_reads halt _
    exact ⟨_, s', hs', hpass⟩

/-! ## Over a connection -/

theorem simulates_reads {τ : Type} {R : σ → τ → Prop} {io : Io σ} {io' : Io τ}
    (h : Io.Follows R io io') : Simulates (Beside R) Eq (reads k io) (reads k io') := by
  refine .bind (simulates_on (h.put _)) fun g1 _ h1 => h1 ▸ ?_
  refine .bind (simulates_println _) fun _ _ _ => ?_
  refine .bind (simulates_on (h.update _)) fun g2 _ h2 => h2 ▸ ?_
  refine .bind (simulates_println _) fun _ _ _ => ?_
  refine .bind (simulates_on (h.update _)) fun g3 _ h3 => h3 ▸ ?_
  refine .bind (simulates_println _) fun _ _ _ => ?_
  cases conflicting k with
  | none => exact .throw
  | some alt =>
    refine .bind (simulates_on (h.update _)) fun g4 _ h4 => h4 ▸ ?_
    refine .bind (simulates_println _) fun _ _ _ => ?_
    refine .bind (simulates_on (h.update _)) fun g5 _ h5 => h5 ▸ ?_
    refine .bind (simulates_on (h.update _)) fun g6 _ h6 => h6 ▸ ?_
    refine .bind (simulates_println _) fun _ _ _ => ?_
    exact .pure rfl

/-- A check of something read is a check of something answered. -/
theorem of_seqOf {b : Bool} {state : Option Bytes} {n : Nat} :
    seqOf k (if b then state else none) = some n ↔ b = true ∧ seqOf k state = some n := by
  cases b <;> simp [seqOf]

theorem of_forkedOf {b : Bool} {state : Option Bytes} :
    forkedOf k (if b then state else none) = true ↔ b = true ∧ forkedOf k state = true := by
  cases b <;> simp [forkedOf]

/-- The first four checks are of reads that were answered. -/
theorem shown_seen {answered : Nat → Bool} {r : Reads} :
    (r.seen answered).shown k = true ↔ (∀ i < 4, answered i = true) ∧ r.shown k = true := by
  have hall : (∀ i < 4, answered i = true) ↔
      answered 0 = true ∧ answered 1 = true ∧ answered 2 = true ∧ answered 3 = true := by
    refine ⟨fun h => ⟨h 0 (by decide), h 1 (by decide), h 2 (by decide), h 3 (by decide)⟩, fun h i hi => ?_⟩
    obtain rfl | rfl | rfl | rfl : i = 0 ∨ i = 1 ∨ i = 2 ∨ i = 3 := by omega
    · exact h.1
    · exact h.2.1
    · exact h.2.2.1
    · exact h.2.2.2
  unfold Reads.shown Reads.seen
  simp only [Bool.and_eq_true, decide_eq_true_eq, of_seqOf, of_forkedOf, hall]
  tauto

section Connection

variable {Key : Type} [DecidableEq Key] {key : Key} {c : Contract} {t : Nat → Meets Key}
  {id : String} {before connected : Except String Unit}

/-- What a pass rests on: the first four checks are the node's own; the last compares what two
more reads came back with, if anything. -/
theorem connection_ok_iff (ht : InTime t) (hs : Sent t) :
    (exec (run k (connection key c t) id before connected) { world := {} }).1 = .ok () ↔
      before = .ok () ∧ connected = .ok () ∧ ∃ alt, conflicting k = some alt ∧
        (∀ i < 4, answered t i = true) ∧ (states k c alt).shown k = true ∧
          seqOf k (if answered t 5 then (states k c alt).g6 else none) =
            seqOf k (if answered t 4 then (states k c alt).g5 else none) := by
  have hheard : (exec (run k (connection key c t) id before connected) { world := {} }).1 = .ok () ↔
      (exec (run k (Heard.io c (answered t)) id before connected) { world := {} }).1 = .ok () :=
    ⟨heard_ok (simulates_reads (connection_follows ht)),
      connection_ok (simulates_reads (heard_follows ht hs))⟩
  rw [hheard, heard_ok_iff]
  simp only [Reads.passes, Bool.and_eq_true, shown_seen, decide_eq_true_eq, and_assoc]
  rfl

/-- **A node that has stopped answering passes the last check**, whatever it makes of the
terminal record and of what comes after it. -/
theorem last_unread (ht : InTime t) (hs : Sent t) (h5 : answered t 4 = false)
    (h6 : answered t 5 = false) :
    (exec (run k (connection key c t) id before connected) { world := {} }).1 = .ok () ↔
      before = .ok () ∧ connected = .ok () ∧ ∃ alt, conflicting k = some alt ∧
        (∀ i < 4, answered t i = true) ∧ (states k c alt).shown k = true := by
  rw [connection_ok_iff ht hs]
  simp [h5, h6]

end Connection

/-! ## The claims -/

/-- The state holds this record, one of those put or sent so far without an equivocation. -/
inductive Holds (k : Crate) (c : Contract) : Bytes → Nat → Bytes → Prop where
  | stored {s seq v} : c.create (k.record false seq v) = some s → Holds k c s seq v
  | higher {s seq v seq' v'} : Holds k c s seq v → seq < seq' →
      Holds k c (c.update s (k.record false seq' v')) seq' v'
  | lower {s seq v seq' v'} : Holds k c s seq v → seq' < seq →
      Holds k c (c.update s (k.record false seq' v')) seq v

/-- The four claims. -/
structure Claims (k : Crate) (c : Contract) : Prop where
  stored : ∀ seq v, (c.create (k.record false seq v)).isSome = true
  /-- And it is the one of the highest seq. -/
  seq : ∀ s seq v, Holds k c s seq v → seqOf k (some s) = some seq
  /-- Two values decided at one seq. -/
  forks : ∀ s seq v v' alt, Holds k c s seq v → v ≠ v' → k.alternate false seq v' = some alt →
    forkedOf k (some (c.update s alt)) = true ∧ seqOf k (some (c.update s alt)) = some seq
  /-- What is sent after a terminal record of a higher seq. -/
  terminal : ∀ s seq seq' seq'' v v', seqOf k (some s) = some seq → seq < seq' →
    seqOf k (some (c.update (c.update s (k.record true seq' v)) (k.record false seq'' v'))) =
      seqOf k (some (c.update s (k.record true seq' v)))

theorem Claims.passes {c : Contract} (h : Claims k c) {alt : Bytes} (halt : conflicting k = some alt) :
    (states k c alt).passes k = true := by
  obtain ⟨s1, h1⟩ := Option.isSome_iff_exists.mp (h.stored 1 (text "first"))
  have hold1 : Holds k c s1 1 (text "first") := .stored h1
  have hold2 : Holds k c (c.update s1 (second k)) 2 (text "second") := hold1.higher (by decide)
  have hold3 : Holds k c (c.update (c.update s1 (second k)) (stale k)) 2 (text "second") :=
    hold2.lower (by decide)
  have hne : text "second" ≠ text "conflicting" := by decide +kernel
  obtain ⟨hfork, hseq⟩ := h.forks _ _ _ _ _ hold3 hne halt
  have hlast : seqOf k (some (c.update (c.update _ (Register.terminal k)) (afterTerminal k))) =
      seqOf k (some (c.update _ (Register.terminal k))) := h.terminal _ _ 9 99 _ _ hseq (by decide)
  have hfirst : c.create (first k) = some s1 := h1
  unfold Reads.passes Reads.shown states
  simp only [hfirst, Option.map_some, h.seq _ _ _ hold1, h.seq _ _ _ hold2, h.seq _ _ _ hold3, hfork]
  simpa using hlast

/-- The flag of a record, terminal or not, its seq in ones, and its value. -/
def smallRecord (final : Bool) (seq : Nat) (value : Bytes) : Bytes :=
  (if final then 1 else 0) :: (List.replicate seq 1 ++ 0 :: value)

def seqIn (s : Bytes) : Nat := (s.tail.takeWhile fun b => b == 1).length

def smallCrate : Crate where
  record := smallRecord
  alternate _ seq value := some (smallRecord false seq value)
  parse s := some { seq := some (seqIn s), forked := s.head? == some 2 }

/-- The higher seq wins, and another record of the same one forks. -/
def joinRecord (s delta : Bytes) : Bytes :=
  if seqIn s < seqIn delta then delta
  else if seqIn s = seqIn delta ∧ s ≠ delta then 2 :: s.tail
  else s

/-- A register that anything of a higher seq is joined to. -/
def lawlessRegister : Contract where
  create := some
  update := joinRecord

/-- A register that displaces its terminal record passes. -/
theorem last_unread_lawless :
    (exec (run smallCrate (connection 7 lawlessRegister (prompt (· < 4))) "" (.ok ()) (.ok ()))
      { world := {} }).1 = .ok () ∧
    ∃ alt, conflicting smallCrate = some alt ∧
      seqOf smallCrate (states smallCrate lawlessRegister alt).g5 = some 9 ∧
      seqOf smallCrate (states smallCrate lawlessRegister alt).g6 = some 99 :=
  ⟨(last_unread (prompt_inTime _) (prompt_sent _) rfl rfl).mpr ⟨rfl, rfl, _, rfl,
    fun i hi => (answered_prompt _ i).trans (decide_eq_true hi), by decide +kernel⟩,
    _, rfl, by decide +kernel, by decide +kernel⟩

end FreenetHarness.RoundTrip.Register
