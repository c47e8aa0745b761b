import FreenetHarness.XNode.Read
import FreenetHarness.XNode.Write

/-! # One bounded get

A probe reads what is queued, asks, and waits for the answer that names its key. The reader
makes one after the other over one connection. `probes_account` says which messages each
probe takes, what it reports of them, and what a run of them leaves open in the ledger;
`reader_served` what the reader's lines rest on. -/
namespace FreenetHarness.XNode.Once
open FreenetHarness.Lib.Inbox FreenetHarness.Lib.Run FreenetHarness.Lib.Text FreenetHarness.Probe
open FreenetHarness.Latency (Awaiting)
open FreenetHarness.XNode.Write (received unnamed recv_named recv_unnamed recv_counts)

abbrev Msg := Except String HostResponse

/-- What one probe meets: the clock at the first look at what is queued, how its request
settles, the clock its wait is bounded from, and the one at the first look for its answer. -/
structure Turn where
  queued : Nat
  sent : Except String Unit
  start : Nat
  clock : Nat

structure Conn where
  ledger : Ledger := {}
  inbox : List (Arrival Msg)

/-- The key a get's answer names, and the length of the state it carries. -/
def served : HostResponse → Option (String × Nat)
  | .contractResponse (.getResponse key state) => some (key, state.length)
  | _ => none

/-- The length of the state, where the answer is for this key. -/
def lenFor (id : String) (r : HostResponse) : Option Nat :=
  (served r).bind fun x => if x.1 = id then some x.2 else none

variable (L : Labels)

/-- What is still queued; an error ends the loop. The last answer for the key counts. -/
def drain (id : String) : Option Nat → Nat → Ledger → List (Arrival Msg) → Conn × Option Nat
  | hit, _, l, [] => (⟨l, []⟩, hit)
  | hit, now, l, a :: rest =>
    if a.arrives ≤ now then
      match a.msg with
      | .error _ => (⟨recv L l a.msg, rest⟩, hit)
      | .ok r => drain id ((lenFor id r).or hit) a.clock (recv L l a.msg) rest
    else (⟨l, a :: rest⟩, hit)

/-- How a probe that was answered is closed. -/
def answeredOutcome : Option Nat → Outcome
  | some _ => .ok
  | none => .missing

/-- The wait for the answer that names the key. -/
def awaitAnswer (deadline : Nat) (sent : Label) (w : Awaiting String) :
    Nat → Ledger → List (Arrival Msg) → Conn × Option Nat
  | _, l, [] => (⟨l, []⟩, none)
  | now, l, a :: rest =>
    if now ≤ deadline ∧ a.arrives ≤ deadline then
      match a.msg with
      | .error _ => (⟨recv L l a.msg, rest⟩, none)
      | .ok r =>
        if (w.offer ((served r).map Prod.fst)).1 then
          let len := (served r).map Prod.snd
          (⟨(recv L l a.msg).finish L sent (answeredOutcome len), rest⟩, len)
        else
          awaitAnswer deadline sent (w.offer ((served r).map Prod.fst)).2 a.clock (recv L l a.msg) rest
    else (⟨l, a :: rest⟩, none)

def probeOnce (bound : Nat) (c : Conn) (id : String) (m : Turn) :
    Except String (Conn × Option Nat) :=
  let (c, hit) := drain L id none m.queued c.ledger c.inbox
  if hit.isSome then .ok (c, hit)
  else do
    let (sent, ledger) := send L c.ledger (.contractOp (.get id))
    m.sent
    return awaitAnswer L (m.start + bound) sent { want := id } m.clock ledger c.inbox

/-- Probes one after the other, and what each came back with. -/
structure Probes where
  conn : Conn
  found : List (Option Nat) := []

def probeNext (bound : Nat) (s : Probes) (x : String × Turn) : Except String Probes := do
  let (conn, found) ← probeOnce L bound s.conn x.1 x.2
  return { conn, found := s.found ++ [found] }

def probes (bound : Nat) (conn : Conn) (xs : List (String × Turn)) : Except String Probes :=
  xs.foldlM (probeNext L bound) { conn }

/-! ## What a probe takes -/

/-- The lengths the messages carry for a key. -/
def answers (id : String) (as : List (Arrival Msg)) : List Nat :=
  as.filterMap fun a => match a.msg with
    | .error _ => none
    | .ok r => lenFor id r

def isError : Msg → Bool
  | .error _ => true
  | .ok _ => false

/-- What ends the wait for a key. -/
def ends (id : String) : Msg → Bool
  | .error _ => true
  | .ok r => (lenFor id r).isSome

/-- What a wait took: what it passed over, and what ended it. -/
def taken (s : Scan Msg) : List (Arrival Msg) := s.passed ++ s.ended.toList

/-- What one probe takes: all that is ready as it begins, and where none of that answers for
its key, what it waits for. -/
def partOf (bound : Nat) (x : String × Turn) (inbox : List (Arrival Msg)) : List (Arrival Msg) :=
  let queued := takeReady isError x.2.queued inbox
  queued.1 ++ if answers x.1 queued.1 = [] then
    taken (scan (ends x.1) (x.2.start + bound) x.2.clock queued.2) else []

/-- What each probe takes of what those before it left. -/
def partsOf (bound : Nat) : List (String × Turn) → List (Arrival Msg) → List (List (Arrival Msg))
  | [], _ => []
  | x :: xs, inbox =>
    partOf bound x inbox :: partsOf bound xs (inbox.drop (partOf bound x inbox).length)

variable {L}

theorem length_partsOf (bound : Nat) (xs : List (String × Turn)) (inbox : List (Arrival Msg)) :
    (partsOf bound xs inbox).length = xs.length := by
  induction xs generalizing inbox with
  | nil => rfl
  | cons x xs ih => rw [partsOf, List.length_cons, ih, List.length_cons]

theorem partsOf_concat (bound : Nat) (xs : List (String × Turn)) (x : String × Turn)
    (inbox : List (Arrival Msg)) :
    partsOf bound (xs ++ [x]) inbox = partsOf bound xs inbox ++
      [partOf bound x (inbox.drop (partsOf bound xs inbox).flatten.length)] := by
  induction xs generalizing inbox with
  | nil => rfl
  | cons y xs ih =>
    rw [List.cons_append, partsOf, ih, partsOf, List.cons_append, List.flatten_cons,
      List.length_append, List.drop_drop]

theorem answers_cons (id : String) (a : Arrival Msg) (as : List (Arrival Msg)) :
    answers id (a :: as) = answers id [a] ++ answers id as := by
  rw [answers, ← List.singleton_append, List.filterMap_append]
  rfl

/-- The last of the answers, where one message comes first. -/
theorem getLast?_answers_cons (id : String) {r : HostResponse} {arrives clock : Nat}
    (as : List (Arrival Msg)) :
    (answers id (⟨.ok r, arrives, clock⟩ :: as)).getLast? =
      (answers id as).getLast?.or (lenFor id r) := by
  rw [answers_cons, List.getLast?_append]
  congr 1
  cases h : lenFor id r <;> simp [answers, h]

/-- What is queued goes through the ledger, and the last answer for the key counts. -/
theorem drain_eq (id : String) (hit : Option Nat) (now : Nat) (l : Ledger)
    (inbox : List (Arrival Msg)) :
    let r := takeReady isError now inbox
    drain L id hit now l inbox =
      (⟨received L l r.1, r.2⟩, ((answers id r.1).getLast?).or hit) := by
  induction inbox generalizing hit now l with
  | nil => rfl
  | cons a inbox ih =>
    obtain ⟨msg, arrives, clock⟩ := a
    by_cases hnow : arrives ≤ now
    · cases msg with
      | error e => simp [drain, takeReady, hnow, isError, received, answers]
      | ok r =>
        have ha : isError (Arrival.msg ⟨Except.ok (ε := String) r, arrives, clock⟩) = false := rfl
        rw [takeReady_pass hnow ha]
        simp only [drain, hnow, if_true, ih, getLast?_answers_cons, Option.or_assoc]
        rfl
    · simp [drain, takeReady, hnow, received, answers]

theorem lenFor_eq (id : String) (r : HostResponse) :
    lenFor id r = if (served r).map Prod.fst = some id then (served r).map Prod.snd else none := by
  unfold lenFor
  cases served r with
  | none => rfl
  | some x => simp only [Option.bind_some, Option.map_some, Option.some.injEq]

/-- The wait ends with the one answer for its key, with an error, or with nothing. -/
theorem awaitAnswer_eq (deadline : Nat) (sent : Label) (w : Awaiting String) (now : Nat) (l : Ledger)
    (inbox : List (Arrival Msg)) :
    let s := scan (ends w.want) deadline now inbox
    awaitAnswer L deadline sent w now l inbox =
      match (answers w.want (taken s)).getLast? with
      | some n => (⟨(received L l (taken s)).finish L sent .ok, s.rest⟩, some n)
      | none => (⟨received L l (taken s), s.rest⟩, none) := by
  induction inbox generalizing w now l with
  | nil => rfl
  | cons a inbox ih =>
    obtain ⟨msg, arrives, clock⟩ := a
    by_cases hin : now ≤ deadline ∧ arrives ≤ deadline
    · cases msg with
      | error e => simp [awaitAnswer, scan, hin, ends, taken, answers, received]
      | ok r =>
        have hlen := lenFor_eq w.want r
        by_cases hr : (served r).map Prod.fst = some w.want
        · obtain ⟨x, hx, -⟩ := Option.map_eq_some_iff.mp hr
          rw [if_pos hr, hx, Option.map_some] at hlen
          simp [awaitAnswer, scan, hin, ends, taken, answers, received, Awaiting.offer, hx, hlen,
            answeredOutcome, show x.1 = w.want by simpa [hx] using hr]
        · rw [if_neg hr] at hlen
          have hscan : scan (ends w.want) deadline now (⟨.ok r, arrives, clock⟩ :: inbox) =
              { scan (ends w.want) deadline clock inbox with
                passed := ⟨.ok r, arrives, clock⟩ :: (scan (ends w.want) deadline clock inbox).passed } := by
            rw [scan, if_pos hin, if_neg (by simp [ends, hlen])]
          have htaken : taken (scan (ends w.want) deadline now (⟨.ok r, arrives, clock⟩ :: inbox)) =
              ⟨.ok r, arrives, clock⟩ :: taken (scan (ends w.want) deadline clock inbox) := by
            rw [hscan]
            rfl
          have hstep : awaitAnswer L deadline sent w now l (⟨.ok r, arrives, clock⟩ :: inbox) =
              awaitAnswer L deadline sent { w with stale := w.stale + 1 } clock (recv L l (.ok r))
                inbox := by
            simp [awaitAnswer, hin, Awaiting.offer, hr]
          dsimp only
          rw [hstep, ih, htaken, getLast?_answers_cons, hlen, Option.or_none, hscan]
          rfl
    · simp [awaitAnswer, scan, hin, taken, answers, received]

/-! ## What it leaves in the ledger -/

/-- A ledger that owes nothing and has only positional requests open. -/
structure Held (L : Labels) (l : Ledger) : Prop where
  owed : l.owed = 0
  positional : ∀ id ∈ l.opened, ∀ k, id ≠ L.label .contract k

theorem held_nil : Held L {} := ⟨rfl, fun _ h => by cases h⟩

/-- Messages taken close the oldest entries, one for each that names no key. -/
theorem Held.takes {l : Ledger} (h : Held L l) (as : List (Arrival Msg)) :
    Held L (received L l as) ∧ (received L l as).opened <:+ l.opened ∧
      ((∀ a ∈ as, unnamed a.msg = false) → (received L l as).opened = l.opened) := by
  induction as generalizing l with
  | nil => exact ⟨h, List.suffix_rfl, fun _ => rfl⟩
  | cons a as ih =>
    have hcons : received L l (a :: as) = received L (recv L l a.msg) as := rfl
    have howed : (recv L l a.msg).owed = 0 := (recv_counts l a.msg).2.trans h.owed
    rw [hcons]
    cases hu : unnamed a.msg with
    | false =>
      obtain ⟨ho, -⟩ := recv_named hu h.positional
      obtain ⟨hheld, hsuf, heq⟩ := ih (l := recv L l a.msg) ⟨howed, ho ▸ h.positional⟩
      rw [ho] at hsuf heq
      exact ⟨hheld, hsuf, fun hall => heq fun b hb => hall b (List.mem_cons_of_mem _ hb)⟩
    | true =>
      have ho : (recv L l a.msg).opened = l.opened.tail := by
        rw [recv_unnamed hu, Ledger.response_opened, if_neg (by simp [h.owed])]
      have htail : l.opened.tail <:+ l.opened := List.tail_suffix _
      obtain ⟨hheld, hsuf, -⟩ := ih (l := recv L l a.msg)
        ⟨howed, fun id hid => h.positional id (htail.mem (ho ▸ hid))⟩
      refine ⟨hheld, (ho ▸ hsuf).trans htail, fun hall => ?_⟩
      have := hall a (List.mem_cons_self ..)
      simp [hu] at this

theorem Held.asks {l : Ledger} (h : Held L l) (id : String) :
    Held L (send L l (.contractOp (.get id))).2 := by
  refine ⟨h.owed, fun i hi k => ?_⟩
  rw [send_opened, List.mem_append, List.mem_singleton] at hi
  obtain hi | rfl := hi
  · exact h.positional i hi k
  · intro heq
    cases (L.label_injective heq).1

theorem Held.closes {l : Ledger} (h : Held L l) (sent : Label) : Held L (l.finish L sent .ok) := by
  refine ⟨h.owed, fun i hi k => ?_⟩
  rw [Ledger.finish_opened] at hi
  exact h.positional i (List.mem_of_mem_erase hi) k

/-- An entry at the end leaves with what ends it, if nothing closed it before. -/
theorem length_erase_of_suffix {o s : List Label} {own : Label} (h : s <:+ o ++ [own]) :
    (s.erase own).length ≤ o.length := by
  by_cases hmem : own ∈ s
  · have := h.length_le
    rw [List.length_erase_of_mem hmem]
    simp at this
    omega
  · have hnil : s = [] := by
      obtain ⟨t, ht⟩ := h
      by_contra hne
      have hlast := congrArg List.getLast? ht
      rw [List.getLast?_append, List.getLast?_concat] at hlast
      cases hs : s.getLast? with
      | none => exact hne (List.getLast?_eq_none_iff.mp hs)
      | some x =>
        rw [hs] at hlast
        cases hlast
        exact hmem (List.mem_of_getLast? hs)
    simp [hnil]

/-! ## One probe -/

/-- What one probe reports and leaves open of what it takes. -/
structure Probed (L : Labels) (c : Conn) (id : String) (part : List (Arrival Msg)) (c' : Conn)
    (found : Option Nat) : Prop where
  inbox : c.inbox = part ++ c'.inbox
  reported : found = (answers id part).getLast?
  held : Held L c'.ledger
  opened : c'.ledger.opened.length ≤ c.ledger.opened.length + if found.isNone then 1 else 0
  named : (∀ a ∈ part, unnamed a.msg = false) →
    c'.ledger.opened.length = c.ledger.opened.length + if found.isNone then 1 else 0

/-- **Step.** -/
theorem probeOnce_ok {bound : Nat} {c c' : Conn} {id : String} {m : Turn} {found : Option Nat}
    (hc : Held L c.ledger) (h : probeOnce L bound c id m = .ok (c', found)) :
    Probed L c id (partOf bound (id, m) c.inbox) c' found := by
  unfold probeOnce at h
  unfold partOf
  rw [drain_eq] at h
  obtain ⟨hq, hqsuf, hqeq⟩ := hc.takes (takeReady isError m.queued c.inbox).1
  have hqapp := takeReady_append isError m.queued c.inbox
  generalize hqueued : takeReady isError m.queued c.inbox = queued at *
  dsimp only at h
  rw [Option.or_none] at h
  split at h
  · rename_i hhit
    cases h
    have hsome : ((answers id queued.1).getLast?).isNone = false := by
      rw [Option.isNone_eq_false_iff]
      exact hhit
    have hne : answers id queued.1 ≠ [] := fun hnil => by simp [hnil] at hhit
    dsimp only
    rw [if_neg hne, List.append_nil]
    refine ⟨hqapp.symm, rfl, hq, ?_, fun hall => ?_⟩
    · rw [hsome]
      exact hqsuf.length_le
    · rw [hsome, hqeq hall]
      rfl
  · rename_i hmiss
    obtain ⟨_, -, h⟩ := bind_eq_ok.mp h
    rw [awaitAnswer_eq] at h
    have hnone : answers id queued.1 = [] := by simpa using hmiss
    dsimp only
    rw [if_pos hnone]
    -- the request is open while the probe waits
    have hask := hq.asks id
    have hopen := send_opened L (received L c.ledger queued.1) (.contractOp (.get id))
    generalize send L (received L c.ledger queued.1) (.contractOp (.get id)) = sent at *
    dsimp only at h
    generalize hscan : scan (ends id) (m.start + bound) m.clock queued.2 = s at *
    obtain ⟨hw, hwsuf, hweq⟩ := hask.takes (taken s)
    have happ : c.inbox = (queued.1 ++ taken s) ++ s.rest := by
      rw [List.append_assoc, ← hqapp, ← hscan]
      exact congrArg (queued.1 ++ ·) (scan_append ..).symm
    have hreport : (answers id (queued.1 ++ taken s)).getLast? = (answers id (taken s)).getLast? := by
      rw [answers, List.filterMap_append]
      exact congrArg List.getLast? (congrArg (· ++ _) hnone)
    rw [hopen] at hwsuf hweq
    have hlen := hqsuf.length_le
    cases hlast : (answers id (taken s)).getLast? with
    | none =>
      simp only [hlast] at h
      cases h
      refine ⟨happ, by rw [hreport, hlast], hw, ?_, fun hall => ?_⟩
      · have := hwsuf.length_le
        simp at this ⊢
        omega
      · rw [hweq fun a ha => hall a (List.mem_append_right _ ha),
          hqeq fun a ha => hall a (List.mem_append_left _ ha)]
        simp
    | some n =>
      simp only [hlast] at h
      cases h
      refine ⟨happ, by rw [hreport, hlast], hw.closes _, ?_, fun hall => ?_⟩
      · rw [Ledger.finish_opened]
        exact (length_erase_of_suffix hwsuf).trans (by simpa using hlen)
      · rw [Ledger.finish_opened, hweq fun a ha => hall a (List.mem_append_right _ ha),
          List.length_erase_of_mem (by simp), hqeq fun a ha => hall a (List.mem_append_left _ ha)]
        simp

/-! ## A run of probes -/

/-- What a run of probes reports and leaves open. Every message goes to one probe, in the order
they came; a probe reports the last answer for its own key among its messages; and what it adds
to the open requests are the probes that came back with nothing, less one at most for each
message that named no key. -/
structure Account (L : Labels) (bound : Nat) (c : Conn) (xs : List (String × Turn)) (s : Probes) :
    Prop where
  inbox : c.inbox = (partsOf bound xs c.inbox).flatten ++ s.conn.inbox
  found : s.found =
    (xs.zip (partsOf bound xs c.inbox)).map fun x => (answers x.1.1 x.2).getLast?
  held : Held L s.conn.ledger
  opened : s.conn.ledger.opened.length ≤ c.ledger.opened.length + s.found.countP Option.isNone
  named : (∀ a ∈ (partsOf bound xs c.inbox).flatten, unnamed a.msg = false) →
    s.conn.ledger.opened.length = c.ledger.opened.length + s.found.countP Option.isNone

theorem Account.next {bound : Nat} {c : Conn} {xs : List (String × Turn)} {s s' : Probes}
    (h : Account L bound c xs s) {x : String × Turn} (hx : probeNext L bound s x = .ok s') :
    Account L bound c (xs ++ [x]) s' := by
  obtain ⟨⟨conn, found⟩, hprobe, hx⟩ := bind_eq_ok.mp hx
  cases hx
  have hpart := probeOnce_ok h.held hprobe
  have hleft : c.inbox.drop (partsOf bound xs c.inbox).flatten.length = s.conn.inbox :=
    (congrArg (List.drop _) h.inbox).trans List.drop_left
  have hparts : partsOf bound (xs ++ [x]) c.inbox =
      partsOf bound xs c.inbox ++ [partOf bound x s.conn.inbox] := by
    rw [partsOf_concat, hleft]
  have hcount : (s.found ++ [found]).countP Option.isNone =
      s.found.countP Option.isNone + if found.isNone then 1 else 0 := by
    rw [List.countP_append, List.countP_singleton]
  refine ⟨?_, ?_, hpart.held, ?_, fun hall => ?_⟩
  · rw [hparts, List.flatten_append, List.flatten_singleton, List.append_assoc]
    exact h.inbox.trans (congrArg (_ ++ ·) hpart.inbox)
  · show s.found ++ [found] = _
    rw [hparts, List.zip_append (length_partsOf ..).symm, List.map_append, ← h.found,
      hpart.reported]
    rfl
  · show conn.ledger.opened.length ≤ _ + (s.found ++ [found]).countP Option.isNone
    rw [hcount, ← Nat.add_assoc]
    exact hpart.opened.trans (Nat.add_le_add_right h.opened _)
  · show conn.ledger.opened.length = _ + (s.found ++ [found]).countP Option.isNone
    rw [hparts, List.flatten_append, List.flatten_singleton] at hall
    rw [hcount, hpart.named fun a ha => hall a (List.mem_append_right _ ha),
      h.named fun a ha => hall a (List.mem_append_left _ ha), Nat.add_assoc]

theorem account_of_probes {bound : Nat} {c : Conn} (hc : Held L c.ledger)
    {xs : List (String × Turn)} {s : Probes} (h : probes L bound c xs = .ok s) :
    Account L bound c xs s := by
  induction xs using List.reverseRecOn generalizing s with
  | nil =>
    cases h
    exact ⟨rfl, rfl, hc, Nat.le_refl _, fun _ => rfl⟩
  | append_singleton xs x ih =>
    rw [probes, List.foldlM_append, bind_eq_ok] at h
    obtain ⟨t, ht, h⟩ := h
    obtain ⟨s', hx, h⟩ := bind_eq_ok.mp h
    cases h
    exact (ih ht).next hx

/-- A round as it meets the connection: at which probe the limit has run out, what each probe
meets, and the time the round ends. -/
structure Pass where
  late : Nat → Bool
  turns : Nat → Turn
  hitAt : Nat

structure Reading where
  reader : Reader String
  conn : Conn

/-- The round of the reader, from what its probes found. -/
def Pass.round (p : Pass) (found : List (Option Nat)) : Round where
  late := p.late
  probe i := (found[i]?.getD none).map UInt64.ofNat
  hitAt := p.hitAt

/-- The probes a pass makes, one for each key it asks for. -/
def Pass.asks (p : Pass) (s : Reader String) : List (String × Turn) :=
  (asked s (p.round [])).zipIdx.map fun x => (x.1.id, p.turns x.2)

variable (L)

def roundOn (bound : Nat) (s : Reading) (p : Pass) : Except String Reading := do
  let r ← probes L bound s.conn (p.asks s.reader)
  return { reader := XNode.round s.reader (p.round r.found), conn := r.conn }

/-- The rounds that begin before the limit, up to where no key is left. -/
def roundsOn (bound : Nat) : Reading → List Pass → Except String Reading
  | s, [] => .ok s
  | s, p :: ps =>
    if s.reader.pending.isEmpty then .ok s
    else do
      let t ← roundOn L bound s p
      roundsOn bound t ps

variable {L}

/-- A round makes its first probes, up to where the limit has run out. -/
theorem exists_stepsMade (s : Reader String) (r : Round) :
    ∃ k ≤ roundSize s, stepsMade s r = List.range k := by
  have hpre := List.takeWhile_prefix (l := List.range (roundSize s)) fun step => !r.late step
  obtain hk := List.prefix_iff_eq_take.mp hpre
  refine ⟨min (stepsMade s r).length (roundSize s), min_le_right .., ?_⟩
  rw [← List.take_range]
  exact hk

/-- The key of a step is what the round asks for there. -/
theorem asked_getElem? {s : Reader String} {r : Round} {step : Nat} (h : step ∈ stepsMade s r) :
    (asked s r)[step]? = target s step := by
  obtain ⟨k, hk, hsteps⟩ := exists_stepsMade s r
  rw [hsteps, List.mem_range] at h
  have hall : ∀ i ∈ List.range k, target s i = (queue s)[i]? := fun i hi =>
    target_eq (Nat.lt_of_lt_of_le (List.mem_range.mp hi) hk)
  rw [asked, hsteps, List.filterMap_congr hall, Lib.Rotation.filterMap_range,
    List.getElem?_take_of_lt h, hall step (List.mem_range.mpr h)]

/-- What the reader has to go by for a key: an answer for it among these messages. -/
def Answered (as : List (Arrival Msg)) (e : Cold String) : Prop := answers e.id as ≠ []

theorem Answered.append {as bs : List (Arrival Msg)} {e : Cold String}
    (h : Answered as e ∨ Answered bs e) : Answered (as ++ bs) e := by
  unfold Answered answers at *
  rw [List.filterMap_append]
  intro hnil
  obtain ⟨ha, hb⟩ := List.append_eq_nil_iff.mp hnil
  exact h.elim (fun h => h ha) fun h => h hb

theorem Answered.of_mem_flatten {part : List (Arrival Msg)} {parts : List (List (Arrival Msg))}
    {e : Cold String} (h : Answered part e) (hmem : part ∈ parts) : Answered parts.flatten e := by
  obtain ⟨pre, post, rfl⟩ := List.append_of_mem hmem
  rw [List.flatten_append, List.flatten_cons]
  exact .append (.inr (.append (.inl h)))

/-- A key the round finds readable was answered for, by a message of its own probe. -/
theorem answered_of_seen {s : Reader String} {p : Pass} {found : List (Option Nat)}
    {parts : List (List (Arrival Msg))}
    (hfound : found = ((p.asks s).zip parts).map fun x => (answers x.1.1 x.2).getLast?)
    {e : Cold String} (he : e.id ∈ seen s (p.round found)) : Answered parts.flatten e := by
  obtain ⟨step, hstep, hid⟩ := List.mem_filterMap.mp he
  obtain ⟨hmade, hhit⟩ := List.mem_filter.mp hstep
  obtain ⟨e', ht, hid⟩ := Option.map_eq_some_iff.mp hid
  have hasked : (p.asks s)[step]? = some (e'.id, p.turns step) := by
    have := asked_getElem? (s := s) (r := p.round []) hmade
    rw [Pass.asks, List.getElem?_map, List.getElem?_zipIdx, this, ht]
    simp
  have hsome : ∃ n, found[step]? = some (some n) := by
    cases hf : found[step]? with
    | none => simp [Pass.round, hf] at hhit
    | some o =>
      cases o with
      | none => simp [Pass.round, hf] at hhit
      | some n => exact ⟨n, rfl⟩
  obtain ⟨n, hn⟩ := hsome
  rw [hfound, List.getElem?_map, Option.map_eq_some_iff] at hn
  obtain ⟨x, hx, hlast⟩ := hn
  obtain ⟨hx1, hx2⟩ := List.getElem?_zip_eq_some.mp hx
  rw [hasked] at hx1
  have hne : Answered x.2 e := by
    intro hnil
    rw [← hid] at hnil
    rw [← Option.some.inj hx1, hnil] at hlast
    cases hlast
  exact hne.of_mem_flatten (List.mem_of_getElem? hx2)

/-- What a reader's lines rest on: the keys it no longer waits for were answered for among the
messages it took, and each line it prints is about such a key. -/
structure Served (L : Labels) (cold : List (Cold String)) (printed : List Str)
    (inbox : List (Arrival Msg)) (s : Reading) : Prop where
  held : Held L s.conn.ledger
  pending : ∀ e ∈ s.reader.pending, e ∈ cold
  taken : ∃ as, inbox = as ++ s.conn.inbox ∧
    (∀ e ∈ cold, e ∉ s.reader.pending → Answered as e) ∧
    ∀ line ∈ s.reader.printed, line ∈ printed ∨
      ∃ e ∈ cold, ∃ hitAt, line = readOf hitAt e ∧ Answered as e

/-- **Step.** -/
theorem Served.round {bound : Nat} {cold : List (Cold String)} {printed : List Str}
    {inbox : List (Arrival Msg)} {s s' : Reading} (h : Served L cold printed inbox s) {p : Pass}
    (hp : roundOn L bound s p = .ok s') : Served L cold printed inbox s' := by
  obtain ⟨r, hr, hp⟩ := bind_eq_ok.mp hp
  cases hp
  have hacc := account_of_probes h.held hr
  have hinbox := hacc.inbox
  have hfound := hacc.found
  generalize partsOf bound (p.asks s.reader) s.conn.inbox = parts at hinbox hfound
  obtain ⟨as, hin, hgone, hlines⟩ := h.taken
  refine ⟨hacc.held, fun e he => h.pending e (List.mem_of_mem_filter he),
    as ++ parts.flatten, by rw [hin, hinbox, List.append_assoc], fun e he hnot => ?_,
    fun line hline => ?_⟩
  · by_cases hpend : e ∈ s.reader.pending
    · refine .append (.inr (answered_of_seen hfound ?_))
      by_contra hunseen
      exact hnot (List.mem_filter.mpr ⟨hpend, by simpa using hunseen⟩)
    · exact .append (.inl (hgone e he hpend))
  · obtain hline | hline := List.mem_append.mp hline
    · obtain hline | ⟨e, he, hitAt, heq, hans⟩ := hlines line hline
      · exact .inl hline
      · exact .inr ⟨e, he, hitAt, heq, .append (.inl hans)⟩
    · obtain ⟨e, he, rfl⟩ := List.mem_map.mp hline
      obtain ⟨hpend, hseen⟩ := List.mem_filter.mp he
      exact .inr ⟨e, h.pending e hpend, _, rfl,
        .append (.inr (answered_of_seen hfound (by simpa using hseen)))⟩

/-- **The reader never takes one key's answer for another's**, on a connection that owes
nothing, whatever it holds. -/
theorem reader_served {bound : Nat} {cold : List (Cold String)} {printed : List Str} {c : Conn}
    (hc : Held L c.ledger) {ps : List Pass} {s : Reading}
    (h : roundsOn L bound ⟨start cold printed, c⟩ ps = .ok s) :
    Served L cold printed c.inbox s := by
  have hrun : ∀ (ps : List Pass) (t : Reading), Served L cold printed c.inbox t →
      roundsOn L bound t ps = .ok s → Served L cold printed c.inbox s := by
    intro ps
    induction ps with
    | nil =>
      intro t ht h
      cases h
      exact ht
    | cons p ps ih =>
      intro t ht h
      unfold roundsOn at h
      split at h
      · cases h
        exact ht
      · obtain ⟨u, hu, h⟩ := bind_eq_ok.mp h
        exact ih u (ht.round hu) h
  refine hrun ps _ ⟨hc, fun e he => he, [], rfl, fun e he hnot => absurd he hnot, ?_⟩ h
  exact fun line hline => .inl hline

def twoCold : List (Cold String) :=
  [⟨"A".toList, "a", 0, "1".toList⟩, ⟨"B".toList, "b", 0, "1".toList⟩]

def onePass : List Pass := [⟨fun _ => false, fun i => ⟨9 * i, .ok (), 9 * i, 9 * i⟩, 12⟩]

/-- The control pass asked for both keys, and neither answer has come. -/
def askedBoth : Conn where
  ledger := (send (.table ["get/0", "get/1", "get/2", "get/3"] [])
    (send (.table ["get/0", "get/1", "get/2", "get/3"] []) {} (.contractOp (.get "a"))).2
      (.contractOp (.get "b"))).2
  inbox := [⟨.ok (.contractResponse (.getResponse "b" [])), 10, 10⟩]

/-- The second key is read by the late answer of its own, and of no bytes. -/
theorem reader_served_second :
    ∃ s, roundsOn (.table ["get/0", "get/1", "get/2", "get/3"] []) 5
        ⟨start twoCold [], askedBoth⟩ onePass = .ok s ∧ s.reader.pending.map Cold.id = ["a"] ∧
      Served (.table ["get/0", "get/1", "get/2", "get/3"] []) twoCold [] askedBoth.inbox s :=
  ⟨_, rfl, by decide +kernel,
    @reader_served _ 5 _ _ _ (.asks (.asks held_nil "a") "b") onePass _ rfl⟩

end FreenetHarness.XNode.Once
