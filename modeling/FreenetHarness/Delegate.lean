import FreenetHarness.Lib.Count
import FreenetHarness.Lib.Run
import FreenetHarness.Lib.Number

/-! # The probe delegate and its put rounds

A `putk` message makes the delegate ask the node for `k` puts at once; every answer is
tallied in its secrets, and `stat` reports the tally. `tally_iff` is about the delegate
together with the requests that are in flight: it says in which runs the tally is that of
the latest round. -/
namespace FreenetHarness.Delegate
open FreenetHarness.Lib.Count FreenetHarness.Lib.Run FreenetHarness.Lib.Text
  FreenetHarness.Lib.Number

abbrev Bytes := List UInt8

def ascii (s : String) : Bytes := s.toList.map fun c => UInt8.ofNat c.toNat

/-- `u32::from_le_bytes`. -/
def fromLeBytes (b : Bytes) : UInt32 :=
  UInt32.ofNat (b.foldr (fun d n => d.toNat + 256 * n) 0)

/-! ## The delegate -/

/-- What the delegate keeps. A counter is stored as its four bytes and a text as UTF-8;
nothing else writes these secrets. -/
structure Secrets where
  fired : Option UInt32 := none
  lastGet : Option Str := none
  putAsked : Option UInt32 := none
  putOk : Option UInt32 := none
  putErr : Option UInt32 := none
  putErrs : Option Str := none
  deriving DecidableEq

def counter (v : Option UInt32) : UInt32 := v.getD 0

def bump (v : Option UInt32) : Option UInt32 := some (counter v + 1)

def secretText (v : Option Str) : Str := v.getD []

structure PutContractRequest where
  code : Bytes
  params : Bytes
  state : Bytes
  deriving DecidableEq

inductive Outbound where
  | applicationMessage (text : Str)
  | getContractRequest (id : Bytes)
  | putContractRequest (r : PutContractRequest)
  deriving DecidableEq

inductive Inbound where
  | applicationMessage (payload : Bytes)
  | getContractResponse (state : Option Bytes)
  | putContractResponse (contractId : Str) (result : Except Str Unit)
  | wakeupFired
  | other

/-- What the delegate is built on: the `blake3` hash, and the host's wakeups where they
are built in. -/
structure Host where
  hash : Bytes → Bytes
  scheduleWakeup : Option (UInt32 → Except Str Unit)

def reply (text : Str) : List Outbound := [.applicationMessage text]

def kindRaw : UInt8 := 0

/-- The `k` contracts of one `putk` round: distinct bodies, so distinct keys. -/
def round (host : Host) (code nonce : Bytes) (k : Nat) : List PutContractRequest :=
  (List.range k).map fun i =>
    let state := kindRaw :: ascii "delegate-put " ++ nonce ++ [UInt8.ofNat i]
    { code, params := host.hash state, state }

def isPutk (p : Bytes) : Bool := 21 < p.length && p.take 4 == ascii "putk"

/-- How many puts a `putk` message asks for. -/
def putkSize (p : Bytes) : Nat := (p[4]?.getD 0).toNat

/-- The requests of a `putk` message. -/
def putkRound (host : Host) (p : Bytes) : List PutContractRequest :=
  round host (p.drop 21) ((p.drop 5).take 16) (putkSize p)

/-- The report `stat` is answered with; its free text goes last. -/
def statText (s : Secrets) : Str :=
  let asked := counter s.putAsked
  let ok := counter s.putOk
  let err := counter s.putErr
  let errs := secretText s.putErrs
  unwords ["fired=".toList ++ digits (counter s.fired).toNat,
    "get=".toList ++ s.lastGet.getD "none".toList,
    "asked=".toList ++ digits asked.toNat, "ok=".toList ++ digits ok.toNat,
    "err=".toList ++ digits err.toNat,
    "put=".toList ++ (digits (ok + err).toNat ++ '/' :: digits asked.toNat),
    "errs=".toList ++ if errs.isEmpty then "none".toList else errs]

/-- The refusals so far and one more, in the node's own words. -/
def addRefusal (errs e : Str) : Str :=
  (if errs.isEmpty ∨ errs = "none".toList then [] else errs ++ [';']) ++
    e.map fun c => if isWhitespace c then '_' else c

def applicationMessage (host : Host) (s : Secrets) (p : Bytes) : Secrets × List Outbound :=
  if p.length = 8 ∧ p.take 4 = ascii "wake" then
    match host.scheduleWakeup with
    | some schedule =>
      match schedule (fromLeBytes (p.drop 4)) with
      | .ok () => (s, reply "armed".toList)
      | .error code => (s, reply ("wake-err ".toList ++ code))
    | none => (s, reply "built without wakeup".toList)
  else if p.length = 35 ∧ p.take 3 = ascii "get" then
    ({ s with lastGet := some "pending".toList }, [.getContractRequest (p.drop 3)])
  else if isPutk p then
    ({ s with
        putAsked := some (UInt32.ofNat (putkSize p))
        putOk := some 0
        putErr := some 0
        putErrs := some "none".toList },
      (putkRound host p).map .putContractRequest)
  else if p = ascii "stat" ∨ p = ascii "putstat" then (s, reply (statText s))
  else (s, reply "unknown".toList)

/-- One message to the delegate: its new secrets and what it sends. -/
def process (host : Host) (s : Secrets) : Inbound → Secrets × List Outbound
  | .applicationMessage p => applicationMessage host s p
  | .getContractResponse state =>
    let text := match state with
      | some b => "ok:".toList ++ digits b.length
      | none => "notfound".toList
    ({ s with lastGet := some text }, reply ("got ".toList ++ text))
  | .putContractResponse id (.ok ()) =>
    ({ s with putOk := bump s.putOk }, reply ("put ok:".toList ++ id))
  | .putContractResponse _ (.error e) =>
    ({ s with putErr := bump s.putErr, putErrs := some (addRefusal (secretText s.putErrs) e) },
      reply ("put err:".toList ++ e))
  | .wakeupFired => ({ s with fired := bump s.fired }, [])
  | .other => (s, [])

/-! ## The delegate and the requests in flight -/

/-- A put the node has yet to answer, and the `putk` message it came from. -/
structure Request where
  round : Nat
  put : PutContractRequest
  deriving DecidableEq

/-- An answer the delegate was given: to which round's request, and whether it was a
success. -/
structure Answer where
  round : Nat
  ok : Bool
  deriving DecidableEq

structure World where
  secrets : Secrets := {}
  /-- How many `putk` messages the delegate has had. -/
  rounds : Nat := 0
  inFlight : List Request := []
  answers : List Answer := []
  deriving DecidableEq

inductive Event where
  /-- An app sends the delegate a message. -/
  | app (payload : Bytes)
  /-- The node answers the `i`-th put in flight, and no request twice: it is in flight no more. -/
  | answer (i : Nat) (contractId : Str) (result : Except Str Unit)
  | got (state : Option Bytes)
  | wakeup
  | other

def putOf : Outbound → Option PutContractRequest
  | .putContractRequest r => some r
  | _ => none

/-- The delegate is given a message other than an answer to a put. -/
def deliver (host : Host) (w : World) (m : Inbound) (opens : Bool) : World :=
  let r := process host w.secrets m
  let round := if opens then w.rounds + 1 else w.rounds
  { w with
    secrets := r.1
    rounds := round
    inFlight := w.inFlight ++ (r.2.filterMap putOf).map fun put => { round, put } }

def step (host : Host) (w : World) : Event → World
  | .app p => deliver host w (.applicationMessage p) (isPutk p)
  | .answer i id result =>
    match w.inFlight[i]? with
    | none => w
    | some req =>
      { w with
        secrets := (process host w.secrets (.putContractResponse id result)).1
        inFlight := w.inFlight.eraseIdx i
        answers := w.answers ++ [{ round := req.round, ok := result.isOk }] }
  | .got state => deliver host w (.getContractResponse state) false
  | .wakeup => deliver host w .wakeupFired false
  | .other => deliver host w .other false

/-- What the harness polls for: as many answers as requests. -/
def pollPut (k : Nat) (r : Str) : Bool :=
  (words r).findSome? (stripPrefix "put=".toList) == some (digits k ++ '/' :: digits k)

/-! ## What the tally means -/

/-- The answers to the latest round's requests with the given outcome. -/
def latest (w : World) (ok : Bool) : Nat :=
  w.answers.countP fun a => a.round == w.rounds && a.ok == ok

/-- The latest round's requests that are not answered yet. -/
def unanswered (w : World) : Nat := w.inFlight.countP fun r => r.round == w.rounds

/-- The report is about the latest round. -/
structure OfLatest (w : World) : Prop where
  ok : (counter w.secrets.putOk).toNat = latest w true
  err : (counter w.secrets.putErr).toNat = latest w false
  bounded : counter w.secrets.putOk + counter w.secrets.putErr ≤ counter w.secrets.putAsked
  complete : ∀ k, pollPut k (statText w.secrets) = true →
    k = (counter w.secrets.putAsked).toNat ∧ unanswered w = 0

/-- An answer delivered is to a request of the latest round. -/
def Timely (w : World) : Event → Prop
  | .answer i _ _ => ∀ req, w.inFlight[i]? = some req → req.round = w.rounds
  | _ => True

/-! ## The report reads back -/

/-- The free texts of the report hold no whitespace. -/
structure Tidy (s : Secrets) : Prop where
  lastGet : ∀ t, s.lastGet = some t → Solid t
  putErrs : ∀ t, s.putErrs = some t → Solid t

theorem isWord_field {name text : Str} (hn : IsWord name) (ht : Solid text) :
    IsWord (name ++ text) := by
  refine ⟨by simp [hn.nonempty], fun c hc => ?_⟩
  rcases List.mem_append.mp hc with hc | hc
  · exact hn.solid c hc
  · exact ht c hc

theorem words_statText {s : Secrets} (h : Tidy s) :
    ∃ errs, words (statText s) =
      ["fired=".toList ++ digits (counter s.fired).toNat,
        "get=".toList ++ s.lastGet.getD "none".toList,
        "asked=".toList ++ digits (counter s.putAsked).toNat,
        "ok=".toList ++ digits (counter s.putOk).toNat,
        "err=".toList ++ digits (counter s.putErr).toNat,
        "put=".toList ++ (digits (counter s.putOk + counter s.putErr).toNat ++
          '/' :: digits (counter s.putAsked).toNat), "errs=".toList ++ errs] := by
  refine ⟨_, words_unwords ?_⟩
  have hd : ∀ n, Solid (digits n) := fun n => (isWord_digits n).solid
  have hget : Solid (s.lastGet.getD "none".toList) := by
    cases hg : s.lastGet with
    | none => decide
    | some t => exact h.lastGet t hg
  have hput : ∀ m n : Nat, Solid (digits m ++ '/' :: digits n) := by
    intro m n c hc
    simp only [List.mem_append, List.mem_cons] at hc
    rcases hc with hc | rfl | hc
    · exact hd m c hc
    · decide
    · exact hd n c hc
  have herrs : Solid (if (secretText s.putErrs).isEmpty then "none".toList
      else secretText s.putErrs) := by
    split
    · decide
    · rename_i hne
      cases he : s.putErrs with
      | none => simp [secretText]
      | some t => exact h.putErrs t he
  intro w hw
  simp only [List.mem_cons, List.not_mem_nil, or_false] at hw
  rcases hw with rfl | rfl | rfl | rfl | rfl | rfl | rfl
  · exact isWord_field (by decide) (hd _)
  · exact isWord_field (by decide) hget
  · exact isWord_field (by decide) (hd _)
  · exact isWord_field (by decide) (hd _)
  · exact isWord_field (by decide) (hd _)
  · exact isWord_field (by decide) (hput _ _)
  · exact isWord_field (by decide) herrs

/-- What the harness polls for is that the tally equals the requests, and both are `k`. -/
theorem pollPut_statText {s : Secrets} (h : Tidy s) (k : Nat) :
    pollPut k (statText s) = true ↔
      (counter s.putOk + counter s.putErr).toNat = k ∧ (counter s.putAsked).toNat = k := by
  obtain ⟨errs, hw⟩ := words_statText h
  have hfind : (words (statText s)).findSome? (stripPrefix "put=".toList) =
      some (digits (counter s.putOk + counter s.putErr).toNat ++
        '/' :: digits (counter s.putAsked).toNat) := by
    rw [hw]
    rfl
  rw [pollPut, hfind, beq_iff_eq, Option.some.injEq]
  constructor
  · exact fun h => digits_append_inj (by decide) h
  · rintro ⟨hsum, hasked⟩
    rw [hsum, hasked]

/-! ## What a message does to the tally -/

section Messages

variable {host : Host} {s : Secrets} {p : Bytes}

/-- A message that opens no round leaves the tally as it is and asks for no put. -/
structure LeavesTally (s : Secrets) (r : Secrets × List Outbound) : Prop where
  asked : r.1.putAsked = s.putAsked
  ok : r.1.putOk = s.putOk
  err : r.1.putErr = s.putErr
  noPuts : r.2.filterMap putOf = []

theorem applicationMessage_putk (h : isPutk p = true) :
    applicationMessage host s p =
      ({ s with putAsked := some (UInt32.ofNat (putkSize p)), putOk := some 0, putErr := some 0
                putErrs := some "none".toList },
        (putkRound host p).map .putContractRequest) := by
  obtain ⟨hlen, htag⟩ : 21 < p.length ∧ p.take 4 = ascii "putk" := by simpa [isPutk] using h
  have hget : p.take 3 ≠ ascii "get" := by
    intro hget
    have := congrArg (List.take 3) htag
    rw [List.take_take, min_eq_left (by decide), hget] at this
    exact absurd this (by decide)
  rw [applicationMessage, if_neg (by omega), if_neg fun hg => hget hg.2, if_pos h]

theorem applicationMessage_leavesTally (h : isPutk p = false) :
    LeavesTally s (applicationMessage host s p) := by
  unfold applicationMessage
  rw [h]
  split
  · split
    · split <;> exact ⟨rfl, rfl, rfl, rfl⟩
    · exact ⟨rfl, rfl, rfl, rfl⟩
  split
  · exact ⟨rfl, rfl, rfl, rfl⟩
  rw [if_neg (by decide)]
  split <;> exact ⟨rfl, rfl, rfl, rfl⟩

theorem putOf_requests (rs : List PutContractRequest) :
    (rs.map Outbound.putContractRequest).filterMap putOf = rs := by
  rw [List.filterMap_map]
  exact List.filterMap_some

theorem length_putkRound : (putkRound host p).length = putkSize p := by
  simp [putkRound, round]

theorem putkSize_lt : putkSize p < 256 := (p[4]?.getD 0).toNat_lt

theorem addRefusal_solid {errs e : Str} (h : Solid errs) :
    Solid (addRefusal errs e) := by
  intro c hc
  rcases List.mem_append.mp hc with hc | hc
  · split at hc
    · cases hc
    · rcases List.mem_append.mp hc with hc | hc
      · exact h c hc
      · obtain rfl := List.mem_singleton.mp hc
        decide
  · obtain ⟨d, -, rfl⟩ := List.mem_map.mp hc
    split
    · decide
    · rename_i hd
      exact Bool.eq_false_iff.mpr hd

theorem applicationMessage_tidy (h : Tidy s) : Tidy (applicationMessage host s p).1 := by
  unfold applicationMessage
  split
  · split
    · split <;> exact h
    · exact h
  split
  · refine ⟨fun t ht => ?_, h.putErrs⟩
    cases ht
    decide
  split
  · refine ⟨h.lastGet, fun t ht => ?_⟩
    cases ht
    decide
  split <;> exact h

theorem process_tidy (host : Host) (h : Tidy s) (m : Inbound) : Tidy (process host s m).1 := by
  cases m with
  | applicationMessage p => exact applicationMessage_tidy h
  | getContractResponse state =>
    refine ⟨fun t ht => ?_, h.putErrs⟩
    cases ht
    cases state with
    | none => decide
    | some b => exact (isWord_field (by decide) (isWord_digits b.length).solid).solid
  | putContractResponse id result =>
    cases result with
    | ok _ => exact ⟨h.lastGet, h.putErrs⟩
    | error e =>
      refine ⟨h.lastGet, fun t ht => ?_⟩
      cases ht
      refine addRefusal_solid ?_
      cases he : s.putErrs with
      | none => simp [secretText]
      | some t => exact h.putErrs t he
  | wakeupFired => exact ⟨h.lastGet, h.putErrs⟩
  | other => exact h

end Messages

/-! ## What every run keeps -/

section Runs

variable {host : Host} {w : World}

/-- What holds in every state: each of the latest round's requests is in flight or
answered, and no request is of a later round. -/
structure Inv (w : World) : Prop where
  accounted : unanswered w + (latest w true + latest w false) =
    (counter w.secrets.putAsked).toNat
  requests : ∀ r ∈ w.inFlight, r.round ≤ w.rounds
  answers : ∀ a ∈ w.answers, a.round ≤ w.rounds
  tidy : Tidy w.secrets

theorem inv_init : Inv {} := ⟨rfl, by simp, by simp, by simp, by simp⟩

/-- A step that neither opens a round nor answers a put. -/
structure Quiet (w w' : World) : Prop where
  rounds : w'.rounds = w.rounds
  inFlight : w'.inFlight = w.inFlight
  answers : w'.answers = w.answers
  asked : w'.secrets.putAsked = w.secrets.putAsked
  ok : w'.secrets.putOk = w.secrets.putOk
  err : w'.secrets.putErr = w.secrets.putErr

theorem Quiet.refl (w : World) : Quiet w w := ⟨rfl, rfl, rfl, rfl, rfl, rfl⟩

theorem quiet_deliver {m : Inbound} (h : LeavesTally w.secrets (process host w.secrets m)) :
    Quiet w (deliver host w m false) :=
  ⟨rfl, by simp [deliver, h.noPuts], rfl, h.asked, h.ok, h.err⟩

theorem Quiet.unanswered {w' : World} (q : Quiet w w') : unanswered w' = unanswered w := by
  rw [Delegate.unanswered, Delegate.unanswered, q.inFlight, q.rounds]

theorem Quiet.latest {w' : World} (q : Quiet w w') (ok : Bool) : latest w' ok = latest w ok := by
  rw [Delegate.latest, Delegate.latest, q.answers, q.rounds]

theorem step_putk {p : Bytes} (h : isPutk p = true) :
    step host w (.app p) =
      { secrets := { w.secrets with
          putAsked := some (UInt32.ofNat (putkSize p)), putOk := some 0, putErr := some 0
          putErrs := some "none".toList }
        rounds := w.rounds + 1
        inFlight := w.inFlight ++
          (putkRound host p).map fun put => { round := w.rounds + 1, put }
        answers := w.answers } := by
  rw [step, deliver, h, process, applicationMessage_putk h, putOf_requests]
  rfl

/-- A step opens a round, answers a put in flight, or is quiet. -/
theorem step_cases (host : Host) (w : World) (e : Event) :
    (∃ p, e = .app p ∧ isPutk p = true) ∨
      (∃ i id result req, e = .answer i id result ∧ w.inFlight[i]? = some req) ∨
      Quiet w (step host w e) ∧ Timely w e := by
  cases e with
  | app p =>
    cases hp : isPutk p with
    | true => exact .inl ⟨p, rfl, hp⟩
    | false =>
      refine .inr (.inr ⟨?_, trivial⟩)
      rw [step, hp]
      exact quiet_deliver (applicationMessage_leavesTally hp)
  | answer i id result =>
    cases hr : w.inFlight[i]? with
    | some req => exact .inr (.inl ⟨i, id, result, req, rfl, hr⟩)
    | none =>
      refine .inr (.inr ⟨?_, fun req hreq => ?_⟩)
      · rw [step, hr]
        exact .refl w
      · rw [hr] at hreq
        cases hreq
  | got state => exact .inr (.inr ⟨quiet_deliver ⟨rfl, rfl, rfl, rfl⟩, trivial⟩)
  | wakeup => exact .inr (.inr ⟨quiet_deliver ⟨rfl, rfl, rfl, rfl⟩, trivial⟩)
  | other => exact .inr (.inr ⟨quiet_deliver ⟨rfl, rfl, rfl, rfl⟩, trivial⟩)

theorem step_tidy (h : Tidy w.secrets) (e : Event) : Tidy (step host w e).secrets := by
  cases e with
  | app p => exact process_tidy host h (.applicationMessage p)
  | answer i id result =>
    rw [step]
    split
    · exact h
    · exact process_tidy host h (.putContractResponse id result)
  | got state => exact process_tidy host h (.getContractResponse state)
  | wakeup => exact process_tidy host h .wakeupFired
  | other => exact process_tidy host h .other

theorem latest_answer {i : Nat} {id : Str} {result : Except Str Unit} {req : Request}
    (h : w.inFlight[i]? = some req) (ok : Bool) :
    latest (step host w (.answer i id result)) ok =
      latest w ok + if req.round == w.rounds && result.isOk == ok then 1 else 0 := by
  rw [step, h]
  simp only [latest, List.countP_append, List.countP_singleton]

theorem unanswered_answer {i : Nat} {id : Str} {result : Except Str Unit} {req : Request}
    (h : w.inFlight[i]? = some req) :
    unanswered w = unanswered (step host w (.answer i id result)) +
      if req.round == w.rounds then 1 else 0 := by
  rw [step, h]
  exact countP_eraseIdx h

/-- Nothing has been answered yet of a round about to begin. -/
theorem no_answers (hw : Inv w) (ok : Bool) :
    (w.answers.countP fun a => a.round == w.rounds + 1 && a.ok == ok) = 0 := by
  rw [List.countP_eq_zero]
  intro a ha
  have := hw.answers a ha
  simp only [Bool.and_eq_true, beq_iff_eq, not_and]
  omega

/-- A new round has all its requests in flight and no answers. -/
theorem inv_putk {p : Bytes} (h : isPutk p = true) (hw : Inv w) : Inv (step host w (.app p)) := by
  have htidy := @step_tidy host w hw.tidy (.app p)
  rw [step_putk h] at htidy ⊢
  refine ⟨?_, ?_, fun a ha => Nat.le_succ_of_le (hw.answers a ha), htidy⟩
  · have hold : w.inFlight.countP (fun r => r.round == w.rounds + 1) = 0 := by
      rw [List.countP_eq_zero]
      intro r hr
      have := hw.requests r hr
      simp only [beq_iff_eq]
      omega
    have hnew : ((putkRound host p).map fun put => Request.mk (w.rounds + 1) put).countP
        (fun r => r.round == w.rounds + 1) = putkSize p := by
      rw [List.countP_map, ← @length_putkRound host p, List.countP_eq_length]
      simp
    have hsize := @putkSize_lt p
    simp only [unanswered, latest, List.countP_append, hold, hnew, no_answers hw, counter,
      Option.getD_some, UInt32.toNat_ofNat']
    omega
  · intro r hr
    rcases List.mem_append.mp hr with hr | hr
    · exact Nat.le_succ_of_le (hw.requests r hr)
    · obtain ⟨put, -, rfl⟩ := List.mem_map.mp hr
      exact le_rfl

/-- An answer is counted under one of the two outcomes. -/
theorem one_outcome (mine ok : Bool) :
    ((if mine && ok == true then 1 else 0) + if mine && ok == false then 1 else 0) =
      if mine then 1 else 0 := by
  cases mine <;> cases ok <;> rfl

theorem inv_answer {i : Nat} {id : Str} {result : Except Str Unit} {req : Request}
    (h : w.inFlight[i]? = some req) (hw : Inv w) : Inv (step host w (.answer i id result)) := by
  have hun := @unanswered_answer host w i id result req h
  have hok := @latest_answer host w i id result req h true
  have herr := @latest_answer host w i id result req h false
  have hacc := hw.accounted
  have hasked : (step host w (.answer i id result)).secrets.putAsked = w.secrets.putAsked := by
    rw [step, h]
    cases result <;> rfl
  refine ⟨?_, ?_, ?_, step_tidy hw.tidy _⟩
  · have hone := one_outcome (req.round == w.rounds) result.isOk
    rw [hasked, hok, herr]
    omega
  · intro r hr
    rw [step, h] at hr ⊢
    exact hw.requests r (List.mem_of_mem_eraseIdx hr)
  · intro a ha
    rw [step, h] at ha ⊢
    rcases List.mem_append.mp ha with ha | ha
    · exact hw.answers a ha
    · obtain rfl := List.mem_singleton.mp ha
      exact hw.requests req (List.mem_of_getElem? h)

theorem inv_quiet {w' : World} (q : Quiet w w') (ht : Tidy w'.secrets) (hw : Inv w) : Inv w' := by
  refine ⟨?_, ?_, ?_, ht⟩
  · rw [q.unanswered, q.latest, q.latest, q.asked]
    exact hw.accounted
  · rw [q.inFlight, q.rounds]
    exact hw.requests
  · rw [q.answers, q.rounds]
    exact hw.answers

theorem inv_step (e : Event) (hw : Inv w) : Inv (step host w e) := by
  rcases step_cases host w e with ⟨p, rfl, hp⟩ | ⟨i, id, result, req, rfl, hr⟩ | ⟨hq, -⟩
  · exact inv_putk hp hw
  · exact inv_answer hr hw
  · exact inv_quiet hq (step_tidy hw.tidy e) hw

/-! ## When the report is about the latest round -/

/-- The two counts decide it: with every request accounted for, they bound the tally and
leave nothing unanswered where it is full. -/
theorem ofLatest_iff (hw : Inv w) :
    OfLatest w ↔ (counter w.secrets.putOk).toNat = latest w true ∧
      (counter w.secrets.putErr).toNat = latest w false := by
  constructor
  · exact fun h => ⟨h.ok, h.err⟩
  · rintro ⟨hok, herr⟩
    have hacc := hw.accounted
    have hlt := (counter w.secrets.putAsked).toNat_lt
    have hsum : (counter w.secrets.putOk + counter w.secrets.putErr).toNat =
        latest w true + latest w false := by
      rw [UInt32.toNat_add, hok, herr]
      omega
    refine ⟨hok, herr, ?_, fun k hk => ?_⟩
    · rw [UInt32.le_iff_toNat_le, hsum]
      omega
    · obtain ⟨hk, hasked⟩ := (pollPut_statText hw.tidy k).mp hk
      omega

theorem counter_bump {v : Option UInt32} :
    (counter (bump v)).toNat = ((counter v).toNat + 1) % 2 ^ 32 := by
  rw [counter, bump, Option.getD_some, UInt32.toNat_add]
  rfl

/-- An answer is tallied, whichever round it is of. -/
theorem tally_answer {i : Nat} {id : Str} {result : Except Str Unit} {req : Request}
    (h : w.inFlight[i]? = some req) :
    (counter (step host w (.answer i id result)).secrets.putOk).toNat =
        ((counter w.secrets.putOk).toNat + if result.isOk == true then 1 else 0) % 2 ^ 32 ∧
      (counter (step host w (.answer i id result)).secrets.putErr).toNat =
        ((counter w.secrets.putErr).toNat + if result.isOk == false then 1 else 0) % 2 ^ 32 := by
  have hsame : ∀ v : Option UInt32, (counter v).toNat = ((counter v).toNat + 0) % 2 ^ 32 :=
    fun v => (Nat.mod_eq_of_lt (counter v).toNat_lt).symm
  rw [step, h]
  cases result with
  | ok _ => exact ⟨counter_bump, hsame _⟩
  | error e => exact ⟨hsame _, counter_bump⟩

theorem ofLatest_answer_iff {i : Nat} {id : Str} {result : Except Str Unit} {req : Request}
    (hr : w.inFlight[i]? = some req) (hw : Inv w) (h : OfLatest w) :
    OfLatest (step host w (.answer i id result)) ↔ req.round = w.rounds := by
  obtain ⟨htallyOk, htallyErr⟩ := @tally_answer host w i id result req hr
  have hun := @unanswered_answer host w i id result req hr
  have hacc := hw.accounted
  have hlt := (counter w.secrets.putAsked).toNat_lt
  rw [ofLatest_iff (inv_answer hr hw), htallyOk, htallyErr, latest_answer hr, latest_answer hr,
    h.ok, h.err]
  cases hm : req.round == w.rounds with
  | true =>
    rw [hm, if_pos rfl] at hun
    have hfit : ∀ ok : Bool, latest w ok + (if result.isOk == ok then 1 else 0) < 2 ^ 32 := by
      intro ok
      cases ok <;> split <;> omega
    simp only [Bool.true_and, beq_iff_eq.mp hm, iff_true]
    exact ⟨Nat.mod_eq_of_lt (hfit true), Nat.mod_eq_of_lt (hfit false)⟩
  | false =>
    -- the count of the answer's outcome goes up by one, and no answer of the round came
    have hmoved : ∀ ok : Bool, ¬ (latest w ok + if ok == ok then 1 else 0) % 2 ^ 32 =
        latest w ok + 0 := by
      intro ok
      rw [if_pos (beq_self_eq_true ok)]
      cases ok <;> omega
    simp only [Bool.false_and, beq_eq_false_iff_ne.mp hm, iff_false, not_and]
    cases result.isOk with
    | true => exact fun hok => absurd hok (hmoved true)
    | false => exact fun _ => hmoved false

/-- **One step.** -/
theorem ofLatest_step_iff (hw : Inv w) (h : OfLatest w) (e : Event) :
    OfLatest (step host w e) ↔ Timely w e := by
  rcases step_cases host w e with ⟨p, rfl, hp⟩ | ⟨i, id, result, req, rfl, hr⟩ | ⟨hq, ht⟩
  · rw [ofLatest_iff (inv_putk hp hw), step_putk hp]
    simp only [latest, no_answers hw, Timely, counter, Option.getD_some, UInt32.toNat_zero,
      and_self]
  · rw [ofLatest_answer_iff hr hw h]
    constructor
    · intro hreq req' hr'
      rw [hr] at hr'
      exact Option.some.inj hr' ▸ hreq
    · exact fun ht => ht req hr
  · rw [ofLatest_iff (inv_step e hw)]
    simp only [hq.ok, hq.err, hq.latest, h.ok, h.err, ht, and_self]

theorem ofLatest_init : OfLatest {} := (ofLatest_iff inv_init).mpr ⟨rfl, rfl⟩

/-- **When the tally is that of the latest round**, of a node that answers no request twice. In
every state a run reaches, the report counts the answers to the latest round's requests and no
others, exactly when no answer of the run is to a request of an earlier round. -/
theorem tally_iff (host : Host) (es : List Event) :
    (∀ fs, fs <+: es → OfLatest (after (step host) {} fs)) ↔ Along (step host) Timely {} es := by
  rw [← along_reached ofLatest_init]
  refine along_congr (I := fun w => Inv w ∧ OfLatest w) ⟨inv_init, ofLatest_init⟩ ?_ ?_
  · exact fun w e _ hi h => ⟨inv_step e hi.1, h⟩
  · exact fun w e _ hi => ofLatest_step_iff hi.1 hi.2 e

/-- A `putk` message for `k` puts of some contract. -/
def putkMessage (k : UInt8) : Event := .app (ascii "putk" ++ [k] ++ List.replicate 17 0)

def plainHost : Host := { hash := id, scheduleWakeup := none }

/-- Two rounds of one put, and the first round's answer. -/
def lateRun : List Event := [putkMessage 1, putkMessage 1, .answer 0 [] (.ok ())]

/-- The late answer fills the tally while the second round's put is in flight, and the
answer to that one overfills it. -/
theorem late_answer_tallied :
    pollPut 1 (statText (after (step plainHost) {} lateRun).secrets) = true ∧
      unanswered (after (step plainHost) {} lateRun) = 1 ∧
      counter (after (step plainHost) {} (lateRun ++ [.answer 0 [] (.ok ())])).secrets.putOk = 2 ∧
      ¬ ∀ fs, fs <+: lateRun → OfLatest (after (step plainHost) {} fs) := by
  have hpoll : pollPut 1 (statText (after (step plainHost) {} lateRun).secrets) = true := by
    decide +kernel
  have hone : unanswered (after (step plainHost) {} lateRun) = 1 := by decide +kernel
  refine ⟨hpoll, hone, by decide +kernel, fun h => ?_⟩
  have hnone := ((h lateRun List.prefix_rfl).complete 1 hpoll).2
  rw [hone] at hnone
  cases hnone

end Runs

end FreenetHarness.Delegate
