import FreenetHarness.Lib.Run
import FreenetHarness.Lib.Tickets
import FreenetHarness.Probe.Ledger

/-! # A connection that records what was asked of it

`Client` puts a ledger in front of the socket: every send begins an operation,
every receive closes one, or none. A label does not say which request an open
entry stands for, so a run carries that beside the ledger (`Conn`); `Conn.Aligned`
says the two stay in step. -/
namespace FreenetHarness.Probe
open FreenetHarness.Lib.Run FreenetHarness.Lib

abbrev Bytes := List UInt8

/-! ## Requests and responses -/

/-- A contract as the client API takes it, with the instance id its code and
parameters give. -/
inductive ContractContainer where
  | wasmV1 (id : String) (code params : Bytes)
  | other (id : String)
  deriving DecidableEq, Repr

def ContractContainer.id : ContractContainer → String
  | .wasmV1 id _ _ => id
  | .other id => id

inductive UpdateData where
  | state (s : Bytes)
  | delta (d : Bytes)
  | other
  deriving DecidableEq, Repr

inductive ContractRequest where
  | put (contract : ContractContainer) (state : Bytes)
  | get (key : String)
  | update (key : String) (data : UpdateData)
  | subscribe (key : String)
  | other
  deriving DecidableEq, Repr

inductive DelegateRequest where
  | registerDelegate
  | other
  deriving DecidableEq, Repr

inductive ClientRequest where
  | contractOp (op : ContractRequest)
  | delegateOp (op : DelegateRequest)
  | disconnect
  | other
  deriving DecidableEq, Repr

inductive ContractResponse where
  | putResponse (key : String)
  | getResponse (key : String) (state : Bytes)
  | other
  deriving DecidableEq, Repr

inductive HostResponse where
  | contractResponse (r : ContractResponse)
  | other
  deriving DecidableEq, Repr

/-- A fixed word per request kind. -/
def describe : ClientRequest → String
  | .contractOp (.put _ _) => "put"
  | .contractOp (.get _) => "get"
  | .contractOp (.update _ _) => "update"
  | .contractOp (.subscribe _) => "subscribe"
  | .contractOp .other => "contract"
  | .delegateOp .registerDelegate => "register-delegate"
  | .delegateOp .other => "delegate"
  | .disconnect => "disconnect"
  | .other => "other"

/-- The payload bytes a request hands to the client API. -/
def offeredBytes : ClientRequest → Nat
  | .contractOp (.put (.wasmV1 _ code params) state) => code.length + params.length + state.length
  | .contractOp (.put (.other _) state) => state.length
  | .contractOp (.update _ (.state s)) => s.length
  | .contractOp (.update _ (.delta d)) => d.length
  | _ => 0

/-- The payload bytes an answer carried back. -/
def receivedBytes : HostResponse → Nat
  | .contractResponse (.getResponse _ state) => state.length
  | _ => 0

/-- The contract key an answer names, when it names one. -/
def namesKey : HostResponse → Option String
  | .contractResponse (.putResponse key) => some key
  | .contractResponse (.getResponse key _) => some key
  | _ => none

/-! ## The client -/

def send (L : Labels) (l : Ledger) (req : ClientRequest) : Label × Ledger :=
  let (id, l) := l.request L (describe req)
  (id, l.offered L id (offeredBytes req))

def sendKeyed (L : Labels) (l : Ledger) (req : ClientRequest) (key : String) : Label × Ledger :=
  let (id, l) := l.requestKeyed L (describe req) key
  (id, l.offered L id (offeredBytes req))

/-- What receiving does to the ledger; the message itself goes to the caller. -/
def recv (L : Labels) (l : Ledger) (got : Except String HostResponse) : Ledger :=
  match got with
  | .ok r =>
    match namesKey r with
    | some k =>
      let (id, l) := l.answered L k
      l.receivedBytes L id (receivedBytes r)
    | none => l.response L
  | .error _ => l.response L

@[simp] theorem send_opened (L : Labels) (l : Ledger) (req : ClientRequest) :
    (send L l req).2.opened = l.opened ++ [(send L l req).1] := by
  simp [send, Ledger.request]

@[simp] theorem sendKeyed_opened (L : Labels) (l : Ledger) (req : ClientRequest) (key : String) :
    (sendKeyed L l req key).2.opened = l.opened ++ [L.label .contract key] := by
  simp [sendKeyed, Ledger.requestKeyed]

theorem recv_opened_named (L : Labels) (l : Ledger) {r : HostResponse} {k : String}
    (h : namesKey r = some k) :
    (recv L l (.ok r)).opened = l.opened.erase (L.label .contract k) := by
  simp [recv, h]

/-! ## Runs -/

/-- A message as it arrives: an answer, and which request it answers, or the
connection's error, which answers none. -/
inductive Message where
  | answer (r : HostResponse) (op : Nat)
  | error (e : String)
  deriving DecidableEq, Repr

def Message.got : Message → Except String HostResponse
  | .answer r _ => .ok r
  | .error e => .error e

/-- The request a message answers. -/
def Message.op : Message → Option Nat
  | .answer _ op => some op
  | .error _ => none

/-- The key a message names. -/
def Message.names : Message → Option String
  | .answer r _ => namesKey r
  | .error _ => none

theorem Message.got_of_names {m : Message} {k : String} (h : m.names = some k) :
    ∃ r, m.got = .ok r ∧ namesKey r = some k := by
  cases m with
  | error e => cases h
  | answer r op => exact ⟨r, rfl, h⟩

/-- A message that names no key is received like an answer to the oldest request. -/
theorem recv_of_names_none (L : Labels) (l : Ledger) {m : Message} (h : m.names = none) :
    recv L l m.got = l.response L := by
  cases m with
  | error e => rfl
  | answer r op => simp [recv, Message.got, show namesKey r = none from h]

inductive Act where
  | send (req : ClientRequest)
  | sendKeyed (req : ClientRequest) (key : String)
  | recv (m : Message)
  | finish (id : Label) (outcome : Outcome)

/-- A client, with the requests it has sent and, beside each open entry, which
of them the entry stands for. -/
structure Conn where
  ledger : Ledger := {}
  /-- Every request so far, in order, with the label its sender was given. -/
  sent : List (Label × ClientRequest) := []
  ops : List Nat := []

/-- The place in the open list a message closes; past its end when it closes none. -/
def closes (L : Labels) (l : Ledger) (m : Message) : Nat :=
  match m.names with
  | some k => l.opened.idxOf (L.label .contract k)
  | none => if 0 < l.owed then l.opened.length else 0

def Conn.begin (c : Conn) (req : ClientRequest) (r : Label × Ledger) : Conn :=
  { ledger := r.2, sent := c.sent ++ [(r.1, req)], ops := c.ops ++ [c.sent.length] }

def step (L : Labels) (c : Conn) : Act → Conn
  | .send req => c.begin req (send L c.ledger req)
  | .sendKeyed req key => c.begin req (sendKeyed L c.ledger req key)
  | .recv m =>
    { c with ledger := recv L c.ledger m.got, ops := c.ops.eraseIdx (closes L c.ledger m) }
  | .finish id outcome =>
    { c with
      ledger := c.ledger.finish L id outcome
      ops := c.ops.eraseIdx (c.ledger.opened.idxOf id) }

/-- What one message does to the open list. -/
theorem recv_opened (L : Labels) (l : Ledger) (m : Message) :
    (recv L l m.got).opened = l.opened.eraseIdx (closes L l m) := by
  cases hm : m.names with
  | some k =>
    obtain ⟨r, hr, hk⟩ := Message.got_of_names hm
    rw [hr, recv_opened_named L l hk, closes, hm, List.eraseIdx_idxOf_eq_erase]
  | none =>
    rw [recv_of_names_none L l hm, Ledger.response_opened, closes, hm]
    dsimp only
    split
    · rw [List.eraseIdx_of_length_le le_rfl]
    · rw [List.eraseIdx_zero]

/-- The requests beside the open entries are the ones they were opened for, each
at most once and in the order they were sent. -/
structure Conn.Aligned (c : Conn) : Prop where
  labels : c.ops.map (fun n => c.sent[n]?.map Prod.fst) = c.ledger.opened.map some
  sorted : c.ops.Pairwise (· < ·)

/-- The requests are the tickets of the open entries. -/
theorem Conn.aligned_iff {c : Conn} :
    c.Aligned ↔ Tickets.Aligned (c.sent.map Prod.fst) c.ops c.ledger.opened := by
  have hlabel : (fun n => (c.sent.map Prod.fst)[n]?) = fun n => c.sent[n]?.map Prod.fst :=
    funext fun n => List.getElem?_map
  refine ⟨fun h => ⟨?_, h.sorted⟩, fun h => ⟨?_, h.sorted⟩⟩
  · rw [hlabel, h.labels]
  · rw [← hlabel, h.entry]

theorem Conn.Aligned.length {c : Conn} (h : c.Aligned) :
    c.ops.length = c.ledger.opened.length := Tickets.Aligned.length (Conn.aligned_iff.mp h)

theorem Conn.Aligned.lt {c : Conn} (h : c.Aligned) {n : Nat} (hn : n ∈ c.ops) :
    n < c.sent.length := by
  rw [← List.length_map Prod.fst]
  exact Tickets.Aligned.lt (Conn.aligned_iff.mp h) hn

/-- The label of an open entry is the label of its request. -/
theorem Conn.Aligned.getElem? {c : Conn} (h : c.Aligned) {i n : Nat} (hn : c.ops[i]? = some n) :
    c.sent[n]?.map Prod.fst = c.ledger.opened[i]? := by
  rw [← List.getElem?_map]
  exact Tickets.Aligned.getElem? (Conn.aligned_iff.mp h) hn

theorem Conn.Aligned.begin {c : Conn} (h : c.Aligned) (req : ClientRequest) {r : Label × Ledger}
    (hr : r.2.opened = c.ledger.opened ++ [r.1]) : (c.begin req r).Aligned := by
  have hissue := (Conn.aligned_iff.mp h).issue r.1
  rw [List.length_map] at hissue
  rw [Conn.aligned_iff, Conn.begin, List.map_append, hr]
  exact hissue

theorem Conn.Aligned.remove {c c' : Conn} (h : c.Aligned) {i : Nat} (hs : c'.sent = c.sent)
    (ho : c'.ops = c.ops.eraseIdx i) (hl : c'.ledger.opened = c.ledger.opened.eraseIdx i) :
    c'.Aligned := by
  rw [Conn.aligned_iff, hs, ho, hl]
  exact (Conn.aligned_iff.mp h).remove i

/-- Every act keeps the requests beside their entries. -/
theorem Conn.Aligned.step (L : Labels) {c : Conn} (h : c.Aligned) (a : Act) :
    (step L c a).Aligned := by
  cases a with
  | send req => exact h.begin req (send_opened L c.ledger req)
  | sendKeyed req key => exact h.begin req (sendKeyed_opened L c.ledger req key)
  | recv m => exact h.remove rfl rfl (recv_opened L c.ledger m)
  | finish id outcome =>
    exact h.remove rfl rfl (by simp [Probe.step, List.eraseIdx_idxOf_eq_erase])

theorem Conn.aligned_nil : ({} : Conn).Aligned := ⟨rfl, List.Pairwise.nil⟩

end FreenetHarness.Probe
