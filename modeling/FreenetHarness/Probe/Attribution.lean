import FreenetHarness.Probe.Client

/-! # Which operation a message is charged to

The client API carries no correlation id. A message that names a key closes the
first open entry under it; any other message, an error included, closes the oldest
entry, until the first answer is owed. Here every message is tagged with the request
it answers, and the question is when the ledger closes no other one
(`attribution_iff`). -/
namespace FreenetHarness.Probe
open FreenetHarness.Lib.Run FreenetHarness.Lib

namespace Conn

/-- What receiving a message adds to the recording. -/
def emitted (L : Labels) (c : Conn) (m : Message) : List Event :=
  (recv L c.ledger m.got).events.drop c.ledger.events.length

/-- A message takes no request but its own from the open list, and records no other
one as `Ok`. -/
structure Charged (L : Labels) (c : Conn) (m : Message) : Prop where
  kept : ∀ n ∈ c.ops, n ∉ (step L c (.recv m)).ops → m.op = some n
  /-- What the ledger has open are the labels of the requests that are kept. -/
  opened : (recv L c.ledger m.got).opened.map some =
    (step L c (.recv m)).ops.map fun n => c.sent[n]?.map Prod.fst
  ended : ∀ site op, .exit site op .ok ∈ c.emitted L m →
    ∃ n r, m.op = some n ∧ c.sent[n]? = some r ∧ op = ⟨r.1.ordinal⟩

def Charges (L : Labels) (c : Conn) : Act → Prop
  | .recv m => c.Charged L m
  | _ => True

/-- The oldest open request. -/
def oldest (c : Conn) : Option Nat := c.ops.head?

/-- The oldest open request under a label. -/
def oldestUnder (c : Conn) (id : Label) : Option Nat := c.ops[c.ledger.opened.idxOf id]?

/-- The request a message would be charged to is the one it answers: the oldest one
under the key it names or, when it names none and no answer is owed, the oldest. -/
def Due (L : Labels) (c : Conn) : Act → Prop
  | .recv m => match m.names with
    | some k => ∀ n, c.oldestUnder (L.label .contract k) = some n → m.op = some n
    | none => 0 < c.ledger.owed ∨ ∀ n, c.oldest = some n → m.op = some n
  | _ => True

/-! ## One step -/

/-- What leaves the open list. -/
theorem leaves_iff {L : Labels} {c : Conn} (h : c.Aligned) {m : Message} {n : Nat} :
    (n ∈ c.ops ∧ n ∉ (step L c (.recv m)).ops) ↔ c.ops[closes L c.ledger m]? = some n :=
  Tickets.Aligned.leaves_iff (Conn.aligned_iff.mp h)

/-- The place a message closes holds the request the condition is about. -/
theorem due_iff {L : Labels} {c : Conn} (h : c.Aligned) (m : Message) :
    c.Due L (.recv m) ↔ ∀ n, c.ops[closes L c.ledger m]? = some n → m.op = some n := by
  cases hm : m.names with
  | some k => simp only [Due, hm, closes, oldestUnder]
  | none =>
    simp only [Due, hm, closes, oldest]
    by_cases ho : 0 < c.ledger.owed
    · simp [ho, ← h.length]
    · simp [ho, List.head?_eq_getElem?]

/-- An answer that names its key records no ending. -/
theorem answered_no_exit {L : Labels} {l : Ledger} {r : HostResponse} {k : String}
    (hk : namesKey r = some k) {site : Site} {op : OpId} :
    .exit site op .ok ∉ (recv L l (.ok r)).events.drop l.events.length := by
  simp only [recv, hk, Ledger.answered, Ledger.receivedBytes]
  split <;> simp [List.append_assoc]

/-- Any other message can end the oldest open request only. -/
theorem response_exit {L : Labels} {l : Ledger} {site : Site} {op : OpId}
    (he : .exit site op .ok ∈ (l.response L).events.drop l.events.length) :
    ¬ 0 < l.owed ∧ ∃ id, l.opened[0]? = some id ∧ op = ⟨id.ordinal⟩ := by
  unfold Ledger.response at he
  split at he
  · simp at he
  · rename_i ho
    cases hl : l.opened with
    | nil => simp [hl] at he
    | cons id rest =>
      simp [hl] at he
      exact ⟨ho, id, rfl, he.2⟩

/-- The only operation a message can record as `Ok` is the one it closes. -/
theorem ok_closes {L : Labels} {c : Conn} (h : c.Aligned) {m : Message} {site : Site} {op : OpId}
    (he : .exit site op .ok ∈ c.emitted L m) :
    ∃ n r, c.ops[closes L c.ledger m]? = some n ∧ c.sent[n]? = some r ∧ op = ⟨r.1.ordinal⟩ := by
  cases hm : m.names with
  | some k =>
    obtain ⟨r, hr, hk⟩ := Message.got_of_names hm
    rw [emitted, hr] at he
    exact absurd he (answered_no_exit hk)
  | none =>
    rw [emitted, recv_of_names_none L c.ledger hm] at he
    obtain ⟨ho, id, hid, rfl⟩ := response_exit he
    have hlt : 0 < c.ops.length := by
      rw [h.length]
      exact (List.getElem?_eq_some_iff.mp hid).1
    have hn : c.ops[0]? = some c.ops[0] := List.getElem?_eq_getElem hlt
    have hs := h.getElem? hn
    rw [hid] at hs
    obtain ⟨r, hr, hrl⟩ := Option.map_eq_some_iff.mp hs
    refine ⟨c.ops[0], r, ?_, hr, by rw [hrl]⟩
    rw [closes, hm]
    dsimp only
    rw [if_neg ho, hn]

/-- **Step.** -/
theorem charged_iff {L : Labels} {c : Conn} (h : c.Aligned) (a : Act) :
    c.Charges L a ↔ c.Due L a := by
  cases a with
  | recv m =>
    rw [due_iff h]
    constructor
    · intro hc n hn
      obtain ⟨hin, hout⟩ := (leaves_iff h).mpr hn
      exact hc.kept n hin hout
    · intro hd
      refine ⟨fun n hin hout => hd n ((leaves_iff h).mp ⟨hin, hout⟩),
        (h.step L (.recv m)).labels.symm, fun site op he => ?_⟩
      obtain ⟨n, r, hn, hr, hop⟩ := ok_closes h he
      exact ⟨n, r, hd n hn, hr, hop⟩
  | send req => exact Iff.rfl
  | sendKeyed req key => exact Iff.rfl
  | finish id outcome => exact Iff.rfl

end Conn

/-- **When no message is charged to another's request.** -/
theorem attribution_iff (L : Labels) (acts : List Act) :
    Along (step L) (Conn.Charges L) {} acts ↔ Along (step L) (Conn.Due L) {} acts :=
  along_congr Conn.aligned_nil (fun _ a _ h _ => h.step L a) fun _ a _ h => Conn.charged_iff h a

/-- One update, then the connection's error. -/
def updateThenError : List Act :=
  [.send (.contractOp (.update "a" (.delta [0]))), .recv (.error "connection closed")]

/-- The error ends the update as `Ok` and takes it off the open list. -/
theorem error_closes_update :
    .exit .send ⟨0⟩ .ok ∈ (after (step (.table ["update/0"] [])) {} updateThenError).ledger.events ∧
      (after (step (.table ["update/0"] [])) {} updateThenError).ledger.outstanding = [] ∧
      ¬ Along (step (.table ["update/0"] [])) (Conn.Charges (.table ["update/0"] [])) {}
        updateThenError := by
  refine ⟨by decide, by decide, fun h => ?_⟩
  have hkept := h.2.1.kept 0 (by decide) (by decide)
  cases hkept

end FreenetHarness.Probe
