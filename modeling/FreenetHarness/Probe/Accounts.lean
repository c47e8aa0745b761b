import FreenetHarness.Probe.Calls

/-! # The ledger's second accounts

The open list and the owed counter say again what the recorded events say. A ledger
keeps the two in step under its methods called in any order (`accounts_agree`). -/
namespace FreenetHarness.Probe
open FreenetHarness.Lib.Run FreenetHarness.Lib

def Event.counts (key : Key) : Event → Bool
  | .counter _ _ k _ => k == key
  | _ => false

/-- How many counters of a key were recorded. -/
def Ledger.counted (key : Key) (l : Ledger) : Nat := l.events.countP (Event.counts key)

namespace Books

/-- The call is an answer that arrives while one is owed. -/
def late (b : Books) (c : Call) : Bool := c.isResponse && decide (0 < b.ledger.owed)

/-- What the books of a run and the events of its ledger agree on. -/
structure Accounts (L : Labels) (calls : List Call) (b : Books) : Prop where
  /-- The open list is, in request order, the operations not removed. -/
  opened : Tickets.Aligned b.given b.kept b.ledger.opened
  removed : Tickets.Accounted b.given.length b.kept b.gone
  sent : b.ledger.opened.length + b.gone.length = b.ledger.counted .sent
  owed : b.ledger.owed = calls.countP Call.abandons
  owedCounted : b.ledger.counted .owed = b.ledger.owed
  received : b.ledger.counted .received = calls.countP Call.answers
  ambiguous : b.ledger.counted .ambiguous = tally (step L) late {} calls

/-! ## One call -/

theorem counted_step (L : Labels) (key : Key) (b : Books) (c : Call) :
    (b.step L c).ledger.counted key =
      b.ledger.counted key + (b.ledger.emits L c).countP (Event.counts key) := by
  show (b.ledger.call L c).events.countP _ = b.ledger.events.countP _ + _
  rw [Ledger.call_events, List.countP_append]

/-- An answer counts itself, and as ambiguous while one is owed. -/
theorem countP_response (L : Labels) (l : Ledger) (key : Key) :
    (l.emits L .response).countP (Event.counts key) =
      (if key = .received then 1 else 0) + if key = .ambiguous ∧ 0 < l.owed then 1 else 0 := by
  by_cases h : 0 < l.owed
  · rw [Ledger.emits_response_owed L l h]
    cases key <;> simp [Event.counts, h]
  · rw [Ledger.emits_response L l h]
    cases l.opened <;> cases key <;> simp [Event.counts, h]

theorem counted_sent (L : Labels) (b : Books) (c : Call) :
    (b.step L c).ledger.counted .sent =
      b.ledger.counted .sent + (b.ledger.begun L c).toList.length := by
  rw [counted_step]
  cases c with
  | request what => simp [Event.counts, Ledger.begun]
  | requestKeyed what key => simp [Event.counts, Ledger.begun]
  | offered id n => by_cases h : 0 < n <;> simp [Event.counts, Ledger.begun, h]
  | receivedBytes id n => by_cases h : 0 < n <;> simp [Event.counts, Ledger.begun, h]
  | answered key => simp [Event.counts, Ledger.begun]
  | response => simp [countP_response, Ledger.begun]
  | finish id outcome =>
    cases h : Ledger.owes outcome <;> simp [Event.counts, Ledger.begun, h]

/-- The other counters go up at the calls they are named for. -/
theorem counted_other (L : Labels) (b : Books) (c : Call) :
    (b.step L c).ledger.counted .owed =
        b.ledger.counted .owed + (if c.abandons then 1 else 0) ∧
      (b.step L c).ledger.counted .received =
        b.ledger.counted .received + (if c.answers then 1 else 0) ∧
      (b.step L c).ledger.counted .ambiguous =
        b.ledger.counted .ambiguous + if b.late c then 1 else 0 := by
  simp only [counted_step]
  cases c with
  | request what => simp [Event.counts, Call.abandons, Call.answers, late, Call.isResponse]
  | requestKeyed what key =>
    simp [Event.counts, Call.abandons, Call.answers, late, Call.isResponse]
  | offered id n =>
    by_cases h : 0 < n <;>
      simp [Event.counts, Call.abandons, Call.answers, late, Call.isResponse, h]
  | receivedBytes id n =>
    by_cases h : 0 < n <;>
      simp [Event.counts, Call.abandons, Call.answers, late, Call.isResponse, h]
  | answered key => simp [Event.counts, Call.abandons, Call.answers, late, Call.isResponse]
  | response => simp [countP_response, Call.abandons, Call.answers, late, Call.isResponse]
  | finish id outcome =>
    cases h : Ledger.owes outcome <;>
      simp [Event.counts, Call.abandons, Call.answers, late, Call.isResponse, h]

theorem accounted_step (L : Labels) {b : Books}
    (h : Tickets.Accounted b.given.length b.kept b.gone) (c : Call) :
    Tickets.Accounted (b.step L c).given.length (b.step L c).kept (b.step L c).gone := by
  have hrem := h.remove (b.ledger.empties L c)
  show Tickets.Accounted (b.given ++ _).length (b.kept.eraseIdx _ ++ _) (b.gone ++ _)
  cases hc : b.ledger.begun L c with
  | none => simpa using hrem
  | some id => simpa using hrem.issue

/-! ## Any run -/

theorem accounted_run (L : Labels) (calls : List Call) :
    Tickets.Accounted (run L calls).given.length (run L calls).kept (run L calls).gone :=
  after_invariant (I := fun b : Books => Tickets.Accounted b.given.length b.kept b.gone) calls .nil
    fun _ c _ h => accounted_step L h c

/-- A request is counted when its label is handed out. -/
theorem counted_sent_run (L : Labels) (calls : List Call) :
    (run L calls).ledger.counted .sent = (run L calls).given.length := by
  refine after_invariant (I := fun b : Books => b.ledger.counted .sent = b.given.length) calls rfl
    fun b c _ h => ?_
  rw [counted_sent, h]
  exact (List.length_append ..).symm

/-- **The second accounts agree with the events.** -/
theorem accounts_agree (L : Labels) (calls : List Call) : Accounts L calls (run L calls) where
  opened := aligned_run L calls
  removed := accounted_run L calls
  sent := by
    rw [counted_sent_run, ← (accounted_run L calls).length, (aligned_run L calls).length]
  owed := by
    have hstep : ∀ b c, (step L b c).ledger.owed = b.ledger.owed + if c.abandons then 1 else 0 :=
      fun b c => (Ledger.call_counts L b.ledger c).2
    have h := after_add_tally (f := fun b : Books => b.ledger.owed) hstep {} calls
    rw [tally_event] at h
    simpa [run] using h
  owedCounted := by
    refine after_invariant (I := fun b : Books => b.ledger.counted .owed = b.ledger.owed) calls rfl
      fun b c _ h => ?_
    rw [(counted_other L b c).1, h]
    exact (Ledger.call_counts L b.ledger c).2.symm
  received := by
    have h := after_add_tally (f := fun b : Books => b.ledger.counted .received)
      (fun b c => (counted_other L b c).2.1) {} calls
    rw [tally_event] at h
    simpa [run, Ledger.counted] using h
  ambiguous := by
    have h := after_add_tally (f := fun b : Books => b.ledger.counted .ambiguous)
      (fun b c => (counted_other L b c).2.2) {} calls
    simpa [run, Ledger.counted] using h

end Books
end FreenetHarness.Probe
