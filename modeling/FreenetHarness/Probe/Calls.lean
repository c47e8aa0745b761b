import FreenetHarness.Lib.Run
import FreenetHarness.Lib.Number
import FreenetHarness.Lib.Tickets
import FreenetHarness.Probe.Ledger

/-! # Runs of a ledger

The methods of a ledger called in any order and any mix. A run keeps beside the ledger
the labels it has handed out (`given`) and which of the operations begun are still in
the open list (`kept`) or have left it (`gone`): a label alone does not say which of
two requests under one key an entry stands for. -/
namespace FreenetHarness.Probe
open FreenetHarness.Lib.Run FreenetHarness.Lib

inductive Call where
  | request (what : String)
  | requestKeyed (what key : String)
  | offered (id : Label) (n : Nat)
  | receivedBytes (id : Label) (n : Nat)
  | answered (key : String)
  | response
  | finish (id : Label) (outcome : Outcome)
  deriving DecidableEq, Repr

namespace Ledger

def call (L : Labels) (l : Ledger) : Call → Ledger
  | .request what => (l.request L what).2
  | .requestKeyed what key => (l.requestKeyed L what key).2
  | .offered id n => l.offered L id n
  | .receivedBytes id n => l.receivedBytes L id n
  | .answered key => (l.answered L key).2
  | .response => l.response L
  | .finish id outcome => l.finish L id outcome

/-- The label a call hands out for the operation it begins. -/
def begun (L : Labels) (l : Ledger) : Call → Option Label
  | .request what => some (l.request L what).1
  | .requestKeyed what key => some (l.requestKeyed L what key).1
  | _ => none

/-- The place in the open list a call empties; past its end when it empties none. -/
def empties (L : Labels) (l : Ledger) : Call → Nat
  | .answered key => l.opened.idxOf (L.label .contract key)
  | .response => if 0 < l.owed then l.opened.length else 0
  | .finish id _ => l.opened.idxOf id
  | _ => l.opened.length

/-- What a call adds to the recording. -/
def emits (L : Labels) (l : Ledger) (c : Call) : List Event :=
  (l.call L c).events.drop l.events.length

/-! ## What a call does -/

variable (L : Labels) (l : Ledger)

theorem call_opened (c : Call) :
    (l.call L c).opened = l.opened.eraseIdx (l.empties L c) ++ (l.begun L c).toList := by
  cases c with
  | request what => simp [call, begun, empties, request, List.eraseIdx_of_length_le]
  | requestKeyed what key => simp [call, begun, empties, requestKeyed, List.eraseIdx_of_length_le]
  | offered id n => simp [call, begun, empties, List.eraseIdx_of_length_le]
  | receivedBytes id n => simp [call, begun, empties, List.eraseIdx_of_length_le]
  | answered key => simp [call, begun, empties, List.eraseIdx_idxOf_eq_erase]
  | response =>
    rw [call, response_opened, empties]
    split
    · simp [begun, List.eraseIdx_of_length_le]
    · simp [begun]
  | finish id outcome => simp [call, begun, empties, List.eraseIdx_idxOf_eq_erase]

@[simp] theorem emits_request (what : String) :
    l.emits L (.request what) = [.edge .send .request (l.request L what).1,
      .counter .send L.none .sent 1, .enter .send ⟨(l.request L what).1.ordinal⟩] := by
  simp [emits, call, request, begins]

@[simp] theorem emits_requestKeyed (what key : String) :
    l.emits L (.requestKeyed what key) = [.edge .send .request (L.label .contract key),
      .counter .send (L.op (L.label .contract key)) .sent 1,
      .enter .send (L.op (L.label .contract key))] := by
  simp [emits, call, requestKeyed, begins]

@[simp] theorem emits_offered (id : Label) (n : Nat) :
    l.emits L (.offered id n) =
      if 0 < n then [.counter .send (L.op id) .bytesOut n] else [] := by
  simp only [emits, call, offered]
  split <;> simp

@[simp] theorem emits_receivedBytes (id : Label) (n : Nat) :
    l.emits L (.receivedBytes id n) =
      if 0 < n then [.counter .recv (L.op id) .bytesIn n] else [] := by
  simp only [emits, call, receivedBytes]
  split <;> simp

@[simp] theorem emits_answered (key : String) :
    l.emits L (.answered key) = [.edge .recv .response (L.label .contract key),
      .counter .recv (L.op (L.label .contract key)) .received 1] := by
  simp [emits, call, answered]

@[simp] theorem emits_finish (id : Label) (outcome : Outcome) :
    l.emits L (.finish id outcome) = .exit .send ⟨id.ordinal⟩ outcome ::
      if owes outcome then [.counter .send L.none .owed 1] else [] := by
  simp only [emits, call, finish]
  split <;> simp

theorem emits_response_owed (h : 0 < l.owed) :
    l.emits L .response =
      [.counter .recv L.none .received 1, .counter .recv L.none .ambiguous 1] := by
  simp [emits, call, response, h]

/-- While no answer is owed, the oldest open entry is closed by the next one. -/
theorem emits_response (h : ¬ 0 < l.owed) :
    l.emits L .response =
      (l.opened.head?.toList.flatMap fun id =>
        [.edge .recv .response id, .exit .send ⟨id.ordinal⟩ .ok]) ++
      [.counter .recv L.none .received 1] := by
  simp only [emits, call, response, if_neg h]
  cases l.opened <;> simp

theorem emits_response_front (h : ¬ 0 < l.owed) {id : Label} (hid : l.opened[0]? = some id) :
    l.emits L .response = [.edge .recv .response id, .exit .send ⟨id.ordinal⟩ .ok,
      .counter .recv L.none .received 1] := by
  rw [emits_response L l h, List.head?_eq_getElem?, hid]
  rfl

/-- Events are only ever added. -/
theorem events_grow (c : Call) : l.events <+: (l.call L c).events := by
  cases c with
  | request what => exact ⟨_, rfl⟩
  | requestKeyed what key => exact ⟨_, rfl⟩
  | answered key => exact ⟨_, rfl⟩
  | offered id n =>
    show l.events <+: (l.offered L id n).events
    unfold offered
    split
    · exact ⟨_, rfl⟩
    · exact List.prefix_rfl
  | receivedBytes id n =>
    show l.events <+: (l.receivedBytes L id n).events
    unfold receivedBytes
    split
    · exact ⟨_, rfl⟩
    · exact List.prefix_rfl
  | response =>
    show l.events <+: (l.response L).events
    unfold response
    split
    · exact ⟨_, rfl⟩
    · split <;> exact ⟨_, rfl⟩
  | finish id outcome =>
    show l.events <+: (l.finish L id outcome).events
    unfold finish
    dsimp only
    split
    · exact ⟨_, (List.append_assoc ..).symm⟩
    · exact ⟨_, rfl⟩

theorem call_events (c : Call) : (l.call L c).events = l.events ++ l.emits L c :=
  (List.prefix_iff_eq_append.mp (events_grow L l c)).symm

end Ledger

/-! ## Kinds of calls -/

namespace Call

def isRequest : Call → Bool
  | .request _ => true
  | _ => false

def isRequestKeyed : Call → Bool
  | .requestKeyed _ _ => true
  | _ => false

def isResponse : Call → Bool
  | .response => true
  | _ => false

/-- A call that records an answer. -/
def answers : Call → Bool
  | .answered _ => true
  | .response => true
  | _ => false

/-- The caller gives an answer up that the node still owes. -/
def abandons : Call → Bool
  | .finish _ outcome => Ledger.owes outcome
  | _ => false

end Call

/-- Only a positional request takes a number, and only giving up leaves an answer owed. -/
theorem Ledger.call_counts (L : Labels) (l : Ledger) (c : Call) :
    (l.call L c).seq = l.seq + (if c.isRequest then 1 else 0) ∧
      (l.call L c).owed = l.owed + if c.abandons then 1 else 0 := by
  cases c with
  | request what => exact ⟨rfl, rfl⟩
  | requestKeyed what key => exact ⟨rfl, rfl⟩
  | answered key => exact ⟨rfl, rfl⟩
  | offered id n =>
    show (l.offered L id n).seq = l.seq ∧ (l.offered L id n).owed = l.owed
    unfold Ledger.offered
    split <;> exact ⟨rfl, rfl⟩
  | receivedBytes id n =>
    show (l.receivedBytes L id n).seq = l.seq ∧ (l.receivedBytes L id n).owed = l.owed
    unfold Ledger.receivedBytes
    split <;> exact ⟨rfl, rfl⟩
  | response =>
    show (l.response L).seq = l.seq ∧ (l.response L).owed = l.owed
    unfold Ledger.response
    split
    · exact ⟨rfl, rfl⟩
    · split <;> exact ⟨rfl, rfl⟩
  | finish id outcome =>
    show (l.finish L id outcome).seq = l.seq ∧
      (l.finish L id outcome).owed = l.owed + if Ledger.owes outcome then 1 else 0
    unfold Ledger.finish
    dsimp only
    split <;> exact ⟨rfl, rfl⟩

/-! ## A ledger and its books -/

structure Books where
  ledger : Ledger := {}
  /-- The labels handed out, one for each operation begun. -/
  given : List Label := []
  /-- Beside each open entry, which operation it stands for. -/
  kept : List Nat := []
  /-- The operations removed from the open list, in the order they left. -/
  gone : List Nat := []
  deriving DecidableEq, Repr

namespace Books

def step (L : Labels) (b : Books) (c : Call) : Books where
  ledger := b.ledger.call L c
  given := b.given ++ (b.ledger.begun L c).toList
  kept := b.kept.eraseIdx (b.ledger.empties L c) ++
    (b.ledger.begun L c).toList.map fun _ => b.given.length
  gone := b.gone ++ b.kept[b.ledger.empties L c]?.toList

def run (L : Labels) (calls : List Call) : Books := after (step L) {} calls

theorem run_concat (L : Labels) (calls : List Call) (c : Call) :
    run L (calls ++ [c]) = (run L calls).step L c := after_append ..

/-- The open list is what the books say is kept, in the order it was asked for. -/
def Aligned (b : Books) : Prop := Tickets.Aligned b.given b.kept b.ledger.opened

/-- **Step.** -/
theorem Aligned.step (L : Labels) {b : Books} (h : b.Aligned) (c : Call) :
    (b.step L c).Aligned := by
  have hrem := Tickets.Aligned.remove h (b.ledger.empties L c)
  show Tickets.Aligned (b.given ++ _) (b.kept.eraseIdx _ ++ _) (b.ledger.call L c).opened
  rw [Ledger.call_opened]
  cases b.ledger.begun L c with
  | none => simpa using hrem
  | some id => exact hrem.issue id

theorem aligned_nil : ({} : Books).Aligned := .nil

theorem aligned_run (L : Labels) (calls : List Call) : (run L calls).Aligned :=
  after_invariant calls aligned_nil fun _ c _ h => h.step L c

/-! ## Labels of positional requests -/

/-- Every label is that of a positional request, and no two requests have the same one. -/
structure Positional (L : Labels) (b : Books) : Prop where
  numbered : ∀ id ∈ b.given, ∃ (what : String) (n : Nat), n < b.ledger.seq ∧
    id = L.label .request s!"{what}/{n}"
  nodup : b.given.Nodup

theorem positional_nil (L : Labels) : ({} : Books).Positional L :=
  ⟨fun _ h => (List.not_mem_nil h).elim, List.nodup_nil⟩

theorem Positional.step {L : Labels} {b : Books} (h : b.Positional L) {c : Call}
    (hc : c.isRequestKeyed = false) : (b.step L c).Positional L := by
  have hseq : b.ledger.seq ≤ (b.step L c).ledger.seq := by
    show _ ≤ (b.ledger.call L c).seq
    rw [(Ledger.call_counts L b.ledger c).1]
    omega
  have hold : ∀ id ∈ b.given, ∃ (what : String) (n : Nat), n < (b.step L c).ledger.seq ∧
      id = L.label .request s!"{what}/{n}" := by
    intro id hid
    obtain ⟨what, n, hn, rfl⟩ := h.numbered id hid
    exact ⟨what, n, by omega, rfl⟩
  cases hb : b.ledger.begun L c with
  | none =>
    have hg : (b.step L c).given = b.given := by simp [Books.step, hb]
    exact ⟨by rwa [hg], hg ▸ h.nodup⟩
  | some id =>
    have hg : (b.step L c).given = b.given ++ [id] := by simp [Books.step, hb]
    cases c with
    | request what =>
      obtain rfl := Option.some.inj hb
      refine ⟨?_, ?_⟩
      · rw [hg]
        intro id hid
        rcases List.mem_append.mp hid with hid | hid
        · exact hold id hid
        · exact ⟨what, b.ledger.seq, Nat.lt_succ_self _, List.mem_singleton.mp hid⟩
      · rw [hg, List.nodup_append]
        refine ⟨h.nodup, List.nodup_singleton _, fun id hid id' hid' => ?_⟩
        -- the new request has a number no earlier one has
        obtain ⟨what', n, hn, rfl⟩ := h.numbered id hid
        rw [List.mem_singleton.mp hid']
        intro heq
        have := Number.numbered_inj (L.label_injective heq).2
        omega
    | requestKeyed what key => cases hc
    | offered id n => cases hb
    | receivedBytes id n => cases hb
    | answered key => cases hb
    | response => cases hb
    | finish id outcome => cases hb

end Books
end FreenetHarness.Probe
