import Mathlib.Data.List.Basic
import Mathlib.Data.Nat.Pairing

/-! # The accounting of one client connection

Every request and its answer are one event type paired by a label, so what is
outstanding is a subtraction. The events are those the ledger emits; what the
recorder's ring still holds of them is not modelled, and neither is a poisoned
lock. The two counters are `Nat`: a connection makes fewer than 2^64 requests. -/
namespace FreenetHarness.Probe

inductive Kind where
  | request
  | contract
  deriving DecidableEq, Repr

/-- `req#3`, `contract#3`: a name that says nothing about the data. -/
structure Label where
  kind : Kind
  ordinal : Nat
  deriving DecidableEq, Repr

/-- The number a span is recorded under. -/
structure OpId where
  id : Nat
  deriving DecidableEq, Repr

/-- What the ledger relies on from the label table: over one connection a kind and
a key always get the same label, and no two get the same one. -/
structure Labels where
  label : Kind → String → Label
  /-- `Label::op`. -/
  op : Label → OpId
  /-- `OpId::NONE`. -/
  none : OpId
  label_injective : ∀ {k k' : Kind} {s s' : String}, label k s = label k' s' → k = k' ∧ s = s'

inductive Site where
  | send
  | recv
  deriving DecidableEq, Repr

inductive Dir where
  | request
  | response
  deriving DecidableEq, Repr

inductive Key where
  | sent
  | received
  | owed
  | ambiguous
  | bytesOut
  | bytesIn
  deriving DecidableEq, Repr

inductive Outcome where
  | ok
  | timeout
  | blocked
  | missing
  | refused (code : Nat)
  deriving DecidableEq, Repr

inductive Event where
  | edge (site : Site) (dir : Dir) (id : Label)
  | counter (site : Site) (op : OpId) (key : Key) (value : Nat)
  | enter (site : Site) (op : OpId)
  | exit (site : Site) (op : OpId) (outcome : Outcome)
  deriving DecidableEq, Repr

structure Ledger where
  events : List Event := []
  /-- The most recent request. -/
  last : Option Label := none
  /-- The open requests, oldest first (`open`). -/
  opened : List Label := []
  seq : Nat := 0
  /-- Answers given up on and still owed. -/
  owed : Nat := 0
  deriving DecidableEq, Repr

namespace Ledger

/-! ## Requests -/

/-- What both kinds of request record; they differ in the operation they count
and enter. -/
def begins (l : Ledger) (id : Label) (counted entered : OpId) : Ledger :=
  { l with
    events := l.events ++
      [.edge .send .request id, .counter .send counted .sent 1, .enter .send entered]
    last := some id
    opened := l.opened ++ [id] }

/-- A request labelled by its place in the sequence. -/
def request (L : Labels) (l : Ledger) (what : String) : Label × Ledger :=
  let id := L.label .request s!"{what}/{l.seq}"
  (id, { l with seq := l.seq + 1 }.begins id L.none ⟨id.ordinal⟩)

/-- A request labelled by the key its answer will name. -/
def requestKeyed (L : Labels) (l : Ledger) (_what : String) (key : String) : Label × Ledger :=
  let id := L.label .contract key
  (id, l.begins id (L.op id) (L.op id))

def offered (L : Labels) (l : Ledger) (id : Label) (n : Nat) : Ledger :=
  if 0 < n then { l with events := l.events ++ [.counter .send (L.op id) .bytesOut n] } else l

def receivedBytes (L : Labels) (l : Ledger) (id : Label) (n : Nat) : Ledger :=
  if 0 < n then { l with events := l.events ++ [.counter .recv (L.op id) .bytesIn n] } else l

/-! ## Answers -/

/-- An answer that named itself closes the first open request labelled by that key. -/
def answered (L : Labels) (l : Ledger) (key : String) : Label × Ledger :=
  let id := L.label .contract key
  (id, { l with
    events := l.events ++
      [.edge .recv .response id, .counter .recv (L.op id) .received 1]
    opened := l.opened.erase id })

/-- Any other answer closes the oldest open request, unless an answer is owed. -/
def response (L : Labels) (l : Ledger) : Ledger :=
  if 0 < l.owed then
    { l with events := l.events ++
        [.counter .recv L.none .received 1, .counter .recv L.none .ambiguous 1] }
  else
    match l.opened with
    | [] => { l with events := l.events ++ [.counter .recv L.none .received 1] }
    | id :: rest =>
      { l with
        opened := rest
        events := l.events ++
          [.edge .recv .response id, .exit .send ⟨id.ordinal⟩ .ok,
            .counter .recv L.none .received 1] }

/-- Nothing came back, so the node still owes the answer. -/
def owes : Outcome → Bool
  | .timeout => true
  | .blocked => true
  | _ => false

/-- The caller closes an operation with the outcome it knows. -/
def finish (L : Labels) (l : Ledger) (id : Label) (outcome : Outcome) : Ledger :=
  let l : Ledger := { l with events := l.events ++ [.exit .send ⟨id.ordinal⟩ outcome] }
  let l : Ledger :=
    if owes outcome then
      { l with
        owed := l.owed + 1
        events := l.events ++ [.counter .send L.none .owed 1] }
    else l
  { l with opened := l.opened.erase id }

def outstanding (l : Ledger) : List Label := l.opened

/-! ## The open list -/

@[simp] theorem begins_opened (l : Ledger) (id : Label) (counted entered : OpId) :
    (l.begins id counted entered).opened = l.opened ++ [id] := rfl

@[simp] theorem offered_opened (L : Labels) (l : Ledger) (id : Label) (n : Nat) :
    (l.offered L id n).opened = l.opened := by
  unfold offered; split <;> rfl

@[simp] theorem receivedBytes_opened (L : Labels) (l : Ledger) (id : Label) (n : Nat) :
    (l.receivedBytes L id n).opened = l.opened := by
  unfold receivedBytes; split <;> rfl

@[simp] theorem answered_opened (L : Labels) (l : Ledger) (key : String) :
    (l.answered L key).2.opened = l.opened.erase (L.label .contract key) := rfl

theorem response_opened (L : Labels) (l : Ledger) :
    (l.response L).opened = if 0 < l.owed then l.opened else l.opened.tail := by
  unfold response
  split
  · rfl
  · cases h : l.opened <;> simp

@[simp] theorem finish_opened (L : Labels) (l : Ledger) (id : Label) (outcome : Outcome) :
    (l.finish L id outcome).opened = l.opened.erase id := by
  unfold finish; dsimp only; split <;> rfl

end Ledger

/-! ## A label table -/

namespace Labels

/-- A number for every key, for the keys a table does not list. -/
def code : List Char → Nat
  | [] => 0
  | c :: cs => Nat.pair c.toNat (code cs) + 1

theorem code_injective : ∀ {cs ds : List Char}, code cs = code ds → cs = ds
  | [], [], _ => rfl
  | [], _ :: _, h => by simp [code] at h
  | _ :: _, [], h => by simp [code] at h
  | c :: cs, d :: ds, h => by
    obtain ⟨hc, hcs⟩ := Nat.pair_eq_pair.mp (Nat.succ.inj h)
    rw [Char.toNat_inj.mp hc, code_injective hcs]

/-- The ordinal of a key: its place among the keys of its kind, in the order of
their first use. -/
def ordinal (used : List String) (s : String) : Nat :=
  if s ∈ used then used.idxOf s else used.length + code s.toList

theorem ordinal_injective {used : List String} {s t : String}
    (h : ordinal used s = ordinal used t) : s = t := by
  unfold ordinal at h
  split at h <;> split at h
  · rename_i hs ht
    exact (List.idxOf_inj hs).mp h
  · rename_i hs ht
    have := List.idxOf_lt_length_of_mem hs
    omega
  · rename_i hs ht
    have := List.idxOf_lt_length_of_mem ht
    omega
  · exact String.toList_inj.mp (code_injective (by omega))

/-- The table that has labelled these requests and these keys, in this order. -/
def table (requests keys : List String) : Labels where
  label kind s := ⟨kind, ordinal (match kind with | .request => requests | .contract => keys) s⟩
  op id := ⟨match id.kind with
    | .request => 2 * id.ordinal + 1
    | .contract => 2 * id.ordinal + 2⟩
  none := ⟨0⟩
  label_injective := by
    intro k k' s s' h
    obtain ⟨rfl, h⟩ := Label.mk.inj h
    exact ⟨rfl, ordinal_injective h⟩

end Labels
end FreenetHarness.Probe
