import Mathlib.Logic.Equiv.List
import FreenetHarness.RoundTrip.Node

/-! # The round trip of a Set

A denial hides a slot from readers while the state retains it. `refining_passes`: a contract
that refines `Slots` passes. `set_pass_shows` says what a node did whose run passes, and where the
last control passes with nothing denied. -/
namespace FreenetHarness.RoundTrip.Set
open FreenetHarness.Lib.Programs

/-- The crate, at the params of a run: what a signer signs, its denial, the state of some of
these, and how many items are held in a state and how many a reader sees. -/
structure Crate (Item Denial : Type) where
  item : Nat → Bytes → Nat → Bytes → Item
  denyOf : Nat → Denial
  encode : List Item → List Denial → Bytes
  parse : Bytes → Option (Nat × Nat)

variable {Item Denial : Type} (k : Crate Item Denial)

/-- Held and visible. -/
def counts (state : Option Bytes) : Nat × Nat := (state.bind k.parse).getD (0, 0)

def ownerItem : Item := k.item 0 (text "k-owner") 10 (text "by the owner")

def capItem : Item := k.item 1 (text "k-cap") 11 (text "by a cap holder")

def other : Item := k.item 2 (text "k-other") 12 (text "by another cap holder")

/-- The states a run reads back. -/
structure Reads where
  g1 : Option Bytes
  g2 : Option Bytes
  g3 : Option Bytes
  g4 : Option Bytes
  g5a : Option Bytes
  g5 : Option Bytes

/-- The checks before the last control. -/
def Reads.shown (r : Reads) : Bool :=
  decide (counts k r.g1 = (1, 1)) && decide (counts k r.g2 = (2, 2)) &&
    decide (counts k r.g3 = (2, 1)) && decide (counts k r.g4 = counts k r.g3)

/-- The last control: denying another signer takes one item from the view. -/
def Reads.control (r : Reads) : Bool := decide ((counts k r.g5).2 + 1 = (counts k r.g5a).2)

def Reads.passes (r : Reads) : Bool := r.shown k && r.control k

/-! ## The script -/

variable {σ : Type} (io : Io σ)

def reads : Program (Session σ) String Reads := do
  let g1 ← on (io.put (k.encode [ownerItem k] []))
  println (s!"1. an owner-tier item is admitted: {verdict (counts k g1 = (1, 1))}  " ++
    s!"(held {(counts k g1).1}, visible {(counts k g1).2})")
  let g2 ← on (io.update (k.encode [capItem k] []))
  println (s!"2. a cap-holder's item is admitted: {verdict (counts k g2 = (2, 2))}  " ++
    s!"(held {(counts k g2).1}, visible {(counts k g2).2})")
  let g3 ← on (io.update (k.encode [] [k.denyOf 1]))
  println (s!"3. a denial HIDES ({verdict ((counts k g3).2 = 1)}) and RETAINS " ++
    s!"({verdict ((counts k g3).1 = 2)}): held {(counts k g3).1} (was {(counts k g2).1}), " ++
    s!"visible {(counts k g3).2} (was {(counts k g2).2})")
  let g4 ← on (io.update (k.encode [] [k.denyOf 0]))
  println (s!"4. a denial of the owner's OWN key is refused: {verdict (counts k g4 = counts k g3)}  " ++
    s!"(held {(counts k g4).1}, visible {(counts k g4).2} — unchanged)")
  let g5a ← on (io.update (k.encode [other k] []))
  let g5 ← on (io.update (k.encode [] [k.denyOf 2]))
  -- one less than none is a panic
  if (counts k g5a).2 = 0 then throw "attempt to subtract with overflow"
  else do
    let r : Reads := { g1, g2, g3, g4, g5a, g5 }
    println ("5. CONTROL — denying a DIFFERENT signer on the same path does take effect: " ++
      s!"{verdict (r.control k)}  (visible {(counts k g5a).2} -> {(counts k g5).2})")
    return r

def run (id : String) (load connected : Except String Unit) : Program (Session σ) String Unit :=
  roundTrip "set" s!"contract: {id}  M=8 quota=4 admission=Cap" load connected (reads k io)
    (Reads.passes k)

/-! ## At the node itself -/

/-- The states of a node that is sent all this. -/
def states (c : Contract) : Reads :=
  let after (s : Option Bytes) (delta : Bytes) := s.map fun s => c.update s delta
  let g1 := c.create (k.encode [ownerItem k] [])
  let g2 := after g1 (k.encode [capItem k] [])
  let g3 := after g2 (k.encode [] [k.denyOf 1])
  let g4 := after g3 (k.encode [] [k.denyOf 0])
  let g5a := after g4 (k.encode [other k] [])
  { g1, g2, g3, g4, g5a, g5 := after g5a (k.encode [] [k.denyOf 2]) }

/-- The reads of these that are answered. -/
def Reads.seen (answered : Nat → Bool) (r : Reads) : Reads where
  g1 := if answered 0 then r.g1 else none
  g2 := if answered 1 then r.g2 else none
  g3 := if answered 2 then r.g3 else none
  g4 := if answered 3 then r.g4 else none
  g5a := if answered 4 then r.g5a else none
  g5 := if answered 5 then r.g5 else none

variable {k}

/-- The last control needs something to take away from. -/
theorem Reads.control_pos {r : Reads} (h : r.control k = true) : (counts k r.g5a).2 ≠ 0 := by
  have := of_decide_eq_true h
  omega

/-- The reads at the node itself, up to the last subtraction. -/
theorem exec_reads (k : Crate Item Denial) (c : Contract) (answered : Nat → Bool)
    (printed : List String) :
    ∃ line s', exec (reads k (Heard.io c answered)) ⟨{}, printed⟩ =
      exec (if (counts k ((states k c).seen answered).g5a).2 = 0 then
          throw "attempt to subtract with overflow"
        else do
          println line
          return (states k c).seen answered) s' := ⟨_, _, rfl⟩

theorem heard_ok_iff {c : Contract} {answered : Nat → Bool} {id : String}
    {load connected : Except String Unit} :
    (exec (run k (Heard.io c answered) id load connected) { world := {} }).1 = .ok () ↔
      load = .ok () ∧ connected = .ok () ∧ ((states k c).seen answered).passes k = true := by
  rw [run, roundTrip_ok_iff]
  refine and_congr_right fun _ => and_congr_right fun _ => ?_
  obtain ⟨line, s₀, hreads⟩ := exec_reads k c answered ([] ++ [_])
  rw [hreads]
  constructor
  · intro h
    obtain ⟨r, s', hr, hpass⟩ := h
    split at hr
    · cases hr
    · cases hr
      exact hpass
  · intro hpass
    rw [if_neg (Reads.control_pos (Bool.and_eq_true_iff.mp hpass).2)]
    exact ⟨_, _, rfl, hpass⟩

theorem simulates_reads {τ : Type} {R : σ → τ → Prop} {io : Io σ} {io' : Io τ}
    (h : Io.Follows R io io') : Simulates (Beside R) Eq (reads k io) (reads k io') := by
  refine .bind (simulates_on (h.put _)) fun g1 _ h1 => h1 ▸ ?_
  refine .bind (simulates_println _) fun _ _ _ => ?_
  refine .bind (simulates_on (h.update _)) fun g2 _ h2 => h2 ▸ ?_
  refine .bind (simulates_println _) fun _ _ _ => ?_
  refine .bind (simulates_on (h.update _)) fun g3 _ h3 => h3 ▸ ?_
  refine .bind (simulates_println _) fun _ _ _ => ?_
  refine .bind (simulates_on (h.update _)) fun g4 _ h4 => h4 ▸ ?_
  refine .bind (simulates_println _) fun _ _ _ => ?_
  refine .bind (simulates_on (h.update _)) fun g5a _ h5a => h5a ▸ ?_
  refine .bind (simulates_on (h.update _)) fun g5 _ h5 => h5 ▸ ?_
  refine .ite (fun _ => .throw) fun _ => ?_
  refine .bind (simulates_println _) fun _ _ _ => ?_
  exact .pure rfl

/-- Something visible was read. -/
theorem counts_of_seen {b : Bool} {state : Option Bytes} {x : Nat × Nat} (hx : x.2 ≠ 0)
    (h : counts k (if b then state else none) = x) : counts k state = x := by
  cases b with
  | true => exact h
  | false => exact absurd (h ▸ rfl : x.2 = 0) hx

theorem Reads.shown_iff {r : Reads} : r.shown k = true ↔
    counts k r.g1 = (1, 1) ∧ counts k r.g2 = (2, 2) ∧ counts k r.g3 = (2, 1) ∧
      counts k r.g4 = (2, 1) := by
  simp only [Reads.shown, Bool.and_eq_true, decide_eq_true_eq, and_assoc]
  refine and_congr_right fun _ => and_congr_right fun _ => and_congr_right fun h3 => ?_
  rw [h3]

theorem Reads.shown_of_seen {answered : Nat → Bool} {r : Reads}
    (h : (r.seen answered).shown k = true) : r.shown k = true := by
  obtain ⟨h1, h2, h3, h4⟩ := Reads.shown_iff.mp h
  exact Reads.shown_iff.mpr ⟨counts_of_seen (by decide) h1, counts_of_seen (by decide) h2,
    counts_of_seen (by decide) h3, counts_of_seen (by decide) h4⟩

/-- The last control, where its own last read may have come back with nothing. -/
theorem Reads.control_of_seen {answered : Nat → Bool} {r : Reads}
    (h : (r.seen answered).control k = true) :
    r.control k = true ∨ answered 5 = false ∧ (counts k r.g5a).2 = 1 := by
  have hpos := Reads.control_pos h
  have hg5a : counts k r.g5a = counts k (r.seen answered).g5a := counts_of_seen hpos rfl
  have hsub : (counts k (r.seen answered).g5).2 + 1 = (counts k r.g5a).2 :=
    (of_decide_eq_true h).trans (congrArg Prod.snd hg5a).symm
  cases h5 : answered 5 with
  | true =>
    have hg5 : (r.seen answered).g5 = r.g5 := if_pos h5
    rw [hg5] at hsub
    exact .inl (decide_eq_true hsub)
  | false =>
    have hg5 : (r.seen answered).g5 = none := if_neg (by simp [h5])
    rw [hg5] at hsub
    exact .inr ⟨rfl, hsub.symm⟩

/-! ## Over a connection -/

section Connection

variable {Key : Type} [DecidableEq Key] {key : Key} {c : Contract} {t : Nat → Meets Key}
  {id : String} {load connected : Except String Unit}

theorem connection_ok_iff (ht : InTime t) (hs : Sent t) :
    (exec (run k (connection key c t) id load connected) { world := {} }).1 = .ok () ↔
      load = .ok () ∧ connected = .ok () ∧ ((states k c).seen (answered t)).passes k = true := by
  rw [← heard_ok_iff]
  exact ⟨heard_ok (simulates_reads (connection_follows ht)),
    connection_ok (simulates_reads (heard_follows ht hs))⟩

/-- **What a node did whose run passes.** While answers come in time or never it did all that
was checked, but for one case: with no more than one item visible, a last read that is never
answered passes for a denial. -/
theorem set_pass_shows (ht : InTime t)
    (h : (exec (run k (connection key c t) id load connected) { world := {} }).1 = .ok ()) :
    (states k c).shown k = true ∧ ((states k c).control k = true ∨
      answered t 5 = false ∧ (counts k (states k c).g5a).2 = 1) := by
  obtain ⟨-, -, hpass⟩ := heard_ok_iff.mp (heard_ok (simulates_reads (connection_follows ht)) h)
  obtain ⟨hshown, hcontrol⟩ := Bool.and_eq_true_iff.mp hpass
  exact ⟨Reads.shown_of_seen hshown, Reads.control_of_seen hcontrol⟩

end Connection

/-! ## A Set that passes -/

/-- An item, before it is signed. -/
structure Entry where
  signer : Nat
  name : Bytes
  order : Nat
  body : Bytes

/-- The slots of a Set, each its signer and its name, and the signers that are denied. -/
structure Slots where
  held : List (Nat × Bytes) := []
  denied : List Nat := []

namespace Slots

/-- Those a reader sees. -/
def visible (s : Slots) : List (Nat × Bytes) := s.held.filter fun x => decide (x.1 ∉ s.denied)

/-- A denial of the owner, who is signer 0, is refused. None takes a slot away. -/
def join (s d : Slots) : Slots where
  held := (s.held ++ d.held).dedup
  denied := (s.denied ++ d.denied.filter (· ≠ 0)).dedup

/-- Within the quota, and of signers that there are. -/
def Fits (s d : Slots) : Prop :=
  s.held.length + d.held.length ≤ 4 ∧ (∀ x ∈ d.held, x.1 < 4) ∧ ∀ x ∈ d.denied, x < 4

instance (s d : Slots) : Decidable (s.Fits d) := inferInstanceAs (Decidable (_ ∧ _ ∧ _))

/-- **A denial hides and retains.** -/
theorem join_deny (s : Slots) (hs : s.held.Nodup) (d : Nat) :
    (s.join ⟨[], [d]⟩).held = s.held ∧ (s.join ⟨[], [d]⟩).visible =
      if d = 0 then s.visible else s.visible.filter fun x => x.1 ≠ d := by
  have hheld : (s.join ⟨[], [d]⟩).held = s.held := by simp [join, hs.dedup]
  refine ⟨hheld, ?_⟩
  unfold visible
  rw [hheld]
  split
  · rename_i h
    simp [join, h]
  · rename_i h
    rw [List.filter_filter]
    refine List.filter_congr fun x _ => ?_
    simp [join, h, and_comm]

end Slots

/-- What items and denials say. -/
def said (xs : List Entry) (ds : List Nat) : Slots := ⟨xs.map fun x => (x.signer, x.name), ds⟩

variable (k) in
/-- The state of these items, and of denials of these signers. -/
def Crate.state (xs : List Entry) (ds : List Nat) : Bytes :=
  k.encode (xs.map fun x => k.item x.signer x.name x.order x.body) (ds.map k.denyOf)

/-- The slots that the states of a contract stand for. -/
structure Refines (k : Crate Item Denial) (c : Contract) (R : Bytes → Slots → Prop) : Prop where
  create : ∀ xs ds, Slots.Fits {} (said xs ds) →
    ∃ s, c.create (k.state xs ds) = some s ∧ R s (Slots.join {} (said xs ds))
  update : ∀ s slots xs ds, R s slots → slots.Fits (said xs ds) →
    R (c.update s (k.state xs ds)) (slots.join (said xs ds))
  parse : ∀ s slots, R s slots → k.parse s = some (slots.held.length, slots.visible.length)

theorem Refines.counts {c : Contract} {R : Bytes → Slots → Prop} (h : Refines k c R) {s : Bytes}
    {slots : Slots} (hs : R s slots) :
    counts k (some s) = (slots.held.length, slots.visible.length) := by
  simp [Set.counts, h.parse s slots hs]

/-- What the script does, slot by slot. -/
theorem Refines.passes {c : Contract} {R : Bytes → Slots → Prop} (h : Refines k c R) :
    (states k c).passes k = true := by
  let owner : Entry := ⟨0, text "k-owner", 10, text "by the owner"⟩
  let cap : Entry := ⟨1, text "k-cap", 11, text "by a cap holder"⟩
  let third : Entry := ⟨2, text "k-other", 12, text "by another cap holder"⟩
  obtain ⟨s1, h1, r1⟩ := h.create [owner] [] (by decide +kernel)
  have r2 := h.update _ _ [cap] [] r1 (by decide +kernel)
  have r3 := h.update _ _ [] [1] r2 (by decide +kernel)
  have r4 := h.update _ _ [] [0] r3 (by decide +kernel)
  have r5a := h.update _ _ [third] [] r4 (by decide +kernel)
  have r5 := h.update _ _ [] [2] r5a (by decide +kernel)
  have e1 : (states k c).g1 = some s1 := h1
  have e2 : (states k c).g2 = some _ := congrArg (Option.map _) e1
  have e3 : (states k c).g3 = some _ := congrArg (Option.map _) e2
  have e4 : (states k c).g4 = some _ := congrArg (Option.map _) e3
  have e5a : (states k c).g5a = some _ := congrArg (Option.map _) e4
  have e5 : (states k c).g5 = some _ := congrArg (Option.map _) e5a
  refine Bool.and_eq_true_iff.mpr ⟨Reads.shown_iff.mpr ?_, decide_eq_true ?_⟩
  · rw [e1, e2, e3, e4]
    refine ⟨(h.counts r1).trans ?_, (h.counts r2).trans ?_, (h.counts r3).trans ?_,
      (h.counts r4).trans ?_⟩
    all_goals decide +kernel
  · rw [e5a, e5]
    refine (congrArg (fun x => x.2 + 1) (h.counts r5)).trans (Eq.trans ?_
      (congrArg Prod.snd (h.counts r5a)).symm)
    decide +kernel

instance encodableByte : Encodable UInt8 :=
  .ofLeftInverse UInt8.toNat UInt8.ofNat fun _ => UInt8.ofNat_toNat

/-- One byte for each step of the count of slots. -/
def slotsBytes (s : Slots) : Bytes := List.replicate (Encodable.encode (s.held, s.denied)) 0

def parseSlots (b : Bytes) : Option Slots :=
  (Encodable.decode (α := List (Nat × Bytes) × List Nat) b.length).map fun x => ⟨x.1, x.2⟩

def smallCrate : Crate (Nat × Bytes) Nat where
  item i name _ _ := (i, name)
  denyOf i := i
  encode held denied := slotsBytes ⟨held, denied⟩
  parse b := (parseSlots b).map fun s => (s.held.length, s.visible.length)

/-- Counts of slots and of denials alone, and none of what signer 2 says or is denied. -/
def tallyCrate : Crate Nat Nat where
  item i _ _ _ := i
  denyOf i := i
  encode held denied := [.ofNat (held.countP (· < 2)), .ofNat (denied.countP (· = 1))]
  parse
    | [h, d] => some (h.toNat, h.toNat - d.toNat)
    | _ => none

def tally : Contract where
  create := some
  update s b := List.zipWith (· + ·) s b

/-- It denies nothing to anyone, at the last, and passes. -/
theorem set_pass_shows_tally :
    ((states tallyCrate tally).shown tallyCrate = true ∧
      ((states tallyCrate tally).control tallyCrate = true ∨
        answered (prompt (· < 5)) 5 = false ∧
          (counts tallyCrate (states tallyCrate tally).g5a).2 = 1)) ∧
    (states tallyCrate tally).control tallyCrate = false := by
  have hrun := (@connection_ok_iff _ _ tallyCrate _ _ 7 tally (prompt (· < 5)) "" (.ok ()) (.ok ())
    (prompt_inTime _) (prompt_sent _)).mpr ⟨rfl, rfl, by decide +kernel⟩
  exact ⟨set_pass_shows (prompt_inTime _) hrun, by decide +kernel⟩

end FreenetHarness.RoundTrip.Set
