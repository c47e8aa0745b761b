import Mathlib.Data.List.Lex
import Mathlib.Data.Prod.Lex
import Mathlib.Logic.Equiv.List
import FreenetHarness.Lib.Cut
import FreenetHarness.Lib.Number
import FreenetHarness.RoundTrip.Node

/-! # The round trip of a Bag

The contract and the crate it comes with are parameters. `bag_pass_shows` says what a node did
whose run passes, and `bag_passes_iff` when a run passes against a contract that does all that
the script takes for granted of it: the last control needs room for a seventh pointer. -/
namespace FreenetHarness.RoundTrip.Bag
open FreenetHarness.Lib.Programs FreenetHarness.Lib.Cut FreenetHarness.Lib.Text
  FreenetHarness.Lib.Number

/-- The crate, at the params of a run: what it says of a pointer, how it writes and reads a
state, and how it mines. -/
structure Crate (Pointer Name Rank : Type) where
  name : Pointer → Name
  work : Pointer → Nat
  rank : Pointer → Rank
  encode : List Pointer → Bytes
  parse : Bytes → Option (List Pointer)
  /-- A pointer to this payload, at the price of the params, searched from a seed. -/
  mine : Str → Nat → Pointer
  /-- And one with at least so many bits of work. -/
  mineAt : Str → Nat → Nat → Pointer

structure Opts where
  workBits : Nat
  m : Nat

variable {Pointer Name Rank : Type} [LinearOrder Rank] (k : Crate Pointer Name Rank) (o : Opts)

/-! ## What is sent -/

def count (state : Bytes) : Nat := ((k.parse state).map List.length).getD 0

def countOf (state : Option Bytes) : Nat := (state.map (count k)).getD 0

/-- A bag state the contract will actually parse. -/
def ranked (ptrs : List Pointer) : Bytes := k.encode (rankSort k.rank ptrs)

/-- The seeds from `seed` on, up to so many of them. -/
def mineFrom (payload : Str) (bits : Nat) : Nat → Nat → Option Pointer
  | 0, _ => none
  | n + 1, seed =>
    let ptr := k.mineAt payload seed bits
    if k.work ptr = bits then some ptr else mineFrom payload bits n (seed + 1)

/-- A pointer whose work is exactly `bits`. -/
def mineExactly (payload : Str) (bits : Nat) : Option Pointer := mineFrom k payload bits 200000 0

def payload (who : String) (i : Nat) : Str := who.toList ++ '/' :: digits i

/-- `n` pointers, each with a payload of its own. -/
def pointers (who : String) (seed n : Nat) : List Pointer :=
  (List.range n).map fun i => k.mine (payload who i) seed

def writerA : List Pointer := pointers k "writer-A" 11 3

def writerB : List Pointer := pointers k "writer-B" 22 3

/-- Mined one bit below the price. -/
def cheapPointer : Option Pointer := mineExactly k "under-priced".toList (o.workBits - 1)

def paidPointer : Pointer := k.mine "paid".toList 99

/-- A full candidate. -/
def overflow : List Pointer := pointers k "overflow" 1234 o.m

def want : Nat := min ((writerA k).length + (writerB k).length) o.m

/-! ## The script -/

/-- The states a run reads back: after the put, and after the second, the third, the fourth
and the last of the deltas that it looks at. -/
structure Reads where
  created : Option Bytes
  s2 : Option Bytes
  s3 : Option Bytes
  s4 : Option Bytes
  s5 : Option Bytes

/-- The five checks. -/
def Reads.passes (r : Reads) : Bool :=
  decide (r.created = some (k.encode [])) && decide (countOf k r.s2 = want k o) &&
    decide (r.s3 = r.s2) && decide (countOf k r.s3 < countOf k r.s4) &&
    decide (countOf k r.s5 = o.m)

variable {σ : Type} (io : Io σ)

/-- From the under-priced pointer on. -/
def controls (created s2 : Option Bytes) (cheap : Pointer) :
    Program (Session σ) String Reads := do
  println s!"   (control pointer work = {k.work cheap} bits, price = {o.workBits} bits)"
  let s3 ← on (io.update (ranked k [cheap]))
  println (s!"3. an under-priced pointer changes nothing: {verdict (s3 = s2)}  " ++
    s!"({countOf k s2} -> {countOf k s3} pointers)")
  let s4 ← on (io.update (ranked k [paidPointer k]))
  println ("4. CONTROL — a correctly-priced pointer IS admitted on the same path: " ++
    verdict (countOf k s3 < countOf k s4))
  let s5 ← on (io.update (ranked k (overflow k o)))
  println (s!"5. a full legal candidate ({(overflow k o).length} ptrs) joins {countOf k s4} " ++
    s!"held -> cut to M: bag holds {countOf k s5}, M={o.m}: {verdict (countOf k s5 = o.m)}")
  return { created, s2, s3, s4, s5 }

section Script

variable [DecidableEq Name]

/-- The deltas and what they leave. -/
def reads : Program (Session σ) String Reads :=
  if (k.encode []).length ≠ 6 then
    throw s!"expected a 6-byte empty bag, got {(k.encode []).length} bytes"
  else do
    let created ← on (io.put (k.encode []))
    println ("1. PUT of the 6-byte empty bag creates it: " ++
      s!"{verdict (created = some (k.encode []))}  (state {(created.map List.length).getD 0} bytes)")
    if (writerB k).any fun x => ((writerA k).map k.name).contains (k.name x) then
      throw "writers A and B share a pointer — 'disjoint' is not what is being tested"
    else do
      let _ ← on (io.update (ranked k (writerA k)))
      let s2 ← on (io.update (ranked k (writerB k)))
      println (s!"2. two writers' disjoint pointers union to {countOf k s2} " ++
        s!"(expected {want k o}, M={o.m}): {verdict (countOf k s2 = want k o)}")
      match cheapPointer k o with
      | none => throw (s!"could not mine a pointer with exactly {o.workBits - 1} bits — " ++
          "control cannot run")
      | some cheap =>
        if o.workBits ≤ k.work cheap then
          throw (s!"control pointer has {k.work cheap} bits, price is {o.workBits} — " ++
            "not under-priced")
        else controls k o io created s2 cheap

def run (id : String) (load connected : Except String Unit) : Program (Session σ) String Unit :=
  roundTrip "bag" s!"contract: {id}  work_bits={o.workBits} M={o.m}" load connected (reads k o io)
    (Reads.passes k o)

end Script

/-! ## At the node itself -/

/-- The states of a node that is sent all this. -/
def states (c : Contract) (cheap : Pointer) : Reads :=
  let after (s : Option Bytes) (ps : List Pointer) := s.map fun s => c.update s (ranked k ps)
  let created := c.create (k.encode [])
  let s2 := after (after created (writerA k)) (writerB k)
  let s3 := after s2 [cheap]
  let s4 := after s3 [paidPointer k]
  { created, s2, s3, s4, s5 := after s4 (overflow k o) }

/-- What a run asserts of its own deltas. -/
structure Premises (cheap : Pointer) : Prop where
  empty : (k.encode []).length = 6
  disjoint : ∀ x ∈ writerB k, ∀ y ∈ writerA k, k.name y ≠ k.name x
  mined : cheapPointer k o = some cheap
  under : k.work cheap < o.workBits

variable {k o}

section Script

variable {io} [DecidableEq Name]

theorem premises_of_reads {s s' : Session σ} {r : Reads} (h : exec (reads k o io) s = (.ok r, s')) :
    ∃ cheap, Premises k o cheap := by
  unfold reads at h
  split at h
  · cases h
  · rename_i hempty
    obtain ⟨_, _, -, h⟩ := exec_bind_ok.mp h
    obtain ⟨_, _, -, h⟩ := exec_bind_ok.mp h
    split at h
    · cases h
    · rename_i hdisjoint
      obtain ⟨_, _, -, h⟩ := exec_bind_ok.mp h
      obtain ⟨_, _, -, h⟩ := exec_bind_ok.mp h
      obtain ⟨_, _, -, h⟩ := exec_bind_ok.mp h
      split at h
      · cases h
      · rename_i cheap hcheap
        split at h
        · cases h
        · rename_i hunder
          exact ⟨cheap, not_not.mp hempty, by simpa using hdisjoint, hcheap, Nat.not_le.mp hunder⟩

end Script

/-- The calls whose reads are looked at: all but the first writer's update. -/
def looked : List Nat := [0, 2, 3, 4, 5]

/-- The reads of these that are answered. -/
def Reads.seen (answered : Nat → Bool) (r : Reads) : Reads where
  created := if answered 0 then r.created else none
  s2 := if answered 2 then r.s2 else none
  s3 := if answered 3 then r.s3 else none
  s4 := if answered 4 then r.s4 else none
  s5 := if answered 5 then r.s5 else none

/-- Where every read is answered these are all. -/
theorem Reads.seen_eq {answered : Nat → Bool} (h : ∀ i, answered i = true) (r : Reads) :
    r.seen answered = r := by
  simp [Reads.seen, h]

section Heard

variable [DecidableEq Name] {c : Contract} {answered : Nat → Bool}

/-- What the reads are at the node itself. -/
theorem exec_reads {cheap : Pointer} (h : Premises k o cheap) (printed : List String) :
    ∃ s', exec (reads k o (Heard.io c answered)) ⟨{}, printed⟩ =
      (.ok ((states k o c cheap).seen answered), s') := by
  have hdisjoint : ¬ ((writerB k).any fun x => ((writerA k).map k.name).contains (k.name x)) = true := by
    simpa using h.disjoint
  unfold reads
  rw [if_neg (not_not.mpr h.empty)]
  simp only [if_neg hdisjoint, h.mined, if_neg (Nat.not_le.mpr h.under)]
  exact ⟨_, rfl⟩

theorem heard_ok_iff {id : String} {load connected : Except String Unit} :
    (exec (run k o (Heard.io c answered) id load connected) { world := {} }).1 = .ok () ↔
      load = .ok () ∧ connected = .ok () ∧
        ∃ cheap, Premises k o cheap ∧ ((states k o c cheap).seen answered).passes k o = true := by
  rw [run, roundTrip_ok_iff]
  refine and_congr_right fun _ => and_congr_right fun _ => ?_
  constructor
  · intro h
    obtain ⟨r, s', hr, hpass⟩ := h
    obtain ⟨cheap, hp⟩ := premises_of_reads hr
    obtain ⟨s'', hs''⟩ := exec_reads hp _
    rw [hr, Prod.mk.injEq, Except.ok.injEq] at hs''
    exact ⟨cheap, hp, hs''.1 ▸ hpass⟩
  · intro h
    obtain ⟨cheap, hp, hpass⟩ := h
    obtain ⟨s', hs'⟩ := exec_reads hp _
    exact ⟨_, s', hs', hpass⟩

end Heard

/-! ## Over a connection -/

section Follows

variable {τ : Type} {R : σ → τ → Prop} {io : Io σ} {io' : Io τ}

theorem simulates_controls (h : Io.Follows R io io') (created s2 : Option Bytes) (cheap : Pointer) :
    Simulates (Beside R) Eq (controls k o io created s2 cheap)
      (controls k o io' created s2 cheap) := by
  refine .bind (simulates_println _) fun _ _ _ => ?_
  refine .bind (simulates_on (h.update _)) fun s3 _ h3 => h3 ▸ ?_
  refine .bind (simulates_println _) fun _ _ _ => ?_
  refine .bind (simulates_on (h.update _)) fun s4 _ h4 => h4 ▸ ?_
  refine .bind (simulates_println _) fun _ _ _ => ?_
  refine .bind (simulates_on (h.update _)) fun s5 _ h5 => h5 ▸ ?_
  refine .bind (simulates_println _) fun _ _ _ => ?_
  exact .pure rfl

variable [DecidableEq Name]

theorem simulates_reads (h : Io.Follows R io io') :
    Simulates (Beside R) Eq (reads k o io) (reads k o io') := by
  refine .ite (fun _ => .throw) fun _ => ?_
  refine .bind (simulates_on (h.put _)) fun created _ hc => hc ▸ ?_
  refine .bind (simulates_println _) fun _ _ _ => ?_
  refine .ite (fun _ => .throw) fun _ => ?_
  refine .bind (simulates_on (h.update _)) fun _ _ _ => ?_
  refine .bind (simulates_on (h.update _)) fun s2 _ h2 => h2 ▸ ?_
  refine .bind (simulates_println _) fun _ _ _ => ?_
  cases cheapPointer k o with
  | none => exact .throw
  | some cheap => exact .ite (fun _ => .throw) fun _ => simulates_controls h created s2 cheap

end Follows

omit [LinearOrder Rank] in
theorem Reads.passes_iff {r : Reads} : r.passes k o = true ↔
    r.created = some (k.encode []) ∧ countOf k r.s2 = want k o ∧ r.s3 = r.s2 ∧
      countOf k r.s3 < countOf k r.s4 ∧ countOf k r.s5 = o.m := by
  simp [Reads.passes, and_assoc]

omit [LinearOrder Rank] in
theorem want_eq : want k o = min 6 o.m := by simp [want, writerA, writerB, pointers]

omit [LinearOrder Rank] in
/-- A count is a count of something read. -/
theorem of_countOf_pos {b : Bool} {held : Option Bytes}
    (h : 0 < countOf k (if b then held else none)) : b = true := by
  cases b with
  | true => rfl
  | false => exact absurd h (Nat.lt_irrefl 0)

omit [LinearOrder Rank] in
/-- **With every check passed, no read came back with nothing.** -/
theorem Reads.passes_of_seen {answered : Nat → Bool} {r : Reads} (hcut : ∀ s, count k s ≤ o.m)
    (hpass : (r.seen answered).passes k o = true) :
    (∀ i ∈ looked, answered i = true) ∧ r.passes k o = true := by
  obtain ⟨hc, h2, h3, h4, h5⟩ := Reads.passes_iff.mp hpass
  have hle : ∀ s, countOf k s ≤ o.m := fun s => by
    cases s with
    | none => exact Nat.zero_le _
    | some s => exact hcut s
  have hm := hle (r.seen answered).s4
  have hpos : 0 < want k o := by rw [want_eq]; omega
  have hroom : 0 < o.m := (Nat.zero_lt_of_lt h4).trans_le hm
  have a0 : answered 0 = true := by
    by_contra h0
    rw [Reads.seen, if_neg h0] at hc
    cases hc
  have a2 : answered 2 = true := of_countOf_pos (h2.symm ▸ hpos)
  have a3 : answered 3 = true := of_countOf_pos (h3.symm ▸ h2.symm ▸ hpos)
  have a4 : answered 4 = true := of_countOf_pos (Nat.zero_lt_of_lt h4)
  have a5 : answered 5 = true := of_countOf_pos (h5.symm ▸ hroom)
  have hseen : r.seen answered = r := by
    rw [Reads.seen, if_pos a0, if_pos a2, if_pos a3, if_pos a4, if_pos a5]
  refine ⟨?_, hseen ▸ hpass⟩
  simp only [looked, List.forall_mem_cons, List.not_mem_nil, false_imp_iff, implies_true, and_true]
  exact ⟨a0, a2, a3, a4, a5⟩

section Connection

variable {Key : Type} [DecidableEq Key] [DecidableEq Name] {key : Key} {c : Contract}
  {t : Nat → Meets Key} {id : String} {load connected : Except String Unit}

theorem connection_ok_iff (ht : InTime t) (hs : Sent t) :
    (exec (run k o (connection key c t) id load connected) { world := {} }).1 = .ok () ↔
      load = .ok () ∧ connected = .ok () ∧ ∃ cheap, Premises k o cheap ∧
        ((states k o c cheap).seen (answered t)).passes k o = true := by
  rw [← heard_ok_iff]
  exact ⟨heard_ok (simulates_reads (connection_follows ht)),
    connection_ok (simulates_reads (heard_follows ht hs))⟩

/-- **What a node did whose run passes.** While answers come in time or never, and no state
with more than `m` pointers can be read, every read that is looked at was answered, and the
states of the node itself pass every check. -/
theorem bag_pass_shows (ht : InTime t) (hcut : ∀ s, count k s ≤ o.m)
    (h : (exec (run k o (connection key c t) id load connected) { world := {} }).1 = .ok ()) :
    (∀ i ∈ looked, answered t i = true) ∧
      ∃ cheap, Premises k o cheap ∧ (states k o c cheap).passes k o = true := by
  obtain ⟨-, -, cheap, hp, hpass⟩ := heard_ok_iff.mp
    (heard_ok (simulates_reads (connection_follows ht)) h)
  obtain ⟨hanswered, hpass⟩ := Reads.passes_of_seen hcut hpass
  exact ⟨hanswered, cheap, hp, hpass⟩

end Connection

/-! ## A contract that conforms -/

/-- What the script takes for granted of the contract and its crate. -/
structure Conforms [DecidableEq Pointer] (k : Crate Pointer Name Rank) (o : Opts) (c : Contract) :
    Prop where
  empty : (k.encode []).length = 6
  create : c.create (k.encode []) = some (k.encode [])
  /-- Only strict rank order is read, and no more than `m`. -/
  parse : ∀ ps, k.parse (k.encode ps) = if Within k.rank o.m ps then some ps else none
  rank : Function.Injective k.rank
  /-- Pointers to different payloads have different names. -/
  name : ∀ p s q t, k.name (k.mine p s) = k.name (k.mine q t) → p = q
  price : ∀ p s, o.workBits ≤ k.work (k.mine p s)
  /-- What cannot be read is ignored, and what did not pay is not joined. -/
  update : ∀ held ps, Within k.rank o.m held → c.update (k.encode held) (k.encode ps) =
    k.encode (if Within k.rank o.m ps then
      joinCut k.rank o.m held (ps.filter fun x => decide (o.workBits ≤ k.work x)) else held)

section Conforms

variable [DecidableEq Pointer] {c : Contract}

/-- What joins, of a candidate. -/
def paid (o : Opts) (k : Crate Pointer Name Rank) (ps : List Pointer) : List Pointer :=
  ps.filter fun x => decide (o.workBits ≤ k.work x)

/-- What a conforming bag holds after a candidate. -/
def joined (o : Opts) (k : Crate Pointer Name Rank) (held ps : List Pointer) : List Pointer :=
  if Within k.rank o.m ps then joinCut k.rank o.m held (paid o k ps) else held

theorem within_joined (h : Conforms k o c) {held : List Pointer} (hh : Within k.rank o.m held)
    (ps : List Pointer) : Within k.rank o.m (joined o k held ps) := by
  unfold joined
  split
  · exact within_joinCut h.rank ..
  · exact hh

/-- Every state of a conforming node is one it can write. -/
theorem update_eq (h : Conforms k o c) {held : List Pointer} (hh : Within k.rank o.m held)
    (ps : List Pointer) : c.update (k.encode held) (ranked k ps) =
      k.encode (joined o k held (rankSort k.rank ps)) := h.update held _ hh

theorem countOf_encode (h : Conforms k o c) {held : List Pointer} (hh : Within k.rank o.m held) :
    countOf k (some (k.encode held)) = held.length := by
  simp [countOf, count, h.parse, hh]

/-! ## The pointers of a run -/

theorem payload_inj {who who' : String} {i j : Nat} (h : payload who i = payload who' j) :
    who = who' ∧ i = j := by
  have hmark : ∀ n, '/' ∉ digits n := fun n hn => isDigit_ne (digits_isDigit hn) rfl rfl
  have hsplit := congrArg (rsplitOnce '/') h
  rw [payload, payload, rsplitOnce_append _ (hmark i), rsplitOnce_append _ (hmark j)] at hsplit
  obtain ⟨hwho, hi⟩ := Prod.mk.inj (Option.some.inj hsplit)
  exact ⟨String.toList_inj.mp hwho, digits_inj hi⟩

theorem nodup_pointers (h : Conforms k o c) (who : String) (seed n : Nat) :
    (pointers k who seed n).Nodup :=
  List.nodup_range.map fun _ _ hij => (payload_inj (h.name _ _ _ _ (congrArg k.name hij))).2

theorem disjoint_pointers (h : Conforms k o c) {who who' : String} (hne : who ≠ who')
    {seed seed' n n' : Nat} {x y : Pointer} (hx : x ∈ pointers k who seed n)
    (hy : y ∈ pointers k who' seed' n') : k.name x ≠ k.name y := by
  obtain ⟨i, -, rfl⟩ := List.mem_map.mp hx
  obtain ⟨j, -, rfl⟩ := List.mem_map.mp hy
  exact fun heq => hne (payload_inj (h.name _ _ _ _ heq)).1

theorem paidPointer_notMem (h : Conforms k o c) (who : String) (seed n : Nat) :
    paidPointer k ∉ pointers k who seed n := by
  intro hmem
  obtain ⟨i, -, hi⟩ := List.mem_map.mp hmem
  have hpay := h.name _ _ _ _ (congrArg k.name hi)
  have hslash : '/' ∈ "paid".toList := hpay ▸ (by simp [payload])
  revert hslash
  decide

/-- A candidate that can be read, of pointers that all paid. -/
theorem joined_of_paid (h : Conforms k o c) (held : List Pointer) {ps : List Pointer}
    (hnd : ps.Nodup) (hlen : ps.length ≤ o.m) (hpaid : ∀ x ∈ ps, o.workBits ≤ k.work x) :
    joined o k held (rankSort k.rank ps) = joinCut k.rank o.m held (rankSort k.rank ps) := by
  have hwithin : Within k.rank o.m (rankSort k.rank ps) :=
    ⟨ordered_rankSort (hnd.map h.rank), by rwa [length_rankSort]⟩
  have hall : paid o k (rankSort k.rank ps) = rankSort k.rank ps :=
    List.filter_eq_self.mpr fun x hx => decide_eq_true (hpaid x ((rankSort_perm ps).mem_iff.mp hx))
  rw [joined, if_pos hwithin, hall]

theorem paid_pointers (h : Conforms k o c) (who : String) (seed n : Nat) :
    ∀ x ∈ pointers k who seed n, o.workBits ≤ k.work x := by
  intro x hx
  obtain ⟨i, -, rfl⟩ := List.mem_map.mp hx
  exact h.price ..

omit [LinearOrder Rank] [DecidableEq Pointer] in
theorem length_pointers (who : String) (seed n : Nat) : (pointers k who seed n).length = n := by
  simp [pointers]

theorem mem_of_joined {held ps : List Pointer} {x : Pointer}
    (hx : x ∈ joined o k held (rankSort k.rank ps)) : x ∈ held ∨ x ∈ ps := by
  unfold joined at hx
  split at hx
  · exact (mem_of_joinCut hx).imp_right fun hmem =>
      (rankSort_perm ps).mem_iff.mp (List.mem_of_mem_filter hmem)
  · exact .inl hx

/-- A candidate none of which paid, read or not. -/
theorem joined_unpaid {held ps : List Pointer} (hh : Within k.rank o.m held)
    (hps : ∀ x ∈ ps, ¬ o.workBits ≤ k.work x) : joined o k held (rankSort k.rank ps) = held := by
  have hnone : paid o k (rankSort k.rank ps) = [] := List.filter_eq_nil_iff.mpr fun x hx => by
    simpa using hps x ((rankSort_perm ps).mem_iff.mp hx)
  rw [joined, hnone, joinCut_nil hh, ite_self]

/-- Pointers joined to others, all of them new. -/
theorem length_joined (h : Conforms k o c) {held ps : List Pointer} (hh : Within k.rank o.m held)
    (hnd : ps.Nodup) (hlen : ps.length ≤ o.m) (hpaid : ∀ x ∈ ps, o.workBits ≤ k.work x)
    (hnew : ∀ x ∈ held, x ∉ ps) :
    (joined o k held (rankSort k.rank ps)).length = min o.m (held.length + ps.length) := by
  rw [joined_of_paid h held hnd hlen hpaid, length_joinCut, length_dedup_append hh.nodup
    ((rankSort_perm ps).nodup_iff.mpr hnd)
    (fun x hx hmem => hnew x hx ((rankSort_perm ps).mem_iff.mp hmem)), length_rankSort]

/-! ## When a conforming bag passes -/

/-- What a conforming bag holds as a run goes on. -/
def afterWriters (o : Opts) (k : Crate Pointer Name Rank) : List Pointer :=
  joined o k (joined o k [] (rankSort k.rank (writerA k))) (rankSort k.rank (writerB k))

def afterCheap (o : Opts) (k : Crate Pointer Name Rank) (cheap : Pointer) : List Pointer :=
  joined o k (afterWriters o k) (rankSort k.rank [cheap])

def afterPaid (o : Opts) (k : Crate Pointer Name Rank) (cheap : Pointer) : List Pointer :=
  joined o k (afterCheap o k cheap) (rankSort k.rank [paidPointer k])

def afterOverflow (o : Opts) (k : Crate Pointer Name Rank) (cheap : Pointer) : List Pointer :=
  joined o k (afterPaid o k cheap) (rankSort k.rank (overflow k o))

omit [DecidableEq Pointer] in
theorem within_nil : Within k.rank o.m [] := ⟨List.Pairwise.nil, Nat.zero_le _⟩

theorem within_afterWriters (h : Conforms k o c) : Within k.rank o.m (afterWriters o k) :=
  within_joined h (within_joined h within_nil _) _

theorem within_afterCheap (h : Conforms k o c) (cheap : Pointer) :
    Within k.rank o.m (afterCheap o k cheap) := within_joined h (within_afterWriters h) _

theorem within_afterPaid (h : Conforms k o c) (cheap : Pointer) :
    Within k.rank o.m (afterPaid o k cheap) := within_joined h (within_afterCheap h cheap) _

theorem states_eq (h : Conforms k o c) (cheap : Pointer) : states k o c cheap =
    { created := some (k.encode []), s2 := some (k.encode (afterWriters o k))
      s3 := some (k.encode (afterCheap o k cheap)), s4 := some (k.encode (afterPaid o k cheap))
      s5 := some (k.encode (afterOverflow o k cheap)) } := by
  have h1 := within_joined h within_nil (rankSort k.rank (writerA k))
  have h2 := within_afterWriters h
  have h3 := within_afterCheap h cheap
  have h4 := within_afterPaid h cheap
  have e2 : c.update (k.encode _) (ranked k (writerB k)) = k.encode (afterWriters o k) :=
    update_eq h h1 _
  have e3 : c.update (k.encode _) (ranked k [cheap]) = k.encode (afterCheap o k cheap) :=
    update_eq h h2 _
  have e4 : c.update (k.encode _) (ranked k [paidPointer k]) = k.encode (afterPaid o k cheap) :=
    update_eq h h3 _
  have e5 : c.update (k.encode _) (ranked k (overflow k o)) = k.encode (afterOverflow o k cheap) :=
    update_eq h h4 _
  simp only [states, h.create, Option.map_some, update_eq h within_nil, e2, e3, e4, e5]

/-- Six pointers, where there is room. -/
theorem length_afterWriters (h : Conforms k o c) (hm : 7 ≤ o.m) :
    (afterWriters o k).length = 6 := by
  have hlen : ∀ who seed, (pointers k who seed 3).length ≤ o.m := fun who seed => by
    rw [length_pointers]
    omega
  have hA := length_joined h within_nil (nodup_pointers h "writer-A" 11 3) (hlen _ _)
    (paid_pointers h _ _ _) fun _ hx => absurd hx List.not_mem_nil
  have hB := length_joined h (within_joined h within_nil (rankSort k.rank (writerA k)))
    (nodup_pointers h "writer-B" 22 3) (hlen _ _) (paid_pointers h _ _ _) fun x hx hmem =>
      disjoint_pointers h (by decide) ((mem_of_joined hx).resolve_left List.not_mem_nil) hmem rfl
  rw [length_pointers] at hA hB
  change (joined o k [] (rankSort k.rank (writerA k))).length = _ at hA
  rw [hA] at hB
  exact hB.trans (by rw [List.length_nil]; omega)

theorem length_afterPaid (h : Conforms k o c) (hm : 7 ≤ o.m) {cheap : Pointer}
    (hcheap : k.work cheap < o.workBits) : (afterPaid o k cheap).length = 7 := by
  have hsame : afterCheap o k cheap = afterWriters o k := joined_unpaid (within_afterWriters h)
    fun x hx => (List.mem_singleton.mp hx).symm ▸ Nat.not_le.mpr hcheap
  have hone : ∀ x ∈ [paidPointer k], o.workBits ≤ k.work x :=
    fun x hx => (List.mem_singleton.mp hx).symm ▸ h.price ..
  have hnew : paidPointer k ∉ afterWriters o k := by
    intro hmem
    obtain hmem | hmem := mem_of_joined hmem
    · obtain hmem | hmem := mem_of_joined hmem
      · exact List.not_mem_nil hmem
      · exact paidPointer_notMem h _ _ _ hmem
    · exact paidPointer_notMem h _ _ _ hmem
  have hlen := length_joined h (within_afterWriters h) (List.nodup_singleton (paidPointer k))
    (by rw [List.length_singleton]; omega) hone
    fun x hx hmem => hnew (List.mem_singleton.mp hmem ▸ hx)
  rw [length_afterWriters h hm, List.length_singleton] at hlen
  rw [afterPaid, hsame, hlen]
  omega

theorem length_afterOverflow (h : Conforms k o c) (cheap : Pointer) :
    (afterOverflow o k cheap).length = o.m := by
  have hnd := nodup_pointers h "overflow" 1234 o.m
  have hlen := length_pointers (k := k) "overflow" 1234 o.m
  rw [afterOverflow, overflow, joined_of_paid h _ hnd hlen.le (paid_pointers h _ _ _)]
  exact length_joinCut_of_full ((rankSort_perm _).nodup_iff.mpr hnd) (by rw [length_rankSort, hlen])

/-- **When the states of a conforming node pass.** -/
theorem passes_states_iff (h : Conforms k o c) {cheap : Pointer} (hcheap : k.work cheap < o.workBits) :
    (states k o c cheap).passes k o = true ↔ 7 ≤ o.m := by
  rw [Reads.passes_iff, states_eq h, countOf_encode h (within_afterWriters h),
    countOf_encode h (within_afterPaid h cheap), countOf_encode h (within_afterCheap h cheap),
    want_eq]
  constructor
  · intro hpass
    obtain ⟨-, h2, h3, h4, -⟩ := hpass
    have hsame := congrArg (countOf k) h3
    rw [countOf_encode h (within_afterCheap h cheap), countOf_encode h (within_afterWriters h)]
      at hsame
    have hle := (within_afterPaid h cheap).length_le
    omega
  · intro hm
    have hsame : afterCheap o k cheap = afterWriters o k := joined_unpaid (within_afterWriters h)
      fun x hx => (List.mem_singleton.mp hx).symm ▸ Nat.not_le.mpr hcheap
    rw [hsame, length_afterWriters h hm, length_afterPaid h hm hcheap]
    refine ⟨rfl, by omega, rfl, by omega, ?_⟩
    exact (countOf_encode h (within_joined h (within_afterPaid h cheap) _)).trans
      (length_afterOverflow h cheap)

omit [LinearOrder Rank] [DecidableEq Pointer] in
/-- What was searched for has exactly the work it was searched for. -/
theorem work_of_mineFrom {p : Str} {bits n seed : Nat} {ptr : Pointer}
    (h : mineFrom k p bits n seed = some ptr) : k.work ptr = bits := by
  induction n generalizing seed with
  | zero => cases h
  | succ n ih =>
    rw [mineFrom] at h
    split at h
    · rename_i hwork
      exact Option.some.inj h ▸ hwork
    · exact ih h

theorem premises_iff (h : Conforms k o c) {cheap : Pointer} :
    Premises k o cheap ↔ cheapPointer k o = some cheap ∧ 1 ≤ o.workBits := by
  constructor
  · intro hp
    exact ⟨hp.mined, Nat.one_le_of_lt hp.under⟩
  · intro hp
    obtain ⟨hmined, hbits⟩ := hp
    refine ⟨h.empty, fun x hx y hy => disjoint_pointers h (by decide) hy hx, hmined, ?_⟩
    rw [work_of_mineFrom hmined]
    omega

end Conforms

/-! ## A small bag -/

/-- A payload, and the work done for it. -/
abbrev Mined := List Nat × Nat

/-- More work comes first, and then the lesser name. -/
def minedRank (x : Mined) : ℕᵒᵈ ×ₗ List Nat := toLex (OrderDual.toDual x.2, x.1)

/-- Six bytes, and one more for each step of the count of lists of pointers. -/
def minedBytes (ps : List Mined) : Bytes := List.replicate (6 + Encodable.encode ps) 0

def parseMined (m : Nat) (bs : Bytes) : Option (List Mined) :=
  (Encodable.decode (bs.length - 6)).filter fun ps => decide (Within minedRank m ps)

def smallCrate (m : Nat) : Crate Mined (List Nat) (ℕᵒᵈ ×ₗ List Nat) where
  name := Prod.fst
  work := Prod.snd
  rank := minedRank
  encode := minedBytes
  parse := parseMined m
  mine p _ := (p.map Char.toNat, 8)
  mineAt p _ bits := (p.map Char.toNat, bits)

def smallOpts (m : Nat) : Opts := { workBits := 8, m }

def smallBag (m : Nat) : Contract where
  create := some
  update held delta :=
    match parseMined m held, parseMined m delta with
    | some xs, some ps => minedBytes (joinCut minedRank m xs (ps.filter fun x => decide (8 ≤ x.2)))
    | _, _ => held

theorem minedRank_injective : Function.Injective minedRank := by
  intro x y h
  obtain ⟨hwork, hname⟩ := Prod.mk.inj (toLex.injective h)
  exact Prod.ext hname (OrderDual.toDual.injective hwork)

theorem parseMined_bytes (m : Nat) (ps : List Mined) :
    parseMined m (minedBytes ps) = if Within minedRank m ps then some ps else none := by
  rw [parseMined, minedBytes, List.length_replicate, Nat.add_sub_cancel_left, Encodable.encodek]
  by_cases h : Within minedRank m ps <;> simp [h]

theorem small_conforms (m : Nat) : Conforms (smallCrate m) (smallOpts m) (smallBag m) where
  empty := rfl
  create := rfl
  parse := parseMined_bytes m
  rank := minedRank_injective
  name _ _ _ _ h := List.map_injective_iff.mpr (fun _ _ hc => Char.ext (UInt32.toNat_inj.mp hc)) h
  price _ _ := Nat.le_refl 8
  update held ps hh := by
    have hheld : parseMined m (minedBytes held) = some held := (parseMined_bytes m held).trans (if_pos hh)
    by_cases hps : Within minedRank m ps
    · have hread : parseMined m (minedBytes ps) = some ps := (parseMined_bytes m ps).trans (if_pos hps)
      simp only [smallBag, smallCrate, smallOpts, hheld, hread]
      exact congrArg minedBytes (if_pos hps).symm
    · have hread : parseMined m (minedBytes ps) = none := (parseMined_bytes m ps).trans (if_neg hps)
      simp only [smallBag, smallCrate, smallOpts, hheld, hread]
      exact congrArg minedBytes (if_neg hps).symm

abbrev allAnswered : Nat → Meets Nat := prompt fun _ => true

theorem count_small (m : Nat) (s : Bytes) : count (smallCrate m) s ≤ m := by
  show ((parseMined m s).map List.length).getD 0 ≤ m
  cases h : parseMined m s with
  | none => exact Nat.zero_le m
  | some ps => exact (of_decide_eq_true (Option.mem_filter_iff.mp h).2 : Within minedRank m ps).length_le

theorem bag_pass_shows_small : (∀ i ∈ looked, answered allAnswered i = true) ∧
    ∃ cheap, Premises (smallCrate 8) (smallOpts 8) cheap ∧
      (states (smallCrate 8) (smallOpts 8) (smallBag 8) cheap).passes (smallCrate 8)
        (smallOpts 8) = true := by
  have hp : Premises (smallCrate 8) (smallOpts 8) ("under-priced".toList.map Char.toNat, 7) :=
    (premises_iff (small_conforms 8)).mpr ⟨rfl, by decide⟩
  have hrun := (@connection_ok_iff _ _ _ _ (smallCrate 8) (smallOpts 8) _ _ _ 7 (smallBag 8) allAnswered ""
    (.ok ()) (.ok ()) (prompt_inTime _) (prompt_sent _)).mpr
    ⟨rfl, rfl, _, hp, by
      rw [Reads.seen_eq (answered_prompt _)]
      exact (passes_states_iff (small_conforms 8) hp.under).mpr (by decide)⟩
  exact bag_pass_shows (prompt_inTime _) (count_small 8) hrun

end FreenetHarness.RoundTrip.Bag
