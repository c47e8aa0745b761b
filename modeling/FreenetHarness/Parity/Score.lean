import FreenetHarness.Lib.Count
import FreenetHarness.Lib.Ranks
import FreenetHarness.Lib.Run
import FreenetHarness.Parity.Format

/-! # SCORE: what the groups and the reads together say

Seven tables over the blocks that were sent and the times they were fetched after. A table
is what it prints, before it is put into columns. Times are of any ordered type; a step
that subtracts below zero or looks past the end of a list is a panic. -/
namespace FreenetHarness.Parity
open FreenetHarness.Lib.Count FreenetHarness.Lib.Ranks FreenetHarness.Lib.Run
  FreenetHarness.Lib.Text

/-! ## Checked steps -/

/-- A difference of unsigned numbers. -/
def checkedSub (a b : Nat) : Except Fault Nat := if b ≤ a then .ok (a - b) else .error .panic

theorem checkedSub_of_le {a b : Nat} (h : b ≤ a) : checkedSub a b = .ok (a - b) := if_pos h

theorem checkedSub_of_lt {a b : Nat} (h : a < b) : checkedSub a b = .error .panic :=
  if_neg (Nat.not_le.mpr h)

def orFail {α : Type} : Except String α → Except Fault α
  | .ok x => .ok x
  | .error e => .error (.bail e)

theorem orFail_ne_panic {α : Type} (r : Except String α) : orFail r ≠ .error .panic := by
  intro h
  cases r <;> cases h

/-- `l[i]`. -/
def index {α : Type} (l : List α) (i : Nat) : Except Fault α :=
  match l[i]? with
  | some x => .ok x
  | none => .error .panic

theorem index_eq_ok {α : Type} {l : List α} {i : Nat} {v : α} :
    index l i = .ok v ↔ l[i]? = some v := by
  unfold index
  cases l[i]? <;> simp

/-- The number an `as i32` leaves. -/
def asI32 (n : Nat) : ℤ := if n % 2 ^ 32 < 2 ^ 31 then n % 2 ^ 32 else n % 2 ^ 32 - 2 ^ 32

/-- The coefficient after `i` steps of the loop in `binomial`. -/
def coefficient (n : Nat) : Nat → Except Fault ℚ
  | 0 => .ok 1
  | i + 1 => do
    let c ← coefficient n i
    let d ← checkedSub n i
    return c * d / (i + 1)

/-- C(n,k) p^k (1-p)^(n-k) — what independence WOULD have predicted. -/
def binomial (n k : Nat) (p : ℚ) : Except Fault ℚ := do
  let c ← coefficient n k
  let rest ← checkedSub n k
  return c * p ^ asI32 k * (1 - p) ^ asI32 rest

/-! ## Blocks and their reads -/

/-- What the read role wrote for a key: nothing where it was not asked for, no time where
it could not be fetched. -/
abbrev Reads (T : Type) := Str → Option (Option T)

section Reads
variable {T : Type} (reads : Reads T)

def asked (b : Block) : Bool := (reads b.key).isSome

def time (b : Block) : Option T := (reads b.key).join

def fetched (b : Block) : Bool := (time reads b).isSome

theorem asked_of_fetched {b : Block} (h : fetched reads b = true) : asked reads b = true := by
  unfold fetched time at h
  unfold asked
  cases hr : reads b.key with
  | none => rw [hr] at h; cases h
  | some t => rfl

variable [LinearOrder T]

def within (t : T) (b : Block) : Bool :=
  match time reads b with
  | some ms => decide (ms ≤ t)
  | none => false

/-- The value at a share `q` of the way through the times, in order. -/
def quantile (v : List T) (q : ℚ) : Except Fault (Option T) :=
  if v = [] then .ok none
  else do
    let last ← checkedSub v.length 1
    return some (← index (sorted v) ⌊(last : ℚ) * q + 1 / 2⌋₊)

end Reads

/-! ## Groups -/

/-- The blocks of one group id, in the order of the file. -/
structure Group where
  first : Block
  rest : List Block
  same : ∀ b ∈ rest, b.gid = first.gid

namespace Group

def gid (g : Group) : UInt64 := g.first.gid

def members (g : Group) : List Block := g.first :: g.rest

def m (g : Group) : Nat := g.first.m.toNat

def arm (g : Group) : Arm := g.first.arm

def add (g : Group) (b : Block) (h : b.gid = g.gid) : Group where
  first := g.first
  rest := g.rest ++ [b]
  same := by
    intro c hc
    rcases List.mem_append.mp hc with hc | hc
    · exact g.same c hc
    · rw [List.mem_singleton.mp hc]
      exact h

@[simp] theorem add_members (g : Group) (b : Block) (h : b.gid = g.gid) :
    (g.add b h).members = g.members ++ [b] := rfl

end Group

/-- A block goes to the group of its id. -/
def push (gs : List Group) (b : Block) : List Group :=
  match gs with
  | [] => [⟨b, [], fun _ h => absurd h List.not_mem_nil⟩]
  | g :: gs => if h : b.gid = g.gid then g.add b h :: gs else g :: push gs b

def byGroup (blocks : List Block) : List Group := blocks.foldl push []

/-- Every `m` of the file, ascending. -/
def msValues (blocks : List Block) : List Nat := sorted (blocks.map fun b => b.m.toNat).dedup

/-- The groups that are scored for one `m` and arm: their first blocks decide. -/
def scored (gs : List Group) (m : Nat) (arm : Arm) : List Group :=
  gs.filter fun g => g.m = m ∧ g.arm = arm

/-! ## The tables -/

/-- Table 1, over the blocks that were asked for. -/
structure PerBlock where
  asked : Nat
  within : List Nat
  never : Nat

/-- A row of table 2. -/
structure AckRow where
  name : String
  fetchable : Nat
  never : Nat
  n : Nat

/-- A row of table 3; no entry where there is less parity than that. -/
structure ReadableRow (T : Type) where
  within : T
  m : Nat
  groups : Nat
  readable : List (Option Nat)

/-- Table 4 for one `m`: for zero to three misses a group, and for more, how many groups
had so many and what independence predicts. -/
structure MissRow where
  m : Nat
  n : Nat
  groups : Nat
  p : ℚ
  rows : List (Nat × ℚ)

/-- A row of table 5. -/
structure TimeRow (T : Type) where
  m : Nat
  groups : Nat
  withP50 : Option T
  withP90 : Option T
  dataP50 : Option T
  dataP90 : Option T

/-- A row of table 6. -/
structure CostRow (T : Type) where
  m : Nat
  arm : Arm
  dataP50 : Option T
  dataP90 : Option T
  groups : Nat
  bytes : Nat

/-- Table 7. -/
structure Recovery (T : Type) where
  stuck : Nat
  back : Nat
  p50 : Option T
  p90 : Option T

structure Floor where
  m : Nat
  groups : Nat
  met : Bool

structure Report (T : Type) where
  perBlock : PerBlock
  acks : List AckRow
  readable : List (ReadableRow T)
  misses : List MissRow
  times : List (TimeRow T)
  cost : List (CostRow T)
  recovery : Option (Recovery T)
  floors : List Floor
  groupsWithAMiss : Nat
  withheld : Bool

section Tables
variable {T : Type} [LinearOrder T] (reads : Reads T)

def table1 (thresholds : List T) (blocks : List Block) : PerBlock :=
  let asked := blocks.filter (asked reads)
  { asked := asked.length
    within := thresholds.map fun t => asked.countP (within reads t)
    never := asked.length - asked.countP (fetched reads) }

def isWithin : Ack → Bool
  | .within _ => true
  | _ => false

def isLate : Ack → Bool
  | .late _ => true
  | _ => false

def rowsOf : List (String × (Ack → Bool)) :=
  [("within bound", isWithin), ("LATE", isLate), ("NEVER acked", fun a => a = .never)]

def table2 (blocks : List Block) : List AckRow :=
  rowsOf.map fun (name, f) =>
    let rows := (blocks.filter (asked reads)).filter fun b => f b.ack
    let ok := rows.countP (fetched reads)
    { name, fetchable := ok, never := rows.length - ok, n := rows.length }

/-- The members that count towards `m` with `p` parity blocks, all data and the first
parity. -/
def upToParity (m p : Nat) (g : Group) : List Block :=
  g.members.filter fun b => !b.parity || decide (b.idx.toNat < m + p)

def readable (m p : Nat) (t : T) (g : Group) : Bool :=
  m ≤ (upToParity m p g).countP (within reads t)

/-- How many parity blocks a group has. -/
def parityHave (gs : List Group) : Nat :=
  ((gs.map fun g => g.members.countP (·.parity)).max?).getD 0

def table3 (thresholds : List T) (ms : List Nat) (gs : List Group) : List (ReadableRow T) :=
  thresholds.flatMap fun t => ms.map fun m =>
    let gs := scored gs m .full
    { within := t, m, groups := gs.length
      readable := (List.range 4).map fun p =>
        if parityHave gs < p then none else some (gs.countP (readable reads m p t)) }

/-- The members of a group that table 4 takes for misses. -/
def misses (g : Group) : Nat := g.members.countP fun b => !fetched reads b

/-- The groups with `k` misses, or with four and more. -/
def measuredCount (gs : List Group) (k : Nat) : Nat :=
  gs.countP fun g => if k = 4 then 4 ≤ misses reads g else misses reads g = k

/-- What independence predicts for `k` misses, or for four and more. -/
def predicted (n : Nat) (p : ℚ) (k : Nat) : Except Fault ℚ :=
  if k = 4 then do
    let below ← (List.range 4).mapM fun j => binomial n j p
    return 1 - below.sum
  else binomial n k p

/-- The per-block miss rate of some groups. -/
def missRate (gs : List Group) : ℚ :=
  let total := (gs.map fun g => g.members.length).sum
  let miss := (gs.map (misses reads)).sum
  if total = 0 then 0 else miss / total

/-- The groups' real width, not an assumed m+3. -/
def width (m : Nat) (gs : List Group) : Nat := ((gs.map fun g => g.members.length).max?).getD m

def missRow (m : Nat) (gs : List Group) : Except Fault MissRow := do
  let n := width m gs
  let p := missRate reads gs
  let rows ← (List.range 5).mapM fun k => do
    let pred ← predicted n p k
    return (measuredCount reads gs k, pred)
  return { m, n, groups := gs.length, p, rows }

def table4 (ms : List Nat) (gs : List Group) : Except Fault (List MissRow) :=
  (ms.filter fun m => scored gs m .full ≠ []).mapM fun m => missRow reads m (scored gs m .full)

def MissRow.withAMiss (r : MissRow) : Nat := (r.rows.tail.map Prod.fst).sum

/-- The times of those that were fetched. -/
def times (bs : List Block) : List T := bs.filterMap (time reads)

/-- `v[m - 1]` of the times in order. -/
def ranked (v : List T) (m : Nat) : Except Fault T := do
  let i ← checkedSub m 1
  index (sorted v) i

/-- The `m`-th fastest of a whole group, where so many were fetched. -/
def fastest (m : Nat) (g : Group) : Except Fault (Option T) :=
  let all := times reads g.members
  if m ≤ all.length then (ranked all m).map some else .ok none

def dataOf (g : Group) : List Block := g.members.filter fun b => !b.parity

/-- The slowest of `m` data members, where exactly so many were fetched. -/
def slowest (m : Nat) (g : Group) : Except Fault (Option T) :=
  let data := times reads (dataOf g)
  if data.length = m then (ranked data m).map some else .ok none

def table5 (ms : List Nat) (gs : List Group) : Except Fault (List (TimeRow T)) :=
  ms.mapM fun m => do
    let gs := scored gs m .full
    let whole ← gs.mapM (fastest reads m)
    let data ← gs.mapM (slowest reads m)
    return {
      m
      groups := gs.length
      withP50 := ← quantile whole.reduceOption (1 / 2)
      withP90 := ← quantile whole.reduceOption (9 / 10)
      dataP50 := ← quantile data.reduceOption (1 / 2)
      dataP90 := ← quantile data.reduceOption (9 / 10) }

def bytesAsked (g : Group) : Nat := ((g.members.filter (asked reads)).map fun b => b.size.toNat).sum

def costRow (gs : List Group) (m : Nat) (arm : Arm) : Except Fault (CostRow T) := do
  let gs := scored gs m arm
  let last ← gs.mapM (slowest reads m)
  return {
    m
    arm
    dataP50 := ← quantile last.reduceOption (1 / 2)
    dataP90 := ← quantile last.reduceOption (9 / 10)
    groups := gs.length
    bytes := (gs.map (bytesAsked reads)).sum }

def table6 (ms : List Nat) (gs : List Group) : Except Fault (List (CostRow T)) :=
  (ms.flatMap fun m => [(m, Arm.full), (m, .control)]).mapM fun x => costRow reads gs x.1 x.2

def stuckAsked (blocks : List Block) : List Block :=
  (blocks.filter (asked reads)).filter fun b => !fetched reads b

def table7 (again : Reads T) (blocks : List Block) : Except Fault (Recovery T) := do
  let stuck := stuckAsked reads blocks
  let t := times again stuck
  return {
    stuck := stuck.length
    back := stuck.countP (fetched again)
    p50 := ← quantile t (1 / 2)
    p90 := ← quantile t (9 / 10) }

def floors (minGroups : Nat) (ms : List Nat) (gs : List Group) : List Floor :=
  ms.map fun m =>
    let n := (scored gs m .full).length
    { m, groups := n, met := minGroups ≤ n }

def score (reput : Option (Reads T)) (thresholds : List T) (minGroups : Nat)
    (blocks : List Block) : Except Fault (Report T) := do
  let gs := byGroup blocks
  let ms := msValues blocks
  let rows ← table4 reads ms gs
  let times ← table5 reads ms gs
  let cost ← table6 reads ms gs
  let recovery ← match reput with
    | some again => (table7 reads again blocks).map some
    | none => .ok none
  let fs := floors minGroups ms gs
  let groupsWithAMiss := (rows.map MissRow.withAMiss).sum
  return {
    perBlock := table1 reads thresholds blocks
    acks := table2 reads blocks
    readable := table3 reads thresholds ms gs
    misses := rows
    times
    cost
    recovery
    floors := fs
    groupsWithAMiss
    withheld := !fs.all (·.met) || groupsWithAMiss == 0 }

end Tables

/-! ## A group -/

/-- The `i`-th block of one group of `m` data blocks. -/
def memberOf (m i : Nat) : Block :=
  { seed := zeroSeed, gid := 0, m := .ofNat m, arm := .full, idx := .ofNat i, parity := m ≤ i
    key := 'k' :: Lib.Number.digits i, tSend := 0, ack := .never, size := 9 }

/-- The blocks of one group, `n` of them. -/
def groupOf (m n : Nat) : List Block := (List.range n).map (memberOf m)

end FreenetHarness.Parity
