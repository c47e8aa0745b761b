import FreenetHarness.Lib.Binary64
import FreenetHarness.Lib.Count
import FreenetHarness.Stats

/-! # Pairing a writer's sends with a reader's hits

`pair` joins every hit to the send of its key, or refuses it; `conditional` takes
from the joined rows one arm's trials that were still unacknowledged at the hedge
time. `pair_sorts` says that every hit has one place, `accounted_iff` when nothing of that
population is lost on the way. Both take the times as exact; `pair64` subtracts them as the
doubles that the role holds. -/
namespace FreenetHarness.XNode
open FreenetHarness.Lib.Text FreenetHarness.Lib.Number FreenetHarness.Lib.Count
  FreenetHarness.Lib.Binary64 FreenetHarness.Stats

inductive Arm where
  | control
  /-- Re-puts at T when no acknowledgement has arrived. -/
  | hedge
  deriving DecidableEq, Repr

def Arm.asStr : Arm → Str
  | .control => "control".toList
  | .hedge => "hedge".toList

/-- A file written before arms existed is all control. -/
def Arm.parse (s : Str) : Arm := if s = "hedge".toList then .hedge else .control

theorem Arm.parse_asStr (a : Arm) : Arm.parse a.asStr = a := by cases a <;> decide

theorem Arm.isWord_asStr (a : Arm) : IsWord a.asStr := by cases a <;> decide

/-- One writer line. -/
structure Send where
  key : Str
  sentNs : Nat
  /-- When the writer could first read it back, if it ever could. -/
  confirmMs : Option F64
  size : UInt64
  arm : Arm
  /-- Still unacknowledged at T; `none` when the run had no T. -/
  unackedAtT : Option Bool
  hedged : Bool
  ackMs : Option F64
  deriving DecidableEq

/-- One reader line. -/
structure Hit where
  key : Str
  size : UInt64
  atMs : F64
  deriving DecidableEq

/-- One sound pair. -/
structure Joined where
  size : UInt64
  /-- Milliseconds from the writer's send until the far node first served the block. -/
  farMs : F64
  arm : Arm
  unackedAtT : Option Bool
  hedged : Bool
  ackMs : Option F64
  deriving DecidableEq

structure Paired where
  deltas : List Joined := []
  /-- Hits whose delta came out negative. -/
  refusedNegative : Nat := 0
  /-- Hits naming a key the writer never reported sending. -/
  unmatched : Nat := 0
  deriving DecidableEq

/-- The time from a send to a hit, of exact times. -/
def delta (h : Hit) (s : Send) : F64 := h.atMs.sub (.fin (millis s.sentNs))

/-- Nanoseconds in milliseconds, as a double: `ns as f64 / 1e6`. -/
def millis64 (ns : Nat) : ℚ := near (near ns / 1000000)

/-- The time from a send to a hit, of doubles. -/
def delta64 (h : Hit) (s : Send) : F64 := h.atMs.sub64 (.fin (millis64 s.sentNs))

def joinAt (farMs : F64) (h : Hit) (s : Send) : Joined :=
  { size := h.size, farMs, arm := s.arm, unackedAtT := s.unackedAtT, hedged := s.hedged
    ackMs := s.ackMs }

def join (h : Hit) (s : Send) : Joined := joinAt (delta h s) h s

/-- The send a hit is paired with. -/
def sendOf (sends : List Send) (h : Hit) : Option Send := sends.find? fun s => s.key == h.key

section By

variable (delta : Hit → Send → F64) (sends : List Send)

def pairHitBy (out : Paired) (h : Hit) : Paired :=
  match sendOf sends h with
  | none => { out with unmatched := out.unmatched + 1 }
  | some s =>
    if (delta h s).lt (.fin 0) then { out with refusedNegative := out.refusedNegative + 1 }
    else { out with deltas := out.deltas ++ [joinAt (delta h s) h s] }

def pairBy (hits : List Hit) : Paired := hits.foldl (pairHitBy delta sends) {}

end By

def pair : List Send → List Hit → Paired := pairBy delta

/-- `pair` of times that are doubles. -/
def pair64 : List Send → List Hit → Paired := pairBy delta64

/-- One arm's conditioned population. -/
structure Conditioned where
  n : Nat := 0
  /-- Time until the far node served it, for the trials it served. -/
  far : List F64 := []
  ack : List F64 := []
  /-- Trials that never acknowledged at all. -/
  neverAcked : Nat := 0
  /-- Trials the far node never served within the run. -/
  neverFar : Nat := 0
  deriving DecidableEq

def conditionRow (out : Conditioned) (r : Joined) : Conditioned :=
  let out := { out with n := out.n + 1, far := out.far ++ [r.farMs] }
  match r.ackMs with
  | some a => { out with ack := out.ack ++ [a] }
  | none => { out with neverAcked := out.neverAcked + 1 }

/-- The condition: still unacknowledged when the mark was taken, in this arm. -/
def inArm (arm : Arm) (rowArm : Arm) (unackedAtT : Option Bool) : Bool :=
  rowArm == arm && unackedAtT == some true

def conditional (rows : List Joined) (arm : Arm) : Conditioned :=
  (rows.filter fun r => inArm arm r.arm r.unackedAtT).foldl conditionRow {}

/-! ## Where the hits go -/

section By

variable (delta : Hit → Send → F64) (sends : List Send)

def joinedBy (h : Hit) : Option Joined :=
  (sendOf sends h).bind fun s =>
    if (delta h s).lt (.fin 0) then none else some (joinAt (delta h s) h s)

def refusedBy (h : Hit) : Bool := (sendOf sends h).any fun s => (delta h s).lt (.fin 0)

theorem foldl_pairHitBy (hits : List Hit) (out : Paired) :
    hits.foldl (pairHitBy delta sends) out =
      { deltas := out.deltas ++ hits.filterMap (joinedBy delta sends)
        refusedNegative := out.refusedNegative + hits.countP (refusedBy delta sends)
        unmatched := out.unmatched + hits.countP fun h => (sendOf sends h).isNone } := by
  induction hits generalizing out with
  | nil => simp
  | cons h hits ih =>
    rw [List.foldl_cons, ih]
    unfold pairHitBy
    cases hs : sendOf sends h with
    | none => simp [joinedBy, refusedBy, hs]; omega
    | some s =>
      by_cases hd : (delta h s).lt (.fin 0) = true
      · simp [joinedBy, refusedBy, hs, hd]; omega
      · simp [joinedBy, refusedBy, hs, hd]

theorem pairBy_deltas (hits : List Hit) :
    (pairBy delta sends hits).deltas = hits.filterMap (joinedBy delta sends) := by
  simp [pairBy, foldl_pairHitBy]

theorem pairBy_refusedNegative (hits : List Hit) :
    (pairBy delta sends hits).refusedNegative = hits.countP (refusedBy delta sends) := by
  simp [pairBy, foldl_pairHitBy]

theorem pairBy_unmatched (hits : List Hit) :
    (pairBy delta sends hits).unmatched = hits.countP fun h => (sendOf sends h).isNone := by
  simp [pairBy, foldl_pairHitBy]

/-- Every hit has a row, is refused, or names no key that was sent. -/
theorem pairBy_total (hits : List Hit) :
    (pairBy delta sends hits).deltas.length + (pairBy delta sends hits).refusedNegative +
      (pairBy delta sends hits).unmatched = hits.length := by
  rw [pairBy_deltas, pairBy_refusedNegative, pairBy_unmatched]
  induction hits with
  | nil => rfl
  | cons h hits ih =>
    rw [List.length_cons, ← ih, List.countP_cons, List.countP_cons, List.filterMap_cons]
    unfold joinedBy refusedBy
    cases sendOf sends h with
    | none => simp; omega
    | some s =>
      by_cases hd : (delta h s).lt (.fin 0) = true
      · simp [hd]; omega
      · simp [hd]; omega

end By

/-- A hit joined to its send, where it is sound. -/
def joined (sends : List Send) (h : Hit) : Option Joined :=
  (sendOf sends h).bind fun s => if (delta h s).lt (.fin 0) then none else some (join h s)

/-- A hit refused because it precedes its send. -/
def refused (sends : List Send) (h : Hit) : Bool :=
  (sendOf sends h).any fun s => (delta h s).lt (.fin 0)

theorem pair_deltas (sends : List Send) (hits : List Hit) :
    (pair sends hits).deltas = hits.filterMap (joined sends) := pairBy_deltas delta sends hits

theorem pair_refusedNegative (sends : List Send) (hits : List Hit) :
    (pair sends hits).refusedNegative = hits.countP (refused sends) :=
  pairBy_refusedNegative delta sends hits

theorem pair_unmatched (sends : List Send) (hits : List Hit) :
    (pair sends hits).unmatched = hits.countP fun h => (sendOf sends h).isNone :=
  pairBy_unmatched delta sends hits

theorem pair_total (sends : List Send) (hits : List Hit) :
    (pair sends hits).deltas.length + (pair sends hits).refusedNegative +
      (pair sends hits).unmatched = hits.length := pairBy_total delta sends hits

theorem foldl_conditionRow (rows : List Joined) (out : Conditioned) :
    (rows.foldl conditionRow out).n = out.n + rows.length ∧
      (rows.foldl conditionRow out).neverFar = out.neverFar := by
  induction rows generalizing out with
  | nil => simp
  | cons r rows ih =>
    obtain ⟨hn, hf⟩ := ih (conditionRow out r)
    have hone : (conditionRow out r).n = out.n + 1 ∧
        (conditionRow out r).neverFar = out.neverFar := by
      unfold conditionRow
      cases r.ackMs <;> simp
    rw [List.foldl_cons, hn, hf, hone.1, hone.2, List.length_cons]
    omega

theorem conditional_n (rows : List Joined) (arm : Arm) :
    (conditional rows arm).n = rows.countP fun r => inArm arm r.arm r.unackedAtT := by
  simp [conditional, foldl_conditionRow, List.countP_eq_length_filter]

/-- No row adds to the trials the far node never served: there is no row for one. -/
theorem conditional_neverFar (rows : List Joined) (arm : Arm) :
    (conditional rows arm).neverFar = 0 := by
  simp [conditional, foldl_conditionRow]

/-! ## The conditioned population -/

/-- The writer's trials of one arm that were unacknowledged at T. -/
def conditionedSends (sends : List Send) (arm : Arm) : List Send :=
  sends.filter fun s => inArm arm s.arm s.unackedAtT

/-- How many hits name a key. -/
def hitsOf (hits : List Hit) (key : Str) : Nat := hits.countP fun h => key == h.key

/-- A hit is of a conditioned trial. -/
def ofArm (sends : List Send) (arm : Arm) (h : Hit) : Bool :=
  (sendOf sends h).any fun s => inArm arm s.arm s.unackedAtT

/-- The refused hits of one arm's conditioned trials. -/
def refusedOf (sends : List Send) (hits : List Hit) (arm : Arm) : Nat :=
  hits.countP fun h => refused sends h && ofArm sends arm h

/-- The table accounts for every conditioned trial of the arm. -/
structure Accounted (sends : List Send) (hits : List Hit) (arm : Arm) : Prop where
  neverFar : (conditional (pair sends hits).deltas arm).neverFar =
    (conditionedSends sends arm).countP fun s => hitsOf hits s.key == 0
  total : (conditional (pair sends hits).deltas arm).n +
    (conditional (pair sends hits).deltas arm).neverFar + refusedOf sends hits arm =
      (conditionedSends sends arm).length

/-- A hit of a conditioned trial is in the table or refused, and never both. -/
theorem joined_or_refused (sends : List Send) (arm : Arm) (h : Hit) :
    ((joined sends h).toList.countP fun r => inArm arm r.arm r.unackedAtT) +
        (if refused sends h && ofArm sends arm h then 1 else 0) =
      if ofArm sends arm h then 1 else 0 := by
  unfold joined refused ofArm
  cases sendOf sends h with
  | none => rfl
  | some s =>
    by_cases hd : (delta h s).lt (.fin 0) = true
    · simp [hd]
    · simp [hd, join, joinAt, List.countP_singleton]

theorem n_add_refusedOf (sends : List Send) (hits : List Hit) (arm : Arm) :
    (conditional (pair sends hits).deltas arm).n + refusedOf sends hits arm =
      hits.countP (ofArm sends arm) := by
  rw [conditional_n, pair_deltas, refusedOf]
  induction hits with
  | nil => rfl
  | cons h hits ih =>
    have hh := joined_or_refused sends arm h
    simp only [List.countP_cons]
    cases hj : joined sends h with
    | none =>
      rw [hj] at hh
      simp only [Option.toList_none, List.countP_nil] at hh
      rw [List.filterMap_cons_none hj]
      omega
    | some r =>
      rw [hj, Option.toList_some, List.countP_singleton] at hh
      rw [List.filterMap_cons_some hj, List.countP_cons]
      omega

theorem ofArm_cons (s : Send) (sends : List Send) (arm : Arm) (h : Hit) :
    ofArm (s :: sends) arm h =
      if s.key = h.key then inArm arm s.arm s.unackedAtT else ofArm sends arm h := by
  unfold ofArm sendOf
  by_cases hk : s.key = h.key
  · simp [hk]
  · simp [hk]

/-- With distinct keys, a hit is of one conditioned trial or of none. -/
theorem countP_key {sends : List Send} (hd : (sends.map Send.key).Nodup) (arm : Arm) (h : Hit) :
    ((conditionedSends sends arm).countP fun s => s.key == h.key) =
      if ofArm sends arm h then 1 else 0 := by
  induction sends with
  | nil => rfl
  | cons s sends ih =>
    rw [List.map_cons, List.nodup_cons] at hd
    have ih := ih hd.2
    rw [ofArm_cons]
    by_cases hk : s.key = h.key
    · have hzero : (conditionedSends sends arm).countP (fun s => s.key == h.key) = 0 := by
        rw [List.countP_eq_zero]
        intro x hx he
        have hxk : x.key = s.key := by rw [hk]; simpa using he
        exact hd.1 (hxk ▸ List.mem_map_of_mem (List.mem_filter.mp hx).1)
      unfold conditionedSends at hzero ⊢
      cases ha : inArm arm s.arm s.unackedAtT <;> simp [ha, hk, hzero]
    · rw [if_neg hk, ← ih]
      unfold conditionedSends
      cases ha : inArm arm s.arm s.unackedAtT <;> simp [ha, hk]

/-- **When no conditioned trial is lost.** With distinct keys, the table of an arm
accounts for its whole conditioned population exactly when every trial in it is named
by exactly one hit. -/
theorem accounted_iff {sends : List Send} (hd : (sends.map Send.key).Nodup) (hits : List Hit)
    (arm : Arm) :
    Accounted sends hits arm ↔ ∀ s ∈ conditionedSends sends arm, hitsOf hits s.key = 1 := by
  have hsum : hits.countP (ofArm sends arm) =
      ((conditionedSends sends arm).map fun s => hitsOf hits s.key).sum := by
    unfold hitsOf
    rw [sum_countP_comm _ hits fun (s : Send) (h : Hit) => s.key == h.key,
      List.map_congr_left fun h _ => countP_key hd arm h]
    clear hd
    induction hits with
    | nil => rfl
    | cons h hits ih => simp only [List.countP_cons, List.map_cons, List.sum_cons, ih]; omega
  have htotal := n_add_refusedOf sends hits arm
  rw [← all_one_iff]
  constructor
  · rintro ⟨hf, ht⟩
    rw [conditional_neverFar] at hf ht
    exact ⟨hf.symm, by omega⟩
  · rintro ⟨hz, hs⟩
    refine ⟨by rw [conditional_neverFar]; exact hz.symm, ?_⟩
    rw [conditional_neverFar]
    omega

/-- A hedged trial, unacknowledged at T and never acknowledged. -/
def sentA : Send :=
  { key := "A".toList, sentNs := 1000000, confirmMs := none, size := 1024, arm := .hedge
    unackedAtT := some true, hedged := true, ackMs := none }

/-- The far node serves it after 5 ms: the table accounts for the one trial. -/
theorem accounted_served :
    Accounted [sentA] [{ key := "A".toList, size := 1024, atMs := .fin 6 }] .hedge :=
  (accounted_iff (by decide) _ .hedge).mpr (by decide)

/-- The far node never serves it: the table knows of no such trial. -/
theorem never_far_not_counted :
    (conditionedSends [sentA] .hedge).length = 1 ∧
      (conditional (pair [sentA] []).deltas .hedge).n = 0 ∧
      (conditional (pair [sentA] []).deltas .hedge).neverFar = 0 ∧
      refusedOf [sentA] [] .hedge = 0 ∧ ¬ Accounted [sentA] [] .hedge := by
  refine ⟨by decide, rfl, rfl, rfl, fun h => ?_⟩
  exact absurd h.neverFar (by decide)

/-! ## A partition of the hits -/

/-- With distinct keys, the send of a hit is the one with its key. -/
theorem sendOf_eq_some_iff {sends : List Send} (hd : (sends.map Send.key).Nodup) {h : Hit}
    {s : Send} : sendOf sends h = some s ↔ s ∈ sends ∧ s.key = h.key := by
  constructor
  · intro hs
    exact ⟨List.mem_of_find?_eq_some hs, by simpa using List.find?_some hs⟩
  · rintro ⟨hs, hk⟩
    cases hf : sendOf sends h with
    | none => exact absurd hk (by simpa using List.find?_eq_none.mp hf s hs)
    | some t =>
      have ht : t.key = h.key := by simpa using List.find?_some hf
      rw [List.inj_on_of_nodup_map hd (List.mem_of_find?_eq_some hf) hs (ht.trans hk.symm)]

theorem sendOf_perm {sends sends' : List Send} (hp : sends'.Perm sends)
    (hd : (sends.map Send.key).Nodup) (h : Hit) : sendOf sends' h = sendOf sends h := by
  have hd' : (sends'.map Send.key).Nodup := (hp.map Send.key).nodup_iff.mpr hd
  ext s
  rw [sendOf_eq_some_iff hd', sendOf_eq_some_iff hd, hp.mem_iff]

/-- A hit has one place in what pairing gives. -/
theorem one_place (sends : List Send) (h : Hit) :
    (joined sends h).isSome.toNat + (refused sends h).toNat + (sendOf sends h).isNone.toNat = 1 := by
  unfold joined refused
  cases sendOf sends h with
  | none => rfl
  | some s =>
    by_cases hd : (delta h s).lt (.fin 0) = true
    · simp [hd]
    · simp [hd]

/-- A row is the join of a hit with the send of its key, and its time is not negative. -/
theorem of_mem_deltas {sends : List Send} {hits : List Hit} {r : Joined}
    (hx : ∀ h ∈ hits, ∃ t, h.atMs = .fin t) (hr : r ∈ (pair sends hits).deltas) :
    ∃ h ∈ hits, ∃ s ∈ sends, s.key = h.key ∧ r = join h s ∧ ∃ q, 0 ≤ q ∧ r.farMs = .fin q := by
  rw [pair_deltas] at hr
  obtain ⟨h, hh, hj⟩ := List.mem_filterMap.mp hr
  obtain ⟨s, hs, hj⟩ := Option.bind_eq_some_iff.mp hj
  obtain ⟨t, ht⟩ := hx h hh
  split at hj
  · cases hj
  · rename_i hneg
    cases hj
    have hd : delta h s = .fin (t - millis s.sentNs) := by rw [delta, ht, F64.sub_fin]
    rw [hd, F64.lt_fin, decide_eq_true_eq, not_lt] at hneg
    exact ⟨h, hh, s, List.mem_of_find?_eq_some hs, by simpa using List.find?_some hs, rfl, _,
      hneg, hd⟩

/-- **A partition.** Every hit is a row, refused or unmatched, and never two of them; a row
is of a send with the hit's key and never negative; the order of the sends leaves no trace
where their keys are distinct, and the order of the hits only that of the rows. -/
theorem pair_sorts {sends : List Send} {hits : List Hit}
    (hx : ∀ h ∈ hits, ∃ t, h.atMs = .fin t) :
    ((pair sends hits).deltas = hits.filterMap (joined sends) ∧
      (pair sends hits).refusedNegative = hits.countP (refused sends) ∧
      (pair sends hits).unmatched = (hits.countP fun h => (sendOf sends h).isNone) ∧
      ∀ h, (joined sends h).isSome.toNat + (refused sends h).toNat +
        (sendOf sends h).isNone.toNat = 1) ∧
    (pair sends hits).deltas.length + (pair sends hits).refusedNegative +
      (pair sends hits).unmatched = hits.length ∧
    (∀ r ∈ (pair sends hits).deltas, ∃ h ∈ hits, ∃ s ∈ sends,
      s.key = h.key ∧ r = join h s ∧ ∃ q, 0 ≤ q ∧ r.farMs = .fin q) ∧
    ((sends.map Send.key).Nodup → ∀ sends', sends'.Perm sends →
      pair sends' hits = pair sends hits) ∧
    ∀ hits', hits'.Perm hits → (pair sends hits').deltas.Perm (pair sends hits).deltas ∧
      (pair sends hits').refusedNegative = (pair sends hits).refusedNegative ∧
      (pair sends hits').unmatched = (pair sends hits).unmatched := by
  refine ⟨⟨pair_deltas sends hits, pair_refusedNegative sends hits, pair_unmatched sends hits,
    one_place sends⟩, pair_total sends hits, fun r hr => of_mem_deltas hx hr, ?_, ?_⟩
  · intro hd sends' hp
    have hstep : pairHitBy delta sends' = pairHitBy delta sends := by
      funext out h
      unfold pairHitBy
      rw [sendOf_perm hp hd]
    rw [pair, pairBy, pairBy, hstep]
  · intro hits' hp
    rw [pair_deltas, pair_deltas, pair_refusedNegative, pair_refusedNegative, pair_unmatched,
      pair_unmatched]
    exact ⟨hp.filterMap _, hp.countP_eq _, hp.countP_eq _⟩

/-- Key A read before it was sent and after, and a key that was not sent. -/
def threeHits : List Hit :=
  [{ key := "A".toList, size := 1024, atMs := .fin 0 },
    { key := "A".toList, size := 1024, atMs := .fin 6 },
    { key := "B".toList, size := 1024, atMs := .fin 6 }]

theorem pair_sorts_three :
    (pair [sentA] threeHits).deltas.length + (pair [sentA] threeHits).refusedNegative +
        (pair [sentA] threeHits).unmatched = threeHits.length ∧
      ∀ hits', hits'.Perm threeHits →
        (pair [sentA] hits').deltas.Perm (pair [sentA] threeHits).deltas := by
  have h := @pair_sorts [sentA] threeHits (by simp [threeHits])
  exact ⟨h.2.1, fun hits' hp => (h.2.2.2.2 hits' hp).1⟩

end FreenetHarness.XNode
