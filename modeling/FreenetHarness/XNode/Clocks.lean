import FreenetHarness.XNode.ReadPair

/-! # Two clocks

The writer's clock times a send and its acknowledgement, the reader's clock the hit on the
far node. `proxy` decides which came first only outside a margin for their disagreement;
`pair` compares the two clocks with no margin, and as doubles. -/
namespace FreenetHarness.XNode
open FreenetHarness.Lib.Text FreenetHarness.Lib.Number FreenetHarness.Lib.Binary64
  FreenetHarness.Stats

/-! ## The acknowledgement against the far node -/

structure Proxy where
  /-- Pairs where both an acknowledgement and a far read exist. -/
  both : Nat := 0
  farFirst : Nat := 0
  ackFirst : Nat := 0
  /-- Those whose order the clock bound cannot settle. -/
  withinMargin : Nat := 0
  gaps : List F64 := []
  /-- Readable on the far node, never acknowledged. -/
  farWithoutAck : Nat := 0
  deriving DecidableEq

def proxyRow (marginMs : F64) (out : Proxy) (r : Joined) : Proxy :=
  match r.ackMs with
  | none => { out with farWithoutAck := out.farWithoutAck + 1 }
  | some a =>
    let out := { out with both := out.both + 1 }
    let out :=
      if (r.farMs.add marginMs).lt a then { out with farFirst := out.farFirst + 1 }
      else if (a.add marginMs).lt r.farMs then { out with ackFirst := out.ackFirst + 1 }
      else { out with withinMargin := out.withinMargin + 1 }
    { out with gaps := out.gaps ++ [a.sub r.farMs] }

def proxy (rows : List Joined) (marginMs : F64) : Proxy := rows.foldl (proxyRow marginMs) {}

/-- What the pair role reports of its pairs: the acknowledgement against the far node only
where the run had a hedge time. -/
def report (put read : Str) (marginMs : F64) : Paired × Option Proxy :=
  let p := pairFiles64 put read
  (p, if p.deltas.any fun r => r.unackedAtT.isSome then some (proxy p.deltas marginMs) else none)

/-! ### Where a row is counted -/

inductive Order where
  | farFirst
  | ackFirst
  | withinMargin
  deriving DecidableEq

/-- The order a row is assigned to, if it has an acknowledgement. -/
def order (marginMs : F64) (r : Joined) : Option Order :=
  r.ackMs.map fun a =>
    if (r.farMs.add marginMs).lt a then .farFirst
    else if (a.add marginMs).lt r.farMs then .ackFirst
    else .withinMargin

/-- How many rows are assigned to an order. -/
def assigned (marginMs : F64) (rows : List Joined) (o : Order) : Nat :=
  rows.countP fun r => order marginMs r == some o

theorem foldl_proxyRow (marginMs : F64) (rows : List Joined) (out : Proxy) :
    rows.foldl (proxyRow marginMs) out =
      { both := out.both + rows.countP fun r => r.ackMs.isSome
        farFirst := out.farFirst + assigned marginMs rows .farFirst
        ackFirst := out.ackFirst + assigned marginMs rows .ackFirst
        withinMargin := out.withinMargin + assigned marginMs rows .withinMargin
        gaps := out.gaps ++ rows.filterMap fun r => r.ackMs.map fun a => a.sub r.farMs
        farWithoutAck := out.farWithoutAck + rows.countP fun r => r.ackMs.isNone } := by
  induction rows generalizing out with
  | nil => simp [assigned]
  | cons r rows ih =>
    rw [List.foldl_cons, ih]
    unfold proxyRow assigned
    cases ha : r.ackMs with
    | none => simp [order, ha]; omega
    | some a =>
      by_cases hf : (r.farMs.add marginMs).lt a = true
      · simp [order, ha, hf]; omega
      · by_cases hk : (a.add marginMs).lt r.farMs = true
        · simp [order, ha, hf, hk]; omega
        · simp [order, ha, hf, hk]; omega

/-- Every row counts for its order. -/
theorem proxy_eq (rows : List Joined) (marginMs : F64) :
    proxy rows marginMs =
      { both := rows.countP fun r => r.ackMs.isSome
        farFirst := assigned marginMs rows .farFirst
        ackFirst := assigned marginMs rows .ackFirst
        withinMargin := assigned marginMs rows .withinMargin
        gaps := rows.filterMap fun r => r.ackMs.map fun a => a.sub r.farMs
        farWithoutAck := rows.countP fun r => r.ackMs.isNone } := by
  simp [proxy, foldl_proxyRow]

theorem sum_assigned (marginMs : F64) (rows : List Joined) :
    assigned marginMs rows .farFirst + assigned marginMs rows .ackFirst +
      assigned marginMs rows .withinMargin = rows.countP fun r => r.ackMs.isSome := by
  unfold assigned
  induction rows with
  | nil => rfl
  | cons r rows ih =>
    have hone : (order marginMs r).isSome = r.ackMs.isSome := by simp [order]
    simp only [List.countP_cons, ← hone]
    cases order marginMs r with
    | none => simpa using ih
    | some o => cases o <;> simp <;> omega

/-! ### What the margin is for -/

/-- One trial as it went, in milliseconds: its send and its acknowledgement on the writer's
clock, and the far node's serve on the same clock, from which the reader's is off. -/
structure Timeline where
  sent : ℚ
  served : ℚ
  acked : Option ℚ
  offset : ℚ

/-- A row as the two clocks time a trial. -/
structure Timed (x : Timeline) (r : Joined) : Prop where
  far : r.farMs = .fin (x.served + x.offset - x.sent)
  ack : r.ackMs = x.acked.map fun a => .fin (a - x.sent)

/-- An order a row is assigned to is the order it went in. -/
structure Truly (marginMs : ℚ) (x : Timeline) (r : Joined) : Prop where
  farFirst : order (.fin marginMs) r = some .farFirst → ∃ a, x.acked = some a ∧ x.served < a
  ackFirst : order (.fin marginMs) r = some .ackFirst → ∃ a, x.acked = some a ∧ a < x.served

theorem Timed.order_eq {marginMs : ℚ} {x : Timeline} {r : Joined} (h : Timed x r) :
    order (.fin marginMs) r = x.acked.map fun a =>
      if x.served + x.offset - x.sent + marginMs < a - x.sent then .farFirst
      else if a - x.sent + marginMs < x.served + x.offset - x.sent then .ackFirst
      else .withinMargin := by
  rw [order, h.ack, h.far]
  cases x.acked with
  | none => rfl
  | some a => simp

/-- No disagreement of the clocks within the margin reverses an order. -/
theorem Timed.truly {marginMs : ℚ} {x : Timeline} {r : Joined} (h : Timed x r)
    (ho : |x.offset| ≤ marginMs) : Truly marginMs x r := by
  obtain ⟨hlo, hhi⟩ := abs_le.mp ho
  constructor
  all_goals
    intro horder
    rw [h.order_eq] at horder
    obtain ⟨a, ha, horder⟩ := Option.map_eq_some_iff.mp horder
    refine ⟨a, ha, ?_⟩
    split at horder
  · linarith
  · split at horder <;> cases horder
  · cases horder
  · split at horder
    · linarith
    · cases horder

/-- What a larger margin does to a row: it may take it from a side. -/
def Raised (o o' : Option Order) : Prop :=
  o' = o ∨ (o = some .farFirst ∨ o = some .ackFirst) ∧ o' = some .withinMargin

theorem order_raised {marginMs marginMs' : ℚ} (hm : 0 ≤ marginMs) (hle : marginMs ≤ marginMs')
    (r : Joined) : Raised (order (.fin marginMs) r) (order (.fin marginMs') r) := by
  unfold order Raised
  cases r.ackMs with
  | none => exact .inl rfl
  | some a =>
    simp only [Option.map_some]
    by_cases hf' : (r.farMs.add (.fin marginMs')).lt a = true
    · left
      rw [if_pos hf', if_pos (F64.add_lt_of_le hle hf')]
    · rw [if_neg hf']
      by_cases hk' : (a.add (.fin marginMs')).lt r.farMs = true
      · left
        have hk := F64.add_lt_of_le hle hk'
        have hf := F64.not_lt_of_add_lt hm hk
        rw [if_pos hk', if_neg (by simp [hf]), if_pos hk]
      · rw [if_neg hk']
        split
        · exact .inr ⟨.inl rfl, rfl⟩
        · split
          · exact .inr ⟨.inr rfl, rfl⟩
          · exact .inl rfl

/-- The counts are of the rows' orders, and leave no row out. -/
structure Tally (marginMs : F64) (rows : List Joined) (p : Proxy) : Prop where
  farFirst : p.farFirst = assigned marginMs rows .farFirst
  ackFirst : p.ackFirst = assigned marginMs rows .ackFirst
  withinMargin : p.withinMargin = assigned marginMs rows .withinMargin
  both : p.farFirst + p.ackFirst + p.withinMargin = p.both
  rows : p.both + p.farWithoutAck = rows.length

theorem tally_proxy (marginMs : F64) (rows : List Joined) :
    Tally marginMs rows (proxy rows marginMs) := by
  rw [proxy_eq]
  refine ⟨rfl, rfl, rfl, sum_assigned marginMs rows, ?_⟩
  have hnone : (fun r : Joined => r.ackMs.isNone) = fun r => decide ¬r.ackMs.isSome = true := by
    funext r
    cases r.ackMs <;> simp
  dsimp only
  rw [List.length_eq_countP_add_countP (fun r : Joined => r.ackMs.isSome), hnone]

/-- **What the clock margin settles.** A row timed by two clocks that disagree by no more than
the margin is in no order it did not go in; every row is counted once; an acknowledgement
that never came needs no margin; and a larger margin only takes rows from a side. -/
theorem proxy_sound (rows : List Joined) {marginMs : ℚ} (hm : 0 ≤ marginMs) :
    (∀ runs, List.Forall₂ Timed runs rows → (∀ x ∈ runs, |x.offset| ≤ marginMs) →
      List.Forall₂ (Truly marginMs) runs rows) ∧
    Tally (.fin marginMs) rows (proxy rows (.fin marginMs)) ∧
    (∀ marginMs' : F64,
      (proxy rows marginMs').farWithoutAck = (proxy rows (.fin marginMs)).farWithoutAck) ∧
    ∀ marginMs', marginMs ≤ marginMs' →
      ∀ r ∈ rows, Raised (order (.fin marginMs) r) (order (.fin marginMs') r) := by
  refine ⟨fun runs ht ho => ?_, tally_proxy _ rows, fun _ => ?_, fun _ hle r _ =>
    order_raised hm hle r⟩
  · induction ht with
    | nil => exact .nil
    | cons h _ ih =>
      exact .cons (h.truly (ho _ (by simp))) (ih fun x hx => ho x (List.mem_cons_of_mem _ hx))
  · rw [proxy_eq, proxy_eq]

/-- A far read 40 ms before the acknowledgement, by clocks that disagree by 300 ms. -/
def close : Joined :=
  { size := 1024, farMs := .fin 100, arm := .control, unackedAtT := some true, hedged := false
    ackMs := some (.fin 140) }

/-- The acknowledgement came first, and the row is left undecided. -/
theorem close_undecided :
    (proxy [close] (.fin 300)).farFirst = 0 ∧ (proxy [close] (.fin 0)).farFirst = 1 ∧
      List.Forall₂ (Truly 300) [⟨0, 200, some 140, -100⟩] [close] := by
  refine ⟨by decide +kernel, by decide +kernel, (proxy_sound [close] (by norm_num)).1 _ ?_ ?_⟩
  · exact .cons ⟨by norm_num [close], by norm_num [close]⟩ .nil
  · intro x hx
    obtain rfl := List.mem_singleton.mp hx
    norm_num

/-! ## The hit against its send -/

/-- A hit as it went, and as its `READ` line has it. -/
structure Reading where
  key : Str
  size : UInt64
  /-- The reader's clock at the hit, in nanoseconds. -/
  hitAt : Nat
  isU128 : hitAt < 2 ^ 128
  /-- How far it is ahead of the writer's. -/
  offset : ℤ

/-- The line carries the clock to the nearest tenth of a millisecond. -/
def Reading.printedMs (x : Reading) : ℚ := tenths (millis64 x.hitAt) / 10

def Reading.hit (x : Reading) : Hit := { key := x.key, size := x.size, atMs := .fin x.printedMs }

/-- How long after its send the hit was, on one clock. -/
def Reading.delay (x : Reading) (s : Send) : ℤ := x.hitAt - x.offset - s.sentNs

/-- The two files are of one run, whose clocks disagree by no more than the margin. -/
structure TrueRun (put read : Str) (marginMs : ℚ) (xs : List Reading) : Prop where
  hits : hitsIn read = xs.map Reading.hit
  delay : ∀ x ∈ xs, ∀ s, sendOf (sendsOf put) x.hit = some s → 0 ≤ x.delay s
  margin : ∀ x ∈ xs, |(x.offset : ℚ)| / 1000000 ≤ marginMs

/-- No hit is refused: each one of a known key has a row in the table. -/
structure NoneRefused (hits : List Hit) (p : Paired) : Prop where
  refusedNegative : p.refusedNegative = 0
  rows : p.deltas.length + p.unmatched = hits.length

/-- How far the printed time, read as a double, is behind the writer's clock at the hit. -/
def Reading.behind (x : Reading) : ℚ := (x.hitAt - x.offset) / 1000000 - near x.printedMs

/-- How far the double of a send is ahead of it. -/
def Send.gain (s : Send) : ℚ := millis64 s.sentNs - millis s.sentNs

/-- Up to the year 2043 a time in milliseconds is a double to less than half a microsecond. -/
theorem millis64_near {ns : Nat} (h : ns < 2 ^ 61) : |millis64 ns - millis ns| ≤ 2 / 5000 := by
  have hnn : (0 : ℚ) ≤ ns := ns.cast_nonneg
  have hns : (ns : ℚ) < 2 ^ (61 : ℤ) := by exact_mod_cast h
  have hwhole : |near ns - ns| ≤ 2 ^ (8 : ℤ) / 2 :=
    near_close (by decide) (by rwa [abs_of_nonneg hnn])
  norm_num only at hns hwhole
  obtain ⟨hlo, hhi⟩ := abs_le.mp hwhole
  have hms : |near (near ns / 1000000) - near ns / 1000000| ≤ 2 ^ (-11 : ℤ) / 2 := by
    refine near_close (by decide) ?_
    rw [abs_lt]
    norm_num only
    constructor <;> linarith
  norm_num only at hms
  obtain ⟨hlo', hhi'⟩ := abs_le.mp hms
  rw [millis64, millis, abs_le]
  constructor <;> linarith

theorem abs_millis64_lt {ns : Nat} (h : ns < 2 ^ 128) : |millis64 ns| < 2 ^ (130 : ℤ) := by
  have hns : |(ns : ℚ)| < 2 ^ (128 : ℤ) := by
    rw [abs_of_nonneg ns.cast_nonneg]
    exact_mod_cast h
  have hle : |near ns / 1000000| ≤ |near ns| := by
    rw [abs_div]
    exact div_le_self (abs_nonneg _) (by norm_num)
  exact abs_near_lt (by decide) (hle.trans_lt (abs_near_lt (by decide) hns))

/-- The printed time is the clock to half a tenth of a millisecond. -/
theorem Reading.printedMs_near (x : Reading) :
    x.printedMs - 1 / 20 ≤ |millis64 x.hitAt| ∧ |millis64 x.hitAt| ≤ x.printedMs + 1 / 20 := by
  obtain ⟨hlo, hhi⟩ := roundHalfEven_near
    (mul_nonneg (abs_nonneg (millis64 x.hitAt)) (by norm_num : (0 : ℚ) ≤ 10))
  rw [Reading.printedMs, tenths]
  constructor <;> linarith

theorem Reading.printedMs_nonneg (x : Reading) : 0 ≤ x.printedMs :=
  div_nonneg (Nat.cast_nonneg _) (by norm_num)

theorem Reading.held_hit (x : Reading) : x.hit.held.atMs = .fin (near x.printedMs) := by
  refine F64.round_fin ?_
  obtain ⟨hnear, -⟩ := x.printedMs_near
  have hlt := abs_millis64_lt x.isU128
  have hle : (2 : ℚ) ^ (130 : ℤ) + 1 ≤ 2 ^ (131 : ℤ) := by norm_num
  have hbig : (2 : ℚ) ^ (131 : ℤ) ≤ 2 ^ (1023 : ℤ) := zpow_le_zpow_right₀ one_le_two (by decide)
  have hprinted : x.printedMs < 2 ^ (130 : ℤ) + 1 := by linarith only [hnear, hlt]
  rw [abs_of_nonneg x.printedMs_nonneg]
  exact hprinted.trans_le (hle.trans hbig)

/-- Up to 2043 the printed time is behind by what the clocks disagree by, to half a tenth of a
millisecond and what the doubles leave of it. -/
theorem Reading.behind_near {x : Reading} (h : x.hitAt < 2 ^ 61) :
    |x.behind + x.offset / 1000000| ≤ 51 / 1000 := by
  have hnn : (0 : ℚ) ≤ x.hitAt := Nat.cast_nonneg _
  have hms := millis64_near h
  obtain ⟨hlo', hhi'⟩ := x.printedMs_near
  have habs := abs_le.mp ((abs_abs_sub_abs_le _ _).trans hms)
  rw [abs_of_nonneg (millis_nonneg _)] at habs
  obtain ⟨hlo, hhi⟩ := habs
  have hsmall : millis x.hitAt < 2 ^ (61 : ℤ) / 1000000 := by
    have : (x.hitAt : ℚ) < 2 ^ (61 : ℤ) := by exact_mod_cast h
    unfold millis
    linarith
  have hread : |near x.printedMs - x.printedMs| ≤ 2 ^ (-11 : ℤ) / 2 := by
    refine near_close (by decide) ?_
    rw [abs_of_nonneg x.printedMs_nonneg]
    norm_num only at hsmall ⊢
    linarith
  norm_num only at hread
  obtain ⟨hlo'', hhi''⟩ := abs_le.mp hread
  rw [Reading.behind, abs_le]
  unfold millis at hlo hhi
  constructor <;> linarith

theorem Send.gain_near {s : Send} (h : s.sentNs < 2 ^ 61) : |s.gain| ≤ 2 / 5000 :=
  millis64_near h

theorem sendOf_held (sends : List Send) (h : Hit) :
    sendOf (sends.map Send.held) h.held = (sendOf sends h).map Send.held := by
  rw [sendOf, List.find?_map]
  rfl

theorem not_refused_reading {sends : List Send} {x : Reading} :
    ¬ refusedBy delta64 (sends.map Send.held) x.hit.held = true ↔
      ∀ s, sendOf sends x.hit = some s → x.behind + s.gain ≤ x.delay s / 1000000 := by
  rw [refusedBy, sendOf_held]
  cases sendOf sends x.hit with
  | none => simp
  | some s =>
    have hat : x.hit.held.atMs.Held := F64.held_round x.hit.atMs
    have hsign : (delta64 x.hit.held s.held).lt (.fin 0) =
        x.hit.held.atMs.lt (.fin (millis64 s.sentNs)) :=
      F64.sub64_lt_zero hat (onGrid_near _)
    rw [Option.map_some, Option.any_some, hsign, x.held_hit, F64.lt_fin]
    simp only [Option.some.injEq, forall_eq', decide_eq_true_eq, not_lt]
    unfold Reading.behind Send.gain Reading.delay millis
    push_cast
    constructor <;> intro h <;> linarith

/-- **When no hit of a true run is refused.** Exactly when at every hit the reader's clock, as
printed, is behind by no more than the hit was after its send, less what its send gains in a
double. The margin has no part in it. -/
theorem none_refused_iff {put read : Str} {marginMs : ℚ} {xs : List Reading}
    (h : TrueRun put read marginMs xs) :
    NoneRefused (hitsIn read) (report put read (.fin marginMs)).1 ↔
      ∀ x ∈ xs, ∀ s, sendOf (sendsOf put) x.hit = some s →
        x.behind + s.gain ≤ x.delay s / 1000000 := by
  have hcount : (report put read (.fin marginMs)).1.refusedNegative =
      xs.countP fun x => refusedBy delta64 ((sendsOf put).map Send.held) x.hit.held := by
    show (pairBy delta64 _ ((hitsIn read).map Hit.held)).refusedNegative = _
    rw [pairBy_refusedNegative, h.hits, List.map_map, List.countP_map]
    rfl
  have htotal : (report put read (.fin marginMs)).1.deltas.length +
      (report put read (.fin marginMs)).1.refusedNegative +
        (report put read (.fin marginMs)).1.unmatched = (hitsIn read).length :=
    (pairBy_total delta64 _ _).trans (List.length_map ..)
  have hnone : (report put read (.fin marginMs)).1.refusedNegative = 0 ↔
      ∀ x ∈ xs, ∀ s, sendOf (sendsOf put) x.hit = some s →
        x.behind + s.gain ≤ x.delay s / 1000000 := by
    rw [hcount, List.countP_eq_zero]
    exact forall₂_congr fun x _ => not_refused_reading
  rw [← hnone]
  exact ⟨fun hn => hn.refusedNegative, fun h0 => ⟨h0, by omega⟩⟩

/-- A block sent 100 ms into the epoch. -/
def sentAt100 : Str := "PUT A 100000000 0.4 1024".toList

/-- Read 5 ms after its send, by a clock that is `behind` ms behind the writer's. -/
def readBehind (behind : Nat) : Reading :=
  { key := "A".toList, size := 1024, hitAt := (105 - behind) * 1000000, isU128 := by omega
    offset := -(behind * 1000000 : Nat) }

theorem trueRun_behind (behind : Nat) {read : Str} (hb : behind ≤ 50)
    (hread : hitsIn read = [(readBehind behind).hit]) :
    TrueRun sentAt100 read 50 [readBehind behind] := by
  have hsent : ∀ s, sendOf (sendsOf sentAt100) (readBehind behind).hit = some s →
      s.sentNs = 100000000 := by
    have hone : ∀ s ∈ sendsOf sentAt100, s.sentNs = 100000000 := by decide +kernel
    exact fun s hs => hone s (List.mem_of_find?_eq_some hs)
  refine ⟨hread, ?_, ?_⟩
  · intro x hx s hs
    obtain rfl := List.mem_singleton.mp hx
    rw [Reading.delay, hsent s hs, readBehind]
    dsimp only
    omega
  · intro x hx
    obtain rfl := List.mem_singleton.mp hx
    have hb' : (behind : ℚ) ≤ 50 := by exact_mod_cast hb
    have hnn : (0 : ℚ) ≤ behind := Nat.cast_nonneg _
    rw [readBehind]
    dsimp only
    push_cast
    rw [abs_neg, abs_of_nonneg (by positivity)]
    linarith

/-- A clock 4 ms behind: the read has its row. -/
theorem none_refused_four :
    NoneRefused (hitsIn "READ A 1024 101.0".toList)
      (report sentAt100 "READ A 1024 101.0".toList (.fin 50)).1 := by
  refine (none_refused_iff (trueRun_behind 4 (by decide) (by decide +kernel))).mpr ?_
  decide +kernel

/-- A clock 40 ms behind, within the margin of 50 ms: the read is refused. -/
theorem within_margin_refused :
    TrueRun sentAt100 "READ A 1024 65.0".toList 50 [readBehind 40] ∧
      (report sentAt100 "READ A 1024 65.0".toList (.fin 50)).1 =
        { deltas := [], refusedNegative := 1, unmatched := 0 } ∧
      ¬ NoneRefused (hitsIn "READ A 1024 65.0".toList)
        (report sentAt100 "READ A 1024 65.0".toList (.fin 50)).1 := by
  have hpair : (report sentAt100 "READ A 1024 65.0".toList (.fin 50)).1 =
      { deltas := [], refusedNegative := 1, unmatched := 0 } := by decide +kernel
  refine ⟨trueRun_behind 40 (by decide) (by decide +kernel), hpair, fun h => ?_⟩
  have := h.refusedNegative
  rw [hpair] at this
  cases this

/-- Equal clocks, and a read in the instant of its send: the double of the send gains on it. -/
example : (report "PUT A 1766482763329200000 0.4 1024".toList
    "READ A 1024 1766482763329.2".toList (.fin 50)).1.refusedNegative = 1 := by decide +kernel

end FreenetHarness.XNode
