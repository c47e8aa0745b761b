import FreenetHarness.Lib.Count
import FreenetHarness.Lib.Ranks
import FreenetHarness.Lib.Table
import FreenetHarness.Latency

/-! # `latency`: a batch of puts issued back to back

All puts of a batch are sent before any answer is looked at, then the answers are
collected. `atFrac_iff` says what the completion curve of a batch can be read for, and
`measureParallel_iff` what the samples of its puts are. -/
namespace FreenetHarness.Parallel
open FreenetHarness.Lib.Count FreenetHarness.Lib.Inbox FreenetHarness.Lib.Ranks
  FreenetHarness.Lib.Table FreenetHarness.Stats FreenetHarness.Latency

/-- N puts issued back to back on one connection, then all answers collected. -/
structure ParallelRun where
  n : Nat
  /-- First send to last acknowledgement. -/
  wallMs : ℚ
  perPut : List Sample
  /-- Offset from batch start to each acknowledgement, ascending. -/
  doneMs : List ℚ
  ascending : doneMs.Pairwise (· ≤ ·)
  length_le : doneMs.length ≤ n

/-- Time by which `frac` of the batch was acknowledged. -/
def ParallelRun.atFrac (r : ParallelRun) (frac : ℚ) : Option ℚ :=
  if r.doneMs = [] then none
  else
    let i := max ⌈(r.doneMs.length : ℚ) * frac⌉₊ 1
    r.doneMs[min i r.doneMs.length - 1]?

/-! ### What the curve says -/

namespace ParallelRun
variable (r : ParallelRun) (f : ℚ)

/-- The curve at `f` is a time by which so much of the batch was acknowledged, and there
is none where so much of it never was. -/
def Counts : Prop :=
  (∀ v, r.atFrac f = some v → ⌈(r.n : ℚ) * f⌉₊ ≤ r.doneMs.countP fun x => decide (x ≤ v)) ∧
    (r.doneMs.length < ⌈(r.n : ℚ) * f⌉₊ → r.atFrac f = none)

/-- The acknowledgement that is due at `f` of a batch of `n`, counted from one. -/
def due (n : Nat) : Option ℚ := r.doneMs[⌈(n : ℚ) * f⌉₊ - 1]?

variable {r f}

theorem ceil_mem {n : Nat} (hn : 0 < n) (h0 : 0 < f) (h1 : f ≤ 1) :
    1 ≤ ⌈(n : ℚ) * f⌉₊ ∧ ⌈(n : ℚ) * f⌉₊ ≤ n := by
  have hn : (0 : ℚ) < n := Nat.cast_pos.mpr hn
  refine ⟨Nat.one_le_iff_ne_zero.mpr (Nat.ceil_pos.mpr (mul_pos hn h0)).ne', ?_⟩
  exact Nat.ceil_le.mpr (mul_le_of_le_one_right hn.le h1)

theorem atFrac_eq_due (hne : r.doneMs ≠ []) (h0 : 0 < f) (h1 : f ≤ 1) :
    r.atFrac f = r.due f r.doneMs.length := by
  obtain ⟨hlo, hhi⟩ := ceil_mem (List.length_pos_iff.mpr hne) h0 h1
  simp only [atFrac, if_neg hne, due]
  rw [max_eq_left hlo, min_eq_left hhi]

theorem atFrac_of_nil (h : r.doneMs = []) : r.atFrac f = none := by rw [atFrac, if_pos h]

theorem atFrac_isSome (hne : r.doneMs ≠ []) : ∃ v, r.atFrac f = some v := by
  have hpos := List.length_pos_iff.mpr hne
  simp only [atFrac, if_neg hne]
  exact ⟨_, List.getElem?_eq_getElem (by omega)⟩

/-- **One point of the curve** is right where the acknowledgement due of those that came
is as early as the one due of all puts. -/
theorem counts_iff (h0 : 0 < f) (h1 : f ≤ 1) :
    r.Counts f ↔ r.doneMs = [] ∨ r.due f r.doneMs.length = r.due f r.n := by
  by_cases hne : r.doneMs = []
  · have hat : r.atFrac f = none := atFrac_of_nil hne
    simp [Counts, hat, hne]
  · have hpos := List.length_pos_iff.mpr hne
    obtain ⟨hlo, hhi⟩ := ceil_mem hpos h0 h1
    have hle : ⌈(r.doneMs.length : ℚ) * f⌉₊ ≤ ⌈(r.n : ℚ) * f⌉₊ :=
      Nat.ceil_mono (mul_le_mul_of_nonneg_right (Nat.cast_le.mpr r.length_le) h0.le)
    obtain ⟨v, hv⟩ := atFrac_isSome (f := f) hne
    have hdue : r.due f r.doneMs.length = some v := (atFrac_eq_due hne h0 h1).symm.trans hv
    have hcount : ⌈(r.n : ℚ) * f⌉₊ ≤ r.doneMs.countP (fun x => decide (x ≤ v)) ↔
        r.due f r.n = some v := by
      rw [show ⌈(r.n : ℚ) * f⌉₊ = ⌈(r.n : ℚ) * f⌉₊ - 1 + 1 by omega, Nat.succ_le_iff,
        lt_countP_iff r.ascending]
      constructor
      · intro ⟨x, hx, hxv⟩
        have hvx := le_of_rank_le r.ascending (Nat.sub_le_sub_right hle 1) hdue hx
        rw [due, hx, le_antisymm hxv hvx]
      · exact fun h => ⟨v, h, le_refl v⟩
    rw [Counts, hv, hdue]
    constructor
    · intro ⟨h, _⟩
      exact .inr (hcount.mp (h v rfl)).symm
    · rintro (h | h)
      · exact absurd h hne
      · have hc := hcount.mpr h.symm
        refine ⟨fun w hw => Option.some.inj hw ▸ hc, fun hlt => ?_⟩
        have := List.countP_le_length (p := fun x => decide (x ≤ v)) (l := r.doneMs)
        omega

theorem atFrac_mono {g v w : ℚ} (hfg : f ≤ g) (hv : r.atFrac f = some v)
    (hw : r.atFrac g = some w) : v ≤ w := by
  by_cases hne : r.doneMs = []
  · rw [atFrac_of_nil hne] at hv
    cases hv
  · simp only [atFrac, if_neg hne] at hv hw
    have hceil : ⌈(r.doneMs.length : ℚ) * f⌉₊ ≤ ⌈(r.doneMs.length : ℚ) * g⌉₊ :=
      Nat.ceil_mono (mul_le_mul_of_nonneg_left hfg (Nat.cast_nonneg _))
    exact le_of_rank_le r.ascending (by omega) hv hw

end ParallelRun

/-- **The completion curve.** A point of it is right where the acknowledgement due of
those that came is as early as the one due of all puts; all of its points are where none
came or every one did; and it never goes down. -/
theorem atFrac_iff (r : ParallelRun) :
    (∀ f : ℚ, 0 < f → f ≤ 1 →
      (r.Counts f ↔ r.doneMs = [] ∨ r.due f r.doneMs.length = r.due f r.n)) ∧
    ((∀ f : ℚ, 0 < f → f ≤ 1 → r.Counts f) ↔ r.doneMs = [] ∨ r.doneMs.length = r.n) ∧
    ∀ f g v w : ℚ, f ≤ g → r.atFrac f = some v → r.atFrac g = some w → v ≤ w := by
  refine ⟨fun f h0 h1 => ParallelRun.counts_iff h0 h1, ?_,
    fun f g v w hfg hv hw => ParallelRun.atFrac_mono hfg hv hw⟩
  constructor
  · intro h
    by_cases hne : r.doneMs = []
    · exact .inl hne
    · right
      obtain ⟨v, hv⟩ := ParallelRun.atFrac_isSome (f := 1) hne
      have h1 := (h 1 one_pos le_rfl).2
      rw [mul_one, Nat.ceil_natCast, hv] at h1
      exact le_antisymm r.length_le (not_lt.mp fun hlt => nomatch h1 hlt)
  · intro h f h0 h1
    refine (ParallelRun.counts_iff h0 h1).mpr (h.imp id fun hl => ?_)
    rw [hl]

/-- Two puts, one of them acknowledged. -/
def halfRun : ParallelRun where
  n := 2
  wallMs := 5
  perPut := [.ms 5, .failed "no response within 60 s"]
  doneMs := [5]
  ascending := List.pairwise_singleton _ _
  length_le := by decide

theorem halfRun_half : halfRun.Counts (1 / 2) ∧ (5 : ℚ) ≤ 5 :=
  ⟨((atFrac_iff halfRun).1 (1 / 2) (by norm_num) (by norm_num)).mpr (.inr (by decide +kernel)),
    (atFrac_iff halfRun).2.2 (1 / 2) 1 5 5 (by norm_num) (by decide +kernel) (by decide +kernel)⟩

/-- The time by which "all" of the batch was acknowledged is that of its only acknowledged
put. -/
theorem halfRun_all : halfRun.atFrac 1 = some 5 ∧ ¬ halfRun.Counts 1 := by
  have hat : halfRun.atFrac 1 = some 5 := by decide +kernel
  refine ⟨hat, fun h => ?_⟩
  have hnone := h.2 (by rw [mul_one, Nat.ceil_natCast]; decide)
  rw [hat] at hnone
  cases hnone

/-! ## Issuing -/

/-- What one put of a batch meets: the contract that is made for it, how its send settles
and the clock after that. -/
structure Issue (Key : Type) where
  made : Except String Key
  sent : Except String Unit
  stamp : Nat

variable {Key : Type}

/-- The keys of the puts in the order they were issued, each with its stamp. -/
def issue : List (Issue Key) → Except String (List (Key × Nat))
  | [] => .ok []
  | p :: ps =>
    match p.made with
    | .error e => .error e
    | .ok key => match p.sent with
      | .error e => .error e
      | .ok () => (issue ps).map fun order => (key, p.stamp) :: order

theorem length_issue {ps : List (Issue Key)} {order : List (Key × Nat)}
    (h : issue ps = .ok order) : order.length = ps.length := by
  induction ps generalizing order with
  | nil => cases h; rfl
  | cons p ps ih =>
    unfold issue at h
    split at h
    · cases h
    · split at h
      · cases h
      · cases hr : issue ps with
        | error e => rw [hr] at h; cases h
        | ok rest => rw [hr] at h; cases h; rw [List.length_cons, List.length_cons, ih hr]

/-! ## Collecting -/

section Collect

variable [DecidableEq Key]

/-- What has been collected for the puts that were sent. -/
structure Tally (sent : HashMap Key Nat) where
  perPut : HashMap Key Sample
  /-- In the order the acknowledgements came. -/
  doneMs : List ℚ
  known : ∀ key ∈ perPut, key ∈ sent
  count : doneMs.length = perPut.keys.length

variable {sent : HashMap Key Nat}

def Tally.start (sent : HashMap Key Nat) : Tally sent :=
  ⟨∅, [], fun _ h => absurd h (AList.notMem_empty _), rfl⟩

/-- An acknowledgement of a put that was sent at `stamp`. Only a first one advances the
curve. -/
def Tally.ack (start : Nat) (t : Tally sent) (key : Key) (stamp clock : Nat) (h : key ∈ sent) :
    Tally sent where
  perPut := t.perPut.insert key (.ms (msSince stamp clock))
  doneMs := if key ∈ t.perPut then t.doneMs else t.doneMs ++ [msSince start clock]
  known := by
    intro k hk
    rcases (AList.mem_insert _).mp hk with rfl | hk
    · exact h
    · exact t.known k hk
  count := by
    rw [length_insert]
    split
    · exact t.count
    · rw [List.length_append, t.count, List.length_singleton]

/-- One message of the collecting loop. -/
def collectStep (start : Nat) (sent : HashMap Key Nat) (s : Except String (Tally sent))
    (a : Arrival (Message Key)) : Except String (Tally sent) :=
  match s with
  | .error e => .error e
  | .ok t => match a.msg with
    | .error e _ => .error s!"node error while collecting parallel puts: {e}"
    | .response (.putResponse key) => match h : sent.lookup key with
      | some stamp => .ok (t.ack start key stamp a.clock (AList.lookup_isSome.mp (by rw [h]; rfl)))
      -- a straggler from an earlier batch on this same connection
      | none => .ok t
    | .response _ => .ok t

/-- The loop stops: every put has a sample, or the run is aborted. -/
def collected (n : Nat) : Except String (Tally sent) → Bool
  | .error _ => true
  | .ok t => decide (n ≤ t.perPut.keys.length)

/-- The samples in the order of issue, each handed out once. -/
def samples (wait : Nat) : HashMap Key Sample → List Key → List Sample
  | _, [] => []
  | perPut, key :: order =>
    (perPut.lookup key).getD (noResponse wait) :: samples wait (perPut.erase key) order

/-- What a batch meets: the clock as it starts, its puts, the clock as the deadline is set
and as it looks at the connection first, the messages and the clock at the end. -/
structure Batch (Key : Type) where
  n : Nat
  wait : Nat
  start : Nat
  puts : Nat → Issue Key
  opened : Nat
  looked : Nat
  inbox : List (Arrival (Message Key))
  finished : Nat

def Batch.issued (b : Batch Key) : Except String (List (Key × Nat)) :=
  issue ((List.range b.n).map b.puts)

def Batch.deadline (b : Batch Key) : Nat := b.opened + b.wait

def measureParallel (b : Batch Key) : Except String ParallelRun :=
  match h : b.issued with
  | .error e => .error e
  | .ok order =>
    let sent := fill ∅ order
    match gather (collected b.n) (collectStep b.start sent) b.deadline (.ok (.start sent))
        b.looked b.inbox with
    | .error e => .error e
    | .ok t => .ok
      { n := b.n
        wallMs := msSince b.start b.finished
        perPut := samples b.wait t.perPut (order.map Prod.fst)
        doneMs := sorted t.doneMs
        ascending := pairwise_sorted _
        length_le := by
          have hn : order.length = b.n := by simpa using length_issue h
          rw [length_sorted, t.count, ← hn]
          exact (length_le_of_subset t.known).trans (length_fill_le order) }

/-! ### What the samples say -/

/-- The put a message acknowledges. -/
def ackOf (a : Arrival (Message Key)) : Option Key :=
  match a.msg with
  | .response r => putKey r
  | .error _ _ => none

def firstAck (p : List (Arrival (Message Key))) (key : Key) : Option (Arrival (Message Key)) :=
  p.find? fun a => ackOf a = some key

def lastAck (p : List (Arrival (Message Key))) (key : Key) : Option (Arrival (Message Key)) :=
  firstAck p.reverse key

def Batch.readable (b : Batch Key) : List (Arrival (Message Key)) :=
  Lib.Inbox.readable b.deadline b.looked b.inbox

/-- The messages up to the one by which every put is acknowledged. -/
def Batch.heard (b : Batch Key) (order : List (Key × Nat)) : List (Arrival (Message Key)) :=
  upTo (fun p => order.all fun x => p.any fun a => ackOf a = some x.1) b.readable

/-- A sample a put in the order of issue, the latency of its first acknowledgement where
one came; and the curve, ascending, one entry an acknowledged put. -/
structure Recorded (b : Batch Key) (order : List (Key × Nat)) (r : ParallelRun) : Prop where
  length_eq : r.perPut.length = b.n
  perPut : r.perPut = order.map fun x => match firstAck b.readable x.1 with
    | some a => .ms (msSince x.2 a.clock)
    | none => noResponse b.wait
  ascending : r.doneMs.Pairwise (· ≤ ·)
  doneMs : r.doneMs.Perm
    (order.filterMap fun x => (firstAck b.readable x.1).map fun a => msSince b.start a.clock)

theorem firstAck_append (p q : List (Arrival (Message Key))) (key : Key) :
    firstAck (p ++ q) key = (firstAck p key).or (firstAck q key) := List.find?_append

theorem firstAck_singleton (a : Arrival (Message Key)) (key : Key) :
    firstAck [a] key = if ackOf a = some key then some a else none := by
  by_cases h : ackOf a = some key <;> simp [firstAck, h]

theorem lastAck_concat (p : List (Arrival (Message Key))) (a : Arrival (Message Key)) (key : Key) :
    lastAck (p ++ [a]) key = if ackOf a = some key then some a else lastAck p key := by
  rw [lastAck, List.reverse_append, firstAck_append, List.reverse_singleton, firstAck_singleton]
  split <;> rfl

theorem firstAck_isSome {p : List (Arrival (Message Key))} {key : Key} :
    (firstAck p key).isSome = p.any fun a => ackOf a = some key := by
  rw [Bool.eq_iff_iff, firstAck, List.find?_isSome, List.any_eq_true]

theorem lastAck_isSome {p : List (Arrival (Message Key))} {key : Key} :
    (lastAck p key).isSome = (firstAck p key).isSome := by
  rw [lastAck, firstAck_isSome, firstAck_isSome, List.any_reverse]

/-! ### One message -/

theorem collectStep_own {start : Nat} {t : Tally sent} {a : Arrival (Message Key)} {key : Key}
    {stamp : Nat} (ha : ackOf a = some key) (h : sent.lookup key = some stamp) :
    collectStep start sent (.ok t) a =
      .ok (t.ack start key stamp a.clock (AList.lookup_isSome.mp (by rw [h]; rfl))) := by
  cases hm : a.msg with
  | error e cause => simp [ackOf, hm] at ha
  | response r =>
    obtain rfl := putKey_eq_some (by simpa [ackOf, hm] using ha : putKey r = some key)
    simp only [collectStep, hm]
    split
    · rename_i s hs
      obtain rfl : s = stamp := Option.some.inj (hs.symm.trans h)
      rfl
    · rename_i hs
      rw [h] at hs
      cases hs

/-- A message that acknowledges no put of the batch leaves everything as it was. -/
theorem collectStep_other {start : Nat} {t t' : Tally sent} {a : Arrival (Message Key)}
    (ha : ∀ key, ackOf a = some key → key ∉ sent)
    (h : collectStep start sent (.ok t) a = .ok t') : t' = t := by
  cases hm : a.msg with
  | error e cause => simp only [collectStep, hm] at h; cases h
  | response r => cases r with
    | putResponse key =>
      have hkey : key ∉ sent := ha key (by simp [ackOf, hm, putKey])
      simp only [collectStep, hm] at h
      split at h
      · rename_i stamp hs
        exact absurd (AList.lookup_isSome.mp (by rw [hs]; rfl)) hkey
      · cases h; rfl
    | getResponse key state => simp only [collectStep, hm] at h; cases h; rfl
    | other => simp only [collectStep, hm] at h; cases h; rfl

theorem collectStep_error {start : Nat} {e : String} (p : List (Arrival (Message Key))) :
    p.foldl (collectStep start sent) (.error e) = .error e := by
  induction p with
  | nil => rfl
  | cons a p ih => exact ih

/-! ### A run of messages -/

/-- What the messages read so far leave of the puts in `order`. -/
structure Tracks (start : Nat) (order : List (Key × Nat)) (t : Tally (fill ∅ order))
    (p : List (Arrival (Message Key))) : Prop where
  perPut : ∀ x ∈ order,
    t.perPut.lookup x.1 = (lastAck p x.1).map fun a => .ms (msSince x.2 a.clock)
  doneMs : t.doneMs.Perm
    (order.filterMap fun x => (firstAck p x.1).map fun a => msSince start a.clock)

theorem Tracks.mem {start : Nat} {order : List (Key × Nat)} {t : Tally (fill ∅ order)}
    {p : List (Arrival (Message Key))} (h : Tracks start order t p) {x : Key × Nat}
    (hx : x ∈ order) : x.1 ∈ t.perPut ↔ (firstAck p x.1).isSome := by
  rw [← AList.lookup_isSome, h.perPut x hx, Option.isSome_map, lastAck_isSome]

/-- A message that is no acknowledgement of a put leaves its first one as it was. -/
theorem firstAck_concat_of_ne {p : List (Arrival (Message Key))} {a : Arrival (Message Key)}
    {key : Key} (h : ackOf a ≠ some key) : firstAck (p ++ [a]) key = firstAck p key := by
  rw [firstAck_append, firstAck_singleton, if_neg h, Option.or_none]

theorem Tracks.other {start : Nat} {order : List (Key × Nat)} {t : Tally (fill ∅ order)}
    {p : List (Arrival (Message Key))} {a : Arrival (Message Key)} (h : Tracks start order t p)
    (hno : ∀ x ∈ order, ackOf a ≠ some x.1) : Tracks start order t (p ++ [a]) := by
  constructor
  · intro x hx
    rw [lastAck_concat, if_neg (hno x hx)]
    exact h.perPut x hx
  · rw [List.filterMap_congr fun x hx => by rw [firstAck_concat_of_ne (hno x hx)]]
    exact h.doneMs

/-- The acknowledgement of a put: its sample is the last one's, and the first of them is
one more put done. -/
theorem Tracks.own {start : Nat} {order : List (Key × Nat)} {t t' : Tally (fill ∅ order)}
    {p : List (Arrival (Message Key))} {a : Arrival (Message Key)} (h : Tracks start order t p)
    (hk : (order.map Prod.fst).Nodup) {x : Key × Nat} (hx : x ∈ order) (ha : ackOf a = some x.1)
    (hs : collectStep start (fill ∅ order) (.ok t) a = .ok t') :
    Tracks start order t' (p ++ [a]) := by
  rw [collectStep_own ha (lookup_fill_of_mem hk hx)] at hs
  cases hs
  have hother : ∀ y ∈ order, y ≠ x → ackOf a ≠ some y.1 := by
    intro y hy hne he
    rw [ha] at he
    exact hne (List.inj_on_of_nodup_map hk hy hx (Option.some.inj he).symm)
  have hthis : firstAck (p ++ [a]) x.1 = (firstAck p x.1).or (some a) := by
    rw [firstAck_append, firstAck_singleton, if_pos ha]
  constructor
  · intro y hy
    rw [lastAck_concat]
    by_cases hyx : y = x
    · subst hyx
      rw [if_pos ha]
      exact AList.lookup_insert _
    · rw [if_neg (hother y hy hyx), ← h.perPut y hy]
      refine AList.lookup_insert_ne fun he => hyx ?_
      exact List.inj_on_of_nodup_map hk hy hx he
  · show List.Perm (if x.1 ∈ t.perPut then t.doneMs else t.doneMs ++ [msSince start a.clock]) _
    by_cases hmem : x.1 ∈ t.perPut
    · obtain ⟨b, hb⟩ := Option.isSome_iff_exists.mp ((h.mem hx).mp hmem)
      rw [if_pos hmem, List.filterMap_congr (g := fun x => (firstAck p x.1).map _)]
      · exact h.doneMs
      · intro y hy
        by_cases hyx : y = x
        · rw [hyx, hthis, hb]
          rfl
        · rw [firstAck_concat_of_ne (hother y hy hyx)]
    · have hb : firstAck p x.1 = none := by simpa using fun hb => hmem ((h.mem hx).mpr hb)
      rw [if_neg hmem]
      refine (h.doneMs.append_right _).trans (filterMap_perm_concat hk.of_map hx ?_ ?_ ?_)
      · rw [hb]
        rfl
      · rw [hthis, hb]
        rfl
      · intro y hy hne
        rw [firstAck_concat_of_ne (hother y hy hne)]

theorem Tracks.concat {start : Nat} {order : List (Key × Nat)} {t t' : Tally (fill ∅ order)}
    {p : List (Arrival (Message Key))} {a : Arrival (Message Key)} (h : Tracks start order t p)
    (hk : (order.map Prod.fst).Nodup) (hs : collectStep start (fill ∅ order) (.ok t) a = .ok t') :
    Tracks start order t' (p ++ [a]) := by
  by_cases hown : ∃ x ∈ order, ackOf a = some x.1
  · obtain ⟨x, hx, ha⟩ := hown
    exact h.own hk hx ha hs
  · have hno : ∀ x ∈ order, ackOf a ≠ some x.1 := fun x hx ha => hown ⟨x, hx, ha⟩
    obtain rfl : t' = t := collectStep_other (fun key ha hmem => by
      obtain ⟨x, hx, rfl⟩ := List.mem_map.mp (mem_fill.mp hmem)
      exact hno x hx ha) hs
    exact h.other hno

/-- **The collecting loop.** What it leaves of a put is what its last acknowledgement and
its first one say. -/
theorem tracks_foldl {start : Nat} {order : List (Key × Nat)} (hk : (order.map Prod.fst).Nodup)
    {p : List (Arrival (Message Key))} {t : Tally (fill ∅ order)}
    (h : p.foldl (collectStep start (fill ∅ order)) (.ok (.start _)) = .ok t) :
    Tracks start order t p := by
  induction p using List.reverseRecOn generalizing t with
  | nil =>
    cases h
    constructor
    · exact fun _ _ => rfl
    · have hnil : order.filterMap (fun x => (firstAck [] x.1).map fun a => msSince start a.clock) =
          [] := List.filterMap_eq_nil_iff.mpr fun _ _ => rfl
      rw [hnil]
      exact List.Perm.nil
  | append_singleton p a ih =>
    rw [List.foldl_concat] at h
    cases hp : p.foldl (collectStep start (fill ∅ order)) (.ok (.start _)) with
    | error e => rw [hp] at h; cases h
    | ok u =>
      rw [hp] at h
      exact (ih hp).concat hk h

/-- The loop stops where every put is acknowledged. -/
theorem Tracks.full_iff {start : Nat} {order : List (Key × Nat)} {t : Tally (fill ∅ order)}
    {p : List (Arrival (Message Key))} (h : Tracks start order t p)
    (hk : (order.map Prod.fst).Nodup) :
    order.length ≤ t.perPut.keys.length ↔
      order.all (fun x => p.any fun a => ackOf a = some x.1) = true := by
  have hsub : t.perPut.keys ⊆ order.map Prod.fst := fun key hkey =>
    mem_fill.mp (t.known key (AList.mem_keys.mpr hkey))
  have hall : order.all (fun x => p.any fun a => ackOf a = some x.1) = true ↔
      order.map Prod.fst ⊆ t.perPut.keys := by
    rw [List.all_eq_true]
    constructor
    · intro ha key hkey
      obtain ⟨x, hx, rfl⟩ := List.mem_map.mp hkey
      exact AList.mem_keys.mp ((h.mem hx).mpr (firstAck_isSome.trans (ha x hx)))
    · intro ha x hx
      rw [← firstAck_isSome]
      exact (h.mem hx).mp (AList.mem_keys.mpr (ha (List.mem_map_of_mem hx)))
  rw [hall]
  constructor
  · intro hle
    have hperm := (t.perPut.keys_nodup.subperm hsub).perm_of_length_le (by simpa using hle)
    exact hperm.symm.subset
  · intro hs
    simpa using (hk.subperm hs).length_le

theorem samples_eq {wait : Nat} {perPut : HashMap Key Sample} {keys : List Key} (hk : keys.Nodup) :
    samples wait perPut keys = keys.map fun key => (perPut.lookup key).getD (noResponse wait) := by
  induction keys generalizing perPut with
  | nil => rfl
  | cons key keys ih =>
    obtain ⟨hnot, hk⟩ := List.nodup_cons.mp hk
    rw [samples, ih hk, List.map_cons]
    congr 1
    apply List.map_congr_left
    intro k hmem
    rw [AList.lookup_erase_ne fun he : k = key => hnot (he ▸ hmem)]

/-- A message that was read first is the first there is, once every put is acknowledged. -/
theorem Batch.firstAck_heard (b : Batch Key) {order : List (Key × Nat)} {x : Key × Nat}
    (hx : x ∈ order) : firstAck (b.heard order) x.1 = firstAck b.readable x.1 := by
  rcases upTo_done (fun p => order.all fun x => p.any fun a => ackOf a = some x.1) b.readable with
    hdone | hall
  · obtain ⟨rest, hrest⟩ := upTo_prefix (fun p => order.all fun x =>
      p.any fun a => ackOf a = some x.1) b.readable
    have hsome := firstAck_isSome.trans (List.all_eq_true.mp hdone x hx)
    obtain ⟨a, ha⟩ := Option.isSome_iff_exists.mp hsome
    rw [← hrest, firstAck_append, Batch.heard, ha]
    rfl
  · rw [Batch.heard, hall]

/-- What a batch that is not aborted has collected. -/
theorem Batch.tracks (b : Batch Key) {order : List (Key × Nat)} (hi : b.issued = .ok order)
    (hk : (order.map Prod.fst).Nodup) {t : Tally (fill ∅ order)}
    (h : gather (collected b.n) (collectStep b.start (fill ∅ order)) b.deadline
      (.ok (.start _)) b.looked b.inbox = .ok t) : Tracks b.start order t (b.heard order) := by
  have hn : order.length = b.n := by simpa using length_issue hi
  rw [gather_eq] at h
  have hheard : b.heard order = upTo (fun p => collected b.n (p.foldl
      (collectStep b.start (fill ∅ order)) (.ok (.start _)))) b.readable := by
    refine (upTo_congr fun p hp => ?_).symm
    obtain ⟨rest, hrest⟩ := hp
    rw [Batch.readable] at hrest
    rw [← hrest, List.foldl_append] at h
    cases hs : p.foldl (collectStep b.start (fill ∅ order)) (.ok (.start _)) with
    | error e => rw [hs, collectStep_error] at h; cases h
    | ok u =>
      have := (tracks_foldl hk hs).full_iff hk
      rw [hn] at this
      rw [Bool.eq_iff_iff, ← this]
      exact decide_eq_true_iff
  rw [hheard]
  exact tracks_foldl hk h

/-- A batch that is not aborted is made from what its loop ends in. -/
theorem collected_of_ok (b : Batch Key) {order : List (Key × Nat)} {r : ParallelRun}
    (hi : b.issued = .ok order) (hr : measureParallel b = .ok r) :
    ∃ t : Tally (fill ∅ order), gather (collected b.n) (collectStep b.start (fill ∅ order))
      b.deadline (.ok (.start _)) b.looked b.inbox = .ok t ∧
      r.perPut = samples b.wait t.perPut (order.map Prod.fst) ∧ r.doneMs = sorted t.doneMs := by
  unfold measureParallel at hr
  split at hr
  · cases hr
  · rename_i order' h'
    obtain rfl : order = order' := Except.ok.inj (hi.symm.trans h')
    dsimp only at hr
    split at hr
    · cases hr
    · rename_i t ht
      cases hr
      exact ⟨t, ht, rfl, rfl⟩

/-- **The samples of a batch** are what its puts' acknowledgements say, unless one is read
again with another latency while some put still waits for its own. -/
theorem measureParallel_iff (b : Batch Key) {order : List (Key × Nat)} {r : ParallelRun}
    (hi : b.issued = .ok order) (hk : (order.map Prod.fst).Nodup)
    (hr : measureParallel b = .ok r) :
    Recorded b order r ↔ ∀ x ∈ order, ∀ first last,
      firstAck (b.heard order) x.1 = some first → lastAck (b.heard order) x.1 = some last →
        msSince x.2 last.clock = msSince x.2 first.clock := by
  have hn : order.length = b.n := by simpa using length_issue hi
  obtain ⟨t, ht, hsamples, hcurve⟩ := collected_of_ok b hi hr
  have h := b.tracks hi hk ht
  have hper : r.perPut = order.map fun x => ((lastAck (b.heard order) x.1).map fun a =>
      Sample.ms (msSince x.2 a.clock)).getD (noResponse b.wait) := by
    rw [hsamples, samples_eq hk, List.map_map]
    apply List.map_congr_left
    intro x hx
    rw [Function.comp_apply, h.perPut x hx]
  constructor
  · intro hrec x hx first last hfirst hlast
    have heq := List.map_inj_left.mp (hper.symm.trans hrec.perPut) x hx
    rw [← b.firstAck_heard hx, hfirst, hlast] at heq
    exact Sample.ms.inj heq
  · intro hlat
    refine ⟨by rw [hper, List.length_map, hn], ?_, r.ascending, ?_⟩
    · rw [hper]
      apply List.map_congr_left
      intro x hx
      rw [← b.firstAck_heard hx]
      cases hfirst : firstAck (b.heard order) x.1 with
      | none =>
        have hnone : lastAck (b.heard order) x.1 = none := by
          have hsame : (lastAck (b.heard order) x.1).isSome = _ := lastAck_isSome
          rw [hfirst] at hsame
          simpa using hsame
        rw [hnone]
        rfl
      | some first =>
        obtain ⟨last, hlast⟩ := Option.isSome_iff_exists.mp
          (lastAck_isSome.trans (hfirst ▸ rfl : (firstAck (b.heard order) x.1).isSome = true))
        rw [hlast]
        exact congrArg Sample.ms (hlat x hx first last hfirst hlast)
    · rw [hcurve]
      refine (sorted_perm _).trans ?_
      have := h.doneMs
      rwa [List.filterMap_congr fun x hx => by rw [b.firstAck_heard hx]] at this

/-! ## Two batches of two puts -/

/-- The acknowledgement of a put, at `ms` milliseconds. -/
def ackAt (key ms : Nat) : Arrival (Message Nat) :=
  ⟨.response (.putResponse key), ms * 1000000, ms * 1000000⟩

/-- Puts `0` and `1`, both sent as the batch starts. -/
def twoPuts (inbox : List (Arrival (Message Nat))) : Batch Nat where
  n := 2
  wait := seconds 60
  start := 0
  puts i := ⟨.ok i, .ok (), 0⟩
  opened := 0
  looked := 0
  inbox := inbox
  finished := seconds 1

def once : Batch Nat := twoPuts [ackAt 0 1, ackAt 1 3]

/-- The first put is acknowledged twice before the second one is. -/
def twice : Batch Nat := twoPuts [ackAt 0 1, ackAt 0 2, ackAt 1 3]

theorem once_recorded : ∃ r, measureParallel once = .ok r ∧ Recorded once [(0, 0), (1, 0)] r := by
  have hsame : ∀ x ∈ [(0, 0), (1, 0)], lastAck (once.heard [(0, 0), (1, 0)]) x.1 =
      firstAck (once.heard [(0, 0), (1, 0)]) x.1 := by decide
  obtain ⟨r, hr⟩ : ∃ r, measureParallel once = .ok r := ⟨_, rfl⟩
  have hi : once.issued = .ok [(0, 0), (1, 0)] := rfl
  refine ⟨r, hr, (measureParallel_iff once hi (by decide) hr).mpr ?_⟩
  intro x hx first last hfirst hlast
  rw [hsame x hx, hfirst] at hlast
  rw [Option.some.inj hlast]

/-- A put acknowledged after one millisecond is reported with two. -/
theorem twice_not_recorded :
    ∃ r, measureParallel twice = .ok r ∧ ¬ Recorded twice [(0, 0), (1, 0)] r := by
  obtain ⟨r, hr⟩ : ∃ r, measureParallel twice = .ok r := ⟨_, rfl⟩
  refine ⟨r, hr, fun h => ?_⟩
  have hper : (measureParallel twice).map ParallelRun.perPut = .ok [.ms 2, .ms 3] := by
    decide +kernel
  have hspec : ([(0, 0), (1, 0)] : List (Nat × Nat)).map (fun x =>
      match firstAck twice.readable x.1 with
      | some a => Sample.ms (msSince x.2 a.clock)
      | none => noResponse twice.wait) = [.ms 1, .ms 3] := by decide +kernel
  rw [hr] at hper
  have := (Except.ok.inj hper).symm.trans (h.perPut.trans hspec)
  exact absurd this (by decide)

end Collect

end FreenetHarness.Parallel
