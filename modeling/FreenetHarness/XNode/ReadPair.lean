import FreenetHarness.XNode.Read

/-! # The reader's times, paired

The reader prints how long after a key's send time it was read; the pair role takes that
number for the absolute time of the read and subtracts the send time. `far_iff` says
for which runs the table shows the time from the send to the read after all. -/
namespace FreenetHarness.XNode
open FreenetHarness.Lib.Run FreenetHarness.Lib.Text FreenetHarness.Lib.Number
  FreenetHarness.Stats

variable {Id : Type}

/-! ## Lines the pair role passes over -/

/-- A line of the reader's output that is not a hit. -/
structure Silent (l : Str) : Prop where
  flat : Flat l
  noHit : parseRead l = none

theorem parseRead_of_tag {tag l : Str} {ws : List Str} (hw : words l = tag :: ws)
    (hne : tag ≠ "READ".toList) : parseRead l = none := by
  unfold parseRead
  rw [hw]
  split
  · rename_i h
    cases h
    rw [if_neg hne]
  · rfl

theorem words_tag {tag rest : Str} (ht : IsWord tag) :
    words (tag ++ ' ' :: rest) = tag :: words rest := by
  rw [words_append_space, ht.words_eq]
  rfl

theorem silent_record {tag w : Str} {ws : List Str} (ht : IsWord tag) (hne : tag ≠ "READ".toList)
    (hflat : ∀ v ∈ w :: ws, Flat v) : Silent (unwords (tag :: w :: ws)) := by
  refine ⟨flat_unwords ?_, ?_⟩
  · intro v hv
    rcases List.mem_cons.mp hv with rfl | hv
    · exact ht.flat
    · exact hflat v hv
  · have hsplit : unwords (tag :: w :: ws) = tag ++ ' ' :: unwords (w :: ws) := by
      simp [unwords, List.intercalate_cons_cons]
    exact parseRead_of_tag (by rw [hsplit, words_tag ht]) hne

theorem silent_comment {pieces : List Str} (h : ∀ p ∈ pieces, Flat p) :
    Silent (comment pieces) := by
  refine ⟨?_, parseRead_of_tag (@words_tag ['#'] _ (by decide)) (by decide)⟩
  intro c hc
  simp only [comment, List.mem_cons, List.mem_flatten] at hc
  rcases hc with rfl | rfl | ⟨p, hp, hc⟩
  · decide
  · decide
  · exact h p hp c hc

theorem flat_digits (n : Nat) : Flat (digits n) := (isWord_digits n).flat

theorem silent_controlDone (c : Control Id) : Silent (controlDone c) := by
  refine silent_comment ?_
  simp only [List.forall_mem_cons, flat_digits, true_and]
  decide

theorem silent_probeGrid (cold : List (Cold Id)) : Silent (probeGrid cold) := by
  refine silent_comment ?_
  simp only [List.forall_mem_cons, flat_digits, true_and]
  decide

theorem silent_closing (c : Control Id) (s : Reader Id) : Silent (closing c s) := by
  refine silent_comment ?_
  simp only [List.forall_mem_cons, flat_digits, true_and]
  decide

theorem silent_voidLine {idS size : Str} (hi : IsWord idS) (hs : IsWord size) :
    Silent (voidLine idS size) := by
  refine silent_record (by decide) (by decide) ?_
  simp only [List.forall_mem_cons, hi.flat, hs.flat, true_and]
  decide

/-- A pending key whose texts are words of the keys file. -/
structure Cold.Named (e : Cold Id) : Prop where
  idS : IsWord e.idS
  size : IsWord e.size

theorem silent_missLine (limitSecs : Nat) {e : Cold Id} (h : e.Named) :
    Silent (missLine limitSecs e) := by
  refine silent_record (by decide) (by decide) ?_
  simp only [List.forall_mem_cons, h.idS.flat, h.size.flat, flat_digits, true_and]
  decide

/-! ## What the control pass leaves -/

/-- The keys are named by words, and nothing printed so far is a hit. -/
structure Control.Sound (c : Control Id) : Prop where
  named : ∀ e ∈ c.pending, e.Named
  silent : ∀ l ∈ c.printed, Silent l

section Control

variable {instanceId : Str → Except String Id} {limitSecs : Nat}

theorem controlLine_sound {check : Check} {c c' : Control Id} {l : Str} (hc : c.Sound)
    (h : controlLine instanceId limitSecs check c l = .ok c') : c'.Sound := by
  unfold controlLine at h
  split at h
  · cases h
  split at h
  · cases h; exact hc
  rename_i idS tSend size hk
  obtain ⟨hi, hs⟩ := isWord_of_keyLine hk
  split at h
  · cases h
  split at h
  · cases h
  · cases h
    refine ⟨hc.named, fun l hl => ?_⟩
    rcases List.mem_append.mp hl with hl | hl
    · exact hc.silent l hl
    · obtain rfl := List.mem_singleton.mp hl
      exact silent_voidLine hi hs
  · cases h
    refine ⟨fun e he => ?_, hc.silent⟩
    rcases List.mem_append.mp he with he | he
    · exact hc.named e he
    · obtain rfl := List.mem_singleton.mp he
      exact ⟨hi, hs⟩

theorem control_sound {checks : Nat → Check} {n : Nat} {c c' : Control Id} {ls : List Str}
    {res : Except String Unit} (hc : c.Sound)
    (h : control instanceId limitSecs checks n c ls = (c', res)) : c'.Sound := by
  induction ls generalizing n c with
  | nil => cases h; exact hc
  | cons l ls ih =>
    rw [control] at h
    cases hl : controlLine instanceId limitSecs (checks n) c l with
    | error e => rw [hl] at h; cases h; exact hc
    | ok d => rw [hl] at h; exact ih (controlLine_sound hc hl) h

theorem preamble_silent {c : Control Id} (hc : c.Sound) : ∀ l ∈ preamble c, Silent l := by
  intro l hl
  simp only [preamble, List.mem_append, List.mem_cons, List.not_mem_nil, or_false] at hl
  rcases hl with hl | rfl | rfl
  · exact hc.silent l hl
  · exact silent_controlDone c
  · exact silent_probeGrid c.pending

end Control

/-! ## What the pair role finds there -/

/-- What the `READ` line of a key is taken for. -/
def hitOf (x : Cold Id × Nat) : Hit :=
  { key := x.1.idS, size := (parseUsize x.1.size).toOption.getD 0
    atMs := .fin (tenths (deltaMs x.2 x.1) / 10) }

theorem deltaMs_nonneg (hitAt : Nat) (e : Cold Id) : 0 ≤ deltaMs hitAt e := millis_nonneg _

theorem parseRead_readOf {x : Cold Id × Nat} (h : x.1.Named) :
    parseRead (readOf x.2 x.1) = some (hitOf x) :=
  parseRead_readLine h.idS h.size (deltaMs_nonneg x.2 x.1)

theorem flat_readOf {x : Cold Id × Nat} (h : x.1.Named) : Flat (readOf x.2 x.1) :=
  flat_unwords_of_isWord (isWord_readLine h.idS h.size (deltaMs_nonneg x.2 x.1))

theorem hitsIn_unlines {before rest : List Str} {xs : List (Cold Id × Nat)}
    (hb : ∀ l ∈ before, Silent l) (hx : ∀ x ∈ xs, x.1.Named) (hr : ∀ l ∈ rest, Silent l) :
    hitsIn (unlines (before ++ (xs.map fun x => readOf x.2 x.1) ++ rest)) = xs.map hitOf := by
  have hsilent : ∀ ls : List Str, (∀ l ∈ ls, Silent l) → ls.filterMap parseRead = [] := by
    intro ls h
    exact List.filterMap_eq_nil_iff.mpr fun l hl => (h l hl).noHit
  have hreads : (xs.map fun x => readOf x.2 x.1).filterMap parseRead = xs.map hitOf := by
    rw [List.filterMap_map, ← List.filterMap_eq_map]
    exact List.filterMap_congr fun x h => parseRead_readOf (hx x h)
  have hflat : ∀ l ∈ before ++ (xs.map fun x => readOf x.2 x.1) ++ rest, Flat l := by
    intro l hl
    simp only [List.mem_append, List.mem_map] at hl
    rcases hl with (hl | ⟨x, h, rfl⟩) | hl
    · exact (hb l hl).flat
    · exact flat_readOf (hx x h)
    · exact (hr l hl).flat
  rw [hitsIn, lines_unlines hflat, List.filterMap_append, List.filterMap_append, hsilent _ hb,
    hsilent _ hr, hreads, List.nil_append, List.append_nil]

/-! ## The time a row shows -/

/-- The tenth of a millisecond a duration is printed as, in nanoseconds. -/
def nearestTenth (d : Nat) : Nat := tenths (millis d) * 100000

theorem nearestTenth_near (d : Nat) :
    nearestTenth d ≤ d + 50000 ∧ d ≤ nearestTenth d + 50000 := by
  have hnn : 0 ≤ |millis d| * 10 := by positivity
  have habs : |millis d| * 10 = d / 100000 := by
    rw [abs_of_nonneg (millis_nonneg d), millis]
    ring
  obtain ⟨hlo, hhi⟩ := roundHalfEven_near hnn
  rw [habs] at hlo hhi
  have hround : tenths (millis d) = roundHalfEven ((d : ℚ) / 100000) := by rw [tenths, habs]
  rw [nearestTenth, hround]
  rw [← Nat.cast_le (α := ℚ), ← Nat.cast_le (α := ℚ)]
  push_cast
  constructor <;> linarith

/-- The `PUT` line of a key. -/
def putLine (sends : List Send) (key : Str) : Option Send := sends.find? fun s => s.key == key

/-- The row shows how long after its send the key was read, to the printed tenth. -/
def ShowsFar (sends : List Send) (x : Cold Id × Nat) (row : Joined) : Prop :=
  ∃ s, putLine sends x.1.idS = some s ∧ ∃ q, row.farMs = .fin q ∧
    |q - ((x.2 : ℚ) - s.sentNs) / 1000000| ≤ 1 / 20

/-- The send time the keys file carries leaves no trace in the printed time, and the put
file's send is not after it. -/
structure Unshifted (tSend hitAt sentNs : Nat) : Prop where
  same : hitAt ≤ nearestTenth (hitAt - tSend) + 50000
  notBefore : sentNs ≤ nearestTenth (hitAt - tSend)

/-- The time to a hit that was printed at the clock reading `d`. -/
theorem delta_tenths {h : Hit} {d : Nat} (hd : h.atMs = .fin (tenths (millis d) / 10)) (s : Send) :
    delta h s = .fin (((nearestTenth d : ℚ) - s.sentNs) / 1000000) := by
  rw [delta, hd, F64.sub_fin, show millis s.sentNs = (s.sentNs : ℚ) / 1000000 from rfl,
    nearestTenth]
  congr 1
  push_cast
  ring

theorem delta_lt_zero {h : Hit} {d : Nat} (hd : h.atMs = .fin (tenths (millis d) / 10))
    (s : Send) : (delta h s).lt (.fin 0) = true ↔ nearestTenth d < s.sentNs := by
  rw [delta_tenths hd, F64.lt_fin, decide_eq_true_iff, div_lt_iff₀ (by norm_num), zero_mul,
    sub_neg, Nat.cast_lt]

theorem delta_hitOf (x : Cold Id × Nat) (s : Send) :
    delta (hitOf x) s =
      .fin (((nearestTenth (x.2 - x.1.tSend) : ℚ) - s.sentNs) / 1000000) :=
  delta_tenths rfl s

/-- Both differences are from the same send: they agree to a tenth when their ends do. -/
theorem near_iff {p hit sent : Nat} (hp : p ≤ hit + 50000) :
    |((p : ℚ) - sent) / 1000000 - ((hit : ℚ) - sent) / 1000000| ≤ 1 / 20 ↔ hit ≤ p + 50000 := by
  have hdiff : ((p : ℚ) - sent) / 1000000 - ((hit : ℚ) - sent) / 1000000 =
      ((p : ℚ) - hit) / 1000000 := by ring
  have hp' : (p : ℚ) ≤ hit + 50000 := by exact_mod_cast hp
  rw [hdiff, abs_le, ← Nat.cast_le (α := ℚ)]
  push_cast
  constructor
  · rintro ⟨h, -⟩
    linarith
  · intro h
    constructor <;> linarith

/-- **One key.** -/
theorem shows_iff {sends : List Send} {x : Cold Id × Nat} {s : Send}
    (hs : putLine sends x.1.idS = some s) :
    (∃ row, joined sends (hitOf x) = some row ∧ ShowsFar sends x row) ↔
      Unshifted x.1.tSend x.2 s.sentNs := by
  have hsend : sendOf sends (hitOf x) = some s := hs
  have hnear := (nearestTenth_near (x.2 - x.1.tSend)).1
  have hupper : nearestTenth (x.2 - x.1.tSend) ≤ x.2 + 50000 := by omega
  have hlt : (delta (hitOf x) s).lt (.fin 0) = true ↔
      nearestTenth (x.2 - x.1.tSend) < s.sentNs := delta_lt_zero rfl s
  constructor
  · rintro ⟨row, hj, s', hs', q, hq, hfar⟩
    obtain rfl : s = s' := Option.some.inj (hs.symm.trans hs')
    rw [joined, hsend, Option.bind_some] at hj
    split at hj
    · cases hj
    rename_i hd
    cases hj
    rw [join, delta_hitOf] at hq
    cases hq
    exact ⟨(near_iff hupper).mp hfar, Nat.le_of_not_lt fun h => hd (hlt.mpr h)⟩
  · rintro ⟨hsame, hbefore⟩
    refine ⟨join (hitOf x) s, ?_, s, hs, _, delta_hitOf x s, (near_iff hupper).mpr hsame⟩
    rw [joined, hsend, Option.bind_some, if_neg fun h => Nat.not_lt.mpr hbefore (hlt.mp h)]

/-- A key minted and not yet sent is printed with the absolute time of its read. -/
theorem unshifted_mint {hitAt sentNs : Nat} :
    Unshifted 0 hitAt sentNs ↔ sentNs ≤ nearestTenth hitAt :=
  ⟨fun h => h.notBefore, fun h => ⟨(nearestTenth_near hitAt).2, h⟩⟩

/-- A send time of more than a tenth of a millisecond is never lost in the rounding. -/
theorem not_unshifted_put {tSend hitAt sentNs : Nat} (ht : 100000 < tSend) (hh : tSend ≤ hitAt) :
    ¬ Unshifted tSend hitAt sentNs := by
  rintro ⟨hsame, -⟩
  have := (nearestTenth_near (hitAt - tSend)).1
  omega

/-! ## What the rounds print -/

variable [DecidableEq Id]

/-- The keys the rounds read, each with the time of its round. -/
def readings : Reader Id → List Round → List (Cold Id × Nat)
  | _, [] => []
  | s, r :: rs => (readIn s r).map (·, r.hitAt) ++ readings (round s r) rs

theorem printed_after (s : Reader Id) (rs : List Round) :
    (after round s rs).printed = s.printed ++ (readings s rs).map fun x => readOf x.2 x.1 := by
  induction rs generalizing s with
  | nil => simp [readings]
  | cons r rs ih =>
    rw [after_cons, ih]
    simp [readings, round, Function.comp_def]

theorem mem_of_mem_readings {s : Reader Id} {rs : List Round} {x : Cold Id × Nat}
    (h : x ∈ readings s rs) : x.1 ∈ s.pending := by
  induction rs generalizing s with
  | nil => cases h
  | cons r rs ih =>
    rcases List.mem_append.mp h with h | h
    · obtain ⟨e, he, rfl⟩ := List.mem_map.mp h
      exact List.mem_of_mem_filter he
    · exact (mem_round.mp (ih h)).1

theorem pending_after_subset (s : Reader Id) (rs : List Round) :
    ∀ e ∈ (after round s rs).pending, e ∈ s.pending :=
  after_invariant (I := fun t : Reader Id => ∀ e ∈ t.pending, e ∈ s.pending) rs
    (fun _ he => he) fun _ _ _ h e he => h e (mem_round.mp he).1

section Run

variable {instanceId : Str → Except String Id} {limitSecs : Nat} {text : Str}
  {checks : Nat → Check} {c : Control Id}

/-- The keys a run reads after its control pass, each with the time of its round. -/
def runReadings (c : Control Id) (rs : List (Except String Round)) : List (Cold Id × Nat) :=
  readings (start c.pending (preamble c)) (made (start c.pending (preamble c)) rs)

theorem hitsIn_read (hc : control instanceId limitSecs checks 0 {} (lines text) = (c, .ok ()))
    (rs : List (Except String Round)) :
    hitsIn (unlines (read instanceId limitSecs text checks rs).1) =
      (runReadings c rs).map hitOf := by
  have hsound : c.Sound := control_sound ⟨by simp, by simp⟩ hc
  have hnamed : ∀ x ∈ runReadings c rs, x.1.Named := fun x hx =>
    hsound.named x.1 (mem_of_mem_readings hx)
  unfold read
  rw [hc]
  dsimp only
  cases hrun : rounds (start c.pending (preamble c)) rs with
  | mk s res =>
    have hs : s = after round (start c.pending (preamble c))
        (made (start c.pending (preamble c)) rs) := by rw [← rounds_fst, hrun]
    have hprinted : s.printed = preamble c ++ (runReadings c rs).map fun x => readOf x.2 x.1 := by
      rw [hs, printed_after]
      rfl
    cases res with
    | error e =>
      have hnone : ∀ l ∈ ([] : List Str), Silent l := by simp
      have := hitsIn_unlines (preamble_silent hsound) hnamed hnone
      rw [List.append_nil] at this
      dsimp only
      rw [hprinted]
      exact this
    | ok _ =>
      have hrest : ∀ l ∈ s.pending.map (missLine limitSecs) ++ [closing c s], Silent l := by
        intro l hl
        rcases List.mem_append.mp hl with hl | hl
        · obtain ⟨e, he, rfl⟩ := List.mem_map.mp hl
          rw [hs] at he
          exact silent_missLine limitSecs (hsound.named e (pending_after_subset _ _ e he))
        · obtain rfl := List.mem_singleton.mp hl
          exact silent_closing c s
      dsimp only
      rw [hprinted, List.append_assoc]
      exact hitsIn_unlines (preamble_silent hsound) hnamed hrest

end Run

/-! ## Which runs are shown right -/

theorem forall₂_filterMap {α β : Type*} {R : α → β → Prop} {f : α → Option β} {xs : List α} :
    List.Forall₂ R xs (xs.filterMap f) ↔ ∀ x ∈ xs, ∃ y, f x = some y ∧ R x y := by
  induction xs with
  | nil => simp
  | cons x xs ih =>
    rw [List.forall_mem_cons]
    cases hf : f x with
    | none =>
      rw [List.filterMap_cons_none hf]
      constructor
      · intro h
        have hlen := h.length_eq
        have hle := List.length_filterMap_le f xs
        rw [List.length_cons] at hlen
        omega
      · rintro ⟨⟨y, hy, -⟩, -⟩
        cases hy
    | some y =>
      rw [List.filterMap_cons_some hf, List.forall₂_cons, ih]
      simp

/-- **When the table shows the far times.** The reader's output, paired with a put file
that holds its keys, has a row for every key read, in order, with the time from the send
to the read, exactly when every one of these times is unshifted. -/
theorem far_iff {instanceId : Str → Except String Id} {limitSecs : Nat} {text put : Str}
    {checks : Nat → Check} {c : Control Id} (rs : List (Except String Round))
    (hc : control instanceId limitSecs checks 0 {} (lines text) = (c, .ok ()))
    (hput : ∀ e ∈ c.pending, (putLine (sendsOf put) e.idS).isSome) :
    List.Forall₂ (ShowsFar (sendsOf put)) (runReadings c rs)
        (pairFiles put (unlines (read instanceId limitSecs text checks rs).1)).deltas ↔
      ∀ x ∈ runReadings c rs, ∀ s, putLine (sendsOf put) x.1.idS = some s →
        Unshifted x.1.tSend x.2 s.sentNs := by
  rw [pairFiles, pair_deltas, hitsIn_read hc, List.filterMap_map, forall₂_filterMap]
  constructor
  · intro h x hx s hs
    exact (shows_iff hs).mp (h x hx)
  · intro h x hx
    obtain ⟨s, hs⟩ := Option.isSome_iff_exists.mp (hput x.1 (mem_of_mem_readings hx))
    exact (shows_iff hs).mpr (h x hx s hs)

/-- A key's line before it is sent and after, 7 ms into the epoch. -/
def mintFile : Str := "MINT A 1024 00 control".toList

def putFile : Str := "PUT A 7000000 0.4 1024".toList

/-- The key as the control pass takes it from either. -/
def keyA (tSend : Nat) : Cold Str := ⟨"A".toList, "A".toList, tSend, "1024".toList⟩

def coldCheck : Nat → Check := fun _ => { late := false, probe := .ok none }

/-- A round that reads the first key, 12 ms into the epoch. -/
def readRound : Except String Round := .ok { roundFinding [0] with hitAt := 12000000 }

/-- Read from the mint file: 5 ms to the far node. -/
theorem minted_key_far :
    List.Forall₂ (ShowsFar (sendsOf putFile)) (runReadings { pending := [keyA 0] } [readRound])
      (pairFiles putFile (unlines (read .ok 60 mintFile coldCheck [readRound]).1)).deltas := by
  refine (far_iff [readRound] (by rfl) (by decide +kernel)).mpr fun x hx s hs => ?_
  have hread : runReadings { pending := [keyA 0] } [readRound] = [(keyA 0, 12000000)] := by
    decide +kernel
  have hsent : (putLine (sendsOf putFile) (keyA 0).idS).map Send.sentNs = some 7000000 := by
    decide +kernel
  rw [hread] at hx
  obtain rfl := List.mem_singleton.mp hx
  rw [hs, Option.map_some, Option.some.injEq] at hsent
  rw [hsent]
  exact unshifted_mint.mpr (by decide +kernel)

/-- Read from the put file itself: the send time is subtracted twice, and the pair is
refused as a hit that precedes its send. -/
theorem sent_key_refused :
    control .ok 60 coldCheck 0 {} (lines putFile) =
        ({ pending := [keyA 7000000] }, .ok ()) ∧
      (read .ok 60 putFile coldCheck [readRound]).1[2]? = some "READ A 1024 5.0".toList ∧
      pairFiles putFile (unlines (read .ok 60 putFile coldCheck [readRound]).1) =
        { deltas := [], refusedNegative := 1, unmatched := 0 } ∧
      ¬ List.Forall₂ (ShowsFar (sendsOf putFile))
        (runReadings { pending := [keyA 7000000] } [readRound])
        (pairFiles putFile (unlines (read .ok 60 putFile coldCheck [readRound]).1)).deltas := by
  have hread : (runReadings { pending := [keyA 7000000] } [readRound]).length = 1 := by
    decide +kernel
  have hpair : pairFiles putFile (unlines (read .ok 60 putFile coldCheck [readRound]).1) =
      { deltas := [], refusedNegative := 1, unmatched := 0 } := by decide +kernel
  refine ⟨rfl, by decide +kernel, hpair, fun h => ?_⟩
  have := h.length_eq
  rw [hread, hpair] at this
  cases this

end FreenetHarness.XNode
