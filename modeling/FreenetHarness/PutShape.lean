import FreenetHarness.Latency
import FreenetHarness.Lib.Rounds

/-! # `put-shape`: when each piece first reads back

The keys are probed in turn on one connection, so the answer to one probe can come during
another. `poll_counts_iff` says when no answer for a key still outstanding goes uncounted;
that none is counted for another key, and no key twice, holds of every run. -/
namespace FreenetHarness.PutShape
open FreenetHarness.Lib.Inbox FreenetHarness.Lib.Run FreenetHarness.Lib.Rounds
  FreenetHarness.Latency FreenetHarness.Stats

/-- What the turn of one key meets: the clock as the deadline is checked, how its request
settles, the clock its probe is bounded from, and the one at the first look at the
connection. -/
structure Turn where
  now : Nat
  sent : Except String Unit
  probed : Nat
  clock : Nat

variable {Key : Type}

/-- When a probe was answered, from the message that ended it or from none. -/
def answeredAt : Option (Arrival (Message Key)) → Option Nat
  | some ⟨.response _, _, clock⟩ => some clock
  | _ => none

section Poll

variable [DecidableEq Key] (want : Key → Option Bytes)

/-- What ends the probe of a key: its own exact answer, or an error. -/
def ends (key : Key) : Message Key → Bool
  | .error _ _ => true
  | .response (.getResponse k state) => want k = some state ∧ k = key
  | .response _ => false

variable (t0 deadline probe : Nat)

/-- The bounded wait of one probe. -/
def probeScan (inbox : List (Arrival (Message Key))) (key : Key) (m : Turn) :
    Scan (Message Key) :=
  scan (ends want key) (m.probed + probe) m.clock inbox

/-- One turn: the messages it leaves, and when the key read back if it did. -/
def turn (inbox : List (Arrival (Message Key))) (key : Key) (m : Turn) :
    Except String (List (Arrival (Message Key)) × Option ℚ) :=
  if deadline ≤ m.now then .ok (inbox, none)
  else match m.sent with
  | .error e => .error e
  | .ok () =>
    let s := probeScan want probe inbox key m
    .ok (s.rest, (answeredAt s.ended).map (msSince t0))

/-- Every key outstanding. -/
def polling (keys : List Key) (inbox : List (Arrival (Message Key))) :
    Progress Key (List (Arrival (Message Key))) ℚ :=
  { side := inbox, still := keys }

/-- When each piece first reads back, from the rounds that begin in time. -/
def pollReadable (keys : List Key) (inbox : List (Arrival (Message Key)))
    (rs : List (Nat → Turn)) : Except String (List ℚ) := do
  let s ← rounds (turn want t0 deadline probe) (polling keys inbox) rs
  return s.served.map Prod.snd

/-! ## What a probe takes in -/

/-- A turn that probes its key. -/
def Probes (m : Turn) : Prop := m.now < deadline ∧ m.sent = .ok ()

/-- A probe counts every exact answer it takes in for a key still outstanding, for that key. -/
def Heard (v : Visit Key (List (Arrival (Message Key))) Turn) : Prop :=
  Probes deadline v.meets →
    ∀ a ∈ (probeScan want probe v.side v.item v.meets).passed ++
        (probeScan want probe v.side v.item v.meets).ended.toList,
      ∀ key ∈ v.waiting, Exact want key a.msg →
        v.gives (turn want t0 deadline probe) = some (key, msSince t0 a.clock)

/-- Of the messages a probe can read, none before the first that ends it is an exact answer
for a key still outstanding. -/
def Clear (v : Visit Key (List (Arrival (Message Key))) Turn) : Prop :=
  Probes deadline v.meets →
    ∀ a ∈ (readable (v.meets.probed + probe) v.meets.clock v.side).takeWhile
        (fun a => !ends want v.item a.msg),
      ∀ key ∈ v.waiting, ¬ Exact want key a.msg

variable {want t0 deadline probe}

theorem ends_of_exact {key : Key} {m : Message Key} (h : Exact want key m) :
    ends want key m = true := by
  obtain ⟨state, rfl, hw⟩ := h
  simp [ends, hw]

/-- What ends a probe is an error, or an exact answer for its key. -/
theorem of_ends {key : Key} {m : Message Key} (h : ends want key m = true) :
    (∃ e cause, m = .error e cause) ∨ Exact want key m := by
  unfold ends at h
  split at h
  · exact .inl ⟨_, _, rfl⟩
  · obtain ⟨hw, rfl⟩ := of_decide_eq_true h
    exact .inr ⟨_, rfl, hw⟩
  · cases h

theorem answeredAt_eq_some {key : Key} {o : Option (Arrival (Message Key))} {clock : Nat}
    (ho : ∀ a ∈ o, ends want key a.msg = true) :
    answeredAt o = some clock ↔ ∃ a, o = some a ∧ Exact want key a.msg ∧ clock = a.clock := by
  constructor
  · intro h
    unfold answeredAt at h
    split at h
    · cases h
      refine ⟨_, rfl, ?_, rfl⟩
      obtain ⟨e, cause, he⟩ | hx := of_ends (ho _ rfl)
      · cases he
      · exact hx
    · cases h
  · rintro ⟨⟨m, arrives, clock'⟩, rfl, ⟨state, hm, -⟩, rfl⟩
    cases hm
    rfl

theorem gives_of_probes {v : Visit Key (List (Arrival (Message Key))) Turn}
    (h : Probes deadline v.meets) :
    v.gives (turn want t0 deadline probe) =
      (answeredAt (probeScan want probe v.side v.item v.meets).ended).map
        fun clock => (v.item, msSince t0 clock) := by
  unfold Visit.gives turn
  rw [if_neg (Nat.not_le.mpr h.1), h.2]
  dsimp only
  cases answeredAt (probeScan want probe v.side v.item v.meets).ended <;> rfl

theorem gives_of_not_probes {v : Visit Key (List (Arrival (Message Key))) Turn}
    (h : ¬ Probes deadline v.meets) : v.gives (turn want t0 deadline probe) = none := by
  unfold Visit.gives turn
  by_cases hlate : deadline ≤ v.meets.now
  · rw [if_pos hlate]
  · rw [if_neg hlate]
    cases hs : v.meets.sent with
    | error e => rfl
    | ok u => exact absurd ⟨Nat.lt_of_not_le hlate, hs⟩ h

/-- **What a turn counts** is the exact answer for its key that ended its probe. -/
theorem gives_iff {v : Visit Key (List (Arrival (Message Key))) Turn} {key : Key} {x : ℚ} :
    v.gives (turn want t0 deadline probe) = some (key, x) ↔
      Probes deadline v.meets ∧ key = v.item ∧
        ∃ a, (probeScan want probe v.side v.item v.meets).ended = some a ∧
          Exact want key a.msg ∧ x = msSince t0 a.clock := by
  by_cases hp : Probes deadline v.meets
  · have hends : ∀ a ∈ (probeScan want probe v.side v.item v.meets).ended,
        ends want v.item a.msg = true := fun a ha => (of_scan_ended ha).1
    rw [gives_of_probes hp, Option.map_eq_some_iff]
    simp only [answeredAt_eq_some hends, Prod.mk.injEq, hp, true_and]
    constructor
    · rintro ⟨clock, ⟨a, ha, hx, rfl⟩, rfl, rfl⟩
      exact ⟨rfl, a, ha, hx, rfl⟩
    · rintro ⟨rfl, a, ha, hx, rfl⟩
      exact ⟨a.clock, ⟨a, ha, hx, rfl⟩, rfl, rfl⟩
  · rw [gives_of_not_probes hp]
    simp [hp]

/-! ## The answers counted -/

/-- **One turn** counts every exact answer it takes in exactly when none is for another key
that is outstanding. -/
theorem heard_iff_clear {v : Visit Key (List (Arrival (Message Key))) Turn} :
    Heard want t0 deadline probe v ↔ Clear want deadline probe v := by
  refine forall_congr' fun hp => ?_
  have hpassed := scan_passed (ends want v.item) (v.meets.probed + probe) v.meets.clock v.side
  rw [← hpassed]
  constructor
  · intro h a ha key hk hx
    obtain ⟨-, rfl, -⟩ := gives_iff.mp (h a (List.mem_append_left _ ha) key hk hx)
    rw [hpassed] at ha
    have hnot := List.mem_takeWhile_imp ha
    rw [ends_of_exact hx] at hnot
    cases hnot
  · intro h a ha key hk hx
    obtain ha | ha := List.mem_append.mp ha
    · exact absurd hx (h a ha key hk)
    · have ha := Option.mem_toList.mp ha
      obtain ⟨e, cause, he⟩ | hown := of_ends (of_scan_ended ha).1
      · obtain ⟨state, hm, -⟩ := hx
        cases he.symm.trans hm
      · obtain ⟨state, hm, -⟩ := hx
        obtain ⟨state', hm', hw'⟩ := hown
        cases hm'.symm.trans hm
        exact gives_iff.mpr ⟨hp, rfl, a, ha, ⟨_, hm', hw'⟩, rfl⟩

/-- **Every run.** Every exact answer taken in for an outstanding key is counted for it
exactly when none comes during the probe of another. In every run the outstanding keys are
those not counted yet, no key is counted twice, and what is counted for a key is an exact
answer naming it, taken in by its own probe. -/
theorem poll_counts_iff (want : Key → Option Bytes) (t0 deadline probe : Nat) {keys : List Key}
    (inbox : List (Arrival (Message Key))) (rs : List (Nat → Turn)) (hd : keys.Nodup) :
    let serve := turn want t0 deadline probe
    let vs := visits serve (polling keys inbox) rs
    ((∀ v ∈ vs, Heard want t0 deadline probe v) ↔ ∀ v ∈ vs, Clear want deadline probe v) ∧
      (∀ pre v post, vs = pre ++ v :: post →
        ((pre.filterMap (Visit.gives serve)).map Prod.fst ++ v.waiting).Perm keys) ∧
      ∀ out, pollReadable want t0 deadline probe keys inbox rs = .ok out →
        ∃ counted : List (Key × ℚ), out = counted.map Prod.snd ∧
          counted = vs.filterMap (Visit.gives serve) ∧
          (counted.map Prod.fst).Nodup ∧ (∀ p ∈ counted, p.1 ∈ keys) ∧
          ∀ p ∈ counted, ∃ v ∈ vs, v.item = p.1 ∧
            ∃ a, (probeScan want probe v.side v.item v.meets).ended = some a ∧
              Exact want p.1 a.msg ∧ p.2 = msSince t0 a.clock := by
  intro serve vs
  refine ⟨forall_congr' fun v => forall_congr' fun _ => heard_iff_clear, ?_, ?_⟩
  · intro pre v post h
    exact waiting_perm h
  · intro out h
    obtain ⟨s, hs, h⟩ := bind_eq_ok.mp h
    cases h
    have hperm : (s.served.map Prod.fst ++ s.still).Perm keys := rounds_perm hs
    have hserved : s.served = vs.filterMap (Visit.gives serve) := served_eq hs
    refine ⟨s.served, rfl, hserved, ?_, ?_, ?_⟩
    · exact (List.nodup_append.mp (hperm.nodup_iff.mpr hd)).1
    · intro p hp
      exact hperm.mem_iff.mp (List.mem_append_left _ (List.mem_map_of_mem hp))
    · intro p hp
      rw [hserved] at hp
      obtain ⟨v, hv, hgives⟩ := List.mem_filterMap.mp hp
      obtain ⟨-, hitem, a, ha, hx, hms⟩ := gives_iff.mp hgives
      exact ⟨v, hv, hitem.symm, a, ha, hx, hms⟩

end Poll

/-! ## An answer during another probe -/

/-- What is wanted for keys 1 and 2. -/
def wantTwo : Nat → Option Bytes
  | 1 => some [10]
  | 2 => some [20]
  | _ => none

/-- Each key probed once, the second right after the first. -/
def oneRound : Nat → Turn := fun i =>
  { now := 100 * i, sent := .ok (), probed := 100 * i, clock := 100 * i }

/-- Key 1 is answered during the probe of key 2. -/
def answeredLate : List (Arrival (Message Nat)) :=
  [⟨.response (.getResponse 1 [10]), 120, 120⟩, ⟨.response (.getResponse 2 [20]), 195, 195⟩]

/-- The answer for key 1 is taken in while key 1 is outstanding, and key 1 is not counted. -/
theorem late_answer_uncounted :
    (∃ v ∈ visits (turn wantTwo 0 200 100) (polling [1, 2] answeredLate) [oneRound],
      Probes 200 v.meets ∧ 1 ∈ v.waiting ∧
        ∃ a ∈ (probeScan wantTwo 100 v.side v.item v.meets).passed, Exact wantTwo 1 a.msg) ∧
      ∃ s, rounds (turn wantTwo 0 200 100) (polling [1, 2] answeredLate) [oneRound] = .ok s ∧
        s.served.map Prod.fst = [2] := by
  refine ⟨⟨⟨[1, 2], answeredLate, 2, oneRound 1⟩, ?_, ?_, ?_, ?_⟩, _, rfl, rfl⟩
  · exact List.mem_cons_of_mem _ (List.mem_cons_self ..)
  · exact ⟨by decide, rfl⟩
  · decide
  · exact ⟨_, List.mem_cons_self .., [10], rfl, rfl⟩

/-- Each key answered during its own probe. -/
theorem poll_counts_two :
    let answered : List (Arrival (Message Nat)) :=
      [⟨.response (.getResponse 1 [10]), 20, 20⟩, ⟨.response (.getResponse 2 [20]), 195, 195⟩]
    let vs := visits (turn wantTwo 0 200 100) (polling [1, 2] answered) [oneRound]
    (∀ v ∈ vs, Heard wantTwo 0 200 100 v) ↔ ∀ v ∈ vs, Clear wantTwo 200 100 v :=
  (poll_counts_iff wantTwo 0 200 100 _ [oneRound] (by decide)).1

end FreenetHarness.PutShape
