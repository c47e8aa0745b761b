import FreenetHarness.Parity.Write

/-! # The complete file of a run, read back

What a run sent is told from its plan and what it met (`blocksSent`), and what became of
it from the connection (`ackTime`). `parseGroups_collected` says that the file gives back
both. -/
namespace FreenetHarness.Parity
open FreenetHarness.Lib.Text FreenetHarness.Lib.Number FreenetHarness.Lib.Run

/-! ## What a run sends -/

/-- One block as it is sent, its outcome unknown. -/
def blockSent (gid : Nat) (m : UInt64) (arm : Arm) (idx : Nat) (e : SendEnv) : Block :=
  { seed := e.seed, gid := UInt64.ofNat gid, m, arm, idx := UInt64.ofNat idx
    parity := m ≤ UInt64.ofNat idx, key := e.key, tSend := e.tSend, ack := .never
    size := e.stateLen }

def groupSent (parity : UInt64) (gid : Nat) (m : UInt64) (arm : Arm) (e : GroupEnv) : List Block :=
  (List.range (m + parity).toNat).map fun idx => blockSent gid m arm idx (e.send idx)

/-- The blocks of the groups that begin within the budget, in send order. -/
def groupsSent (parity : UInt64) (env : Nat → GroupEnv) : Nat → List (UInt64 × Arm) → List Block
  | _, [] => []
  | gid, (m, arm) :: rest =>
    if (env gid).overBudget then []
    else groupSent parity gid m arm (env gid) ++ groupsSent parity env (gid + 1) rest

/-- The blocks of a run. -/
def blocksSent (o : Opts) (env : Nat → GroupEnv) : List Block := groupsSent o.parity env 0 (plan o)

theorem sendBlock_blocks {gid idx : Nat} {m : UInt64} {arm : Arm} {e : SendEnv} {r r' : Run}
    (h : sendBlock gid m arm idx e r = .ok r') :
    blocks r'.entries = blocks r.entries ++ [blockSent gid m arm idx e] := by
  unfold sendBlock at h
  split at h
  · cases h
  · cases h
    exact blocks_append r.entries _

theorem arrive_blocks (r : Run) (a : Arrival) : blocks (arrive r a).entries = blocks r.entries := by
  cases a with
  | get k => rfl
  | other => rfl
  | put k clock =>
    unfold arrive
    dsimp only
    split
    · split
      · rfl
      · simp [blocks, Entry.block?]
    · rfl

theorem drainAcks_blocks (want : Nat) (closed : Bool) (as : List Arrival) (r : Run) :
    blocks (drainAcks want closed as r).1.entries = blocks r.entries := by
  induction as generalizing r with
  | nil =>
    unfold drainAcks
    split <;> rfl
  | cons a as ih =>
    unfold drainAcks
    split
    · rfl
    · rw [ih, arrive_blocks]

theorem drainTail_blocks (ds : List Drain) (r : Run) :
    blocks (drainTail ds r).entries = blocks r.entries := by
  induction ds generalizing r with
  | nil => rfl
  | cons d ds ih =>
    have hd := drainAcks_blocks r.nBlocks d.closed d.arrivals r
    unfold drainTail
    split
    · rfl
    · split
      · rename_i heq
        rw [heq] at hd
        rw [ih, hd]
      · rename_i heq
        rw [heq] at hd
        exact hd

theorem sends_blocks {gid : Nat} {m : UInt64} {arm : Arm} {send : Nat → SendEnv} {ns : List Nat}
    {r r' : Run} (h : ns.foldlM (fun r idx => sendBlock gid m arm idx (send idx) r) r = .ok r') :
    blocks r'.entries =
      blocks r.entries ++ ns.map fun idx => blockSent gid m arm idx (send idx) := by
  induction ns generalizing r with
  | nil =>
    cases h
    simp
  | cons n ns ih =>
    rw [List.foldlM_cons] at h
    obtain ⟨s, hs, h⟩ := bind_eq_ok.mp h
    rw [ih h, sendBlock_blocks hs, List.map_cons, List.append_assoc, List.singleton_append]

theorem writeGroups_blocks {parity : UInt64} {env : Nat → GroupEnv} {plan : List (UInt64 × Arm)}
    {gid : Nat} {r r' : Run} (h : writeGroups parity env gid plan r = .ok r') :
    blocks r'.entries = blocks r.entries ++ groupsSent parity env gid plan := by
  induction plan generalizing gid r with
  | nil =>
    cases h
    simp [groupsSent]
  | cons g rest ih =>
    obtain ⟨m, arm⟩ := g
    unfold writeGroups at h
    unfold groupsSent
    split at h
    · rename_i hover
      cases h
      rw [if_pos hover, List.append_nil]
    · rename_i hover
      obtain ⟨s, hs, h⟩ := bind_eq_ok.mp h
      obtain ⟨t, ht, hs⟩ := bind_eq_ok.mp hs
      cases hs
      rw [if_neg hover, ih h, drainAcks_blocks, sends_blocks ht, List.append_assoc]
      rfl

/-- What a run has recorded is what it sent. -/
theorem collect_blocks {o : Opts} {env : Nat → GroupEnv} {tail : List Drain} {r : Run}
    (h : collect o env tail = .ok r) : blocks r.entries = blocksSent o env := by
  obtain ⟨s, hs, h⟩ := bind_eq_ok.mp h
  cases h
  rw [drainTail_blocks, writeGroups_blocks hs]
  rfl

/-! ## What becomes of a block -/

/-- The clock at which a message acknowledges the key. -/
def putClock (key : Str) : Happened → Option ℚ
  | .arrived (.put k clock) => if k = key then some clock else none
  | _ => none

theorem measure_unsent {key : Str} {hs : List Happened} (h : key ∉ sentKeys hs) :
    after (measure key) (none, none) hs = (none, none) := by
  have hone := (measured key hs).sent
  have htwo := (measured key hs).acked
  cases hm : after (measure key) (none, none) hs with
  | mk s a =>
    rw [hm] at hone htwo
    cases s with
    | some t => exact absurd (hone t rfl) h
    | none =>
      cases a with
      | some ms => exact absurd (htwo ms rfl).2.1 h
      | none => rfl

theorem measure_after_send {key : Str} {t : ℚ} {o : Option ℚ} {hs : List Happened}
    (h : key ∉ sentKeys hs) :
    after (measure key) (some t, o) hs =
      (some t, o.or ((hs.findSome? (putClock key)).map fun clock => elapsed t clock)) := by
  induction hs generalizing o with
  | nil => simp
  | cons e hs ih =>
    have hrest : key ∉ sentKeys hs := fun hm => h (by
      rw [← List.singleton_append, sentKeys_append]
      exact List.mem_append_right _ hm)
    rw [after_cons, List.findSome?_cons]
    cases e with
    | sent k clock =>
      have hk : ¬ k = key := by
        rintro rfl
        exact h (mem_sentKeys.mpr ⟨clock, by simp⟩)
      rw [measure_sent, if_neg hk, ih hrest]
      rfl
    | arrived msg =>
      cases msg with
      | get k => exact ih hrest
      | other => exact ih hrest
      | put k clock =>
        rw [measure_put]
        by_cases hk : k = key
        · rw [if_pos hk, ih hrest]
          simp [putClock, hk]
        · rw [if_neg hk, ih hrest]
          simp [putClock, hk]

/-- For a key that is sent once, the time is that of the first acknowledgement naming it
that is read after the send. -/
theorem ackTime_sent_once {key : Str} {t : ℚ} {hs ks : List Happened} (hh : key ∉ sentKeys hs)
    (hk : key ∉ sentKeys ks) :
    ackTime key (hs ++ .sent key t :: ks) =
      (ks.findSome? (putClock key)).map fun clock => elapsed t clock := by
  rw [ackTime, after_append, measure_unsent hh, after_cons, measure_sent, if_pos rfl,
    measure_after_send hk]
  rfl

/-- The time of a key's first acknowledgement as it is printed. -/
def printedAck (key : Str) (hs : List Happened) : Option F64 :=
  (ackTime key hs).map fun ms => .fin (tenths ms / 10)

/-- A block with its outcome: the printed time of its first acknowledgement, against the
printed bound. -/
def outcome (o : Opts) (hs : List Happened) (b : Block) : Block :=
  { b with ack := judge (.fin o.boundMs) (printedAck b.key hs) }

/-- **The complete file.** It gives back every block the run sent, in send order and as it
was sent, each with its outcome; and a file nothing was sent for is refused. -/
theorem parseGroups_collected {o : Opts} {env : Nat → GroupEnv} {tail : List Drain} {r : Run}
    (hk : ∀ gid idx, IsWord ((env gid).send idx).key) (hr : collect o env tail = .ok r)
    (path : String) :
    parseGroups path (.ok (encode (fileText o.boundMs r.entries))) =
      if blocksSent o env = [] then
        .error (.bail s!"{path}: no GROUP lines — the write role wrote nothing")
      else .ok ((blocksSent o env).map (outcome o r.happened)) := by
  have h := collect_kept hk hr
  have hb := collect_blocks hr
  rw [parseGroups_file path o.boundMs h.written]
  split
  · rename_i hnil
    exact parseLines_no_blocks path o.boundMs h.written (hb.trans hnil)
  · rename_i hne
    rw [parseLines_written path o.boundMs h.written (hb ▸ hne), readBack, hb]
    congr 1
    apply List.map_congr_left
    intro b _
    rw [outcome, printedAck, ← h.ackTime, h.acks]

/-- The four blocks of `runTwo`: a repeated acknowledgement is not counted, the one past the
bound is late, and the key nothing was sent under is nowhere. -/
theorem parseGroups_two :
    parseGroups "groups.txt" (.ok (encode (fileText twoGroups.boundMs runTwo.entries))) =
      .ok [{ blockSent 0 1 .full 0 ((sendTwo 0).send 0) with ack := .within (.fin 1200) },
        { blockSent 0 1 .full 1 ((sendTwo 0).send 1) with ack := .late (.fin 31499) },
        { blockSent 1 1 .control 0 ((sendTwo 1).send 0) with ack := .within (.fin 500) },
        blockSent 1 1 .control 1 ((sendTwo 1).send 1)] := by
  rw [parseGroups_collected isWord_sendTwo collect_two]
  decide +kernel

/-- A plan without groups: the run sends nothing and its file is refused. -/
theorem empty_plan_refused :
    collect { oneBlock with groups := 0 } sendA [] = .ok {} ∧
      blocksSent { oneBlock with groups := 0 } sendA = [] ∧
      parseGroups "groups.txt" (.ok (encode (fileText oneBlock.boundMs ({} : Run).entries))) =
        .error (.bail "groups.txt: no GROUP lines — the write role wrote nothing") := by
  refine ⟨rfl, rfl, ?_⟩
  rw [parseGroups_file _ _ fun _ h => absurd h List.not_mem_nil]
  exact parseLines_no_blocks _ _ (fun _ h => absurd h List.not_mem_nil) rfl

end FreenetHarness.Parity
