import FreenetHarness.XNode.ReadPair

/-! # What becomes of every key line

A key line the reader accepts is void, read or missed, and one line says so. The pending
list is turned and thinned on the way; `read_fates` says that nothing is lost from it, and
nothing said twice, whatever is listed more than once. -/
namespace FreenetHarness.XNode
open FreenetHarness.Lib.Run FreenetHarness.Lib.Text FreenetHarness.Lib.Number
  FreenetHarness.Stats

variable {Id : Type}

/-! ## Accepted lines -/

/-- The probe of a line's control was answered. -/
def Check.answered (c : Check) : Bool :=
  match c.probe with
  | .ok (some _) => true
  | _ => false

/-- What a keys file says of a key; its id is not looked up yet. -/
abbrev Listed := Cold Unit

def listed (l : Str) : Option Listed :=
  (keyLine l).map fun k => { idS := k.1, id := (), tSend := k.2.1, size := k.2.2 }

/-- What the file says of a key that is probed. -/
def Cold.listed (e : Cold Id) : Listed := { e with id := () }

/-- The accepted lines, and whether the control probe of each answered. The first of the
lines meets `checks n`. -/
def accepted (checks : Nat → Check) : Nat → List Str → List (Listed × Bool)
  | _, [] => []
  | n, l :: ls =>
    ((listed l).map fun k => (k, (checks n).answered)).toList ++ accepted checks (n + 1) ls

/-- What becomes of an accepted line. -/
inductive Fate where
  | void
  | read (hitAt : Nat)
  | miss
  deriving DecidableEq

def Fate.isRead : Fate → Bool
  | .read _ => true
  | _ => false

/-- The line that says so. -/
def fateLine (limitSecs : Nat) (x : Listed × Fate) : Str :=
  match x.2 with
  | .void => voidLine x.1.idS x.1.size
  | .read hitAt => readOf hitAt x.1
  | .miss => missLine limitSecs x.1

def isRecord (l : Str) : Bool :=
  (words l).head? ∈ [some "VOID".toList, some "READ".toList, some "MISS".toList]

/-! ## The control pass -/

section Control

variable {instanceId : Str → Except String Id} {limitSecs : Nat} {checks : Nat → Check}

/-- The control pass has sorted these lines. -/
structure Control.Sorted (c : Control Id) (xs : List (Listed × Bool)) : Prop where
  pending : c.pending.map Cold.listed = (xs.filter fun x => !x.2).map Prod.fst
  printed : c.printed = (xs.filter Prod.snd).map fun x => voidLine x.1.idS x.1.size
  warm : c.warmAtStart = xs.countP Prod.snd

theorem Control.Sorted.cold {c : Control Id} {xs : List (Listed × Bool)} {k : Listed}
    (h : c.Sorted xs) {e : Cold Id} (he : e.listed = k) :
    Control.Sorted { c with pending := c.pending ++ [e] } (xs ++ [(k, false)]) := by
  refine ⟨?_, ?_, ?_⟩
  · rw [List.map_append, h.pending]
    simp [he]
  · rw [h.printed]
    simp
  · rw [h.warm]
    simp

theorem Control.Sorted.warmed {c : Control Id} {xs : List (Listed × Bool)} (h : c.Sorted xs)
    (k : Listed) :
    Control.Sorted { c with
      warmAtStart := c.warmAtStart + 1
      printed := c.printed ++ [voidLine k.idS k.size] } (xs ++ [(k, true)]) := by
  refine ⟨?_, ?_, ?_⟩
  · rw [h.pending]
    simp
  · rw [h.printed]
    simp
  · rw [h.warm]
    simp

theorem controlLine_sorted {n : Nat} {c c' : Control Id} {l : Str} {xs : List (Listed × Bool)}
    (hc : c.Sorted xs) (h : controlLine instanceId limitSecs (checks n) c l = .ok c') :
    c'.Sorted (xs ++ ((listed l).map fun k => (k, (checks n).answered)).toList) := by
  unfold controlLine at h
  split at h
  · cases h
  split at h
  · rename_i hk
    cases h
    simpa [listed, hk] using hc
  rename_i idS tSend size hk
  have hl : listed l = some { idS, id := (), tSend, size } := by rw [listed, hk]; rfl
  rw [hl, Option.map_some, Option.toList_some]
  split at h
  · cases h
  split at h
  · cases h
  · rename_i hp
    cases h
    rw [show (checks n).answered = true by simp [Check.answered, hp]]
    exact hc.warmed { idS, id := (), tSend, size }
  · rename_i hp
    cases h
    rw [show (checks n).answered = false by simp [Check.answered, hp]]
    exact hc.cold rfl

theorem control_sorted {n : Nat} {c c' : Control Id} {ls : List Str} {xs : List (Listed × Bool)}
    (hc : c.Sorted xs) (h : control instanceId limitSecs checks n c ls = (c', .ok ())) :
    c'.Sorted (xs ++ accepted checks n ls) := by
  induction ls generalizing n c xs with
  | nil =>
    cases h
    rwa [accepted, List.append_nil]
  | cons l ls ih =>
    rw [control] at h
    cases hl : controlLine instanceId limitSecs (checks n) c l with
    | error e => rw [hl] at h; cases h
    | ok d =>
      rw [hl] at h
      rw [accepted, ← List.append_assoc]
      exact ih (controlLine_sorted hc hl) h

end Control

/-! ## The rounds -/

section Rounds

variable [DecidableEq Id]

theorem round_perm (s : Reader Id) (r : Round) :
    (readIn s r ++ (round s r).pending).Perm s.pending :=
  List.filter_append_perm _ _

/-- **Conservation.** The keys that were read and those still pending are the keys there
were, as often as they were there. -/
theorem readings_perm (s : Reader Id) (rs : List Round) :
    ((readings s rs).map Prod.fst ++ (after round s rs).pending).Perm s.pending := by
  induction rs generalizing s with
  | nil => simp [readings]
  | cons r rs ih =>
    have hfst : ((readIn s r).map fun e => (e, r.hitAt)).map Prod.fst = readIn s r := by
      simp [Function.comp_def]
    rw [readings, List.map_append, hfst, after_cons, List.append_assoc]
    exact ((ih (round s r)).append_left _).trans (round_perm s r)

theorem firstReads_after (s : Reader Id) (rs : List Round) :
    (after round s rs).firstReads.length = s.firstReads.length + (readings s rs).length := by
  induction rs generalizing s with
  | nil => rfl
  | cons r rs ih =>
    rw [after_cons, ih, readings]
    simp [round]
    omega

end Rounds

/-! ## The lines -/

theorem isRecord_iff_tag {tag w : Str} {ws : List Str} (ht : IsWord tag) :
    isRecord (unwords (tag :: w :: ws)) =
      decide (some tag ∈ [some "VOID".toList, some "READ".toList, some "MISS".toList]) := by
  have hsplit : unwords (tag :: w :: ws) = tag ++ ' ' :: unwords (w :: ws) := by
    simp [unwords, List.intercalate_cons_cons]
  rw [isRecord, hsplit, words_tag ht, List.head?_cons]

theorem isRecord_fateLine (limitSecs : Nat) (x : Listed × Fate) :
    isRecord (fateLine limitSecs x) = true := by
  unfold fateLine
  split
  · exact (isRecord_iff_tag (by decide)).trans (by decide)
  · exact (isRecord_iff_tag (by decide)).trans (by decide)
  · exact (isRecord_iff_tag (by decide)).trans (by decide)

theorem isRecord_comment (pieces : List Str) : isRecord (comment pieces) = false := by
  rw [isRecord, show comment pieces = ['#'] ++ ' ' :: pieces.flatten from rfl,
    words_tag (by decide), List.head?_cons]
  decide

section Run

variable [DecidableEq Id] {instanceId : Str → Except String Id} {limitSecs : Nat} {text : Str}
  {checks : Nat → Check}

/-- The lines of a run with what became of them, in the order they were printed. -/
def fated (checks : Nat → Check) (text : Str) (c : Control Id) (rs : List Round) :
    List (Listed × Fate) :=
  (((accepted checks 0 (lines text)).filter Prod.snd).map fun x => (x.1, .void)) ++
    ((readings (start c.pending (preamble c)) rs).map fun x => (x.1.listed, .read x.2)) ++
    ((after round (start c.pending (preamble c)) rs).pending.map fun e => (e.listed, .miss))

theorem filter_voided (xs : List (Listed × Bool)) :
    ((xs.filter Prod.snd).map fun x => (x.1, true)) = xs.filter Prod.snd ∧
      (((xs.filter fun x => !x.2).map Prod.fst).map fun k => (k, false)) =
        xs.filter fun x => !x.2 := by
  constructor
  · refine (List.map_congr_left fun x hx => ?_).trans (List.map_id _)
    rw [← (List.mem_filter.mp hx).2]
    rfl
  · rw [List.map_map]
    refine (List.map_congr_left fun x hx => ?_).trans (List.map_id _)
    have hx : x.2 = false := by simpa using (List.mem_filter.mp hx).2
    exact Prod.ext rfl hx.symm

/-- The lines with their fates are the accepted lines, void where the probe answered. -/
theorem fated_perm {c : Control Id} (hc : c.Sorted (accepted checks 0 (lines text)))
    (rs : List Round) :
    ((fated checks text c rs).map fun x => (x.1, decide (x.2 = .void))).Perm
      (accepted checks 0 (lines text)) := by
  obtain ⟨hvoid, hcold⟩ := filter_voided (accepted checks 0 (lines text))
  have hpend : (((readings (start c.pending (preamble c)) rs).map Prod.fst ++
      (after round (start c.pending (preamble c)) rs).pending).map fun e =>
        (e.listed, false)).Perm ((accepted checks 0 (lines text)).filter fun x => !x.2) := by
    have h := (readings_perm (start c.pending (preamble c)) rs).map fun e => (e.listed, false)
    rw [← hcold, ← hc.pending, List.map_map]
    exact h
  have hsplit : ((fated checks text c rs).map fun x => (x.1, decide (x.2 = .void))) =
      (accepted checks 0 (lines text)).filter Prod.snd ++
        ((readings (start c.pending (preamble c)) rs).map Prod.fst ++
          (after round (start c.pending (preamble c)) rs).pending).map fun e =>
            (e.listed, false) := by
    rw [← hvoid]
    simp [fated, Function.comp_def]
  rw [hsplit]
  exact (hpend.append_left _).trans (List.filter_append_perm _ _)

/-- What a run that ends well prints. -/
theorem read_eq {c : Control Id} {rs : List (Except String Round)}
    (hc : control instanceId limitSecs checks 0 {} (lines text) = (c, .ok ()))
    (h : (read instanceId limitSecs text checks rs).2 = .ok ()) :
    let s := start c.pending (preamble c)
    (read instanceId limitSecs text checks rs).1 =
      preamble c ++ ((readings s (made s rs)).map fun x => readOf x.2 x.1) ++
        (after round s (made s rs)).pending.map (missLine limitSecs) ++
          [closing c (after round s (made s rs))] := by
  unfold read at h ⊢
  rw [hc] at h ⊢
  dsimp only at h ⊢
  cases hrun : rounds (start c.pending (preamble c)) rs with
  | mk s res =>
    have hs : s = after round (start c.pending (preamble c))
        (made (start c.pending (preamble c)) rs) := by rw [← rounds_fst, hrun]
    cases res with
    | error e => rw [hrun] at h; cases h
    | ok _ =>
      dsimp only
      rw [hs, printed_after]
      rfl

theorem records_eq {c : Control Id} (hc : c.Sorted (accepted checks 0 (lines text)))
    (rs : List Round) (last : List Str) :
    let s := start c.pending (preamble c)
    (preamble c ++ ((readings s rs).map fun x => readOf x.2 x.1) ++
        (after round s rs).pending.map (missLine limitSecs) ++ [comment last]).filter isRecord =
      (fated checks text c rs).map (fateLine limitSecs) := by
  intro s
  have hprinted : c.printed =
      (((accepted checks 0 (lines text)).filter Prod.snd).map fun x =>
        ((x.1, .void) : Listed × Fate)).map (fateLine limitSecs) := by
    rw [hc.printed, List.map_map]
    rfl
  have hreads : ((readings s rs).map fun x => readOf x.2 x.1) =
      ((readings s rs).map fun x => ((x.1.listed, .read x.2) : Listed × Fate)).map
        (fateLine limitSecs) := by
    rw [List.map_map]
    rfl
  have hmisses : (after round s rs).pending.map (missLine limitSecs) =
      ((after round s rs).pending.map fun e => ((e.listed, .miss) : Listed × Fate)).map
        (fateLine limitSecs) := by
    rw [List.map_map]
    rfl
  have hall : ∀ xs : List (Listed × Fate),
      (xs.map (fateLine limitSecs)).filter isRecord = xs.map (fateLine limitSecs) := by
    intro xs
    rw [List.filter_eq_self, List.forall_mem_map]
    exact fun x _ => isRecord_fateLine limitSecs x
  have hcomments : [controlDone c, probeGrid c.pending].filter isRecord = [] := by
    rw [controlDone, probeGrid]
    simp [isRecord_comment]
  rw [preamble, hprinted, hreads, hmisses]
  simp only [List.filter_append, hall, hcomments, List.append_nil]
  rw [fated, List.map_append, List.map_append]
  simp [isRecord_comment, s]

theorem control_of_read {rs : List (Except String Round)}
    (h : (read instanceId limitSecs text checks rs).2 = .ok ()) :
    ∃ c, control instanceId limitSecs checks 0 {} (lines text) = (c, .ok ()) := by
  unfold read at h
  cases hc : control instanceId limitSecs checks 0 {} (lines text) with
  | mk c res =>
    cases res with
    | error e => rw [hc] at h; cases h
    | ok _ => exact ⟨c, rfl⟩

/-- The counts of the closing line. -/
theorem fated_counts {c : Control Id} (hc : c.Sorted (accepted checks 0 (lines text)))
    (rs : List Round) :
    let s := after round (start c.pending (preamble c)) rs
    let xs := fated checks text c rs
    c.warmAtStart = xs.countP (fun x => decide (x.2 = .void)) ∧
      s.firstReads.length = xs.countP (fun x => x.2.isRead) ∧
      s.pending.length = xs.countP (fun x => decide (x.2 = .miss)) ∧
      c.pending.length = s.firstReads.length + s.pending.length := by
  intro s xs
  have hreads : s.firstReads.length = (readings (start c.pending (preamble c)) rs).length :=
    (firstReads_after _ rs).trans (Nat.zero_add _)
  refine ⟨?_, ?_, ?_, ?_⟩
  · rw [hc.warm, List.countP_eq_length_filter]
    simp [xs, fated, List.countP_map, Function.comp_def]
  · rw [hreads]
    simp [xs, fated, List.countP_map, Function.comp_def, Fate.isRead]
  · simp [xs, s, fated, List.countP_map, Function.comp_def]
  · rw [hreads, ← List.length_map Prod.fst, ← List.length_append]
    exact (readings_perm (start c.pending (preamble c)) rs).length_eq.symm

/-- **Every key line has one fate.** A run that passes its control and ends well prints, for
each accepted line, a `VOID`, a `READ` or a `MISS` and no other record, `VOID` for those
whose control probe answered; what it counts as cold is what it counts as read and missed. -/
theorem read_fates {rs : List (Except String Round)}
    (h : (read instanceId limitSecs text checks rs).2 = .ok ()) :
    ∃ xs : List (Listed × Fate),
      (xs.map fun x => (x.1, decide (x.2 = .void))).Perm (accepted checks 0 (lines text)) ∧
      (read instanceId limitSecs text checks rs).1.filter isRecord = xs.map (fateLine limitSecs) ∧
      (read instanceId limitSecs text checks rs).1.getLast? = some (
        let reads := xs.countP fun x => x.2.isRead
        let misses := xs.countP fun x => decide (x.2 = .miss)
        comment ["cold-confirmed=".toList, digits (reads + misses),
          " void(warm at start)=".toList, digits (xs.countP fun x => decide (x.2 = .void)),
          " read=".toList, digits reads, " missed=".toList, digits misses]) := by
  obtain ⟨c, hc⟩ := control_of_read h
  have hsorted : c.Sorted ([] ++ accepted checks 0 (lines text)) :=
    control_sorted ⟨rfl, rfl, rfl⟩ hc
  rw [List.nil_append] at hsorted
  have hout := read_eq hc h
  obtain ⟨hvoid, hread, hmiss, hcold⟩ :=
    fated_counts hsorted (made (start c.pending (preamble c)) rs)
  refine ⟨fated checks text c (made (start c.pending (preamble c)) rs),
    fated_perm hsorted _, ?_, ?_⟩
  · rw [hout]
    exact records_eq hsorted _ _
  · rw [hout, List.getLast?_concat]
    simp only [closing]
    rw [← hvoid, ← hread, ← hmiss, hcold, Nat.add_sub_cancel_left]

end Run

/-- Three keys, one of them listed twice: the first line answers its control probe. -/
def threeKeys : Str := "MINT A 1024\nMINT B 1024\nMINT B 1024\nMINT C 1024".toList

def warmFirst (n : Nat) : Check :=
  { late := false, probe := .ok (if n = 0 then some 1024 else none) }

/-- One round reads key B, on both of its lines, and key C is missed. -/
theorem read_fates_three :
    ∃ xs : List (Listed × Fate),
      (xs.map fun x => (x.1, decide (x.2 = .void))).Perm
        (accepted warmFirst 0 (lines threeKeys)) ∧
      (read .ok 60 threeKeys warmFirst [readRound]).1.filter isRecord = xs.map (fateLine 60) ∧
      (read .ok 60 threeKeys warmFirst [readRound]).1.getLast? = some (
        let reads := xs.countP fun x => x.2.isRead
        let misses := xs.countP fun x => decide (x.2 = .miss)
        comment ["cold-confirmed=".toList, digits (reads + misses),
          " void(warm at start)=".toList, digits (xs.countP fun x => decide (x.2 = .void)),
          " read=".toList, digits reads, " missed=".toList, digits misses]) :=
  read_fates (by decide +kernel)

end FreenetHarness.XNode
