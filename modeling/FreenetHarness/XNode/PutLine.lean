import FreenetHarness.Parity.Reput
import FreenetHarness.XNode.Files
import FreenetHarness.XNode.PutMinted

/-! # The lines of the two writer roles

The put role prints nine fields for a trial, the write role five for a put that was
acknowledged. The pair role takes both with one decoder, by position; `parsePut_iff` says
whose lines it takes for what they are. -/
namespace FreenetHarness.XNode
open FreenetHarness.Lib.Text FreenetHarness.Lib.Number FreenetHarness.Stats FreenetHarness.Mint
open FreenetHarness.Parity (Seed)
open PutMinted (Trial TrialInv Conf Pass start loop)

/-! ## What the put role prints -/

/-- A time to one decimal, or `-` where there is none. -/
def timeField (ms : Option ℚ) : Str := (ms.map print1).getD ['-']

def markField : Option Bool → Str
  | some true => "unacked".toList
  | some false => "acked".toList
  | none => ['-']

def hedgedField (hedged : Bool) : Str := if hedged then "hedged".toList else ['-']

def PutMinted.Trial.fields (t : Trial) : List Str :=
  ["PUT".toList, t.key, digits t.sentNs, timeField t.confirmMs, digits t.size.toNat, t.arm.asStr,
    markField t.unackedAtT, hedgedField t.hedged, timeField t.ackMs]

def PutMinted.Trial.line (t : Trial) : Str := unwords t.fields

/-- A time at the precision it is printed with. -/
def printed (ms : ℚ) : F64 := .fin (tenths ms / 10)

/-- What the put role knows of a trial. -/
def PutMinted.Trial.known (t : Trial) : Send :=
  { key := t.key, sentNs := t.sentNs, confirmMs := t.confirmMs.map printed, size := t.size
    arm := t.arm, unackedAtT := t.unackedAtT, hedged := t.hedged, ackMs := t.ackMs.map printed }

/-! ## What the write role prints -/

/-- One acknowledged put of the write role. -/
structure WritePut where
  crates : Crates
  code : Bytes
  seed : Seed
  size : UInt64
  tSend : BitVec 128
  /-- The clock at the send, and as its acknowledgement is read. -/
  t : Nat
  acked : Nat

def WritePut.minted (w : WritePut) : Minted := mintSeeded w.crates w.code w.seed w.size.toNat

/-- Key, absolute send time, acknowledgement, state size. -/
def WritePut.fields (w : WritePut) : List Str :=
  ["PUT".toList, w.minted.id, digits w.tSend.toNat, print1 (msSince w.t w.acked),
    digits w.minted.state.length]

def WritePut.line (w : WritePut) : Str := unwords w.fields

/-- What the write role knows of a put: it has no arms, and reads nothing back. -/
def WritePut.known (w : WritePut) : Send :=
  { key := w.minted.id, sentNs := w.tSend.toNat, confirmMs := none, size := w.size
    arm := .control, unackedAtT := none, hedged := false
    ackMs := some (printed (msSince w.t w.acked)) }

/-! ## Field by field -/

theorem isWord_timeField {ms : Option ℚ} (h : ∀ v, ms = some v → 0 ≤ v) :
    IsWord (timeField ms) := by
  cases ms with
  | none => decide
  | some v => exact isWord_print1 (h v rfl)

theorem parseF64_timeField {ms : Option ℚ} (h : ∀ v, ms = some v → 0 ≤ v) :
    parseF64 (timeField ms) = ms.map printed := by
  cases ms with
  | none => decide +kernel
  | some v => exact parseF64_print1 (h v rfl)

theorem isWord_markField (b : Option Bool) : IsWord (markField b) := by
  rcases b with _ | _ | _ <;> decide

theorem parseUnacked_markField (b : Option Bool) : parseUnacked (some (markField b)) = b := by
  rcases b with _ | _ | _ <;> decide

theorem isWord_hedgedField (b : Bool) : IsWord (hedgedField b) := by cases b <;> decide

theorem hedgedField_eq (b : Bool) :
    decide (some (hedgedField b) = some "hedged".toList) = b := by cases b <;> decide

/-! ## The put role's line -/

theorem PutMinted.TrialInv.isWord_fields {c : Conf} {clock : Nat} {t : Trial}
    (h : TrialInv c clock t) : ∀ w ∈ t.fields, IsWord w := by
  intro w hw
  simp only [Trial.fields, List.mem_cons, List.not_mem_nil, or_false] at hw
  rcases hw with rfl | rfl | rfl | rfl | rfl | rfl | rfl | rfl | rfl
  · decide
  · rw [h.key]
    exact isWord_id ..
  · exact isWord_digits _
  · exact isWord_timeField h.confirmMs
  · exact isWord_digits _
  · exact t.arm.isWord_asStr
  · exact isWord_markField _
  · exact isWord_hedgedField _
  · exact isWord_timeField h.ackMs

/-- Every field of a trial's line is taken for what it is. -/
theorem PutMinted.TrialInv.parsePut_line {c : Conf} {clock : Nat} {t : Trial}
    (h : TrialInv c clock t) : parsePut t.line = some t.known := by
  have hhedged := hedgedField_eq t.hedged
  rw [parsePut, Trial.line, words_unwords h.isWord_fields]
  simpa [Trial.fields, Trial.known, parseU128OrZero_digits h.sentNs,
    parseF64_timeField h.confirmMs, parseF64_timeField h.ackMs, parseUsize_digits, Except.toOption,
    Arm.parse_asStr, parseUnacked_markField] using hhedged

/-- The pair role takes the put role's trials from its lines, in order. -/
theorem sendsOf_lines {c : Conf} {clock : Nat} {ts : List Trial}
    (h : ∀ t ∈ ts, TrialInv c clock t) :
    sendsOf (unlines (ts.map Trial.line)) = ts.map Trial.known := by
  have hflat : ∀ l ∈ ts.map Trial.line, Flat l := by
    intro l hl
    obtain ⟨t, ht, rfl⟩ := List.mem_map.mp hl
    exact flat_unwords_of_isWord (h t ht).isWord_fields
  rw [sendsOf, lines_unlines hflat, List.filterMap_map, ← List.filterMap_eq_map]
  exact List.filterMap_congr fun t ht => (h t ht).parsePut_line

/-! ## The write role's line -/

theorem WritePut.isWord_fields (w : WritePut) : ∀ x ∈ w.fields, IsWord x := by
  intro x hx
  simp only [WritePut.fields, List.mem_cons, List.not_mem_nil, or_false] at hx
  rcases hx with rfl | rfl | rfl | rfl | rfl
  · decide
  · exact isWord_id ..
  · exact isWord_digits _
  · exact isWord_print1 (msSince_nonneg ..)
  · exact isWord_digits _

/-- The acknowledgement stands where the pair role reads the local confirm. -/
theorem WritePut.parsePut_line (w : WritePut) :
    ∃ size, parsePut w.line = some { w.known with
      confirmMs := some (printed (msSince w.t w.acked)), size, ackMs := none } := by
  rw [parsePut, WritePut.line, words_unwords w.isWord_fields]
  simp [WritePut.fields, WritePut.known, parseU128OrZero_digits w.tSend.isLt,
    parseF64_print1 (msSince_nonneg w.t w.acked), printed, parseUnacked]

/-! ## Either role's lines -/

inductive Role where
  | putMinted
  | write
  deriving DecidableEq

/-- A role prints this line of a put it knows this of. -/
inductive Prints : Role → Str → Send → Prop where
  | putMinted (c : Conf) (clock : Nat) (ps : List Pass) (s : PutMinted.State) (x : PutMinted.Exit)
      (t : Trial) (left : loop c (start clock) ps = .left s x) (mem : t ∈ s.trials) :
      Prints .putMinted t.line t.known
  | write (w : WritePut) : Prints .write w.line w.known

/-- **Whose lines are taken for what they are.** The put role's, in every combination of its
fields, and none of the write role's. -/
theorem parsePut_iff {role : Role} {line : Str} {known : Send} (h : Prints role line known) :
    parsePut line = some known ↔ role = .putMinted := by
  cases h with
  | putMinted c clock ps s x t left mem =>
    have hvisited := PutMinted.loop_visited (congrArg PutMinted.Outcome.state? left)
    have hinv := (PutMinted.visited_inv (PutMinted.inv_start c clock) s hvisited).1
    exact ⟨fun _ => rfl, fun _ => (hinv.each t mem).parsePut_line⟩
  | write w =>
    obtain ⟨size, hparse⟩ := w.parsePut_line
    rw [hparse]
    constructor
    · intro h
      have := congrArg Send.ackMs (Option.some.inj h)
      cases this
    · intro h
      cases h

/-- One block of the hedge arm, put with a hedge time of 5 s. -/
def oneHedge : Conf where
  crates := Parity.zeroHash
  code := []
  plan := [⟨Parity.zeroSeed, 16, .hedge⟩]
  hedge := some 5000000000
  untilConditioned := 0
  started := 0
  budget := 10000000000

/-- A pass that reads no acknowledgement, takes its marks after 6 s, and reads back. -/
def longPass : Pass where
  check := 0
  send := { before := 0, sentNs := 7, sent := .ok (), took := 0 }
  acks := []
  now := 6000000000
  rePut _ := { sent := .ok (), took := 0 }
  look := { found := .ok (some 16), took := 4000000000 }
  leave := 0

theorem hedged_line_taken :
    ∃ t : Trial, t.line = "PUT A 7 10000.0 16 hedge unacked hedged -".toList ∧
      parsePut t.line = some t.known := by
  have hrun : ∃ s t, loop oneHedge (start 0) [longPass, longPass] = .left s .budget ∧
      s.trials = [t] ∧ t.line = "PUT A 7 10000.0 16 hedge unacked hedged -".toList :=
    ⟨_, _, rfl, rfl, by decide +kernel⟩
  obtain ⟨s, t, hleft, hs, hline⟩ := hrun
  exact ⟨t, hline, (parsePut_iff (.putMinted _ _ _ s _ t hleft (by simp [hs]))).mpr rfl⟩

/-- A put of the write role, acknowledged after 12.3 ms. -/
def acknowledged : WritePut where
  crates := Parity.zeroHash
  code := []
  seed := Parity.zeroSeed
  size := 16
  tSend := 7
  t := 0
  acked := 12300000

/-- It is taken for a block of 17 bytes that was read back after 12.3 ms and never
acknowledged. -/
theorem acknowledgement_taken_for_confirm :
    Prints .write acknowledged.line acknowledged.known ∧
      acknowledged.line = "PUT A 7 12.3 17".toList ∧
      parsePut acknowledged.line = some { acknowledged.known with
        confirmMs := some (.fin (123 / 10)), size := 17, ackMs := none } ∧
      acknowledged.known.ackMs = some (.fin (123 / 10)) ∧
      parsePut acknowledged.line ≠ some acknowledged.known := by
  have hlength : acknowledged.minted.state.length = 17 := length_state ..
  have hline : acknowledged.line = "PUT A 7 12.3 17".toList := by
    rw [WritePut.line, WritePut.fields, hlength]
    decide +kernel
  have hparse : parsePut "PUT A 7 12.3 17".toList = some { acknowledged.known with
      confirmMs := some (.fin (123 / 10)), size := 17, ackMs := none } := by decide +kernel
  refine ⟨.write _, hline, hline ▸ hparse, by decide +kernel, fun h => ?_⟩
  rw [hline, hparse] at h
  cases congrArg Send.ackMs (Option.some.inj h)

end FreenetHarness.XNode
