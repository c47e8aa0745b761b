import FreenetHarness.Lib.Number

/-! # The groups file

One line per record, in two kinds: a block as it was sent, and an acknowledgement
as it arrived. `parseGroups` reads a file of either format; which one it is, the
file says. -/
namespace FreenetHarness.Parity
open FreenetHarness.Lib.Text FreenetHarness.Lib.Number

/-- How a role stops short of a result. -/
inductive Fault where
  /-- A string sliced inside a character. -/
  | panic
  | bail (message : String)
  deriving DecidableEq, Repr

inductive Arm where
  | full
  | control
  deriving DecidableEq, Repr

def Arm.tag : Arm → Str
  | .full => "full".toList
  | .control => "control".toList

def Arm.parse (s : Str) : Option Arm :=
  if s = "full".toList then some .full
  else if s = "control".toList then some .control
  else none

/-- How a put's acknowledgement turned out. -/
inductive Ack where
  | within (ms : F64)
  | late (ms : F64)
  | never
  deriving DecidableEq

def Ack.tag : Ack → Str
  | .within ms => ms.print1
  | .late ms => "LATE:".toList ++ ms.print1
  | .never => "NEVER".toList

def Ack.parse (s : Str) : Option Ack :=
  if s = "NEVER".toList then some .never
  else match stripPrefix "LATE:".toList s with
    | some rest => (parseF64 rest).map .late
    | none => (parseF64 s).map .within

/-! ## Seeds -/

/-- The sixteen bytes a block's state is generated from. -/
structure Seed where
  bytes : List UInt8
  length_eq : bytes.length = 16
  deriving DecidableEq

/-- Sixteen zero bytes. -/
def zeroSeed : Seed := ⟨List.replicate 16 0, rfl⟩

/-- Two lower-case digits a byte. -/
def hexify (bs : List UInt8) : Str :=
  bs.flatMap fun b => [Nat.digitChar (b.toNat / 16), Nat.digitChar (b.toNat % 16)]

/-- The loop over the sixteen two-byte slices, `n` of them left. -/
def unhexLoop : Nat → Str → Except Fault (Option (List UInt8))
  | 0, _ => .ok (some [])
  | n + 1, s => match splitBytes 2 s with
    | none => .error .panic
    | some (d, rest) => match fromStrRadix 16 255 d with
      | .error _ => .ok none
      | .ok x => (unhexLoop n rest).map fun r => r.map fun bs => UInt8.ofNat x :: bs

theorem unhexLoop_length {n : Nat} {s : Str} {bs : List UInt8}
    (h : unhexLoop n s = .ok (some bs)) : bs.length = n := by
  induction n generalizing s bs with
  | zero => cases h; rfl
  | succ n ih =>
    unfold unhexLoop at h
    split at h
    · cases h
    · split at h
      · cases h
      · cases hr : unhexLoop n _ with
        | error e => rw [hr] at h; cases h
        | ok r =>
          rw [hr] at h
          cases r with
          | none => cases h
          | some cs => cases h; rw [List.length_cons, ih hr]

def unhexify (s : Str) : Except Fault (Option Seed) :=
  if byteLen s ≠ 32 then .ok none
  else match h : unhexLoop 16 s with
    | .error e => .error e
    | .ok none => .ok none
    | .ok (some bs) => .ok (some ⟨bs, unhexLoop_length h⟩)

/-! ## Blocks -/

structure Block where
  seed : Seed
  gid : UInt64
  m : UInt64
  arm : Arm
  idx : UInt64
  parity : Bool
  key : Str
  tSend : BitVec 128
  ack : Ack
  size : UInt64
  deriving DecidableEq

/-- The fields of a block's line but its seed, in order. -/
def Block.fields (b : Block) : List Str :=
  ["GROUP".toList, digits b.gid.toNat, digits b.m.toNat, b.arm.tag, "BLOCK".toList,
    digits b.idx.toNat, if b.parity then "parity".toList else "data".toList, b.key,
    digits b.tSend.toNat, b.ack.tag, digits b.size.toNat]

theorem Block.fields_ne_nil (b : Block) : b.fields ≠ [] := List.cons_ne_nil _ _

theorem Block.fields_length (b : Block) : b.fields.length = 11 := rfl

def Block.line (b : Block) : Str := unwords (b.fields ++ [hexify b.seed.bytes])

/-- `?` on a number that does not parse. -/
def orBail {α : Type} : Except IntError α → Except Fault α
  | .ok x => .ok x
  | .error e => .error (.bail e.text)

/-- `ok_or_else` with the line the field is in. -/
def orBad {α : Type} (what : String) (l : Str) : Option α → Except Fault α
  | some x => .ok x
  | none => .error (.bail s!"bad {what} in: {String.ofList l}")

/-- One line of the block loop: `none` where the line is no block's. -/
def parseBlock (l : Str) : Except Fault (Option Block) :=
  match words l with
  | tag :: gid :: m :: arm :: block :: idx :: parity :: key :: tSend :: ack :: size :: seed :: _ =>
    if tag ≠ "GROUP".toList ∨ block ≠ "BLOCK".toList then .ok none
    else do
      let seed ← orBad "seed" l (← unhexify seed)
      let gid ← orBail (parseUsize gid)
      let m ← orBail (parseUsize m)
      let arm ← orBad "arm" l (Arm.parse arm)
      let idx ← orBail (parseUsize idx)
      let tSend := BitVec.ofNat 128 (parseU128OrZero tSend)
      let ack ← orBad "ack" l (Ack.parse ack)
      let size := match parseUsize size with
        | .ok n => n
        | .error _ => 0
      return some { seed, gid, m, arm, idx, parity := parity = "parity".toList, key, tSend, ack,
                    size }
  | _ => .ok none

/-- The block loop. -/
def parseBlocks : List Str → Except Fault (List Block)
  | [] => .ok []
  | l :: ls => do
    let b ← parseBlock l
    let bs ← parseBlocks ls
    return b.toList ++ bs

/-- The key and time of an acknowledgement line. -/
def parseAck (l : Str) : Option (Str × F64) :=
  match words l with
  | tag :: key :: ms :: _ => if tag = "ACK".toList then (parseF64 ms).map (key, ·) else none
  | _ => none

/-- Every acknowledgement of the file; the first one for a key is the one a
lookup finds. -/
def acks (ls : List Str) : List (Str × F64) := ls.filterMap parseAck

def boundTag : Str := "# ack-bound-ms ".toList

/-- The bound the file was written under, in milliseconds. -/
def ackBound (ls : List Str) : F64 :=
  ((ls.findSome? (stripPrefix boundTag)).bind fun v => parseF64 (trim v)).getD (.fin 30000)

/-- An outcome decided by the first acknowledgement alone. -/
def judge (bound : F64) : Option F64 → Ack
  | some ms => if ms.le bound then .within ms else .late ms
  | none => .never

/-- An outcome recorded as unknown, corrected by the first acknowledgement. -/
def correct (recorded : Ack) : Option F64 → Ack
  | some ms => if recorded = .never then .late ms else recorded
  | none => recorded

def parseLines (path : String) (ls : List Str) : Except Fault (List Block) := do
  let out ← parseBlocks ls
  if out = [] then
    .error (.bail s!"{path}: no GROUP lines — the write role wrote nothing")
  else if ls.any fun l => (stripPrefix boundTag l).isSome then
    return out.map fun b => { b with ack := judge (ackBound ls) ((acks ls).lookup b.key) }
  else
    return out.map fun b => { b with ack := correct b.ack ((acks ls).lookup b.key) }

/-- The file is its bytes, or why it could not be opened. -/
def parseGroups (path : String) (file : Except String ByteArray) : Except Fault (List Block) :=
  let unreadable (e : String) := Fault.bail s!"{path}: {e} — run the write role first"
  match file with
  | .error e => .error (unreadable e)
  | .ok bytes => match decode bytes with
    | none => .error (unreadable "stream did not contain valid UTF-8")
    | some text => parseLines path (lines text)

/-! ## A written line reads back -/

theorem toDigit_digitChar {d : Nat} (h : d < 16) : toDigit 16 (Nat.digitChar d) = some d := by
  revert d; decide

theorem digitChar_ascii {d : Nat} (h : d < 16) :
    (Nat.digitChar d).utf8Size = 1 ∧ isWhitespace (Nat.digitChar d) = false ∧
      Nat.digitChar d ≠ '+' := by
  revert d; decide

theorem hexify_cons (b : UInt8) (bs : List UInt8) :
    hexify (b :: bs) =
      Nat.digitChar (b.toNat / 16) :: Nat.digitChar (b.toNat % 16) :: hexify bs := rfl

theorem byteLen_hexify (bs : List UInt8) : byteLen (hexify bs) = 2 * bs.length := by
  induction bs with
  | nil => rfl
  | cons b bs ih =>
    have hb := b.toNat_lt
    rw [hexify_cons, byteLen_cons, byteLen_cons, ih, (digitChar_ascii (by omega)).1,
      (digitChar_ascii (by omega)).1, List.length_cons]
    omega

theorem fromStrRadix_byte (b : UInt8) :
    fromStrRadix 16 255 [Nat.digitChar (b.toNat / 16), Nat.digitChar (b.toNat % 16)] =
      .ok b.toNat := by
  have hb := b.toNat_lt
  have hhi : b.toNat / 16 < 16 := by omega
  have hlo : b.toNat % 16 < 16 := by omega
  have hloop : digitLoop 16 255 0 [Nat.digitChar (b.toNat / 16), Nat.digitChar (b.toNat % 16)] =
      .ok b.toNat := by
    simp only [digitLoop, toDigit_digitChar hhi, toDigit_digitChar hlo]
    rw [if_pos (by omega), if_pos (by omega)]
    congr 1
    omega
  have hplus := (digitChar_ascii hhi).2.2
  unfold fromStrRadix
  split <;> simp_all

theorem unhexLoop_hexify (bs : List UInt8) :
    unhexLoop bs.length (hexify bs) = .ok (some bs) := by
  induction bs with
  | nil => rfl
  | cons b bs ih =>
    have hb := b.toNat_lt
    have hhi := (digitChar_ascii (d := b.toNat / 16) (by omega)).1
    have hlo := (digitChar_ascii (d := b.toNat % 16) (by omega)).1
    have hsplit : splitBytes 2 (hexify (b :: bs)) =
        some ([Nat.digitChar (b.toNat / 16), Nat.digitChar (b.toNat % 16)], hexify bs) := by
      simp [hexify_cons, splitBytes, hhi, hlo]
    rw [List.length_cons, unhexLoop, hsplit]
    simp [fromStrRadix_byte, ih, Except.map]

theorem unhexify_hexify (s : Seed) : unhexify (hexify s.bytes) = .ok (some s) := by
  have hloop := unhexLoop_hexify s.bytes
  rw [s.length_eq] at hloop
  unfold unhexify
  rw [if_neg (by simp [byteLen_hexify, s.length_eq])]
  split <;> simp_all

theorem unhexify_short {s : Str} (h : byteLen s < 32) : unhexify s = .ok none := by
  unfold unhexify
  rw [if_pos (by omega)]

theorem isWord_hexify (s : Seed) : IsWord (hexify s.bytes) := by
  constructor
  · intro h
    have := byteLen_hexify s.bytes
    simp [h, s.length_eq] at this
  · intro c hc
    simp only [hexify, List.mem_flatMap, List.mem_cons, List.not_mem_nil, or_false] at hc
    obtain ⟨b, -, hc⟩ := hc
    have hb := b.toNat_lt
    rcases hc with rfl | rfl
    · exact (digitChar_ascii (by omega)).2.1
    · exact (digitChar_ascii (by omega)).2.1

theorem arm_parse_tag (a : Arm) : Arm.parse a.tag = some a := by cases a <;> decide

/-- A block whose key is one word and whose outcome is not known yet, as the write
role records it. -/
structure Block.Sent (b : Block) : Prop where
  key : IsWord b.key
  ack : b.ack = .never

theorem Block.Sent.isWord_fields {b : Block} (h : b.Sent) : ∀ w ∈ b.fields, IsWord w := by
  intro w hw
  simp only [Block.fields, h.ack, List.mem_cons, List.not_mem_nil, or_false] at hw
  rcases hw with rfl | rfl | rfl | rfl | rfl | rfl | rfl | rfl | rfl | rfl | rfl
  · decide
  · exact isWord_digits _
  · exact isWord_digits _
  · cases b.arm <;> decide
  · decide
  · exact isWord_digits _
  · split <;> decide
  · exact h.key
  · exact isWord_digits _
  · decide
  · exact isWord_digits _

theorem Block.Sent.isWord {b : Block} (h : b.Sent) :
    ∀ w ∈ b.fields ++ [hexify b.seed.bytes], IsWord w := by
  intro w hw
  rcases List.mem_append.mp hw with hw | hw
  · exact h.isWord_fields w hw
  · rw [List.mem_singleton.mp hw]
    exact isWord_hexify b.seed

theorem Block.Sent.words_line {b : Block} (h : b.Sent) :
    words b.line = b.fields ++ [hexify b.seed.bytes] := words_unwords h.isWord

/-- **A sent block reads back as it was.** -/
theorem Block.Sent.parseBlock_line {b : Block} (h : b.Sent) :
    parseBlock b.line = .ok (some b) := by
  have ht := parseU128OrZero_digits b.tSend.isLt
  have hp : ((if b.parity then "parity".toList else "data".toList) = "parity".toList) ↔
      b.parity = true := by cases b.parity <;> decide
  have hack : Ack.parse Ack.never.tag = some .never := by decide
  unfold parseBlock
  rw [h.words_line]
  simp only [Block.fields, List.cons_append, List.nil_append, h.ack, ne_eq, not_true_eq_false,
    or_self, if_false, unhexify_hexify, parseUsize_digits, arm_parse_tag, ht, hack, orBad, orBail,
    hp, bind, Except.bind, pure, Except.pure, BitVec.ofNat_toNat, BitVec.setWidth_eq,
    Bool.decide_eq_true]
  rw [← h.ack]

end FreenetHarness.Parity
