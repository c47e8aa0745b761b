import FreenetHarness.Mint
import FreenetHarness.XNode.Pair

/-! # From the mint role to the put role

`mintOnly` prints a line for each block it mints and puts none of them; `planOf` is what
the put role takes from those lines. `planOf_mintOnly` says that it takes what was
minted. -/
namespace FreenetHarness.XNode
open FreenetHarness.Lib.Text FreenetHarness.Lib.Number FreenetHarness.Mint
open FreenetHarness.Parity (Seed Fault hexify unhexLoop unhexLoop_hexify isWord_hexify)

/-- A block to put: its seed, its body size, its arm. -/
structure Planned where
  seed : Seed
  size : UInt64
  arm : Arm
  deriving DecidableEq

/-- The block a plan stands for, as either role builds it. -/
def Planned.mint (c : Crates) (code : Bytes) (p : Planned) : Minted :=
  mintSeeded c code p.seed p.size.toNat

/-! ## The mint role -/

/-- What is minted: `samples` blocks of every size, the arms interleaved. `draw n` is the
seed of the `n`-th. -/
def mints (samples : Nat) (sizes : List UInt64) (arms : Bool) (draw : Nat → Seed) : List Planned :=
  (sizes.flatMap (List.replicate samples)).mapIdx fun n size =>
    { seed := draw n, size, arm := if arms && n % 2 == 1 then .hedge else .control }

def Planned.fields (c : Crates) (code : Bytes) (p : Planned) : List Str :=
  ["MINT".toList, (p.mint c code).id, digits p.size.toNat, hexify p.seed.bytes, p.arm.asStr]

/-- The key, the body size, the seed and the arm. -/
def Planned.line (c : Crates) (code : Bytes) (p : Planned) : Str := unwords (p.fields c code)

/-- The file of the mint role. -/
def mintOnly (c : Crates) (code : Bytes) (samples : Nat) (sizes : List UInt64) (arms : Bool)
    (draw : Nat → Seed) : Str :=
  unlines ((mints samples sizes arms draw).map (Planned.line c code))

/-! ## The plan of the put role -/

/-- The loop over the sixteen two-byte slices: what is no byte is a zero. -/
def seedLoop : Nat → Str → Except Fault (List UInt8)
  | 0, _ => .ok []
  | n + 1, s => match splitBytes 2 s with
    | none => .error .panic
    | some (d, rest) =>
      (seedLoop n rest).map fun bs => UInt8.ofNat ((fromStrRadix 16 255 d).toOption.getD 0) :: bs

theorem seedLoop_length {n : Nat} {s : Str} {bs : List UInt8} (h : seedLoop n s = .ok bs) :
    bs.length = n := by
  induction n generalizing s bs with
  | zero => cases h; rfl
  | succ n ih =>
    unfold seedLoop at h
    split at h
    · cases h
    · cases hr : seedLoop n _ with
      | error e => rw [hr] at h; cases h
      | ok cs => rw [hr] at h; cases h; rw [List.length_cons, ih hr]

def parseSeed (s : Str) : Except Fault Seed :=
  match h : seedLoop 16 s with
  | .error e => .error e
  | .ok bs => .ok ⟨bs, seedLoop_length h⟩

/-- One line of the mint file: `none` where it is no minted block's. -/
def planLine (l : Str) : Except Fault (Option Planned) :=
  match words l with
  | tag :: _ :: size :: seed :: rest =>
    if tag = "MINT".toList then
      (parseSeed seed).map fun seed => some
        { seed, size := (parseUsize size).toOption.getD 0
          arm := (rest.head?.map Arm.parse).getD .control }
    else .ok none
  | _ => .ok none

def planLines : List Str → Except Fault (List Planned)
  | [] => .ok []
  | l :: ls => do
    let p ← planLine l
    let ps ← planLines ls
    return p.toList ++ ps

/-- What to send, in order. -/
def planOf (text : Str) : Except Fault (List Planned) := planLines (lines text)

/-! ## The plan is what was minted -/

/-- The two decoders agree on what the stricter one takes. -/
theorem seedLoop_of_unhexLoop {n : Nat} {s : Str} {bs : List UInt8}
    (h : unhexLoop n s = .ok (some bs)) : seedLoop n s = .ok bs := by
  induction n generalizing s bs with
  | zero => cases h; rfl
  | succ n ih =>
    cases hs : splitBytes 2 s with
    | none => simp only [unhexLoop, hs] at h; cases h
    | some x =>
      obtain ⟨d, rest⟩ := x
      simp only [unhexLoop, hs] at h
      simp only [seedLoop, hs]
      cases hx : fromStrRadix 16 255 d with
      | error e => rw [hx] at h; cases h
      | ok x =>
        cases hr : unhexLoop n rest with
        | error e => rw [hx, hr] at h; cases h
        | ok r =>
          rw [hx, hr] at h
          cases r with
          | none => cases h
          | some cs =>
            cases h
            simp [ih hr, Except.map, Except.toOption]

theorem parseSeed_hexify (s : Seed) : parseSeed (hexify s.bytes) = .ok s := by
  have hloop := seedLoop_of_unhexLoop (unhexLoop_hexify s.bytes)
  rw [s.length_eq] at hloop
  unfold parseSeed
  split <;> simp_all

theorem Planned.isWord_fields (c : Crates) (code : Bytes) (p : Planned) :
    ∀ w ∈ p.fields c code, IsWord w := by
  intro w hw
  simp only [Planned.fields, List.mem_cons, List.not_mem_nil, or_false] at hw
  rcases hw with rfl | rfl | rfl | rfl | rfl
  · decide
  · exact isWord_id ..
  · exact isWord_digits _
  · exact isWord_hexify _
  · exact p.arm.isWord_asStr

/-- A minted block's line is taken as that block. -/
theorem planLine_line (c : Crates) (code : Bytes) (p : Planned) :
    planLine (p.line c code) = .ok (some p) := by
  unfold planLine Planned.line
  rw [words_unwords (p.isWord_fields c code)]
  simp [Planned.fields, parseSeed_hexify, parseUsize_digits, Except.map, Except.toOption,
    Arm.parse_asStr]

theorem planLines_map (c : Crates) (code : Bytes) (ps : List Planned) :
    planLines (ps.map (Planned.line c code)) = .ok ps := by
  induction ps with
  | nil => rfl
  | cons p ps ih =>
    simp [planLines, planLine_line, ih, bind, Except.bind, pure, Except.pure]

/-- **The plan.** The put role takes from the mint role's file what was minted, in order. -/
theorem planOf_mintOnly (c : Crates) (code : Bytes) (samples : Nat) (sizes : List UInt64)
    (arms : Bool) (draw : Nat → Seed) :
    planOf (mintOnly c code samples sizes arms draw) = .ok (mints samples sizes arms draw) := by
  have hflat : ∀ l ∈ (mints samples sizes arms draw).map (Planned.line c code), Flat l := by
    intro l hl
    obtain ⟨p, -, rfl⟩ := List.mem_map.mp hl
    exact flat_unwords_of_isWord (p.isWord_fields c code)
  rw [planOf, mintOnly, lines_unlines hflat, planLines_map]

end FreenetHarness.XNode
