import FreenetHarness.XNode.Minted

/-! # Sixteen bytes in hex, and who reads them

Three roles read what `hexify` writes, each with a loop of its own: a block's seed in the
groups file, the seed on a minted block's line, the salt on the command line. All three
hand slices of two bytes to a number parser, and its grammar is wider than theirs.
`decoders_iff` says on which texts each of them is a decoder. -/
namespace FreenetHarness.Hex
open FreenetHarness.Lib.Text FreenetHarness.Lib.Number
open FreenetHarness.Parity (Fault Seed hexify unhexify unhexLoop unhexLoop_length
  unhexify_hexify toDigit_digitChar digitChar_ascii isWord_hexify)
open FreenetHarness.XNode (parseSeed seedLoop seedLoop_of_unhexLoop parseSeed_hexify)

/-! ## The salt -/

/-- The loop over the sixteen slices of the salt, `n` of them left. -/
def saltLoop : Nat → Str → Except Fault (List UInt8)
  | 0, _ => .ok []
  | n + 1, s => match splitBytes 2 s with
    | none => .error .panic
    | some (d, rest) => match fromStrRadix 16 255 d with
      | .error e => .error (.bail s!"--salt is not hex: {e.text}")
      | .ok x => (saltLoop n rest).map fun bs => UInt8.ofNat x :: bs

theorem saltLoop_length {n : Nat} {s : Str} {bs : List UInt8} (h : saltLoop n s = .ok bs) :
    bs.length = n := by
  induction n generalizing s bs with
  | zero => cases h; rfl
  | succ n ih =>
    unfold saltLoop at h
    split at h
    · cases h
    · split at h
      · cases h
      · cases hr : saltLoop n _ with
        | error e => rw [hr] at h; cases h
        | ok cs => rw [hr] at h; cases h; rw [List.length_cons, ih hr]

/-- A salt that the caller gave, after `trim`. -/
def parseSalt (h : Str) : Except Fault Seed :=
  let h := trim h
  if byteLen h ≠ 32 then
    .error (.bail s!"--salt must be 32 hex chars (16 bytes), got {byteLen h}")
  else match hs : saltLoop 16 h with
    | .error e => .error e
    | .ok bs => .ok ⟨bs, saltLoop_length hs⟩

/-- The salt of a run: the caller's, or one drawn for it. -/
def salt (drawn : Seed) : Option Str → Except Fault Seed
  | some h => parseSalt h
  | none => .ok drawn

/-! ## What a decoder is -/

/-- The text is two hex digits a byte, of either case. -/
def Encodes : Str → List UInt8 → Prop
  | [], [] => True
  | c :: d :: s, b :: bs =>
    toDigit 16 c = some (b.toNat / 16) ∧ toDigit 16 d = some (b.toNat % 16) ∧ Encodes s bs
  | _, _ => False

/-- Thirty-two hex digits. -/
def Hex32 (s : Str) : Prop := ∃ b : Seed, Encodes s b.bytes

/-- The bytes for exactly the texts that encode them, no other bytes for any other text,
and no slice out of range or inside a character. -/
def Decodes (s : Str) (r : Except Fault (Option Seed)) : Prop :=
  (∀ b : Seed, r = .ok (some b) ↔ Encodes s b.bytes) ∧ r ≠ .error .panic

/-- What the number parser takes of two bytes. -/
def Piece : Str → Prop
  | [c, d] => ((toDigit 16 c).isSome ∨ c = '+') ∧ (toDigit 16 d).isSome
  | _ => False

/-- The first two bytes that are not taken are a piece of text, and not a slice inside a
character. -/
inductive Refused : Str → Prop where
  | here {d rest : Str} : byteLen d = 2 → ¬ Piece d → Refused (d ++ rest)
  | next {d rest : Str} : Piece d → Refused rest → Refused (d ++ rest)

/-! ## Two bytes -/

theorem toDigit_eq_some {c : Char} {x : Nat} (h : toDigit 16 c = some x) :
    x < 16 ∧ c.utf8Size = 1 ∧ c ≠ '+' := by
  obtain ⟨hr, hx⟩ := Option.filter_eq_some_iff.mp h
  have hlt : x < 16 := by simpa using hx
  have hn : c.toNat ≤ 122 := by
    by_contra hn
    rw [if_neg (by omega), if_neg (by omega), if_neg (by omega)] at hr
    cases hr
  refine ⟨hlt, Char.utf8Size_eq_one_iff.mpr ?_, ?_⟩
  · rw [UInt32.le_iff_toNat_le]
    exact le_trans hn (by decide)
  · rintro rfl
    rw [show toDigit 16 '+' = none by decide] at h
    cases h

/-- Two characters of one byte each, or one of two bytes. -/
theorem byteLen_eq_two {d : Str} (h : byteLen d = 2) :
    (∃ c, d = [c] ∧ c.utf8Size = 2) ∨ ∃ c e, d = [c, e] := by
  cases d with
  | nil => cases h
  | cons c d =>
    have := c.utf8Size_pos
    rw [byteLen_cons] at h
    cases d with
    | nil => exact .inl ⟨c, rfl, by simpa using h⟩
    | cons e d =>
      have := e.utf8Size_pos
      rw [byteLen_cons] at h
      exact .inr ⟨c, e, by rw [eq_nil_of_byteLen (s := d) (by omega)]⟩

theorem Piece.byteLen {d : Str} (h : Piece d) : byteLen d = 2 := by
  match d, h with
  | [c, e], ⟨hc, he⟩ =>
    obtain ⟨y, hy⟩ := Option.isSome_iff_exists.mp he
    have hc : c.utf8Size = 1 := by
      rcases hc with hc | rfl
      · obtain ⟨x, hx⟩ := Option.isSome_iff_exists.mp hc
        exact (toDigit_eq_some hx).2.1
      · rfl
    simp [byteLen_cons, hc, (toDigit_eq_some hy).2.1]

/-- Two digits are read as the byte they stand for. -/
theorem fromStrRadix_digits {c d : Char} {x y : Nat} (hc : toDigit 16 c = some x)
    (hd : toDigit 16 d = some y) : fromStrRadix 16 255 [c, d] = .ok (16 * x + y) := by
  obtain ⟨hx, -, hplus⟩ := toDigit_eq_some hc
  obtain ⟨hy, -, -⟩ := toDigit_eq_some hd
  have hloop : digitLoop 16 255 0 [c, d] = .ok (16 * x + y) := by
    simp only [digitLoop, hc, hd]
    rw [if_pos (by omega), if_pos (by omega)]
    congr 1
    omega
  unfold fromStrRadix
  split <;> simp_all

/-- **What is taken of two bytes**: two digits, or a sign and a digit. -/
theorem fromStrRadix_isOk_iff {d : Str} (h : byteLen d = 2) :
    (∃ x, fromStrRadix 16 255 d = .ok x) ↔ Piece d := by
  rcases byteLen_eq_two h with ⟨c, rfl, hc⟩ | ⟨c, e, rfl⟩
  · have hnone : toDigit 16 c = none := by
      cases hd : toDigit 16 c with
      | none => rfl
      | some x => have := (toDigit_eq_some hd).2.1; omega
    have herr : fromStrRadix 16 255 [c] = .error .invalidDigit := by
      unfold fromStrRadix
      split <;> simp_all [digitLoop]
    simp [herr, Piece]
  · constructor
    · intro h
      obtain ⟨x, hx⟩ := h
      by_cases hplus : c = '+'
      · subst hplus
        refine ⟨.inr rfl, ?_⟩
        cases he : toDigit 16 e with
        | some y => rfl
        | none =>
          have : fromStrRadix 16 255 ['+', e] = digitLoop 16 255 0 [e] := by
            unfold fromStrRadix
            split <;> simp_all
          rw [this, digitLoop, he] at hx
          cases hx
      · have : fromStrRadix 16 255 [c, e] = digitLoop 16 255 0 [c, e] := by
          unfold fromStrRadix
          split <;> simp_all
        rw [this] at hx
        cases hc : toDigit 16 c with
        | none => simp [digitLoop, hc] at hx
        | some y =>
          cases he : toDigit 16 e with
          | none =>
            simp only [digitLoop, hc, he] at hx
            split at hx <;> cases hx
          | some z => exact ⟨.inl (by simp [hc]), by simp [he]⟩
    · intro h
      obtain ⟨hc, he⟩ := h
      obtain ⟨y, hy⟩ := Option.isSome_iff_exists.mp he
      rcases hc with hc | rfl
      · obtain ⟨x, hx⟩ := Option.isSome_iff_exists.mp hc
        exact ⟨_, fromStrRadix_digits hx hy⟩
      · have hlt := (toDigit_eq_some hy).1
        refine ⟨y, ?_⟩
        simp only [fromStrRadix, digitLoop, hy]
        rw [if_pos (by omega)]
        simp

/-! ## What encodes what -/

theorem Encodes.byteLen {s : Str} {bs : List UInt8} (h : Encodes s bs) :
    byteLen s = 2 * bs.length := by
  fun_induction Encodes s bs with
  | case1 => rfl
  | case2 c d s b bs ih =>
    obtain ⟨hc, hd, hs⟩ := h
    rw [byteLen_cons, byteLen_cons, (toDigit_eq_some hc).2.1, (toDigit_eq_some hd).2.1, ih hs,
      List.length_cons]
    omega
  | case3 => exact h.elim

theorem Encodes.hexify (bs : List UInt8) : Encodes (hexify bs) bs := by
  induction bs with
  | nil => trivial
  | cons b bs ih =>
    have := b.toNat_lt
    exact ⟨toDigit_digitChar (by omega), toDigit_digitChar (by omega), ih⟩

/-! ## The loop of a block's seed -/

theorem unhexLoop_of_encodes {s : Str} {bs : List UInt8} (h : Encodes s bs) :
    unhexLoop bs.length s = .ok (some bs) := by
  fun_induction Encodes s bs with
  | case1 => rfl
  | case2 c d s b bs ih =>
    obtain ⟨hc, hd, hs⟩ := h
    have hsplit : splitBytes 2 (c :: d :: s) = some ([c, d], s) :=
      splitBytes_eq_some_iff.mpr ⟨rfl, by
        simp [byteLen_cons, (toDigit_eq_some hc).2.1, (toDigit_eq_some hd).2.1]⟩
    have hb : 16 * (b.toNat / 16) + b.toNat % 16 = b.toNat := Nat.div_add_mod _ _
    simp [unhexLoop, hsplit, fromStrRadix_digits hc hd, hb, ih hs, Except.map]
  | case3 => exact h.elim

/-- **What the loop refuses**: the first two bytes that are not taken are a piece of text. -/
theorem unhexLoop_eq_none_iff {n : Nat} {s : Str} (h : byteLen s = 2 * n) :
    unhexLoop n s = .ok none ↔ Refused s := by
  constructor
  · intro hl
    clear h
    induction n generalizing s with
    | zero => cases hl
    | succ n ih =>
      cases hs : splitBytes 2 s with
      | none => simp only [unhexLoop, hs] at hl; cases hl
      | some p =>
        obtain ⟨d, rest⟩ := p
        obtain ⟨rfl, hlen⟩ := splitBytes_eq_some_iff.mp hs
        cases hd : fromStrRadix 16 255 d with
        | error e =>
          refine .here hlen fun hp => ?_
          obtain ⟨x, hx⟩ := (fromStrRadix_isOk_iff hlen).mpr hp
          rw [hd] at hx
          cases hx
        | ok x =>
          refine .next ((fromStrRadix_isOk_iff hlen).mp ⟨x, hd⟩) (ih ?_)
          simp only [unhexLoop, hs, hd] at hl
          cases hr : unhexLoop n rest with
          | error e => rw [hr] at hl; cases hl
          | ok r => cases r with
            | none => rfl
            | some bs => rw [hr] at hl; cases hl
  · intro hr
    induction hr generalizing n with
    | @here d rest hlen hp =>
      rw [byteLen_append, hlen] at h
      obtain ⟨k, rfl⟩ : ∃ k, n = k + 1 := ⟨n - 1, by omega⟩
      cases hd : fromStrRadix 16 255 d with
      | error e => simp [unhexLoop, splitBytes_eq_some_iff.mpr ⟨rfl, hlen⟩, hd]
      | ok x => exact absurd ((fromStrRadix_isOk_iff hlen).mp ⟨x, hd⟩) hp
    | @next d rest hp _ ih =>
      rw [byteLen_append, hp.byteLen] at h
      obtain ⟨k, rfl⟩ : ∃ k, n = k + 1 := ⟨n - 1, by omega⟩
      obtain ⟨x, hx⟩ := (fromStrRadix_isOk_iff hp.byteLen).mpr hp
      simp [unhexLoop, splitBytes_eq_some_iff.mpr ⟨rfl, hp.byteLen⟩, hx, ih (n := k) (by omega),
        Except.map]

/-! ## The other two loops -/

/-- The salt's loop, its refusals without their texts, is the loop of a block's seed. -/
theorem unhexLoop_eq (n : Nat) (s : Str) :
    unhexLoop n s = match saltLoop n s with
      | .ok bs => .ok (some bs)
      | .error .panic => .error .panic
      | .error (.bail _) => .ok none := by
  induction n generalizing s with
  | zero => rfl
  | succ n ih =>
    cases hs : splitBytes 2 s with
    | none => simp [unhexLoop, saltLoop, hs]
    | some p =>
      obtain ⟨d, rest⟩ := p
      cases hd : fromStrRadix 16 255 d with
      | error e => simp [unhexLoop, saltLoop, hs, hd]
      | ok x =>
        simp only [unhexLoop, saltLoop, hs, hd, ih rest]
        cases saltLoop n rest with
        | ok bs => rfl
        | error e => cases e <;> rfl

/-- The loop of a minted block's seed refuses nothing: it ends in bytes or in a panic. -/
theorem seedLoop_error {n : Nat} {s : Str} {e : Fault} (h : seedLoop n s = .error e) :
    e = .panic := by
  induction n generalizing s with
  | zero => cases h
  | succ n ih =>
    unfold seedLoop at h
    split at h
    · cases h; rfl
    · cases hr : seedLoop n _ with
      | error f => rw [hr] at h; cases h; exact ih hr
      | ok cs => rw [hr] at h; cases h

theorem unhexLoop_error {n : Nat} {s : Str} {e : Fault} (h : unhexLoop n s = .error e) :
    e = .panic := by
  induction n generalizing s with
  | zero => cases h
  | succ n ih =>
    unfold unhexLoop at h
    split at h
    · cases h; rfl
    · split at h
      · cases h
      · cases hr : unhexLoop n _ with
        | error f => rw [hr] at h; cases h; exact ih hr
        | ok r => rw [hr] at h; cases h

/-! ## The decoders -/

/-- What the two decoders that can refuse a text have in common. -/
structure Strict (s : Str) (r : Except Fault (Option Seed)) : Prop where
  some_iff (b : Seed) : r = .ok (some b) ↔ byteLen s = 32 ∧ unhexLoop 16 s = .ok (some b.bytes)
  panic_iff : r = .error .panic ↔ byteLen s = 32 ∧ unhexLoop 16 s = .error .panic

theorem unhexify_strict (s : Str) : Strict s (unhexify s) := by
  by_cases hlen : byteLen s = 32
  · constructor
    · intro b
      unfold unhexify
      rw [if_neg (by simpa using hlen)]
      constructor
      · intro h
        split at h <;> cases h
        exact ⟨hlen, ‹_›⟩
      · rintro ⟨-, h⟩
        split <;> simp_all
    · unfold unhexify
      rw [if_neg (by simpa using hlen)]
      split <;> simp_all
  · have hnone : unhexify s = .ok none := by unfold unhexify; rw [if_pos hlen]
    constructor <;> simp [hnone, hlen]

theorem parseSalt_of_byteLen {h : Str} (hlen : byteLen (trim h) = 32) :
    (∀ b : Seed, parseSalt h = .ok b ↔ saltLoop 16 (trim h) = .ok b.bytes) ∧
      ∀ e, parseSalt h = .error e ↔ saltLoop 16 (trim h) = .error e := by
  simp only [parseSalt, hlen, not_true_eq_false, ne_eq, if_false]
  constructor
  · intro h
    obtain ⟨bs, hbs⟩ := h
    split <;> simp_all
  · intro e
    split <;> simp_all

theorem parseSalt_strict (h : Str) : Strict (trim h) ((parseSalt h).map some) := by
  by_cases hlen : byteLen (trim h) = 32
  · obtain ⟨hok, herr⟩ := parseSalt_of_byteLen hlen
    constructor
    · intro b
      have : (parseSalt h).map some = .ok (some b) ↔ parseSalt h = .ok b := by
        cases parseSalt h <;> simp [Except.map]
      rw [this, hok, unhexLoop_eq]
      cases saltLoop 16 (trim h) with
      | ok bs => simp [hlen]
      | error e => cases e <;> simp
    · have : (parseSalt h).map some = .error .panic ↔ parseSalt h = .error .panic := by
        cases parseSalt h <;> simp [Except.map]
      rw [this, herr, unhexLoop_eq]
      cases saltLoop 16 (trim h) with
      | ok bs => simp
      | error e => cases e <;> simp [hlen]
  · constructor <;> simp [parseSalt, hlen, Except.map]

theorem unhexLoop_of_seed {s : Str} {b : Seed} (h : Encodes s b.bytes) :
    unhexLoop 16 s = .ok (some b.bytes) := by
  have hloop := unhexLoop_of_encodes h
  rwa [b.length_eq] at hloop

theorem Encodes.byteLen_seed {s : Str} {b : Seed} (h : Encodes s b.bytes) :
    Lib.Text.byteLen s = 32 := by
  rw [h.byteLen, b.length_eq]

/-- A text encodes no other bytes. -/
theorem Encodes.unique {s : Str} {b b' : Seed} (h : Encodes s b.bytes) (h' : Encodes s b'.bytes) :
    b = b' := by
  have hbytes := (unhexLoop_of_seed h).symm.trans (unhexLoop_of_seed h')
  obtain ⟨bs, hbs⟩ := b
  obtain ⟨bs', hbs'⟩ := b'
  obtain rfl : bs = bs' := Option.some.inj (Except.ok.inj hbytes)
  rfl

/-- A decoder that returns what a text encodes. -/
theorem Encodes.decodes {s : Str} {b : Seed} {r : Except Fault (Option Seed)}
    (h : Encodes s b.bytes) (hr : r = .ok (some b)) : Decodes s r := by
  subst hr
  constructor
  · intro b'
    constructor
    · intro he
      rw [← Option.some.inj (Except.ok.inj he)]
      exact h
    · intro h'
      rw [h.unique h']
  · intro hp
    cases hp

/-- A decoder that refuses what encodes nothing. -/
theorem decodes_of_refused {s : Str} {r : Except Fault (Option Seed)}
    (hs : ∀ b : Seed, ¬ Encodes s b.bytes) (hr : ∀ b, r ≠ .ok (some b)) (hp : r ≠ .error .panic) :
    Decodes s r :=
  ⟨fun b => iff_of_false (hr b) (hs b), hp⟩

/-- Where a strict decoder is one. -/
theorem Strict.decodes_iff {s : Str} {r : Except Fault (Option Seed)} (h : Strict s r) :
    Decodes s r ↔ byteLen s ≠ 32 ∨ Hex32 s ∨ Refused s := by
  constructor
  · intro hd
    by_cases hlen : byteLen s = 32
    · right
      cases hu : unhexLoop 16 s with
      | error e =>
        obtain rfl := unhexLoop_error hu
        exact absurd (h.panic_iff.mpr ⟨hlen, hu⟩) hd.2
      | ok o => cases o with
        | none => exact .inr ((unhexLoop_eq_none_iff hlen).mp hu)
        | some bs =>
          let b : Seed := ⟨bs, unhexLoop_length hu⟩
          exact .inl ⟨b, (hd.1 b).mp ((h.some_iff b).mpr ⟨hlen, hu⟩)⟩
    · exact .inl hlen
  · rintro (hlen | ⟨b, hb⟩ | hr)
    · exact decodes_of_refused (fun b hb => hlen hb.byteLen_seed)
        (fun b hb => hlen ((h.some_iff b).mp hb).1) fun hp => hlen (h.panic_iff.mp hp).1
    · exact hb.decodes ((h.some_iff b).mpr ⟨hb.byteLen_seed, unhexLoop_of_seed hb⟩)
    · -- on thirty-two bytes the loop refuses what it refuses; on any other text nothing is read
      have hnone : byteLen s = 32 → unhexLoop 16 s = .ok none := fun hlen =>
        (unhexLoop_eq_none_iff hlen).mpr hr
      refine decodes_of_refused (fun b hb => ?_) (fun b hb => ?_) fun hp => ?_
      · have hu := hnone hb.byteLen_seed
        rw [unhexLoop_of_seed hb] at hu
        cases hu
      · obtain ⟨hlen, hu⟩ := (h.some_iff b).mp hb
        rw [hnone hlen] at hu
        cases hu
      · obtain ⟨hlen, hu⟩ := h.panic_iff.mp hp
        rw [hnone hlen] at hu
        cases hu

/-! ## The results -/

theorem parseSeed_of_encodes {s : Str} {b : Seed} (h : Encodes s b.bytes) :
    parseSeed s = .ok b := by
  have hloop := seedLoop_of_unhexLoop (unhexLoop_of_seed h)
  unfold parseSeed
  split <;> simp_all

theorem parseSeed_error {s : Str} {e : Fault} (h : parseSeed s = .error e) : e = .panic := by
  unfold parseSeed at h
  split at h
  · cases h; exact seedLoop_error ‹_›
  · cases h

/-- The put role's decoder is one on what it should take, and on nothing else. -/
theorem parseSeed_decodes_iff (s : Str) : Decodes s ((parseSeed s).map some) ↔ Hex32 s := by
  constructor
  · intro hd
    cases hs : parseSeed s with
    | ok b => exact ⟨b, (hd.1 b).mp (by rw [hs]; rfl)⟩
    | error e => exact absurd (by rw [hs, parseSeed_error hs]; rfl) hd.2
  · rintro ⟨b, hb⟩
    exact hb.decodes (by rw [parseSeed_of_encodes hb]; rfl)

theorem parseSalt_hexify (s : Seed) : parseSalt (hexify s.bytes) = .ok s := by
  have htrim := trim_of_isWord (isWord_hexify s)
  have henc := Encodes.hexify s.bytes
  have h := ((parseSalt_strict (hexify s.bytes)).some_iff s).mpr
    ⟨by rw [htrim, henc.byteLen_seed], by rw [htrim, unhexLoop_of_seed henc]⟩
  cases hs : parseSalt (hexify s.bytes) with
  | ok b =>
    rw [hs] at h
    rw [Option.some.inj (Except.ok.inj h)]
  | error e => rw [hs] at h; cases h

/-- **The three decoders.** The two that check the length decode a text of another length,
thirty-two digits, or one whose first two bytes that are not taken are a piece of text.
The third is a decoder on thirty-two digits only. All three read back what is written. -/
theorem decoders_iff (s h : Str) (b : Seed) :
    (Decodes s (unhexify s) ↔ byteLen s ≠ 32 ∨ Hex32 s ∨ Refused s) ∧
    (Decodes s ((parseSeed s).map some) ↔ Hex32 s) ∧
    (Decodes (trim h) ((parseSalt h).map some) ↔
      byteLen (trim h) ≠ 32 ∨ Hex32 (trim h) ∨ Refused (trim h)) ∧
    unhexify (hexify b.bytes) = .ok (some b) ∧ parseSeed (hexify b.bytes) = .ok b ∧
      parseSalt (hexify b.bytes) = .ok b :=
  ⟨(unhexify_strict s).decodes_iff, parseSeed_decodes_iff s, (parseSalt_strict h).decodes_iff,
    unhexify_hexify b, parseSeed_hexify b, parseSalt_hexify b⟩

/-- A sign in a digit's place. -/
def signed : Str := '+' :: 'f' :: List.replicate 30 '0'

/-- Thirty-two bytes, the second and third of them one character. -/
def halved : Str := '0' :: 'é' :: List.replicate 29 '0'

theorem signed_not_hex (b : Seed) : ¬ Encodes signed b.bytes := by
  obtain ⟨bs, hlen⟩ := b
  cases bs with
  | nil => cases hlen
  | cons x xs =>
    intro h
    have hx : toDigit 16 '+' = some (x.toNat / 16) := h.1
    rw [show toDigit 16 '+' = none by decide] at hx
    cases hx

theorem unhexLoop_signed : unhexLoop 16 signed = .ok (some (15 :: List.replicate 15 0)) := by rfl

/-- A sign is taken for a digit by all three, and the loop slices into a character. -/
theorem signed_decoded :
    ¬ Decodes signed (unhexify signed) ∧ ¬ Decodes signed ((parseSeed signed).map some) ∧
      ¬ Decodes (trim signed) ((parseSalt signed).map some) ∧
      unhexify halved = .error .panic ∧ parseSeed ['a', 'b'] = .error .panic := by
  let b : Seed := ⟨15 :: List.replicate 15 0, rfl⟩
  have htrim : trim signed = signed := by decide
  refine ⟨fun h => ?_, fun h => ?_, fun h => ?_, ?_, ?_⟩
  · exact signed_not_hex b ((h.1 b).mp
      (((unhexify_strict signed).some_iff b).mpr ⟨by rfl, unhexLoop_signed⟩))
  · exact signed_not_hex b ((h.1 b).mp (by rfl))
  · rw [htrim] at h
    have := (parseSalt_strict signed).some_iff b
    rw [htrim] at this
    exact signed_not_hex b ((h.1 b).mp (this.mpr ⟨by rfl, unhexLoop_signed⟩))
  · exact (unhexify_strict halved).panic_iff.mpr ⟨by rfl, by rfl⟩
  · rfl

end FreenetHarness.Hex
