import Mathlib.Data.NNRat.Floor
import Mathlib.Data.Rat.Floor
import Mathlib.Tactic.Linarith
import Mathlib.Tactic.NormNum
import Mathlib.Tactic.Positivity
import FreenetHarness.Lib.Text

/-! # Numbers as text

Integers of a bounded width, as `str::parse` and `from_str_radix` read them, and
64-bit floats in the exact-rational idealisation: a finite float keeps its exact
value, and only formatting with a fixed number of decimals rounds it. What is
written with one decimal reads back as the nearest tenth, ties to even. -/
namespace FreenetHarness.Lib.Number
open FreenetHarness.Lib.Text

/-! ## Integers -/

/-- `core::num::IntErrorKind`, where parsing an unsigned integer can fail. -/
inductive IntError where
  | empty
  | invalidDigit
  | posOverflow
  deriving DecidableEq, Repr

/-- `ParseIntError` as it prints. -/
def IntError.text : IntError → String
  | .empty => "cannot parse integer from empty string"
  | .invalidDigit => "invalid digit found in string"
  | .posOverflow => "number too large to fit in target type"

/-- `char::to_digit`. -/
def toDigit (radix : Nat) (c : Char) : Option Nat :=
  let n := c.toNat
  let d := if 48 ≤ n ∧ n ≤ 57 then some (n - 48)
    else if 97 ≤ n ∧ n ≤ 122 then some (n - 87)
    else if 65 ≤ n ∧ n ≤ 90 then some (n - 55)
    else none
  d.filter fun d => d < radix

/-- The digit loop of `from_str_radix`: a character that is no digit is reported
before an overflow of the value it would have extended. -/
def digitLoop (radix max : Nat) : Nat → Str → Except IntError Nat
  | acc, [] => .ok acc
  | acc, c :: cs => match toDigit radix c with
    | none => .error .invalidDigit
    | some d =>
      if acc * radix + d ≤ max then digitLoop radix max (acc * radix + d) cs
      else .error .posOverflow

/-- `from_str_radix` of an unsigned type with largest value `max`. A leading `+`
is allowed, a leading `-` is not a digit. -/
def fromStrRadix (radix max : Nat) (s : Str) : Except IntError Nat :=
  match s with
  | [] => .error .empty
  | ['+'] => .error .invalidDigit
  | ['-'] => .error .invalidDigit
  | '+' :: cs => digitLoop radix max 0 cs
  | cs => digitLoop radix max 0 cs

/-- The largest `usize` (64-bit) and `u64`. -/
def maxU64 : Nat := 2 ^ 64 - 1

/-- The largest `u128`. -/
def maxU128 : Nat := 2 ^ 128 - 1

/-- An integer in decimal, as `Display` writes it. -/
def digits (n : Nat) : Str := Nat.toDigits 10 n

theorem isDigit_range {c : Char} (h : c.isDigit = true) : 48 ≤ c.toNat ∧ c.toNat ≤ 57 :=
  Char.isDigit_iff_toNat.mp h

theorem isDigit_ne {c d : Char} (h : c.isDigit = true) (hd : d.isDigit = false) : c ≠ d := by
  rintro rfl
  exact Bool.false_ne_true (hd.symm.trans h)

theorem toDigit_ten {c : Char} (h : c.isDigit = true) : toDigit 10 c = some (c.toNat - 48) := by
  have := isDigit_range h
  simp only [toDigit, this, and_self, if_true, Option.filter_some]
  rw [if_pos (by simp; omega)]

theorem digits_isDigit {n : Nat} {c : Char} (h : c ∈ digits n) : c.isDigit = true :=
  Nat.isDigit_of_mem_toDigits (by decide) (by decide) h

theorem digits_ne_nil (n : Nat) : digits n ≠ [] := Nat.toDigits_ne_nil

theorem isDigit_not_isWhitespace {c : Char} (h : c.isDigit = true) : isWhitespace c = false := by
  have := isDigit_range h
  simp only [isWhitespace, Bool.or_eq_false_iff, Bool.and_eq_false_iff, decide_eq_false_iff_not,
    beq_eq_false_iff_ne]
  omega

theorem isWord_digits (n : Nat) : IsWord (digits n) :=
  ⟨digits_ne_nil n, fun _ hc => isDigit_not_isWhitespace (digits_isDigit hc)⟩

theorem le_ofDigitChars (cs : Str) (acc : Nat) : acc ≤ Nat.ofDigitChars 10 cs acc := by
  induction cs generalizing acc with
  | nil => simp
  | cons c cs ih =>
    rw [Nat.ofDigitChars_cons]
    exact le_trans (by omega) (ih _)

theorem ofDigitChars_cons_ten (c : Char) (cs : Str) (acc : Nat) :
    Nat.ofDigitChars 10 (c :: cs) acc = Nat.ofDigitChars 10 cs (acc * 10 + (c.toNat - 48)) := by
  have h0 : '0'.toNat = 48 := rfl
  rw [Nat.ofDigitChars_cons, h0, Nat.mul_comm]

theorem digitLoop_digits {cs : Str} {acc max : Nat} (hd : ∀ c ∈ cs, c.isDigit = true)
    (hmax : Nat.ofDigitChars 10 cs acc ≤ max) :
    digitLoop 10 max acc cs = .ok (Nat.ofDigitChars 10 cs acc) := by
  induction cs generalizing acc with
  | nil => rfl
  | cons c cs ih =>
    rw [ofDigitChars_cons_ten] at hmax ⊢
    simp only [digitLoop, toDigit_ten (hd c (by simp))]
    rw [if_pos (le_trans (le_ofDigitChars cs _) hmax)]
    exact ih (fun d hm => hd d (by simp [hm])) hmax

theorem digitLoop_overflow {cs : Str} {acc max : Nat} (hd : ∀ c ∈ cs, c.isDigit = true)
    (hacc : acc ≤ max) (hmax : max < Nat.ofDigitChars 10 cs acc) :
    digitLoop 10 max acc cs = .error .posOverflow := by
  induction cs generalizing acc with
  | nil =>
    rw [Nat.ofDigitChars_nil] at hmax
    omega
  | cons c cs ih =>
    rw [ofDigitChars_cons_ten] at hmax
    simp only [digitLoop, toDigit_ten (hd c (by simp))]
    split
    · rename_i hle
      exact ih (fun d hm => hd d (by simp [hm])) hle hmax
    · rfl

theorem fromStrRadix_cons {c : Char} (hc : c.isDigit = true) (max : Nat) (cs : Str) :
    fromStrRadix 10 max (c :: cs) = digitLoop 10 max 0 (c :: cs) := by
  have hplus : c ≠ '+' := isDigit_ne hc rfl
  have hminus : c ≠ '-' := isDigit_ne hc rfl
  unfold fromStrRadix
  split <;> simp_all

/-- A numeral, leading zeros included, is read as its value or refused as too large. -/
theorem fromStrRadix_numeral {cs : Str} {max : Nat} (hne : cs ≠ [])
    (hd : ∀ c ∈ cs, c.isDigit = true) :
    fromStrRadix 10 max cs =
      if Nat.ofDigitChars 10 cs 0 ≤ max then .ok (Nat.ofDigitChars 10 cs 0)
      else .error .posOverflow := by
  have hloop : digitLoop 10 max 0 cs =
      if Nat.ofDigitChars 10 cs 0 ≤ max then .ok (Nat.ofDigitChars 10 cs 0)
      else .error .posOverflow := by
    split
    · rename_i h
      exact digitLoop_digits hd h
    · rename_i h
      exact digitLoop_overflow hd (Nat.zero_le max) (Nat.lt_of_not_le h)
  obtain ⟨c, cs, rfl⟩ := List.exists_cons_of_ne_nil hne
  rw [← hloop, fromStrRadix_cons (hd c (by simp))]

theorem isDigit_of_toDigit {c : Char} {d : Nat} (h : toDigit 10 c = some d) :
    c.isDigit = true := by
  obtain ⟨hr, hd⟩ := Option.filter_eq_some_iff.mp h
  have hlt : d < 10 := by simpa using hd
  by_contra hc
  have hn : ¬(48 ≤ c.toNat ∧ c.toNat ≤ 57) := fun hn => hc (Char.isDigit_iff_toNat.mpr hn)
  rw [if_neg hn] at hr
  split at hr
  · cases hr
    omega
  · split at hr
    · cases hr
      omega
    · cases hr

theorem eq_of_digitLoop {cs : Str} {acc max n : Nat} (hacc : acc ≤ max)
    (h : digitLoop 10 max acc cs = .ok n) :
    (∀ c ∈ cs, c.isDigit = true) ∧ Nat.ofDigitChars 10 cs acc = n ∧ n ≤ max := by
  induction cs generalizing acc with
  | nil =>
    cases h
    exact ⟨by simp, rfl, hacc⟩
  | cons c cs ih =>
    unfold digitLoop at h
    cases hd : toDigit 10 c with
    | none => rw [hd] at h; cases h
    | some d =>
      have hdigit := isDigit_of_toDigit hd
      rw [toDigit_ten hdigit] at hd
      cases hd
      rw [toDigit_ten hdigit] at h
      dsimp only at h
      split at h
      · rename_i hle
        obtain ⟨hall, hn, hmax⟩ := ih hle h
        exact ⟨List.forall_mem_cons.mpr ⟨hdigit, hall⟩, by rw [ofDigitChars_cons_ten, hn], hmax⟩
      · cases h

/-- A leading plus changes nothing, and alone it is no number. -/
theorem fromStrRadix_plus {max : Nat} (cs : Str) (hd : ∀ c ∈ cs, c.isDigit = true) :
    fromStrRadix 10 max ('+' :: cs) =
      if cs = [] then .error .invalidDigit else fromStrRadix 10 max cs := by
  cases cs with
  | nil => rfl
  | cons c cs =>
    rw [if_neg (List.cons_ne_nil c cs), fromStrRadix_cons (hd c (by simp))]
    rfl

/-- What is read as a number is a numeral with or without a plus. -/
theorem numeral_of_fromStrRadix {s : Str} {max n : Nat} (h : fromStrRadix 10 max s = .ok n) :
    ∃ (plus : Bool) (cs : Str), s = (if plus then ['+'] else []) ++ cs ∧
      (∀ c ∈ cs, c.isDigit = true) ∧ cs ≠ [] ∧ Nat.ofDigitChars 10 cs 0 = n ∧ n ≤ max := by
  unfold fromStrRadix at h
  split at h
  · cases h
  · cases h
  · cases h
  · rename_i cs hne
    obtain ⟨hall, hn, hmax⟩ := eq_of_digitLoop (Nat.zero_le max) h
    exact ⟨true, cs, rfl, hall, fun hnil => hne (by rw [hnil]), hn, hmax⟩
  · rename_i hnil _ _ _
    obtain ⟨hall, hn, hmax⟩ := eq_of_digitLoop (Nat.zero_le max) h
    exact ⟨false, s, rfl, hall, hnil, hn, hmax⟩

/-- An integer that fits is read back as written. -/
theorem fromStrRadix_digits {n max : Nat} (h : n ≤ max) :
    fromStrRadix 10 max (digits n) = .ok n := by
  have hv : Nat.ofDigitChars 10 (digits n) 0 = n := Nat.ofDigitChars_ten_toDigits
  rw [fromStrRadix_numeral (digits_ne_nil n) fun _ hc => digits_isDigit hc, hv, if_pos h]

/-- `str::parse::<usize>`, 64-bit. -/
def parseUsize (s : Str) : Except IntError UInt64 :=
  (fromStrRadix 10 maxU64 s).map UInt64.ofNat

theorem parseUsize_digits (n : UInt64) : parseUsize (digits n.toNat) = .ok n := by
  have hn : n.toNat ≤ maxU64 := Nat.le_pred_of_lt n.toNat_lt
  simp [parseUsize, fromStrRadix_digits hn, Except.map]

/-- `str::parse::<u128>().unwrap_or(0)`. -/
def parseU128OrZero (s : Str) : Nat :=
  match fromStrRadix 10 maxU128 s with
  | .ok n => n
  | .error _ => 0

theorem parseU128OrZero_digits {n : Nat} (h : n < 2 ^ 128) : parseU128OrZero (digits n) = n := by
  have hn : fromStrRadix 10 maxU128 (digits n) = .ok n :=
    fromStrRadix_digits (Nat.le_pred_of_lt h)
  rw [parseU128OrZero, hn]

/-- `u64::to_le_bytes`. -/
def toLeBytes (n : UInt64) : List UInt8 :=
  (List.range 8).map fun k => UInt8.ofNat (n.toNat / 256 ^ k)

/-! ## Rounding -/

/-- The nearest natural number, ties to even. -/
def roundHalfEven (x : ℚ) : Nat :=
  let f := ⌊x⌋₊
  if x - f < 1 / 2 then f
  else if 1 / 2 < x - f then f + 1
  else if f % 2 = 0 then f else f + 1

theorem roundHalfEven_le_iff {x : ℚ} (hx : 0 ≤ x) (n : Nat) :
    roundHalfEven x ≤ n ↔ x < n + 1 / 2 ∨ x = n + 1 / 2 ∧ n % 2 = 0 := by
  have hlo : (⌊x⌋₊ : ℚ) ≤ x := Nat.floor_le hx
  have hhi : x < ⌊x⌋₊ + 1 := Nat.lt_floor_add_one x
  have hcast : ∀ {a b : Nat}, a + 1 ≤ b → (a : ℚ) + 1 ≤ b := by
    intro a b h; exact_mod_cast h
  unfold roundHalfEven
  rcases lt_trichotomy ⌊x⌋₊ n with h | h | h
  · have hq := hcast h
    have hle : (if x - ⌊x⌋₊ < 1 / 2 then ⌊x⌋₊ else if 1 / 2 < x - ⌊x⌋₊ then ⌊x⌋₊ + 1
        else if ⌊x⌋₊ % 2 = 0 then ⌊x⌋₊ else ⌊x⌋₊ + 1) ≤ n := by split_ifs <;> omega
    simp only [hle, true_iff]
    left; linarith
  · rw [← h]
    dsimp only
    split_ifs with h1 h2 h3
    · simp only [le_refl, true_iff]; left; linarith
    · simp only [Nat.not_succ_le_self, false_iff, not_or, not_and]
      exact ⟨by linarith, fun he => by linarith⟩
    · simp only [le_refl, true_iff]
      exact Or.inr ⟨by linarith, h3⟩
    · simp only [Nat.not_succ_le_self, false_iff, not_or, not_and]
      exact ⟨by linarith, fun _ => h3⟩
  · have hq := hcast h
    have hgt : ¬ (if x - ⌊x⌋₊ < 1 / 2 then ⌊x⌋₊ else if 1 / 2 < x - ⌊x⌋₊ then ⌊x⌋₊ + 1
        else if ⌊x⌋₊ % 2 = 0 then ⌊x⌋₊ else ⌊x⌋₊ + 1) ≤ n := by split_ifs <;> omega
    simp only [hgt, false_iff, not_or, not_and]
    exact ⟨by linarith, fun he => by linarith⟩

theorem roundHalfEven_near {x : ℚ} (hx : 0 ≤ x) :
    (roundHalfEven x : ℚ) - 1 / 2 ≤ x ∧ x ≤ roundHalfEven x + 1 / 2 := by
  have hlo : (⌊x⌋₊ : ℚ) ≤ x := Nat.floor_le hx
  have hhi : x < ⌊x⌋₊ + 1 := Nat.lt_floor_add_one x
  unfold roundHalfEven
  dsimp only
  split_ifs <;> push_cast <;> constructor <;> linarith

/-! ## Floats -/

/-- A 64-bit float, its finite values exact. -/
inductive F64 where
  | nan
  | inf (neg : Bool)
  | fin (q : ℚ)
  deriving DecidableEq

namespace F64

/-- `<=` of floats: false where either side is not a number. -/
def le : F64 → F64 → Bool
  | nan, _ => false
  | _, nan => false
  | inf true, _ => true
  | _, inf false => true
  | inf false, _ => false
  | _, inf true => false
  | fin p, fin q => decide (p ≤ q)

/-- `<` of floats. -/
def lt : F64 → F64 → Bool
  | nan, _ => false
  | _, nan => false
  | inf false, _ => false
  | _, inf true => false
  | inf true, _ => true
  | _, inf false => true
  | fin p, fin q => decide (p < q)

/-- `-` of floats. -/
def sub : F64 → F64 → F64
  | nan, _ => nan
  | _, nan => nan
  | inf a, inf b => if a = b then nan else inf a
  | inf a, fin _ => inf a
  | fin _, inf b => inf !b
  | fin p, fin q => fin (p - q)

/-- `+` of floats. -/
def add : F64 → F64 → F64
  | nan, _ => nan
  | _, nan => nan
  | inf a, inf b => if a = b then inf a else nan
  | inf a, fin _ => inf a
  | fin _, inf b => inf b
  | fin p, fin q => fin (p + q)

@[simp] theorem le_fin (p q : ℚ) : le (fin p) (fin q) = decide (p ≤ q) := rfl

@[simp] theorem lt_fin (p q : ℚ) : lt (fin p) (fin q) = decide (p < q) := rfl

@[simp] theorem sub_fin (p q : ℚ) : sub (fin p) (fin q) = fin (p - q) := rfl

@[simp] theorem add_fin (p q : ℚ) : add (fin p) (fin q) = fin (p + q) := rfl

/-- What is below after more is added is below after less is. -/
theorem add_lt_of_le {x y : F64} {m m' : ℚ} (hm : m ≤ m') (h : (x.add (fin m')).lt y = true) :
    (x.add (fin m)).lt y = true := by
  cases x with
  | nan => cases h
  | inf a => exact h
  | fin p =>
    cases y with
    | nan => cases h
    | inf b => cases b <;> exact h
    | fin q =>
      rw [add_fin, lt_fin, decide_eq_true_iff] at h ⊢
      linarith

/-- Two floats are not both below one another by a margin. -/
theorem not_lt_of_add_lt {x y : F64} {m : ℚ} (hm : 0 ≤ m) (h : (x.add (fin m)).lt y = true) :
    (y.add (fin m)).lt x = false := by
  cases x with
  | nan => cases h
  | inf a =>
    cases y with
    | nan => rfl
    | inf b => cases a <;> cases b <;> first | rfl | cases h
    | fin q => cases a <;> first | rfl | cases h
  | fin p =>
    cases y with
    | nan => rfl
    | inf b => cases b <;> first | rfl | cases h
    | fin q =>
      rw [add_fin, lt_fin, decide_eq_true_iff] at h
      rw [add_fin, lt_fin, decide_eq_false_iff_not]
      linarith

end F64

/-- A number in tenths, as `{:.1}` rounds it. -/
def tenths (q : ℚ) : Nat := roundHalfEven (|q| * 10)

/-- `{:.1}` of a finite float. -/
def print1 (q : ℚ) : Str :=
  (if q < 0 then ['-'] else []) ++ digits (tenths q / 10) ++
    ['.', Nat.digitChar (tenths q % 10)]

/-- `{:.0}` of a finite float. -/
def print0 (q : ℚ) : Str := (if q < 0 then ['-'] else []) ++ digits (roundHalfEven |q|)

/-- `{:0w}` of a whole number. -/
def zeroPad (w n : Nat) : Str := List.replicate (w - (digits n).length) '0' ++ digits n

/-- A number in units of its `p`-th decimal place, as `{:.p}` rounds it. -/
def inPlaces (p : Nat) (q : ℚ) : Nat := roundHalfEven (|q| * 10 ^ p)

/-- `{:.p}` of a finite float, with at least one place. -/
def printPlaces (p : Nat) (q : ℚ) : Str :=
  (if q < 0 then ['-'] else []) ++ digits (inPlaces p q / 10 ^ p) ++
    '.' :: zeroPad p (inPlaces p q % 10 ^ p)

/-- `{:.1}` of a float. -/
def F64.print1 : F64 → Str
  | .nan => "NaN".toList
  | .inf neg => if neg then "-inf".toList else "inf".toList
  | .fin q => Number.print1 q

/-- The value of a decimal fraction given by its digits before and after the
point. -/
def decimalValue (i f : Str) : ℚ := (Nat.ofDigitChars 10 (i ++ f) 0 : ℚ) / 10 ^ f.length

/-- The exponent after an `e`: an optional sign and at least one digit. -/
def parseExponent (s : Str) : Option ℤ :=
  let (neg, ds) := match s with
    | '-' :: ds => (true, ds)
    | '+' :: ds => (false, ds)
    | ds => (false, ds)
  if ds ≠ [] ∧ ds.all Char.isDigit then
    let n : ℤ := Nat.ofDigitChars 10 ds 0
    some (if neg then -n else n)
  else none

/-- Digits with at most one point and an optional exponent, at least one digit
before the exponent. -/
def parseNumber (s : Str) : Option ℚ :=
  let i := s.takeWhile Char.isDigit
  let r := s.dropWhile Char.isDigit
  let (f, r) := match r with
    | '.' :: r => (r.takeWhile Char.isDigit, r.dropWhile Char.isDigit)
    | r => ([], r)
  if i = [] ∧ f = [] then none
  else match r with
    | [] => some (decimalValue i f)
    | e :: r =>
      if e = 'e' ∨ e = 'E' then (parseExponent r).map fun x => decimalValue i f * 10 ^ x
      else none

/-- What is left of a number's text after an optional sign. -/
def dropSign : Str → Str
  | [] => []
  | c :: r => if c = '-' ∨ c = '+' then r else c :: r

/-- `str::parse::<f64>`. -/
def parseF64 (s : Str) : Option F64 :=
  let neg := s.head? = some '-'
  let body := dropSign s
  match parseNumber body with
  | some q => some (.fin (if neg then -q else q))
  | none =>
    let low := body.map Char.toLower
    if low = "nan".toList then some .nan
    else if low = "inf".toList ∨ low = "infinity".toList then some (.inf neg)
    else none

theorem takeWhile_digits {i r : Str} (hi : ∀ c ∈ i, c.isDigit = true)
    (hr : ∀ c ∈ r.head?, c.isDigit = false) :
    (i ++ r).takeWhile Char.isDigit = i ∧ (i ++ r).dropWhile Char.isDigit = r := by
  have hr' : r.takeWhile Char.isDigit = [] ∧ r.dropWhile Char.isDigit = r := by
    cases r with
    | nil => simp
    | cons c r => simp [hr c (by simp)]
  rw [List.takeWhile_append_of_pos hi, List.dropWhile_append_of_pos hi, hr'.1, hr'.2]
  simp

theorem digits_inj {m n : Nat} (h : digits m = digits n) : m = n := by
  have := congrArg (fun cs => Nat.ofDigitChars 10 cs 0) h
  simpa [digits, Nat.ofDigitChars_ten_toDigits] using this

/-- A number read back from behind the last mark of a name. -/
theorem numbered_inj {s t : String} {m n : Nat} (h : s!"{s}/{m}" = s!"{t}/{n}") : m = n := by
  have hmark : ∀ k, '/' ∉ digits k := fun k hk => isDigit_ne (digits_isDigit hk) rfl rfl
  have hlist : s.toList ++ '/' :: digits m = t.toList ++ '/' :: digits n := by
    simpa [toString, digits] using congrArg String.toList h
  have hsplit := congrArg (rsplitOnce '/') hlist
  rw [rsplitOnce_append _ (hmark m), rsplitOnce_append _ (hmark n)] at hsplit
  exact digits_inj (Prod.mk.inj (Option.some.inj hsplit)).2

/-- What is before the first mark that is no digit, and what is after it. -/
theorem marked_inj {i j r r' : Str} {c : Char} (hc : c.isDigit = false)
    (hi : ∀ d ∈ i, d.isDigit = true) (hj : ∀ d ∈ j, d.isDigit = true)
    (h : i ++ c :: r = j ++ c :: r') : i = j ∧ r = r' := by
  have hsplit : ∀ x y : Str, (∀ d ∈ x, d.isDigit = true) →
      (x ++ c :: y).takeWhile Char.isDigit = x ∧ (x ++ c :: y).dropWhile Char.isDigit = c :: y :=
    fun x y hx => takeWhile_digits hx (by simpa using hc)
  have hleft := congrArg (List.takeWhile Char.isDigit) h
  have hright := congrArg (List.dropWhile Char.isDigit) h
  rw [(hsplit i r hi).1, (hsplit j r' hj).1] at hleft
  rw [(hsplit i r hi).2, (hsplit j r' hj).2] at hright
  exact ⟨hleft, (List.cons.inj hright).2⟩

/-- Two numbers with a mark between them read back as themselves. -/
theorem digits_append_inj {a b m n : Nat} {c : Char} (hc : c.isDigit = false)
    (h : digits a ++ c :: digits b = digits m ++ c :: digits n) : a = m ∧ b = n := by
  obtain ⟨hleft, hright⟩ :=
    marked_inj hc (fun _ => digits_isDigit) (fun _ => digits_isDigit) h
  exact ⟨digits_inj hleft, digits_inj hright⟩

theorem zeroPad_isDigit {w n : Nat} {c : Char} (h : c ∈ zeroPad w n) : c.isDigit = true := by
  rcases List.mem_append.mp h with h | h
  · obtain rfl := List.eq_of_mem_replicate h
    rfl
  · exact digits_isDigit h

/-- Zeros in front do not change the number. -/
theorem ofDigitChars_zeroPad (w n : Nat) : Nat.ofDigitChars 10 (zeroPad w n) 0 = n := by
  have hzeros : ∀ (k : Nat) (cs : Str),
      Nat.ofDigitChars 10 (List.replicate k '0' ++ cs) 0 = Nat.ofDigitChars 10 cs 0 := by
    intro k cs
    induction k with
    | zero => rfl
    | succ k ih =>
      rw [List.replicate_succ, List.cons_append, ofDigitChars_cons_ten]
      exact ih
  rw [zeroPad, hzeros, digits, Nat.ofDigitChars_ten_toDigits]

theorem zeroPad_inj {w m n : Nat} (h : zeroPad w m = zeroPad w n) : m = n := by
  rw [← ofDigitChars_zeroPad w m, h, ofDigitChars_zeroPad]

/-- A padded number before a mark, and what is after it. -/
theorem zeroPad_append_inj {w m n : Nat} {r r' : Str} {c : Char} (hc : c.isDigit = false)
    (h : zeroPad w m ++ c :: r = zeroPad w n ++ c :: r') : m = n ∧ r = r' := by
  obtain ⟨hleft, hright⟩ := marked_inj hc (fun _ => zeroPad_isDigit) (fun _ => zeroPad_isDigit) h
  exact ⟨zeroPad_inj hleft, hright⟩

theorem parseF64_of_digit {c : Char} {s : Str} {q : ℚ} (hc : c.isDigit = true)
    (h : parseNumber (c :: s) = some q) : parseF64 (c :: s) = some (.fin q) := by
  have hplus : c ≠ '+' := isDigit_ne hc rfl
  have hminus : c ≠ '-' := isDigit_ne hc rfl
  have hbody : dropSign (c :: s) = c :: s := by simp [dropSign, hplus, hminus]
  simp [parseF64, hbody, h, hminus]

/-- A whole number. -/
theorem parseF64_whole {i : Str} (hne : i ≠ []) (hi : ∀ c ∈ i, c.isDigit = true) :
    parseF64 i = some (.fin (Nat.ofDigitChars 10 i 0)) := by
  have hw := takeWhile_digits (r := []) hi (by simp)
  rw [List.append_nil] at hw
  have hn : parseNumber i = some (Nat.ofDigitChars 10 i 0 : ℚ) := by
    simp [parseNumber, hw.1, hw.2, hne, decimalValue]
  obtain ⟨c, s, rfl⟩ := List.exists_cons_of_ne_nil hne
  exact parseF64_of_digit (hi c (by simp)) hn

/-- A number with a point, with or without digits after it. -/
theorem parseF64_point {i f : Str} (hne : i ≠ []) (hi : ∀ c ∈ i, c.isDigit = true)
    (hf : ∀ c ∈ f, c.isDigit = true) :
    parseF64 (i ++ '.' :: f) = some (.fin (decimalValue i f)) := by
  have hw := takeWhile_digits (r := '.' :: f) hi (by simp)
  have hv := takeWhile_digits (r := []) hf (by simp)
  rw [List.append_nil] at hv
  have hn : parseNumber (i ++ '.' :: f) = some (decimalValue i f) := by
    simp [parseNumber, hw.1, hw.2, hv.1, hv.2, hne]
  obtain ⟨c, s, rfl⟩ := List.exists_cons_of_ne_nil hne
  exact parseF64_of_digit (hi c (by simp)) hn

theorem digitChar_isDigit {d : Nat} (h : d < 10) : (Nat.digitChar d).isDigit = true := by
  simp [Nat.isDigit_digitChar, h]

theorem print1_nonneg {q : ℚ} (h : 0 ≤ q) :
    print1 q = digits (tenths q / 10) ++ '.' :: [Nat.digitChar (tenths q % 10)] := by
  simp [print1, not_lt.mpr h]

theorem isWord_print1 {q : ℚ} (h : 0 ≤ q) : IsWord (print1 q) := by
  rw [print1_nonneg h]
  refine ⟨by simp, fun c hc => ?_⟩
  simp only [List.mem_append, List.mem_cons, List.not_mem_nil, or_false] at hc
  rcases hc with hc | rfl | rfl
  · exact isDigit_not_isWhitespace (digits_isDigit hc)
  · decide
  · exact isDigit_not_isWhitespace (digitChar_isDigit (by omega))

/-- **What one decimal keeps.** A non-negative time printed with one decimal
reads back as its nearest tenth. -/
theorem parseF64_print1 {q : ℚ} (h : 0 ≤ q) :
    parseF64 (print1 q) = some (.fin ((tenths q : ℚ) / 10)) := by
  have hd : tenths q % 10 < 10 := Nat.mod_lt _ (by decide)
  have hv : Nat.ofDigitChars 10
      (digits (tenths q / 10) ++ [Nat.digitChar (tenths q % 10)]) 0 = tenths q := by
    rw [Nat.ofDigitChars_append, show Nat.ofDigitChars 10 (digits (tenths q / 10)) 0 =
      tenths q / 10 from Nat.ofDigitChars_ten_toDigits,
      Nat.ofDigitChars_cons_digitChar_of_lt_ten hd, Nat.ofDigitChars_nil]
    omega
  rw [print1_nonneg h, parseF64_point (digits_ne_nil _) (fun _ hc => digits_isDigit hc)
    (by simp [digitChar_isDigit hd]), decimalValue, hv]
  norm_num

/-- Every non-empty beginning of a printed time reads as some number. -/
theorem parseF64_prefix_print1 {q : ℚ} {p : Str} (h : 0 ≤ q) (hp : p <+: print1 q)
    (hne : p ≠ []) : ∃ v, parseF64 p = some (.fin v) := by
  have hd : tenths q % 10 < 10 := Nat.mod_lt _ (by decide)
  rw [print1_nonneg h] at hp
  rcases prefix_append_cases hp with hp | ⟨r, hr, hpre, rfl⟩
  · exact ⟨_, parseF64_whole hne fun c hc => digits_isDigit (hp.subset hc)⟩
  · obtain ⟨c, f, rfl⟩ := List.exists_cons_of_ne_nil hr
    obtain ⟨rfl, hf⟩ := List.cons_prefix_cons.mp hpre
    refine ⟨_, parseF64_point (digits_ne_nil _) (fun c hc => digits_isDigit hc) fun c hc => ?_⟩
    obtain rfl := List.mem_singleton.mp (hf.subset hc)
    exact digitChar_isDigit hd

end FreenetHarness.Lib.Number
