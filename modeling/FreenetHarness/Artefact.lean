import FreenetHarness.Hex
import FreenetHarness.Lib.Programs

/-! # The artefact gate

A run loads a contract only if the caller says which build it is. `exec_load` says what the
gate opens and what it lets through: the flag is judged before the file is opened, and a
file passes when its digest begins with what the flag says. -/
namespace FreenetHarness.Artefact
open FreenetHarness.Lib.Text FreenetHarness.Lib.Number FreenetHarness.Lib.Programs
open FreenetHarness.Parity (hexify hexify_cons)

abbrev Bytes := List UInt8

/-- Why an artefact is refused. -/
inductive Refusal where
  | empty (path : Str)
  | short (want : Str)
  | notHex (want : Str)
  | unread (path : Str) (e : String)
  | mismatch (path got want : Str)
  deriving DecidableEq

/-- Shortest prefix accepted. -/
def minPrefix : Nat := 8

/-- The message; `quote` is how a text prints under `{:?}`. -/
def Refusal.text (quote : Str → String) : Refusal → String
  | .empty path =>
    "--expect-sha is empty. It is required: pass the sha256 that " ++
      s!"freenet-contracts/build.sh printed for {String.ofList path} (a prefix is enough)."
  | .short want =>
    s!"--expect-sha {quote want} is {byteLen want} hex chars; at least {minPrefix} are " ++
      "required. A short prefix matches artefacts it was never meant to."
  | .notHex want => s!"--expect-sha {quote want} is not hex — a non-hex value can never match."
  | .unread path e => s!"{String.ofList path}: {e} — run ../freenet-contracts/build.sh first"
  | .mismatch path got want =>
    s!"wasm mismatch: {String.ofList path} is sha256 {String.ofList (got.take 16)} but " ++
      s!"--expect-sha said {String.ofList want}.\n  Refusing to run: a round trip against the " ++
      "wrong artefact reports a PASS for a contract nobody ships. Rebuild with " ++
      "freenet-contracts/build.sh, or pass the hash it printed."

def isAsciiHexdigit (c : Char) : Bool := (toDigit 16 c).isSome

/-- What the outside is: the digest, Unicode's lower case, and what a path reads as. -/
structure Outside where
  sha256 : Bytes → Vector UInt8 32
  lower : Str → Str
  files : Str → Except String Bytes

variable (o : Outside)

def sha256Hex (bytes : Bytes) : Str := hexify (o.sha256 bytes).toList

/-- What is asked for, as it is compared. -/
def wanted (expect : Str) : Str := o.lower (trim expect)

/-- A flag the gate takes before it opens anything. -/
def judge (path want : Str) : Except Refusal Unit :=
  if want = [] then .error (.empty path)
  else if byteLen want < minPrefix then .error (.short want)
  else if want.all isAsciiHexdigit = false then .error (.notHex want)
  else .ok ()

/-- Read a wasm and check it against `expect`. The state is the paths opened so far. -/
def load (path expect : Str) : Program (List Str) Refusal Bytes := do
  let want := wanted o expect
  attempt (judge path want)
  modify (· ++ [path])
  let bytes ← attempt ((o.files path).mapError (.unread path))
  let got := sha256Hex o bytes
  if want.isPrefixOf got then return bytes
  else throw (.mismatch path got want)

/-! ## What passes -/

/-- A file with this content passes for this flag. -/
structure Passes (path expect : Str) (bytes : Bytes) : Prop where
  read : o.files path = .ok bytes
  long : minPrefix ≤ (wanted o expect).length
  begins : wanted o expect <+: sha256Hex o bytes

theorem mem_hexify {c : Char} {bs : List UInt8} (h : c ∈ hexify bs) : isAsciiHexdigit c = true := by
  induction bs with
  | nil => cases h
  | cons b bs ih =>
    have hdigit : ∀ d < 16, isAsciiHexdigit (Nat.digitChar d) = true := by decide
    have hb := b.toNat_lt
    rw [hexify_cons, List.mem_cons, List.mem_cons] at h
    obtain rfl | rfl | h := h
    · exact hdigit _ (by omega)
    · exact hdigit _ (by omega)
    · exact ih h

theorem utf8Size_of_hexdigit {c : Char} (h : isAsciiHexdigit c = true) : c.utf8Size = 1 := by
  have hn : c.toNat ≤ 122 := by
    unfold isAsciiHexdigit toDigit at h
    grind
  have hval : c.val ≤ 0x7f := by
    show c.val.toNat ≤ 0x7f
    exact hn.trans (by decide)
  exact if_pos hval

theorem byteLen_eq_length {s : Str} (h : ∀ c ∈ s, c.utf8Size = 1) : byteLen s = s.length := by
  induction s with
  | nil => rfl
  | cons c s ih =>
    rw [byteLen_cons, h c (List.mem_cons_self ..), ih fun d hd => h d (List.mem_cons_of_mem _ hd),
      List.length_cons, Nat.add_comm]

/-- Nothing that the flag is judged for keeps out a beginning of a digest. -/
theorem judge_of_prefix {path want : Str} {bytes : Bytes} (hlong : minPrefix ≤ want.length)
    (h : want <+: sha256Hex o bytes) : judge path want = .ok () := by
  have hhex : ∀ c ∈ want, isAsciiHexdigit c = true := fun c hc => mem_hexify (h.subset hc)
  have hlen : byteLen want = want.length :=
    byteLen_eq_length fun c hc => utf8Size_of_hexdigit (hhex c hc)
  have hne : want ≠ [] := fun hnil => by simp [hnil, minPrefix] at hlong
  unfold judge
  rw [if_neg hne, if_neg (by omega), if_neg]
  simpa using hhex

/-- A flag that is refused opens nothing; any other opens the path, and it alone. -/
theorem exec_load (path expect : Str) (opened : List Str) :
    exec (load o path expect) opened =
      match judge path (wanted o expect) with
      | .error r => (.error r, opened)
      | .ok () => match o.files path with
        | .error e => (.error (.unread path e), opened ++ [path])
        | .ok bytes =>
          (if (wanted o expect).isPrefixOf (sha256Hex o bytes) then .ok bytes
            else .error (.mismatch path (sha256Hex o bytes) (wanted o expect)),
            opened ++ [path]) := by
  unfold load
  simp only [exec_bind, exec_attempt, exec_modify]
  cases judge path (wanted o expect) with
  | error r => rfl
  | ok u =>
    cases o.files path with
    | error e => rfl
    | ok bytes =>
      by_cases hp : (wanted o expect).isPrefixOf (sha256Hex o bytes)
      · simp [hp, Except.mapError, exec_pure]
      · simp [hp, Except.mapError, exec_throw]

theorem load_opened (path expect : Str) (opened : List Str) :
    (exec (load o path expect) opened).2 =
      opened ++ if (judge path (wanted o expect)).isOk then [path] else [] := by
  rw [exec_load]
  cases judge path (wanted o expect) with
  | error r => simp [Except.isOk, Except.toBool]
  | ok u => cases o.files path <;> rfl

/-- A flag that is taken is at least eight hex digits. -/
theorem of_judge {path want : Str} (h : judge path want = .ok ()) : minPrefix ≤ want.length := by
  unfold judge at h
  split at h
  · cases h
  · split at h
    · cases h
    · rename_i hshort
      split at h
      · cases h
      · rename_i hhex
        have hall : ∀ c ∈ want, isAsciiHexdigit c = true := by simpa using hhex
        rw [byteLen_eq_length fun c hc => utf8Size_of_hexdigit (hall c hc)] at hshort
        exact Nat.le_of_not_lt hshort

/-- **The gate.** -/
theorem load_ok_iff {path expect : Str} {opened opened' : List Str} {bytes : Bytes} :
    exec (load o path expect) opened = (.ok bytes, opened') ↔
      Passes o path expect bytes ∧ opened' = opened ++ [path] := by
  rw [exec_load]
  constructor
  · intro h
    cases hj : judge path (wanted o expect) with
    | error r => simp [hj] at h
    | ok u =>
      cases hf : o.files path with
      | error e => simp [hj, hf] at h
      | ok got =>
        simp only [hj, hf, Prod.mk.injEq] at h
        obtain ⟨h, rfl⟩ := h
        split at h
        · rename_i hp
          cases h
          exact ⟨⟨hf, of_judge hj, List.isPrefixOf_iff_prefix.mp hp⟩, rfl⟩
        · cases h
  · rintro ⟨⟨hf, hlong, hp⟩, rfl⟩
    have hj : judge path (wanted o expect) = .ok () := judge_of_prefix o hlong hp
    simp [hj, hf, List.isPrefixOf_iff_prefix.mpr hp]

end FreenetHarness.Artefact
