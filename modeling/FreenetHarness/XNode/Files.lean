import FreenetHarness.XNode.Pair

/-! # The lines the cross-node roles exchange

A writer prints `PUT` lines, or `MINT` lines for keys nobody has sent yet; a reader
takes either as its keys and prints a `READ` line for each key it could read; the pair
role joins the two files. -/
namespace FreenetHarness.XNode
open FreenetHarness.Lib.Text FreenetHarness.Lib.Number

/-! ## What the reader takes -/

/-- The key of an accepted line, its send time and its size: `MINT` lines do not carry
a send time. -/
def keyLine (l : Str) : Option (Str × Nat × Str) :=
  match words l with
  | tag :: key :: rest =>
    if tag = "PUT".toList then
      match rest with
      | tSend :: _ :: size :: _ => some (key, parseU128OrZero tSend, size)
      | _ => none
    else if tag = "MINT".toList then
      match rest with
      | size :: _ => some (key, 0, size)
      | [] => none
    else none
  | _ => none

/-- The line of a key that was read `deltaMs` after its send time. -/
def readLine (key size : Str) (deltaMs : ℚ) : Str :=
  unwords ["READ".toList, key, size, print1 deltaMs]

/-! ## What the pair role takes -/

def parseUnacked (s : Option Str) : Option Bool :=
  if s = some "unacked".toList then some true
  else if s = some "acked".toList then some false
  else none

/-- One `PUT` line of either writer role. -/
def parsePut (l : Str) : Option Send :=
  match words l with
  | tag :: key :: sentNs :: confirmMs :: size :: rest =>
    if tag = "PUT".toList then some
      { key, sentNs := parseU128OrZero sentNs, confirmMs := parseF64 confirmMs
        size := (parseUsize size).toOption.getD 0
        arm := (rest[0]?.map Arm.parse).getD .control
        unackedAtT := parseUnacked rest[1]?
        hedged := rest[2]? = some "hedged".toList
        ackMs := rest[3]?.bind parseF64 }
    else none
  | _ => none

/-- One `READ` line. -/
def parseRead (l : Str) : Option Hit :=
  match words l with
  | tag :: key :: size :: atMs :: _ =>
    if tag = "READ".toList then some
      { key, size := (parseUsize size).toOption.getD 0, atMs := (parseF64 atMs).getD (.fin 0) }
    else none
  | _ => none

def sendsOf (put : Str) : List Send := (lines put).filterMap parsePut

def hitsIn (read : Str) : List Hit := (lines read).filterMap parseRead

/-- What the pair role makes of a writer's and a reader's output. -/
def pairFiles (put read : Str) : Paired := pair (sendsOf put) (hitsIn read)

/-- The times of a line as doubles, which is what its decimals are read as. -/
def Send.held (s : Send) : Send :=
  { s with confirmMs := s.confirmMs.map F64.round, ackMs := s.ackMs.map F64.round }

def Hit.held (h : Hit) : Hit := { h with atMs := h.atMs.round }

/-- `pairFiles` of times that are doubles. -/
def pairFiles64 (put read : Str) : Paired :=
  pair64 ((sendsOf put).map Send.held) ((hitsIn read).map Hit.held)

/-! ## The reader's line reads back -/

theorem isWord_readLine {key size : Str} (hk : IsWord key) (hs : IsWord size) {ms : ℚ}
    (hms : 0 ≤ ms) : ∀ w ∈ ["READ".toList, key, size, print1 ms], IsWord w := by
  intro w hw
  simp only [List.mem_cons, List.not_mem_nil, or_false] at hw
  rcases hw with rfl | rfl | rfl | rfl
  · decide
  · exact hk
  · exact hs
  · exact isWord_print1 hms

/-- The number on a `READ` line is taken as the absolute time of the hit, to the
nearest tenth. -/
theorem parseRead_readLine {key size : Str} (hk : IsWord key) (hs : IsWord size) {ms : ℚ}
    (hms : 0 ≤ ms) :
    parseRead (readLine key size ms) = some
      { key, size := (parseUsize size).toOption.getD 0, atMs := .fin (tenths ms / 10) } := by
  unfold parseRead readLine
  rw [words_unwords (isWord_readLine hk hs hms)]
  simp only [if_true, parseF64_print1 hms, Option.getD_some]

/-- The key and the size of an accepted line are one word each. -/
theorem isWord_of_keyLine {l key size : Str} {tSend : Nat}
    (h : keyLine l = some (key, tSend, size)) : IsWord key ∧ IsWord size := by
  have hword : ∀ w ∈ words l, IsWord w := fun w hw => isWord_of_mem_words hw
  unfold keyLine at h
  split at h
  · rename_i tag k rest hw
    rw [hw] at hword
    split at h
    · split at h
      · cases h
        exact ⟨hword _ (by simp), hword _ (by simp)⟩
      · cases h
    · split at h
      · split at h
        · cases h
          exact ⟨hword _ (by simp), hword _ (by simp)⟩
        · cases h
      · cases h
  · cases h

end FreenetHarness.XNode
