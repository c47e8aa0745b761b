import FreenetHarness.Parity.Format

/-! # The file a write role appends

The bound, then the blocks and acknowledgements in the order they happened. Every
result here is about such a file with a tail: the part of one more line that a
run which died may have left. -/
namespace FreenetHarness.Parity
open FreenetHarness.Lib.Text FreenetHarness.Lib.Number

/-- One line of the file after its first. -/
inductive Entry where
  | block (b : Block)
  | ack (key : Str) (ms : ℚ)
  deriving DecidableEq

/-- The words of an acknowledgement's line but its time. -/
def ackFields (key : Str) : List Str := ["ACK".toList, key]

def Entry.line : Entry → Str
  | .block b => b.line
  | .ack key ms => unwords (ackFields key ++ [print1 ms])

/-- What the write role appends: a block as it is sent, or the time its
acknowledgement took. -/
def Entry.Written : Entry → Prop
  | .block b => b.Sent
  | .ack key ms => IsWord key ∧ 0 ≤ ms

def header (bound : Nat) : Str := boundTag ++ digits bound

def fileLines (bound : Nat) (es : List Entry) : List Str := header bound :: es.map Entry.line

def fileText (bound : Nat) (es : List Entry) : Str := unlines (fileLines bound es)

/-! ## What the file says -/

def Entry.block? : Entry → Option Block
  | .block b => some b
  | .ack _ _ => none

/-- An acknowledgement and its time as printed. -/
def Entry.ack? : Entry → Option (Str × F64)
  | .block _ => none
  | .ack key ms => some (key, .fin (tenths ms / 10))

def blocks (es : List Entry) : List Block := es.filterMap Entry.block?

/-- The printed time of the first acknowledgement for a key. -/
def firstAck (es : List Entry) (key : Str) : Option F64 := (es.filterMap Entry.ack?).lookup key

/-- The blocks of a file, each outcome decided by the first acknowledgement in it. -/
def readBack (bound : Nat) (es : List Entry) : List Block :=
  (blocks es).map fun b => { b with ack := judge (.fin bound) (firstAck es b.key) }

theorem mem_blocks {es : List Entry} {b : Block} : b ∈ blocks es ↔ .block b ∈ es := by
  simp only [blocks, List.mem_filterMap]
  constructor
  · rintro ⟨e, he, hb⟩
    cases e with
    | block b' => cases hb; exact he
    | ack key ms => cases hb
  · exact fun h => ⟨_, h, rfl⟩

theorem firstAck_eq_none {es : List Entry} {key : Str} :
    firstAck es key = none ↔ ∀ ms, .ack key ms ∉ es := by
  simp only [firstAck, List.lookup_eq_none_iff, List.mem_filterMap]
  constructor
  · intro h ms hm
    exact absurd (h (key, .fin (tenths ms / 10)) ⟨_, hm, rfl⟩) (by simp)
  · rintro h ⟨k, v⟩ ⟨e, he, hk⟩
    cases e with
    | block b => cases hk
    | ack key' ms =>
      cases hk
      by_contra heq
      have heq : key = k := by simpa using heq
      exact h ms (heq ▸ he)

theorem lookup_cons_eq {α : Type} (k : Str) (v : α) (l : List (Str × α)) (key : Str) :
    ((k, v) :: l).lookup key = if k = key then some v else l.lookup key := by
  by_cases h : k = key
  · simp [h]
  · have hne : (key == k) = false := by simpa using fun he => h he.symm
    simp [List.lookup_cons, hne, h]

theorem blocks_append (es fs : List Entry) : blocks (es ++ fs) = blocks es ++ blocks fs :=
  List.filterMap_append

theorem firstAck_append (es fs : List Entry) (key : Str) :
    firstAck (es ++ fs) key = (firstAck es key).or (firstAck fs key) := by
  simp only [firstAck, List.filterMap_append, List.lookup_append]

@[simp] theorem firstAck_block (b : Block) (key : Str) : firstAck [.block b] key = none := rfl

@[simp] theorem firstAck_ack (k : Str) (ms : ℚ) (key : Str) :
    firstAck [.ack k ms] key = if k = key then some (.fin (tenths ms / 10)) else none :=
  lookup_cons_eq k _ [] key

/-! ## Its lines -/

theorem isWord_ack {key : Str} (h : IsWord key) : ∀ w ∈ ackFields key, IsWord w := by
  intro w hw
  simp only [ackFields, List.mem_cons, List.not_mem_nil, or_false] at hw
  rcases hw with rfl | rfl
  · decide
  · exact h

theorem words_ack {key : Str} {ms : ℚ} (hk : IsWord key) (hms : 0 ≤ ms) :
    words (unwords (ackFields key ++ [print1 ms])) = ackFields key ++ [print1 ms] := by
  apply words_unwords
  intro w hw
  rcases List.mem_append.mp hw with hw | hw
  · exact isWord_ack hk w hw
  · rw [List.mem_singleton.mp hw]
    exact isWord_print1 hms

theorem unwords_ne_nil {ws : List Str} {w : Str} (h : w ≠ []) : unwords (w :: ws) ≠ [] := by
  cases ws with
  | nil => simpa [unwords] using h
  | cons v vs => simp [unwords, List.intercalate_cons_cons]

theorem Entry.Written.line {e : Entry} (h : e.Written) : Flat e.line ∧ e.line ≠ [] := by
  cases e with
  | block b =>
    exact ⟨flat_unwords_of_isWord (Block.Sent.isWord h), unwords_ne_nil (by decide)⟩
  | ack key ms =>
    obtain ⟨hk, hms⟩ := h
    refine ⟨flat_unwords_of_isWord fun w hw => ?_, unwords_ne_nil (by decide)⟩
    rcases List.mem_append.mp hw with hw | hw
    · exact isWord_ack hk w hw
    · rw [List.mem_singleton.mp hw]
      exact isWord_print1 hms

theorem words_header (bound : Nat) :
    words (header bound) = ["#".toList, "ack-bound-ms".toList, digits bound] := by
  have htag : boundTag = unwords ["#".toList, "ack-bound-ms".toList] ++ [' '] := by decide
  have : header bound = unwords (["#".toList, "ack-bound-ms".toList] ++ [digits bound]) := by
    rw [unwords_concat (by decide), header, htag, List.append_assoc, List.singleton_append]
  rw [this, words_unwords]
  · rfl
  intro w hw
  simp only [List.cons_append, List.nil_append, List.mem_cons, List.not_mem_nil, or_false] at hw
  rcases hw with rfl | rfl | rfl
  · decide
  · decide
  · exact isWord_digits bound

theorem flat_header (bound : Nat) : Flat (header bound) := by
  intro c hc
  have htag : Flat boundTag := by decide
  rcases List.mem_append.mp hc with hc | hc
  · exact htag c hc
  · exact (isWord_digits bound).flat c hc

/-! ## Reading it line by line -/

theorem parseBlocks_append (xs ys : List Str) :
    parseBlocks (xs ++ ys) = do return (← parseBlocks xs) ++ (← parseBlocks ys) := by
  induction xs with
  | nil =>
    simp only [List.nil_append, parseBlocks, bind, Except.bind, pure, Except.pure]
    cases parseBlocks ys <;> rfl
  | cons x xs ih =>
    simp only [List.cons_append, parseBlocks, bind, Except.bind, pure, Except.pure, ih]
    cases parseBlock x with
    | error e => rfl
    | ok b =>
      cases parseBlocks xs with
      | error e => rfl
      | ok bs => cases parseBlocks ys <;> simp

/-- A line of few words is no block's. -/
theorem parseBlock_of_length {l : Str} (h : (words l).length < 12) : parseBlock l = .ok none := by
  unfold parseBlock
  split
  · rename_i hw
    rw [hw] at h
    simp only [List.length_cons] at h
    omega
  · rfl

theorem parseBlocks_entries {es : List Entry} (h : ∀ e ∈ es, e.Written) :
    parseBlocks (es.map Entry.line) = .ok (blocks es) := by
  induction es with
  | nil => rfl
  | cons e es ih =>
    have ih := ih fun x hx => h x (by simp [hx])
    have he := h e (by simp)
    cases e with
    | block b =>
      have hb : parseBlock (Entry.line (.block b)) = _ := Block.Sent.parseBlock_line he
      simp [parseBlocks, hb, ih, bind, Except.bind, pure, Except.pure, blocks, Entry.block?]
    | ack key ms =>
      have hb : parseBlock (Entry.line (.ack key ms)) = .ok none := by
        apply parseBlock_of_length
        rw [Entry.line, words_ack he.1 he.2]
        simp [ackFields]
      simp [parseBlocks, hb, ih, bind, Except.bind, pure, Except.pure, blocks,
        List.filterMap_cons, Entry.block?]

theorem parseAck_of_head {l : Str} {w : Str} {ws : List Str} (hw : words l = w :: ws)
    (hne : w ≠ "ACK".toList) : parseAck l = none := by
  unfold parseAck
  split
  · rename_i h
    rw [hw] at h
    obtain ⟨rfl, -⟩ := List.cons.inj h
    rw [if_neg hne]
  · rfl

theorem parseAck_of_length {l : Str} (h : (words l).length < 3) : parseAck l = none := by
  unfold parseAck
  split
  · rename_i hw
    rw [hw] at h
    simp only [List.length_cons] at h
    omega
  · rfl

theorem parseAck_ack {l key ms : Str} (h : words l = ackFields key ++ [ms]) :
    parseAck l = (parseF64 ms).map (key, ·) := by
  simp [parseAck, h, ackFields]

theorem acks_entries {es : List Entry} (h : ∀ e ∈ es, e.Written) :
    acks (es.map Entry.line) = es.filterMap Entry.ack? := by
  rw [acks, List.filterMap_map]
  apply List.filterMap_congr
  intro e he
  have he := h e he
  cases e with
  | block b => exact parseAck_of_head (Block.Sent.words_line he) (by decide)
  | ack key ms =>
    rw [Function.comp_apply, Entry.line, parseAck_ack (words_ack he.1 he.2),
      parseF64_print1 he.2]
    rfl

theorem ackBound_header (bound : Nat) (ls : List Str) :
    ackBound (header bound :: ls) = .fin bound := by
  have hd := parseF64_whole (digits_ne_nil bound) fun _ hc => digits_isDigit hc
  rw [show Nat.ofDigitChars 10 (digits bound) 0 = bound from Nat.ofDigitChars_ten_toDigits] at hd
  simp [ackBound, header, stripPrefix_append, trim_of_isWord (isWord_digits bound), hd]

/-- **Reading a file with a tail.** The blocks of the tail come last, and its
acknowledgements decide only for keys without an earlier one. -/
theorem parseLines_file (path : String) (bound : Nat) {es : List Entry}
    (h : ∀ e ∈ es, e.Written) (tail : List Str) :
    parseLines path (fileLines bound es ++ tail) = do
      let out := blocks es ++ (← parseBlocks tail)
      if out = [] then
        .error (.bail s!"{path}: no GROUP lines — the write role wrote nothing")
      else
        return out.map fun b =>
          { b with ack := judge (.fin bound) ((firstAck es b.key).or ((acks tail).lookup b.key)) } := by
  have hhead : parseBlock (header bound) = .ok none :=
    parseBlock_of_length (by simp [words_header])
  have hblocks : parseBlocks (fileLines bound es ++ tail) =
      do return blocks es ++ (← parseBlocks tail) := by
    rw [parseBlocks_append, fileLines, parseBlocks, hhead, parseBlocks_entries h]
    rfl
  have hacks : acks (fileLines bound es ++ tail) = es.filterMap Entry.ack? ++ acks tail := by
    have : parseAck (header bound) = none := parseAck_of_head (words_header bound) (by decide)
    rw [← acks_entries h]
    simp [acks, fileLines, this]
  have hbound : ackBound (fileLines bound es ++ tail) = .fin bound := ackBound_header bound _
  have hnew : ((fileLines bound es ++ tail).any fun l => (stripPrefix boundTag l).isSome) = true := by
    simp [fileLines, header, stripPrefix_append]
  rw [parseLines, hblocks, hacks, hbound, hnew]
  cases parseBlocks tail with
  | error e => rfl
  | ok bs =>
    simp only [bind, Except.bind, pure, Except.pure, List.lookup_append, firstAck, if_true]

/-- **A whole file reads back.** -/
theorem parseLines_written (path : String) (bound : Nat) {es : List Entry}
    (h : ∀ e ∈ es, e.Written) (hb : blocks es ≠ []) :
    parseLines path (fileLines bound es) = .ok (readBack bound es) := by
  have := parseLines_file path bound h []
  rw [List.append_nil] at this
  rw [this]
  simp [parseBlocks, acks, bind, Except.bind, pure, Except.pure, hb, readBack]

/-- A whole file, as it is read from disk. -/
theorem parseGroups_file (path : String) (bound : Nat) {es : List Entry}
    (h : ∀ e ∈ es, e.Written) :
    parseGroups path (.ok (encode (fileText bound es))) = parseLines path (fileLines bound es) := by
  have hflat : ∀ l ∈ fileLines bound es, Flat l := by
    intro l hl
    rcases List.mem_cons.mp hl with rfl | hl
    · exact flat_header bound
    · obtain ⟨e, he, rfl⟩ := List.mem_map.mp hl
      exact (h e he).line.1
  have hlines : lines (fileText bound es) = fileLines bound es := lines_unlines hflat
  simp only [parseGroups, decode_encode, hlines]

/-- A file without a block is an error. -/
theorem parseLines_no_blocks (path : String) (bound : Nat) {es : List Entry}
    (h : ∀ e ∈ es, e.Written) (hb : blocks es = []) :
    parseLines path (fileLines bound es) =
      .error (.bail s!"{path}: no GROUP lines — the write role wrote nothing") := by
  have := parseLines_file path bound h []
  rw [List.append_nil] at this
  rw [this]
  simp [parseBlocks, bind, Except.bind, hb]

end FreenetHarness.Parity
