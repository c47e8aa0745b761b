import FreenetHarness.Parity.File

/-! # A groups file cut short

The file is append-only, so a run that dies leaves a prefix of what it would have
written, and the cut may fall at any byte. `prefix_iff` says which cuts leave
everything before them readable and unaltered. -/
namespace FreenetHarness.Parity
open FreenetHarness.Lib.Text FreenetHarness.Lib.Number

/-- The bytes of the file's first line. -/
def headerBytes (bound : Nat) : Nat := byteLen (header bound) + 1

/-- The records whose line is complete in the first `n` bytes of a file. -/
def complete (bound n : Nat) (es : List Entry) : List Entry :=
  whole Entry.line (n - headerBytes bound) es

/-- What a cut leaves of a record does no harm: none of a block's seed, and none of
the time of an acknowledgement unless its key has an earlier one or no block. -/
def Harmless (done : List Entry) : Option (Entry × Nat) → Prop
  | none => True
  | some (.block b, n) => n ≤ byteLen (unwords b.fields) + 1
  | some (.ack key _, n) => n ≤ byteLen (unwords (ackFields key)) + 1 ∨
      (∃ ms, .ack key ms ∈ done) ∨ ∀ b, .block b ∈ done → b.key ≠ key

/-- The cut falls between two characters and what it leaves of a record does no harm. -/
structure CleanCut (bound : Nat) (es : List Entry) (n : Nat) : Prop where
  boundary : ∃ p, p <+: fileText bound es ∧ byteLen p = n
  harmless : Harmless (complete bound n es) (torn Entry.line (n - headerBytes bound) es)

/-! ## The line the cut fell into -/

theorem Block.Sent.torn {b : Block} (h : b.Sent) {q : Str} (hq : q <+: b.line) (hne : q ≠ b.line) :
    parseAck q = none ∧
      if byteLen q ≤ byteLen (unwords b.fields) + 1 then parseBlock q = .ok none
      else parseBlock q = .error (.bail s!"bad seed in: {String.ofList q}") := by
  have hack : parseAck q = none := by
    have hline : b.line = "GROUP".toList ++ ' ' :: unwords (b.fields.tail ++ [hexify b.seed.bytes]) :=
      rfl
    rcases words_cut_head (by decide) (hline ▸ hq) with hlen | ⟨ws, hws⟩
    · exact parseAck_of_length (by omega)
    · exact parseAck_of_head hws (by decide)
  refine ⟨hack, ?_⟩
  rcases words_cut h.isWord_fields b.fields_ne_nil (isWord_hexify b.seed) hq with
    ⟨hle, hlen⟩ | ⟨hlt, s, hs, -, rfl, hws⟩
  · rw [if_pos hle]
    exact parseBlock_of_length (Nat.lt_of_le_of_lt hlen (by rw [b.fields_length]; decide))
  · rw [if_neg (by omega)]
    have hshort : byteLen s < 32 := by
      have := byteLen_lt_of_prefix hs (by
        rintro rfl
        exact hne (unwords_concat b.fields_ne_nil _).symm)
      rwa [byteLen_hexify, b.seed.length_eq] at this
    unfold parseBlock
    rw [hws]
    simp only [Block.fields, List.cons_append, List.nil_append, ne_eq, not_true_eq_false,
      or_self, if_false, unhexify_short hshort]
    rfl

theorem torn_ack {key : Str} {ms : ℚ} (hk : IsWord key) (hms : 0 ≤ ms) {q : Str}
    (hq : q <+: unwords (ackFields key ++ [print1 ms])) :
    parseBlock q = .ok none ∧
      if byteLen q ≤ byteLen (unwords (ackFields key)) + 1 then parseAck q = none
      else ∃ v, parseAck q = some (key, .fin v) := by
  have hblock : parseBlock q = .ok none := by
    apply parseBlock_of_length
    obtain ⟨u, hu⟩ := hq
    have := words_length_le q u
    rw [hu, words_ack hk hms] at this
    exact Nat.lt_of_le_of_lt this (by simp [ackFields])
  refine ⟨hblock, ?_⟩
  rcases words_cut (isWord_ack hk) (by simp [ackFields]) (isWord_print1 hms) hq with
    ⟨hle, hlen⟩ | ⟨hlt, s, hs, hne, -, hws⟩
  · rw [if_pos hle]
    exact parseAck_of_length (Nat.lt_of_le_of_lt hlen (by simp [ackFields]))
  · rw [if_neg (by omega)]
    obtain ⟨v, hv⟩ := parseF64_prefix_print1 hms hs hne
    exact ⟨v, by rw [parseAck_ack hws, hv]; rfl⟩

/-! ## The whole prefix -/

theorem judge_eq_never {bound : F64} {ms : Option F64} : judge bound ms = .never ↔ ms = none := by
  cases ms with
  | none => simp [judge]
  | some ms => simp only [judge]; split <;> simp

/-- A tail of one acknowledgement changes nothing when its key has an earlier one, or
no block. -/
theorem readBack_append_iff (bound : Nat) (done : List Entry) (key : Str) (v : F64) :
    ((blocks done).map fun b => { b with
        ack := judge (.fin bound) ((firstAck done b.key).or ([(key, v)].lookup b.key)) }) =
        readBack bound done ↔
      (∃ ms, .ack key ms ∈ done) ∨ ∀ b, .block b ∈ done → b.key ≠ key := by
  have hacked : (∃ ms, .ack key ms ∈ done) ↔ firstAck done key ≠ none := by
    rw [ne_eq, firstAck_eq_none]
    simp
  rw [readBack, List.map_inj_left, hacked]
  constructor
  · intro h
    by_cases hnone : firstAck done key = none
    · right
      rintro b hb rfl
      have := congrArg Block.ack (h b (mem_blocks.mpr hb))
      simp only [hnone, Option.none_or, List.lookup_cons_self] at this
      rw [judge_eq_never.mpr rfl, judge_eq_never] at this
      cases this
    · exact Or.inl hnone
  · intro h b hb
    by_cases hk : b.key = key
    · rcases h with h | h
      · obtain ⟨u, hu⟩ := Option.ne_none_iff_exists'.mp h
        simp [hk, hu]
      · exact absurd hk (h b (mem_blocks.mp hb))
    · have : ([(key, v)].lookup b.key) = none := by simp [hk]
      simp [this]

/-- What is left of the torn line decides whether the prefix reads back. -/
theorem parseLines_torn (path : String) (bound : Nat) {done : List Entry}
    (h : ∀ e ∈ done, e.Written) (hb : blocks done ≠ []) {e : Entry} (he : e.Written) {q : Str}
    (hq : q <+: e.line) (hne : q ≠ e.line) :
    parseLines path (fileLines bound done ++ if q = [] then [] else [q]) =
        .ok (readBack bound done) ↔
      Harmless done (some (e, byteLen q)) := by
  by_cases h0 : q = []
  · subst h0
    simp only [if_true, List.append_nil, parseLines_written path bound h hb, true_iff]
    cases e with
    | block b => simp [Harmless]
    | ack key ms => simp [Harmless]
  · rw [if_neg h0, parseLines_file path bound h]
    cases e with
    | block b =>
      obtain ⟨hack, hblock⟩ := Block.Sent.torn he hq hne
      have hacks : acks [q] = [] := by simp [acks, hack]
      simp only [Harmless]
      split at hblock
      · rename_i hle
        simp [parseBlocks, hblock, bind, Except.bind, pure, Except.pure, hb, hacks, readBack, hle]
      · rename_i hle
        simp [parseBlocks, hblock, bind, Except.bind, hle]
    | ack key ms =>
      obtain ⟨hblock, hack⟩ := torn_ack he.1 he.2 hq
      simp only [Harmless]
      split at hack
      · rename_i hle
        have hacks : acks [q] = [] := by simp [acks, hack]
        simp [parseBlocks, hblock, bind, Except.bind, pure, Except.pure, hb, hacks, readBack, hle]
      · rename_i hle
        obtain ⟨v, hv⟩ := hack
        have hacks : acks [q] = [(key, .fin v)] := by simp [acks, hv]
        rw [or_iff_right hle, ← readBack_append_iff bound done key (.fin v)]
        simp [parseBlocks, hblock, bind, Except.bind, pure, Except.pure, hb, hacks]

/-- What is left of a file that holds a complete block begins with its first line. -/
theorem exists_rest {bound : Nat} {es : List Entry} (hw : ∀ e ∈ es, e.Written) {b : Block}
    {p : Str} (hb : .block b ∈ complete bound (byteLen p) es) (hp : p <+: fileText bound es) :
    ∃ r, p = header bound ++ '\n' :: r ∧ r <+: unlines (es.map Entry.line) ∧
      byteLen p - headerBytes bound = byteLen r := by
  have hpos := pos_of_mem_whole (fun e he => (hw e he).line.2) hb
  rw [headerBytes] at hpos
  rw [fileText, fileLines, unlines_cons] at hp
  rcases prefix_append_cases hp with hpre | ⟨c, hc, hrest, rfl⟩
  · have := byteLen_le_of_prefix hpre
    omega
  · obtain ⟨d, r, rfl⟩ := List.exists_cons_of_ne_nil hc
    obtain ⟨rfl, hr⟩ := List.cons_prefix_cons.mp hrest
    refine ⟨r, rfl, hr, ?_⟩
    rw [headerBytes, byteLen_append, byteLen_cons]
    simp only [show Char.utf8Size '\n' = 1 from rfl]
    omega

theorem parseGroups_cut (path : String) (s t : Str) :
    parseGroups path (.ok ((encode (s ++ t)).extract 0 (byteLen s))) =
      parseLines path (lines s) := by
  simp only [parseGroups, decode_extract_append]

/-- **When a cut file reads back.** A prefix with at least one complete block gives
exactly its complete blocks, each outcome decided by the complete acknowledgements,
exactly when the cut is clean. -/
theorem prefix_iff (path : String) {bound n : Nat} {es : List Entry}
    (hw : ∀ e ∈ es, e.Written) (hn : n ≤ byteLen (fileText bound es))
    (hb : ∃ b, .block b ∈ complete bound n es) :
    parseGroups path (.ok ((encode (fileText bound es)).extract 0 n)) =
        .ok (readBack bound (complete bound n es)) ↔
      CleanCut bound es n := by
  cases hd : decode ((encode (fileText bound es)).extract 0 n) with
  | none =>
    constructor
    · intro h
      simp [parseGroups, hd] at h
    · rintro ⟨⟨p, ⟨u, hu⟩, rfl⟩, -⟩
      rw [← hu, decode_extract_append] at hd
      cases hd
  | some p =>
    obtain ⟨hp, rfl⟩ := decode_extract_eq_some hn hd
    have hclean : CleanCut bound es (byteLen p) ↔
        Harmless (complete bound (byteLen p) es)
          (torn Entry.line (byteLen p - headerBytes bound) es) :=
      ⟨CleanCut.harmless, fun h => ⟨⟨p, hp, rfl⟩, h⟩⟩
    obtain ⟨b, hb⟩ := hb
    obtain ⟨r, hpr, hr, hlen⟩ := exists_rest hw hb hp
    obtain ⟨q, hlines, hrest⟩ := exists_cutLines (fun e he => (hw e he).line) hr
    have hcomplete : complete bound (byteLen p) es = whole Entry.line (byteLen r) es := by
      rw [complete, hlen]
    have hdone : ∀ e ∈ complete bound (byteLen p) es, e.Written :=
      fun e he => hw e (mem_of_mem_whole he)
    have hne : blocks (complete bound (byteLen p) es) ≠ [] :=
      List.ne_nil_of_mem (mem_blocks.mpr hb)
    have hparse : parseGroups path (.ok ((encode (fileText bound es)).extract 0 (byteLen p))) =
        parseLines path (fileLines bound (complete bound (byteLen p) es) ++
          if q = [] then [] else [q]) := by
      simp only [parseGroups, hd]
      rw [hpr, lines_flat_append (flat_header bound), hlines, ← hpr, hcomplete]
      rfl
    rw [hparse, hclean, hlen]
    rcases hrest with ⟨hnone, rfl⟩ | ⟨e, htorn, hq, hqe⟩
    · simp [hnone, Harmless, parseLines_written path bound hdone hne]
    · rw [htorn]
      exact parseLines_torn path bound hdone hne (hw e (mem_of_torn htorn)) hq hqe

/-- The first and the second data block of a group of two. -/
def dataBlock (idx : UInt64) (key : String) : Block :=
  { seed := zeroSeed, gid := 0, m := 2, arm := .full, idx, parity := false, key := key.toList,
    tSend := 1, ack := .never, size := 17 }

def twoBlocks : List Entry := [.block (dataBlock 0 "A"), .block (dataBlock 1 "B")]

theorem written_twoBlocks : ∀ e ∈ twoBlocks, e.Written := by
  intro e he
  simp only [twoBlocks, List.mem_cons, List.not_mem_nil, or_false] at he
  rcases he with rfl | rfl
  · exact ⟨by decide, rfl⟩
  · exact ⟨by decide, rfl⟩

/-- A cut after the size of the second block, before its seed, is clean. -/
theorem prefix_before_seed :
    parseGroups "groups.txt" (.ok ((encode (fileText 30000 twoBlocks)).extract 0 136)) =
      .ok (readBack 30000 (complete 30000 136 twoBlocks)) := by
  refine (prefix_iff "groups.txt" written_twoBlocks (by decide +kernel)
    ⟨dataBlock 0 "A", by decide +kernel⟩).mpr ⟨?_, ?_⟩
  · exact ⟨(fileText 30000 twoBlocks).take 136, List.take_prefix _ _, by decide +kernel⟩
  · have : torn Entry.line (136 - headerBytes 30000) twoBlocks = some (.block (dataBlock 1 "B"), 41) :=
      by decide +kernel
    rw [this]
    show 41 ≤ byteLen (unwords (dataBlock 1 "B").fields) + 1
    decide +kernel

/-- A cut that leaves 24 of the second seed's digits makes the whole file unreadable,
the complete first block included. -/
theorem cut_seed_fails :
    complete 30000 160 twoBlocks = [.block (dataBlock 0 "A")] ∧
      (parseGroups "groups.txt"
        (.ok ((encode (fileText 30000 twoBlocks)).extract 0 160))).isOk = false := by
  refine ⟨by decide +kernel, ?_⟩
  have hlen : byteLen ((fileText 30000 twoBlocks).take 160) = 160 := by decide +kernel
  have hcut := parseGroups_cut "groups.txt" ((fileText 30000 twoBlocks).take 160)
    ((fileText 30000 twoBlocks).drop 160)
  rw [List.take_append_drop, hlen] at hcut
  rw [hcut]
  decide +kernel

end FreenetHarness.Parity
