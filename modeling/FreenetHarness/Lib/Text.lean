import Mathlib.Data.List.Basic

/-! # Text files, line by line and word by word

Text is a list of characters. `lines` and `words` follow the documented
behaviour of `str::lines` and `str::split_whitespace`; the results say what
they return on text that was written as newline-terminated lines of
single-spaced words, and on any prefix of such text. The last section is about
text as UTF-8 bytes: a prefix of the bytes either decodes to a prefix of the
characters or does not decode at all. -/
namespace FreenetHarness.Lib.Text

abbrev Str := List Char

/-- `char::is_whitespace`: the Unicode `White_Space` property. -/
def isWhitespace (c : Char) : Bool :=
  let n := c.toNat
  (9 ≤ n && n ≤ 13) || n == 0x20 || n == 0x85 || n == 0xA0 || n == 0x1680 ||
    (0x2000 ≤ n && n ≤ 0x200A) || n == 0x2028 || n == 0x2029 || n == 0x202F ||
    n == 0x205F || n == 0x3000

/-- `str::split_whitespace`: the non-empty pieces between whitespace. -/
def words (s : Str) : List Str := (s.splitOnP isWhitespace).filter fun w => !w.isEmpty

/-- `str::lines`: split at `\n`, a `\r` just before it dropped, no final empty
line. -/
def lines : Str → List Str
  | [] => []
  | c :: cs =>
    if c = '\n' then [] :: lines cs
    else if c = '\r' ∧ cs.head? = some '\n' then lines cs
    else match lines cs with
      | [] => [[c]]
      | l :: ls => (c :: l) :: ls

/-- `str::strip_prefix`. -/
def stripPrefix : Str → Str → Option Str
  | [], s => some s
  | _ :: _, [] => none
  | p :: ps, c :: cs => if p = c then stripPrefix ps cs else none

/-- `str::trim`. -/
def trim (s : Str) : Str :=
  ((s.dropWhile isWhitespace).reverse.dropWhile isWhitespace).reverse

/-- Words joined by single spaces. -/
def unwords (ws : List Str) : Str := [' '].intercalate ws

/-- Lines, each closed by its newline. -/
def unlines (ls : List Str) : Str := ls.flatMap fun l => l ++ ['\n']

/-! ## Words -/

/-- A text without whitespace. -/
def Solid (s : Str) : Prop := ∀ c ∈ s, isWhitespace c = false

instance (s : Str) : Decidable (Solid s) := List.decidableBAll _ s

@[simp] theorem solid_nil : Solid [] := by simp [Solid]

/-- A non-empty text without whitespace. -/
structure IsWord (w : Str) : Prop where
  nonempty : w ≠ []
  solid : Solid w

instance (w : Str) : Decidable (IsWord w) :=
  decidable_of_iff (w ≠ [] ∧ Solid w) ⟨fun h => ⟨h.1, h.2⟩, fun h => ⟨h.1, h.2⟩⟩

theorem IsWord.of_prefix {p w : Str} (hw : IsWord w) (hp : p <+: w) (hne : p ≠ []) :
    IsWord p := ⟨hne, fun c hc => hw.solid c (hp.subset hc)⟩

@[simp] theorem words_nil : words [] = [] := rfl

theorem IsWord.words_eq {w : Str} (h : IsWord w) : words w = [w] := by
  simp [words, List.splitOnP_eq_singleton h.solid, h.nonempty]

/-- What `words` returns are words. -/
theorem isWord_of_mem_words {w s : Str} (h : w ∈ words s) : IsWord w := by
  obtain ⟨hw, hne⟩ := List.mem_filter.mp h
  refine ⟨by simpa using hne, ?_⟩
  clear h hne
  induction s generalizing w with
  | nil =>
    have : w = [] := by simpa using hw
    simp [this]
  | cons c s ih =>
    rw [List.splitOnP_cons_eq_if_modifyHead] at hw
    split at hw
    · rcases List.mem_cons.mp hw with rfl | hw
      · simp
      · exact ih hw
    · rename_i hc
      obtain ⟨v, vs, hv⟩ := List.exists_cons_of_ne_nil (List.splitOnP_ne_nil isWhitespace s)
      rw [hv] at hw ih
      rcases List.mem_cons.mp hw with rfl | hw
      · intro d hd
        rcases List.mem_cons.mp hd with rfl | hd
        · simpa using hc
        · exact ih (List.mem_cons_self ..) d hd
      · exact ih (List.mem_cons_of_mem _ hw)

/-- Splitting is local: a space separates what is on its two sides. -/
theorem words_append_space (a b : Str) : words (a ++ ' ' :: b) = words a ++ words b := by
  simp [words, List.splitOnP_append_cons a b (show isWhitespace ' ' = true by decide)]

theorem words_unwords {ws : List Str} (h : ∀ w ∈ ws, IsWord w) : words (unwords ws) = ws := by
  induction ws with
  | nil => rfl
  | cons w ws ih =>
    have hw := (h w (by simp)).words_eq
    have hrest := ih fun v hv => h v (by simp [hv])
    cases ws with
    | nil => simpa [unwords] using hw
    | cons v vs =>
      have : unwords (w :: v :: vs) = w ++ ' ' :: unwords (v :: vs) := by
        simp [unwords, List.intercalate_cons_cons]
      rw [this, words_append_space, hw, hrest]
      rfl

/-- `unwords` with a last word set apart, as a record's line is cut. -/
theorem unwords_concat {ws : List Str} (h : ws ≠ []) (w : Str) :
    unwords (ws ++ [w]) = unwords ws ++ ' ' :: w := by
  induction ws with
  | nil => exact absurd rfl h
  | cons v vs ih =>
    cases vs with
    | nil => simp [unwords, List.intercalate_cons_cons]
    | cons u us =>
      have := ih (by simp)
      simp only [unwords, List.cons_append, List.intercalate_cons_cons] at this ⊢
      simp [this]

private theorem countP_cons_le {h h' : Str} {t t' : List Str} (hp : h <+: h')
    (hle : t.countP (fun w => !w.isEmpty) ≤ t'.countP fun w => !w.isEmpty) :
    (h :: t).countP (fun w => !w.isEmpty) ≤ (h' :: t').countP fun w => !w.isEmpty := by
  obtain ⟨u, rfl⟩ := hp
  cases h with
  | nil => cases u <;> simp <;> omega
  | cons c h => simpa using hle

/-- The pieces of a prefix are no more than the pieces of the whole. -/
theorem words_length_le (a b : Str) : (words a).length ≤ (words (a ++ b)).length := by
  have key : ∃ h t h' t', a.splitOnP isWhitespace = h :: t ∧
      (a ++ b).splitOnP isWhitespace = h' :: t' ∧ h <+: h' ∧
      t.countP (fun w => !w.isEmpty) ≤ t'.countP fun w => !w.isEmpty := by
    induction a with
    | nil =>
      obtain ⟨h', t', he⟩ := List.exists_cons_of_ne_nil
        (List.splitOnP_ne_nil isWhitespace ([] ++ b))
      exact ⟨[], [], h', t', rfl, he, List.nil_prefix, by simp⟩
    | cons c a ih =>
      obtain ⟨h, t, h', t', ha, hab, hp, hle⟩ := ih
      simp only [List.cons_append, List.splitOnP_cons_eq_if_modifyHead, ha, hab]
      split
      · exact ⟨[], h :: t, [], h' :: t', rfl, rfl, List.prefix_rfl, countP_cons_le hp hle⟩
      · exact ⟨c :: h, t, c :: h', t', rfl, rfl, by simpa using hp, hle⟩
  obtain ⟨h, t, h', t', ha, hab, hp, hle⟩ := key
  simp only [words, ha, hab, ← List.countP_eq_length_filter]
  exact countP_cons_le hp hle

/-- A cut of two texts falls in the first or reaches into the second. -/
theorem prefix_append_cases {p a b : Str} (h : p <+: a ++ b) :
    p <+: a ∨ ∃ r, r ≠ [] ∧ r <+: b ∧ p = a ++ r := by
  by_cases hlen : p.length ≤ a.length
  · exact Or.inl (List.prefix_of_prefix_length_le h (List.prefix_append a b) hlen)
  · right
    obtain ⟨r, rfl⟩ := List.prefix_of_prefix_length_le (List.prefix_append a b) h (by omega)
    exact ⟨r, by rintro rfl; simp at hlen, (List.prefix_append_right_inj a).mp h, rfl⟩

/-! ## Lines -/

/-- A text that `lines` keeps in one piece. -/
def Flat (l : Str) : Prop := ∀ c ∈ l, c ≠ '\n' ∧ c ≠ '\r'

instance (l : Str) : Decidable (Flat l) := List.decidableBAll _ l

theorem Flat.of_prefix {p l : Str} (h : Flat l) (hp : p <+: l) : Flat p :=
  fun c hc => h c (hp.subset hc)

theorem IsWord.flat {w : Str} (h : IsWord w) : Flat w := by
  intro c hc
  constructor <;> (rintro rfl; exact absurd (h.solid _ hc) (by decide))

theorem flat_unwords {ws : List Str} (h : ∀ w ∈ ws, Flat w) : Flat (unwords ws) := by
  induction ws with
  | nil => intro c hc; simp [unwords] at hc
  | cons w ws ih =>
    cases ws with
    | nil => simpa [unwords] using h w (by simp)
    | cons v vs =>
      have hrest := ih fun u hu => h u (by simp [hu])
      intro c hc
      have hc : c ∈ w ∨ c = ' ' ∨ c ∈ unwords (v :: vs) := by
        simpa [unwords, List.intercalate_cons_cons] using hc
      rcases hc with hc | rfl | hc
      · exact h w (by simp) c hc
      · decide
      · exact hrest c hc

theorem flat_unwords_of_isWord {ws : List Str} (h : ∀ w ∈ ws, IsWord w) : Flat (unwords ws) :=
  flat_unwords fun w hw => (h w hw).flat

@[simp] theorem lines_nil : lines [] = [] := rfl

theorem lines_flat_append {l : Str} (h : Flat l) (rest : Str) :
    lines (l ++ '\n' :: rest) = l :: lines rest := by
  induction l with
  | nil => simp [lines]
  | cons c l ih =>
    obtain ⟨hn, hr⟩ := h c (by simp)
    have := ih fun d hd => h d (by simp [hd])
    simp [lines, hn, hr, this]

theorem lines_flat {l : Str} (h : Flat l) (hne : l ≠ []) : lines l = [l] := by
  induction l with
  | nil => exact absurd rfl hne
  | cons c l ih =>
    obtain ⟨hn, hr⟩ := h c (by simp)
    cases l with
    | nil => simp [lines, hn, hr]
    | cons d l =>
      have := ih (fun e he => h e (by simp [he])) (by simp)
      simp only [lines] at this ⊢
      simp [hn, hr, this]

/-- **The lines of a file cut anywhere**: every closed line, and the rest of
the one the cut fell into. -/
theorem lines_unlines_append {ls : List Str} {t : Str} (h : ∀ l ∈ ls, Flat l) (ht : Flat t) :
    lines (unlines ls ++ t) = ls ++ if t = [] then [] else [t] := by
  induction ls with
  | nil =>
    by_cases h0 : t = []
    · simp [h0, unlines]
    · simp [h0, unlines, lines_flat ht h0]
  | cons l ls ih =>
    have hl := lines_flat_append (h l (by simp)) (unlines ls ++ t)
    rw [ih fun m hm => h m (by simp [hm])] at hl
    simpa [unlines] using hl

/-- The lines of a whole file. -/
theorem lines_unlines {ls : List Str} (h : ∀ l ∈ ls, Flat l) : lines (unlines ls) = ls := by
  have := lines_unlines_append (t := []) h fun _ hc => absurd hc List.not_mem_nil
  simpa using this

theorem unlines_cons (l : Str) (ls : List Str) : unlines (l :: ls) = l ++ '\n' :: unlines ls := by
  simp [unlines]

/-! ## Prefixes of a literal -/

theorem stripPrefix_append (p s : Str) : stripPrefix p (p ++ s) = some s := by
  induction p with
  | nil => rfl
  | cons c p ih => simp [stripPrefix, ih]

theorem eq_of_stripPrefix {p s rest : Str} (h : stripPrefix p s = some rest) : s = p ++ rest := by
  induction p generalizing s with
  | nil => cases h; rfl
  | cons c p ih =>
    cases s with
    | nil => cases h
    | cons d s =>
      unfold stripPrefix at h
      split at h
      · rename_i hc
        rw [hc, ih h, List.cons_append]
      · cases h

theorem trim_of_isWord {w : Str} (h : IsWord w) : trim w = w := by
  have hd : ∀ v : Str, (∀ c ∈ v, isWhitespace c = false) → v.dropWhile isWhitespace = v := by
    intro v hv
    cases v with
    | nil => rfl
    | cons c v => simp [hv c (by simp)]
  rw [trim, hd w h.solid, hd w.reverse fun c hc => h.solid c (List.mem_reverse.mp hc),
    List.reverse_reverse]

/-! ## Split at a character -/

/-- `str::split_once`: what is before the first `c`, and what is after it. -/
def splitOnce (c : Char) : Str → Option (Str × Str)
  | [] => none
  | d :: s => if d = c then some ([], s) else (splitOnce c s).map fun p => (d :: p.1, p.2)

/-- `str::rsplit_once`: what is before the last `c`, and what is after it. -/
def rsplitOnce (c : Char) (s : Str) : Option (Str × Str) :=
  (splitOnce c s.reverse).map fun p => (p.2.reverse, p.1.reverse)

theorem splitOnce_of_notMem {c : Char} {s : Str} (h : c ∉ s) : splitOnce c s = none := by
  induction s with
  | nil => rfl
  | cons d s ih =>
    rw [List.mem_cons, not_or] at h
    rw [splitOnce, if_neg (Ne.symm h.1), ih h.2, Option.map_none]

theorem splitOnce_append {c : Char} {a : Str} (h : c ∉ a) (b : Str) :
    splitOnce c (a ++ c :: b) = some (a, b) := by
  induction a with
  | nil => simp [splitOnce]
  | cons d a ih =>
    rw [List.mem_cons, not_or] at h
    rw [List.cons_append, splitOnce, if_neg (Ne.symm h.1), ih h.2, Option.map_some]

theorem rsplitOnce_of_notMem {c : Char} {s : Str} (h : c ∉ s) : rsplitOnce c s = none := by
  rw [rsplitOnce, splitOnce_of_notMem (by simpa using h), Option.map_none]

theorem rsplitOnce_append {c : Char} (a : Str) {b : Str} (h : c ∉ b) :
    rsplitOnce c (a ++ c :: b) = some (a, b) := by
  have hrev : (a ++ c :: b).reverse = b.reverse ++ c :: a.reverse := by simp
  rw [rsplitOnce, hrev, splitOnce_append (by simpa using h)]
  simp

theorem eq_of_splitOnce {c : Char} {s a b : Str} (h : splitOnce c s = some (a, b)) :
    s = a ++ c :: b ∧ c ∉ a := by
  induction s generalizing a with
  | nil => cases h
  | cons d s ih =>
    rw [splitOnce] at h
    split at h
    · rename_i hd
      cases h
      exact ⟨by rw [hd, List.nil_append], List.not_mem_nil⟩
    · rename_i hd
      obtain ⟨p, hp, h⟩ := Option.map_eq_some_iff.mp h
      cases h
      obtain ⟨hs, ha⟩ := ih hp
      exact ⟨by rw [hs, List.cons_append], by simp [Ne.symm hd, ha]⟩

theorem notMem_of_splitOnce {c : Char} {s : Str} (h : splitOnce c s = none) : c ∉ s := by
  intro hm
  obtain ⟨a, b, hs, ha⟩ := List.eq_append_cons_of_mem hm
  rw [hs, splitOnce_append ha] at h
  cases h

theorem eq_of_rsplitOnce {c : Char} {s a b : Str} (h : rsplitOnce c s = some (a, b)) :
    s = a ++ c :: b ∧ c ∉ b := by
  obtain ⟨⟨x, y⟩, hp, h⟩ := Option.map_eq_some_iff.mp h
  cases h
  obtain ⟨hs, hx⟩ := eq_of_splitOnce hp
  refine ⟨?_, by simpa using hx⟩
  rw [← List.reverse_reverse s, hs]
  simp

theorem notMem_of_rsplitOnce {c : Char} {s : Str} (h : rsplitOnce c s = none) : c ∉ s := by
  have := notMem_of_splitOnce (Option.map_eq_none_iff.mp h)
  simpa using this

/-! ## Text as bytes -/

/-- The bytes a text is stored as. -/
def encode (s : Str) : ByteArray := (String.ofList s).toByteArray

/-- The length of a text in bytes, `str::len`. -/
def byteLen (s : Str) : Nat := (String.ofList s).utf8ByteSize

/-- `fs::read_to_string` on the bytes of a file: `none` where they are not UTF-8. -/
def decode (b : ByteArray) : Option Str := (String.fromUTF8? b).map String.toList

@[simp] theorem byteLen_nil : byteLen [] = 0 := rfl

theorem byteLen_append (s t : Str) : byteLen (s ++ t) = byteLen s + byteLen t := by
  simp [byteLen, String.ofList_append]

theorem byteLen_cons (c : Char) (s : Str) : byteLen (c :: s) = c.utf8Size + byteLen s := by
  rw [← List.singleton_append, byteLen_append]
  simp [byteLen]

@[simp] theorem encode_size (s : Str) : (encode s).size = byteLen s := rfl

theorem decode_encode (s : Str) : decode (encode s) = some s := by
  unfold decode String.fromUTF8?
  rw [dif_pos (show (encode s).IsValidUTF8 from (String.ofList s).isValidUTF8)]
  exact congrArg some String.toList_ofList

theorem encode_append (s t : Str) : encode (s ++ t) = encode s ++ encode t := by
  simp [encode, String.ofList_append]

/-- The first bytes of a file, cut between two characters, decode to the
characters before the cut. -/
theorem decode_extract_append (s t : Str) :
    decode ((encode (s ++ t)).extract 0 (byteLen s)) = some s := by
  have : (encode (s ++ t)).extract 0 (byteLen s) = encode s := by
    rw [encode_append, ← encode_size]
    exact ByteArray.extract_append_eq_left rfl
  rw [this, decode_encode]

/-- **A file cut at any byte** decodes to the characters before the cut where
it falls between two characters, and to nothing where it falls inside one. -/
theorem decode_extract_eq_some {s p : Str} {n : Nat} (hn : n ≤ byteLen s)
    (h : decode ((encode s).extract 0 n) = some p) : p <+: s ∧ byteLen p = n := by
  have hvalid : ((encode s).extract 0 n).IsValidUTF8 := by
    by_contra hv
    simp [decode, String.fromUTF8?, hv] at h
  have hpos : String.Pos.Raw.IsValid (String.ofList s) ⟨n⟩ :=
    String.Pos.Raw.isValid_iff_isValidUTF8_extract_zero.mpr
      ⟨String.Pos.Raw.le_iff.mpr hn, hvalid⟩
  obtain ⟨i, hi⟩ := String.Pos.Raw.isValid_ofList.mp hpos
  have hi : n = byteLen (s.take i) := hi
  have hd := decode_extract_append (s.take i) (s.drop i)
  rw [List.take_append_drop, ← hi, h] at hd
  obtain rfl : p = s.take i := Option.some.inj hd
  exact ⟨List.take_prefix i s, hi.symm⟩

theorem byteLen_pos {s : Str} (h : s ≠ []) : 0 < byteLen s := by
  obtain ⟨c, t, rfl⟩ := List.exists_cons_of_ne_nil h
  rw [byteLen_cons]
  exact Nat.add_pos_left c.utf8Size_pos _

/-- `&s[..n]` and `&s[n..]`, where the cut falls between two characters; slicing
anywhere else panics. -/
def splitBytes : Nat → Str → Option (Str × Str)
  | 0, s => some ([], s)
  | _ + 1, [] => none
  | n + 1, c :: cs =>
    if c.utf8Size ≤ n + 1 then (splitBytes (n + 1 - c.utf8Size) cs).map fun r => (c :: r.1, r.2)
    else none

@[simp] theorem splitBytes_zero (s : Str) : splitBytes 0 s = some ([], s) := by cases s <;> rfl

theorem eq_nil_of_byteLen {s : Str} (h : byteLen s = 0) : s = [] := by
  by_contra hne
  have := byteLen_pos hne
  omega

/-- **A slice by bytes** cuts the text after that many bytes. -/
theorem splitBytes_eq_some_iff {n : Nat} {s d rest : Str} :
    splitBytes n s = some (d, rest) ↔ s = d ++ rest ∧ byteLen d = n := by
  induction s generalizing n d with
  | nil =>
    constructor
    · intro h
      cases n with
      | zero => cases h; exact ⟨rfl, rfl⟩
      | succ n => cases h
    · intro h
      obtain ⟨rfl, rfl⟩ := List.append_eq_nil_iff.mp h.1.symm
      rw [← h.2]
      rfl
  | cons c s ih =>
    have hpos := c.utf8Size_pos
    constructor
    · intro h
      cases n with
      | zero => cases h; exact ⟨rfl, rfl⟩
      | succ n =>
        unfold splitBytes at h
        split at h
        · obtain ⟨⟨d', rest'⟩, hr, he⟩ := Option.map_eq_some_iff.mp h
          cases he
          obtain ⟨hs, hlen⟩ := ih.mp hr
          exact ⟨congrArg (c :: ·) hs, by rw [byteLen_cons, hlen]; omega⟩
        · cases h
    · intro ⟨h, hlen⟩
      cases d with
      | nil => rw [← hlen, h]; simp
      | cons e d =>
        obtain ⟨rfl, rfl⟩ := List.cons.inj h
        rw [byteLen_cons] at hlen
        obtain ⟨k, rfl⟩ : ∃ k, n = k + 1 := ⟨n - 1, by omega⟩
        rw [splitBytes, if_pos (by omega), ih.mpr ⟨rfl, show byteLen d = _ by omega⟩]
        rfl

/-! ## A line of words, cut anywhere -/

theorem byteLen_le_of_prefix {p s : Str} (h : p <+: s) : byteLen p ≤ byteLen s := by
  obtain ⟨u, rfl⟩ := h
  rw [byteLen_append]
  omega

theorem byteLen_lt_of_prefix {p s : Str} (h : p <+: s) (hne : p ≠ s) : byteLen p < byteLen s := by
  obtain ⟨u, rfl⟩ := h
  have := byteLen_pos (s := u) (by rintro rfl; simp at hne)
  rw [byteLen_append]
  omega

theorem byteLen_concat_space (s : Str) : byteLen (s ++ [' ']) = byteLen s + 1 := by
  rw [byteLen_append, byteLen_cons]
  simp [show Char.utf8Size ' ' = 1 from rfl]

/-- **A line cut inside its words.** A cut that leaves some of the last word leaves
all the words before it; a cut that leaves none of it leaves too few words. -/
theorem words_cut {ws : List Str} {w p : Str} (hws : ∀ v ∈ ws, IsWord v) (hne : ws ≠ [])
    (hw : IsWord w) (hp : p <+: unwords (ws ++ [w])) :
    byteLen p ≤ byteLen (unwords ws) + 1 ∧ (words p).length ≤ ws.length ∨
      byteLen (unwords ws) + 1 < byteLen p ∧
        ∃ q, q <+: w ∧ q ≠ [] ∧ p = unwords ws ++ ' ' :: q ∧ words p = ws ++ [q] := by
  rw [unwords_concat hne, ← List.singleton_append, ← List.append_assoc] at hp
  rcases prefix_append_cases hp with hpre | ⟨q, hq, hqw, rfl⟩
  · left
    have hle := byteLen_le_of_prefix hpre
    rw [byteLen_concat_space] at hle
    refine ⟨hle, ?_⟩
    obtain ⟨u, hu⟩ := hpre
    have := words_length_le p u
    rwa [hu, words_append_space, words_unwords hws, words_nil, List.append_nil] at this
  · right
    refine ⟨?_, q, hqw, hq, by simp, ?_⟩
    · have := byteLen_pos hq
      rw [byteLen_append, byteLen_concat_space]
      omega
    · rw [List.append_assoc, List.singleton_append, words_append_space, words_unwords hws,
        (hw.of_prefix hqw hq).words_eq]

/-- A cut leaves one word at most, or the first word is whole. -/
theorem words_cut_head {w p rest : Str} (hw : IsWord w) (hp : p <+: w ++ ' ' :: rest) :
    (words p).length ≤ 1 ∨ ∃ ws, words p = w :: ws := by
  rcases prefix_append_cases hp with hpre | ⟨r, hr, hrest, rfl⟩
  · left
    by_cases h0 : p = []
    · simp [h0]
    · simp [(hw.of_prefix hpre h0).words_eq]
  · right
    obtain ⟨c, r, rfl⟩ := List.exists_cons_of_ne_nil hr
    obtain ⟨rfl, -⟩ := List.cons_prefix_cons.mp hrest
    exact ⟨words r, by rw [words_append_space, hw.words_eq]; rfl⟩

/-! ## A file of one line per item, cut anywhere -/

section Cut
variable {α : Type*} (line : α → Str)

/-- The items whose line is whole in the first `n` bytes of the file. -/
def whole : Nat → List α → List α
  | _, [] => []
  | n, x :: xs =>
    if byteLen (line x) ≤ n then x :: whole (n - (byteLen (line x) + 1)) xs else []

/-- The item whose line the first `n` bytes of the file end in, and how many bytes
of that line they hold. -/
def torn : Nat → List α → Option (α × Nat)
  | _, [] => none
  | n, x :: xs =>
    if byteLen (line x) ≤ n then torn (n - (byteLen (line x) + 1)) xs else some (x, n)

variable {line}

theorem whole_eq_nil {n : Nat} {x : α} (h : n < byteLen (line x)) (xs : List α) :
    whole line n (x :: xs) = [] := by
  simp [whole, Nat.not_le.mpr h]

theorem torn_eq_some {n : Nat} {x : α} (h : n < byteLen (line x)) (xs : List α) :
    torn line n (x :: xs) = some (x, n) := by
  simp [torn, Nat.not_le.mpr h]

theorem mem_of_mem_whole {n : Nat} {xs : List α} {x : α} (h : x ∈ whole line n xs) : x ∈ xs := by
  induction xs generalizing n with
  | nil => cases h
  | cons y ys ih =>
    unfold whole at h
    split at h
    · rcases List.mem_cons.mp h with rfl | h
      · simp
      · exact List.mem_cons_of_mem _ (ih h)
    · cases h

theorem mem_of_torn {n k : Nat} {xs : List α} {x : α} (h : torn line n xs = some (x, k)) :
    x ∈ xs := by
  induction xs generalizing n with
  | nil => cases h
  | cons y ys ih =>
    unfold torn at h
    split at h
    · exact List.mem_cons_of_mem _ (ih h)
    · cases h; simp

theorem pos_of_mem_whole {n : Nat} {xs : List α} {x : α} (h : ∀ y ∈ xs, line y ≠ [])
    (hx : x ∈ whole line n xs) : 0 < n := by
  cases xs with
  | nil => cases hx
  | cons y ys =>
    have := byteLen_pos (h y (by simp))
    unfold whole at hx
    split at hx
    · omega
    · cases hx

/-- What the lines of a cut file are: those of the whole items, and what is left of
the line the cut fell into. -/
structure CutLines (line : α → Str) (xs : List α) (p q : Str) : Prop where
  lines_eq : lines p = (whole line (byteLen p) xs).map line ++ if q = [] then [] else [q]
  rest : torn line (byteLen p) xs = none ∧ q = [] ∨
    ∃ x, torn line (byteLen p) xs = some (x, byteLen q) ∧ q <+: line x ∧ q ≠ line x

/-- **A file cut anywhere, line by line.** -/
theorem exists_cutLines {xs : List α} {p : Str} (h : ∀ x ∈ xs, Flat (line x) ∧ line x ≠ [])
    (hp : p <+: unlines (xs.map line)) : ∃ q, CutLines line xs p q := by
  induction xs generalizing p with
  | nil =>
    obtain rfl : p = [] := List.prefix_nil.mp hp
    exact ⟨[], by simp [whole], Or.inl ⟨rfl, rfl⟩⟩
  | cons x xs ih =>
    obtain ⟨hflat, hne⟩ := h x (by simp)
    rw [List.map_cons, unlines_cons] at hp
    rcases prefix_append_cases hp with hpx | ⟨r, hr, hrest, rfl⟩
    · by_cases heq : p = line x
      · -- the cut is just before the newline: nothing of the next line is there
        refine ⟨[], ?_, ?_⟩
        · have hnil : whole line 0 xs = [] := by
            cases xs with
            | nil => rfl
            | cons y ys => exact whole_eq_nil (byteLen_pos (h y (by simp)).2) ys
          rw [heq, lines_flat hflat hne]
          simp [whole, hnil]
        · cases xs with
          | nil => exact Or.inl ⟨by simp [torn, heq], rfl⟩
          | cons y ys =>
            refine Or.inr ⟨y, ?_, List.nil_prefix, (h y (by simp)).2.symm⟩
            have := torn_eq_some (byteLen_pos (h y (by simp)).2) ys
            simpa [torn, heq] using this
      · have hlt := byteLen_lt_of_prefix hpx heq
        refine ⟨p, ?_, Or.inr ⟨x, torn_eq_some hlt xs, hpx, heq⟩⟩
        rw [whole_eq_nil hlt]
        by_cases h0 : p = []
        · simp [h0]
        · simp [h0, lines_flat (hflat.of_prefix hpx) h0]
    · obtain ⟨c, r, rfl⟩ := List.exists_cons_of_ne_nil hr
      obtain ⟨rfl, hpre⟩ := List.cons_prefix_cons.mp hrest
      obtain ⟨q, hl, ht⟩ := ih (fun y hy => h y (by simp [hy])) hpre
      have hlen : byteLen (line x ++ '\n' :: r) = byteLen (line x) + 1 + byteLen r := by
        rw [byteLen_append, byteLen_cons]
        simp [show Char.utf8Size '\n' = 1 from rfl]
        omega
      have hle : byteLen (line x) ≤ byteLen (line x ++ '\n' :: r) := by omega
      have hsub : byteLen (line x ++ '\n' :: r) - (byteLen (line x) + 1) = byteLen r := by omega
      refine ⟨q, ?_, ?_⟩
      · rw [lines_flat_append hflat, hl, whole, if_pos hle, hsub]
        simp
      · simpa only [torn, if_pos hle, hsub] using ht

end Cut

end FreenetHarness.Lib.Text
