import Mathlib.Logic.Relation
import FreenetHarness.Parity.File

/-! # What the order of a groups file decides

Old files repeat a correction hundreds of times and have it anywhere. `parseGroups_order`
says which edits of a file leave every block as it was. -/
namespace FreenetHarness.Parity
open FreenetHarness.Lib.Text FreenetHarness.Lib.Number

/-! ## Kinds of line -/

/-- A line that the block loop takes, or stops at. -/
def isRecord (l : Str) : Bool :=
  (words l)[0]? == some "GROUP".toList && (words l)[4]? == some "BLOCK".toList &&
    decide (12 ≤ (words l).length)

def isAck (l : Str) : Bool := (words l)[0]? == some "ACK".toList

def isHeader (l : Str) : Bool := (stripPrefix boundTag l).isSome

/-- The key an acknowledgement's line names, if it has one. -/
def ackKey (l : Str) : Option Str := (words l)[1]?

/-- Two files that say the same: their records in order, whether there is a bound and
what it is, the first acknowledgement for each key. -/
structure SaysSame (ls ls' : List Str) : Prop where
  records : ls.filter isRecord = ls'.filter isRecord
  header : ls.any isHeader = ls'.any isHeader
  bound : ackBound ls = ackBound ls'
  first : ∀ key, (acks ls).lookup key = (acks ls').lookup key

/-- A line of a file repeated or moved. -/
inductive Edit : List Str → List Str → Prop where
  /-- An acknowledgement once more, anywhere after it was there first. -/
  | again {a : Str} {pre post : List Str} : isAck a = true → a ∈ pre →
      Edit (pre ++ post) (pre ++ a :: post)
  /-- Two acknowledgements that name different keys, the other way about. -/
  | swap {a b : Str} {pre post : List Str} : isAck a = true → isAck b = true →
      ackKey a ≠ ackKey b → Edit (pre ++ a :: b :: post) (pre ++ b :: a :: post)
  /-- An acknowledgement past any other kind of line. -/
  | move {a l : Str} {pre post : List Str} : isAck a = true → isAck l = false →
      Edit (pre ++ a :: l :: post) (pre ++ l :: a :: post)

/-! ## What each loop takes from a line -/

theorem parseBlock_of_not_record {l : Str} (h : isRecord l = false) : parseBlock l = .ok none := by
  by_cases hlen : (words l).length < 12
  · exact parseBlock_of_length hlen
  · unfold parseBlock
    split
    · rename_i hw
      rw [if_pos]
      by_contra hn
      rw [not_or, not_not, not_not] at hn
      simp [isRecord, hw, hn.1, hn.2] at h
    · rfl

theorem parseBlocks_filter (ls : List Str) : parseBlocks (ls.filter isRecord) = parseBlocks ls := by
  induction ls with
  | nil => rfl
  | cons l ls ih =>
    cases hl : isRecord l with
    | true => rw [List.filter_cons_of_pos hl, parseBlocks, parseBlocks, ih]
    | false =>
      rw [List.filter_cons_of_neg (by simp [hl]), ih, parseBlocks, parseBlock_of_not_record hl]
      simp only [bind, Except.bind, pure, Except.pure]
      cases parseBlocks ls <;> rfl

theorem parseAck_of_not_ack {l : Str} (h : isAck l = false) : parseAck l = none := by
  unfold parseAck
  split
  · rename_i hw
    rw [if_neg]
    rintro rfl
    simp [isAck, hw] at h
  · rfl

theorem parseAck_key {l key : Str} {ms : F64} (h : parseAck l = some (key, ms)) :
    ackKey l = some key := by
  unfold parseAck at h
  split at h
  · rename_i hw
    split at h
    · obtain ⟨x, -, hx⟩ := Option.map_eq_some_iff.mp h
      cases hx
      simp [ackKey, hw]
    · cases h
  · cases h

/-- An acknowledgement is no record and no header. -/
theorem isAck_other {l : Str} (h : isAck l = true) : isRecord l = false ∧ isHeader l = false := by
  have hw : (words l)[0]? = some "ACK".toList := by simpa [isAck] using h
  constructor
  · have : ((words l)[0]? == some "GROUP".toList) = false := by rw [hw]; decide
    rw [isRecord, this]
    rfl
  · cases hs : stripPrefix boundTag l with
    | none => simp [isHeader, hs]
    | some rest =>
      have htag : boundTag = "#".toList ++ ' ' :: "ack-bound-ms ".toList := by decide
      rw [eq_of_stripPrefix hs, htag, List.append_assoc, List.cons_append, words_append_space] at hw
      have hh : words "#".toList = ["#".toList] := by decide
      rw [hh] at hw
      exact absurd (Option.some.inj hw) (by decide)

/-! ## What an edit keeps -/

/-- Everything but the acknowledgements is read past them. -/
theorem filter_of_not_ack {ls ls' : List Str}
    (h : ls.filter (fun l => !isAck l) = ls'.filter fun l => !isAck l) :
    ls.filter isRecord = ls'.filter isRecord ∧ ls.any isHeader = ls'.any isHeader ∧
      ackBound ls = ackBound ls' := by
  have hrec : ∀ l, (!isAck l && isRecord l) = isRecord l := by
    intro l
    cases ha : isAck l with
    | true => simp [(isAck_other ha).1]
    | false => rfl
  have hhead : ∀ l, (!isAck l && isHeader l) = isHeader l := by
    intro l
    cases ha : isAck l with
    | true => simp [(isAck_other ha).2]
    | false => rfl
  have hfind : ∀ ls : List Str, (ls.filter fun l => !isAck l).findSome? (stripPrefix boundTag) =
      ls.findSome? (stripPrefix boundTag) := by
    intro ls
    induction ls with
    | nil => rfl
    | cons l ls ih =>
      cases ha : isAck l with
      | true =>
        have hs : stripPrefix boundTag l = none := by simpa [isHeader] using (isAck_other ha).2
        simp [ha, hs, ih]
      | false =>
        rw [List.filter_cons_of_pos (by simp [ha]), List.findSome?_cons, List.findSome?_cons, ih]
  refine ⟨?_, ?_, ?_⟩
  · have := congrArg (List.filter isRecord) h
    simpa [List.filter_filter, Bool.and_comm, hrec] using this
  · have := congrArg (List.any · isHeader) h
    simpa [List.any_filter, hhead] using this
  · rw [ackBound, ackBound, ← hfind ls, ← hfind ls', h]

theorem acks_append (xs ys : List Str) : acks (xs ++ ys) = acks xs ++ acks ys :=
  List.filterMap_append

theorem acks_cons (l : Str) (ls : List Str) : acks (l :: ls) = (parseAck l).toList ++ acks ls := by
  cases h : parseAck l <;> simp [acks, h]

theorem SaysSame.of_edit {ls ls' : List Str} (h : Edit ls ls') : SaysSame ls ls' := by
  cases h with
  | @again a pre post ha hmem =>
    obtain ⟨hr, hh, hb⟩ := @filter_of_not_ack (pre ++ post) (pre ++ a :: post) (by simp [ha])
    refine ⟨hr, hh, hb, fun key => ?_⟩
    rw [acks_append, acks_append, acks_cons]
    cases hp : parseAck a with
    | none => rfl
    | some p =>
      obtain ⟨k, ms⟩ := p
      have hk : (acks pre).lookup k ≠ none := by
        intro hnone
        have := List.lookup_eq_none_iff.mp hnone (k, ms) (List.mem_filterMap.mpr ⟨a, hmem, hp⟩)
        simp at this
      obtain ⟨v, hv⟩ := Option.ne_none_iff_exists'.mp hk
      by_cases he : k = key
      · subst he
        simp [List.lookup_append, hv]
      · simp [List.lookup_append, lookup_cons_eq, he]
  | @swap a b pre post ha hb hne =>
    obtain ⟨hr, hh, hbd⟩ := @filter_of_not_ack (pre ++ a :: b :: post) (pre ++ b :: a :: post)
      (by simp [ha, hb])
    refine ⟨hr, hh, hbd, fun key => ?_⟩
    simp only [acks_append, acks_cons, List.lookup_append]
    cases hp : parseAck a with
    | none => simp
    | some p => cases hq : parseAck b with
      | none => simp
      | some q =>
        obtain ⟨k, ms⟩ := p
        obtain ⟨k', ms'⟩ := q
        have hkk : k ≠ k' := by
          rintro rfl
          exact hne ((parseAck_key hp).trans (parseAck_key hq).symm)
        by_cases h : k = key
        · have h' : k' ≠ key := fun h' => hkk (h.trans h'.symm)
          simp [lookup_cons_eq, h, h']
        · simp [lookup_cons_eq, h]
  | @move a l pre post ha hl =>
    obtain ⟨hr, hh, hb⟩ := @filter_of_not_ack (pre ++ a :: l :: post) (pre ++ l :: a :: post)
      (by simp [ha, hl])
    refine ⟨hr, hh, hb, fun key => ?_⟩
    simp only [acks_append, acks_cons, parseAck_of_not_ack hl, Option.toList_none, List.nil_append]

theorem SaysSame.of_edits {ls ls' : List Str} (h : Relation.EqvGen Edit ls ls') :
    SaysSame ls ls' := by
  induction h with
  | rel ls ls' h => exact .of_edit h
  | refl ls => exact ⟨rfl, rfl, rfl, fun _ => rfl⟩
  | symm ls ls' _ ih =>
    exact ⟨ih.records.symm, ih.header.symm, ih.bound.symm, fun key => (ih.first key).symm⟩
  | trans ls ls' ls'' _ _ ih ih' =>
    exact ⟨ih.records.trans ih'.records, ih.header.trans ih'.header, ih.bound.trans ih'.bound,
      fun key => (ih.first key).trans (ih'.first key)⟩

/-! ## The blocks of a file -/

theorem SaysSame.parseLines_eq {ls ls' : List Str} (h : SaysSame ls ls') (path : String) :
    parseLines path ls = parseLines path ls' := by
  have hblocks : parseBlocks ls = parseBlocks ls' := by
    rw [← parseBlocks_filter ls, ← parseBlocks_filter ls', h.records]
  have hhead : (ls.any fun l => (stripPrefix boundTag l).isSome) =
      ls'.any fun l => (stripPrefix boundTag l).isSome := h.header
  simp only [parseLines, hblocks, hhead, h.bound, h.first]

theorem parseGroups_encode (path : String) (t : Str) :
    parseGroups path (.ok (encode t)) = parseLines path (lines t) := by
  simp only [parseGroups, decode_encode]

theorem correct_of_ne {a : Ack} (h : a ≠ .never) (ms : Option F64) : correct a ms = a := by
  cases ms with
  | none => rfl
  | some ms => rw [correct, if_neg h]

/-- A correction leaves an outcome that was known. -/
theorem parseLines_corrected {path : String} {ls : List Str} {out bs : List Block}
    (hout : parseBlocks ls = .ok out) (hold : ls.any isHeader = false)
    (h : parseLines path ls = .ok bs) :
    List.Forall₂ (fun r b => r.ack ≠ .never → b = r) out bs := by
  have hold : (ls.any fun l => (stripPrefix boundTag l).isSome) = false := hold
  simp only [parseLines, hout, hold, bind, Except.bind, pure, Except.pure] at h
  split at h
  · cases h
  · cases h
    rw [List.forall₂_map_right_iff]
    apply List.forall₂_same.mpr
    intro r _ hr
    rw [correct_of_ne hr]

/-- **What a groups file says.** Files with the same records in order, the same bound if
any and the same first acknowledgement for each key are read the same; so are files that
differ by any number of edits; and in a file without a bound no known outcome changes. -/
theorem parseGroups_order (path : String) :
    (∀ t t', SaysSame (lines t) (lines t') →
      parseGroups path (.ok (encode t)) = parseGroups path (.ok (encode t'))) ∧
    (∀ t t', Relation.EqvGen Edit (lines t) (lines t') →
      parseGroups path (.ok (encode t)) = parseGroups path (.ok (encode t'))) ∧
    ∀ t out bs, parseBlocks (lines t) = .ok out → (lines t).any isHeader = false →
      parseGroups path (.ok (encode t)) = .ok bs →
      List.Forall₂ (fun r b => r.ack ≠ .never → b = r) out bs := by
  simp only [parseGroups_encode]
  exact ⟨fun _ _ h => h.parseLines_eq path, fun _ _ h => (SaysSame.of_edits h).parseLines_eq path,
    fun _ _ _ hout hold h => parseLines_corrected hout hold h⟩

/-- A record of an old file, its block acknowledged in time. -/
def oldRecord : Str := "GROUP 0 1 full BLOCK 0 data k 0 5 9 00000000000000000000000000000000".toList

def oldBlock : Block :=
  { seed := zeroSeed, gid := 0, m := 1, arm := .full, idx := 0, parity := false, key := ['k'],
    tSend := 0, ack := .within (.fin 5), size := 9 }

/-- An old file with two corrections, and with them about and one of them again. -/
theorem oldRecord_order :
    parseGroups "g" (.ok (encode (unlines [oldRecord, "ACK k 7".toList, "ACK j 8".toList]))) =
        parseGroups "g" (.ok (encode (unlines [oldRecord, "ACK j 8".toList, "ACK k 7".toList]))) ∧
      parseGroups "g" (.ok (encode (unlines [oldRecord, "ACK k 7".toList]))) =
        parseGroups "g" (.ok (encode (unlines [oldRecord, "ACK k 7".toList, "ACK k 7".toList]))) ∧
      List.Forall₂ (fun r b => r.ack ≠ .never → b = r) [oldBlock] [oldBlock] := by
  obtain ⟨hsame, hedit, hold⟩ := parseGroups_order "g"
  have hflat : ∀ l ∈ [oldRecord, "ACK k 7".toList, "ACK j 8".toList], Flat l := by decide +kernel
  have hlines : ∀ ls ⊆ [oldRecord, "ACK k 7".toList, "ACK j 8".toList], lines (unlines ls) = ls :=
    fun ls hls => lines_unlines fun l hl => hflat l (hls hl)
  refine ⟨hsame _ _ ?_, hedit _ _ ?_, hold (unlines [oldRecord, "ACK k 7".toList]) _ _ ?_ ?_ ?_⟩
  · rw [hlines _ (by simp), hlines _ (by simp)]
    exact .of_edit (@Edit.swap _ _ [oldRecord] [] (by decide) (by decide) (by decide))
  · rw [hlines _ (by simp), hlines _ (by simp)]
    exact .rel _ _ (@Edit.again "ACK k 7".toList [oldRecord, "ACK k 7".toList] []
      (by decide) (by simp))
  · rw [hlines _ (by simp)]
    decide +kernel
  · rw [hlines _ (by simp)]
    decide +kernel
  · rw [parseGroups_encode, hlines _ (by simp)]
    decide +kernel

end FreenetHarness.Parity
