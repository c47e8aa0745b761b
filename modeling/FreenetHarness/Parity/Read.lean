import FreenetHarness.Lib.Rounds
import FreenetHarness.Parity.Prefix
import FreenetHarness.Parity.Score
import FreenetHarness.Stats

/-! # READ: every member asked for at once

The keys are probed round by round until they are fetched or the time is up. `read_covers`
says that every key has one line in the reads file, and that the scorer reads back for it
what became of it. -/
namespace FreenetHarness.Parity
open FreenetHarness.Lib.Rounds FreenetHarness.Lib.Run FreenetHarness.Lib.Table
  FreenetHarness.Lib.Text FreenetHarness.Lib.Number FreenetHarness.Stats

/-! ## The reader -/

/-- A key to ask for. -/
structure Ask (Id : Type) where
  gid : UInt64
  key : Str
  id : Id

/-- What the turn of one key meets: the clock as the deadline is checked, what the probe
returns, and the clock as its line is written. -/
structure Look where
  now : Nat
  probe : Except String (Option UInt64)
  clock : Nat

/-- Control groups are asked for their data members only. -/
def wanted (blocks : List Block) : List Block := blocks.filter fun b => b.arm = .full ∨ !b.parity

section Read

variable {Id : Type} (instanceId : Str → Except String Id)

def ask (b : Block) : Except Fault (Ask Id) :=
  match instanceId b.key with
  | .error e => .error (.bail (String.ofList b.key ++ ": " ++ e))
  | .ok id => .ok { gid := b.gid, key := b.key, id }

variable (t0 deadline : Nat)

/-- One turn: what a fetched key is fetched with, its time and its length. -/
def look (_ : Unit) (_ : Ask Id) (l : Look) : Except Fault (Unit × Option (ℚ × UInt64)) :=
  if deadline ≤ l.now then .ok ((), none)
  else match l.probe with
    | .ok (some len) => .ok ((), some (msSince t0 l.clock, len))
    | _ => .ok ((), none)

/-- The line of a key, which was fetched or was not. -/
def readsLine (perKeySecs : Nat) (gid : UInt64) (key : Str) : Option (ℚ × UInt64) → Str
  | some (ms, len) => unwords ["READ".toList, digits gid.toNat, key, print1 ms, digits len.toNat]
  | none => unwords ["MISS".toList, digits gid.toNat, key, digits perKeySecs]

def askLine (perKeySecs : Nat) (a : Ask Id) (r : Option (ℚ × UInt64)) : Str :=
  readsLine perKeySecs a.gid a.key r

/-- Nothing fetched yet. -/
def opening (asks : List (Ask Id)) : Progress (Ask Id) Unit (ℚ × UInt64) :=
  { side := (), still := asks }

/-- The reads file of the groups in a file, from the rounds that begin in time. -/
def read (path : String) (file : Except String ByteArray) (perKeySecs : Nat)
    (rs : List (Nat → Look)) : Except Fault (List Str) := do
  let blocks ← parseGroups path file
  let asks ← (wanted blocks).mapM (ask instanceId)
  let s ← rounds (look t0 (t0 + perKeySecs * 1000000000)) (opening asks) rs
  return s.served.map (fun p => askLine perKeySecs p.1 (some p.2)) ++
    s.still.map fun a => askLine perKeySecs a none

end Read

/-! ## The scorer's side -/

/-- The key of a line, and its time if it has one. -/
def parseReadsLine (l : Str) : Option (Str × Option F64) :=
  match words l with
  | tag :: _ :: key :: rest =>
    if tag = "READ".toList then
      match rest with
      | ms :: _ => some (key, parseF64 ms)
      | [] => none
    else if tag = "MISS".toList then some (key, none)
    else none
  | _ => none

def parseReads (text : Str) : HashMap Str (Option F64) :=
  fill ∅ ((lines text).filterMap parseReadsLine)

/-! ## What is written reads back -/

/-- What is read back of a key's time. -/
def printed (r : Option (ℚ × UInt64)) : Option F64 := r.map fun x => .fin (tenths x.1 / 10)

theorem isWord_readsLine {key : Str} (hk : IsWord key) {ms : ℚ} (hms : 0 ≤ ms) (gid len : UInt64) :
    ∀ w ∈ ["READ".toList, digits gid.toNat, key, print1 ms, digits len.toNat], IsWord w := by
  intro w hw
  simp only [List.mem_cons, List.not_mem_nil, or_false] at hw
  rcases hw with rfl | rfl | rfl | rfl | rfl
  · decide
  · exact isWord_digits _
  · exact hk
  · exact isWord_print1 hms
  · exact isWord_digits _

theorem isWord_missLine {key : Str} (hk : IsWord key) (gid : UInt64) (perKeySecs : Nat) :
    ∀ w ∈ ["MISS".toList, digits gid.toNat, key, digits perKeySecs], IsWord w := by
  intro w hw
  simp only [List.mem_cons, List.not_mem_nil, or_false] at hw
  rcases hw with rfl | rfl | rfl | rfl
  · decide
  · exact isWord_digits _
  · exact hk
  · exact isWord_digits _

/-- **A line reads back** as its key and the printed time. -/
theorem parseReadsLine_readsLine {key : Str} (hk : IsWord key) (perKeySecs : Nat) (gid : UInt64)
    {r : Option (ℚ × UInt64)} (hr : ∀ x ∈ r, 0 ≤ x.1) :
    parseReadsLine (readsLine perKeySecs gid key r) = some (key, printed r) ∧
      Flat (readsLine perKeySecs gid key r) := by
  cases r with
  | none =>
    have hw := isWord_missLine hk gid perKeySecs
    refine ⟨?_, flat_unwords_of_isWord hw⟩
    unfold parseReadsLine readsLine
    rw [words_unwords hw]
    rfl
  | some x =>
    have hx : 0 ≤ x.1 := hr x rfl
    have hw := isWord_readsLine hk hx gid x.2
    refine ⟨?_, flat_unwords_of_isWord hw⟩
    unfold parseReadsLine readsLine
    rw [words_unwords hw]
    simp only [if_true, parseF64_print1 hx]
    rfl

/-- A file of one line a key is read back as these keys, each with what its line says. -/
theorem parseReads_lines {perKeySecs : Nat} {bs : List Block}
    {took : Str → Option (ℚ × UInt64)} {out : List Str} (hw : ∀ b ∈ bs, IsWord b.key)
    (hd : (bs.map Block.key).Nodup) (hnn : ∀ key, ∀ x ∈ took key, 0 ≤ x.1)
    (hout : out.Perm (bs.map fun b => readsLine perKeySecs b.gid b.key (took b.key))) :
    (∀ key, key ∈ parseReads (unlines out) ↔ key ∈ bs.map Block.key) ∧
      ∀ b ∈ bs, (parseReads (unlines out)).lookup b.key = some (printed (took b.key)) := by
  have hline : ∀ b ∈ bs, _ ∧ _ := fun b hb =>
    parseReadsLine_readsLine (hw b hb) perKeySecs b.gid (hnn b.key)
  have hflat : ∀ l ∈ out, Flat l := by
    intro l hl
    obtain ⟨b, hb, rfl⟩ := List.mem_map.mp (hout.mem_iff.mp hl)
    exact (hline b hb).2
  have hpairs : (out.filterMap parseReadsLine).Perm
      (bs.map fun b => (b.key, printed (took b.key))) := by
    refine (hout.filterMap parseReadsLine).trans (List.Perm.of_eq ?_)
    rw [List.filterMap_map, ← List.filterMap_eq_map]
    exact List.filterMap_congr fun b hb => (hline b hb).1
  have hfst : ((out.filterMap parseReadsLine).map Prod.fst).Perm (bs.map Block.key) := by
    have := hpairs.map Prod.fst
    rwa [List.map_map] at this
  rw [parseReads, lines_unlines hflat]
  constructor
  · intro key
    rw [mem_fill, hfst.mem_iff]
  · intro b hb
    have hmem : (b.key, printed (took b.key)) ∈ out.filterMap parseReadsLine :=
      hpairs.mem_iff.mpr (List.mem_map.mpr ⟨b, hb, rfl⟩)
    exact lookup_fill_of_mem (hfst.nodup_iff.mpr hd) hmem

/-! ## The keys of a groups file -/

theorem isWord_of_parseBlock {l : Str} {b : Block} (h : parseBlock l = .ok (some b)) :
    IsWord b.key := by
  have hword : ∀ w ∈ words l, IsWord w := fun w hw => isWord_of_mem_words hw
  unfold parseBlock at h
  split at h
  · rename_i hw
    rw [hw] at hword
    split at h
    · cases h
    · simp only [bind_eq_ok] at h
      obtain ⟨_, -, _, -, _, -, _, -, _, -, _, -, _, -, h⟩ := h
      cases h
      exact hword _ (by simp)
  · cases h

theorem isWord_of_parseBlocks {ls : List Str} {bs : List Block} (h : parseBlocks ls = .ok bs) :
    ∀ b ∈ bs, IsWord b.key := by
  induction ls generalizing bs with
  | nil =>
    cases h
    simp
  | cons l ls ih =>
    rw [parseBlocks, bind_eq_ok] at h
    obtain ⟨b, hb, h⟩ := h
    rw [bind_eq_ok] at h
    obtain ⟨cs, hcs, h⟩ := h
    cases h
    intro c hc
    rcases List.mem_append.mp hc with hc | hc
    · rw [Option.mem_toList] at hc
      exact isWord_of_parseBlock (hb.trans (by rw [hc]))
    · exact ih hcs c hc

/-- The key of a block is one word. -/
theorem isWord_of_parseGroups {path : String} {file : Except String ByteArray}
    {blocks : List Block} (h : parseGroups path file = .ok blocks) :
    ∀ b ∈ blocks, IsWord b.key := by
  unfold parseGroups at h
  split at h
  · cases h
  split at h
  · cases h
  rw [parseLines, bind_eq_ok] at h
  obtain ⟨out, hout, h⟩ := h
  have hword := isWord_of_parseBlocks hout
  intro b hb
  split at h
  · cases h
  split at h
  · cases h
    obtain ⟨c, hc, rfl⟩ := List.mem_map.mp hb
    exact hword c hc
  · cases h
    obtain ⟨c, hc, rfl⟩ := List.mem_map.mp hb
    exact hword c hc

/-! ## One line a key -/

section Covers

variable {Id : Type} {instanceId : Str → Except String Id} {t0 deadline : Nat}

/-- The turn of a key in which its probe is made and answered. -/
def Answers (t0 deadline : Nat) (key : Str) (x : ℚ × UInt64) (v : Visit (Ask Id) Unit Look) :
    Prop :=
  v.item.key = key ∧ v.meets.now < deadline ∧ v.meets.probe = .ok (some x.2) ∧
    x.1 = msSince t0 v.meets.clock

theorem look_total (side : Unit) (a : Ask Id) (l : Look) :
    ∃ r, look t0 deadline side a l = .ok r := by
  unfold look
  split
  · exact ⟨_, rfl⟩
  · split <;> exact ⟨_, rfl⟩

theorem gives_iff {v : Visit (Ask Id) Unit Look} {x : ℚ × UInt64} :
    v.gives (look t0 deadline) = some (v.item, x) ↔ Answers t0 deadline v.item.key x v := by
  unfold Visit.gives look Answers
  by_cases hlate : deadline ≤ v.meets.now
  · simp [hlate]
  · rw [if_neg hlate]
    cases hp : v.meets.probe with
    | error e => simp
    | ok r =>
      cases r with
      | none => simp
      | some len =>
        simp only [Option.some.injEq, true_and, Except.ok.injEq, Nat.lt_of_not_le hlate,
          Prod.ext_iff]
        exact ⟨fun ⟨hms, hlen⟩ => ⟨hlen, hms.symm⟩, fun ⟨hlen, hms⟩ => ⟨hms.symm, hlen⟩⟩

theorem mem_filterMap_gives {vs : List (Visit (Ask Id) Unit Look)} {a : Ask Id}
    {x : ℚ × UInt64} :
    (a, x) ∈ vs.filterMap (Visit.gives (look t0 deadline)) ↔
      ∃ v ∈ vs, v.item = a ∧ Answers t0 deadline a.key x v := by
  rw [List.mem_filterMap]
  refine exists_congr fun v => and_congr_right fun _ => ?_
  constructor
  · intro h
    have hitem : v.item = a := by
      unfold Visit.gives at h
      split at h <;> cases h
      rfl
    subst hitem
    exact ⟨rfl, gives_iff.mp h⟩
  · rintro ⟨rfl, h⟩
    exact gives_iff.mpr h

theorem asks_fields {bs : List Block} {asks : List (Ask Id)}
    (ha : bs.mapM (ask instanceId) = .ok asks) {γ : Type} (f : UInt64 → Str → γ) :
    (asks.map fun a => f a.gid a.key) = bs.map fun b => f b.gid b.key := by
  refine map_of_mapM_ok (fun b _ a h => ?_) ha
  unfold ask at h
  split at h <;> cases h
  rfl

/-- **Every key has one line**, `READ` where a probe of it was answered and `MISS` where
none was, and the reads file is read back as exactly these keys, with the printed times. -/
theorem read_covers {path : String} {file : Except String ByteArray} {perKeySecs : Nat}
    (rs : List (Nat → Look)) {blocks : List Block} {asks : List (Ask Id)}
    (hb : parseGroups path file = .ok blocks) (hd : ((wanted blocks).map Block.key).Nodup)
    (ha : (wanted blocks).mapM (ask instanceId) = .ok asks) :
    ∃ (out : List Str) (took : Str → Option (ℚ × UInt64)),
      read instanceId t0 path file perKeySecs rs = .ok out ∧
      (∀ key x, took key = some x ↔
        ∃ v ∈ visits (look t0 (t0 + perKeySecs * 1000000000)) (opening asks) rs,
          Answers t0 (t0 + perKeySecs * 1000000000) key x v) ∧
      out.Perm ((wanted blocks).map fun b => readsLine perKeySecs b.gid b.key (took b.key)) ∧
      (∀ key, key ∈ parseReads (unlines out) ↔ key ∈ (wanted blocks).map Block.key) ∧
      ∀ b ∈ wanted blocks, (parseReads (unlines out)).lookup b.key = some (printed (took b.key)) := by
  have hlook : ∀ side (a : Ask Id) l, ∃ r,
      look t0 (t0 + perKeySecs * 1000000000) side a l = .ok r := look_total
  obtain ⟨s, hs⟩ := rounds_total hlook (opening asks) rs
  have hkeys : (asks.map Ask.key).Nodup := by
    rw [show asks.map Ask.key = (wanted blocks).map Block.key from asks_fields ha fun _ k => k]
    exact hd
  have hperm : (s.served.map Prod.fst ++ s.still).Perm asks := rounds_perm hs
  have hserved : (s.served.map fun p => p.1.key).Nodup := by
    have h := ((hperm.map Ask.key).nodup_iff).mpr hkeys
    rw [List.map_append, List.map_map] at h
    exact (List.nodup_append.mp h).1
  have htook : ∀ key x, fate Ask.key s.served key = some x ↔
      ∃ v ∈ visits (look t0 (t0 + perKeySecs * 1000000000)) (opening asks) rs,
        Answers t0 (t0 + perKeySecs * 1000000000) key x v := by
    intro key x
    rw [fate_eq_some_iff hserved, served_eq hs]
    simp only [opening, List.nil_append, mem_filterMap_gives]
    constructor
    · rintro ⟨a, ⟨v, hv, -, h⟩, rfl⟩
      exact ⟨v, hv, h⟩
    · rintro ⟨v, hv, h⟩
      exact ⟨v.item, ⟨v, hv, rfl, h.1.symm ▸ h⟩, h.1⟩
  have hnn : ∀ key, ∀ x ∈ fate Ask.key s.served key, 0 ≤ x.1 := by
    intro key x hx
    obtain ⟨v, -, h⟩ := (htook key x).mp hx
    exact h.2.2.2 ▸ msSince_nonneg _ _
  have hlines : (asks.map fun a => askLine perKeySecs a (fate Ask.key s.served a.key)) =
      (wanted blocks).map fun b =>
        readsLine perKeySecs b.gid b.key (fate Ask.key s.served b.key) :=
    asks_fields ha fun gid key => readsLine perKeySecs gid key (fate Ask.key s.served key)
  have hout := perm_fates hkeys hperm (askLine perKeySecs)
  rw [hlines] at hout
  have hword : ∀ b ∈ wanted blocks, IsWord b.key := fun b h =>
    isWord_of_parseGroups hb b (List.mem_filter.mp h).1
  refine ⟨_, fate Ask.key s.served, ?_, htook, hout, parseReads_lines hword hd hnn hout⟩
  rw [read, hb]
  change ((wanted blocks).mapM (ask instanceId) >>= _) = _
  rw [ha]
  change (rounds _ _ _ >>= _) = _
  rw [hs]
  rfl

end Covers

/-- Two blocks asked for, the first of them answered in the only round. -/
def answerFirst : Nat → Look := fun i =>
  { now := 0, probe := .ok (if i = 0 then some 17 else none), clock := 5000000 }

theorem read_covers_two :
    ∃ out, read .ok 0 "groups.txt" (.ok (encode (fileText 30000 twoBlocks))) 60 [answerFirst] =
        .ok out ∧
      ∀ key, key ∈ parseReads (unlines out) ↔ key ∈ ["A".toList, "B".toList] := by
  have hb := parseGroups_file "groups.txt" 30000 written_twoBlocks
  rw [parseLines_written "groups.txt" 30000 written_twoBlocks (by decide)] at hb
  obtain ⟨out, -, hread, -, -, hkeys, -⟩ :=
    @read_covers Str .ok 0 "groups.txt" (.ok (encode (fileText 30000 twoBlocks))) 60 [answerFirst]
      _ _ hb (by decide +kernel) (by rfl)
  exact ⟨out, hread, hkeys⟩

end FreenetHarness.Parity
