import FreenetHarness.Artefact
import FreenetHarness.Latency
import FreenetHarness.Lib.Table

/-! # The kinds a table measures

Which kinds a run measures, how much each can carry, and whose build it takes.
`selectKinds_ok_iff` says that the order and the case they are named in change nothing,
`pieces_spec` that a size under a kind's cap always fits, `loadCodes_ok_iff` that a run
goes on exactly where every kind it measures has the build it was told. -/
namespace FreenetHarness.Latency
open FreenetHarness.Lib.Text FreenetHarness.Lib.Number FreenetHarness.Lib.Programs
  FreenetHarness.Lib.Table FreenetHarness.Lib.Run FreenetHarness.Stats
open FreenetHarness.Artefact (Outside Passes judge load wanted)

/-- A contract kind the table measures, less how a fresh instance is built. -/
structure Kind where
  name : String
  wasm : String
  /-- The largest body this kind can carry. -/
  cap : Nat
  capWhy : String
  deriving DecidableEq

/-- The limits the contracts state. -/
structure Limits where
  maxBody : Nat
  maxValue : Nat
  setM : Nat
  setPayload : Nat
  bagPayload : Nat

def bagM : Nat := 1024

def blockKind (l : Limits) : Kind where
  name := "Block"
  wasm := "block.wasm"
  cap := l.maxBody
  capWhy := "block::MAX_BODY, the largest RAW body a Block will hold"

def registerKind (l : Limits) : Kind where
  name := "Register"
  wasm := "register.wasm"
  cap := l.maxValue
  capWhy := "register::wire::MAX_VALUE — a register holds ONE value"

def setKind (l : Limits) : Kind where
  name := "Set"
  wasm := "set.wasm"
  cap := l.setM * l.setPayload
  capWhy := "MAX_M slots x MAX_PAYLOAD — a Set cannot hold more than it keeps"

def bagKind (l : Limits) : Kind where
  name := "Bag"
  wasm := "bag.wasm"
  cap := bagM * l.bagPayload
  capWhy := "M pointers x MAX_PAYLOAD"

/-- Block stays first. -/
def kinds (l : Limits) : List Kind := [blockKind l, registerKind l, setKind l, bagKind l]

/-- Why this kind cannot be measured at this size, if it cannot. -/
def skipNote (k : Kind) (size : Nat) : Option String :=
  if k.cap < size then
    some (s!"{k.name} {kib size}: not measured — {k.name} holds at most {kib k.cap} " ++
      s!"({k.capWhy})")
  else none

/-! ## A size in pieces -/

/-- The loop that gives each item what is left, up to `per`; `fuel` passes at most. -/
def pieces (per : Nat) : Nat → Nat → List Nat → Option (List Nat)
  | 0, _, _ => none
  | fuel + 1, left, items =>
    if 0 < left ∨ items = [] then
      pieces per fuel (left - min left per) (items ++ [min left per])
    else some items

/-- One item of a measured Set: its name, its order and how much it carries. -/
structure Item where
  name : Str
  order : Nat
  size : Nat
  deriving DecidableEq

def item (i size : Nat) : Item := ⟨'k' :: zeroPad 4 i, 10 + i, size⟩

/-- The items of a Set of this size. -/
def setItems (l : Limits) (fuel size : Nat) : Option (Except String (List Item)) :=
  (pieces l.setPayload fuel size []).map fun sizes =>
    if l.setM < sizes.length then
      .error (s!"{sizes.length} items asked for, but this Set keeps {l.setM} — the cap in " ++
        "KINDS is wrong")
    else .ok (sizes.zipIdx.map fun x => item x.2 x.1)

/-- The payloads of a Bag of this size, in the order they are mined. -/
def bagPieces (l : Limits) (fuel size : Nat) : Option (Except String (List Nat)) :=
  (pieces l.bagPayload fuel size []).map fun sizes =>
    if bagM < sizes.length then
      .error (s!"{sizes.length} pointers asked for, but this Bag keeps {bagM} — the cap in " ++
        "KINDS is wrong")
    else .ok sizes

/-- A size in pieces, of which every one but the last is full. -/
structure Cut (per size : Nat) (sizes : List Nat) : Prop where
  sum : sizes.sum = size
  le : ∀ n ∈ sizes, n ≤ per
  short : sizes.length = 1 ∨ sizes.length * per < size + per

theorem sum_le {per : Nat} {ns : List Nat} (h : ∀ n ∈ ns, n ≤ per) : ns.sum ≤ ns.length * per := by
  induction ns with
  | nil => simp
  | cons n ns ih =>
    have hn := h n (List.mem_cons_self ..)
    have hns := ih fun m hm => h m (List.mem_cons_of_mem _ hm)
    rw [List.sum_cons, List.length_cons, Nat.succ_mul]
    omega

/-- What the loop adds from there on: every piece but the last is full. -/
theorem pieces_add {per : Nat} (hper : 0 < per) {fuel left : Nat} (hfuel : left < fuel)
    {items : List Nat} (hne : items ≠ []) :
    ∃ sizes, pieces per fuel left items = some (items ++ sizes) ∧ sizes.sum = left ∧
      (∀ n ∈ sizes, n ≤ per) ∧ sizes.length * per < left + per := by
  induction fuel generalizing left items with
  | zero => omega
  | succ fuel ih =>
    unfold pieces
    by_cases hleft : 0 < left
    · rw [if_pos (.inl hleft)]
      obtain ⟨sizes, hs, hsum, hle, hlen⟩ := @ih (left - min left per) (by omega) (items ++ [min left per])
        (by simp)
      refine ⟨min left per :: sizes, by rw [hs]; simp, by simp [hsum], by simpa using hle, ?_⟩
      rw [List.length_cons, Nat.succ_mul]
      by_cases hlast : left ≤ per
      · -- the rest is one piece, so nothing follows it
        rw [Nat.min_eq_left hlast, Nat.sub_self, Nat.zero_add] at hlen
        have hnil : sizes.length = 0 := Nat.eq_zero_of_not_pos fun hpos =>
          absurd (Nat.le_mul_of_pos_left per hpos) (by omega)
        rw [hnil]
        omega
      · omega
    · obtain rfl : left = 0 := by omega
      rw [if_neg (by simp [hne])]
      exact ⟨[], by simp, rfl, by simp, by simp [hper]⟩

/-- **The loop ends**, with the size cut. -/
theorem pieces_cut {per : Nat} (hper : 0 < per) {fuel size : Nat} (hfuel : size + 1 < fuel) :
    ∃ sizes, pieces per fuel size [] = some sizes ∧ Cut per size sizes := by
  obtain ⟨fuel, rfl⟩ : ∃ f, fuel = f + 1 := ⟨fuel - 1, by omega⟩
  obtain ⟨rest, hrest, hsum, hle, hlen⟩ := @pieces_add per hper fuel (size - min size per)
    (by omega) [min size per] (by simp)
  refine ⟨min size per :: rest, ?_, by simp [hsum], by simpa using hle, ?_⟩
  · rw [pieces, if_pos (.inr rfl)]
    exact hrest
  · rw [List.length_cons, Nat.succ_mul]
    by_cases hlast : size ≤ per
    · rw [Nat.min_eq_left hlast, Nat.sub_self, Nat.zero_add] at hlen
      have hnil : rest.length = 0 := Nat.eq_zero_of_not_pos fun hpos =>
        absurd (Nat.le_mul_of_pos_left per hpos) (by omega)
      exact .inl (by rw [hnil])
    · exact .inr (by omega)

/-- A size under the cap does not need more pieces than the contract keeps. -/
theorem Cut.length_le {per size m : Nat} {sizes : List Nat} (h : Cut per size sizes) (hm : 0 < m)
    (hcap : size ≤ m * per) : sizes.length ≤ m := by
  obtain hone | hshort := h.short
  · omega
  · by_contra hlt
    have : (m + 1) * per ≤ sizes.length * per := Nat.mul_le_mul_right per (by omega)
    rw [Nat.succ_mul] at this
    omega

/-- No cutting of the size has fewer pieces. -/
theorem Cut.fewest {per size : Nat} {sizes : List Nat} (h : Cut per size sizes) {ns : List Nat}
    (hne : ns ≠ []) (hns : ns.sum = size) (hle : ∀ n ∈ ns, n ≤ per) : sizes.length ≤ ns.length :=
  h.length_le (List.length_pos_of_ne_nil hne) (hns ▸ sum_le hle)

/-- A size over the cap needs more. -/
theorem Cut.lt_length {per size m : Nat} {sizes : List Nat} (h : Cut per size sizes)
    (hcap : ¬ size ≤ m * per) : m < sizes.length := by
  by_contra hfew
  have := (h.sum ▸ sum_le h.le).trans (Nat.mul_le_mul_right per (Nat.not_lt.mp hfew))
  exact hcap this

/-- What a Set of a size holds: items of different names, in as few as can be. -/
structure Spread (per size : Nat) (items : List Item) : Prop where
  nodup : (items.map Item.name).Nodup
  cut : Cut per size (items.map Item.size)
  fewest : ∀ ns ≠ [], ns.sum = size → (∀ n ∈ ns, n ≤ per) → items.length ≤ ns.length

theorem Cut.spread {per size : Nat} {sizes : List Nat} (h : Cut per size sizes) :
    Spread per size (sizes.zipIdx.map fun x => item x.2 x.1) where
  nodup := by
    have hnames : ((sizes.zipIdx.map fun x => item x.2 x.1).map Item.name) =
        (List.range' 0 sizes.length).map fun i => 'k' :: zeroPad 4 i := by
      rw [List.map_map, ← List.zipIdx_map_snd 0 sizes, List.map_map]
      rfl
    rw [hnames]
    refine (List.nodup_range' ..).map fun i j hij => ?_
    exact zeroPad_inj (List.cons.inj hij).2
  cut := by
    have hsizes : ((sizes.zipIdx.map fun x => item x.2 x.1).map Item.size) = sizes := by
      rw [List.map_map]
      exact List.zipIdx_map_fst 0 sizes
    rwa [hsizes]
  fewest := by
    intro ns hne hns hle
    rw [List.length_map, List.length_zipIdx]
    exact h.fewest hne hns hle

/-- **The caps are the contracts' own.** A Set or a Bag is made at exactly the sizes the table
does not skip, and of as few pieces as there can be. -/
theorem caps_exact {l : Limits} (hm : 0 < l.setM) (hset : 0 < l.setPayload)
    (hbag : 0 < l.bagPayload) {fuel size : Nat} (hfuel : size + 1 < fuel) :
    (if skipNote (setKind l) size = none then
        ∃ items, setItems l fuel size = some (.ok items) ∧ Spread l.setPayload size items
      else ∃ e, setItems l fuel size = some (.error e)) ∧
    (if skipNote (bagKind l) size = none then
        ∃ sizes, bagPieces l fuel size = some (.ok sizes) ∧ Cut l.bagPayload size sizes
      else ∃ e, bagPieces l fuel size = some (.error e)) := by
  have hskip : ∀ k : Kind, skipNote k size = none ↔ size ≤ k.cap := fun k => by
    unfold skipNote
    split <;> simp <;> omega
  obtain ⟨sets, hsets, hcut⟩ := pieces_cut hset hfuel
  obtain ⟨bags, hbags, hcut'⟩ := pieces_cut hbag hfuel
  constructor
  · unfold setItems
    rw [hsets, Option.map_some]
    split
    · rename_i hfit
      rw [if_neg (Nat.not_lt.mpr (hcut.length_le hm ((hskip _).mp hfit)))]
      exact ⟨_, rfl, hcut.spread⟩
    · rename_i hfit
      rw [if_pos (hcut.lt_length (mt (hskip (setKind l)).mpr hfit))]
      exact ⟨_, rfl⟩
  · unfold bagPieces
    rw [hbags, Option.map_some]
    split
    · rename_i hfit
      rw [if_neg (Nat.not_lt.mpr (hcut'.length_le (by decide) ((hskip _).mp hfit)))]
      exact ⟨_, rfl, hcut'⟩
    · rename_i hfit
      rw [if_pos (hcut'.lt_length (mt (hskip (bagKind l)).mpr hfit))]
      exact ⟨_, rfl⟩

theorem caps_exact_one : let l : Limits := ⟨4, 4, 2, 3, 5⟩
    (if skipNote (setKind l) 4 = none then
        ∃ items, setItems l 6 4 = some (.ok items) ∧ Spread l.setPayload 4 items
      else ∃ e, setItems l 6 4 = some (.error e)) ∧
    (if skipNote (bagKind l) 4 = none then
        ∃ sizes, bagPieces l 6 4 = some (.ok sizes) ∧ Cut l.bagPayload 4 sizes
      else ∃ e, bagPieces l 6 4 = some (.error e)) :=
  caps_exact (by decide) (by decide) (by decide) (by decide)

/-! ## The kinds named on the command line -/

/-- Why a run is refused before it has begun. -/
inductive Refusal where
  | nothing (all : List Kind)
  | unknown (name : Str) (all : List Kind)
  | namedTwice (name : Str)
  | notPair (entry : Str)
  | shaTwice (name : Str)
  | noEntry (k : Kind)
  | artefact (r : Artefact.Refusal)
  deriving DecidableEq

/-- The names of the kinds, in a message. -/
def spelled (all : List Kind) : String := ", ".intercalate (all.map Kind.name)

/-- The message; `quote` is how a text prints under `{:?}`. -/
def Refusal.text (quote : Str → String) : Refusal → String
  | .nothing all =>
    s!"--kinds names nothing to measure; the kinds are {spelled all}"
  | .unknown name all =>
    s!"no contract kind called {quote name}; the kinds are {spelled all}"
  | .namedTwice name => s!"--kinds names {quote name} twice"
  | .notPair entry => s!"--expect-sha {quote entry} is not <kind>=<sha256 prefix>"
  | .shaTwice name => s!"--expect-sha names {quote name} twice"
  | .noEntry k =>
    s!"--expect-sha has no entry for {k.name}. Pass {k.name}=<sha256 prefix>, the hash " ++
      s!"freenet-contracts/build.sh printed for build/{k.wasm}."
  | .artefact r => r.text quote

def toAsciiLowercase (s : Str) : Str := s.map Char.toLower

/-- A name as the flags are matched by it. -/
def Kind.key (k : Kind) : Str := toAsciiLowercase k.name.toList

/-- Where the table has the kind of a name. -/
def position (all : List Kind) (name : Str) : Option Nat :=
  all.findIdx? fun k => decide (k.key = toAsciiLowercase name)

def placed (all : List Kind) (name : Str) : Except Refusal Nat :=
  match position all name with
  | none => .error (.unknown name all)
  | some i => .ok i

/-- The kinds named, put back into the table's order. -/
def selectKinds (all : List Kind) (names : List Str) : Except Refusal (List Kind) :=
  if names = [] then .error (.nothing all)
  else (collect (placed all) id (fun n _ => .namedTwice n) [] names).map fun idx =>
    (idx.mergeSort fun a b => decide (a ≤ b)).filterMap (all[·]?)

theorem placed_ok_iff {all : List Kind} {name : Str} {i : Nat} :
    placed all name = .ok i ↔ position all name = some i := by
  unfold placed
  cases position all name <;> simp

/-- Where the keys of a table differ, a name has the place of the one row with its key. -/
theorem position_eq_some_iff {all : List Kind} (hall : (all.map Kind.key).Nodup) {name : Str}
    {i : Nat} : position all name = some i ↔
      ∃ k, all[i]? = some k ∧ k.key = toAsciiLowercase name := by
  unfold position
  rw [List.findIdx?_eq_some_iff_getElem]
  constructor
  · rintro ⟨hi, hk, -⟩
    exact ⟨all[i], List.getElem?_eq_getElem hi, of_decide_eq_true hk⟩
  · rintro ⟨k, hk, hkey⟩
    obtain ⟨hi, rfl⟩ := List.getElem?_eq_some_iff.mp hk
    refine ⟨hi, decide_eq_true hkey, fun j hj hsame => ?_⟩
    have hlen : ∀ n < all.length, n < (all.map Kind.key).length := fun n hn => by simpa using hn
    have heq : (all.map Kind.key).get ⟨j, hlen j (hj.trans hi)⟩ =
        (all.map Kind.key).get ⟨i, hlen i hi⟩ := by
      rw [List.get_eq_getElem, List.get_eq_getElem, List.getElem_map, List.getElem_map, hkey]
      exact of_decide_eq_true hsame
    exact absurd (congrArg Fin.val (hall.injective_get heq)) (by simp; omega)

/-- Names with places have different ones where their keys differ. -/
theorem nodup_places_iff {all : List Kind} (hall : (all.map Kind.key).Nodup) {names : List Str}
    {is : List Nat} (h : names.map (position all) = is.map some) :
    is.Nodup ↔ (names.map toAsciiLowercase).Nodup := by
  have hplace : ∀ n ∈ names, ∃ i, position all n = some i := fun n hn => by
    have hmem : position all n ∈ is.map some := h ▸ List.mem_map_of_mem hn
    obtain ⟨i, -, hi⟩ := List.mem_map.mp hmem
    exact ⟨i, hi.symm⟩
  rw [← List.nodup_map_iff (Option.some_injective _), ← h]
  constructor
  · intro hnd
    refine List.Nodup.of_map (fun key => all.findIdx? fun k => decide (k.key = key)) ?_
    rw [List.map_map]
    exact hnd
  · intro hnd
    refine List.Nodup.map_on (fun n hn m hm hnm => ?_) (List.Nodup.of_map _ hnd)
    obtain ⟨i, hi⟩ := hplace n hn
    obtain ⟨k, hk, hkey⟩ := (position_eq_some_iff hall).mp hi
    obtain ⟨k', hk', hkey'⟩ := (position_eq_some_iff hall).mp (hnm ▸ hi)
    obtain rfl : k = k' := Option.some.inj (hk.symm.trans hk')
    exact List.inj_on_of_nodup_map hnd hn hm (hkey.symm.trans hkey')

theorem selectKinds_of_nodup {all : List Kind} (hall : (all.map Kind.key).Nodup) {names : List Str}
    {selected : List Kind} : selectKinds all names = .ok selected ↔
      names ≠ [] ∧ (∀ n ∈ names, ∃ k ∈ all, k.key = toAsciiLowercase n) ∧
        (names.map toAsciiLowercase).Nodup ∧
        selected = all.filter fun k => names.any fun n => decide (k.key = toAsciiLowercase n) := by
  have hknown : ∀ n, (∃ i, position all n = some i) ↔ ∃ k ∈ all, k.key = toAsciiLowercase n :=
    fun n => by
      simp only [position_eq_some_iff hall, List.mem_iff_getElem?]
      rw [exists_comm]
      simp only [exists_and_right]
  have hpick : ∀ is : List Nat, names.map (position all) = is.map some → is.Nodup →
      (is.mergeSort fun a b => decide (a ≤ b)).filterMap (all[·]?) =
        all.filter fun k => names.any fun n => decide (k.key = toAsciiLowercase n) := by
    intro is his hnd
    have hmem : ∀ i, i ∈ is ↔ ∃ n ∈ names, position all n = some i := fun i => by
      rw [← List.mem_map_of_injective (Option.some_injective _), ← his, List.mem_map]
    refine pick_sorted hnd (fun i hi => ?_) fun i k hk => ?_
    · obtain ⟨n, -, hn⟩ := (hmem i).mp hi
      obtain ⟨k, hk, -⟩ := (position_eq_some_iff hall).mp hn
      exact (List.getElem?_eq_some_iff.mp hk).1
    · rw [hmem, List.any_eq_true]
      refine exists_congr fun n => and_congr_right fun _ => ?_
      rw [position_eq_some_iff hall, hk, decide_eq_true_iff]
      simp
  have hplaces : ∀ is, names.mapM (placed all) = .ok is → names.map (position all) = is.map some :=
    fun is his => (map_of_mapM_ok (fun n _ i hi => (placed_ok_iff.mp hi).symm) his).symm
  unfold selectKinds
  by_cases hne : names = []
  · simp [hne]
  rw [if_neg hne]
  constructor
  · intro h
    cases hidx : collect (placed all) id (fun n _ => .namedTwice n) [] names with
    | error e => simp [hidx, Except.map] at h
    | ok out =>
      rw [hidx] at h
      cases h
      obtain ⟨his, hnd⟩ := (collect_nil_ok_iff _ _ _).mp hidx
      rw [List.map_id] at hnd
      refine ⟨hne, fun n hn => (hknown n).mp ?_, (nodup_places_iff hall (hplaces _ his)).mp hnd,
        hpick _ (hplaces _ his) hnd⟩
      obtain ⟨i, hi⟩ := mapM_ok_iff.mp ⟨_, his⟩ n hn
      exact ⟨i, placed_ok_iff.mp hi⟩
  · intro h
    obtain ⟨-, hall', hnd, hsel⟩ := h
    obtain ⟨is, his⟩ := mapM_ok_iff (f := placed all).mpr fun n hn => by
      obtain ⟨i, hi⟩ := (hknown n).mpr (hall' n hn)
      exact ⟨i, placed_ok_iff.mpr hi⟩
    have hnd' := (nodup_places_iff hall (hplaces is his)).mpr hnd
    have hloop := (collect_nil_ok_iff (placed all) id (fun n _ => Refusal.namedTwice n)).mpr
      ⟨his, by rwa [List.map_id]⟩
    rw [hloop, hsel]
    exact congrArg Except.ok (hpick is (hplaces is his) hnd')

theorem kinds_key_nodup (l : Limits) : ((kinds l).map Kind.key).Nodup := by
  show [toAsciiLowercase "Block".toList, toAsciiLowercase "Register".toList,
    toAsciiLowercase "Set".toList, toAsciiLowercase "Bag".toList].Nodup
  decide

/-- **The kinds of a run**: the table less the rows no name is for, whatever the order and the
case of the names. A name for no row is refused, and so is a second name for one. -/
theorem selectKinds_ok_iff (l : Limits) {names : List Str} {selected : List Kind} :
    selectKinds (kinds l) names = .ok selected ↔
      names ≠ [] ∧ (∀ n ∈ names, ∃ k ∈ kinds l, k.key = toAsciiLowercase n) ∧
        (names.map toAsciiLowercase).Nodup ∧
        selected = (kinds l).filter fun k => names.any fun n => decide (k.key = toAsciiLowercase n) :=
  selectKinds_of_nodup (kinds_key_nodup l)

/-! ## The build of every kind -/

/-- What the outside makes of paths. -/
structure Paths where
  parent : Str → Option Str
  join : Str → Str → Str

variable (o : Outside) (p : Paths)

/-- The directory the Block's artefact is in, where the others are looked for. -/
def Paths.dir (blockWasm : Str) : Str := (p.parent blockWasm).getD ".".toList

def Paths.wasm (blockWasm : Str) (k : Kind) : Str := p.join (p.dir blockWasm) k.wasm.toList

/-- One `--expect-sha`: a kind, and the hash behind the first `=`. -/
def entry (e : Str) : Except Refusal (Str × Str) :=
  match splitOnce '=' e with
  | none => .error (.notPair e)
  | some pair => .ok pair

/-- What `--expect-sha` says, by kind. -/
def expectations (expect : List Str) : Except Refusal (List (Str × Str)) :=
  (collect entry (fun pair => toAsciiLowercase pair.1) (fun _ pair => .shaTwice pair.1) [] expect).map
    fun pairs => pairs.map fun pair => (toAsciiLowercase pair.1, pair.2)

/-- A kind and the hash it is matched to. -/
def matched (want : List (Str × Str)) (k : Kind) : Except Refusal (Kind × Str) :=
  match firstFor want k.key with
  | none => .error (.noEntry k)
  | some sha => .ok (k, sha)

/-- The artefacts of a plan, one after the other. -/
def loadAll (blockWasm : Str) : List (Kind × Str) → Program (List Str) Refusal (List (String × Bytes))
  | [] => return []
  | (k, sha) :: plan => do
    let bytes ← mapError .artefact (load o (p.wasm blockWasm k) sha)
    let codes ← loadAll blockWasm plan
    return (k.name, bytes) :: codes

/-- Every kind is matched to its hash before anything is read. -/
def loadCodes (selected : List Kind) (blockWasm : Str) (expect : List Str) :
    Program (List Str) Refusal (List (String × Bytes)) := do
  let want ← attempt (expectations expect)
  let plan ← attempt (selected.mapM (matched want))
  loadAll o p blockWasm plan

/-- Every entry is a kind and a hash, and no kind is named twice. -/
structure Entries (expect : List Str) (pairs : List (Str × Str)) : Prop where
  read : expect.map (splitOnce '=') = pairs.map some
  nodup : (pairs.map fun pair => toAsciiLowercase pair.1).Nodup

/-- The hash the flags give a kind. -/
def Told (pairs : List (Str × Str)) (k : Kind) (sha : Str) : Prop :=
  ∃ name, (name, sha) ∈ pairs ∧ toAsciiLowercase name = k.key

theorem expectations_ok_iff {expect : List Str} {want : List (Str × Str)} :
    expectations expect = .ok want ↔ ∃ pairs, Entries expect pairs ∧
      want = pairs.map fun pair => (toAsciiLowercase pair.1, pair.2) := by
  have hentry : ∀ e pair, entry e = .ok pair ↔ splitOnce '=' e = some pair := fun e pair => by
    unfold entry
    cases splitOnce '=' e <;> simp
  have hread : ∀ pairs, expect.mapM entry = .ok pairs ↔ expect.map (splitOnce '=') = pairs.map some := by
    intro pairs
    constructor
    · intro h
      exact (map_of_mapM_ok (fun e _ pair hp => ((hentry e pair).mp hp).symm) h).symm
    · intro h
      have hall : ∀ e ∈ expect, ∃ pair, entry e = .ok pair := fun e he => by
        have hmem : splitOnce '=' e ∈ pairs.map some := h ▸ List.mem_map_of_mem he
        obtain ⟨pair, -, hp⟩ := List.mem_map.mp hmem
        exact ⟨pair, (hentry e pair).mpr hp.symm⟩
      obtain ⟨pairs', h'⟩ := mapM_ok_iff.mpr hall
      have hsame := map_of_mapM_ok (fun e _ pair hp => ((hentry e pair).mp hp).symm) h'
      rw [h', List.map_injective_iff.mpr (Option.some_injective _) (hsame.trans h)]
  unfold expectations
  constructor
  · intro h
    cases hc : collect entry (fun pair => toAsciiLowercase pair.1) (fun _ pair => .shaTwice pair.1)
        [] expect with
    | error e => simp [hc, Except.map] at h
    | ok pairs =>
      rw [hc] at h
      cases h
      obtain ⟨hpairs, hnd⟩ := (collect_nil_ok_iff _ _ _).mp hc
      exact ⟨pairs, ⟨(hread pairs).mp hpairs, hnd⟩, rfl⟩
  · intro h
    obtain ⟨pairs, hpairs, hwant⟩ := h
    rw [(collect_nil_ok_iff _ _ _).mpr ⟨(hread pairs).mpr hpairs.read, hpairs.nodup⟩, hwant]
    rfl

/-- A kind beside the hash the flags give it. -/
def Matches (pairs : List (Str × Str)) (k : Kind) (x : Kind × Str) : Prop :=
  x.1 = k ∧ Told pairs k x.2

theorem matched_ok_iff {pairs : List (Str × Str)}
    (h : (pairs.map fun pair => toAsciiLowercase pair.1).Nodup) {k : Kind} {x : Kind × Str} :
    matched (pairs.map fun pair => (toAsciiLowercase pair.1, pair.2)) k = .ok x ↔
      Matches pairs k x := by
  have hkeys : ((pairs.map fun pair => (toAsciiLowercase pair.1, pair.2)).map Prod.fst).Nodup := by
    rw [List.map_map]
    exact h
  have htold : ∀ sha, firstFor (pairs.map fun pair => (toAsciiLowercase pair.1, pair.2)) k.key =
      some sha ↔ Told pairs k sha := fun sha => by
    rw [firstFor_eq_some_iff hkeys, List.mem_map]
    constructor
    · intro ⟨pair, hmem, heq⟩
      obtain ⟨hname, rfl⟩ := Prod.mk.inj heq
      exact ⟨pair.1, hmem, hname⟩
    · intro ⟨name, hmem, hname⟩
      exact ⟨_, hmem, Prod.ext hname rfl⟩
  unfold matched
  cases hf : firstFor (pairs.map fun pair => (toAsciiLowercase pair.1, pair.2)) k.key with
  | none =>
    constructor
    · intro h
      cases h
    · intro ⟨_, hx⟩
      rw [(htold _).mpr hx] at hf
      cases hf
  | some sha =>
    rw [Except.ok.injEq]
    constructor
    · intro hx
      exact hx ▸ ⟨rfl, (htold sha).mp hf⟩
    · intro ⟨hk, hx⟩
      rw [(htold _).mpr hx, Option.some.injEq] at hf
      exact Prod.ext hk.symm hf.symm

/-- A build beside the kind and the hash it passed for. -/
def Loads (blockWasm : Str) (x : Kind × Str) (c : String × Bytes) : Prop :=
  c.1 = x.1.name ∧ Passes o (p.wasm blockWasm x.1) x.2 c.2

/-- A plan is carried out up to the first artefact that does not pass. -/
theorem loadAll_ok_iff {blockWasm : Str} {plan : List (Kind × Str)} {opened opened' : List Str}
    {codes : List (String × Bytes)} :
    exec (loadAll o p blockWasm plan) opened = (.ok codes, opened') ↔
      List.Forall₂ (Loads o p blockWasm) plan codes ∧
        opened' = opened ++ plan.map fun x => p.wasm blockWasm x.1 := by
  induction plan generalizing opened opened' codes with
  | nil =>
    rw [loadAll, exec_pure, List.forall₂_nil_left_iff]
    simp [eq_comm]
  | cons x plan ih =>
    obtain ⟨k, sha⟩ := x
    rw [loadAll, exec_bind_ok, List.forall₂_cons_left_iff]
    simp only [exec_mapError_ok, Artefact.load_ok_iff, exec_bind_ok, ih, exec_pure, Prod.mk.injEq,
      Except.ok.injEq]
    constructor
    · rintro ⟨bytes, _, ⟨hpass, rfl⟩, rest, _, ⟨hrest, rfl⟩, rfl, rfl⟩
      exact ⟨⟨_, rest, ⟨rfl, hpass⟩, hrest, rfl⟩, by simp⟩
    · rintro ⟨⟨c, rest, ⟨hname, hpass⟩, hrest, rfl⟩, rfl⟩
      exact ⟨c.2, _, ⟨hpass, rfl⟩, rest, _, ⟨hrest, rfl⟩, by rw [← hname], by simp⟩

/-- The artefact of a kind passes for this hash. -/
def Fits (blockWasm : Str) (x : Kind × Str) : Prop :=
  ∃ bytes, Passes o (p.wasm blockWasm x.1) x.2 bytes

/-- The gate takes this hash, and so opens the artefact of its kind. -/
def taken (blockWasm : Str) (x : Kind × Str) : Bool :=
  (judge (p.wasm blockWasm x.1) (wanted o x.2)).isOk

/-- What a plan opens: the artefacts that pass, up to the first that does not; and that one,
where its hash is taken. -/
theorem loadAll_opened (blockWasm : Str) (plan : List (Kind × Str)) (opened : List Str) :
    ∃ passed rest, plan = passed ++ rest ∧ (∀ x ∈ passed, Fits o p blockWasm x) ∧
      (∀ x ∈ rest.head?, ¬ Fits o p blockWasm x) ∧
      (exec (loadAll o p blockWasm plan) opened).2 = opened ++
        (passed ++ (rest.take 1).filter (taken o p blockWasm)).map fun x =>
          p.wasm blockWasm x.1 := by
  induction plan generalizing opened with
  | nil => exact ⟨[], [], rfl, by simp, by simp, by simp [loadAll, exec_pure]⟩
  | cons x plan ih =>
    have hstate := Artefact.load_opened o (p.wasm blockWasm x.1) x.2 opened
    rw [loadAll, exec_bind, exec_mapError]
    rcases hl : exec (load o (p.wasm blockWasm x.1) x.2) opened with ⟨e | bytes, s⟩
    · refine ⟨[], x :: plan, rfl, by simp, ?_, ?_⟩
      · rintro y hy ⟨bytes, hb⟩
        obtain rfl := Option.some.inj hy
        rw [(Artefact.load_ok_iff o).mpr ⟨hb, rfl⟩] at hl
        cases hl
      · rw [hl] at hstate
        dsimp only [Except.mapError] at hstate ⊢
        rw [hstate]
        cases ht : (judge (p.wasm blockWasm x.1) (wanted o x.2)).isOk <;> simp [taken, ht]
    · obtain ⟨hpass, rfl⟩ := (Artefact.load_ok_iff o).mp hl
      obtain ⟨passed, rest, rfl, hall, hrest, hopen⟩ := ih (opened ++ [p.wasm blockWasm x.1])
      refine ⟨x :: passed, rest, rfl, List.forall_mem_cons.mpr ⟨⟨bytes, hpass⟩, hall⟩, hrest, ?_⟩
      have hstate : (exec (loadAll o p blockWasm (passed ++ rest))
          (opened ++ [p.wasm blockWasm x.1])).2 = _ := hopen
      simp only [Except.mapError, exec_bind]
      rcases hrun : exec (loadAll o p blockWasm (passed ++ rest))
        (opened ++ [p.wasm blockWasm x.1]) with ⟨e | c, s⟩ <;>
        rw [hrun] at hstate <;> exact hstate.trans (by simp)

section Plan

variable {selected : List Kind} {pairs : List (Str × Str)} {plan : List (Kind × Str)}

theorem plan_iff (h : (pairs.map fun pair => toAsciiLowercase pair.1).Nodup) :
    selected.mapM (matched (pairs.map fun pair => (toAsciiLowercase pair.1, pair.2))) = .ok plan ↔
      List.Forall₂ (Matches pairs) selected plan := by
  rw [mapM_eq_ok_iff]
  exact ⟨fun hs => hs.imp fun _ _ hx => (matched_ok_iff h).mp hx,
    fun hs => hs.imp fun _ _ hx => (matched_ok_iff h).mpr hx⟩

theorem plan_paths (blockWasm : Str) (h : List.Forall₂ (Matches pairs) selected plan) :
    (plan.map fun x => p.wasm blockWasm x.1) = selected.map (p.wasm blockWasm) := by
  induction h with
  | nil => rfl
  | cons hx _ ih => rw [List.map_cons, List.map_cons, hx.1, ih]

theorem exists_plan_iff {blockWasm : Str} {codes : List (String × Bytes)} :
    (∃ plan, List.Forall₂ (Matches pairs) selected plan ∧
      List.Forall₂ (Loads o p blockWasm) plan codes) ↔
      List.Forall₂ (fun k c => c.1 = k.name ∧ ∃ sha, Told pairs k sha ∧
        Passes o (p.wasm blockWasm k) sha c.2) selected codes := by
  rw [exists_forall₂_iff]
  constructor
  · refine fun h => h.imp fun k c => ?_
    rintro ⟨x, ⟨rfl, htold⟩, hname, hpass⟩
    exact ⟨hname, x.2, htold, hpass⟩
  · refine fun h => h.imp fun k c => ?_
    intro ⟨hname, sha, htold, hpass⟩
    exact ⟨(k, sha), ⟨rfl, htold⟩, hname, hpass⟩

end Plan

/-- **The builds of a run.** It goes on exactly where the flags can be read and give every kind
it measures a hash that its artefact passes for. -/
theorem loadCodes_ok_iff {selected : List Kind} {blockWasm : Str} {expect : List Str}
    {opened opened' : List Str} {codes : List (String × Bytes)} :
    exec (loadCodes o p selected blockWasm expect) opened = (.ok codes, opened') ↔
      ∃ pairs, Entries expect pairs ∧
        List.Forall₂ (fun k c => c.1 = k.name ∧ ∃ sha, Told pairs k sha ∧
          Passes o (p.wasm blockWasm k) sha c.2) selected codes ∧
        opened' = opened ++ selected.map (p.wasm blockWasm) := by
  unfold loadCodes
  simp only [exec_bind_ok, exec_attempt, Prod.mk.injEq, loadAll_ok_iff]
  constructor
  · rintro ⟨want, _, ⟨hwant, rfl⟩, plan, _, ⟨hmatch, rfl⟩, hload, rfl⟩
    obtain ⟨pairs, hpairs, rfl⟩ := expectations_ok_iff.mp hwant
    have htold := (plan_iff hpairs.nodup).mp hmatch
    exact ⟨pairs, hpairs, (exists_plan_iff o p).mp ⟨plan, htold, hload⟩,
      by rw [plan_paths p blockWasm htold]⟩
  · rintro ⟨pairs, hpairs, hcodes, rfl⟩
    obtain ⟨plan, htold, hload⟩ := (exists_plan_iff o p).mpr hcodes
    exact ⟨_, _, ⟨expectations_ok_iff.mpr ⟨pairs, hpairs, rfl⟩, rfl⟩, plan, _,
      ⟨(plan_iff hpairs.nodup).mpr htold, rfl⟩, hload, by rw [plan_paths p blockWasm htold]⟩

/-- **What a run opens.** Nothing, while a flag cannot be read or a kind has no hash; else the
artefacts of its kinds, in order, that pass for their hashes, up to the first that does not; and
that one too, where its hash is one that the gate takes. -/
theorem loadCodes_opened (selected : List Kind) (blockWasm : Str) (expect : List Str)
    (opened : List Str) :
    ((¬ ∃ pairs, Entries expect pairs ∧ ∀ k ∈ selected, ∃ sha, Told pairs k sha) →
      (exec (loadCodes o p selected blockWasm expect) opened).2 = opened) ∧
    ∀ pairs plan, Entries expect pairs → List.Forall₂ (Matches pairs) selected plan →
      ∃ passed rest, plan = passed ++ rest ∧ (∀ x ∈ passed, Fits o p blockWasm x) ∧
        (∀ x ∈ rest.head?, ¬ Fits o p blockWasm x) ∧
        (exec (loadCodes o p selected blockWasm expect) opened).2 = opened ++
          (passed ++ (rest.take 1).filter (taken o p blockWasm)).map fun x =>
            p.wasm blockWasm x.1 := by
  unfold loadCodes
  rw [exec_bind, exec_attempt]
  constructor
  · intro hnone
    cases hwant : expectations expect with
    | error e => rfl
    | ok want =>
      obtain ⟨pairs, hpairs, rfl⟩ := expectations_ok_iff.mp hwant
      dsimp only
      rw [exec_bind, exec_attempt]
      cases hmatch : selected.mapM
          (matched (pairs.map fun pair => (toAsciiLowercase pair.1, pair.2))) with
      | error e => rfl
      | ok plan =>
        refine absurd ⟨pairs, hpairs, fun k hk => ?_⟩ hnone
        obtain ⟨x, hx⟩ := mapM_ok_iff.mp ⟨plan, hmatch⟩ k hk
        exact ⟨x.2, ((matched_ok_iff hpairs.nodup).mp hx).2⟩
  · intro pairs plan hpairs hplan
    rw [expectations_ok_iff.mpr ⟨pairs, hpairs, rfl⟩]
    dsimp only
    rw [exec_bind, exec_attempt, (plan_iff hpairs.nodup).mpr hplan]
    exact loadAll_opened o p blockWasm plan opened

end FreenetHarness.Latency
