import FreenetHarness.Parallel
import FreenetHarness.Parity.Reput
import FreenetHarness.Parity.Score

/-! # REPUT: the acknowledgements of the second batch

The blocks that could not be fetched are put again, and their outcomes collected by key
until there are as many keys as blocks. `outcomes_iff` says when those outcomes are what
the responses said first, and when the loop may stop on a count. -/
namespace FreenetHarness.Parity
open FreenetHarness.Lib.Inbox FreenetHarness.Lib.Number FreenetHarness.Lib.Table
  FreenetHarness.Lib.Text FreenetHarness.Mint FreenetHarness.Stats
open FreenetHarness.Latency (Message seconds)
open FreenetHarness.Parallel (ackOf)

/-- A message of the node, and when it was received. -/
abbrev Received := Lib.Inbox.Arrival (Message Str)

/-- What the role meets: the clock as its batch starts, how each send settles, the clock
as the bounds are set and as it looks at the connection first, the messages, and the
clock as each line is written. -/
structure Reputs where
  ackSecs : Nat
  t0 : Nat
  sent : Nat → Except String Unit
  opened : Nat
  looked : Nat
  inbox : List Received
  written : Nat → BitVec 128

namespace Reputs
variable (q : Reputs)

def within : Nat := q.opened + seconds q.ackSecs

def grace : Nat := q.within + seconds q.ackSecs

/-- The outcome a response at `clock` stands for. -/
def verdict (clock : Nat) : Ack :=
  let ms := F64.fin (msSince q.t0 clock)
  if q.within < clock then .late ms else .within ms

/-- One message of the collecting loop: a response is taken under the key it names. -/
def collectStep (acks : HashMap Str Ack) (a : Received) : HashMap Str Ack :=
  match a.msg with
  | .response (.putResponse key) => acks.insert key (q.verdict a.clock)
  | .response _ => acks
  | .error _ _ => acks

/-- The loop stops: there are as many keys as re-puts. -/
def counted (n : Nat) (acks : HashMap Str Ack) : Bool := decide (n ≤ acks.keys.length)

def collect (n : Nat) : HashMap Str Ack :=
  gather (counted n) q.collectStep q.grace ∅ q.looked q.inbox

/-- What is written for the blocks of a batch. -/
def again (pending : List Block) : List Block :=
  let acks := q.collect pending.length
  pending.mapIdx fun i b =>
    { b with ack := (acks.lookup b.key).getD .never, tSend := q.written i }

/-- The batch is minted again and sent. -/
def resend (c : Crates) (code : Bytes) : Nat → List Block → Except Fault Unit
  | _, [] => .ok ()
  | i, b :: bs =>
    match remint c code b with
    | .error e => .error e
    | .ok _ => match q.sent i with
      | .error e => .error (.bail e)
      | .ok () => resend c code (i + 1) bs

end Reputs

/-- The keys that the far node could not fetch. -/
def stuck {T : Type} (reads : Reads T) (blocks : List Block) : List Block :=
  blocks.filter fun b => match reads b.key with
    | some none => true
    | _ => false

def reput {T : Type} (c : Crates) (code : Bytes) (q : Reputs) (reads : Reads T)
    (blocks : List Block) : Except Fault (List Block) :=
  let pending := stuck reads blocks
  if pending = [] then .ok []
  else (q.resend c code 0 pending).map fun () => q.again pending

/-- The role writes the outcomes of the blocks it put again. -/
theorem again_of_reput {T : Type} {c : Crates} {code : Bytes} {q : Reputs} {reads : Reads T}
    {blocks out : List Block} (h : reput c code q reads blocks = .ok out) :
    out = q.again (stuck reads blocks) := by
  unfold reput at h
  dsimp only at h
  split at h
  · rename_i hnil
    cases h
    rw [hnil]
    rfl
  · cases hs : q.resend c code 0 (stuck reads blocks) with
    | error e => rw [hs] at h; cases h
    | ok u => rw [hs] at h; cases h; rfl

/-! ## What the loop read -/

namespace Reputs
variable (q : Reputs)

/-- The responses among some messages: the key of each and the outcome it stands for. -/
def named (p : List Received) : List (Str × Ack) :=
  p.filterMap fun a => (ackOf a).map fun key => (key, q.verdict a.clock)

/-- The different keys of the responses among some messages. -/
def keysOf (p : List Received) : Finset Str := (p.filterMap ackOf).toFinset

def readable : List Received := Lib.Inbox.readable q.grace q.looked q.inbox

/-- The messages up to the one that names the `n`-th different key. -/
def heard (n : Nat) : List Received :=
  upTo (fun p => decide (n ≤ (keysOf p).card)) q.readable

theorem foldl_collectStep (t : HashMap Str Ack) (p : List Received) :
    p.foldl q.collectStep t = fill t (q.named p) := by
  induction p generalizing t with
  | nil => rfl
  | cons a p ih =>
    rw [List.foldl_cons, ih]
    cases hm : a.msg with
    | error e cause => simp [collectStep, named, ackOf, hm]
    | response r =>
      cases r with
      | putResponse key =>
        simp [collectStep, named, ackOf, hm, Latency.putKey, fill_cons]
      | getResponse key state => simp [collectStep, named, ackOf, hm, Latency.putKey]
      | other => simp [collectStep, named, ackOf, hm, Latency.putKey]

theorem map_fst_named (p : List Received) :
    (q.named p).map Prod.fst = p.filterMap ackOf := by
  rw [named, List.map_filterMap]
  refine List.filterMap_congr fun a _ => ?_
  cases ackOf a <;> rfl

theorem length_keys (p : List Received) :
    (fill ∅ (q.named p)).keys.length = (keysOf p).card := by
  rw [size_eq, keys_fill, map_fst_named, keysOf]
  simp

theorem mem_keys {p : List Received} {key : Str} :
    key ∈ fill ∅ (q.named p) ↔ key ∈ keysOf p := by
  rw [mem_fill, map_fst_named, keysOf, List.mem_toFinset]

/-- **What the loop has** is what the messages it read say, the last one for a key. -/
theorem collect_eq (n : Nat) : q.collect n = fill ∅ (q.named (q.heard n)) := by
  have hheard : q.heard n = upTo (fun p => counted n (p.foldl q.collectStep ∅)) q.readable := by
    refine upTo_congr fun p _ => ?_
    rw [counted, foldl_collectStep, length_keys]
  rw [collect, gather_eq, foldl_collectStep, hheard, readable]

theorem mem_collect {n : Nat} {key : Str} : key ∈ q.collect n ↔ key ∈ keysOf (q.heard n) := by
  rw [collect_eq, mem_keys]

theorem lookup_collect (n : Nat) (key : Str) :
    (q.collect n).lookup key = lastFor (q.named (q.heard n)) key := by
  rw [collect_eq, lookup_fill, AList.lookup_empty, Option.or_none]

theorem keysOf_concat (p : List Received) (a : Received) :
    (keysOf (p ++ [a])).card ≤ (keysOf p).card + 1 := by
  rw [keysOf, List.filterMap_append, List.toFinset_append]
  refine (Finset.card_union_le _ _).trans (Nat.add_le_add_left ?_ _)
  cases ha : ackOf a <;> simp [ha]

/-- The loop counts no further than it has to. -/
theorem card_heard_le (n : Nat) : (keysOf (q.heard n)).card ≤ n := by
  rcases List.eq_nil_or_concat (q.heard n) with hnil | ⟨p, a, hp⟩
  · rw [hnil]
    exact Nat.zero_le n
  · rw [List.concat_eq_append] at hp
    have hpre : p <+: q.heard n := hp ▸ List.prefix_append p [a]
    have hne : p ≠ q.heard n := by simp [hp]
    have hlt : (keysOf p).card < n := by simpa using not_done_of_upTo hpre hne
    rw [hp]
    exact (keysOf_concat p a).trans hlt

end Reputs

/-! ## The outcomes -/

/-- The keys of the blocks of a batch. -/
def ownKeys (pending : List Block) : Finset Str := (pending.map (·.key)).toFinset

/-- The outcome of every block is that of the first response that names its key; and where
the loop stops on its count, every block is acknowledged. -/
structure Settled (q : Reputs) (pending : List Block) : Prop where
  outcome : (q.again pending).map (·.ack) =
    pending.map fun b => (firstFor (q.named q.readable) b.key).getD .never
  early : pending.length ≤ (q.collect pending.length).keys.length →
    ∀ b ∈ pending, b.key ∈ q.collect pending.length

theorem again_acks (q : Reputs) (pending : List Block) :
    (q.again pending).map (·.ack) = pending.map fun b =>
      (lastFor (q.named (q.heard pending.length)) b.key).getD .never := by
  refine List.ext_getElem (by simp [Reputs.again]) fun i _ _ => ?_
  simp [Reputs.again, Reputs.lookup_collect]

/-- **When a count may stand for the keys**: the foreign keys it takes in are no more than
the keys the batch has twice. -/
theorem early_iff (q : Reputs) (pending : List Block) :
    (pending.length ≤ (q.collect pending.length).keys.length →
      ∀ b ∈ pending, b.key ∈ q.collect pending.length) ↔
    (pending.length ≤ (Reputs.keysOf (q.heard pending.length)).card →
      (Reputs.keysOf (q.heard pending.length) \ ownKeys pending).card + (ownKeys pending).card ≤
        pending.length) := by
  have hle := q.card_heard_le pending.length
  have hsub : (∀ b ∈ pending, b.key ∈ q.collect pending.length) ↔
      ownKeys pending ⊆ Reputs.keysOf (q.heard pending.length) := by
    simp only [Reputs.mem_collect, ownKeys, Finset.subset_iff, List.mem_toFinset, List.mem_map]
    constructor
    · rintro h key ⟨b, hb, rfl⟩
      exact h b hb
    · exact fun h b hb => h ⟨b, hb, rfl⟩
  rw [hsub, Reputs.collect_eq, Reputs.length_keys]
  refine forall_congr' fun hfull => ?_
  rw [Finset.card_sdiff_add_card]
  constructor
  · intro h
    rw [Finset.union_eq_left.mpr h]
    exact hle
  · intro h
    have hunion := Finset.eq_of_subset_of_card_le Finset.subset_union_left (h.trans hfull)
    rw [hunion]
    exact Finset.subset_union_right

/-- A first response that was read is the first there is, unless the loop stopped short. -/
theorem lookup_heard (q : Reputs) {pending : List Block}
    (h : pending.length ≤ (q.collect pending.length).keys.length →
      ∀ b ∈ pending, b.key ∈ q.collect pending.length) {b : Block} (hb : b ∈ pending) :
    firstFor (q.named (q.heard pending.length)) b.key = firstFor (q.named q.readable) b.key := by
  rcases upTo_done (fun p => decide (pending.length ≤ (Reputs.keysOf p).card)) q.readable with
    hdone | hall
  · have hfull : pending.length ≤ (q.collect pending.length).keys.length := by
      rw [Reputs.collect_eq, Reputs.length_keys]
      exact of_decide_eq_true hdone
    have hmem := h hfull b hb
    rw [Reputs.collect_eq, mem_fill] at hmem
    obtain ⟨first, hfirst⟩ := Option.ne_none_iff_exists'.mp
      fun hnone => firstFor_eq_none.mp hnone hmem
    obtain ⟨rest, hrest⟩ := upTo_prefix
      (fun p => decide (pending.length ≤ (Reputs.keysOf p).card)) q.readable
    have hnamed : q.named q.readable = q.named (q.heard pending.length) ++ q.named rest := by
      rw [← hrest]
      exact List.filterMap_append
    rw [hnamed, firstFor_append, hfirst]
    rfl
  · rw [Reputs.heard, hall]

/-- **The outcomes of a batch** are what the responses said first where no key of the
batch is named again with another outcome while the loop still reads, and the loop stops
short of the deadline on the batch's own keys. -/
theorem outcomes_iff (q : Reputs) (pending : List Block) :
    Settled q pending ↔
      (∀ b ∈ pending, ∀ first last,
        firstFor (q.named (q.heard pending.length)) b.key = some first →
        lastFor (q.named (q.heard pending.length)) b.key = some last → last = first) ∧
      (pending.length ≤ (Reputs.keysOf (q.heard pending.length)).card →
        (Reputs.keysOf (q.heard pending.length) \ ownKeys pending).card +
          (ownKeys pending).card ≤ pending.length) := by
  rw [← early_iff]
  constructor
  · intro ⟨hout, hearly⟩
    refine ⟨fun b hb first last hfirst hlast => ?_, hearly⟩
    rw [again_acks] at hout
    have heq := List.map_inj_left.mp hout b hb
    rwa [← lookup_heard q hearly hb, hfirst, hlast] at heq
  · intro ⟨hsame, hearly⟩
    refine ⟨?_, hearly⟩
    rw [again_acks]
    apply List.map_congr_left
    intro b hb
    rw [← lookup_heard q hearly hb]
    cases hfirst : firstFor (q.named (q.heard pending.length)) b.key with
    | none => rw [lastFor_eq_none.mpr hfirst]
    | some first =>
      have hne : lastFor (q.named (q.heard pending.length)) b.key ≠ none := by
        rw [Ne, lastFor_eq_none, hfirst]
        simp
      obtain ⟨last, hlast⟩ := Option.ne_none_iff_exists'.mp hne
      rw [hlast, hsame b hb first last hfirst hlast]

/-- A response that names `key`, at `ms` milliseconds. -/
def response (key : Str) (ms : Nat) : Received :=
  ⟨.response (.putResponse key), ms * 1000000, ms * 1000000⟩

def reputsOf (inbox : List Received) : Reputs where
  ackSecs := 1
  t0 := 0
  sent _ := .ok ()
  opened := 0
  looked := 0
  inbox := inbox
  written _ := 0

/-- A response for another key ends the wait for the only block; and a block acknowledged
in time, and once more after it, is written as late. -/
theorem foreign_and_repeated :
    ¬ Settled (reputsOf [response "j".toList 1]) (groupOf 1 1) ∧
      ¬ Settled (reputsOf [response "k0".toList 500, response "k0".toList 1500,
        response "k1".toList 1600]) (groupOf 1 2) := by
  constructor
  · intro h
    exact absurd (h.early (by decide +kernel)) (by decide +kernel)
  · intro h
    exact absurd h.outcome (by decide +kernel)

end FreenetHarness.Parity
