import FreenetHarness.Lib.Inbox
import FreenetHarness.Lib.Run
import FreenetHarness.Pack
import FreenetHarness.Parity.Format
import FreenetHarness.RoundTrip.Node

/-! # `pack`: what a node keeps

Every case is a Block of its own, put and read back. `pack_kept`: whatever else is queued on
the connection, no case answers for another. `pack_passes_iff`: while answers come in time or
never, a run passes exactly where the node's code agrees with the linked crate on every case. -/
namespace FreenetHarness.Pack
open FreenetHarness.Lib.Inbox FreenetHarness.Lib.Programs FreenetHarness.Lib.Run
open FreenetHarness.RoundTrip (stepWait text verdict println on Session)

abbrev Bytes := List UInt8

/-- What the run takes from the block crate and from the tree library. -/
structure Crates (Id Key Builder : Type) where
  raw : UInt8
  treeNode : UInt8
  pack : UInt8
  parity : UInt8
  mediaChunk : UInt8
  fragment : UInt8
  schema : UInt8
  magic : Bytes
  encode : UInt8 → Bytes → Bytes
  maxParity : Nat
  salted : 8 ≤ maxParity
  blockId : UInt8 → Bytes → Id
  build : List Member → Except String Bytes
  check : Bytes → Bytes → Bool
  blake3 : Bytes → Bytes
  /-- The key of the block's code at these params. -/
  key : Bytes → Key
  newLeaf : Builder
  push : Builder → Bytes → Bytes → Except String Builder
  finish : Builder → Except String Bytes

variable {Id Key Builder : Type} [LinearOrder Id] (k : Crates Id Key Builder)

/-! ## The cases -/

/-- One thing offered to the node, and whether it must be kept. -/
structure Case where
  name : String
  state : Bytes
  keep : Bool

/-- A RAW member whose bytes are this run's alone. -/
def rawMember (salt : Bytes) (tag : String) : Member := (k.raw, text tag ++ salt)

/-- A leaf of the tree library, of two entries that share a prefix. -/
def leaf (salt : Bytes) : Except String Bytes := do
  let hex := String.ofList (Parity.hexify salt)
  let b ← [("a", "one"), ("b", "two")].foldlM (fun b x =>
    (k.push b (text s!"k/{x.1}{hex}") (text x.2)).mapError ("building the fixture leaf: " ++ ·)) k.newLeaf
  (k.finish b).mapError ("finishing the fixture leaf: " ++ ·)

/-- The same node with one interior byte flipped. -/
def corrupted (node : Bytes) : Bytes := node.modify (node.length / 2) (· ^^^ 0xff)

def packedCase (name : String) (members : List Member) (keep : Bool) : Case :=
  ⟨name, packed k.blockId k.encode k.pack k.magic members, keep⟩

def blockCase (name : String) (kind : UInt8) (body : Bytes) (keep : Bool) : Case :=
  ⟨name, k.encode kind body, keep⟩

/-- A kind whose format has not landed, as a member and as its own Block. -/
def unlanded (salt : Bytes) (x : String × UInt8) : List Case :=
  let body := text x.1 ++ salt
  [packedCase k s!"an un-landed kind as a member: {x.1}" [rawMember k salt "one", (x.2, body)] false,
    blockCase k s!"  CONTROL — {x.1} as its own Block, still refused" x.2 body false]

def cases (salt node : Bytes) : List Case :=
  let bad := corrupted node
  let one := rawMember k salt "one"
  let two := rawMember k salt "two"
  let parityBody := text "parity" ++ salt
  [packedCase k "a valid pack: two RAW members and a TREE_NODE" [one, two, (k.treeNode, node)] true,
    packedCase k "a member that is not a node: the SAME pack, one byte of the node flipped"
      [one, two, (k.treeNode, bad)] false,
    blockCase k "  CONTROL — those corrupted bytes as their OWN Block" k.treeNode bad false,
    blockCase k "  CONTROL — the same bytes uncorrupted, as their own Block" k.treeNode node true,
    packedCase k "a duplicate member: the same RAW block twice" [one, one] false,
    packedCase k "  CONTROL — two members, same shape, different bodies" [one, two] true,
    packedCase k "a pack inside a pack" [one, (k.pack, wire k.magic (ordered k.blockId [two]))] false,
    packedCase k "a PARITY member" [one, (k.parity, parityBody)] false,
    blockCase k "  CONTROL — that SAME parity body as its own Block (#29: length-only)" k.parity
      parityBody true] ++
  [("MEDIA_CHUNK", k.mediaChunk), ("FRAGMENT", k.fragment), ("SCHEMA", k.schema)].flatMap
    (unlanded k salt) ++
  [blockCase k s!"a PARITY body of exactly MAX_PARITY ({k.maxParity}) bytes" k.parity
      (salt ++ List.replicate (k.maxParity - 8) 0) true,
    blockCase k "a PARITY body one byte over MAX_PARITY" k.parity
      (salt ++ List.replicate (k.maxParity + 1 - 8) 0) false]

/-- The contract's own `check`, run in process. -/
def judge (c : Case) : Except String Unit :=
  let said := k.check (k.blake3 c.state) c.state
  if said = c.keep then return ()
  else throw (s!"fixture error: the linked contract says check()={said} for \"{c.name}\", " ++
    s!"but this run expects keep={c.keep}. Either the case is built wrong or the crate and " ++
    "build/block.wasm have diverged.")

/-- The cases, once every premise they depend on has been asserted. -/
def fixture (salt : Bytes) : Except String (List Case) := do
  let node ← leaf k salt
  if node = [] then throw "index out of bounds: the len is 0 but the index is 0"
  else if node = corrupted node then
    throw "the corrupted node equals the good one — the fixture cannot refuse anything"
  else do
    let pair := [rawMember k salt "one", rawMember k salt "two"]
    let built ← (k.build pair).mapError ("pack::build refused the control pair: " ++ ·)
    if built ≠ wire k.magic (ordered k.blockId pair) then
      throw "the hand encoder disagrees with pack::build — the negative cases mean nothing"
    else do
      (cases k salt node).forM (judge k)
      return cases k salt node

/-! ## The connection -/

/-- What a receive hands over. -/
inductive Response (Key : Type) where
  | putResponse
  | getResponse (key : Key) (state : Bytes)
  | other
  | error
  deriving DecidableEq

/-- What one offer meets: how its two sends settle, the clock as each of its waits begins, and
the messages that have come by then or come later. -/
structure Meets (Key : Type) where
  sent : Except String Unit
  start : Nat
  came : List (Arrival (Response Key))
  getSent : Except String Unit
  getStart : Nat
  getCame : List (Arrival (Response Key))

/-- What is unread, and how many offers have been made. -/
structure Conn (Key : Type) where
  inbox : List (Arrival (Response Key)) := []
  offers : Nat := 0

/-- How the node answered the put, and whether the bytes could then be read back. -/
structure Offer where
  put : String
  readable : Bool

/-- One receive. -/
def receive (deadline : Nat) : List (Arrival (Response Key)) → String × List (Arrival (Response Key))
  | [] => ("silence", [])
  | a :: rest =>
    if a.arrives ≤ deadline then
      (match a.msg with
        | .putResponse => "ack"
        | .error => "error"
        | _ => "other", rest)
    else ("silence", a :: rest)

variable [DecidableEq Key]

/-- The wait for a state ends at a state under this key, and at an error. -/
def ends (key : Key) : Response Key → Bool
  | .getResponse k _ => k = key
  | .error => true
  | _ => false

/-- Offer one state and report whether the node kept it. What comes depends on what is offered. -/
def offer (t : Nat → Bytes → Meets Key) (state : Bytes) : Program (Conn Key) String Offer := do
  let s ← get
  let m := t s.offers state
  attempt m.sent
  let first := receive (m.start + stepWait) (s.inbox ++ m.came)
  attempt m.getSent
  let r := scan (ends (k.key (k.blake3 state))) (m.getStart + stepWait) m.getStart
    (first.2 ++ m.getCame)
  modify fun s => { inbox := r.rest, offers := s.offers + 1 }
  return {
    put := first.1
    readable := match r.ended with
      | some ⟨.getResponse _ got, _, _⟩ => got == state
      | _ => false }

/-! ## The run -/

def fate (kept : Bool) : String := if kept then "kept" else "refused"

/-- The line about one case. -/
def line (i : Nat) (c : Case) (o : Offer) : String :=
  let pad := if i + 1 < 10 then " " else ""
  s!"{pad}{i + 1}. {c.name}: {verdict (o.readable == c.keep)}  " ++
    s!"(expected {fate c.keep}, node {fate o.readable} it; put answer: {o.put}; " ++
    s!"state {c.state.length} B)"

/-- Every case in turn, and how many failed. -/
def offers (t : Nat → Bytes → Meets Key) :
    Nat → Nat → List Case → Program (Session (Conn Key)) String Nat
  | _, failed, [] => return failed
  | i, failed, c :: cs => do
    let o ← on (offer k t c.state)
    println (line i c o)
    offers t (i + 1) (if o.readable == c.keep then failed else failed + 1) cs

def banner (salt : Bytes) (cs : List Case) : String :=
  s!"{cs.length} cases, salt {String.ofList (Parity.hexify salt)}  " ++
    "(every case is its own contract: a block's key IS the hash of its state)"

def run (load : Except String Unit) (salt : Bytes) (connected : Except String Unit)
    (t : Nat → Bytes → Meets Key) : Program (Session (Conn Key)) String Unit := do
  attempt load
  let cs ← attempt (fixture k salt)
  println (banner salt cs)
  attempt connected
  let failed ← offers k t 0 0 cs
  println ""
  if failed = 0 then println s!"pack acceptance: PASS ({cs.length} cases)"
  else throw s!"pack acceptance: FAIL ({failed} of {cs.length} cases)"

/-! ## Whatever is queued -/

section Honest

/-- A state that the node hands out is one that its code has accepted under those params. -/
def Honest (accepts : Bytes → Bytes → Bool) (inbox : List (Arrival (Response Key))) : Prop :=
  ∀ a ∈ inbox, ∀ key state, a.msg = .getResponse key state →
    ∃ params, key = k.key params ∧ accepts params state = true

variable {k} {accepts : Bytes → Bytes → Bool} {t : Nat → Bytes → Meets Key}

omit [LinearOrder Id] [DecidableEq Key] in
theorem Honest.append {inbox inbox' : List (Arrival (Response Key))} (h : Honest k accepts inbox)
    (h' : Honest k accepts inbox') : Honest k accepts (inbox ++ inbox') :=
  fun a ha => (List.mem_append.mp ha).elim (h a) (h' a)

omit [LinearOrder Id] [DecidableEq Key] in
theorem Honest.of_suffix {inbox inbox' : List (Arrival (Response Key))} (h : Honest k accepts inbox)
    (hs : inbox' <:+ inbox) : Honest k accepts inbox' := fun a ha => h a (hs.subset ha)

omit [DecidableEq Key] in
theorem receive_suffix (deadline : Nat) (inbox : List (Arrival (Response Key))) :
    (receive deadline inbox).2 <:+ inbox := by
  cases inbox with
  | nil => exact List.suffix_rfl
  | cons a rest => by_cases h : a.arrives ≤ deadline <;> simp [receive, h]

omit [DecidableEq Key] in
theorem scan_suffix (ends : Response Key → Bool) (deadline now : Nat)
    (inbox : List (Arrival (Response Key))) : (scan ends deadline now inbox).rest <:+ inbox :=
  ⟨_, scan_append ends deadline now inbox⟩

omit [DecidableEq Key] in
theorem mem_of_ended {ends : Response Key → Bool} {deadline now : Nat} {a : Arrival (Response Key)}
    {inbox : List (Arrival (Response Key))} (h : (scan ends deadline now inbox).ended = some a) :
    a ∈ inbox := by
  have hmem : a ∈ (scan ends deadline now inbox).passed ++
      (scan ends deadline now inbox).ended.toList ++ (scan ends deadline now inbox).rest := by
    rw [h]
    simp
  rwa [scan_append] at hmem

variable (hkey : Function.Injective k.key)
  (ht : ∀ i state, Honest k accepts (t i state).came ∧ Honest k accepts (t i state).getCame)

include hkey ht

omit [LinearOrder Id] in
/-- **One offer.** What is read back was accepted. -/
theorem offer_kept {state : Bytes} {o : Offer} {s s' : Conn Key}
    (h : exec (offer k t state) s = (.ok o, s')) (hs : Honest k accepts s.inbox) :
    Honest k accepts s'.inbox ∧ (o.readable = true → accepts (k.blake3 state) state = true) := by
  obtain ⟨_, _, h₀, h⟩ := exec_bind_ok.mp h
  cases h₀
  obtain ⟨_, _, h₁, h⟩ := exec_bind_ok.mp h
  obtain ⟨_, _, h₂, h⟩ := exec_bind_ok.mp h
  rw [exec_attempt, Prod.mk.injEq] at h₁ h₂
  obtain ⟨-, rfl⟩ := h₁
  obtain ⟨-, rfl⟩ := h₂
  cases h
  have hfirst := (hs.append (ht s.offers state).1).of_suffix (receive_suffix
    ((t s.offers state).start + stepWait) _)
  have hall := hfirst.append (ht s.offers state).2
  refine ⟨hall.of_suffix (scan_suffix ..), fun hread => ?_⟩
  dsimp only at hread
  split at hread
  · rename_i key got arrives clock hended
    obtain ⟨params, hparams, haccept⟩ := hall _ (mem_of_ended hended) key got rfl
    have hown : key = k.key (k.blake3 state) := of_decide_eq_true (of_scan_ended hended).1
    rw [hkey (hown.symm.trans hparams), ← eq_of_beq hread]
    exact haccept
  · cases hread

omit [LinearOrder Id] in
/-- **Every offer.** Where none has failed, what had to be kept was accepted. -/
theorem offers_kept {cs : List Case} {i failed n : Nat} {s s' : Session (Conn Key)}
    (h : exec (offers k t i failed cs) s = (.ok n, s')) (hs : Honest k accepts s.world.inbox) :
    failed ≤ n ∧ (n = failed → ∀ c ∈ cs, c.keep = true → accepts (k.blake3 c.state) c.state = true) := by
  induction cs generalizing i failed s with
  | nil =>
    cases h
    exact ⟨le_rfl, fun _ c hc => by cases hc⟩
  | cons c cs ih =>
    obtain ⟨o, s₁, ho, h⟩ := exec_bind_ok.mp h
    obtain ⟨_, s₂, hprint, h⟩ := exec_bind_ok.mp h
    rw [on, exec_focus, Prod.mk.injEq] at ho
    obtain ⟨ho, rfl⟩ := ho
    cases hprint
    obtain ⟨hs₁, hkept⟩ := offer_kept hkey ht (Prod.ext ho rfl) hs
    obtain ⟨hle, hrest⟩ := ih h hs₁
    by_cases hok : o.readable = c.keep
    · rw [if_pos (by rw [hok, beq_self_eq_true])] at hle hrest
      refine ⟨hle, fun hn => List.forall_mem_cons.mpr ⟨fun hkeep => hkept (hok.trans hkeep), hrest hn⟩⟩
    · rw [if_neg (by rwa [beq_iff_eq])] at hle hrest
      exact ⟨by omega, fun hn => by omega⟩

end Honest

section Passes

variable {k} {t : Nat → Bytes → Meets Key} {salt : Bytes} {load connected : Except String Unit}

omit [LinearOrder Id] [DecidableEq Key] in
theorem judge_ok_iff {c : Case} :
    judge k c = .ok () ↔ k.check (k.blake3 c.state) c.state = c.keep := by
  unfold judge
  dsimp only
  split
  · exact iff_of_true rfl ‹_›
  · refine iff_of_false (fun h => ?_) ‹_›
    cases h

omit [LinearOrder Id] [DecidableEq Key] in
theorem forM_judge {cs : List Case} (h : cs.forM (judge k) = .ok ()) :
    ∀ c ∈ cs, k.check (k.blake3 c.state) c.state = c.keep := by
  induction cs with
  | nil => exact fun c hc => by cases hc
  | cons c cs ih =>
    obtain ⟨_, hc, hcs⟩ := bind_eq_ok.mp h
    exact List.forall_mem_cons.mpr ⟨judge_ok_iff.mp hc, ih hcs⟩

omit [DecidableEq Key] in
/-- **The linked crate agrees with every case** that a run offers. -/
theorem fixture_check {cs : List Case} (h : fixture k salt = .ok cs) :
    ∀ c ∈ cs, k.check (k.blake3 c.state) c.state = c.keep := by
  unfold fixture at h
  obtain ⟨node, -, h⟩ := bind_eq_ok.mp h
  split at h
  · cases h
  · split at h
    · cases h
    · obtain ⟨built, -, h⟩ := bind_eq_ok.mp h
      split at h
      · cases h
      · obtain ⟨_, hjudged, h⟩ := bind_eq_ok.mp h
        cases h
        exact forM_judge hjudged

/-- A run passes where none of its cases fails. -/
theorem run_ok_iff :
    (exec (run k load salt connected t) { world := {} }).1 = .ok () ↔
      load = .ok () ∧ connected = .ok () ∧ ∃ cs, fixture k salt = .ok cs ∧
        ∃ s', exec (offers k t 0 0 cs) ⟨{}, [banner salt cs]⟩ = (.ok 0, s') := by
  constructor
  · intro h
    obtain ⟨s', g⟩ : ∃ s', exec (run k load salt connected t) { world := {} } = (.ok (), s') :=
      ⟨_, Prod.ext h rfl⟩
    obtain ⟨_, s₀, hload, g₀⟩ := exec_bind_ok.mp g
    obtain ⟨cs, s₁, hcs, g₁⟩ := exec_bind_ok.mp g₀
    obtain ⟨_, s₂, hprint, g₂⟩ := exec_bind_ok.mp g₁
    obtain ⟨_, s₃, hconn, g₃⟩ := exec_bind_ok.mp g₂
    obtain ⟨failed, s₄, hoffers, g₄⟩ := exec_bind_ok.mp g₃
    obtain ⟨_, s₅, -, g₅⟩ := exec_bind_ok.mp g₄
    rw [exec_attempt, Prod.mk.injEq] at hload hcs hconn
    obtain ⟨hload, rfl⟩ := hload
    obtain ⟨hcs, rfl⟩ := hcs
    obtain ⟨hconn, rfl⟩ := hconn
    have hnamed : (⟨{}, [banner salt cs]⟩ : Session (Conn Key)) = s₂ := congrArg Prod.snd hprint
    by_cases hfailed : failed = 0
    · subst hfailed
      exact ⟨hload, hconn, cs, hcs, s₄, hnamed ▸ hoffers⟩
    · rw [if_neg hfailed] at g₅
      cases g₅
  · intro h
    obtain ⟨rfl, rfl, cs, hcs, s', hoffers⟩ := h
    unfold run
    rw [attempt_ok_bind, hcs, attempt_ok_bind, exec_bind, println, exec_modify]
    dsimp only
    rw [attempt_ok_bind, exec_bind]
    have hprint : exec (offers k t 0 0 cs) ⟨{}, [] ++ [banner salt cs]⟩ = (.ok 0, s') := hoffers
    rw [hprint]
    rfl

/-- **No case answers for another.** Whatever comes on the connection, and however late: a
run that passes was given back every state that had to be kept, by a node whose code had
accepted it. -/
theorem pack_kept {accepts : Bytes → Bytes → Bool} (hkey : Function.Injective k.key)
    (ht : ∀ i state, Honest k accepts (t i state).came ∧ Honest k accepts (t i state).getCame)
    (h : (exec (run k load salt connected t) { world := {} }).1 = .ok ()) :
    ∃ cs, fixture k salt = .ok cs ∧ ∀ c ∈ cs, k.check (k.blake3 c.state) c.state = c.keep ∧
      (c.keep = true → accepts (k.blake3 c.state) c.state = true) := by
  obtain ⟨-, -, cs, hcs, s', hoffers⟩ := run_ok_iff.mp h
  have hkept := (offers_kept hkey ht hoffers fun a ha => by cases ha).2 rfl
  exact ⟨cs, hcs, fun c hc => ⟨fixture_check hcs c hc, hkept c hc⟩⟩

end Passes

/-! ## Answers in time, or never -/

/-- How an offer goes: its sends, the clock as its waits begin, the node's word on the put, and
when it answers the get, with a state or without one. -/
structure Timing (Key : Type) where
  sent : Except String Unit
  start : Nat
  answer : Option (Arrival (Response Key))
  getSent : Except String Unit
  getStart : Nat
  getAnswer : Option (Nat × Nat)

/-- What comes from a node whose code accepts these states. -/
def meets (accepts : Bytes → Bytes → Bool) (m : Nat → Timing Key) (i : Nat) (state : Bytes) :
    Meets Key where
  sent := (m i).sent
  start := (m i).start
  came := (m i).answer.toList
  getSent := (m i).getSent
  getStart := (m i).getStart
  getCame := ((m i).getAnswer.map fun x =>
    ⟨if accepts (k.blake3 state) state then .getResponse (k.key (k.blake3 state)) state else .other,
      x.1, x.2⟩).toList

/-- Every request is sent, and its answer comes within its wait or never. -/
def InTime (m : Nat → Timing Key) : Prop :=
  ∀ i, ((m i).sent = .ok () ∧ (m i).getSent = .ok ()) ∧
    (∀ a ∈ (m i).answer, a.arrives ≤ (m i).start + stepWait) ∧
      ∀ x ∈ (m i).getAnswer, x.1 ≤ (m i).getStart + stepWait

section InTime

variable {k} {accepts : Bytes → Bytes → Bool} {m : Nat → Timing Key}

/-- What a case finds: the node's code accepts it, and says so. -/
def found (k : Crates Id Key Builder) (accepts : Bytes → Bytes → Bool) (m : Nat → Timing Key)
    (x : Case × Nat) : Bool :=
  (m x.2).getAnswer.isSome && accepts (k.blake3 x.1.state) x.1.state

variable (accepts) in
omit [LinearOrder Id] in
theorem exec_offer (hm : InTime m) (i : Nat) (c : Case) :
    ∃ put, exec (offer k (meets k accepts m) c.state) ⟨[], i⟩ =
      (.ok ⟨put, found k accepts m (c, i)⟩, ⟨[], i + 1⟩) := by
  obtain ⟨⟨hsent, hgetSent⟩, hput, hget⟩ := hm i
  have hfirst : (receive ((m i).start + stepWait) ((m i).answer.toList)).2 = [] := by
    cases ha : (m i).answer with
    | none => rfl
    | some a =>
      show (receive _ [a]).2 = []
      rw [receive, if_pos (hput a ha)]
  unfold offer meets found
  simp only [exec_bind, exec_get, exec_attempt, exec_modify, exec_pure, hsent, hgetSent,
    List.nil_append, hfirst]
  cases hx : (m i).getAnswer with
  | none => exact ⟨_, rfl⟩
  | some x =>
    have hin : (m i).getStart ≤ (m i).getStart + stepWait ∧ x.1 ≤ (m i).getStart + stepWait :=
      ⟨Nat.le_add_right .., hget x hx⟩
    cases haccept : accepts (k.blake3 c.state) c.state with
    | true => simp [scan, hin, ends]
    | false => simp [scan, hin, ends]

variable (accepts) in
omit [LinearOrder Id] in
theorem exec_offers (hm : InTime m) (i failed : Nat) (cs : List Case) (printed : List String) :
    ∃ s', exec (offers k (meets k accepts m) i failed cs) ⟨⟨[], i⟩, printed⟩ =
      (.ok (failed + (cs.zipIdx i).countP fun x => found k accepts m x != x.1.keep), s') := by
  induction cs generalizing i failed printed with
  | nil => exact ⟨_, rfl⟩
  | cons c cs ih =>
    obtain ⟨put, ho⟩ := exec_offer (k := k) accepts hm i c
    have hfound : ∃ printed', exec (offers k (meets k accepts m) i failed (c :: cs)) ⟨⟨[], i⟩, printed⟩ =
        exec (offers k (meets k accepts m) (i + 1)
          (if found k accepts m (c, i) == c.keep then failed else failed + 1) cs)
            ⟨⟨[], i + 1⟩, printed'⟩ := by
      rw [offers, exec_bind, on, exec_focus, ho]
      exact ⟨_, rfl⟩
    obtain ⟨printed', hstep⟩ := hfound
    obtain ⟨s', hs'⟩ := ih (i + 1) (if found k accepts m (c, i) == c.keep then failed else failed + 1)
      printed'
    refine ⟨s', hstep.trans (hs'.trans ?_)⟩
    rw [List.zipIdx_cons, List.countP_cons]
    cases hok : found k accepts m (c, i) == c.keep with
    | true => simp [bne, hok]
    | false =>
      simp only [bne, hok, Bool.not_false, if_true, Bool.false_eq_true, if_false]
      rw [Nat.add_right_comm, Nat.add_assoc]

variable (accepts) in
/-- None fails where the node's code agrees with the linked crate. -/
theorem offers_zero_iff (hm : InTime m) {salt : Bytes} {cs : List Case}
    (hcs : fixture k salt = .ok cs) :
    (∃ s', exec (offers k (meets k accepts m) 0 0 cs) ⟨{}, [banner salt cs]⟩ = (.ok 0, s')) ↔
      ∀ x ∈ cs.zipIdx, found k accepts m x = k.check (k.blake3 x.1.state) x.1.state := by
  obtain ⟨s', hs'⟩ := exec_offers (k := k) accepts hm 0 0 cs [banner salt cs]
  have hchecked : ∀ x ∈ cs.zipIdx, k.check (k.blake3 x.1.state) x.1.state = x.1.keep :=
    fun x hx => fixture_check hcs x.1 (List.fst_mem_of_mem_zipIdx hx)
  have hnone : (cs.zipIdx.countP fun x => found k accepts m x != x.1.keep) = 0 ↔
      ∀ x ∈ cs.zipIdx, found k accepts m x = k.check (k.blake3 x.1.state) x.1.state := by
    rw [List.countP_eq_zero]
    refine forall₂_congr fun x hx => ?_
    rw [hchecked x hx]
    simp
  refine Iff.trans ?_ hnone
  constructor
  · intro h
    obtain ⟨s, h⟩ := h
    have hzero := Except.ok.inj (congrArg Prod.fst (hs'.symm.trans h))
    omega
  · intro h
    rw [h] at hs'
    exact ⟨s', hs'⟩

/-- **When a run passes**: every premise holds, and on every case the node's code says what the
linked crate says, with silence for a refusal. -/
theorem pack_passes_iff (hm : InTime m) {salt : Bytes} {load connected : Except String Unit} :
    (exec (run k load salt connected (meets k accepts m)) { world := {} }).1 = .ok () ↔
      load = .ok () ∧ connected = .ok () ∧ ∃ cs, fixture k salt = .ok cs ∧ ∀ x ∈ cs.zipIdx,
        ((m x.2).getAnswer.isSome && accepts (k.blake3 x.1.state) x.1.state) =
          k.check (k.blake3 x.1.state) x.1.state := by
  rw [run_ok_iff]
  exact and_congr_right fun _ => and_congr_right fun _ => exists_congr fun cs =>
    and_congr_right fun hcs => offers_zero_iff accepts hm hcs

end InTime

/-! ## A small crate -/

def smallNode : Bytes := [5, 6, 7]

def smallSalt : Bytes := [1, 2, 3, 4, 5, 6, 7, 8]

/-- It keeps the node, its own pairs of members, and a parity body of no more than nine bytes. -/
def smallCheck (body : UInt8 → Bytes → Bool) : Bytes → Bool
  | [] => false
  | kind :: rest => body kind rest

/-- A block named by its bytes. -/
def smallCrates : Crates (List Nat) Bytes Unit where
  raw := 0
  treeNode := 1
  pack := 2
  parity := 3
  mediaChunk := 4
  fragment := 5
  schema := 6
  magic := pk01
  encode kind body := kind :: body
  maxParity := 16
  salted := by decide
  blockId := readableId
  build pair := .ok (wire pk01 (ordered readableId pair.dedup))
  check _ := smallCheck fun kind body =>
    let one : Member := (0, text "one" ++ smallSalt)
    let two : Member := (0, text "two" ++ smallSalt)
    if kind = 1 then body == smallNode
    else if kind = 2 then
      body == wire pk01 (ordered readableId [one, two]) ||
        body == wire pk01 (ordered readableId [one, two, (1, smallNode)])
    else decide (kind = 3 ∧ body.length ≤ 16)
  blake3 := id
  key := id
  newLeaf := ()
  push _ _ _ := .ok ()
  finish _ := .ok smallNode

/-- Some of the cases must be refused. -/
def refusesSome : Except String (List Case) → Bool
  | .ok cs => cs.any fun c => !c.keep
  | .error _ => false

theorem exists_small :
    ∃ cs, fixture smallCrates smallSalt = .ok cs ∧ ∃ c ∈ cs, c.keep = false := by
  have h : refusesSome (fixture smallCrates smallSalt) = true := by decide +kernel
  cases hcs : fixture smallCrates smallSalt with
  | ok cs =>
    rw [hcs] at h
    obtain ⟨c, hc, hkeep⟩ := List.any_eq_true.mp h
    exact ⟨cs, rfl, c, hc, by simpa using hkeep⟩
  | error e =>
    rw [hcs] at h
    cases h

/-- Every get is answered at once. -/
def onTime : Nat → Timing Bytes := fun _ => ⟨.ok (), 0, none, .ok (), 0, some (1, 1)⟩

theorem onTime_inTime : InTime onTime := by
  refine fun i => ⟨⟨rfl, rfl⟩, fun a ha => (by cases ha), fun x hx => ?_⟩
  cases hx
  exact Nat.le_add_left 1 _

/-- A node with this crate's code passes, and one that keeps everything does not. -/
theorem pack_passes_iff_small :
    (exec (run smallCrates (.ok ()) smallSalt (.ok ()) (meets smallCrates smallCrates.check onTime))
      { world := {} }).1 = .ok () ∧
    (exec (run smallCrates (.ok ()) smallSalt (.ok ()) (meets smallCrates (fun _ _ => true) onTime))
      { world := {} }).1 ≠ .ok () := by
  obtain ⟨cs, hcs, c, hc, hkeep⟩ := exists_small
  refine ⟨(pack_passes_iff onTime_inTime).mpr ⟨rfl, rfl, cs, hcs, fun _ _ => Bool.true_and _⟩, fun h => ?_⟩
  obtain ⟨-, -, cs', hcs', hall⟩ := (pack_passes_iff onTime_inTime).mp h
  obtain rfl := Except.ok.inj (hcs.symm.trans hcs')
  obtain ⟨i, hi, rfl⟩ := List.getElem_of_mem hc
  have hkept := hall (cs[i], i) (List.mk_mem_zipIdx_iff_getElem?.mpr (List.getElem?_eq_getElem hi))
  rw [fixture_check hcs _ hc, hkeep] at hkept
  cases hkept

theorem pack_kept_small :
    ∃ cs, fixture smallCrates smallSalt = .ok cs ∧ ∀ c ∈ cs,
      smallCrates.check c.state c.state = c.keep ∧
        (c.keep = true → smallCrates.check c.state c.state = true) := by
  obtain ⟨cs, hcs, -⟩ := exists_small
  have hrun := run_ok_iff.mpr ⟨rfl, rfl, cs, hcs, (offers_zero_iff smallCrates.check
    onTime_inTime hcs).mpr fun _ _ => Bool.true_and _⟩
  refine pack_kept Function.injective_id (fun i state => ⟨fun a ha => (by cases ha), ?_⟩) hrun
  intro a ha key got hmsg
  obtain rfl := List.mem_singleton.mp ha
  dsimp only at hmsg
  split at hmsg
  · rename_i haccept
    obtain ⟨rfl, rfl⟩ := Response.getResponse.inj hmsg
    exact ⟨_, rfl, haccept⟩
  · cases hmsg

end FreenetHarness.Pack
