import FreenetHarness.Latency
import FreenetHarness.Lib.Inbox
import FreenetHarness.Probe.Client
import FreenetHarness.Probe.Spans

/-! # The write role

Fresh blocks are put one at a time over one connection, and each answer is matched by the
key it names. The put itself is labelled by its place, so the ledger under the connection
leaves it to the role to close it. `write_accounts` says what a run leaves in the ledger and
on its lines, `write_exits` which puts the ledger ends twice. -/
namespace FreenetHarness.XNode.Write
open FreenetHarness.Lib.Inbox FreenetHarness.Lib.Number FreenetHarness.Lib.Run FreenetHarness.Probe
  FreenetHarness.Stats
open FreenetHarness.Latency (Awaiting seconds)

/-- What one put meets: the block it mints, the two clocks it takes before it sends, how the
send settles, the clock its wait is bounded from, and the one at the first look for its
acknowledgement. -/
structure Turn where
  mint : Nat → Except String (ContractContainer × Bytes)
  tSend : Nat
  t : Nat
  sent : Except String Unit
  start : Nat
  clock : Nat

/-- How the wait for an acknowledgement ended. -/
inductive Ended where
  | acked (clock : Nat)
  | timedOut
  | failed (e : String)
  deriving DecidableEq

def Ended.outcome : Ended → Outcome
  | .acked _ => .ok
  | .timedOut => .timeout
  | .failed _ => .blocked

/-- A line of the role, less the ledger's own line under a put that was given up on. -/
inductive Line where
  | put (key : String) (tSend : Nat) (ackMs : ℚ) (size : Nat)
  | notAcknowledged (key : String) (wait : Nat)
  | failed (key : String) (e : String)
  deriving DecidableEq

def Line.acked : Line → Bool
  | .put .. => true
  | _ => false

def Line.text : Line → String
  | .put key tSend ackMs size => s!"PUT {key} {tSend} {String.ofList (print1 ackMs)} {size}"
  | .notAcknowledged key wait =>
    s!"# put not acknowledged within {String.ofList (print0 ((wait : ℚ) / 1000000000))} s for {key}"
  | .failed key e => s!"# put failed for {key}: {e}"

def line (key : String) (m : Turn) (wait size : Nat) : Ended → Line
  | .acked clock => .put key m.tSend (msSince m.t clock) size
  | .timedOut => .notAcknowledged key wait
  | .failed e => .failed key e

structure State where
  ledger : Ledger := {}
  inbox : List (Arrival (Except String HostResponse))
  lines : List Line := []

/-- The key of a response, for a put. -/
def putNamed : HostResponse → Option String
  | .contractResponse (.putResponse key) => some key
  | _ => none

variable (L : Labels)

/-- The wait for the acknowledgement of one key; every receive goes through the ledger. -/
def awaitAck (deadline : Nat) (l : Ledger) (w : Awaiting String) :
    Nat → List (Arrival (Except String HostResponse)) →
      Ledger × Ended × List (Arrival (Except String HostResponse))
  | _, [] => (l, .timedOut, [])
  | now, a :: rest =>
    if now ≤ deadline ∧ a.arrives ≤ deadline then
      match a.msg with
      | .error e => (recv L l a.msg, .failed e, rest)
      | .ok r =>
        if (w.offer (putNamed r)).1 then (recv L l a.msg, .acked a.clock, rest)
        else awaitAck deadline (recv L l a.msg) (w.offer (putNamed r)).2 a.clock rest
    else (l, .timedOut, a :: rest)

/-- One block put and waited for. -/
def putOne (wait : Nat) (s : State) (x : Nat × Turn) : Except String State := do
  let (contract, state) ← x.2.mint x.1
  let (id, ledger) := send L s.ledger (.contractOp (.put contract state))
  x.2.sent
  let (ledger, ended, inbox) :=
    awaitAck L (x.2.start + wait) ledger { want := contract.id } x.2.clock s.inbox
  return {
    ledger := ledger.finish L id ended.outcome
    inbox
    lines := s.lines ++ [line contract.id x.2 wait state.length ended] }

/-- The sizes in order, each as often as asked, every put with what it meets. -/
def puts (samples : Nat) (sizes : List Nat) (turns : Nat → Turn) : List (Nat × Turn) :=
  (sizes.flatMap (List.replicate samples)).zipIdx.map fun x => (x.1, turns x.2)

/-- The whole role. Whether the closing request goes out makes no difference to it. -/
def write (wait samples : Nat) (sizes : List Nat) (turns : Nat → Turn)
    (inbox : List (Arrival (Except String HostResponse))) : Except String State := do
  let s ← (puts samples sizes turns).foldlM (putOne L wait) { inbox }
  return { s with ledger := (send L s.ledger .disconnect).2 }

/-! ## One wait -/

/-- What ends a wait for a key: its own acknowledgement, or an error. -/
def ends (key : String) : Except String HostResponse → Bool
  | .error _ => true
  | .ok r => putNamed r = some key

/-- What a wait took off the connection, if it ended so. -/
def endedBy : Option (Arrival (Except String HostResponse)) → Ended
  | none => .timedOut
  | some ⟨.error e, _, _⟩ => .failed e
  | some ⟨.ok _, _, clock⟩ => .acked clock

/-- What the receives of some messages make of a ledger. -/
def received (l : Ledger) (as : List (Arrival (Except String HostResponse))) : Ledger :=
  as.foldl (fun l a => recv L l a.msg) l

variable {L}

/-- **The wait** receives every message up to the first that ends it. -/
theorem awaitAck_eq (deadline : Nat) (l : Ledger) (w : Awaiting String) (now : Nat)
    (inbox : List (Arrival (Except String HostResponse))) :
    let s := scan (ends w.want) deadline now inbox
    awaitAck L deadline l w now inbox =
      (received L l (s.passed ++ s.ended.toList), endedBy s.ended, s.rest) := by
  induction inbox generalizing l w now with
  | nil => rfl
  | cons a inbox ih =>
    obtain ⟨msg, arrives, clock⟩ := a
    unfold awaitAck scan
    by_cases hin : now ≤ deadline ∧ arrives ≤ deadline
    · rw [if_pos hin, if_pos hin]
      cases msg with
      | error e => rfl
      | ok r =>
        unfold Awaiting.offer ends
        by_cases hr : putNamed r = some w.want
        · simp [hr, received, endedBy]
        · simp only [hr, if_false, decide_false, Bool.false_eq_true]
          exact ih (recv L l (.ok r)) { w with stale := w.stale + 1 } clock
    · rw [if_neg hin, if_neg hin]
      rfl

/-! ## What a wait leaves in the ledger -/

/-- A message that names no key. -/
def unnamed : Except String HostResponse → Bool
  | .error _ => true
  | .ok r => (namesKey r).isNone

/-- What a receive does beside closing entries. -/
theorem recv_counts (l : Ledger) (m : Except String HostResponse) :
    (recv L l m).seq = l.seq ∧ (recv L l m).owed = l.owed := by
  have hresponse : (l.response L).seq = l.seq ∧ (l.response L).owed = l.owed := by
    unfold Ledger.response
    split
    · exact ⟨rfl, rfl⟩
    · split <;> exact ⟨rfl, rfl⟩
  cases m with
  | error e => exact hresponse
  | ok r =>
    unfold recv
    dsimp only
    split
    · unfold Ledger.receivedBytes
      split <;> exact ⟨rfl, rfl⟩
    · exact hresponse

/-- A message that names no key closes the oldest open entry, unless an answer is owed. -/
theorem recv_unnamed {l : Ledger} {m : Except String HostResponse} (h : unnamed m = true) :
    recv L l m = l.response L := by
  cases m with
  | error e => rfl
  | ok r =>
    have hr : namesKey r = none := Option.isNone_iff_eq_none.mp h
    simp [recv, hr]

theorem response_exited (l : Ledger) :
    (l.response L).exited = l.exited ++ (l.ends .response).map Label.ended := by
  rw [← emits_exits (L := L)]
  exact call_exited l .response

/-- A message that names a key ends nothing, and closes no entry of a positional request. -/
theorem recv_named {l : Ledger} {m : Except String HostResponse} (h : unnamed m = false)
    (hopen : ∀ id ∈ l.opened, ∀ k, id ≠ L.label .contract k) :
    (recv L l m).opened = l.opened ∧ (recv L l m).exited = l.exited := by
  cases m with
  | error e => cases h
  | ok r =>
    obtain ⟨k, hk⟩ := Option.isSome_iff_exists.mp (by simpa [unnamed] using h)
    constructor
    · rw [recv_opened_named L l hk, List.erase_of_not_mem fun hmem => hopen _ hmem k rfl]
    · have hcalls : recv L l (.ok r) = (l.call L (.answered k)).call L
          (.receivedBytes (L.label .contract k) (receivedBytes r)) := by
        simp only [recv, hk]
        rfl
      rw [hcalls, call_exited, call_exited, emits_exits, emits_exits]
      simp [Ledger.ends]

/-- Over the wait of one put, its entry is closed by the first message that names no key,
where nothing is owed. -/
theorem received_put {l : Ledger} {id : Label} (hid : ∀ k, id ≠ L.label .contract k)
    (hl : l.opened = [id] ∨ l.opened = []) (as : List (Arrival (Except String HostResponse))) :
    let closed := l.owed = 0 ∧ (as.any fun a => unnamed a.msg) = true ∧ l.opened = [id]
    (received L l as).opened = (if closed then [] else l.opened) ∧
      (received L l as).exited = l.exited ++ (if closed then [id.ended] else []) ∧
      (received L l as).owed = l.owed ∧ (received L l as).seq = l.seq := by
  induction as generalizing l with
  | nil => simp [received]
  | cons a as ih =>
    obtain ⟨hseq, howed⟩ := recv_counts (L := L) l a.msg
    have hopen : ∀ i ∈ l.opened, ∀ k, i ≠ L.label .contract k := by
      intro i hi
      obtain hl | hl := hl <;> rw [hl] at hi
      · exact List.mem_singleton.mp hi ▸ hid
      · cases hi
    have hcons : received L l (a :: as) = received L (recv L l a.msg) as := rfl
    rw [hcons]
    cases hu : unnamed a.msg with
    | false =>
      obtain ⟨ho, he⟩ := recv_named hu hopen
      have := ih (l := recv L l a.msg) (by rwa [ho])
      simpa only [ho, he, howed, hseq, List.any_cons, hu, Bool.false_or] using this
    | true =>
      have hrecv := recv_unnamed (L := L) (l := l) hu
      have ho := Ledger.response_opened L l
      have he := response_exited (L := L) l
      rw [← hrecv] at ho he
      by_cases h0 : l.owed = 0
      · have hopened : (recv L l a.msg).opened = [] := by
          rw [ho, if_neg (by omega)]
          obtain hl | hl := hl <;> rw [hl] <;> rfl
        have := ih (l := recv L l a.msg) (.inr hopened)
        simp only [hopened, howed, hseq] at this
        obtain ⟨h1, h2, h3, h4⟩ := this
        refine ⟨?_, ?_, h3, h4⟩
        · rw [h1]
          obtain hl | hl := hl <;> simp [hl, h0, hu]
        · rw [h2, he]
          obtain hl | hl := hl <;> simp [hl, h0, hu, Ledger.ends]
      · have hpos : 0 < l.owed := Nat.pos_of_ne_zero h0
        rw [if_pos hpos] at ho
        rw [Ledger.ends, if_pos hpos, List.map_nil, List.append_nil] at he
        have := ih (l := recv L l a.msg) (by rwa [ho])
        simp only [ho, he, howed, hseq, h0, false_and, if_false] at this ⊢
        exact this

/-! ## One put -/

/-- The label of the put that takes the `n`-th place. -/
def putLabel (L : Labels) (n : Nat) : Label := L.label .request ("put" ++ "/" ++ toString n)

/-- What the wait of a put takes off the connection. -/
def waitScan (wait : Nat) (key : String) (m : Turn) (s : State) : Scan (Except String HostResponse) :=
  scan (ends key) (m.start + wait) m.clock s.inbox

/-- The ledger takes the put for ended before the role says how it ended. -/
def EndedEarly (wait : Nat) (key : String) (m : Turn) (s : State) : Prop :=
  s.ledger.owed = 0 ∧ ((waitScan wait key m s).passed ++ (waitScan wait key m s).ended.toList).any
    (fun a => unnamed a.msg) = true

instance (wait : Nat) (key : String) (m : Turn) (s : State) : Decidable (EndedEarly wait key m s) :=
  instDecidableAnd

/-- What one put, of a block with this key and size, makes of the role's state. -/
structure Puts (L : Labels) (wait : Nat) (s : State) (m : Turn) (key : String) (size : Nat)
    (s' : State) : Prop where
  inbox : s'.inbox = (waitScan wait key m s).rest
  lines : s'.lines = s.lines ++ [line key m wait size (endedBy (waitScan wait key m s).ended)]
  opened : s'.ledger.opened = []
  seq : s'.ledger.seq = s.ledger.seq + 1
  owed : s'.ledger.owed = s.ledger.owed +
    if Ledger.owes (endedBy (waitScan wait key m s).ended).outcome then 1 else 0
  exited : s'.ledger.exited = s.ledger.exited ++
    List.replicate (if EndedEarly wait key m s then 2 else 1) (putLabel L s.ledger.seq).ended

theorem send_ok (l : Ledger) (req : ClientRequest) :
    let r := send L l req
    r.2.opened = l.opened ++ [r.1] ∧ r.2.seq = l.seq + 1 ∧ r.2.owed = l.owed ∧
      r.2.exited = l.exited := by
  intro r
  have hr : r.2 = (l.call L (.request (describe req))).call L (.offered r.1 (offeredBytes req)) :=
    rfl
  have hcounts := Ledger.call_counts L l (.request (describe req))
  have hcounts' := Ledger.call_counts L (l.call L (.request (describe req)))
    (.offered r.1 (offeredBytes req))
  refine ⟨send_opened .., ?_, ?_, ?_⟩
  · rw [hr, hcounts'.1, hcounts.1]
    rfl
  · rw [hr, hcounts'.2, hcounts.2]
    rfl
  · rw [hr, call_exited, call_exited, emits_exits, emits_exits]
    simp [Ledger.ends]

theorem putLabel_ne (n : Nat) (k : String) : putLabel L n ≠ L.label .contract k := fun h => by
  cases (L.label_injective h).1

/-- **Step.** -/
theorem putOne_ok {wait : Nat} {s s' : State} {x : Nat × Turn} (hs : s.ledger.opened = [])
    (h : putOne L wait s x = .ok s') :
    ∃ contract state, x.2.mint x.1 = .ok (contract, state) ∧
      Puts L wait s x.2 contract.id state.length s' := by
  obtain ⟨⟨contract, state⟩, hm, h⟩ := bind_eq_ok.mp h
  refine ⟨contract, state, hm, ?_⟩
  have hid : (send L s.ledger (.contractOp (.put contract state))).1 = putLabel L s.ledger.seq := rfl
  obtain ⟨hopened, hseq, howed, hexited⟩ :=
    send_ok (L := L) s.ledger (.contractOp (.put contract state))
  dsimp only at h
  generalize hr : send L s.ledger (.contractOp (.put contract state)) = r at *
  obtain ⟨id, l⟩ := r
  dsimp only at hid hopened hseq howed hexited h
  subst hid
  rw [hs, List.nil_append] at hopened
  obtain ⟨_, -, h⟩ := bind_eq_ok.mp h
  rw [awaitAck_eq (L := L)] at h
  cases h
  obtain ⟨h1, h2, h3, h4⟩ := received_put (L := L) (l := l)
    (fun k => putLabel_ne s.ledger.seq k) (.inl hopened)
    ((waitScan wait contract.id x.2 s).passed ++ (waitScan wait contract.id x.2 s).ended.toList)
  have hfin := Ledger.call_counts L (received L l ((waitScan wait contract.id x.2 s).passed ++
    (waitScan wait contract.id x.2 s).ended.toList)) (.finish (putLabel L s.ledger.seq)
      (endedBy (waitScan wait contract.id x.2 s).ended).outcome)
  exact {
    inbox := rfl
    lines := rfl
    opened := by
      show (Ledger.finish ..).opened = []
      rw [Ledger.finish_opened]
      refine (congrArg (List.erase · _) h1).trans ?_
      split
      · rfl
      · simp [hopened]
    seq := hfin.1.trans (h4.trans hseq)
    owed := hfin.2.trans (by rw [h3, howed]; rfl)
    exited := by
      refine (call_exited _ (.finish (putLabel L s.ledger.seq) _)).trans ?_
      rw [emits_exits]
      refine (congrArg (· ++ _) h2).trans ?_
      by_cases hearly : EndedEarly wait contract.id x.2 s
      · rw [hexited, if_pos ⟨howed.trans hearly.1, hearly.2, hopened⟩, if_pos hearly,
          List.append_assoc]
        rfl
      · have hopen : ¬ (l.owed = 0 ∧ _ ∧ l.opened = [putLabel L s.ledger.seq]) := fun hc =>
          hearly ⟨howed.symm.trans hc.1, hc.2.1⟩
        rw [hexited, if_neg hopen, if_neg hearly, List.append_nil]
        rfl }

/-! ## The run -/

/-- What some puts in a row make of the role's state. -/
structure Wrote (L : Labels) (s : State) (n : Nat) (s' : State) : Prop where
  inbox : s'.inbox <:+ s.inbox
  opened : s'.ledger.opened = []
  seq : s'.ledger.seq = s.ledger.seq + n
  lines : ∃ ls, s'.lines = s.lines ++ ls ∧ ls.length = n ∧
    s'.ledger.owed = s.ledger.owed + ls.countP fun l => !l.acked
  exited : ∃ es, s'.ledger.exited = s.ledger.exited ++ es ∧
    ∀ e ∈ es, ∃ k < n, e = (putLabel L (s.ledger.seq + k)).ended

theorem Wrote.refl {s : State} (hs : s.ledger.opened = []) : Wrote L s 0 s where
  inbox := List.suffix_refl _
  opened := hs
  seq := rfl
  lines := ⟨[], by simp⟩
  exited := ⟨[], by simp⟩

theorem Wrote.trans {s t u : State} {m n : Nat} (h : Wrote L s m t) (h' : Wrote L t n u) :
    Wrote L s (m + n) u where
  inbox := h'.inbox.trans h.inbox
  opened := h'.opened
  seq := by rw [h'.seq, h.seq, Nat.add_assoc]
  lines := by
    obtain ⟨ls, hls, hlen, howed⟩ := h.lines
    obtain ⟨ls', hls', hlen', howed'⟩ := h'.lines
    refine ⟨ls ++ ls', by rw [hls', hls, List.append_assoc], by simp [hlen, hlen'], ?_⟩
    rw [howed', howed, List.countP_append, Nat.add_assoc]
  exited := by
    obtain ⟨es, hes, hlt⟩ := h.exited
    obtain ⟨es', hes', hlt'⟩ := h'.exited
    refine ⟨es ++ es', by rw [hes', hes, List.append_assoc], fun e he => ?_⟩
    obtain he | he := List.mem_append.mp he
    · obtain ⟨k, hk, rfl⟩ := hlt e he
      exact ⟨k, by omega, rfl⟩
    · obtain ⟨k, hk, rfl⟩ := hlt' e he
      exact ⟨m + k, by omega, by rw [h.seq, Nat.add_assoc]⟩

theorem line_acked (key : String) (m : Turn) (wait size : Nat) (ended : Ended) :
    (line key m wait size ended).acked = !Ledger.owes ended.outcome := by
  cases ended <;> rfl

theorem Puts.wrote {wait : Nat} {s s' : State} {m : Turn} {key : String} {size : Nat}
    (h : Puts L wait s m key size s') : Wrote L s 1 s' where
  inbox := by
    rw [h.inbox, ← scan_append (ends key) (m.start + wait) m.clock s.inbox]
    exact List.suffix_append _ _
  opened := h.opened
  seq := h.seq
  lines := ⟨_, h.lines, rfl, by simp [h.owed, line_acked]⟩
  exited := ⟨_, h.exited, fun e he => ⟨0, Nat.one_pos, (List.mem_replicate.mp he).2⟩⟩

theorem wrote_of_foldlM {wait : Nat} {xs : List (Nat × Turn)} {s s' : State}
    (hs : s.ledger.opened = []) (h : xs.foldlM (putOne L wait) s = .ok s') :
    Wrote L s xs.length s' := by
  induction xs generalizing s with
  | nil =>
    cases h
    exact .refl hs
  | cons x xs ih =>
    rw [List.foldlM_cons, bind_eq_ok] at h
    obtain ⟨t, ht, h⟩ := h
    obtain ⟨contract, state, -, hput⟩ := putOne_ok hs ht
    have := hput.wrote.trans (ih hput.opened h)
    rwa [Nat.add_comm] at this

/-- A run cut at one of its puts. -/
theorem puts_at {wait : Nat} {xs : List (Nat × Turn)} {s s' : State} {n : Nat} {x : Nat × Turn}
    (hs : s.ledger.opened = []) (h : xs.foldlM (putOne L wait) s = .ok s') (hx : xs[n]? = some x) :
    ∃ t t' contract state, (xs.take n).foldlM (putOne L wait) s = .ok t ∧ Wrote L s n t ∧
      x.2.mint x.1 = .ok (contract, state) ∧ Puts L wait t x.2 contract.id state.length t' ∧
      Wrote L t' (xs.length - (n + 1)) s' := by
  obtain ⟨t, t', ht, hput, hrest⟩ := foldlM_at h hx
  have hn : (xs.take n).length = n :=
    List.length_take_of_le (List.getElem?_eq_some_iff.mp hx).1.le
  have hwrote := wrote_of_foldlM hs ht
  obtain ⟨contract, state, hm, hputs⟩ := putOne_ok hwrote.opened hput
  have hafter := wrote_of_foldlM hputs.opened hrest
  rw [List.length_drop] at hafter
  exact ⟨t, t', contract, state, ht, hn ▸ hwrote, hm, hputs, hafter⟩

theorem length_puts (samples : Nat) (sizes : List Nat) (turns : Nat → Turn) :
    (puts samples sizes turns).length = sizes.length * samples := by
  simp [puts, List.length_flatMap, List.map_const']

theorem getElem?_flatMap_replicate {α : Type} {k : Nat} (hk : 0 < k) (xs : List α) (n : Nat) :
    (xs.flatMap (List.replicate k))[n]? = xs[n / k]? := by
  induction xs generalizing n with
  | nil => simp
  | cons x xs ih =>
    rw [List.flatMap_cons, List.getElem?_append, List.length_replicate]
    by_cases hn : n < k
    · simp [hn, Nat.div_eq_of_lt hn]
    · have hdiv : n / k = (n - k) / k + 1 := by
        rw [← Nat.add_div_right _ hk, Nat.sub_add_cancel (Nat.le_of_not_lt hn)]
      rw [if_neg hn, ih, hdiv, List.getElem?_cons_succ]

theorem puts_getElem? {samples : Nat} {sizes : List Nat} (turns : Nat → Turn) {n : Nat}
    (hn : n < sizes.length * samples) :
    ∃ size, sizes[n / samples]? = some size ∧
      (puts samples sizes turns)[n]? = some (size, turns n) := by
  have hk : 0 < samples := Nat.pos_of_ne_zero fun h => by simp [h] at hn
  have hlt : n / samples < sizes.length := Nat.div_lt_of_lt_mul (by rwa [Nat.mul_comm])
  refine ⟨sizes[n / samples], List.getElem?_eq_getElem hlt, ?_⟩
  rw [puts, List.getElem?_map, List.getElem?_zipIdx, getElem?_flatMap_replicate hk,
    List.getElem?_eq_getElem hlt]
  simp

/-- The label of the closing request that takes the `n`-th place. -/
def disconnectLabel (L : Labels) (n : Nat) : Label := L.label .request s!"disconnect/{n}"

/-- What a whole run leaves: a line for every put asked for, an answer owed for every put given up
on, and no request open but the closing one, which nothing answers. The line of a put is about the
key it minted, and says what the first message that names this key, or fails, within its own wait
makes of it. -/
structure Accounts (L : Labels) (wait samples : Nat) (sizes : List Nat) (turns : Nat → Turn)
    (inbox : List (Arrival (Except String HostResponse))) (s' : State) : Prop where
  opened : s'.ledger.opened = [disconnectLabel L (sizes.length * samples)]
  seq : s'.ledger.seq = sizes.length * samples + 1
  owed : s'.ledger.owed = s'.lines.countP fun l => !l.acked
  asked : s'.lines.length = sizes.length * samples
  line : ∀ n < sizes.length * samples, ∃ size t contract state,
    sizes[n / samples]? = some size ∧ (turns n).mint size = .ok (contract, state) ∧
    ((puts samples sizes turns).take n).foldlM (putOne L wait) { inbox } = .ok t ∧
    t.inbox <:+ inbox ∧
    s'.lines[n]? = some (line contract.id (turns n) wait state.length
      (endedBy ((readable ((turns n).start + wait) (turns n).clock t.inbox).find?
        fun a => ends contract.id a.msg)))

/-- **The run.** -/
theorem write_accounts {wait samples : Nat} {sizes : List Nat} {turns : Nat → Turn}
    {inbox : List (Arrival (Except String HostResponse))} {s' : State}
    (h : write L wait samples sizes turns inbox = .ok s') :
    Accounts L wait samples sizes turns inbox s' := by
  obtain ⟨s, hs, h⟩ := bind_eq_ok.mp h
  cases h
  obtain ⟨hopened, hseq, howed', -⟩ := send_ok (L := L) s.ledger .disconnect
  have hwrote := wrote_of_foldlM (L := L) rfl hs
  rw [length_puts] at hwrote
  have hplace : s.ledger.seq = sizes.length * samples := hwrote.seq.trans (Nat.zero_add _)
  have hlabel : (send L s.ledger .disconnect).1 = disconnectLabel L s.ledger.seq := rfl
  obtain ⟨ls, hls, hlen, howed⟩ := hwrote.lines
  rw [List.nil_append] at hls
  refine ⟨?_, hseq.trans (by rw [hplace]), ?_, by rw [hls, hlen], ?_⟩
  · rw [hopened, hwrote.opened, hlabel, hplace]
    rfl
  · rw [howed', howed, hls]
    exact Nat.zero_add _
  · intro n hn
    obtain ⟨size, hsize, hx⟩ := puts_getElem? turns hn
    obtain ⟨t, t', contract, state, ht, hbefore, hm, hput, hafter⟩ := puts_at rfl hs hx
    refine ⟨size, t, contract, state, hsize, hm, ht, hbefore.inbox, ?_⟩
    obtain ⟨pre, hpre, hprelen, -⟩ := hbefore.lines
    obtain ⟨post, hpost, -⟩ := hafter.lines
    rw [List.nil_append] at hpre
    rw [hpost, hput.lines, hpre, ← scan_ended]
    simp [← hprelen, waitScan]

/-- Two puts. -/
def twoTurns : Nat → Turn
  | 0 => ⟨fun _ => .ok (.other "a", []), 0, 0, .ok (), 0, 0⟩
  | _ => ⟨fun _ => .ok (.other "b", []), 9, 9, .ok (), 9, 9⟩

/-- The first answer is late, and there when the second put waits for its own. -/
def lateAnswer : List (Arrival (Except String HostResponse)) :=
  [⟨.ok (.contractResponse (.putResponse "a")), 10, 10⟩,
    ⟨.ok (.contractResponse (.putResponse "b")), 11, 11⟩]

theorem write_accounts_late :
    ∃ s', write (.table ["put/0", "put/1", "disconnect/2"] []) 5 1 [0, 0] twoTurns lateAnswer =
        .ok s' ∧
      s'.lines = [.notAcknowledged "a" 5, .put "b" 9 (msSince 9 11) 0] ∧
      Accounts (.table ["put/0", "put/1", "disconnect/2"] []) 5 1 [0, 0] twoTurns lateAnswer s' :=
  ⟨_, rfl, rfl, write_accounts rfl⟩

theorem putLabel_ended_inj (hL : L.Kinded) {m n : Nat}
    (h : (putLabel L m).ended = (putLabel L n).ended) : m = n := by
  have hlabel : putLabel L m = putLabel L n := by
    have hkind : (putLabel L m).kind = (putLabel L n).kind := (hL.kind _ _).trans (hL.kind _ _).symm
    have hordinal : (putLabel L m).ordinal = (putLabel L n).ordinal := OpId.mk.inj h
    cases hm : putLabel L m
    cases hn : putLabel L n
    simp_all
  exact numbered_inj (L.label_injective hlabel).2

/-- Puts before and after a put leave its exits alone. -/
theorem count_exits (hL : L.Kinded) {n m k : Nat} {es : List OpId}
    (hes : ∀ e ∈ es, ∃ i < k, e = (putLabel L (m + i)).ended) (hn : n < m ∨ m + k ≤ n) :
    es.count (putLabel L n).ended = 0 := by
  refine List.count_eq_zero.mpr fun hmem => ?_
  obtain ⟨i, hi, heq⟩ := hes _ hmem
  have := putLabel_ended_inj hL heq
  omega

/-- **Which puts the ledger ends twice**: those given a message that names no key, while no
put before them was given up on. -/
theorem write_exits (hL : L.Kinded) {wait samples : Nat} {sizes : List Nat} {turns : Nat → Turn}
    {inbox : List (Arrival (Except String HostResponse))} {s' : State}
    (h : write L wait samples sizes turns inbox = .ok s') {n : Nat}
    (hn : n < sizes.length * samples) :
    ∃ size t contract state, sizes[n / samples]? = some size ∧
      (turns n).mint size = .ok (contract, state) ∧
      ((puts samples sizes turns).take n).foldlM (putOne L wait) { inbox } = .ok t ∧
      s'.ledger.exited.count (putLabel L n).ended =
        if (∀ l ∈ s'.lines.take n, l.acked = true) ∧
            ∃ a ∈ (waitScan wait contract.id (turns n) t).passed ++
              (waitScan wait contract.id (turns n) t).ended.toList, unnamed a.msg = true
        then 2 else 1 := by
  obtain ⟨size, hsize, hx⟩ := puts_getElem? turns hn
  obtain ⟨s, hs, h⟩ := bind_eq_ok.mp h
  cases h
  obtain ⟨t, t', contract, state, ht, hbefore, hm, hput, hafter⟩ := puts_at rfl hs hx
  refine ⟨size, t, contract, state, hsize, hm, ht, ?_⟩
  rw [(send_ok (L := L) s.ledger .disconnect).2.2.2]
  show _ = if (∀ l ∈ s.lines.take n, l.acked = true) ∧ _ then 2 else 1
  obtain ⟨es, hes, hlt⟩ := hbefore.exited
  obtain ⟨es', hes', hgt⟩ := hafter.exited
  have hseq : t.ledger.seq = n := hbefore.seq.trans (Nat.zero_add n)
  have hseq' : t'.ledger.seq = n + 1 := by rw [hput.seq, hseq]
  have hcount : s.ledger.exited.count (putLabel L n).ended =
      if EndedEarly wait contract.id (turns n) t then 2 else 1 := by
    have hpre := count_exits (n := n) hL hlt (.inr (by simp))
    have hpost := count_exits (n := n) hL hgt (.inl (by omega))
    rw [hes', hput.exited, hes, hseq, List.count_append, List.count_append, List.count_append,
      hpre, hpost, List.count_replicate_self]
    simp [Ledger.exited]
  have howed : t.ledger.owed = 0 ↔ ∀ l ∈ s.lines.take n, l.acked = true := by
    obtain ⟨pre, hpre, hprelen, howed⟩ := hbefore.lines
    obtain ⟨post, hpost, -⟩ := hafter.lines
    rw [List.nil_append] at hpre
    have htake : s.lines.take n = pre := by
      rw [hpost, hput.lines, hpre, ← hprelen]
      simp
    rw [htake, howed, Nat.zero_add, List.countP_eq_zero]
    simp
  simp only [hcount, EndedEarly, howed, List.any_eq_true]

/-- An error while nothing is owed ends the put it failed once by position and once by name. -/
theorem write_exits_failed :
    ∃ s', write (.table ["put/0"] []) 5 1 [0] twoTurns [⟨.error "lost", 1, 1⟩] = .ok s' ∧
      ∃ size t contract state, [0][0 / 1]? = some size ∧
        (twoTurns 0).mint size = .ok (contract, state) ∧
        ((puts 1 [0] twoTurns).take 0).foldlM (putOne (.table ["put/0"] []) 5)
          { inbox := [⟨.error "lost", 1, 1⟩] } = .ok t ∧
        s'.ledger.exited.count (putLabel (.table ["put/0"] []) 0).ended =
          if (∀ l ∈ s'.lines.take 0, l.acked = true) ∧
              ∃ a ∈ (waitScan 5 contract.id (twoTurns 0) t).passed ++
                (waitScan 5 contract.id (twoTurns 0) t).ended.toList, unnamed a.msg = true
          then 2 else 1 :=
  ⟨_, rfl, write_exits (Labels.table_kinded _ _) rfl (by decide)⟩

end FreenetHarness.XNode.Write
