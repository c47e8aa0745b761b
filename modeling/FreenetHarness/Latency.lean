import FreenetHarness.Lib.Inbox
import FreenetHarness.Lib.Run
import FreenetHarness.Stats

/-! # `latency`: timing a series of puts over one connection

One connection carries every request of a series, so an answer can come for a put that
was given up on. `Awaiting` tells the awaited answer from the others; `timedPut` waits
for one; `series_sound_iff` says when no put of a series is ended by what belongs to an
earlier one. Clock readings are nanoseconds. -/
namespace FreenetHarness.Latency
open FreenetHarness.Lib.Inbox FreenetHarness.Lib.Run FreenetHarness.Stats

abbrev Bytes := List UInt8

/-- One observation: a latency, or why there is no latency to report. -/
inductive Sample where
  | ms (v : ℚ)
  | failed (e : String)
  deriving DecidableEq

/-- A whole number of seconds. -/
def seconds (n : Nat) : Nat := n * 1000000000

/-- `as_secs`. -/
def asSecs (d : Nat) : Nat := d / 1000000000

def noResponse (wait : Nat) : Sample := .failed s!"no response within {asSecs wait} s"

def nodeError (e : String) : Sample := .failed s!"node error: {e}"

inductive HostResponse (Key : Type) where
  | putResponse (key : Key)
  | getResponse (key : Key) (state : Bytes)
  | other
  deriving DecidableEq

/-- What a receive hands over: a response, or an error and the key of the request it is
about, which the code does not see. -/
inductive Message (Key : Type) where
  | response (r : HostResponse Key)
  | error (e : String) (cause : Option Key)
  deriving DecidableEq

variable {Key : Type}

/-- The put a message belongs to: the one of the key it names, or the one it is about. -/
def Message.owner : Message Key → Option Key
  | .response (.putResponse key) => some key
  | .response _ => none
  | .error _ cause => cause

/-- A message belongs to one of the puts of `earlier`. -/
def Message.OfEarlier (earlier : List Key) (m : Message Key) : Prop :=
  ∃ key ∈ earlier, m.owner = some key

/-- An answer that carries exactly the bytes wanted for the key it names. -/
def Exact (want : Key → Option Bytes) (key : Key) (m : Message Key) : Prop :=
  ∃ state, m = .response (.getResponse key state) ∧ want key = some state

instance [DecidableEq Key] (want : Key → Option Bytes) (key : Key) (m : Message Key) :
    Decidable (Exact want key m) :=
  match m with
  | .response (.getResponse k state) =>
    decidable_of_iff (k = key ∧ want k = some state) (by simp +contextual [Exact])
  | .response (.putResponse _) => isFalse (by simp [Exact])
  | .response .other => isFalse (by simp [Exact])
  | .error _ _ => isFalse (by simp [Exact])

/-! ## Waiting for one key -/

/-- Deciding what one arriving response is. -/
structure Awaiting (Key : Type) where
  want : Key
  /-- Answers to requests this series had already given up on. -/
  stale : Nat := 0

/-- How a wait ended. -/
inductive Ending (Key : Type) where
  | answered (r : HostResponse Key) (clock : Nat)
  | nodeError (e : String)
  | timedOut
  deriving DecidableEq

structure Waited (Key : Type) where
  ending : Ending Key
  stale : Nat
  inbox : List (Arrival (Message Key))

/-- The key of a response, for a series of puts. -/
def putKey : HostResponse Key → Option Key
  | .putResponse key => some key
  | _ => none

/-- The key of a response, for a series of gets. -/
def getKey : HostResponse Key → Option Key
  | .getResponse key _ => some key
  | _ => none

/-- The sample of a put that was sent at `t`. -/
def putSample (wait t : Nat) : Ending Key → Sample
  | .answered _ clock => .ms (msSince t clock)
  | .nodeError e => Latency.nodeError e
  | .timedOut => noResponse wait

/-- The sample of a get: the state is compared. -/
def getSample (wait t : Nat) (want : Bytes) : Ending Key → Sample
  | .answered (.getResponse _ got) clock =>
    if got = want then .ms (msSince t clock)
    else .failed s!"state mismatch: got {got.length} B, expected {want.length} B"
  | .answered _ _ => .failed "a matched GetResponse carries its state"
  | .nodeError e => Latency.nodeError e
  | .timedOut => noResponse wait

/-- What one timed request meets: the clock as it is made, how its send settles, and the
clock at the first look at the connection. -/
structure Request where
  t : Nat
  sent : Except String Unit
  clock : Nat
  deriving DecidableEq

/-- What a timed request gives: its sample, the count it leaves, the messages unread. -/
structure Timed (Key : Type) where
  sample : Sample
  stale : Nat
  inbox : List (Arrival (Message Key))
  deriving DecidableEq

section Wait

variable [DecidableEq Key]

/-- Offer one arrived response; `none` is one that carries no key. -/
def Awaiting.offer (w : Awaiting Key) (arrived : Option Key) : Bool × Awaiting Key :=
  if arrived = some w.want then (true, w) else (false, { w with stale := w.stale + 1 })

/-- The receive loop of a timed request, from one look at the clock. -/
def await (arrived : HostResponse Key → Option Key) (deadline : Nat) :
    Awaiting Key → Nat → List (Arrival (Message Key)) → Waited Key
  | w, _, [] => ⟨.timedOut, w.stale, []⟩
  | w, now, a :: rest =>
    if now ≤ deadline ∧ a.arrives ≤ deadline then
      match a.msg with
      | .error e _ => ⟨.nodeError e, w.stale, rest⟩
      | .response r =>
        match w.offer (arrived r) with
        | (true, w) => ⟨.answered r a.clock, w.stale, rest⟩
        | (false, w) => await arrived deadline w a.clock rest
    else ⟨.timedOut, w.stale, a :: rest⟩

def timed (arrived : HostResponse Key → Option Key) (sample : Ending Key → Sample) (wait : Nat)
    (key : Key) (q : Request) (stale : Nat) (inbox : List (Arrival (Message Key))) :
    Except String (Timed Key) :=
  match q.sent with
  | .error e => .error e
  | .ok () =>
    let r := await arrived (q.t + wait) { want := key } q.clock inbox
    .ok ⟨sample r.ending, stale + r.stale, r.inbox⟩

/-- Put one contract and time the acknowledgement. -/
def timedPut (wait : Nat) (key : Key) (q : Request) (stale : Nat)
    (inbox : List (Arrival (Message Key))) : Except String (Timed Key) :=
  timed putKey (putSample wait q.t) wait key q stale inbox

/-- Get one contract and time the answer. -/
def timedGet (wait : Nat) (key : Key) (want : Bytes) (q : Request) (stale : Nat)
    (inbox : List (Arrival (Message Key))) : Except String (Timed Key) :=
  timed getKey (getSample wait q.t want) wait key q stale inbox

/-- Put an already-built container and wait for its acknowledgement: the messages left. -/
def putContainer (wait : Nat) (key : Key) (q : Request) (inbox : List (Arrival (Message Key))) :
    Except String (List (Arrival (Message Key))) := do
  let r ← timedPut wait key q 0 inbox
  match r.sample with
  | .ms _ => return r.inbox
  | .failed e => throw s!"seed put failed: {e}"

end Wait

/-! ## A series -/

/-- What a series measures. -/
structure SeriesSpec where
  kind : String
  size : Nat
  n : Nat
  /-- When it must stop, whatever it has. -/
  deadline : Option Nat
  wait : Nat

/-- What one pass of the put loop meets: the clock as the budget is checked, the
contract and state that are made, and the request. -/
structure PutPass (Key : Type) where
  checked : Nat
  made : Except String (Key × Bytes)
  request : Request

structure GetPass where
  checked : Nat
  request : Request

/-- Why a loop stops before its last pass. -/
inductive Stop where
  | budget
  | failed (e : String)
  deriving DecidableEq

structure Series (Key : Type) where
  /-- Every contract key this run asked the node to store. -/
  minted : List Key := []
  stateBytes : Nat := 0
  stalePut : Nat := 0
  staleGet : Nat := 0
  put : List Sample := []
  /-- The blocks the node acknowledged. -/
  held : List (Key × Bytes) := []
  get : List Sample := []
  inbox : List (Arrival (Message Key))
  stop : Option Stop := none

def SeriesSpec.over (c : SeriesSpec) (clock : Nat) : Bool := c.deadline.any fun d => d ≤ clock

/-- Every sample of one series must be the same weight. -/
def sameWeight (c : SeriesSpec) (first now nth : Nat) : Except String Unit :=
  if first = now then .ok ()
  else .error (s!"{c.kind} {kib c.size}: sample {nth} encodes to {now} B where the first " ++
    s!"encoded to {first} B — this series is a mixture, not a measurement")

/-- What a pass puts: the budget first, then the weight of what was made. -/
def prepare (c : SeriesSpec) (s : Series Key) (p : PutPass Key) : Except Stop (Key × Bytes) :=
  if c.over p.checked then .error .budget
  else match p.made with
    | .error e => .error (.failed e)
    | .ok (key, state) =>
      if s.stateBytes = 0 then .ok (key, state)
      else match sameWeight c s.stateBytes state.length (s.put.length + 1) with
        | .error e => .error (.failed e)
        | .ok () => .ok (key, state)

section Series

variable [DecidableEq Key]

/-- One pass of the put loop. -/
def putStep (c : SeriesSpec) (s : Series Key) (p : PutPass Key) : Series Key :=
  match s.stop with
  | some _ => s
  | none => match prepare c s p with
    | .error stop => { s with stop := some stop }
    | .ok (key, state) =>
      let s := { s with
        stateBytes := if s.stateBytes = 0 then state.length else s.stateBytes
        minted := s.minted ++ [key] }
      match timedPut c.wait key p.request s.stalePut s.inbox with
      | .error e => { s with stop := some (.failed e) }
      | .ok r => { s with
          stalePut := r.stale
          inbox := r.inbox
          put := s.put ++ [r.sample]
          held := match r.sample with
            | .ms _ => s.held ++ [(key, state)]
            | .failed _ => s.held }

/-- One pass of the get loop, over a block that is held. -/
def getStep (c : SeriesSpec) (s : Series Key) (x : (Key × Bytes) × GetPass) : Series Key :=
  match s.stop with
  | some _ => s
  | none =>
    if c.over x.2.checked then { s with stop := some .budget }
    else match timedGet c.wait x.1.1 x.1.2 x.2.request s.staleGet s.inbox with
      | .error e => { s with stop := some (.failed e) }
      | .ok r => { s with staleGet := r.stale, inbox := r.inbox, get := s.get ++ [r.sample] }

/-- The puts of a series, and the gets of what they left held. -/
def measureSeries (c : SeriesSpec) (s : Series Key) (puts : Nat → PutPass Key)
    (gets : Nat → GetPass) : Except String (Series Key) :=
  let s := after (putStep c) s ((List.range c.n).map puts)
  match s.stop with
  | some (.failed e) => .error e
  | _ =>
    let held := s.held.zip ((List.range s.held.length).map gets)
    let s := after (getStep c) { s with stop := none } held
    match s.stop with
    | some (.failed e) => .error e
    | _ => .ok s

end Series

/-! ## One put -/

/-- How a wait ends at a message, or at none. -/
def ending : Option (Arrival (Message Key)) → Ending Key
  | none => .timedOut
  | some a => match a.msg with
    | .error e _ => .nodeError e
    | .response r => .answered r a.clock

/-- The sample a put was given, from the message that ended it or from none. -/
def SampleOf (wait : Nat) (key : Key) (q : Request) (sample : Sample) :
    Option (Arrival (Message Key)) → Prop
  | none => sample = noResponse wait
  | some a => a.arrives ≤ q.t + wait ∧
      (a.msg = .response (.putResponse key) ∧ sample = .ms (msSince q.t a.clock) ∨
        ∃ e cause, a.msg = .error e cause ∧ sample = nodeError e)

/-- A put is timed soundly: what it read is what it discarded, and what ended it if
something did; the discarded ones are counted; a latency is that of its own answer; and
what ended it does not belong to an earlier put. -/
def Sound (earlier : List Key) (wait : Nat) (key : Key) (q : Request) (stale : Nat)
    (inbox : List (Arrival (Message Key))) (r : Timed Key) : Prop :=
  ∃ discarded ended, inbox = discarded ++ ended.toList ++ r.inbox ∧
    r.stale = stale + discarded.length ∧ SampleOf wait key q r.sample ended ∧
    (∀ v, r.sample = .ms v →
      ∃ a, ended = some a ∧ a.msg = .response (.putResponse key) ∧ a.arrives ≤ q.t + wait) ∧
    ∀ a, ended = some a → ¬ a.msg.OfEarlier earlier

theorem SampleOf.of_ms {wait : Nat} {key : Key} {q : Request} {v : ℚ}
    {ended : Option (Arrival (Message Key))} (h : SampleOf wait key q (.ms v) ended) :
    ∃ a, ended = some a ∧ a.msg = .response (.putResponse key) ∧ a.arrives ≤ q.t + wait := by
  cases ended with
  | none => cases h
  | some a =>
    obtain ⟨ha, ⟨hm, -⟩ | ⟨e, cause, -, he⟩⟩ := h
    · exact ⟨a, rfl, hm, ha⟩
    · cases he

theorem putKey_eq_some {r : HostResponse Key} {key : Key} (h : putKey r = some key) :
    r = .putResponse key := by
  cases r with
  | putResponse k => rw [Option.some.inj h]
  | getResponse k state => cases h
  | other => cases h

/-- What a request read and left says which message ended it, given how many it discarded. -/
theorem ended_unique {xs ys rest : List (Arrival (Message Key))}
    {x y : Option (Arrival (Message Key))}
    (h : xs ++ x.toList ++ rest = ys ++ y.toList ++ rest) (hl : xs.length = ys.length) : x = y := by
  have h := (List.append_inj (List.append_cancel_right h) hl).2
  cases x <;> cases y <;> simp_all

/-- The key a pass puts, if it gets to its put. -/
def PutPass.key (p : PutPass Key) : Option Key := p.made.toOption.map Prod.fst

/-- The pass gets to its put, of this key. -/
def Puts (c : SeriesSpec) (s : Series Key) (p : PutPass Key) (key : Key) : Prop :=
  s.stop = none ∧ ∃ state, prepare c s p = .ok (key, state)

theorem prepare_key {c : SeriesSpec} {s : Series Key} {p : PutPass Key} {x : Key × Bytes}
    (h : prepare c s p = .ok x) : p.key = some x.1 := by
  unfold prepare at h
  split at h
  · cases h
  · split at h
    · cases h
    · rename_i key state hm
      have hx : x = (key, state) := by
        split at h
        · cases h; rfl
        · split at h
          · cases h
          · cases h; rfl
      rw [PutPass.key, hm, hx]
      rfl

section OnePut

variable [DecidableEq Key]

/-- The messages that end a wait: an error, or the answer that is awaited. -/
def ends (arrived : HostResponse Key → Option Key) (want : Key) : Message Key → Bool
  | .error _ _ => true
  | .response r => arrived r = some want

/-- Of the messages that can be read by the deadline, the first that is the put's answer
or an error is not an error about an earlier put. -/
def NoEarlierError (earlier : List Key) (wait : Nat) (key : Key) (q : Request)
    (inbox : List (Arrival (Message Key))) : Prop :=
  ∀ a e cause,
    (readable (q.t + wait) q.clock inbox).find? (fun a => ends putKey key a.msg) = some a →
      a.msg = .error e (some cause) → cause ∉ earlier

theorem await_eq (arrived : HostResponse Key → Option Key) (deadline : Nat) (w : Awaiting Key)
    (now : Nat) (inbox : List (Arrival (Message Key))) :
    await arrived deadline w now inbox =
      let s := scan (ends arrived w.want) deadline now inbox
      ⟨ending s.ended, w.stale + s.passed.length, s.rest⟩ := by
  induction inbox generalizing w now with
  | nil => rfl
  | cons a rest ih =>
    unfold await scan
    split
    · cases hm : a.msg with
      | error e cause => simp [ends, ending, hm]
      | response r =>
        by_cases hr : arrived r = some w.want
        · simp [Awaiting.offer, ends, ending, hm, hr]
        · simp only [Awaiting.offer, ends, hr, decide_false, Bool.false_eq_true, if_false, ih,
            List.length_cons]
          simp only [Nat.add_assoc, Nat.add_comm 1]
    · rfl

/-- What a put reads. -/
def putScan (wait : Nat) (key : Key) (q : Request) (inbox : List (Arrival (Message Key))) :
    Scan (Message Key) :=
  scan (ends putKey key) (q.t + wait) q.clock inbox

theorem timedPut_ok {wait stale : Nat} {key : Key} {q : Request}
    {inbox : List (Arrival (Message Key))} {r : Timed Key}
    (h : timedPut wait key q stale inbox = .ok r) :
    r.sample = putSample wait q.t (ending (putScan wait key q inbox).ended) ∧
      r.stale = stale + (putScan wait key q inbox).passed.length ∧
      r.inbox = (putScan wait key q inbox).rest := by
  unfold timedPut timed at h
  split at h
  · cases h
  · rw [await_eq] at h
    cases h
    simp [putScan]

/-- What ends a put is an error or the answer that names its key. -/
theorem ends_putKey {key : Key} {m : Message Key} (h : ends putKey key m = true) :
    m = .response (.putResponse key) ∨ ∃ e cause, m = .error e cause := by
  cases m with
  | error e cause => exact Or.inr ⟨e, cause, rfl⟩
  | response r =>
    have hr : putKey r = some key := by simpa [ends] using h
    exact Or.inl (by rw [putKey_eq_some hr])

theorem sampleOf_ended (wait : Nat) (key : Key) (q : Request)
    (inbox : List (Arrival (Message Key))) :
    SampleOf wait key q (putSample wait q.t (ending (putScan wait key q inbox).ended))
      (putScan wait key q inbox).ended := by
  cases h : (putScan wait key q inbox).ended with
  | none => rfl
  | some a =>
    obtain ⟨he, ha⟩ := of_scan_ended h
    refine ⟨ha, ?_⟩
    rcases ends_putKey he with hm | ⟨e, cause, hm⟩
    · exact Or.inl ⟨hm, by simp [ending, hm, putSample]⟩
    · exact Or.inr ⟨e, cause, hm, by simp [ending, hm, putSample]⟩

/-- **One put.** A put of a new key is timed soundly exactly when the first message that
ends its wait is not an error about an earlier put. -/
theorem sound_iff {earlier : List Key} {wait stale : Nat} {key : Key} {q : Request}
    {inbox : List (Arrival (Message Key))} {r : Timed Key} (hk : key ∉ earlier)
    (h : timedPut wait key q stale inbox = .ok r) :
    Sound earlier wait key q stale inbox r ↔ NoEarlierError earlier wait key q inbox := by
  obtain ⟨hsample, hstale, hrest⟩ := timedPut_ok h
  have happ := scan_append (ends putKey key) (q.t + wait) q.clock inbox
  have hfind : (putScan wait key q inbox).ended = _ :=
    scan_ended (ends putKey key) (q.t + wait) q.clock inbox
  have hs := sampleOf_ended wait key q inbox
  rw [← hsample] at hs
  constructor
  · rintro ⟨discarded, ended, hsplit, hcount, -, -, hown⟩ a e cause ha hm hc
    rw [hrest] at hsplit
    have hended : (putScan wait key q inbox).ended = ended :=
      ended_unique (happ.trans hsplit) (Nat.add_left_cancel (hstale.symm.trans hcount))
    rw [← hfind, hended] at ha
    exact hown a ha ⟨cause, hc, by rw [hm]; rfl⟩
  · intro hclear
    refine ⟨_, _, by rw [hrest]; exact happ.symm, hstale, hs, fun v hv => (hv ▸ hs).of_ms, ?_⟩
    rintro a ha ⟨cause, hc, hm⟩
    rcases ends_putKey (of_scan_ended ha).1 with hr | ⟨e, _, hr⟩
    · rw [hr] at hm
      exact hk (Option.some.inj hm ▸ hc)
    · rw [hr] at hm
      exact hclear a e cause (hfind.symm.trans ha) (by rw [hr]; exact congrArg _ hm) hc

/-! ## Every put of a series -/

/-- The put of a pass, if it makes one that returns, is timed soundly. -/
def SoundPass (c : SeriesSpec) (s : Series Key) (p : PutPass Key) : Prop :=
  ∀ key r, Puts c s p key → timedPut c.wait key p.request s.stalePut s.inbox = .ok r →
    Sound s.minted c.wait key p.request s.stalePut s.inbox r

/-- The put of a pass, if it is sent, is not reached by an error about an earlier put. -/
def ClearPass (c : SeriesSpec) (s : Series Key) (p : PutPass Key) : Prop :=
  ∀ key, Puts c s p key → p.request.sent = .ok () →
    NoEarlierError s.minted c.wait key p.request s.inbox

/-- A pass mints its own key at most. -/
theorem putStep_minted (c : SeriesSpec) (s : Series Key) (p : PutPass Key) :
    (putStep c s p).minted = s.minted ∨
      ∃ key, p.key = some key ∧ (putStep c s p).minted = s.minted ++ [key] := by
  unfold putStep
  split
  · exact Or.inl rfl
  · split
    · exact Or.inl rfl
    · rename_i key state hp
      refine Or.inr ⟨key, prepare_key hp, ?_⟩
      dsimp only
      cases timedPut c.wait key p.request s.stalePut s.inbox <;> rfl

/-- With distinct keys, a series puts only keys it has not put before. -/
theorem along_new (c : SeriesSpec) {s : Series Key} {ps : List (PutPass Key)}
    (hd : (s.minted ++ ps.filterMap PutPass.key).Nodup) :
    Along (putStep c) (fun s p => ∀ key, Puts c s p key → key ∉ s.minted) s ps := by
  induction ps generalizing s with
  | nil => trivial
  | cons p ps ih =>
    constructor
    · rintro key ⟨-, state, hp⟩ hm
      have hk : key ∈ (p :: ps).filterMap PutPass.key :=
        List.mem_filterMap.mpr ⟨p, by simp, prepare_key hp⟩
      exact List.disjoint_of_nodup_append hd hm hk
    · apply ih
      cases hk : p.key with
      | none =>
        rw [List.filterMap_cons_none hk] at hd
        rcases putStep_minted c s p with h | ⟨key, hkey, -⟩
        · rwa [h]
        · rw [hk] at hkey
          cases hkey
      | some key =>
        rw [List.filterMap_cons_some hk] at hd
        rcases putStep_minted c s p with h | ⟨key', hkey, h⟩
        · rw [h]
          exact hd.sublist ((List.sublist_cons_self _ _).append_left _)
        · rw [hk] at hkey
          cases hkey
          rwa [h, List.append_assoc, List.singleton_append]

/-- **A series.** In a series of puts of distinct keys, every put is timed soundly exactly
when no put is reached by an error about an earlier one. -/
theorem series_sound_iff (c : SeriesSpec) {s : Series Key} {ps : List (PutPass Key)}
    (hd : (s.minted ++ ps.filterMap PutPass.key).Nodup) :
    Along (putStep c) (SoundPass c) s ps ↔ Along (putStep c) (ClearPass c) s ps := by
  refine (along_new c hd).congr_of fun s p _ hnew => ?_
  constructor
  · intro h key hp hsent
    obtain ⟨r, hr⟩ : ∃ r, timedPut c.wait key p.request s.stalePut s.inbox = .ok r := by
      simp [timedPut, timed, hsent]
    exact (sound_iff (hnew key hp) hr).mp (h key r hp hr)
  · intro h key r hp hr
    have hsent : p.request.sent = .ok () := by
      unfold timedPut timed at hr
      split at hr
      · cases hr
      · assumption
    exact (sound_iff (hnew key hp) hr).mpr (h key hp hsent)

end OnePut

/-! ## Two puts, the first given up on -/

def twoPuts : SeriesSpec :=
  { kind := "Block", size := 1024, n := 2, deadline := none, wait := seconds 90 }

/-- Put 1 at 0 s, put 2 at 90 s. -/
def putPasses : List (PutPass Nat) :=
  [{ checked := 0, made := .ok (1, [0]), request := ⟨0, .ok (), 0⟩ },
    { checked := seconds 90, made := .ok (2, [0]), request := ⟨seconds 90, .ok (), seconds 90⟩ }]

/-- A message about put 1 at 91 s, the answer to put 2 at 92 s. -/
def lateThenOwn (late : Message Nat) : Series Nat :=
  { inbox := [⟨late, seconds 91, seconds 91⟩,
      ⟨.response (.putResponse 2), seconds 92, seconds 92⟩] }

/-- The late message is the acknowledgement of put 1: put 2 keeps its sample. -/
theorem late_acknowledgement_sound :
    Along (putStep twoPuts) (SoundPass twoPuts)
      (lateThenOwn (.response (.putResponse 1))) putPasses := by
  refine (series_sound_iff twoPuts (by decide)).mpr ⟨?_, ?_, trivial⟩
  · rintro key ⟨-, state, hp⟩ - a e cause ha hm
    cases hp
    cases ha
  · rintro key ⟨-, state, hp⟩ - a e cause ha hm
    cases hp
    cases ha
    cases hm

/-- The late message is the node's error about put 1: it is recorded as the error of put 2,
and the answer to put 2 is left unread. -/
theorem late_error_fails_next_put :
    (after (putStep twoPuts) (lateThenOwn (.error "put failed" (some 1))) putPasses).put =
        [.failed "no response within 90 s", .failed "node error: put failed"] ∧
      ¬ Along (putStep twoPuts) (SoundPass twoPuts)
        (lateThenOwn (.error "put failed" (some 1))) putPasses := by
  refine ⟨by decide +kernel, ?_⟩
  rintro ⟨-, h, -⟩
  have hsound := h 2 _ ⟨rfl, [0], rfl⟩ rfl
  have hclear := (sound_iff (by decide) rfl).mp hsound
  exact hclear _ "put failed" 1 rfl rfl (by decide)

end FreenetHarness.Latency
