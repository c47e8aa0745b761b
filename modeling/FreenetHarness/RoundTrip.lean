import FreenetHarness.Lib.Inbox
import FreenetHarness.Lib.Run

/-! # The read-back of `bag`, `register` and `set`

`update` sends a delta, waits for an `UpdateResponse`, and reads the state back with a
get. Every request of a run names the same contract, so an answer does not say which call
it belongs to; `own_iff` says when every state that `update` returns is the answer to that
call's own get. Clock readings are nanoseconds. -/
namespace FreenetHarness.RoundTrip
open FreenetHarness.Lib.Inbox FreenetHarness.Lib.Run

abbrev Bytes := List UInt8

/-- Two seconds. -/
def stepWait : Nat := 2000000000

/-- What a receive hands over. -/
inductive Response (Key : Type) where
  | updateResponse (key : Key)
  | getResponse (key : Key) (state : Bytes)
  | other
  | error (e : String)
  deriving DecidableEq

def Response.isError {Key : Type} : Response Key → Bool
  | .error _ => true
  | _ => false

inductive Request where
  | update
  | get
  deriving DecidableEq

/-- A response, and the request it answers: which call's, and which of its two. -/
structure Answer (Key : Type) where
  call : Nat
  request : Request
  response : Response Key
  deriving DecidableEq

variable {Key : Type}

/-- What one call meets: how its two sends settle, the clock as each wait begins, and the
node's answer to each request, if it ever answers. A state is what answers a get. -/
structure Call (Key : Type) where
  updateSent : Except String Unit
  updateStart : Nat
  updateAnswer : Option (Arrival (Response Key))
  getSent : Except String Unit
  getStart : Nat
  getAnswer : Option (Arrival (Response Key))
  no_state : ∀ a ∈ updateAnswer, ∀ key state, a.msg ≠ .getResponse key state

/-- A response as the answer to a request of the `i`-th call. -/
def answerTo (i : Nat) (request : Request) (a : Arrival (Response Key)) : Arrival (Answer Key) :=
  ⟨⟨i, request, a.msg⟩, a.arrives, a.clock⟩

/-- The inbox once a request is sent: the node answers in order. -/
def offered (i : Nat) (request : Request) (answer : Option (Arrival (Response Key)))
    (inbox : List (Arrival (Answer Key))) : List (Arrival (Answer Key)) :=
  inbox ++ (answer.map (answerTo i request)).toList

/-- Receive until a wanted response, an error or the deadline: the wanted one, and what is
left. Anything else is skipped. -/
def drain (wanted : Response Key → Bool) (deadline : Nat) :
    Nat → List (Arrival (Answer Key)) → Option (Answer Key) × List (Arrival (Answer Key))
  | _, [] => (none, [])
  | now, a :: rest =>
    if now < deadline ∧ a.arrives ≤ deadline then
      if wanted a.msg.response then (some a.msg, rest)
      else if a.msg.response.isError then (none, rest)
      else drain wanted deadline a.clock rest
    else (none, a :: rest)

section Loop

variable [DecidableEq Key] (key : Key)

def isUpdate : Response Key → Bool
  | .updateResponse k => k = key
  | _ => false

def isGet : Response Key → Bool
  | .getResponse k _ => k = key
  | _ => false

/-- What the wait for the update's response leaves unread. -/
def afterUpdate (i : Nat) (c : Call Key) (inbox : List (Arrival (Answer Key))) :
    List (Arrival (Answer Key)) :=
  (drain (isUpdate key) (c.updateStart + stepWait) c.updateStart
    (offered i .update c.updateAnswer inbox)).2

/-- Send a get and take the first state. -/
def getState (i : Nat) (c : Call Key) (inbox : List (Arrival (Answer Key))) :
    Except String (Option (Answer Key) × List (Arrival (Answer Key))) :=
  match c.getSent with
  | .error e => .error e
  | .ok () => .ok (drain (isGet key) (c.getStart + stepWait) c.getStart
      (offered i .get c.getAnswer inbox))

/-- Apply a delta and return the state the node then holds. -/
def update (i : Nat) (c : Call Key) (inbox : List (Arrival (Answer Key))) :
    Except String (Option (Answer Key) × List (Arrival (Answer Key))) :=
  match c.updateSent with
  | .error e => .error e
  | .ok () => getState key i c (afterUpdate key i c inbox)

/-- The calls made, with the answer each took its state from, and what is unread. -/
structure State (Key : Type) where
  results : List (Option (Answer Key)) := []
  inbox : List (Arrival (Answer Key)) := []
  deriving DecidableEq

/-- One call; an error ends the run. -/
def step (s : State Key) (c : Call Key) : Except String (State Key) := do
  let (result, inbox) ← update key s.results.length c s.inbox
  return { results := s.results ++ [result], inbox }

end Loop

/-- A state that a call returns is in the answer to its own get, which the node, answering
in order, gave once it had handled the call's delta. -/
def Own (s : State Key) (_ : Call Key) (s' : State Key) : Prop :=
  ∀ a, s'.results = s.results ++ [some a] → a.call = s.results.length ∧ a.request = .get

/-- What a wait can come to read: what arrives by its deadline, up to an error. -/
def unblocked (deadline : Nat) : Nat → List (Arrival (Answer Key)) → List (Arrival (Answer Key))
  | _, [] => []
  | now, a :: rest =>
    if now < deadline ∧ a.arrives ≤ deadline then
      a :: if a.msg.response.isError then [] else unblocked deadline a.clock rest
    else []

/-- When the wait of a call's get begins, no state is owed to an earlier get that this
wait can come to read. -/
def Fresh [DecidableEq Key] (key : Key) (s : State Key) (c : Call Key) (_ : State Key) : Prop :=
  ∀ a ∈ unblocked (c.getStart + stepWait) c.getStart (afterUpdate key s.results.length c s.inbox),
    isGet key a.msg.response = false

/-! ## One wait -/

section Wait

variable {wanted : Response Key → Bool} {deadline now : Nat} {inbox rest : List (Arrival (Answer Key))}

/-- What a wait leaves was there before. -/
theorem drain_subset (wanted : Response Key → Bool) (deadline now : Nat)
    (inbox : List (Arrival (Answer Key))) : (drain wanted deadline now inbox).2 ⊆ inbox := by
  induction inbox generalizing now with
  | nil => exact List.Subset.refl _
  | cons a rest ih =>
    unfold drain
    split
    · split
      · exact List.subset_cons_self ..
      · split
        · exact List.subset_cons_self ..
        · exact List.subset_cons_of_subset _ (ih a.clock)
    · exact List.Subset.refl _

variable (rest) in
/-- A wanted response that a wait can come to read is what it takes, or one before it. -/
theorem drain_of_unblocked {x : Arrival (Answer Key)} (hx : x ∈ unblocked deadline now inbox)
    (hxw : wanted x.msg.response = true) :
    ∃ y ∈ inbox, (drain wanted deadline now (inbox ++ rest)).1 = some y.msg ∧
      wanted y.msg.response = true := by
  induction inbox generalizing now with
  | nil => cases hx
  | cons a inbox ih =>
    unfold unblocked at hx
    rw [List.cons_append, drain]
    split at hx
    · rename_i hin
      rw [if_pos hin]
      by_cases ha : wanted a.msg.response = true
      · exact ⟨a, by simp, by rw [if_pos ha], ha⟩
      · rw [if_neg ha]
        have htail := (List.mem_cons.mp hx).resolve_left fun heq => ha (heq ▸ hxw)
        split at htail
        · cases htail
        · rename_i herr
          obtain ⟨y, hy, htake⟩ := ih htail
          exact ⟨y, List.mem_cons_of_mem a hy, by rwa [if_neg herr]⟩
    · cases hx

/-- What a wait takes was there. -/
theorem mem_of_drain {a : Answer Key} (h : (drain wanted deadline now inbox).1 = some a) :
    ∃ y ∈ inbox, y.msg = a := by
  induction inbox generalizing now with
  | nil => cases h
  | cons b inbox ih =>
    unfold drain at h
    split at h
    · split at h
      · exact ⟨b, by simp, Option.some.inj h⟩
      · split at h
        · cases h
        · obtain ⟨y, hy, hya⟩ := ih h
          exact ⟨y, List.mem_cons_of_mem b hy, hya⟩
    · cases h

/-- Where it can come to no wanted one, what a wait takes comes after. -/
theorem mem_rest_of_drain
    (hno : ∀ a ∈ unblocked deadline now inbox, wanted a.msg.response = false)
    {a : Answer Key} (h : (drain wanted deadline now (inbox ++ rest)).1 = some a) :
    ∃ y ∈ rest, y.msg = a := by
  induction inbox generalizing now with
  | nil => exact mem_of_drain h
  | cons b inbox ih =>
    unfold unblocked at hno
    rw [List.cons_append, drain] at h
    split at h
    · rename_i hin
      rw [if_pos hin] at hno
      rw [hno b List.mem_cons_self, if_neg Bool.false_ne_true] at h
      split at h
      · cases h
      · rename_i herr
        rw [if_neg herr] at hno
        exact ih (fun y hy => hno y (List.mem_cons_of_mem b hy)) h
    · cases h

end Wait

/-! ## One call -/

section Calls

variable [DecidableEq Key] {key : Key} {s s' : State Key} {c : Call Key}

theorem step_ok (h : step key s c = .ok s') :
    ∃ r : Option (Answer Key) × List (Arrival (Answer Key)),
      r = drain (isGet key) (c.getStart + stepWait) c.getStart
        (afterUpdate key s.results.length c s.inbox ++
          (c.getAnswer.map (answerTo s.results.length .get)).toList) ∧
      s'.results = s.results ++ [r.1] ∧ s'.inbox = r.2 := by
  unfold step at h
  obtain ⟨r, hr, h⟩ := bind_eq_ok.mp h
  cases h
  refine ⟨r, ?_, rfl, rfl⟩
  unfold update at hr
  split at hr
  · cases hr
  · unfold getState at hr
    split at hr
    · cases hr
    · exact (Except.ok.inj hr).symm

/-- What is unread is owed to the calls before the `n`-th. -/
def Earlier (n : Nat) (inbox : List (Arrival (Answer Key))) : Prop :=
  ∀ a ∈ inbox, a.msg.call < n

/-- A state that the update's wait leaves unread is owed to an earlier call. -/
theorem call_lt_of_afterUpdate (h : Earlier s.results.length s.inbox) {a : Arrival (Answer Key)}
    (ha : a ∈ afterUpdate key s.results.length c s.inbox) (hg : isGet key a.msg.response = true) :
    a.msg.call < s.results.length := by
  rcases List.mem_append.mp (drain_subset _ _ _ _ ha) with ha | ha
  · exact h a ha
  · obtain ⟨u, hu, rfl⟩ := Option.map_eq_some_iff.mp (Option.mem_toList.mp ha)
    have hno := c.no_state u hu
    cases hm : u.msg with
    | getResponse k state => exact absurd hm (hno k state)
    | updateResponse k => simp [answerTo, hm, isGet] at hg
    | other => simp [answerTo, hm, isGet] at hg
    | error e => simp [answerTo, hm, isGet] at hg

theorem Earlier.step (h : Earlier s.results.length s.inbox) (hs : step key s c = .ok s') :
    Earlier s'.results.length s'.inbox := by
  obtain ⟨r, hr, hres, hin⟩ := step_ok hs
  intro a ha
  rw [hin, hr] at ha
  rw [hres, List.length_append, List.length_singleton]
  rcases List.mem_append.mp (drain_subset _ _ _ _ ha) with ha | ha
  · rcases List.mem_append.mp (drain_subset _ _ _ _ ha) with ha | ha
    · exact Nat.lt_succ_of_lt (h a ha)
    · obtain ⟨u, -, rfl⟩ := Option.map_eq_some_iff.mp (Option.mem_toList.mp ha)
      exact Nat.lt_succ_self _
  · obtain ⟨g, -, rfl⟩ := Option.map_eq_some_iff.mp (Option.mem_toList.mp ha)
    exact Nat.lt_succ_self _

/-- **Step.** -/
theorem own_iff_fresh (h : Earlier s.results.length s.inbox) (hs : step key s c = .ok s') :
    Own s c s' ↔ Fresh key s c s' := by
  obtain ⟨r, hr, hres, -⟩ := step_ok hs
  constructor
  · intro hown x hx
    by_contra hg
    rw [Bool.not_eq_false] at hg
    obtain ⟨y, hy, htake, hyg⟩ := drain_of_unblocked
      (c.getAnswer.map (answerTo s.results.length .get)).toList hx hg
    have hlt := call_lt_of_afterUpdate h hy hyg
    have hcall := (hown y.msg (by rw [hres, hr, htake])).1
    omega
  · intro hfresh a ha
    rw [hres] at ha
    have htake : r.1 = some a := by simpa using ha
    rw [hr] at htake
    obtain ⟨y, hy, rfl⟩ := mem_rest_of_drain hfresh htake
    obtain ⟨g, -, rfl⟩ := Option.map_eq_some_iff.mp (Option.mem_toList.mp hy)
    exact ⟨rfl, rfl⟩

end Calls

/-- **When every state that `update` returns was read for that same call.** -/
theorem own_iff [DecidableEq Key] (key : Key) (calls : List (Call Key)) :
    AlongM (step key) Own {} calls ↔ AlongM (step key) (Fresh key) {} calls := by
  refine alongM_congr (I := fun s => Earlier s.results.length s.inbox) ?_
    (fun _ _ _ h hs => h.step hs) fun _ _ _ h hs => own_iff_fresh h hs
  intro a ha
  cases ha

/-! ## Answers in time, and late ones -/

/-- Both answers of a call come within their waits, or never. -/
def Prompt (c : Call Key) : Prop :=
  (∀ a ∈ c.updateAnswer, a.arrives ≤ c.updateStart + stepWait) ∧
    ∀ a ∈ c.getAnswer, a.arrives ≤ c.getStart + stepWait

/-- A wait for one answer that comes in time leaves nothing unread. -/
theorem drain_one (wanted : Response Key → Bool) (i start : Nat) (request : Request)
    {answer : Option (Arrival (Response Key))} (h : ∀ a ∈ answer, a.arrives ≤ start + stepWait) :
    (drain wanted (start + stepWait) start (offered i request answer [])).2 = [] := by
  cases answer with
  | none => rfl
  | some a =>
    have hin : start < start + stepWait ∧ (answerTo i request a).arrives ≤ start + stepWait :=
      ⟨Nat.lt_add_of_pos_right (by decide), h a rfl⟩
    show (drain wanted _ _ [answerTo i request a]).2 = []
    unfold drain
    rw [if_pos hin]
    split
    · rfl
    · split <;> rfl

theorem Prompt.step [DecidableEq Key] {key : Key} {s s' : State Key} {c : Call Key} (h : Prompt c)
    (hempty : s.inbox = []) (hs : step key s c = .ok s') : Own s c s' ∧ s'.inbox = [] := by
  have hleft : afterUpdate key s.results.length c s.inbox = [] := by
    rw [hempty]
    exact drain_one _ _ _ _ h.1
  have hearlier : Earlier s.results.length s.inbox := by
    intro a ha
    rw [hempty] at ha
    cases ha
  refine ⟨(own_iff_fresh hearlier hs).mpr fun a ha => ?_, ?_⟩
  · rw [hleft] at ha
    cases ha
  · obtain ⟨r, hr, -, hin⟩ := step_ok hs
    rw [hin, hr, hleft]
    exact drain_one _ _ _ .get h.2

/-- **While every answer comes within its wait, every state is the call's own.** -/
theorem own_of_prompt [DecidableEq Key] (key : Key) {calls : List (Call Key)} {s : State Key}
    (hempty : s.inbox = []) (h : ∀ c ∈ calls, Prompt c) : AlongM (step key) Own s calls := by
  induction calls generalizing s with
  | nil => trivial
  | cons c calls ih =>
    intro s' hs
    obtain ⟨hown, hinbox⟩ := (h c (by simp)).step hempty hs
    exact ⟨hown, ih hinbox fun d hd => h d (List.mem_cons_of_mem c hd)⟩

/-- Call 0 at 0 s is answered at 5 s, a second after both its waits; call 1 follows at
4 s and is answered at 6 s. -/
def lateThenNext : List (Call Nat) :=
  [{ updateSent := .ok (), updateStart := 0,
     updateAnswer := some ⟨.updateResponse 7, 5000000000, 5000000000⟩,
     getSent := .ok (), getStart := 2000000000,
     getAnswer := some ⟨.getResponse 7 [1], 5000000000, 5000000000⟩,
     no_state := by simp },
   { updateSent := .ok (), updateStart := 4000000000,
     updateAnswer := some ⟨.updateResponse 7, 6000000000, 6000000000⟩,
     getSent := .ok (), getStart := 5000000000,
     getAnswer := some ⟨.getResponse 7 [1, 2], 6000000000, 6000000000⟩,
     no_state := by simp }]

/-- Call 1 stops waiting at the first call's `UpdateResponse`, and returns the state that
the first call's get was answered with, without its own delta. -/
theorem stale_state_returned :
    (lateThenNext.foldlM (step 7) {}).map State.results =
        .ok [none, some ⟨0, .get, .getResponse 7 [1]⟩] ∧
      ¬ AlongM (step 7) Own {} lateThenNext := by
  refine ⟨by decide +kernel, fun h => ?_⟩
  obtain ⟨-, h⟩ := h _ rfl
  obtain ⟨hown, -⟩ := h _ rfl
  exact absurd (hown _ rfl).1 (by decide)

end FreenetHarness.RoundTrip
