import Mathlib.Data.List.TakeWhile

/-! # A connection read under a deadline

Messages wait on a connection in the order they came. A reader looks at its clock,
takes the next message if that is there by the deadline, and looks at its clock again
once it has dealt with it. `readable` is what can be read so; `scan` is the loop that
reads until a message ends it, and it is `readable` cut at the first such message.
`gather` is the loop that reads until its state is full: it folds its step over the
shortest beginning of `readable` that fills it. -/
namespace FreenetHarness.Lib.Inbox

/-- A message, the instant it comes, and the reader's clock once it is dealt with. -/
structure Arrival (M : Type*) where
  msg : M
  arrives : Nat
  clock : Nat
  deriving DecidableEq

variable {M : Type*}

/-- The messages a reader that starts at `now` can read by the deadline. -/
def readable (deadline : Nat) : Nat → List (Arrival M) → List (Arrival M)
  | _, [] => []
  | now, a :: rest =>
    if now ≤ deadline ∧ a.arrives ≤ deadline then a :: readable deadline a.clock rest else []

/-- What a loop read without ending, the message that ended it, and what it left. -/
structure Scan (M : Type*) where
  passed : List (Arrival M)
  ended : Option (Arrival M)
  rest : List (Arrival M)

def scan (ends : M → Bool) (deadline : Nat) : Nat → List (Arrival M) → Scan M
  | _, [] => ⟨[], none, []⟩
  | now, a :: rest =>
    if now ≤ deadline ∧ a.arrives ≤ deadline then
      if ends a.msg then ⟨[], some a, rest⟩
      else
        let s := scan ends deadline a.clock rest
        { s with passed := a :: s.passed }
    else ⟨[], none, a :: rest⟩

variable {ends : M → Bool} {deadline now : Nat} {inbox : List (Arrival M)} {a : Arrival M}

theorem arrives_le_of_mem_readable (h : a ∈ readable deadline now inbox) :
    a.arrives ≤ deadline := by
  induction inbox generalizing now with
  | nil => cases h
  | cons b rest ih =>
    unfold readable at h
    split at h
    · rename_i hin
      rcases List.mem_cons.mp h with rfl | h
      · exact hin.2
      · exact ih h
    · cases h

/-- The loop takes messages off the front. -/
theorem scan_append (ends : M → Bool) (deadline now : Nat) (inbox : List (Arrival M)) :
    (scan ends deadline now inbox).passed ++ (scan ends deadline now inbox).ended.toList ++
      (scan ends deadline now inbox).rest = inbox := by
  induction inbox generalizing now with
  | nil => rfl
  | cons a rest ih =>
    unfold scan
    split
    · split
      · rfl
      · simpa using ih a.clock
    · rfl

/-- **The loop stops at the first message that ends it.** -/
theorem scan_ended (ends : M → Bool) (deadline now : Nat) (inbox : List (Arrival M)) :
    (scan ends deadline now inbox).ended =
      (readable deadline now inbox).find? fun a => ends a.msg := by
  induction inbox generalizing now with
  | nil => rfl
  | cons a rest ih =>
    unfold scan readable
    split
    · rw [List.find?_cons]
      cases he : ends a.msg with
      | true => rfl
      | false => simpa using ih a.clock
    · rfl

/-- What it passes is what can be read before that message. -/
theorem scan_passed (ends : M → Bool) (deadline now : Nat) (inbox : List (Arrival M)) :
    (scan ends deadline now inbox).passed =
      (readable deadline now inbox).takeWhile fun a => !ends a.msg := by
  induction inbox generalizing now with
  | nil => rfl
  | cons a rest ih =>
    unfold scan readable
    split
    · rw [List.takeWhile_cons]
      cases he : ends a.msg with
      | true => rfl
      | false => simpa using ih a.clock
    · rfl

theorem of_scan_ended (h : (scan ends deadline now inbox).ended = some a) :
    ends a.msg = true ∧ a.arrives ≤ deadline := by
  rw [scan_ended] at h
  have he := List.find?_some (p := fun a : Arrival M => ends a.msg) h
  exact ⟨he, arrives_le_of_mem_readable (List.mem_of_find?_eq_some h)⟩

/-! ## Reading what is already there -/

/-- The messages a reader that never waits finds, up to the first that ends the loop, which
it takes as well, and those it leaves. -/
def takeReady (ends : M → Bool) : Nat → List (Arrival M) → List (Arrival M) × List (Arrival M)
  | _, [] => ([], [])
  | now, a :: rest =>
    if a.arrives ≤ now then
      if ends a.msg then ([a], rest)
      else (a :: (takeReady ends a.clock rest).1, (takeReady ends a.clock rest).2)
    else ([], a :: rest)

theorem takeReady_pass {rest : List (Arrival M)} (hnow : a.arrives ≤ now) (he : ends a.msg = false) :
    takeReady ends now (a :: rest) =
      (a :: (takeReady ends a.clock rest).1, (takeReady ends a.clock rest).2) := by
  rw [takeReady, if_pos hnow, if_neg (by simp [he])]

theorem takeReady_append (ends : M → Bool) (now : Nat) (inbox : List (Arrival M)) :
    (takeReady ends now inbox).1 ++ (takeReady ends now inbox).2 = inbox := by
  induction inbox generalizing now with
  | nil => rfl
  | cons a rest ih =>
    unfold takeReady
    split
    · split
      · rfl
      · exact congrArg (a :: ·) (ih a.clock)
    · rfl

/-! ## Reading until a state is full -/

section Gather

variable {σ α : Type*} (full : σ → Bool) (step : σ → Arrival M → σ)

def gather (deadline : Nat) : σ → Nat → List (Arrival M) → σ
  | s, _, [] => s
  | s, now, a :: rest =>
    if full s then s
    else if now ≤ deadline ∧ a.arrives ≤ deadline then gather deadline (step s a) a.clock rest
    else s

/-- The shortest beginning of a list that is `done`, or all of it. -/
def upTo (done : List α → Bool) : List α → List α
  | [] => []
  | a :: l => if done [] then [] else a :: upTo (fun p => done (a :: p)) l

/-- **What the loop read** is the shortest beginning that fills its state. -/
theorem gather_eq (deadline : Nat) (s : σ) (now : Nat) (inbox : List (Arrival M)) :
    gather full step deadline s now inbox =
      (upTo (fun p => full (p.foldl step s)) (readable deadline now inbox)).foldl step s := by
  induction inbox generalizing s now with
  | nil => rfl
  | cons a rest ih =>
    unfold gather readable
    by_cases hin : now ≤ deadline ∧ a.arrives ≤ deadline
    · rw [if_pos hin, if_pos hin]
      by_cases hf : full s = true
      · simp [upTo, hf]
      · simp [upTo, hf, ih]
    · simp [hin, upTo]

variable {done : List α → Bool}

theorem upTo_prefix (done : List α → Bool) (l : List α) : upTo done l <+: l := by
  induction l generalizing done with
  | nil => exact List.prefix_rfl
  | cons a l ih =>
    unfold upTo
    split
    · exact List.nil_prefix
    · exact List.cons_prefix_cons.mpr ⟨rfl, ih _⟩

/-- It is `done`, or there was no more. -/
theorem upTo_done (done : List α → Bool) (l : List α) : done (upTo done l) = true ∨ upTo done l = l := by
  induction l generalizing done with
  | nil => exact .inr rfl
  | cons a l ih =>
    unfold upTo
    split
    · rename_i h
      exact .inl h
    · rcases ih fun p => done (a :: p) with h | h
      · exact .inl h
      · exact .inr (congrArg (a :: ·) h)

/-- No shorter beginning is. -/
theorem not_done_of_upTo {l p : List α} (hp : p <+: upTo done l) (hne : p ≠ upTo done l) :
    done p = false := by
  induction l generalizing done p with
  | nil => exact absurd (List.prefix_nil.mp hp) hne
  | cons a l ih =>
    unfold upTo at hp hne
    split at hp
    · rename_i h
      rw [if_pos h] at hne
      exact absurd (List.prefix_nil.mp hp) hne
    · rename_i h
      rw [if_neg h] at hne
      cases p with
      | nil => simpa using h
      | cons b p =>
        obtain ⟨rfl, hp⟩ := List.cons_prefix_cons.mp hp
        exact @ih (fun p => done (b :: p)) p hp fun he => hne (congrArg (b :: ·) he)

/-- Tests that agree up to a cut agree on the cut. -/
theorem upTo_congr {done' : List α → Bool} {l : List α}
    (h : ∀ p, p <+: upTo done l → done p = done' p) : upTo done l = upTo done' l := by
  induction l generalizing done done' with
  | nil => rfl
  | cons a l ih =>
    have h0 := h [] List.nil_prefix
    unfold upTo at h ⊢
    rw [← h0]
    split
    · rfl
    · rename_i hd
      rw [if_neg hd] at h
      rw [ih fun p hp => h (a :: p) (List.cons_prefix_cons.mpr ⟨rfl, hp⟩)]

end Gather

end FreenetHarness.Lib.Inbox
