import FreenetHarness.Probe.Calls

/-! # Answers that arrive in request order

`response` pairs an answer with the oldest open request. Here every answer is tagged
with the request it belongs to, and none overtakes a request that still waits: until
the caller gives one up the pairing names that request, and from then on it names
none (`in_order_names`). -/
namespace FreenetHarness.Probe
open FreenetHarness.Lib.Run FreenetHarness.Lib

inductive Turn where
  | request (what : String)
  /-- The answer to the `n`-th request arrives. -/
  | response (n : Nat)
  | finish (id : Label) (outcome : Outcome)
  deriving DecidableEq, Repr

def Turn.call : Turn → Call
  | .request what => .request what
  | .response _ => .response
  | .finish id outcome => .finish id outcome

/-- A ledger with the requests answered and given up so far. -/
structure Talk where
  books : Books := {}
  answered : List Nat := []
  abandoned : List Nat := []
  deriving DecidableEq, Repr

namespace Talk

def step (L : Labels) (t : Talk) (a : Turn) : Talk where
  books := t.books.step L a.call
  answered := match a with
    | .response n => t.answered ++ [n]
    | _ => t.answered
  abandoned := match a with
    | .finish id outcome =>
      if Ledger.owes outcome then t.abandoned ++ [t.books.given.idxOf id] else t.abandoned
    | _ => t.abandoned

/-- An answer belongs to a request not answered yet, and overtakes none that still
waits. The caller gives up a request, or says more about an answered one. -/
def InOrder (t : Talk) : Turn → Prop
  | .request _ => True
  | .response n => n < t.books.given.length ∧ n ∉ t.answered ∧
      ∀ m < n, m ∈ t.answered ∨ m ∈ t.abandoned
  | .finish id outcome => id ∈ t.books.given ∧
      (Ledger.owes outcome = true ∨ t.books.given.idxOf id ∈ t.answered)

instance (t : Talk) : DecidablePred t.InOrder
  | .request _ => inferInstanceAs (Decidable True)
  | .response n => inferInstanceAs (Decidable (n < t.books.given.length ∧ n ∉ t.answered ∧
      ∀ m < n, m ∈ t.answered ∨ m ∈ t.abandoned))
  | .finish id outcome => inferInstanceAs (Decidable (id ∈ t.books.given ∧
      (Ledger.owes outcome = true ∨ t.books.given.idxOf id ∈ t.answered)))

/-- What the ledger records of the answer to the `n`-th request: that request alone,
and nothing about any request once one was given up. -/
structure Records (L : Labels) (t : Talk) (n : Nat) : Prop where
  edge : ∀ site dir id, .edge site dir id ∈ t.books.ledger.emits L .response →
    t.books.given[n]? = some id
  exit : ∀ site op outcome, .exit site op outcome ∈ t.books.ledger.emits L .response →
    ∃ id, t.books.given[n]? = some id ∧ op = ⟨id.ordinal⟩
  own : ∀ m id, t.books.given[n]? = some id → t.books.given[m]? = some id → m = n
  late : t.abandoned ≠ [] →
    (t.books.ledger.response L).opened = t.books.ledger.opened ∧
      t.books.ledger.emits L .response =
        [.counter .recv L.none .received 1, .counter .recv L.none .ambiguous 1]

def Names (L : Labels) (t : Talk) : Turn → Prop
  | .response n => t.Records L n
  | _ => True

/-! ## What is open -/

/-- Until a request is given up, the open list is what is not answered. -/
structure Kept (L : Labels) (t : Talk) : Prop where
  aligned : t.books.Aligned
  positional : t.books.Positional L
  owed : 0 < t.books.ledger.owed ↔ t.abandoned ≠ []
  sent : ∀ n ∈ t.answered, n < t.books.given.length
  waiting : t.abandoned = [] →
    ∀ n, n ∈ t.books.kept ↔ n < t.books.given.length ∧ n ∉ t.answered

theorem kept_nil (L : Labels) : ({} : Talk).Kept L where
  aligned := Books.aligned_nil
  positional := Books.positional_nil L
  owed := by simp
  sent := by simp
  waiting := by simp

/-- The smallest of a sorted list stands at its front. -/
theorem head_of_min {l : List Nat} (hs : l.Pairwise (· < ·)) {n : Nat} (hn : n ∈ l)
    (hmin : ∀ m ∈ l, n ≤ m) : l[0]? = some n := by
  cases l with
  | nil => cases hn
  | cons a l =>
    rcases List.mem_cons.mp hn with rfl | hn
    · rfl
    · have hlt := List.rel_of_pairwise_cons hs hn
      have hle := hmin a (by simp)
      omega

/-- The answer that arrives belongs to the request at the front of the open list. -/
theorem Kept.front {L : Labels} {t : Talk} (h : t.Kept L) {n : Nat}
    (hn : t.InOrder (.response n)) (ha : t.abandoned = []) : t.books.kept[0]? = some n := by
  obtain ⟨hlt, hnot, hearlier⟩ := hn
  refine head_of_min h.aligned.sorted ((h.waiting ha n).mpr ⟨hlt, hnot⟩) fun m hm => ?_
  by_contra hmn
  rcases hearlier m (by omega) with hans | hab
  · exact ((h.waiting ha m).mp hm).2 hans
  · rw [ha] at hab
    cases hab

/-- An operation the caller says more about has left the open list. -/
theorem Kept.closed {L : Labels} {t : Talk} (h : t.Kept L) {id : Label}
    (hans : t.books.given.idxOf id ∈ t.answered) (ha : t.abandoned = []) :
    id ∉ t.books.ledger.opened := by
  intro hid
  obtain ⟨m, hm, hmid⟩ := Tickets.Aligned.exists_ticket h.aligned hid
  obtain ⟨hlt, rfl⟩ := List.getElem?_eq_some_iff.mp hmid
  rw [h.positional.nodup.idxOf_getElem] at hans
  exact ((h.waiting ha m).mp hm).2 hans

theorem Kept.no_owed {L : Labels} {t : Talk} (h : t.Kept L) (ha : t.abandoned = []) :
    ¬ 0 < t.books.ledger.owed := fun ho => h.owed.mp ho ha

/-! ## One turn -/

theorem Kept.request {L : Labels} {t : Talk} (h : t.Kept L) (what : String) :
    (t.step L (.request what)).Kept L where
  aligned := h.aligned.step L _
  positional := h.positional.step rfl
  owed := h.owed
  sent := by
    intro n hn
    have := h.sent n hn
    show n < (t.books.given ++ [_]).length
    rw [List.length_append]
    omega
  waiting := by
    intro ha n
    have hlen : t.books.kept.length = t.books.ledger.opened.length :=
      Tickets.Aligned.length h.aligned
    have hw := h.waiting ha n
    have hnew : t.books.given.length ∉ t.answered := fun hmem =>
      absurd (h.sent _ hmem) (Nat.lt_irrefl _)
    show n ∈ t.books.kept.eraseIdx t.books.ledger.opened.length ++ [t.books.given.length] ↔
      n < (t.books.given ++ [_]).length ∧ n ∉ t.answered
    rw [← hlen, List.eraseIdx_of_length_le le_rfl, List.mem_append, hw, List.mem_singleton,
      List.length_append, List.length_singleton]
    constructor
    · rintro (⟨hlt, hn⟩ | rfl)
      · exact ⟨by omega, hn⟩
      · exact ⟨by omega, hnew⟩
    · intro hm
      obtain ⟨hlt, hn⟩ := hm
      by_cases heq : n = t.books.given.length
      · exact .inr heq
      · exact .inl ⟨by omega, hn⟩

theorem Kept.response {L : Labels} {t : Talk} (h : t.Kept L) {n : Nat}
    (hn : t.InOrder (.response n)) : (t.step L (.response n)).Kept L where
  aligned := h.aligned.step L _
  positional := h.positional.step rfl
  owed := by
    show 0 < (t.books.ledger.call L .response).owed ↔ _
    rw [(Ledger.call_counts L t.books.ledger .response).2]
    exact h.owed
  sent := by
    intro m hm
    show m < (t.books.given ++ []).length
    rw [List.append_nil]
    rcases List.mem_append.mp hm with hm | hm
    · exact h.sent m hm
    · rw [List.mem_singleton.mp hm]
      exact hn.1
  waiting := by
    intro ha m
    have hfront := h.front hn ha
    have hleft : m ∈ t.books.kept ∧ m ∉ t.books.kept.eraseIdx 0 ↔ n = m := by
      rw [Tickets.Aligned.leaves_iff h.aligned, hfront, Option.some.injEq]
    have hsub : m ∈ t.books.kept.eraseIdx 0 → m ∈ t.books.kept := List.mem_of_mem_eraseIdx
    have hw := h.waiting ha m
    have hplace : t.books.ledger.empties L .response = 0 := by
      simp [Ledger.empties, h.no_owed ha]
    show m ∈ t.books.kept.eraseIdx (t.books.ledger.empties L .response) ++ [] ↔
      m < (t.books.given ++ []).length ∧ m ∉ t.answered ++ [n]
    rw [hplace, List.append_nil, List.append_nil, List.mem_append, List.mem_singleton]
    constructor
    · intro hm
      obtain ⟨hlt, hans⟩ := hw.mp (hsub hm)
      refine ⟨hlt, ?_⟩
      rintro (hmem | rfl)
      · exact hans hmem
      · exact (hleft.mpr rfl).2 hm
    · intro hm
      obtain ⟨hlt, hnot⟩ := hm
      rw [not_or] at hnot
      by_contra hm
      exact hnot.2 (hleft.mp ⟨hw.mpr ⟨hlt, hnot.1⟩, hm⟩).symm

theorem Kept.finish {L : Labels} {t : Talk} (h : t.Kept L) {id : Label} {outcome : Outcome}
    (hf : t.InOrder (.finish id outcome)) : (t.step L (.finish id outcome)).Kept L where
  aligned := h.aligned.step L _
  positional := h.positional.step rfl
  owed := by
    show 0 < (t.books.ledger.call L (.finish id outcome)).owed ↔
      (if Ledger.owes outcome then _ else _) ≠ []
    rw [(Ledger.call_counts L t.books.ledger _).2, Call.abandons]
    split
    · simp
    · exact h.owed
  sent := by
    intro n hn
    show n < (t.books.given ++ []).length
    rw [List.append_nil]
    exact h.sent n hn
  waiting := by
    intro ha n
    change (if Ledger.owes outcome then _ else _) = [] at ha
    split at ha
    · simp at ha
    · rename_i ho
      have hans := hf.2.resolve_left ho
      have hlen : t.books.kept.length = t.books.ledger.opened.length :=
        Tickets.Aligned.length h.aligned
      have hplace : t.books.ledger.empties L (.finish id outcome) = t.books.kept.length := by
        rw [hlen]
        exact List.idxOf_eq_length (h.closed hans ha)
      show n ∈ t.books.kept.eraseIdx (t.books.ledger.empties L (.finish id outcome)) ++ [] ↔
        n < (t.books.given ++ []).length ∧ n ∉ t.answered
      rw [hplace, List.eraseIdx_of_length_le le_rfl, List.append_nil, List.append_nil]
      exact h.waiting ha n

/-- **Step.** -/
theorem Kept.step {L : Labels} {t : Talk} (h : t.Kept L) {a : Turn} (ha : t.InOrder a) :
    (t.step L a).Kept L := by
  cases a with
  | request what => exact h.request what
  | response n => exact h.response ha
  | finish id outcome => exact h.finish ha

theorem Kept.names {L : Labels} {t : Talk} (h : t.Kept L) {a : Turn} (ha : t.InOrder a) :
    t.Names L a := by
  cases a with
  | request what => trivial
  | finish id outcome => trivial
  | response n =>
    have hown : ∀ m id, t.books.given[n]? = some id → t.books.given[m]? = some id → m = n :=
      fun m id hn hm => ((List.getElem?_inj (List.getElem?_eq_some_iff.mp hn).1
        h.positional.nodup).mp (hn.trans hm.symm)).symm
    by_cases hab : t.abandoned = []
    · have hfront := Tickets.Aligned.getElem? h.aligned (h.front ha hab)
      have hgiven := List.getElem?_eq_getElem ha.1
      have hem := Ledger.emits_response_front L t.books.ledger (h.no_owed hab)
        (hfront.symm.trans hgiven)
      refine ⟨fun site dir id he => ?_, fun site op outcome he => ?_, hown,
        fun hne => absurd hab hne⟩
      · obtain ⟨-, -, rfl⟩ := by simpa [hem] using he
        exact hgiven
      · obtain ⟨-, rfl, -⟩ := by simpa [hem] using he
        exact ⟨_, hgiven, rfl⟩
    · have hem := Ledger.emits_response_owed L t.books.ledger (h.owed.mpr hab)
      refine ⟨fun site dir id he => ?_, fun site op outcome he => ?_, hown, fun _ => ⟨?_, hem⟩⟩
      · simp [hem] at he
      · simp [hem] at he
      · rw [Ledger.response_opened, if_pos (h.owed.mpr hab)]

end Talk

/-- **In order, an answer is recorded for the request it belongs to, or for none.** -/
theorem in_order_names (L : Labels) (turns : List Turn)
    (h : Along (Talk.step L) Talk.InOrder {} turns) :
    Along (Talk.step L) (Talk.Names L) {} turns :=
  h.imp (Talk.kept_nil L) (fun _ _ _ hk ha => hk.step ha) fun _ _ _ hk ha => hk.names ha

/-- A request given up, another sent, and the first one's answer after that. -/
theorem in_order_names_late :
    Along (Talk.step (.table ["put/0", "put/1"] []))
      (Talk.Names (.table ["put/0", "put/1"] [])) {}
      [.request "put", .finish ⟨.request, 0⟩ .timeout, .request "put", .response 0, .response 1] :=
  in_order_names _ _ ⟨trivial, by decide, trivial, by decide, by decide, trivial⟩

end FreenetHarness.Probe
