import Mathlib.Data.List.Nodup
import Mathlib.Data.List.Induction
import Mathlib.Data.List.Perm.Subperm
import FreenetHarness.Probe.Calls

/-! # Spans and how they end

A span is an `Enter` and the `Exit` that ends it, and `response`, `answered` and
`finish` can each be what comes after the `Enter`. Here: which runs leave no span open
although everything was answered (`spans_closed_iff`), and which end none twice
(`one_exit_iff`). -/
namespace FreenetHarness.Probe
open FreenetHarness.Lib.Run FreenetHarness.Lib

/-- The number `response` and `finish` end an operation under. -/
def Label.ended (id : Label) : OpId := ⟨id.ordinal⟩

def Event.enters : Event → Option OpId
  | .enter _ op => some op
  | _ => none

def Event.exits : Event → Option OpId
  | .exit _ op _ => some op
  | _ => none

/-- The operations with an `Enter`, once for each. -/
def Ledger.entered (l : Ledger) : List OpId := l.events.filterMap Event.enters

/-- The operations with an `Exit`, once for each. -/
def Ledger.exited (l : Ledger) : List OpId := l.events.filterMap Event.exits

/-- What the ledger relies on from the label table: a label says of which kind it is. -/
structure Labels.Kinded (L : Labels) : Prop where
  kind : ∀ k s, (L.label k s).kind = k

theorem Labels.table_kinded (requests keys : List String) : (table requests keys).Kinded :=
  ⟨fun _ _ => rfl⟩

namespace Call

/-- A call that neither begins nor ends an operation by its key. -/
def positional : Call → Bool
  | .requestKeyed _ _ => false
  | .answered _ => false
  | _ => true

/-- A request under this key. -/
def asksFor (key : String) : Call → Bool
  | .requestKeyed _ k => k == key
  | _ => false

/-- An answer that names this key. -/
def isAnswered (key : String) : Call → Bool
  | .answered k => k == key
  | _ => false

def isFinish : Call → Bool
  | .finish _ _ => true
  | _ => false

end Call

/-! ## One call -/

variable {L : Labels}

theorem call_entered (l : Ledger) (c : Call) :
    (l.call L c).entered = l.entered ++ (l.emits L c).filterMap Event.enters := by
  rw [Ledger.entered, Ledger.call_events, List.filterMap_append]
  rfl

theorem call_exited (l : Ledger) (c : Call) :
    (l.call L c).exited = l.exited ++ (l.emits L c).filterMap Event.exits := by
  rw [Ledger.exited, Ledger.call_events, List.filterMap_append]
  rfl

/-- Only the two kinds of request enter an operation. -/
theorem emits_enters (l : Ledger) {c : Call} (hc : c.isRequestKeyed = false) :
    (l.emits L c).filterMap Event.enters = (l.begun L c).toList.map Label.ended := by
  cases c with
  | request what => simp [List.filterMap_cons, Event.enters, Ledger.begun, Label.ended]
  | requestKeyed what key => cases hc
  | offered id n =>
    by_cases h : 0 < n <;> simp [List.filterMap_cons, Event.enters, Ledger.begun, h]
  | receivedBytes id n =>
    by_cases h : 0 < n <;> simp [List.filterMap_cons, Event.enters, Ledger.begun, h]
  | answered key => simp [List.filterMap_cons, Event.enters, Ledger.begun]
  | response =>
    by_cases h : 0 < l.owed
    · simp [Ledger.emits_response_owed L l h, List.filterMap_cons, Event.enters, Ledger.begun]
    · rw [Ledger.emits_response L l h]
      cases l.opened <;> simp [List.filterMap_cons, Event.enters, Ledger.begun]
  | finish id outcome =>
    cases h : Ledger.owes outcome <;> simp [List.filterMap_cons, Event.enters, Ledger.begun, h]

/-- What a call ends: an answer by position the oldest open entry while nothing is owed,
the caller what it names, and any other call nothing. -/
def Ledger.ends (l : Ledger) : Call → List Label
  | .response => if 0 < l.owed then [] else l.opened.head?.toList
  | .finish id _ => [id]
  | _ => []

theorem emits_exits (l : Ledger) (c : Call) :
    (l.emits L c).filterMap Event.exits = (l.ends c).map Label.ended := by
  cases c with
  | request what => simp [List.filterMap_cons, Event.exits, Ledger.ends]
  | requestKeyed what key => simp [List.filterMap_cons, Event.exits, Ledger.ends]
  | offered id n =>
    by_cases h : 0 < n <;> simp [List.filterMap_cons, Event.exits, Ledger.ends, h]
  | receivedBytes id n =>
    by_cases h : 0 < n <;> simp [List.filterMap_cons, Event.exits, Ledger.ends, h]
  | answered key => simp [List.filterMap_cons, Event.exits, Ledger.ends]
  | response =>
    by_cases h : 0 < l.owed
    · simp [Ledger.emits_response_owed L l h, List.filterMap_cons, Event.exits, Ledger.ends, h]
    · rw [Ledger.emits_response L l h]
      cases ho : l.opened <;>
        simp [List.filterMap_cons, Event.exits, Ledger.ends, Label.ended, h, ho]
  | finish id outcome =>
    cases h : Ledger.owes outcome <;>
      simp [List.filterMap_cons, Event.exits, Ledger.ends, Label.ended, h]

/-- What a call ends leaves the open list. -/
theorem ends_append_opened (l : Ledger) {c : Call} (hc : c.positional = true)
    (ho : ∀ id outcome, c = .finish id outcome → id ∈ l.opened) :
    (l.ends c ++ l.opened.eraseIdx (l.empties L c)).Perm l.opened := by
  cases c with
  | request what => simp [Ledger.ends, Ledger.empties, List.eraseIdx_of_length_le]
  | requestKeyed what key => cases hc
  | offered id n => simp [Ledger.ends, Ledger.empties, List.eraseIdx_of_length_le]
  | receivedBytes id n => simp [Ledger.ends, Ledger.empties, List.eraseIdx_of_length_le]
  | answered key => cases hc
  | response =>
    by_cases h : 0 < l.owed
    · simp [Ledger.ends, Ledger.empties, h, List.eraseIdx_of_length_le]
    · cases hopen : l.opened <;> simp [Ledger.ends, Ledger.empties, h, hopen]
  | finish id outcome =>
    rw [Ledger.ends, Ledger.empties, List.eraseIdx_idxOf_eq_erase]
    exact (List.perm_cons_erase (ho id outcome rfl)).symm

namespace Books

/-- Every operation begun is either still open or has one `Exit`. -/
def Balanced (b : Books) : Prop :=
  (b.ledger.exited ++ b.ledger.opened.map Label.ended).Perm (b.given.map Label.ended)

theorem balanced_nil : ({} : Books).Balanced := List.Perm.refl _

/-- **Step.** -/
theorem Balanced.step {b : Books} (h : b.Balanced) {c : Call} (hc : c.positional = true)
    (ho : ∀ id outcome, c = .finish id outcome → id ∈ b.ledger.opened) :
    (b.step L c).Balanced := by
  have hends := (ends_append_opened (L := L) b.ledger hc ho).map Label.ended
  rw [List.map_append] at hends
  show ((b.ledger.call L c).exited ++ (b.ledger.call L c).opened.map _).Perm
    ((b.given ++ (b.ledger.begun L c).toList).map _)
  rw [call_exited, emits_exits, Ledger.call_opened, List.map_append, List.map_append,
    List.append_assoc, ← List.append_assoc (List.map _ _), ← List.append_assoc]
  exact ((hends.append_left b.ledger.exited).trans h).append_right _

/-- What was entered is what was begun, while no request goes out under its key. -/
theorem entered_run {calls : List Call} (hc : ∀ c ∈ calls, c.isRequestKeyed = false) :
    (run L calls).ledger.entered = (run L calls).given.map Label.ended := by
  refine after_invariant (I := fun b : Books => b.ledger.entered = b.given.map Label.ended) calls
    rfl fun b c hmem h => ?_
  show (b.ledger.call L c).entered = (b.given ++ _).map _
  rw [call_entered, emits_enters b.ledger (hc c hmem), h, List.map_append]

/-! ## Everything answered -/

/-- Everything asked is answered, and nothing before it was asked. -/
structure Settled (asks answers : Call → Bool) (calls : List Call) : Prop where
  along : ∀ pre, pre <+: calls → pre.countP answers ≤ pre.countP asks
  all : calls.countP answers = calls.countP asks

theorem settled_iff {asks answers : Call → Bool} {calls : List Call} :
    Settled asks answers calls ↔
      (∀ pre ∈ calls.inits, pre.countP answers ≤ pre.countP asks) ∧
        calls.countP answers = calls.countP asks := by
  simp only [List.mem_inits]
  exact ⟨fun h => ⟨h.along, h.all⟩, fun h => ⟨h.1, h.2⟩⟩

/-- Every operation receives its answer, one begun by position through `response` and one
begun under a key through `answered`, and the caller finishes none. -/
structure Healthy (calls : List Call) : Prop where
  positional : Settled Call.isRequest Call.isResponse calls
  keyed : ∀ key, Settled (Call.asksFor key) (Call.isAnswered key) calls
  finished : ∀ c ∈ calls, c.isFinish = false

/-- Every `Enter` has an `Exit` of the same operation. -/
def SpansClosed (l : Ledger) : Prop := l.entered.Subperm l.exited

theorem Healthy.positional_calls {calls : List Call} (h : Healthy calls)
    (hk : ∀ c ∈ calls, c.isRequestKeyed = false) : ∀ c ∈ calls, c.positional = true := by
  intro c hc
  cases c with
  | answered key =>
    have hnone : calls.countP (Call.asksFor key) = 0 := by
      refine List.countP_eq_zero.mpr fun d hd => ?_
      have := hk d hd
      cases d <;> simp_all [Call.asksFor, Call.isRequestKeyed]
    have := List.countP_eq_zero.mp ((h.keyed key).all.trans hnone) _ hc
    simp [Call.isAnswered] at this
  | requestKeyed what key => cases hk _ hc
  | request what => rfl
  | offered id n => rfl
  | receivedBytes id n => rfl
  | response => rfl
  | finish id outcome => rfl

/-- With nothing given up, the open list is as long as the answers are behind. -/
theorem opened_length {calls : List Call} (hpos : ∀ c ∈ calls, c.positional = true)
    (hfin : ∀ c ∈ calls, c.isFinish = false)
    (halong : ∀ pre, pre <+: calls → pre.countP Call.isResponse ≤ pre.countP Call.isRequest) :
    (run L calls).ledger.owed = 0 ∧
      (run L calls).ledger.opened.length + calls.countP Call.isResponse =
        calls.countP Call.isRequest := by
  induction calls using List.reverseRecOn with
  | nil => exact ⟨rfl, rfl⟩
  | append_singleton calls c ih =>
    obtain ⟨howed, hlen⟩ := ih (fun d hd => hpos d (List.mem_append_left _ hd))
      (fun d hd => hfin d (List.mem_append_left _ hd))
      fun pre hp => halong pre (hp.trans (List.prefix_append ..))
    have hroom := halong _ List.prefix_rfl
    have hp := hpos c (by simp)
    have hf := hfin c (by simp)
    rw [run_concat]
    rw [List.countP_append, List.countP_append, List.countP_singleton, List.countP_singleton]
      at hroom ⊢
    show ((run L calls).ledger.call L c).owed = 0 ∧
      ((run L calls).ledger.call L c).opened.length + _ = _
    rw [(Ledger.call_counts L _ c).2, Ledger.call_opened, howed]
    cases c with
    | request what =>
      simp [Call.abandons, Call.isRequest, Call.isResponse, Ledger.empties, Ledger.begun,
        List.eraseIdx_of_length_le]
      omega
    | offered id n =>
      simp [Call.abandons, Call.isRequest, Call.isResponse, Ledger.empties, Ledger.begun,
        List.eraseIdx_of_length_le, hlen]
    | receivedBytes id n =>
      simp [Call.abandons, Call.isRequest, Call.isResponse, Ledger.empties, Ledger.begun,
        List.eraseIdx_of_length_le, hlen]
    | response =>
      simp [Call.abandons, Call.isRequest, Call.isResponse, Ledger.empties, Ledger.begun,
        howed] at hroom ⊢
      omega
    | requestKeyed what key => cases hp
    | answered key => cases hp
    | finish id outcome => cases hf

/-- At most one `Exit` for each answer by position, while the caller finishes nothing. -/
theorem exited_length_le {calls : List Call} (hfin : ∀ c ∈ calls, c.isFinish = false) :
    (run L calls).ledger.exited.length ≤ calls.countP Call.isResponse := by
  induction calls using List.reverseRecOn with
  | nil => exact le_rfl
  | append_singleton calls c ih =>
    have hle := ih fun d hd => hfin d (List.mem_append_left _ hd)
    have hf := hfin c (by simp)
    rw [run_concat, List.countP_append, List.countP_singleton]
    show ((run L calls).ledger.call L c).exited.length ≤ _
    rw [call_exited, emits_exits, List.length_append, List.length_map]
    cases c with
    | response =>
      simp only [Ledger.ends, Call.isResponse, if_true]
      split
      · exact le_trans hle (Nat.le_succ _)
      · cases (run L calls).ledger.opened <;> simp <;> omega
    | finish id outcome => cases hf
    | request what => exact hle
    | requestKeyed what key => exact hle
    | offered id n => exact hle
    | receivedBytes id n => exact hle
    | answered key => exact hle

theorem entered_length (calls : List Call) :
    (run L calls).ledger.entered.length =
      calls.countP Call.isRequest + calls.countP Call.isRequestKeyed := by
  induction calls using List.reverseRecOn with
  | nil => rfl
  | append_singleton calls c ih =>
    rw [run_concat, List.countP_append, List.countP_append, List.countP_singleton,
      List.countP_singleton]
    show ((run L calls).ledger.call L c).entered.length = _
    rw [call_entered, List.length_append, ih]
    cases hk : c.isRequestKeyed with
    | false =>
      rw [emits_enters _ hk, List.length_map]
      cases c <;> simp_all [Ledger.begun, Call.isRequest, Call.isRequestKeyed]
      omega
    | true =>
      cases c <;> simp_all [Call.isRequest, Call.isRequestKeyed, List.filterMap_cons, Event.enters]
      omega

/-- **Which runs leave no span open although everything was answered.** -/
theorem spans_closed_iff (L : Labels) {calls : List Call} (h : Healthy calls) :
    SpansClosed (run L calls).ledger ↔ ∀ c ∈ calls, c.isRequestKeyed = false := by
  constructor
  · intro hclosed c hc
    have hle := hclosed.length_le
    have hout := exited_length_le (L := L) h.finished
    have hall := h.positional.all
    rw [entered_length] at hle
    have hzero : calls.countP Call.isRequestKeyed = 0 := by omega
    simpa using List.countP_eq_zero.mp hzero c hc
  · intro hk
    have hpos := h.positional_calls hk
    obtain ⟨-, hlen⟩ := opened_length (L := L) hpos h.finished h.positional.along
    have hopen : (run L calls).ledger.opened = [] := by
      rw [h.positional.all] at hlen
      exact List.eq_nil_of_length_eq_zero (by omega)
    have hbal : (run L calls).Balanced :=
      after_invariant calls balanced_nil fun b c hc hb => hb.step (hpos c hc) fun id outcome hfin =>
        absurd (h.finished c hc) (by simp [hfin, Call.isFinish])
    rw [Balanced, hopen, List.map_nil, List.append_nil, ← entered_run hk] at hbal
    exact hbal.symm.subperm

theorem positional_put_closed :
    SpansClosed (run (.table ["put/0"] []) [.request "put", .response]).ledger := by
  refine (spans_closed_iff _ ⟨settled_iff.mpr (by decide), fun key => ?_, by decide⟩).mpr (by decide)
  rw [settled_iff]
  simp [List.inits, Call.isAnswered, Call.asksFor]

/-- A put under its key, and its answer. -/
def keyedPut : List Call := [.requestKeyed "put" "a", .answered "a"]

theorem keyedPut_healthy : Healthy keyedPut where
  positional := settled_iff.mpr (by decide)
  keyed := by
    intro key
    rw [settled_iff]
    cases h : "a" == key <;>
      simp [keyedPut, List.inits, Call.isAnswered, Call.asksFor, h]
  finished := by decide

/-- The answer takes the put off the open list and ends no span. -/
theorem keyedPut_open :
    Healthy keyedPut ∧ (run (.table [] ["a"]) keyedPut).ledger.opened = [] ∧
      ¬ SpansClosed (run (.table [] ["a"]) keyedPut).ledger := by
  refine ⟨keyedPut_healthy, by decide, fun h => ?_⟩
  have hle := h.length_le
  exact absurd hle (by decide)

/-! ## No operation ended twice -/

/-- The caller finishes operations it was handed. -/
def Owns (b : Books) : Call → Prop
  | .finish id _ => id ∈ b.given
  | _ => True

/-- What the caller finishes has not been ended by an answer, nor by the caller. -/
def StillOpen (b : Books) : Call → Prop
  | .finish id _ => id ∈ b.ledger.opened
  | _ => True

/-- What was begun is open or has been ended. -/
def Ended (b : Books) : Prop := ∀ id ∈ b.given, id ∈ b.ledger.opened ∨ id.ended ∈ b.ledger.exited

theorem Ended.step {b : Books} (h : b.Ended) {c : Call} (hc : c.positional = true) :
    (b.step L c).Ended := by
  have hleave : ∀ id ∈ b.ledger.opened,
      id ∈ b.ledger.opened.eraseIdx (b.ledger.empties L c) ∨ id ∈ b.ledger.ends c := by
    intro id hid
    by_cases ho : ∀ id outcome, c = .finish id outcome → id ∈ b.ledger.opened
    · have hmem := (ends_append_opened (L := L) b.ledger hc ho).mem_iff.mpr hid
      exact (List.mem_append.mp hmem).symm
    · push Not at ho
      obtain ⟨id', outcome, rfl, hout⟩ := ho
      rw [Ledger.empties, List.eraseIdx_idxOf_eq_erase, List.erase_of_not_mem hout]
      exact .inl hid
  intro id hid
  show id ∈ (b.ledger.call L c).opened ∨ id.ended ∈ (b.ledger.call L c).exited
  rw [Ledger.call_opened, call_exited, emits_exits, List.mem_append, List.mem_append]
  rcases List.mem_append.mp hid with hid | hid
  · rcases h id hid with hopen | hexit
    · rcases hleave id hopen with hin | hend
      · exact .inl (.inl hin)
      · exact .inr (.inr (List.mem_map_of_mem hend))
    · exact .inr (.inl hexit)
  · exact .inl (.inr hid)

/-- Requests numbered by position end under numbers of their own. -/
theorem Positional.ended_nodup {b : Books} (h : b.Positional L) (hL : L.Kinded) :
    (b.given.map Label.ended).Nodup := by
  have hkind : ∀ id ∈ b.given, id.kind = .request := by
    intro id hid
    obtain ⟨what, n, -, rfl⟩ := h.numbered id hid
    exact hL.kind _ _
  refine h.nodup.map_on fun x hx y hy hxy => ?_
  obtain ⟨kind, ordinal⟩ := x
  obtain ⟨kind', ordinal'⟩ := y
  have h1 : kind = .request := hkind _ hx
  have h2 : kind' = .request := hkind _ hy
  have h3 : ordinal = ordinal' := OpId.mk.inj hxy
  rw [h1, h2, h3]

/-- **When the transport and the caller together end no operation twice.** -/
theorem one_exit_iff {L : Labels} (hL : L.Kinded) {calls : List Call}
    (hpos : ∀ c ∈ calls, c.positional = true) (h : Along (step L) Owns {} calls) :
    (run L calls).ledger.exited.Nodup ↔ Along (step L) StillOpen {} calls := by
  constructor
  · intro hnd
    induction calls using List.reverseRecOn with
    | nil => trivial
    | append_singleton calls c ih =>
      obtain ⟨hown, hc, -⟩ := (along_append ..).mp h
      have hpos' : ∀ d ∈ calls, d.positional = true := fun d hd => hpos d (List.mem_append_left _ hd)
      rw [run_concat] at hnd
      change ((run L calls).ledger.call L c).exited.Nodup at hnd
      rw [call_exited, emits_exits, List.nodup_append] at hnd
      obtain ⟨hbefore, -, hnew⟩ := hnd
      refine (along_append ..).mpr ⟨ih hpos' hown hbefore, ?_, trivial⟩
      cases c with
      | finish id outcome =>
        have hended : (run L calls).Ended :=
          after_invariant (I := Ended) calls (fun _ hid => (List.not_mem_nil hid).elim)
            fun b d hd hb => hb.step (hpos' d hd)
        exact (hended id hc).resolve_right fun hexit => hnew _ hexit id.ended (by simp [Ledger.ends]) rfl
      | request what => trivial
      | requestKeyed what key => trivial
      | offered id n => trivial
      | receivedBytes id n => trivial
      | answered key => trivial
      | response => trivial
  · intro hopen
    obtain ⟨hbal, hp⟩ := hopen.invariant (I := fun b => b.Balanced ∧ b.Positional L)
      ⟨balanced_nil, positional_nil L⟩ fun b c hc hb hs => by
        refine ⟨hb.1.step (hpos c hc) fun id outcome hfin => ?_, hb.2.step ?_⟩
        · subst hfin
          exact hs
        · have := hpos c hc
          cases c <;> first | rfl | cases this
    exact (List.nodup_append.mp (hbal.nodup_iff.mpr (hp.ended_nodup hL))).1

/-- The caller speaks first, and the answer comes after. -/
def missBeforeAnswer : List Call :=
  [.request "get", .finish ⟨.request, 0⟩ .missing, .response]

theorem missBeforeAnswer_once :
    (run (.table ["get/0"] []) missBeforeAnswer).ledger.exited.Nodup := by
  have hmem : (⟨.request, 0⟩ : Label) ∈ (run (.table ["get/0"] []) [.request "get"]).given := by
    decide
  have hopen : (⟨.request, 0⟩ : Label) ∈
      (run (.table ["get/0"] []) [.request "get"]).ledger.opened := by decide
  have hown : Along (step (.table ["get/0"] [])) Owns {} missBeforeAnswer :=
    ⟨trivial, hmem, trivial, trivial⟩
  exact (one_exit_iff (Labels.table_kinded _ _) (by decide) hown).mpr
    ⟨trivial, hopen, trivial, trivial⟩

/-- The answer comes first, and the caller says it carried no state. -/
def missAfterAnswer : List Call :=
  [.request "get", .response, .finish ⟨.request, 0⟩ .missing]

/-- The operation is ended as `Ok` and as `Missing`. -/
theorem missAfterAnswer_twice :
    Along (step (.table ["get/0"] [])) Owns {} missAfterAnswer ∧
      (run (.table ["get/0"] []) missAfterAnswer).ledger.exited = [⟨0⟩, ⟨0⟩] ∧
      ¬ (run (.table ["get/0"] []) missAfterAnswer).ledger.exited.Nodup := by
  have hmem : (⟨.request, 0⟩ : Label) ∈
      (run (.table ["get/0"] []) [.request "get", .response]).given := by decide
  exact ⟨⟨trivial, trivial, hmem, trivial⟩, by decide, by decide⟩

end Books
end FreenetHarness.Probe
