import FreenetHarness.Probe.Spans

/-! # Which operation an event is recorded under

An operation has a label, and a number that events carry. The number is taken from the
label in two ways, `OpId(id.ordinal)` and `id.op()`, and labels of both kinds count from
zero. Here: when the two agree on everything a run records (`one_id_iff`). -/
namespace FreenetHarness.Probe
open FreenetHarness.Lib.Run

/-- The label of the operation a call is about. -/
def Ledger.subject (L : Labels) (l : Ledger) : Call → Option Label
  | .request what => some (l.request L what).1
  | .requestKeyed what key => some (l.requestKeyed L what key).1
  | .offered id _ => some id
  | .receivedBytes id _ => some id
  | .finish id _ => some id
  | _ => none

namespace Books

/-- What a call records for an operation. -/
def notes (L : Labels) (b : Books) (c : Call) : List (Label × Event) :=
  (b.ledger.subject L c).toList.flatMap fun id => (b.ledger.emits L c).map fun e => (id, e)

/-- What the calls of a run record, each event with the operation it is for. -/
def noted (L : Labels) (b : Books) : List Call → List (Label × Event)
  | [] => []
  | c :: cs => b.notes L c ++ noted L (b.step L c) cs

/-- One number for each operation: its `Exit` and its bytes carry the number of its
`Enter`, and no other operation is entered under that number. -/
structure OneId (ns : List (Label × Event)) : Prop where
  exit : ∀ id site site' op op' outcome, (id, .enter site op) ∈ ns →
    (id, .exit site' op' outcome) ∈ ns → op' = op
  bytes : ∀ id site site' op op' key n, (id, .enter site op) ∈ ns →
    (id, .counter site' op' key n) ∈ ns → key = .bytesOut ∨ key = .bytesIn → op' = op
  apart : ∀ id id' site site' op, (id, .enter site op) ∈ ns → (id', .enter site' op) ∈ ns → id = id'

/-- Bytes are recorded for an operation. -/
def Charged (calls : List Call) (id : Label) : Prop :=
  ∃ n, 0 < n ∧ (.offered id n ∈ calls ∨ .receivedBytes id n ∈ calls)

/-- The two numbers of a label are the same wherever a run uses both, and an operation
begun under a key has not the number of one begun by position. -/
structure Agree (L : Labels) (calls : List Call) : Prop where
  finished : ∀ id ∈ (run L calls).given, id.kind = .contract →
    (∃ outcome, .finish id outcome ∈ calls) → L.op id = id.ended
  charged : ∀ id ∈ (run L calls).given, id.kind = .request → Charged calls id → L.op id = id.ended
  apart : ∀ id ∈ (run L calls).given, ∀ id' ∈ (run L calls).given,
    id.kind = .request → id'.kind = .contract → L.op id' ≠ id.ended

/-- The number an operation is entered under. -/
def entryId (L : Labels) (id : Label) : OpId :=
  match id.kind with
  | .request => id.ended
  | .contract => L.op id

/-! ## What one call notes -/

variable {L : Labels} {b : Books} {id : Label}

theorem mem_notes {c : Call} {e : Event} :
    (id, e) ∈ b.notes L c ↔ b.ledger.subject L c = some id ∧ e ∈ b.ledger.emits L c := by
  simp [notes]

theorem notes_enter (hL : L.Kinded) {c : Call} {site : Site} {op : OpId} :
    (id, .enter site op) ∈ b.notes L c ↔
      b.ledger.begun L c = some id ∧ site = .send ∧ op = entryId L id := by
  rw [mem_notes]
  cases c with
  | request what =>
    have hk : (b.ledger.request L what).1.kind = .request := hL.kind _ _
    simp only [Ledger.subject, Ledger.begun, Ledger.emits_request]
    constructor
    · rintro ⟨hid, he⟩
      obtain rfl := Option.some.inj hid
      obtain ⟨rfl, rfl⟩ : site = .send ∧ op = _ := by simpa using he
      exact ⟨rfl, rfl, by simp only [entryId, hk, Label.ended]⟩
    · rintro ⟨hid, rfl, rfl⟩
      obtain rfl := Option.some.inj hid
      exact ⟨rfl, by simp [entryId, hk, Label.ended]⟩
  | requestKeyed what key =>
    have hk : (L.label .contract key).kind = .contract := hL.kind _ _
    simp only [Ledger.subject, Ledger.begun, Ledger.requestKeyed, Ledger.emits_requestKeyed]
    constructor
    · rintro ⟨hid, he⟩
      obtain rfl := Option.some.inj hid
      obtain ⟨rfl, rfl⟩ : site = .send ∧ op = _ := by simpa using he
      exact ⟨rfl, rfl, by simp only [entryId, hk]⟩
    · rintro ⟨hid, rfl, rfl⟩
      obtain rfl := Option.some.inj hid
      exact ⟨rfl, by simp [entryId, hk]⟩
  | offered id' n => by_cases h : 0 < n <;> simp [Ledger.begun, h]
  | receivedBytes id' n => by_cases h : 0 < n <;> simp [Ledger.begun, h]
  | answered key => simp [Ledger.begun]
  | response => simp [Ledger.subject, Ledger.begun]
  | finish id' outcome => cases h : Ledger.owes outcome <;> simp [Ledger.begun, h]

theorem notes_exit {c : Call} {site : Site} {op : OpId} {outcome : Outcome} :
    (id, .exit site op outcome) ∈ b.notes L c ↔
      c = .finish id outcome ∧ site = .send ∧ op = id.ended := by
  rw [mem_notes]
  cases c with
  | request what => simp
  | requestKeyed what key => simp
  | offered id' n => by_cases h : 0 < n <;> simp [h]
  | receivedBytes id' n => by_cases h : 0 < n <;> simp [h]
  | answered key => simp
  | response => simp [Ledger.subject]
  | finish id' outcome' =>
    have : Event.exit site op outcome ∈ b.ledger.emits L (.finish id' outcome') ↔
        site = .send ∧ op = id'.ended ∧ outcome = outcome' := by
      cases h : Ledger.owes outcome' <;> simp [h, Label.ended]
    simp only [Ledger.subject, this, Option.some.injEq, Call.finish.injEq]
    constructor
    · rintro ⟨rfl, hs, ho, rfl⟩
      exact ⟨⟨rfl, rfl⟩, hs, ho⟩
    · rintro ⟨⟨rfl, rfl⟩, hs, ho⟩
      exact ⟨rfl, hs, ho, rfl⟩

theorem notes_bytes {c : Call} {site : Site} {op : OpId} {key : Key} {n : Nat}
    (hk : key = .bytesOut ∨ key = .bytesIn) (h : (id, .counter site op key n) ∈ b.notes L c) :
    op = L.op id ∧ 0 < n ∧ (c = .offered id n ∨ c = .receivedBytes id n) := by
  rw [mem_notes] at h
  obtain ⟨hid, he⟩ := h
  cases c with
  | request what => rcases hk with rfl | rfl <;> simp at he
  | requestKeyed what key' => rcases hk with rfl | rfl <;> simp at he
  | answered key' => cases hid
  | response => cases hid
  | offered id' m =>
    obtain rfl := Option.some.inj hid
    rw [Ledger.emits_offered] at he
    split at he
    · rename_i hm
      obtain ⟨-, rfl, -, rfl⟩ := by simpa using he
      exact ⟨rfl, hm, .inl rfl⟩
    · cases he
  | receivedBytes id' m =>
    obtain rfl := Option.some.inj hid
    rw [Ledger.emits_receivedBytes] at he
    split at he
    · rename_i hm
      obtain ⟨-, rfl, -, rfl⟩ := by simpa using he
      exact ⟨rfl, hm, .inr rfl⟩
    · cases he
  | finish id' outcome =>
    cases ho : Ledger.owes outcome <;> rcases hk with rfl | rfl <;> simp [ho] at he

theorem notes_of_charged {c : Call} {n : Nat} (hn : 0 < n)
    (hc : c = .offered id n ∨ c = .receivedBytes id n) :
    ∃ site key, (key = .bytesOut ∨ key = .bytesIn) ∧
      (id, .counter site (L.op id) key n) ∈ b.notes L c := by
  rcases hc with rfl | rfl
  · exact ⟨.send, .bytesOut, .inl rfl, mem_notes.mpr ⟨rfl, by simp [hn]⟩⟩
  · exact ⟨.recv, .bytesIn, .inr rfl, mem_notes.mpr ⟨rfl, by simp [hn]⟩⟩

/-! ## What a run notes -/

theorem noted_append (b : Books) (cs ds : List Call) :
    noted L b (cs ++ ds) = noted L b cs ++ noted L (after (step L) b cs) ds := by
  induction cs generalizing b with
  | nil => rfl
  | cons c cs ih => rw [List.cons_append, noted, ih, noted, List.append_assoc, after_cons]

theorem noted_concat (calls : List Call) (c : Call) :
    noted L {} (calls ++ [c]) = noted L {} calls ++ (run L calls).notes L c := by
  rw [noted_append, noted, noted, List.append_nil]
  rfl

theorem noted_enter (hL : L.Kinded) {calls : List Call} {site : Site} {op : OpId} :
    (id, .enter site op) ∈ noted L {} calls ↔
      id ∈ (run L calls).given ∧ site = .send ∧ op = entryId L id := by
  induction calls using List.reverseRecOn with
  | nil => simp [noted, run]
  | append_singleton calls c ih =>
    rw [noted_concat, List.mem_append, ih, notes_enter hL, run_concat]
    show _ ↔ id ∈ (run L calls).given ++ ((run L calls).ledger.begun L c).toList ∧ _
    rw [List.mem_append, Option.mem_toList, or_and_right]

theorem noted_exit {calls : List Call} {site : Site} {op : OpId} {outcome : Outcome} :
    (id, .exit site op outcome) ∈ noted L {} calls ↔
      .finish id outcome ∈ calls ∧ site = .send ∧ op = id.ended := by
  induction calls using List.reverseRecOn with
  | nil => simp [noted]
  | append_singleton calls c ih =>
    rw [noted_concat, List.mem_append, ih, notes_exit, List.mem_append, List.mem_singleton,
      or_and_right, eq_comm (a := c)]

theorem noted_bytes {calls : List Call} {site : Site} {op : OpId} {key : Key} {n : Nat}
    (hk : key = .bytesOut ∨ key = .bytesIn) (h : (id, .counter site op key n) ∈ noted L {} calls) :
    op = L.op id ∧ Charged calls id := by
  induction calls using List.reverseRecOn with
  | nil => cases h
  | append_singleton calls c ih =>
    rw [noted_concat, List.mem_append] at h
    rcases h with h | h
    · obtain ⟨hop, m, hm, hc⟩ := ih h
      exact ⟨hop, m, hm, hc.imp (List.mem_append_left _) (List.mem_append_left _)⟩
    · obtain ⟨hop, hn, hc⟩ := notes_bytes hk h
      exact ⟨hop, n, hn, hc.imp (by simp_all) (by simp_all)⟩

theorem noted_of_charged {calls : List Call} (h : Charged calls id) :
    ∃ site key n, (key = .bytesOut ∨ key = .bytesIn) ∧
      (id, .counter site (L.op id) key n) ∈ noted L {} calls := by
  obtain ⟨n, hn, hc⟩ := h
  have hmem : ∃ c ∈ calls, c = .offered id n ∨ c = .receivedBytes id n := by
    rcases hc with hc | hc
    · exact ⟨_, hc, .inl rfl⟩
    · exact ⟨_, hc, .inr rfl⟩
  obtain ⟨c, hc, hkind⟩ := hmem
  obtain ⟨cs, ds, rfl⟩ := List.append_of_mem hc
  obtain ⟨site, key, hk, hnote⟩ := notes_of_charged (L := L) (b := run L cs) hn hkind
  refine ⟨site, key, n, hk, ?_⟩
  rw [noted_append, noted]
  exact List.mem_append_right _ (List.mem_append_left _ hnote)

/-- **When every event of an operation carries one number, and no other operation has it.** -/
theorem one_id_iff {L : Labels} (hL : L.Kinded) (hop : Function.Injective L.op)
    (calls : List Call) : OneId (noted L {} calls) ↔ Agree L calls := by
  constructor
  · intro h
    refine ⟨fun id hid hk hfin => ?_, fun id hid hk hch => ?_, fun id hid id' hid' hk hk' heq => ?_⟩
    · obtain ⟨outcome, hc⟩ := hfin
      have he := h.exit id .send .send _ _ outcome ((noted_enter hL).mpr ⟨hid, rfl, rfl⟩)
        (noted_exit.mpr ⟨hc, rfl, rfl⟩)
      simpa [entryId, hk] using he.symm
    · obtain ⟨site, key, n, hkey, hc⟩ := noted_of_charged (L := L) hch
      have he := h.bytes id .send site _ _ key n ((noted_enter hL).mpr ⟨hid, rfl, rfl⟩) hc hkey
      simpa [entryId, hk] using he
    · have hsame : entryId L id' = entryId L id := by simp [entryId, hk, hk', heq]
      have hid := (noted_enter hL).mpr ⟨hid, rfl, rfl⟩
      have hid' := (noted_enter hL).mpr ⟨hid', rfl, rfl⟩
      rw [hsame] at hid'
      have := h.apart id id' .send .send _ hid hid'
      rw [this, hk'] at hk
      cases hk
  · intro h
    refine ⟨fun id site site' op op' outcome he hx => ?_,
      fun id site site' op op' key n he hx hkey => ?_, fun id id' site site' op he he' => ?_⟩
    · obtain ⟨hid, -, rfl⟩ := (noted_enter hL).mp he
      obtain ⟨hc, -, rfl⟩ := noted_exit.mp hx
      cases hk : id.kind with
      | request => simp [entryId, hk]
      | contract => simp [entryId, hk, h.finished id hid hk ⟨outcome, hc⟩]
    · obtain ⟨hid, -, rfl⟩ := (noted_enter hL).mp he
      obtain ⟨rfl, hc⟩ := noted_bytes hkey hx
      cases hk : id.kind with
      | request => simp [entryId, hk, h.charged id hid hk hc]
      | contract => simp [entryId, hk]
    · obtain ⟨hid, -, rfl⟩ := (noted_enter hL).mp he
      obtain ⟨hid', -, heq⟩ := (noted_enter hL).mp he'
      cases hk : id.kind <;> cases hk' : id'.kind
      · simp only [entryId, hk, hk'] at heq
        obtain ⟨k, o⟩ := id
        obtain ⟨k', o'⟩ := id'
        simp_all [Label.ended]
      · simp only [entryId, hk, hk'] at heq
        exact absurd heq.symm (h.apart id hid id' hid' hk hk')
      · simp only [entryId, hk, hk'] at heq
        exact absurd heq (h.apart id' hid' id hid hk' hk)
      · simp only [entryId, hk, hk'] at heq
        exact hop heq

/-! ## A mixture -/

/-- One put by position with its bytes, and one under its key that the caller finishes. -/
def mixed (what key : String) (n : Nat) (outcome : Outcome) : List Call :=
  [.request what, .offered ⟨.request, 0⟩ n, .requestKeyed what key, .finish ⟨.contract, 0⟩ outcome]

/-- Where each kind counts its labels from zero, no injective `op` makes the numbers of a
mixture agree: it would have to give `req#0` and `contract#0` the same one. -/
theorem mixed_not_oneId {L : Labels} (hL : L.Kinded) (hop : Function.Injective L.op)
    {what key : String} {n : Nat} {outcome : Outcome} (hn : 0 < n)
    (hreq : L.label .request s!"{what}/{0}" = ⟨.request, 0⟩)
    (hcon : L.label .contract key = ⟨.contract, 0⟩) :
    ¬ OneId (noted L {} (mixed what key n outcome)) := by
  intro h
  have hgiven : (run L (mixed what key n outcome)).given = [⟨.request, 0⟩, ⟨.contract, 0⟩] := by
    show [L.label .request s!"{what}/{0}", L.label .contract key] = _
    rw [hreq, hcon]
  have hcharged : Charged (mixed what key n outcome) ⟨.request, 0⟩ :=
    ⟨n, hn, .inl (by simp [mixed])⟩
  obtain ⟨site, k, m, hkey, hbytes⟩ := noted_of_charged (L := L) hcharged
  have hput := h.bytes _ .send site _ _ k m
    ((noted_enter hL).mpr ⟨by simp [hgiven], rfl, rfl⟩) hbytes hkey
  have hkeyed := h.exit ⟨.contract, 0⟩ .send .send _ _ outcome
    ((noted_enter hL).mpr ⟨by simp [hgiven], rfl, rfl⟩)
    (noted_exit.mpr ⟨by simp [mixed], rfl, rfl⟩)
  have hsame : L.op ⟨.request, 0⟩ = L.op ⟨.contract, 0⟩ := hput.trans hkeyed
  cases hop hsame

end Books

theorem Labels.table_op_injective (requests keys : List String) :
    Function.Injective (table requests keys).op := by
  rintro ⟨k, o⟩ ⟨k', o'⟩ h
  cases k <;> cases k' <;> simp_all [table] <;> omega

namespace Books

theorem mixed_table :
    ¬ OneId (noted (.table ["put/0"] ["a"]) {} (mixed "put" "a" 1 .ok)) :=
  mixed_not_oneId (Labels.table_kinded _ _) (Labels.table_op_injective _ _) Nat.one_pos rfl rfl

/-- Two gets by position, and the caller says the first found nothing. -/
def gets : List Call := [.request "get", .request "get", .finish ⟨.request, 0⟩ .missing]

theorem gets_oneId : OneId (noted (.table ["get/0", "get/1"] []) {} gets) := by
  have hgiven : (run (.table ["get/0", "get/1"] []) gets).given =
      [⟨.request, 0⟩, ⟨.request, 1⟩] := by decide
  have hkind : ∀ id ∈ (run (.table ["get/0", "get/1"] []) gets).given, id.kind = .request := by
    simp [hgiven]
  refine (one_id_iff (Labels.table_kinded _ _) (Labels.table_op_injective _ _) gets).mpr
    ⟨fun id hid hk => ?_, fun id hid hk hch => ?_, fun id hid id' hid' hk hk' => ?_⟩
  · cases (hkind id hid).symm.trans hk
  · obtain ⟨n, -, hc⟩ := hch
    simp [gets] at hc
  · cases (hkind id' hid').symm.trans hk'

end Books
end FreenetHarness.Probe
