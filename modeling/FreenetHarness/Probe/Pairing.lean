import Mathlib.Data.List.Perm.Basic
import FreenetHarness.Probe.Client

/-! # Answers that name a key, and the requests they close

A `PutResponse` and a `GetResponse` name the contract they are about, and `recv`
closes the open entry labelled by that key. A request is labelled by its key only
when it went out through `sendKeyed`, so this asks which answers find their
request (`pairing_iff`). -/
namespace FreenetHarness.Probe
open FreenetHarness.Lib.Run

/-- The contract a put or a get asks about. -/
def target : ClientRequest → Option String
  | .contractOp (.put contract _) => some contract.id
  | .contractOp (.get key) => some key
  | _ => none

/-- Only puts and gets are sent, and a keyed one under its own key. -/
def Act.Asks : Act → Prop
  | .send req => (target req).isSome
  | .sendKeyed req key => target req = some key
  | _ => True

namespace Conn

/-- The contract the `n`-th request asked about. -/
def asks (c : Conn) (n : Nat) : Option String := c.sent[n]?.bind fun r => target r.2

/-- A request for `k` is still open. -/
def Outstanding (c : Conn) (k : String) : Prop := ∃ n ∈ c.ops, c.asks n = some k

/-- When an answer names a key somebody still waits for, one entry leaves the open
list and it is the entry of a request for that key. -/
def Pairs (L : Labels) (c : Conn) : Act → Prop
  | .recv m => ∀ k, m.names = some k → c.Outstanding k →
      ∃ i n, c.ops[i]? = some n ∧ c.asks n = some k ∧
        (recv L c.ledger m.got).opened = c.ledger.opened.eraseIdx i
  | _ => True

/-- When an answer names a key somebody still waits for, one of the requests open
for it was labelled by the key. -/
def Keyed (L : Labels) (c : Conn) : Act → Prop
  | .recv m => ∀ k, m.names = some k → c.Outstanding k →
      L.label .contract k ∈ c.ledger.opened
  | _ => True

/-- Every request is for a key, and a request under a key's label is for that key. -/
structure Asking (L : Labels) (c : Conn) : Prop where
  aligned : c.Aligned
  forKey : ∀ r ∈ c.sent, (target r.2).isSome
  named : ∀ r ∈ c.sent, ∀ k, r.1 = L.label .contract k → target r.2 = some k

end Conn

/-- The keys asked for and not yet named by an answer, one for each request. -/
def dueStep (due : List String) : Act → List String
  | .send req => due ++ (target req).toList
  | .sendKeyed req _ => due ++ (target req).toList
  | .recv m => match m.names with
    | some k => due.erase k
    | none => due
  | .finish _ _ => due

def due (acts : List Act) : List String := after dueStep [] acts

namespace Conn

/-! ## One step -/

theorem Asking.begin {L : Labels} {c : Conn} (h : c.Asking L) (req : ClientRequest)
    {r : Label × Ledger} (hr : r.2.opened = c.ledger.opened ++ [r.1])
    (hs : (target req).isSome) (hn : ∀ k, r.1 = L.label .contract k → target req = some k) :
    (c.begin req r).Asking L where
  aligned := h.aligned.begin req hr
  forKey := by
    intro x hx
    rcases List.mem_append.mp hx with hx | hx
    · exact h.forKey x hx
    · rw [List.mem_singleton.mp hx]; exact hs
  named := by
    intro x hx
    rcases List.mem_append.mp hx with hx | hx
    · exact h.named x hx
    · rw [List.mem_singleton.mp hx]; exact hn

/-- A request without a key gets no key's label. -/
theorem send_label_ne (L : Labels) (l : Ledger) (req : ClientRequest) (k : String) :
    (send L l req).1 ≠ L.label .contract k := by
  intro h
  cases (L.label_injective h).1

theorem Asking.step {L : Labels} {c : Conn} (h : c.Asking L) {a : Act} (ha : a.Asks) :
    (Probe.step L c a).Asking L := by
  cases a with
  | send req =>
    exact h.begin req (send_opened L c.ledger req) ha
      fun k hk => absurd hk (send_label_ne L c.ledger req k)
  | sendKeyed req key =>
    have ha : target req = some key := ha
    refine h.begin req (sendKeyed_opened L c.ledger req key) (by simp [ha]) fun k hk => ?_
    rw [ha, (L.label_injective hk).2]
  | recv m => exact ⟨h.aligned.step L _, h.forKey, h.named⟩
  | finish id outcome => exact ⟨h.aligned.step L _, h.forKey, h.named⟩

/-- An open entry under a key's label is of a request for that key. -/
theorem Asking.asks_of_label {L : Labels} {c : Conn} (h : c.Asking L) {k : String}
    (hk : L.label .contract k ∈ c.ledger.opened) :
    ∃ n, c.ops[c.ledger.opened.idxOf (L.label .contract k)]? = some n ∧ c.asks n = some k := by
  have hi := List.idxOf_lt_length_of_mem hk
  have hi' := hi
  rw [← h.aligned.length] at hi'
  obtain ⟨n, hn⟩ : ∃ n, c.ops[c.ledger.opened.idxOf (L.label .contract k)]? = some n :=
    ⟨_, List.getElem?_eq_getElem hi'⟩
  refine ⟨n, hn, ?_⟩
  have hl := h.aligned.getElem? hn
  rw [List.getElem?_eq_getElem hi, List.getElem_idxOf] at hl
  obtain ⟨r, hr, hrl⟩ := Option.map_eq_some_iff.mp hl
  rw [asks, hr]
  exact h.named r (List.mem_of_getElem? hr) k hrl

/-- **Step.** An answer pairs exactly when its key labels an open entry. -/
theorem Asking.pairs_iff {L : Labels} {c : Conn} (h : c.Asking L) (a : Act) :
    c.Pairs L a ↔ c.Keyed L a := by
  cases a with
  | recv m =>
    have hrecv : ∀ k, m.names = some k →
        (recv L c.ledger m.got).opened = c.ledger.opened.erase (L.label .contract k) := by
      intro k hk
      obtain ⟨r, hr, hn⟩ := Message.got_of_names hk
      rw [hr, recv_opened_named L c.ledger hn]
    constructor
    · intro hp k hk ho
      obtain ⟨i, n, hi, -, he⟩ := hp k hk ho
      by_contra hmem
      rw [hrecv k hk, List.erase_of_not_mem hmem] at he
      have hlen := List.eraseIdx_eq_self.mp he.symm
      have := (List.getElem?_eq_some_iff.mp hi).1
      have := h.aligned.length
      omega
    · intro hkey k hk ho
      obtain ⟨n, hn, hasks⟩ := h.asks_of_label (hkey k hk ho)
      exact ⟨_, n, hn, hasks, by rw [hrecv k hk, List.eraseIdx_idxOf_eq_erase]⟩
  | send req => exact Iff.rfl
  | sendKeyed req key => exact Iff.rfl
  | finish id outcome => exact Iff.rfl

/-! ## The debt of a run -/

/-- How many open entries are of requests for `k`. -/
def openFor (c : Conn) (k : String) : Nat := c.ops.countP fun n => c.asks n == some k

theorem asks_append {c : Conn} {n : Nat} (hn : n < c.sent.length) (r : Label × ClientRequest)
    (l : Ledger) (ops : List Nat) :
    asks { ledger := l, sent := c.sent ++ [r], ops } n = c.asks n := by
  simp [asks, List.getElem?_append_left hn]

theorem Aligned.openFor_begin {c : Conn} (h : c.Aligned) (req : ClientRequest)
    (r : Label × Ledger) (k : String) :
    (c.begin req r).openFor k = c.openFor k + (target req).toList.count k := by
  have hkeep : c.ops.countP (fun n => (c.begin req r).asks n == some k) = c.openFor k := by
    apply List.countP_congr
    intro n hn
    rw [Conn.begin, asks_append (h.lt hn)]
  have hnew : (c.begin req r).asks c.sent.length = target req := by
    simp [asks, Conn.begin]
  have hone : (if (target req == some k) = true then 1 else 0) =
      (target req).toList.count k := by
    cases target req with
    | none => simp
    | some k' => simp [List.count_singleton]
  unfold openFor at hkeep ⊢
  rw [← hkeep, ← hone]
  show List.countP _ (c.ops ++ [c.sent.length]) = _
  rw [List.countP_append, List.countP_singleton, hnew]

/-- Removing an entry never adds one. -/
theorem openFor_eraseIdx_le (c : Conn) (l : Ledger) (i : Nat) (k : String) :
    openFor { c with ledger := l, ops := c.ops.eraseIdx i } k ≤ c.openFor k :=
  (List.eraseIdx_sublist c.ops i).countP_le

theorem openFor_eraseIdx_lt {c : Conn} {i n : Nat} {k : String} (hn : c.ops[i]? = some n)
    (hk : c.asks n = some k) (l : Ledger) :
    openFor { c with ledger := l, ops := c.ops.eraseIdx i } k + 1 = c.openFor k := by
  obtain ⟨hi, rfl⟩ := List.getElem?_eq_some_iff.mp hn
  have hperm := (List.getElem_cons_eraseIdx_perm hi).countP_eq fun n => c.asks n == some k
  rw [List.countP_cons_of_pos (by simp [hk])] at hperm
  exact hperm

/-- Each open request is matched by a key still due. -/
theorem Asking.openFor_step {L : Labels} {c : Conn} (h : c.Asking L) {d : List String}
    (hd : ∀ k, c.openFor k ≤ d.count k) {a : Act} (ha : c.Keyed L a) (k : String) :
    (Probe.step L c a).openFor k ≤ (dueStep d a).count k := by
  cases a with
  | send req =>
    rw [Probe.step, h.aligned.openFor_begin, dueStep, List.count_append]
    have := hd k
    omega
  | sendKeyed req key =>
    rw [Probe.step, h.aligned.openFor_begin, dueStep, List.count_append]
    have := hd k
    omega
  | finish id outcome => exact le_trans (openFor_eraseIdx_le _ _ _ _) (hd k)
  | recv m =>
    cases hm : m.names with
    | none =>
      simp only [dueStep, hm]
      exact le_trans (openFor_eraseIdx_le _ _ _ _) (hd k)
    | some k' =>
      simp only [dueStep, hm]
      have hle := openFor_eraseIdx_le c (recv L c.ledger m.got) (closes L c.ledger m) k
      by_cases hk : k = k'
      · subst hk
        rw [List.count_erase_self]
        by_cases ho : c.Outstanding k
        · obtain ⟨n, hn, hasks⟩ := h.asks_of_label (ha k hm ho)
          have := openFor_eraseIdx_lt hn hasks (recv L c.ledger m.got)
          have := hd k
          simp only [Probe.step, closes, hm] at *
          omega
        · have h0 : c.openFor k = 0 := by
            rw [openFor, List.countP_eq_zero]
            intro n hn hasks
            exact ho ⟨n, hn, by simpa using hasks⟩
          simp only [Probe.step]
          omega
      · rw [List.count_erase_of_ne (by simpa using hk)]
        exact le_trans hle (hd k)

/-- Nothing due, nothing open. -/
theorem Asking.opened_nil {L : Labels} {c : Conn} (h : c.Asking L)
    (h0 : ∀ k, c.openFor k = 0) : c.ledger.opened = [] := by
  rw [← List.length_eq_zero_iff, ← h.aligned.length, List.length_eq_zero_iff]
  by_contra hne
  obtain ⟨n, ops, hops⟩ := List.exists_cons_of_ne_nil hne
  have hn : n ∈ c.ops := by simp [hops]
  have hlt := h.aligned.lt hn
  obtain ⟨k, hk⟩ := Option.isSome_iff_exists.mp (h.forKey _ (List.getElem_mem hlt))
  have hz := h0 k
  rw [openFor, List.countP_eq_zero] at hz
  exact hz n hn (by simp [asks, List.getElem?_eq_getElem hlt, hk])

end Conn

/-! ## Runs -/

theorem asking_nil (L : Labels) : ({} : Conn).Asking L :=
  ⟨Conn.aligned_nil, fun _ h => absurd h List.not_mem_nil, fun _ h => absurd h List.not_mem_nil⟩

theorem asking_after (L : Labels) {acts : List Act} (h : ∀ a ∈ acts, a.Asks) :
    (after (step L) {} acts).Asking L :=
  after_invariant acts (asking_nil L) fun _ a ha hc => hc.step (h a ha)

/-- Along a run whose answers find their key, what is open stays below what is due. -/
theorem openFor_after {L : Labels} {acts : List Act} (h : ∀ a ∈ acts, a.Asks) {c : Conn}
    (hc : c.Asking L) {d : List String} (hd : ∀ k, c.openFor k ≤ d.count k)
    (hk : Along (step L) (Conn.Keyed L) c acts) (k : String) :
    (after (step L) c acts).openFor k ≤ (after dueStep d acts).count k := by
  induction acts generalizing c d with
  | nil => exact hd k
  | cons a acts ih =>
    exact ih (fun b hb => h b (List.mem_cons_of_mem _ hb)) (hc.step (h a (by simp)))
      (hc.openFor_step hd hk.1) hk.2

/-- **When every answer finds its request.** Over a run of puts and gets, every
answer that names an awaited key closes one request for that key, and nothing is
outstanding once every request has been answered by name, exactly when every such
answer finds an open request that was sent under its key. -/
theorem pairing_iff (L : Labels) {acts : List Act} (h : ∀ a ∈ acts, a.Asks) :
    (Along (step L) (Conn.Pairs L) {} acts ∧ ∀ pre, pre <+: acts → due pre = [] →
        (after (step L) {} pre).ledger.outstanding = []) ↔
      Along (step L) (Conn.Keyed L) {} acts := by
  have hiff : Along (step L) (Conn.Pairs L) {} acts ↔ Along (step L) (Conn.Keyed L) {} acts :=
    along_congr (asking_nil L) (fun _ a ha hc _ => hc.step (h a ha))
      fun _ a _ hc => hc.pairs_iff a
  refine ⟨fun hp => hiff.mp hp.1, fun hk => ⟨hiff.mpr hk, fun pre hpre hdue => ?_⟩⟩
  have hpa : ∀ a ∈ pre, a.Asks := fun a ha => h a (hpre.subset ha)
  have hle := openFor_after (d := []) hpa (asking_nil L) (by simp [Conn.openFor])
    (hk.of_prefix hpre)
  refine (asking_after L hpa).opened_nil fun k => ?_
  have := hle k
  rw [show after dueStep [] pre = [] from hdue] at this
  simpa using this

/-- One get of the key `a` through `send`, then the answer to it. -/
def oneGet : List Act :=
  [.send (.contractOp (.get "a")),
    .recv (.answer (.contractResponse (.getResponse "a" [])) 0)]

/-- The same get through `sendKeyed`. -/
def oneKeyedGet : List Act :=
  [.sendKeyed (.contractOp (.get "a")) "a",
    .recv (.answer (.contractResponse (.getResponse "a" [])) 0)]

/-- A keyed get, answered: nothing is left open. -/
theorem pairing_one_keyed_get :
    Along (step (.table [] ["a"])) (Conn.Pairs (.table [] ["a"])) {} oneKeyedGet ∧
      ∀ pre, pre <+: oneKeyedGet → due pre = [] →
        (after (step (.table [] ["a"])) {} pre).ledger.outstanding = [] := by
  refine (pairing_iff (.table [] ["a"]) ?_).mpr ⟨trivial, ?_, trivial⟩
  · intro a ha
    simp only [oneKeyedGet, List.mem_cons, List.not_mem_nil, or_false] at ha
    rcases ha with rfl | rfl
    · rfl
    · trivial
  · intro k hk _
    cases hk
    decide

/-- A get through `send` is answered by name and stays open for ever. -/
theorem unkeyed_get_stays_open :
    (∀ a ∈ oneGet, a.Asks) ∧ due oneGet = [] ∧
      (after (step (.table ["get/0"] ["a"])) {} oneGet).ledger.outstanding = [⟨.request, 0⟩] ∧
      ¬ Along (step (.table ["get/0"] ["a"])) (Conn.Pairs (.table ["get/0"] ["a"])) {} oneGet := by
  have hasks : ∀ a ∈ oneGet, a.Asks := by
    intro a ha
    simp only [oneGet, List.mem_cons, List.not_mem_nil, or_false] at ha
    rcases ha with rfl | rfl
    · rfl
    · trivial
  have hopen : (after (step (.table ["get/0"] ["a"])) {} oneGet).ledger.outstanding =
      [⟨.request, 0⟩] := by decide
  refine ⟨hasks, rfl, hopen, fun hp => ?_⟩
  have hc : (after (step (.table ["get/0"] ["a"])) {} (oneGet.take 1)).Asking
      (.table ["get/0"] ["a"]) :=
    asking_after _ fun a ha => hasks a (List.mem_of_mem_take ha)
  exact absurd ((hc.pairs_iff _).mp hp.2.1 "a" rfl ⟨0, by decide, rfl⟩) (by decide)

end FreenetHarness.Probe
