import Mathlib.Data.List.Rotate

/-! # A queue served in turns

Each turn serves the first `b` of a queue, moves them to its back and lets those that
are done leave. Somebody who waits comes `b` places closer at every turn that does not
serve them. A list with a cursor into it is such a queue as long as nobody leaves from
before the cursor. -/
namespace FreenetHarness.Lib.Rotation

variable {α : Type*}

/-- One turn: serve the first `b`, move them to the back, keep those that stay. -/
def turn (b : Nat) (stays : α → Bool) (q : List α) : List α :=
  (q.drop b ++ q.take b).filter stays

/-- The entries at the first `n` positions. -/
theorem filterMap_range (q : List α) (n : Nat) :
    ((List.range n).filterMap fun i => q[i]?) = q.take n := by
  induction n with
  | zero => simp
  | succ n ih =>
    rw [List.range_succ, List.filterMap_append, ih, List.take_add_one]
    cases h : q[n]? <;> simp [h]

theorem mem_take_filter {stays : α → Bool} {q : List α} {n : Nat} {x : α} (h : x ∈ q.take n)
    (hx : stays x = true) : x ∈ (q.filter stays).take n := by
  induction q generalizing n with
  | nil => simp at h
  | cons y q ih =>
    cases n with
    | zero => simp at h
    | succ n =>
      rw [List.take_succ_cons, List.mem_cons] at h
      by_cases hy : stays y = true
      · rw [List.filter_cons_of_pos hy, List.take_succ_cons, List.mem_cons]
        exact h.imp_right ih
      · rw [List.filter_cons_of_neg hy]
        have hmem : x ∈ q.take n := h.resolve_left (by rintro rfl; exact hy hx)
        exact List.take_subset_take_left _ (Nat.le_succ n) (ih hmem)

/-- **Coming closer.** Whoever is among the first `b + n`, is not served and stays, is
among the first `n` after the turn. -/
theorem mem_take_turn {stays : α → Bool} {q : List α} {b n : Nat} {x : α}
    (h : x ∈ q.take (b + n)) (hs : x ∉ q.take b) (hx : stays x = true) :
    x ∈ (turn b stays q).take n := by
  rw [List.take_add, List.mem_append] at h
  have hwait : x ∈ (q.drop b).take n := h.resolve_left hs
  rw [turn, List.filter_append]
  have := mem_take_filter hwait hx
  obtain ⟨i, hi, rfl⟩ := List.mem_take_iff_getElem.mp this
  refine List.mem_take_iff_getElem.mpr ⟨i, ?_, ?_⟩
  · rw [List.length_append]; omega
  · rw [List.getElem_append_left]

theorem length_filter_add_countP (stays : α → Bool) (l : List α) :
    (l.filter stays).length + l.countP (fun x => !stays x) = l.length := by
  have := List.length_eq_countP_add_countP stays (l := l)
  rw [← List.countP_eq_length_filter]
  simpa using this.symm

/-- What is left, read from the same position as before, is the queue without those who
left, and as many places further as have left from before that position. -/
theorem rotate_filter {stays : α → Bool} {l : List α} {c : Nat} (hc : c ≤ l.length) :
    (l.filter stays).rotate c =
      ((l.rotate c).filter stays).rotate ((l.take c).countP fun x => !stays x) := by
  have hsplit : l.filter stays = (l.take c).filter stays ++ (l.drop c).filter stays := by
    rw [← List.filter_append, List.take_append_drop]
  have hlen : ((l.take c).filter stays).length + (l.take c).countP (fun x => !stays x) = c := by
    rw [length_filter_add_countP, List.length_take, min_eq_left hc]
  calc (l.filter stays).rotate c
      = ((l.take c).filter stays ++ (l.drop c).filter stays).rotate
          (((l.take c).filter stays).length + (l.take c).countP fun x => !stays x) := by
        rw [← hsplit, hlen]
    _ = ((l.drop c).filter stays ++ (l.take c).filter stays).rotate
          ((l.take c).countP fun x => !stays x) := by
        rw [← List.rotate_rotate, List.rotate_append_length_eq]
    _ = ((l.rotate c).filter stays).rotate ((l.take c).countP fun x => !stays x) := by
        rw [List.rotate_eq_drop_append_take hc, List.filter_append]

/-- **Simulation.** A list read from a cursor is a queue: stepping the cursor over the
first `b` is one turn, and it jumps one place further for each that left from before it. -/
theorem rotate_turn {stays : α → Bool} {l : List α} {c b : Nat} (hb : b ≤ l.length)
    (hl : l ≠ []) :
    (l.filter stays).rotate ((c + b) % l.length) =
      (turn b stays (l.rotate c)).rotate
        ((l.take ((c + b) % l.length)).countP fun x => !stays x) := by
  have hpos : 0 < l.length := List.length_pos_iff.mpr hl
  rw [rotate_filter (Nat.mod_lt _ hpos).le]
  congr 1
  rw [List.rotate_mod, ← List.rotate_rotate, turn,
    List.rotate_eq_drop_append_take (by rwa [List.length_rotate])]

/-- **Jumping over somebody.** If the cursor jumps `k` places while `k` or more wait who
have not been served, the last of the `k` is the last of the queue. -/
theorem getElem_jumped {w v : List α} {k : Nat} (hk : k < w.length) :
    ((w ++ v).rotate (k + 1))[(w ++ v).length - 1]? = some w[k] := by
  have hlen : (w ++ v).length = w.length + v.length := List.length_append
  rw [List.getElem?_rotate (by omega)]
  have hpos : ((w ++ v).length - 1 + (k + 1)) % (w ++ v).length = k := by
    rw [show (w ++ v).length - 1 + (k + 1) = k + (w ++ v).length by omega, Nat.add_mod_right,
      Nat.mod_eq_of_lt (by omega)]
  rw [hpos, List.getElem?_append_left hk, List.getElem?_eq_getElem hk]

end FreenetHarness.Lib.Rotation
