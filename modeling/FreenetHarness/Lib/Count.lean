import Mathlib.Algebra.Order.BigOperators.Group.List
import Mathlib.Algebra.Order.Ring.Nat

/-! # Counting in lists

Counts and sums over one list that are compared term by term, and a table of pairs
counted by rows and by columns. -/
namespace FreenetHarness.Lib.Count

variable {α β : Type*}

/-- Sums over filters that differ only where nothing is added. -/
theorem sum_filter_congr {p q : α → Bool} {f g : α → Nat} {xs : List α}
    (h : ∀ x ∈ xs, (if p x then f x else 0) = if q x then g x else 0) :
    ((xs.filter p).map f).sum = ((xs.filter q).map g).sum := by
  induction xs with
  | nil => rfl
  | cons x xs ih =>
    have hx := h x (by simp)
    have hrest := ih fun y hy => h y (by simp [hy])
    cases hp : p x <;> cases hq : q x <;> simp [hp, hq] at hx <;>
      simp [hp, hq, hrest, hx]

/-- Where no term is larger, equal sums have equal terms. -/
theorem eq_of_sum_le {f g : α → Nat} {xs : List α} (hle : ∀ x ∈ xs, f x ≤ g x)
    (h : (xs.map f).sum = (xs.map g).sum) : ∀ x ∈ xs, f x = g x := by
  induction xs with
  | nil => simp
  | cons x xs ih =>
    have hx := hle x (by simp)
    have hrest : ∀ y ∈ xs, f y ≤ g y := fun y hy => hle y (by simp [hy])
    have hsum : (xs.map f).sum ≤ (xs.map g).sum := List.sum_le_sum hrest
    simp only [List.map_cons, List.sum_cons] at h
    intro y hy
    rcases List.mem_cons.mp hy with rfl | hy
    · omega
    · exact ih hrest (by omega) y hy

/-- Where one predicate implies another, equal counts make them the same. -/
theorem of_countP_eq {l : List α} {p q : α → Bool}
    (hpq : ∀ x ∈ l, p x = true → q x = true) (h : l.countP p = l.countP q) :
    ∀ x ∈ l, q x = true → p x = true := by
  induction l with
  | nil => simp
  | cons y l ih =>
    have htail := List.countP_mono_left fun x hx => hpq x (List.mem_cons_of_mem y hx)
    have hy := hpq y (by simp)
    simp only [List.countP_cons] at h
    have hhead : q y = true → p y = true := by
      intro hq
      by_contra hp
      simp [hq, hp] at h
      omega
    have heq : l.countP p = l.countP q := by
      by_cases hq : q y = true
      · simpa [hq, hhead hq] using h
      · have hp : ¬ p y = true := fun hp => hq (hy hp)
        simpa [hq, hp] using h
    intro x hx hq
    rcases List.mem_cons.mp hx with rfl | hx
    · exact hhead hq
    · exact ih (fun x hx => hpq x (List.mem_cons_of_mem y hx)) heq x hx hq

/-- **Double counting.** The pairs of a table, counted by rows, are its pairs counted
by columns. -/
theorem sum_countP_comm (xs : List α) (ys : List β) (r : α → β → Bool) :
    (xs.map fun x => ys.countP (r x)).sum = (ys.map fun y => xs.countP fun x => r x y).sum := by
  induction ys with
  | nil => simp
  | cons y ys ih =>
    have hsplit : ∀ l : List α, (l.map fun x => (y :: ys).countP (r x)).sum =
        (l.map fun x => ys.countP (r x)).sum + l.countP fun x => r x y := by
      intro l
      induction l with
      | nil => rfl
      | cons x l ihl =>
        simp only [List.map_cons, List.sum_cons, List.countP_cons] at ihl ⊢
        omega
    rw [hsplit, ih, List.map_cons, List.sum_cons, Nat.add_comm]

/-- Numbers none of which is zero sum to how many they are only when each is one. -/
theorem all_one_iff {f : α → Nat} {xs : List α} :
    (xs.countP fun x => f x == 0) = 0 ∧ (xs.map f).sum = xs.length ↔ ∀ x ∈ xs, f x = 1 := by
  constructor
  · rintro ⟨hz, hs⟩ x hx
    have hle : ∀ x ∈ xs, 1 ≤ f x := by
      intro x hx
      have := List.countP_eq_zero.mp hz x hx
      simp only [beq_iff_eq] at this
      omega
    have hone : (xs.map fun _ => 1).sum = (xs.map f).sum := by simp [hs]
    exact (eq_of_sum_le hle hone x hx).symm
  · intro h
    refine ⟨List.countP_eq_zero.mpr fun x hx => by simp [h x hx], ?_⟩
    rw [List.map_congr_left h]
    simp

/-- A list without one entry counts one less, where that entry counts. -/
theorem countP_eraseIdx {p : α → Bool} {l : List α} {i : Nat} {x : α} (h : l[i]? = some x) :
    l.countP p = (l.eraseIdx i).countP p + if p x then 1 else 0 := by
  induction l generalizing i with
  | nil => cases h
  | cons y l ih =>
    cases i with
    | zero =>
      obtain rfl := Option.some.inj h
      rw [List.eraseIdx_zero, List.tail_cons, List.countP_cons]
    | succ i =>
      have := ih (by simpa using h)
      rw [List.eraseIdx_cons_succ, List.countP_cons, List.countP_cons]
      omega

/-! ## Sums by key -/

theorem sum_ite_eq [DecidableEq β] {ks : List β} (h : ks.Nodup) {k : β} (hk : k ∈ ks) (x : Nat) :
    (ks.map fun i => if k = i then x else 0).sum = x := by
  induction ks with
  | nil => cases hk
  | cons i ks ih =>
    obtain ⟨hi, hks⟩ := List.nodup_cons.mp h
    rw [List.map_cons, List.sum_cons]
    by_cases he : k = i
    · subst he
      have hzero : ks.map (fun i => if k = i then x else 0) = ks.map fun _ => 0 :=
        List.map_congr_left fun i hmem => if_neg fun he : k = i => hi (he ▸ hmem)
      simp [hzero]
    · rw [if_neg he, ih hks ((List.mem_cons.mp hk).resolve_left he), Nat.zero_add]

/-- **Sums by key.** Adding up what each key's items add up to is adding up all items. -/
theorem sum_fiber [DecidableEq β] {ks : List β} (h : ks.Nodup) {key : α → β} {xs : List α}
    (hk : ∀ x ∈ xs, key x ∈ ks) (f : α → Nat) :
    (ks.map fun k => ((xs.filter fun x => key x = k).map f).sum).sum = (xs.map f).sum := by
  induction xs with
  | nil => simp
  | cons x xs ih =>
    have hsplit : ks.map (fun k => (((x :: xs).filter fun x => key x = k).map f).sum) =
        ks.map fun k => (if key x = k then f x else 0) +
          ((xs.filter fun x => key x = k).map f).sum := by
      apply List.map_congr_left
      intro k _
      by_cases he : key x = k <;> simp [he]
    rw [hsplit, List.sum_map_add, sum_ite_eq h (hk x (by simp)),
      ih fun y hy => hk y (List.mem_cons_of_mem x hy), List.map_cons, List.sum_cons]

/-! ## One entry changed -/

theorem modify_eq_set {l : List α} {i : Nat} {x : α} (h : l[i]? = some x) (f : α → α) :
    l.modify i f = l.set i (f x) := by
  induction l generalizing i with
  | nil => cases h
  | cons y l ih =>
    cases i with
    | zero =>
      obtain rfl := Option.some.inj h
      rfl
    | succ i => simp [ih (by simpa using h)]

theorem map_set_of_eq {l : List α} {i : Nat} {x y : α} {f : α → β} (h : l[i]? = some x)
    (hf : f y = f x) : (l.set i y).map f = l.map f := by
  obtain ⟨hi, rfl⟩ := List.getElem?_eq_some_iff.mp h
  rw [List.map_set, hf, ← List.getElem_map f (h := by simpa using hi), List.set_getElem_self]

/-- The entry that is put in counts in place of the one taken out. -/
theorem countP_set {p : α → Bool} {l : List α} {i : Nat} {x y : α} (h : l[i]? = some x) :
    (l.set i y).countP p + (if p x then 1 else 0) = l.countP p + if p y then 1 else 0 := by
  induction l generalizing i with
  | nil => cases h
  | cons z l ih =>
    cases i with
    | zero =>
      obtain rfl := Option.some.inj h
      rw [List.set_cons_zero, List.countP_cons, List.countP_cons]
      omega
    | succ i =>
      have := ih (by simpa using h)
      rw [List.set_cons_succ, List.countP_cons, List.countP_cons]
      omega

/-- One item of a list gets an entry that it did not have. -/
theorem filterMap_perm_concat {α β : Type*} {l : List α} {x : α} {f g : α → Option β} {v : β}
    (hl : l.Nodup) (hx : x ∈ l) (hf : f x = none) (hg : g x = some v)
    (hne : ∀ y ∈ l, y ≠ x → g y = f y) : (l.filterMap f ++ [v]).Perm (l.filterMap g) := by
  obtain ⟨a, b, rfl⟩ := List.append_of_mem hx
  have hnot : ∀ y ∈ a ++ b, y ≠ x := by
    rintro y hy rfl
    exact (List.nodup_cons.mp (List.perm_middle.nodup_iff.mp hl)).1 hy
  have ha : a.filterMap g = a.filterMap f :=
    List.filterMap_congr fun y hy => hne y (by simp [hy]) (hnot y (by simp [hy]))
  have hb : b.filterMap g = b.filterMap f :=
    List.filterMap_congr fun y hy => hne y (by simp [hy]) (hnot y (by simp [hy]))
  rw [List.filterMap_append, List.filterMap_append, List.filterMap_cons_none hf,
    List.filterMap_cons_some hg, ha, hb, List.append_assoc]
  exact (List.perm_append_singleton v _).append_left _

end FreenetHarness.Lib.Count
