import Mathlib.Data.List.AList
import Mathlib.Data.List.Induction
import Mathlib.Data.Finset.Card
import Mathlib.Data.Finset.Dedup
import FreenetHarness.Lib.Run

/-! # Tables filled by insertion

A table of one value a key. An insertion replaces what was there, so after many of them a
key has the value of its last one, and the size of the table is the number of different
keys. -/
namespace FreenetHarness.Lib.Table
open FreenetHarness.Lib.Run (bind_eq_ok)

/-- One value a key. -/
abbrev HashMap (κ β : Type*) := AList fun _ : κ => β

variable {κ β : Type*}

/-- A table whose keys are all in another one is no larger. -/
theorem length_le_of_subset {γ : Type*} {t : HashMap κ β} {u : HashMap κ γ}
    (h : ∀ k ∈ t, k ∈ u) : t.keys.length ≤ u.keys.length :=
  (t.keys_nodup.subperm fun k hk => AList.mem_keys.mp (h k (AList.mem_keys.mpr hk))).length_le

variable [DecidableEq κ]

/-- `insert` for every pair, in order. -/
def fill (t : HashMap κ β) (l : List (κ × β)) : HashMap κ β := l.foldl (fun t p => t.insert p.1 p.2) t

/-- The value of the first pair for a key. -/
def firstFor (l : List (κ × β)) (k : κ) : Option β :=
  ((l.filter fun p => p.1 = k).head?).map Prod.snd

/-- The value of the last pair for a key. -/
def lastFor (l : List (κ × β)) (k : κ) : Option β :=
  ((l.filter fun p => p.1 = k).getLast?).map Prod.snd

@[simp] theorem fill_nil (t : HashMap κ β) : fill t [] = t := rfl

theorem fill_cons (t : HashMap κ β) (p : κ × β) (l : List (κ × β)) :
    fill t (p :: l) = fill (t.insert p.1 p.2) l := rfl

theorem firstFor_append (l l' : List (κ × β)) (k : κ) :
    firstFor (l ++ l') k = (firstFor l k).or (firstFor l' k) := by
  simp only [firstFor, List.filter_append, List.head?_append, Option.map_or]

theorem firstFor_eq_none {l : List (κ × β)} {k : κ} :
    firstFor l k = none ↔ k ∉ l.map Prod.fst := by
  rw [firstFor, Option.map_eq_none_iff, List.head?_eq_none_iff, List.filter_eq_nil_iff,
    List.mem_map]
  constructor
  · rintro h ⟨p, hp, hk⟩
    exact h p hp (decide_eq_true hk)
  · exact fun h p hp hk => h ⟨p, hp, of_decide_eq_true hk⟩

theorem firstFor_cons (p : κ × β) (l : List (κ × β)) (k : κ) :
    firstFor (p :: l) k = if p.1 = k then some p.2 else firstFor l k := by
  by_cases hk : p.1 = k
  · rw [firstFor, List.filter_cons_of_pos (by simpa using hk), if_pos hk]
    rfl
  · rw [firstFor, List.filter_cons_of_neg (by simpa using hk), if_neg hk, firstFor]

/-- Where no two pairs have one key, the first pair for a key is the one there is. -/
theorem firstFor_eq_some_iff {l : List (κ × β)} (h : (l.map Prod.fst).Nodup) {k : κ} {v : β} :
    firstFor l k = some v ↔ (k, v) ∈ l := by
  induction l with
  | nil => simp [firstFor]
  | cons p l ih =>
    obtain ⟨hp, hl⟩ := List.nodup_cons.mp h
    rw [firstFor_cons, List.mem_cons]
    by_cases hk : p.1 = k
    · subst hk
      have hnot : (p.1, v) ∉ l := fun hm => hp (List.mem_map.mpr ⟨_, hm, rfl⟩)
      simp [hnot, Prod.ext_iff, eq_comm]
    · have hne : (k, v) ≠ p := fun he => hk (congrArg Prod.fst he).symm
      rw [if_neg hk, ih hl]
      exact (or_iff_right hne).symm

/-- There is a last pair for a key where there is a first one. -/
theorem lastFor_eq_none {l : List (κ × β)} {k : κ} : lastFor l k = none ↔ firstFor l k = none := by
  rw [lastFor, Option.map_eq_none_iff, List.getLast?_eq_none_iff, firstFor,
    Option.map_eq_none_iff, List.head?_eq_none_iff]

/-- **What a key has**: the value of its last pair, or what it had. -/
theorem lookup_fill (t : HashMap κ β) (l : List (κ × β)) (k : κ) :
    (fill t l).lookup k = (lastFor l k).or (t.lookup k) := by
  induction l generalizing t with
  | nil => rfl
  | cons p l ih =>
    rw [fill_cons, ih]
    by_cases hk : p.1 = k
    · subst hk
      rw [AList.lookup_insert, lastFor, lastFor, List.filter_cons_of_pos (by simp)]
      cases hl : l.filter fun q => q.1 = p.1 with
      | nil => rfl
      | cons q qs => simp [List.getLast?_cons]
    · rw [AList.lookup_insert_ne (Ne.symm hk), lastFor, lastFor,
        List.filter_cons_of_neg (by simpa using hk)]

/-- Pairs of different keys are all there. -/
theorem lookup_fill_of_mem {l : List (κ × β)} (h : (l.map Prod.fst).Nodup) {p : κ × β}
    (hp : p ∈ l) : (fill ∅ l).lookup p.1 = some p.2 := by
  have hf : (l.filter fun q => q.1 = p.1) = [p] := by
    induction l with
    | nil => cases hp
    | cons q l ih =>
      obtain ⟨hq, hl⟩ := List.nodup_cons.mp h
      rcases List.mem_cons.mp hp with rfl | hp
      · rw [List.filter_cons_of_pos (by simp), List.filter_eq_nil_iff.mpr]
        intro x hx
        have : x.1 ≠ p.1 := fun he => hq (he ▸ List.mem_map_of_mem hx)
        simpa using this
      · have : q.1 ≠ p.1 := fun he => hq (he ▸ List.mem_map_of_mem hp)
        rw [List.filter_cons_of_neg (by simpa using this), ih hl hp]
  rw [lookup_fill, lastFor, hf]
  rfl

/-- The keys are those that were there and those that were inserted. -/
theorem keys_fill (t : HashMap κ β) (l : List (κ × β)) :
    (fill t l).keys.toFinset = t.keys.toFinset ∪ (l.map Prod.fst).toFinset := by
  induction l generalizing t with
  | nil => simp
  | cons p l ih =>
    rw [fill_cons, ih]
    ext k
    simp only [Finset.mem_union, List.mem_toFinset, ← AList.mem_keys, AList.mem_insert,
      List.map_cons, List.mem_cons]
    tauto

theorem mem_fill {l : List (κ × β)} {k : κ} : k ∈ fill ∅ l ↔ k ∈ l.map Prod.fst := by
  have := congrArg (k ∈ ·) (keys_fill ∅ l)
  simpa [← AList.mem_keys] using this

/-- **The size is the number of different keys.** -/
theorem size_eq (t : HashMap κ β) : t.keys.length = t.keys.toFinset.card :=
  (List.toFinset_card_of_nodup t.keys_nodup).symm

theorem length_insert (t : HashMap κ β) (k : κ) (v : β) :
    (t.insert k v).keys.length = t.keys.length + if k ∈ t then 0 else 1 := by
  rw [AList.keys_insert, List.length_cons]
  by_cases hk : k ∈ t
  · have hpos := List.length_pos_of_mem (AList.mem_keys.mp hk)
    rw [if_pos hk, List.length_erase_of_mem (AList.mem_keys.mp hk)]
    omega
  · rw [if_neg hk, List.erase_of_not_mem fun h => hk (AList.mem_keys.mpr h)]

theorem length_fill_le (l : List (κ × β)) : (fill ∅ l).keys.length ≤ l.length := by
  rw [size_eq, keys_fill]
  simpa using List.toFinset_card_le (l.map Prod.fst)

/-! ## One pair a key -/

/-- A pair, unless there is one of its key. -/
def addFirst (l : List (κ × β)) (p : κ × β) : List (κ × β) :=
  if p.1 ∈ l.map Prod.fst then l else l ++ [p]

theorem nodup_addFirst {l : List (κ × β)} (h : (l.map Prod.fst).Nodup) (p : κ × β) :
    ((addFirst l p).map Prod.fst).Nodup := by
  unfold addFirst
  split
  · exact h
  · rename_i hp
    rw [List.map_append]
    refine List.nodup_append.mpr ⟨h, List.nodup_singleton _, fun k hk k' hk' => ?_⟩
    obtain rfl := List.mem_singleton.mp hk'
    exact fun he => hp (he ▸ hk)

/-- The first pair for a key stays the first. -/
theorem firstFor_addFirst (l : List (κ × β)) (p : κ × β) (k : κ) :
    firstFor (addFirst l p) k = firstFor (l ++ [p]) k := by
  unfold addFirst
  split
  · rename_i hp
    rw [firstFor_append]
    by_cases hk : p.1 = k
    · subst hk
      obtain ⟨v, hv⟩ := Option.ne_none_iff_exists'.mp fun h => firstFor_eq_none.mp h hp
      rw [hv]
      rfl
    · rw [firstFor_cons, if_neg hk]
      exact (Option.or_none).symm
  · rfl

/-- The list of the keys is as long as the set of them exactly where it repeats none. -/
theorem card_toFinset_eq_length_iff {l : List κ} : l.toFinset.card = l.length ↔ l.Nodup :=
  Multiset.toFinset_card_eq_card_iff_nodup (m := (l : Multiset κ))

/-! ## Reading entries of different keys -/

section Collect

variable {α ε : Type*} (read : α → Except ε β) (key : β → κ) (twice : α → β → ε)

/-- Entries read one after the other, up to the first that cannot be read or whose key was
read before. -/
def collect : List β → List α → Except ε (List β)
  | out, [] => .ok out
  | out, a :: as => match read a with
    | .error e => .error e
    | .ok b =>
      if (out.map key).contains (key b) then .error (twice a b) else collect (out ++ [b]) as

theorem collect_ok_iff {out : List β} (hout : (out.map key).Nodup) {as : List α} {bs : List β} :
    collect read key twice out as = .ok bs ↔
      ∃ new, as.mapM read = .ok new ∧ bs = out ++ new ∧ (bs.map key).Nodup := by
  induction as generalizing out with
  | nil =>
    rw [collect, Except.ok.injEq]
    constructor
    · intro h
      exact ⟨[], rfl, by simp [h], h ▸ hout⟩
    · intro ⟨new, hnew, hbs, _⟩
      cases hnew
      simpa using hbs.symm
  | cons a as ih =>
    rw [collect, List.mapM_cons]
    cases hr : read a with
    | error e =>
      constructor
      · intro h
        cases h
      · intro ⟨new, hnew, _⟩
        cases hnew
    | ok b =>
      have hnodup : (((out ++ [b]).map key).Nodup) ↔ key b ∉ out.map key := by
        rw [List.map_append, List.nodup_append]
        simp only [hout, List.map_cons, List.map_nil, List.nodup_singleton, true_and,
          List.mem_singleton, forall_eq]
        exact ⟨fun h hm => h _ hm rfl, fun h k hk he => h (he ▸ hk)⟩
      have hnew : ∀ new, (Except.ok b >>= fun b => as.mapM read >>= fun bs => pure (b :: bs)) =
          (.ok new : Except ε (List β)) ↔ ∃ bs, as.mapM read = .ok bs ∧ new = b :: bs := fun new => by
        simp only [bind_eq_ok, pure, Except.pure, Except.ok.injEq, exists_eq_left']
        exact exists_congr fun bs => and_congr_right fun _ => eq_comm
      dsimp only
      split
      · rename_i hmem
        rw [List.contains_iff_mem] at hmem
        constructor
        · intro h
          cases h
        · intro ⟨new, h, hbs, hnd⟩
          obtain ⟨rest, -, rfl⟩ := (hnew new).mp h
          have hpre : ((out ++ [b]).map key).Nodup := by
            refine hnd.sublist (List.Sublist.map key ?_)
            rw [hbs, show out ++ b :: rest = (out ++ [b]) ++ rest by simp]
            exact List.sublist_append_left ..
          exact absurd hmem (hnodup.mp hpre)
      · rename_i hmem
        rw [List.contains_iff_mem] at hmem
        rw [ih (hnodup.mpr hmem)]
        constructor
        · intro ⟨rest, hrest, hbs, hnd⟩
          exact ⟨b :: rest, (hnew _).mpr ⟨rest, hrest, rfl⟩, by simp [hbs], hnd⟩
        · intro ⟨new, h, hbs, hnd⟩
          obtain ⟨rest, hrest, rfl⟩ := (hnew new).mp h
          exact ⟨rest, hrest, by simp [hbs], hnd⟩

theorem collect_nil_ok_iff {as : List α} {bs : List β} :
    collect read key twice [] as = .ok bs ↔ as.mapM read = .ok bs ∧ (bs.map key).Nodup := by
  have hnil : (([] : List β).map key).Nodup := List.nodup_nil
  rw [collect_ok_iff read key twice hnil]
  simp

end Collect

/-! ## Rows picked by their place -/

/-- Different places, sorted, are the places of the table that are among them. -/
theorem mergeSort_of_nodup {is : List Nat} {n : Nat} (hnd : is.Nodup) (hlt : ∀ i ∈ is, i < n) :
    is.mergeSort (fun a b => decide (a ≤ b)) = (List.range n).filter fun i => decide (i ∈ is) := by
  have hperm : (is.mergeSort fun a b => decide (a ≤ b)).Perm
      ((List.range n).filter fun i => decide (i ∈ is)) := by
    refine (List.mergeSort_perm is _).trans ((List.perm_ext_iff_of_nodup hnd ?_).mpr fun i => ?_)
    · exact List.nodup_range.filter _
    · simpa using hlt i
  have hsort : (is.mergeSort fun a b => decide (a ≤ b)).Pairwise fun a b => decide (a ≤ b) = true :=
    List.pairwise_mergeSort (by grind) (by grind) is
  have hrange : ((List.range n).filter fun i => decide (i ∈ is)).Pairwise
      fun a b => decide (a ≤ b) = true := by
    refine (List.pairwise_lt_range.filter _).imp fun h => ?_
    simpa using h.le
  exact hperm.eq_of_pairwise (fun a b _ _ h h' => by simp at h h'; omega) hsort hrange

theorem filterMap_range {α : Type*} (l : List α) (p : α → Bool) (q : Nat → Bool)
    (h : ∀ i a, l[i]? = some a → q i = p a) :
    ((List.range l.length).filter q).filterMap (l[·]?) = l.filter p := by
  induction l using List.reverseRecOn with
  | nil => rfl
  | append_singleton l a ih =>
    have hl : ∀ i b, l[i]? = some b → q i = p b := fun i b hi => h i b <| by
      rw [List.getElem?_append_left (List.getElem?_eq_some_iff.mp hi).1]
      exact hi
    have hlast := h l.length a (by simp)
    have hfront : ((List.range l.length).filter q).filterMap ((l ++ [a])[·]?) = l.filter p := by
      rw [← ih hl]
      refine List.filterMap_congr fun i hi => ?_
      have := List.mem_range.mp (List.mem_filter.mp hi).1
      exact List.getElem?_append_left this
    rw [List.length_append, List.length_singleton, List.range_succ, List.filter_append,
      List.filterMap_append, hfront, List.filter_append]
    cases hq : p a <;> simp [hlast, hq]

/-- **Rows picked in any order, and sorted**, are the table with the other rows left out. -/
theorem pick_sorted {α : Type*} {l : List α} {is : List Nat} (hnd : is.Nodup)
    (hlt : ∀ i ∈ is, i < l.length) {p : α → Bool} (hp : ∀ i a, l[i]? = some a → (i ∈ is ↔ p a = true)) :
    (is.mergeSort fun a b => decide (a ≤ b)).filterMap (l[·]?) = l.filter p := by
  rw [mergeSort_of_nodup hnd hlt]
  refine filterMap_range l p _ fun i a hi => ?_
  rw [Bool.eq_iff_iff, decide_eq_true_iff]
  exact hp i a hi

end FreenetHarness.Lib.Table
