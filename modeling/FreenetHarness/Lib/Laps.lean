import Mathlib.Data.List.Basic

/-! # Laps

A run visits its lanes in order, lap after lap. It ends before a lap once it has enough,
before a visit once its budget is spent, and after the last lap. `laps_ok` is its rule: an
invariant that counts the laps and the visits of the lap in progress holds where the run
ends, with nothing of a lap done unless the budget cut it. `Filed` is such an invariant, of
what the visits give. -/
namespace FreenetHarness.Lib.Laps

variable {σ ι ε : Type}

/-- Why a run ended. -/
inductive Stop where
  | enough
  | budget
  | cap
  deriving DecidableEq

/-- Where a run ended, after how many whole laps. -/
structure Ended (σ : Type) where
  state : σ
  laps : Nat
  stop : Stop

section Laps

variable (visit : σ → ι → Except ε σ) (spent enough : σ → Bool)

/-- One lap, and whether the budget cut it. -/
def lap : List ι → σ → Except ε (σ × Bool)
  | [], s => .ok (s, false)
  | i :: is, s =>
    if spent s then .ok (s, true)
    else
      match visit s i with
      | .error e => .error e
      | .ok s => lap is s

/-- The laps that are left, after `done` whole ones. -/
def laps (lanes : List ι) : Nat → Nat → σ → Except ε (Ended σ)
  | 0, done, s => .ok { state := s, laps := done, stop := .cap }
  | left + 1, done, s =>
    if enough s then .ok { state := s, laps := done, stop := .enough }
    else
      match lap visit spent lanes s with
      | .error e => .error e
      | .ok (s, true) => .ok { state := s, laps := done, stop := .budget }
      | .ok (s, false) => laps lanes left (done + 1) s

end Laps

/-- How far a run of at most `cap` laps got into its last lap, and that it ended for the
reason it gives. -/
structure Ended.At (spent enough : σ → Bool) (lanes cap : Nat) (e : Ended σ) (k : Nat) : Prop where
  laps_le : e.laps ≤ cap
  lt : e.stop = .budget → k < lanes
  eq_zero : e.stop ≠ .budget → k = 0
  spent : e.stop = .budget → spent e.state = true
  enough : e.stop = .enough → enough e.state = true
  cap : e.stop = .cap → e.laps = cap

section Rule

variable {visit : σ → ι → Except ε σ} {spent enough : σ → Bool} {lanes : List ι}
  {I : Nat → Nat → σ → Prop}

/-- **One lap.** It is visited to its end, or cut at a visit that the budget does not allow. -/
theorem lap_ok {r : Nat}
    (hvisit : ∀ k i s s', lanes[k]? = some i → spent s = false → I r k s → visit s i = .ok s' →
      I r (k + 1) s') {k : Nat} {is : List ι} (his : lanes.drop k = is) {s s' : σ} {cut : Bool}
    (hs : I r k s) (h : lap visit spent is s = .ok (s', cut)) :
    ∃ k', I r k' s' ∧
      if cut then k' < lanes.length ∧ spent s' = true else k' = k + is.length := by
  induction is generalizing k s with
  | nil =>
    cases h
    exact ⟨k, hs, rfl⟩
  | cons i is ih =>
    have hk : k < lanes.length := by
      by_contra hk
      rw [List.drop_eq_nil_of_le (Nat.not_lt.mp hk)] at his
      cases his
    have hi : lanes[k]? = some i := by
      rw [← List.head?_drop, his, List.head?_cons]
    have hrest : lanes.drop (k + 1) = is := by
      rw [← List.tail_drop, his, List.tail_cons]
    unfold lap at h
    by_cases hsp : spent s = true
    · rw [if_pos hsp] at h
      cases h
      exact ⟨k, hs, hk, hsp⟩
    · rw [if_neg hsp] at h
      cases hv : visit s i with
      | error e =>
        rw [hv] at h
        cases h
      | ok t =>
        rw [hv] at h
        obtain ⟨k', hk', hcut⟩ :=
          ih hrest (hvisit k i s t hi (Bool.eq_false_iff.mpr hsp) hs hv) h
        refine ⟨k', hk', ?_⟩
        cases cut with
        | true => exact hcut
        | false =>
          rw [List.length_cons, Nat.add_comm is.length, ← Nat.add_assoc]
          exact hcut

/-- **The rule of a run.** -/
theorem laps_ok (hvisit : ∀ r k i s s', lanes[k]? = some i → spent s = false → I r k s →
      visit s i = .ok s' → I r (k + 1) s')
    (hlap : ∀ r s, I r lanes.length s → I (r + 1) 0 s) {cap : Nat} {s : σ} {e : Ended σ}
    (h0 : I 0 0 s) (h : laps visit spent enough lanes cap 0 s = .ok e) :
    ∃ k, I e.laps k e.state ∧ e.At spent enough lanes.length cap k := by
  suffices H : ∀ left done s, done + left = cap → I done 0 s →
      laps visit spent enough lanes left done s = .ok e →
      ∃ k, I e.laps k e.state ∧ e.At spent enough lanes.length cap k from
    H cap 0 s (Nat.zero_add cap) h0 h
  intro left
  induction left with
  | zero =>
    intro done s hcap hs h
    cases h
    exact ⟨0, hs, Nat.le_of_eq hcap, nofun, fun _ => rfl, nofun, nofun, fun _ => hcap⟩
  | succ left ih =>
    intro done s hcap hs h
    have hle : done ≤ cap := by omega
    unfold laps at h
    by_cases he : enough s = true
    · rw [if_pos he] at h
      cases h
      exact ⟨0, hs, hle, nofun, fun _ => rfl, nofun, fun _ => he, nofun⟩
    · rw [if_neg he] at h
      cases hl : lap visit spent lanes s with
      | error e =>
        rw [hl] at h
        cases h
      | ok x =>
        obtain ⟨s', cut⟩ := x
        obtain ⟨k, hk, hcut⟩ := lap_ok (hvisit done) (k := 0) rfl hs hl
        rw [hl] at h
        cases cut with
        | true =>
          cases h
          exact ⟨k, hk, hle, fun _ => hcut.1, fun h => absurd rfl h, fun _ => hcut.2, nofun,
            nofun⟩
        | false =>
          rw [if_neg Bool.false_ne_true, Nat.zero_add] at hcut
          subst hcut
          exact ih (done + 1) s' (by omega) (hlap done s' hk) h

end Rule

/-- How many visits the lane at a place has had, `k` into the lap after the `r`-th. -/
def visits (r k j : Nat) : Nat := if j < k then r + 1 else r

theorem visits_zero (r j : Nat) : visits r 0 j = r := if_neg (Nat.not_lt_zero j)

theorem visits_of_lt {r n j : Nat} (h : j < n) : visits r n j = r + 1 := if_pos h

theorem visits_succ (r k j : Nat) : visits r (k + 1) j = visits r k j + if j = k then 1 else 0 := by
  unfold visits
  split <;> split <;> split <;> omega

/-! ## What the visits give -/

section Files

variable {β : Type} {made : Nat → Nat → β → Prop} {n r k : Nat} {files : List (List β)}

/-- A result, put behind the others of its lane. -/
def file (files : List (List β)) (j : Nat) (x : β) : List (List β) := files.modify j (· ++ [x])

/-- The results of every lane in order, `k` visits into the lap after the `r`-th: the `q`-th
of lane `j` was made by the visit that `q` whole laps and `j` visits came before. -/
structure Filed (made : Nat → Nat → β → Prop) (n r k : Nat) (files : List (List β)) : Prop where
  length : files.length = n
  count : ∀ j l, files[j]? = some l → l.length = visits r k j
  order : ∀ j l q x, files[j]? = some l → l[q]? = some x → made (q * n + j) j x

theorem file_getElem? {k j : Nat} {x : β} {l : List β} (h : (file files k x)[j]? = some l) :
    ∃ l', files[j]? = some l' ∧ l = l' ++ if k = j then [x] else [] := by
  rw [file, List.getElem?_modify] at h
  obtain ⟨l', hl', rfl⟩ := Option.map_eq_some_iff.mp h
  refine ⟨l', hl', ?_⟩
  by_cases hj : k = j
  · rw [if_pos hj, if_pos hj]
  · rw [if_neg hj, if_neg hj, List.append_nil]

/-- What a change of one entry leaves as it is. -/
theorem map_modify_eq {α γ : Type} {f : α → α} {g : α → γ} (h : ∀ a, g (f a) = g a) (l : List α)
    (i : Nat) : (l.modify i f).map g = l.map g := by
  refine List.ext_getElem? fun j => ?_
  rw [List.getElem?_map, List.getElem?_modify, List.getElem?_map]
  cases l[j]? with
  | none => rfl
  | some a => by_cases hj : i = j <;> simp [hj, h]

/-- A change of one entry that files a result. -/
theorem map_modify_file {α : Type} {f : α → α} {g : α → List β} {x : β}
    (h : ∀ a, g (f a) = g a ++ [x]) (l : List α) (i : Nat) :
    (l.modify i f).map g = file (l.map g) i x := by
  refine List.ext_getElem? fun j => ?_
  rw [file, List.getElem?_map, List.getElem?_modify, List.getElem?_modify, List.getElem?_map]
  cases l[j]? with
  | none => rfl
  | some a => by_cases hj : i = j <;> simp [hj, h]

/-- Results told apart by a key, put behind one another, file by key. -/
theorem map_filter_append {κ : Type} [DecidableEq κ] {keys : List κ} (hd : keys.Nodup)
    {key : β → κ} {x : β} {k : Nat} (hk : keys[k]? = some (key x)) (out : List β) :
    (keys.map fun a => (out ++ [x]).filter (key · = a)) =
      file (keys.map fun a => out.filter (key · = a)) k x := by
  refine List.ext_getElem? fun j => ?_
  rw [file, List.getElem?_modify, List.getElem?_map, List.getElem?_map]
  cases hj : keys[j]? with
  | none => rfl
  | some a =>
    rw [Option.map_some, Option.map_some, List.filter_append]
    by_cases hkj : k = j
    · subst hkj
      obtain rfl := Option.some.inj (hk.symm.trans hj)
      simp
    · have hne : key x ≠ a := fun he => hkj (by
        obtain ⟨h1, h1'⟩ := List.getElem?_eq_some_iff.mp hk
        obtain ⟨h2, h2'⟩ := List.getElem?_eq_some_iff.mp hj
        exact (List.getElem_inj hd).mp (by rw [h1', h2', he]))
      simp [hkj, hne]

namespace Filed

theorem start (n : Nat) : Filed made n 0 0 (List.replicate n []) := by
  have hnil : ∀ (j : Nat) (l : List β), (List.replicate n [])[j]? = some l → l = [] :=
    fun j l hl => List.eq_of_mem_replicate (List.mem_of_getElem? hl)
  refine ⟨List.length_replicate, fun j l hl => ?_, fun j l q x hl hx => ?_⟩
  · rw [hnil j l hl, visits_zero]
    rfl
  · rw [hnil j l hl] at hx
    cases hx

/-- **Step.** -/
theorem file (h : Filed made n r k files) {x : β} (hx : made (r * n + k) k x) :
    Filed made n r (k + 1) (Laps.file files k x) := by
  refine ⟨?_, fun j l hl => ?_, fun j l q y hl hy => ?_⟩
  · rw [Laps.file, List.length_modify, h.length]
  · obtain ⟨l', hl', rfl⟩ := file_getElem? hl
    rw [List.length_append, visits_succ, h.count j l' hl']
    by_cases hj : k = j
    · rw [if_pos hj, if_pos hj.symm]
      rfl
    · rw [if_neg hj, if_neg (Ne.symm hj)]
      rfl
  · obtain ⟨l', hl', rfl⟩ := file_getElem? hl
    by_cases hq : q < l'.length
    · rw [List.getElem?_append_left hq] at hy
      exact h.order j l' q y hl' hy
    · rw [List.getElem?_append_right (Nat.not_lt.mp hq)] at hy
      by_cases hj : k = j
      · subst hj
        rw [if_pos rfl, List.getElem?_singleton] at hy
        split at hy
        · cases hy
          have hlen := h.count k l' hl'
          rw [visits, if_neg (Nat.lt_irrefl k)] at hlen
          rw [show q = r by omega]
          exact hx
        · cases hy
      · rw [if_neg hj] at hy
        cases hy

/-- A whole lap. -/
theorem lap (h : Filed made n r n files) : Filed made n (r + 1) 0 files := by
  refine ⟨h.length, fun j l hl => ?_, h.order⟩
  have hj : j < n := h.length ▸ (List.getElem?_eq_some_iff.mp hl).1
  rw [h.count j l hl, visits_of_lt hj, visits_zero]

end Filed

end Files

end FreenetHarness.Lib.Laps
