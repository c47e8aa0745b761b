import FreenetHarness.Lib.Run
import FreenetHarness.Lib.Table

/-! # A list served in rounds

A round visits the items that are not served yet, in order. A visit serves its item, which
then leaves, or it does not, and the item is visited again in the next round; it may stop
the whole. What the visits share is their side state, which something may change between
two rounds. `rounds_perm` says that no item is lost or served twice, `served_eq` that what
was served is what the visits gave, `waiting_perm` that what waits at a visit is what was
not served yet. -/
namespace FreenetHarness.Lib.Rounds
open FreenetHarness.Lib.Run FreenetHarness.Lib.Table

variable {κ σ τ ε β ρ : Type}

/-- Between two visits. -/
structure Progress (κ σ β : Type) where
  side : σ
  /-- The items served, each with what it was served. -/
  served : List (κ × β) := []
  /-- The items to visit again. -/
  still : List κ

/-- A visit, before it is made. -/
structure Visit (κ σ τ : Type) where
  /-- The items not served yet, its own among them. -/
  waiting : List κ
  side : σ
  item : κ
  meets : τ

section Rounds

variable (serve : σ → κ → τ → Except ε (σ × Option β))

def visit (s : Progress κ σ β) (x : κ × τ) : Except ε (Progress κ σ β) :=
  match serve s.side x.1 x.2 with
  | .error e => .error e
  | .ok (side, some b) => .ok { s with side, served := s.served ++ [(x.1, b)] }
  | .ok (side, none) => .ok { s with side, still := s.still ++ [x.1] }

/-- The items of a round, each with what its visit meets. -/
def order (items : List κ) (r : Nat → τ) : List (κ × τ) :=
  items.zip ((List.range items.length).map r)

def round (s : Progress κ σ β) (r : Nat → τ) : Except ε (Progress κ σ β) :=
  (order s.still r).foldlM (visit serve) { s with still := [] }

section Between

variable (between : Progress κ σ β → ρ → Except ε σ)

/-- The rounds that begin, each with what comes after it. -/
def roundsWith : Progress κ σ β → List ((Nat → τ) × ρ) → Except ε (Progress κ σ β)
  | s, [] => .ok s
  | s, (r, b) :: rs =>
    if s.still.isEmpty then .ok s
    else
      match round serve s r with
      | .error e => .error e
      | .ok s => match between s b with
        | .error e => .error e
        | .ok side => roundsWith { s with side } rs

end Between

/-- Nothing comes between two rounds. -/
def straight (s : Progress κ σ β) (_ : Unit) : Except ε σ := .ok s.side

/-- The rounds that begin. -/
def rounds (s : Progress κ σ β) (rs : List (Nat → τ)) : Except ε (Progress κ σ β) :=
  roundsWith serve straight s (rs.map fun r => (r, ()))

/-! ## The visits made -/

def visitsIn : Progress κ σ β → List (κ × τ) → List (Visit κ σ τ)
  | _, [] => []
  | s, x :: xs =>
    { waiting := s.still ++ x.1 :: xs.map Prod.fst, side := s.side, item := x.1, meets := x.2 } ::
      match visit serve s x with
      | .error _ => []
      | .ok s => visitsIn s xs

def visitsWith (between : Progress κ σ β → ρ → Except ε σ) :
    Progress κ σ β → List ((Nat → τ) × ρ) → List (Visit κ σ τ)
  | _, [] => []
  | s, (r, b) :: rs =>
    if s.still.isEmpty then []
    else
      visitsIn serve { s with still := [] } (order s.still r) ++
        match round serve s r with
        | .error _ => []
        | .ok s => match between s b with
          | .error _ => []
          | .ok side => visitsWith between { s with side } rs

def visits (s : Progress κ σ β) (rs : List (Nat → τ)) : List (Visit κ σ τ) :=
  visitsWith serve straight s (rs.map fun r => (r, ()))

/-- What a visit serves its item with. -/
def Visit.gives (v : Visit κ σ τ) : Option (κ × β) :=
  match serve v.side v.item v.meets with
  | .ok (_, some b) => some (v.item, b)
  | _ => none

variable {serve} {s s' : Progress κ σ β}

@[simp] theorem order_fst (items : List κ) (r : Nat → τ) :
    (order items r).map Prod.fst = items := by
  simp [order, List.map_fst_zip]

/-- **One visit**: the item is served with what the visit gives, or it stays. -/
theorem visit_ok {x : κ × τ} (waiting : List κ) (h : visit serve s x = .ok s') :
    (s'.served.map Prod.fst ++ s'.still).Perm (s.served.map Prod.fst ++ s.still ++ [x.1]) ∧
      s'.served = s.served ++
        (Visit.gives serve { waiting, side := s.side, item := x.1, meets := x.2 }).toList := by
  unfold visit at h
  unfold Visit.gives
  split at h
  · cases h
  · rename_i side b hs
    cases h
    simp only [hs, Option.toList_some, List.map_append, List.map_singleton, and_true]
    rw [List.append_assoc, List.append_assoc]
    have hcomm : ([x.1] ++ s.still).Perm (s.still ++ [x.1]) := List.perm_append_comm
    exact hcomm.append_left _
  · rename_i side hs
    cases h
    simp only [hs, Option.toList_none, List.append_nil, and_true]
    rw [List.append_assoc]

theorem gives_cons (v : Visit κ σ τ) (vs : List (Visit κ σ τ)) :
    (v :: vs).filterMap (Visit.gives serve) =
      (Visit.gives serve v).toList ++ vs.filterMap (Visit.gives serve) := by
  cases hg : Visit.gives serve v with
  | none => exact List.filterMap_cons_none hg
  | some b => exact List.filterMap_cons_some hg

theorem visits_ok {xs : List (κ × τ)} (h : xs.foldlM (visit serve) s = .ok s') :
    (s'.served.map Prod.fst ++ s'.still).Perm
        (s.served.map Prod.fst ++ s.still ++ xs.map Prod.fst) ∧
      s'.served = s.served ++ (visitsIn serve s xs).filterMap (Visit.gives serve) := by
  induction xs generalizing s with
  | nil =>
    cases h
    simp [visitsIn]
  | cons x xs ih =>
    rw [List.foldlM_cons, bind_eq_ok] at h
    obtain ⟨t, ht, h⟩ := h
    obtain ⟨hperm, hserved⟩ := visit_ok (s.still ++ x.1 :: xs.map Prod.fst) ht
    obtain ⟨hperm', hserved'⟩ := ih h
    constructor
    · refine hperm'.trans ((hperm.append_right _).trans ?_)
      rw [List.map_cons, List.append_assoc, List.singleton_append]
    · rw [hserved', hserved, visitsIn, ht, gives_cons, List.append_assoc]

theorem round_ok {r : Nat → τ} (h : round serve s r = .ok s') :
    (s'.served.map Prod.fst ++ s'.still).Perm (s.served.map Prod.fst ++ s.still) ∧
      s'.served = s.served ++ (visitsIn serve { s with still := [] } (order s.still r)).filterMap
        (Visit.gives serve) := by
  have := visits_ok h
  simpa using this

/-- The rounds come to an end, or something stops them. -/
theorem roundsWith_cases {between : Progress κ σ β → ρ → Except ε σ} {r : Nat → τ} {b : ρ}
    {rs : List ((Nat → τ) × ρ)} (h : roundsWith serve between s ((r, b) :: rs) = .ok s') :
    s.still.isEmpty = true ∧ s' = s ∨ s.still.isEmpty = false ∧ ∃ t side,
      round serve s r = .ok t ∧ between t b = .ok side ∧
        roundsWith serve between { t with side } rs = .ok s' := by
  unfold roundsWith at h
  split at h
  · rename_i he
    cases h
    exact .inl ⟨he, rfl⟩
  · rename_i he
    split at h
    · cases h
    · rename_i t ht
      split at h
      · cases h
      · rename_i side hside
        exact .inr ⟨by simpa using he, t, side, ht, hside, h⟩

/-- **No item is lost, and none served twice.** -/
theorem roundsWith_perm {between : Progress κ σ β → ρ → Except ε σ}
    {rs : List ((Nat → τ) × ρ)} (h : roundsWith serve between s rs = .ok s') :
    (s'.served.map Prod.fst ++ s'.still).Perm (s.served.map Prod.fst ++ s.still) := by
  induction rs generalizing s with
  | nil =>
    cases h
    exact List.Perm.refl _
  | cons x rs ih =>
    obtain ⟨-, rfl⟩ | ⟨-, t, side, ht, -, h⟩ := roundsWith_cases h
    · exact List.Perm.refl _
    · exact (ih h).trans (round_ok ht).1

/-- **What was served** is what the visits gave. -/
theorem servedWith_eq {between : Progress κ σ β → ρ → Except ε σ}
    {rs : List ((Nat → τ) × ρ)} (h : roundsWith serve between s rs = .ok s') :
    s'.served = s.served ++ (visitsWith serve between s rs).filterMap (Visit.gives serve) := by
  induction rs generalizing s with
  | nil =>
    cases h
    simp [visitsWith]
  | cons x rs ih =>
    unfold visitsWith
    obtain ⟨he, rfl⟩ | ⟨he, t, side, ht, hside, h⟩ := roundsWith_cases h
    · simp [he]
    · rw [he, if_neg Bool.false_ne_true, ht]
      dsimp only
      rw [hside, ih h, (round_ok ht).2, List.filterMap_append, List.append_assoc]

/-- An invariant of the side state, that every visit keeps and what comes after a round. -/
theorem roundsWith_invariant {I : σ → Prop} {between : Progress κ σ β → ρ → Except ε σ}
    (hserve : ∀ side x t side' b, I side → serve side x t = .ok (side', b) → I side')
    (hbetween : ∀ (s : Progress κ σ β) b side, I s.side → between s b = .ok side → I side)
    {rs : List ((Nat → τ) × ρ)} (h0 : I s.side) (h : roundsWith serve between s rs = .ok s') :
    I s'.side := by
  induction rs generalizing s with
  | nil =>
    cases h
    exact h0
  | cons x rs ih =>
    obtain ⟨-, rfl⟩ | ⟨-, t, side, ht, hside, h⟩ := roundsWith_cases h
    · exact h0
    · refine ih (hbetween t x.2 side ?_ hside) h
      refine foldlM_invariant (I := fun s : Progress κ σ β => I s.side) (fun s y _ s' hs hv => ?_)
        (show I ({ s with still := [] } : Progress κ σ β).side from h0) ht
      unfold visit at hv
      split at hv
      · cases hv
      · rename_i hy
        cases hv
        exact hserve _ _ _ _ _ hs hy
      · rename_i hy
        cases hv
        exact hserve _ _ _ _ _ hs hy

theorem rounds_perm {rs : List (Nat → τ)} (h : rounds serve s rs = .ok s') :
    (s'.served.map Prod.fst ++ s'.still).Perm (s.served.map Prod.fst ++ s.still) :=
  roundsWith_perm h

theorem served_eq {rs : List (Nat → τ)} (h : rounds serve s rs = .ok s') :
    s'.served = s.served ++ (visits serve s rs).filterMap (Visit.gives serve) :=
  servedWith_eq h

/-- A round whose visits never stop the whole comes to its end. -/
theorem round_total (hserve : ∀ side x t, ∃ r, serve side x t = .ok r) (s : Progress κ σ β)
    (r : Nat → τ) : ∃ s', round serve s r = .ok s' := by
  have hvisit : ∀ (s : Progress κ σ β) x, ∃ s', visit serve s x = .ok s' := by
    intro s x
    obtain ⟨⟨side, r⟩, hr⟩ := hserve s.side x.1 x.2
    unfold visit
    rw [hr]
    cases r <;> exact ⟨_, rfl⟩
  have hvisits : ∀ (xs : List (κ × τ)) (s : Progress κ σ β),
      ∃ s', xs.foldlM (visit serve) s = .ok s' := by
    intro xs
    induction xs with
    | nil => exact fun s => ⟨s, rfl⟩
    | cons x xs ih => exact fun s => bind_ok (hvisit s x) ih
  exact hvisits _ _

/-- Rounds whose visits never stop the whole come to their end. -/
theorem rounds_total (hserve : ∀ side x t, ∃ r, serve side x t = .ok r) (s : Progress κ σ β)
    (rs : List (Nat → τ)) : ∃ s', rounds serve s rs = .ok s' := by
  induction rs generalizing s with
  | nil => exact ⟨s, rfl⟩
  | cons r rs ih =>
    obtain ⟨t, ht⟩ := round_total hserve s r
    unfold rounds
    rw [List.map_cons, roundsWith, ht]
    split
    · exact ⟨s, rfl⟩
    · exact ih t

/-! ## What waits at a visit -/

theorem visit_gives {x : κ × τ} (waiting : List κ) (h : visit serve s x = .ok s') :
    ((Visit.gives serve { waiting, side := s.side, item := x.1, meets := x.2 }).toList.map
      Prod.fst ++ s'.still).Perm (s.still ++ [x.1]) := by
  obtain ⟨hperm, hserved⟩ := visit_ok waiting h
  rw [hserved, List.map_append, List.append_assoc, List.append_assoc] at hperm
  exact (List.perm_append_left_iff _).mp hperm

theorem round_gives {r : Nat → τ} (h : round serve s r = .ok s') :
    (((visitsIn serve { s with still := [] } (order s.still r)).filterMap
      (Visit.gives serve)).map Prod.fst ++ s'.still).Perm s.still := by
  obtain ⟨hperm, hserved⟩ := round_ok h
  rw [hserved, List.map_append, List.append_assoc] at hperm
  exact (List.perm_append_left_iff _).mp hperm

/-- A round stops with an error of one of its visits. -/
theorem of_round_error {r : Nat → τ} {e : ε} (h : round serve s r = .error e) :
    ∃ side, ∃ x ∈ s.still, ∃ t, serve side x t = .error e := by
  obtain ⟨t, x, hx, ht⟩ := of_foldlM_error h
  refine ⟨t.side, x.1, ?_, x.2, ?_⟩
  · rw [← order_fst s.still r]
    exact List.mem_map_of_mem hx
  · unfold visit at ht
    split at ht <;> cases ht
    assumption

/-- Rounds stop with an error of a visit to one of the items, or of what comes between. -/
theorem of_roundsWith_error {between : Progress κ σ β → ρ → Except ε σ}
    {rs : List ((Nat → τ) × ρ)} {e : ε} (h : roundsWith serve between s rs = .error e) :
    (∃ side, ∃ x ∈ s.still, ∃ t, serve side x t = .error e) ∨
      ∃ t b, t.still ⊆ s.still ∧ between t b = .error e := by
  induction rs generalizing s with
  | nil => cases h
  | cons x rs ih =>
    unfold roundsWith at h
    split at h
    · cases h
    split at h
    · rename_i he
      cases h
      exact .inl (of_round_error he)
    · rename_i t ht
      have hsub : t.still ⊆ s.still := fun x hx =>
        (round_gives ht).subset (List.mem_append_right _ hx)
      split at h
      · rename_i he
        cases h
        exact .inr ⟨t, _, hsub, he⟩
      · obtain ⟨side, x, hx, m, hm⟩ | ⟨u, b, hu, hb⟩ := ih h
        · exact .inl ⟨side, x, hsub hx, m, hm⟩
        · exact .inr ⟨u, b, fun x hx => hsub (hu hx), hb⟩

theorem visitsIn_waiting {xs : List (κ × τ)} {pre post : List (Visit κ σ τ)} {v : Visit κ σ τ}
    (h : visitsIn serve s xs = pre ++ v :: post) :
    ((pre.filterMap (Visit.gives serve)).map Prod.fst ++ v.waiting).Perm
      (s.still ++ xs.map Prod.fst) := by
  induction xs generalizing s pre with
  | nil => cases pre <;> cases h
  | cons x xs ih =>
    unfold visitsIn at h
    cases pre with
    | nil =>
      obtain ⟨rfl, -⟩ := List.cons_eq_cons.mp h
      exact List.Perm.refl _
    | cons w pre =>
      obtain ⟨rfl, htail⟩ := List.cons.inj h
      split at htail
      · cases pre <;> cases htail
      · rename_i t ht
        rw [gives_cons, List.map_append, List.append_assoc]
        refine ((ih htail).append_left _).trans ?_
        rw [← List.append_assoc]
        refine ((visit_gives _ ht).append_right _).trans ?_
        rw [List.append_assoc, List.singleton_append, List.map_cons]

/-- **What waits at a visit** is what no earlier one served. -/
theorem waitingWith_perm {between : Progress κ σ β → ρ → Except ε σ}
    {rs : List ((Nat → τ) × ρ)} {pre post : List (Visit κ σ τ)} {v : Visit κ σ τ}
    (h : visitsWith serve between s rs = pre ++ v :: post) :
    ((pre.filterMap (Visit.gives serve)).map Prod.fst ++ v.waiting).Perm s.still := by
  induction rs generalizing s pre with
  | nil => cases pre <;> cases h
  | cons x rs ih =>
    obtain ⟨r, b⟩ := x
    unfold visitsWith at h
    split at h
    · cases pre <;> cases h
    · have hlater : ∀ as, pre = visitsIn serve { s with still := [] } (order s.still r) ++ as →
          (match round serve s r with
            | .error _ => []
            | .ok s => match between s b with
              | .error _ => []
              | .ok side => visitsWith serve between { s with side } rs) = as ++ v :: post →
          ((pre.filterMap (Visit.gives serve)).map Prod.fst ++ v.waiting).Perm s.still := by
        rintro as rfl hrest
        split at hrest
        · cases as <;> cases hrest
        · rename_i t ht
          split at hrest
          · cases as <;> cases hrest
          · rw [List.filterMap_append, List.map_append, List.append_assoc]
            have hround := round_gives ht
            exact ((ih hrest).append_left _).trans hround
      obtain ⟨as, hpre, hrest⟩ | ⟨bs, hround, hrest⟩ := List.append_eq_append_iff.mp h
      · exact hlater as hpre hrest
      · cases bs with
        | nil => exact hlater [] (by simpa using hround.symm) hrest.symm
        | cons b bs =>
          obtain ⟨rfl, -⟩ := List.cons.inj hrest
          simpa using visitsIn_waiting hround

theorem waiting_perm {rs : List (Nat → τ)} {pre post : List (Visit κ σ τ)} {v : Visit κ σ τ}
    (h : visits serve s rs = pre ++ v :: post) :
    ((pre.filterMap (Visit.gives serve)).map Prod.fst ++ v.waiting).Perm s.still :=
  waitingWith_perm h

end Rounds

/-! ## What became of an item -/

/-- What the item of a name was served. -/
def fate {ν : Type} [DecidableEq ν] (name : κ → ν) (served : List (κ × β)) (k : ν) : Option β :=
  firstFor (served.map fun p => (name p.1, p.2)) k

section Fate

variable {ν : Type} [DecidableEq ν] {name : κ → ν} {served : List (κ × β)} {still items : List κ}

theorem fate_eq_some_iff (hd : (served.map fun p => name p.1).Nodup) {k : ν} {b : β} :
    fate name served k = some b ↔ ∃ x, (x, b) ∈ served ∧ name x = k := by
  rw [fate, firstFor_eq_some_iff (by simpa [Function.comp_def] using hd), List.mem_map]
  constructor
  · rintro ⟨p, hp, he⟩
    cases he
    exact ⟨p.1, hp, rfl⟩
  · rintro ⟨x, hx, rfl⟩
    exact ⟨(x, b), hx, rfl⟩

/-- **One line an item**: those served and those still there, each with what became of it,
are the items with what became of each. -/
theorem perm_fates {γ : Type} (hd : (items.map name).Nodup)
    (hp : (served.map Prod.fst ++ still).Perm items) (f : κ → Option β → γ) :
    (served.map (fun p => f p.1 (some p.2)) ++ still.map fun x => f x none).Perm
      (items.map fun x => f x (fate name served (name x))) := by
  have hnames : ((served.map Prod.fst ++ still).map name).Nodup :=
    ((hp.map name).nodup_iff).mpr hd
  rw [List.map_append, List.map_map] at hnames
  have hserved : (served.map fun p => name p.1).Nodup := (List.nodup_append.mp hnames).1
  refine List.Perm.trans (List.Perm.of_eq ?_) (hp.map fun x => f x (fate name served (name x)))
  rw [List.map_append, List.map_map]
  congr 1
  · refine List.map_congr_left fun p hm => ?_
    rw [Function.comp_apply, (fate_eq_some_iff hserved).mpr ⟨p.1, hm, rfl⟩]
  · refine List.map_congr_left fun x hm => ?_
    cases hf : fate name served (name x) with
    | none => rfl
    | some b =>
      obtain ⟨y, hy, hn⟩ := (fate_eq_some_iff hserved).mp hf
      have hleft : name y ∈ served.map (name ∘ Prod.fst) :=
        List.mem_map.mpr ⟨(y, b), hy, rfl⟩
      exact absurd (hn ▸ List.mem_map.mpr ⟨x, hm, rfl⟩)
        (List.disjoint_of_nodup_append hnames hleft)

end Fate

end FreenetHarness.Lib.Rounds
