import Mathlib.Data.List.Basic
import Mathlib.Data.List.Forall2

/-! # Runs of a deterministic machine

A machine is a step function on a state type; a run is a list of events. A
property of a run is a property `P` of every step in it, read in the state the
step starts from (`Along`). The two rules every user needs are that an
invariant is carried to the end of a run, and that two step properties which
agree under an invariant hold along the same runs. -/
namespace FreenetHarness.Lib.Run

variable {σ ε τ : Type*} {step : σ → ε → σ} {P Q : σ → ε → Prop} {I : σ → Prop}

/-- The state a run ends in. -/
def after (step : σ → ε → σ) (s : σ) (es : List ε) : σ := es.foldl step s

@[simp] theorem after_nil (s : σ) : after step s [] = s := rfl

@[simp] theorem after_cons (s : σ) (e : ε) (es : List ε) :
    after step s (e :: es) = after step (step s e) es := rfl

theorem after_append (s : σ) (es fs : List ε) :
    after step s (es ++ fs) = after step (after step s es) fs := List.foldl_append

/-- Every step of the run has the property `P`. -/
def Along (step : σ → ε → σ) (P : σ → ε → Prop) : σ → List ε → Prop
  | _, [] => True
  | s, e :: es => P s e ∧ Along step P (step s e) es

@[simp] theorem along_nil (s : σ) : Along step P s [] := trivial

@[simp] theorem along_cons (s : σ) (e : ε) (es : List ε) :
    Along step P s (e :: es) ↔ P s e ∧ Along step P (step s e) es := Iff.rfl

theorem along_append (s : σ) (es fs : List ε) :
    Along step P s (es ++ fs) ↔ Along step P s es ∧ Along step P (after step s es) fs := by
  induction es generalizing s with
  | nil => simp
  | cons e es ih => simp [ih, and_assoc]

/-- **Invariant rule.** What every step with property `P` preserves holds at
the end of a run all of whose steps have it. -/
theorem Along.invariant {s : σ} {es : List ε} (h : Along step P s es) (h0 : I s)
    (hstep : ∀ s, ∀ e ∈ es, I s → P s e → I (step s e)) : I (after step s es) := by
  induction es generalizing s with
  | nil => exact h0
  | cons e es ih =>
    exact ih h.2 (hstep s e (by simp) h0 h.1) fun s e he => hstep s e (List.mem_cons_of_mem _ he)

/-- Under an invariant, a step property may be traded for a weaker one. -/
theorem Along.imp {s : σ} {es : List ε} (h : Along step P s es) (h0 : I s)
    (hstep : ∀ s, ∀ e ∈ es, I s → P s e → I (step s e))
    (hpq : ∀ s, ∀ e ∈ es, I s → P s e → Q s e) : Along step Q s es := by
  induction es generalizing s with
  | nil => trivial
  | cons e es ih =>
    exact ⟨hpq s e (by simp) h0 h.1,
      ih h.2 (hstep s e (by simp) h0 h.1) (fun s e he => hstep s e (List.mem_cons_of_mem _ he))
        fun s e he => hpq s e (List.mem_cons_of_mem _ he)⟩

/-- Two step properties that agree under an invariant hold along the same
runs. The invariant need only survive the steps that have the first one. -/
theorem along_congr {s : σ} {es : List ε} (h0 : I s)
    (hstep : ∀ s, ∀ e ∈ es, I s → P s e → I (step s e))
    (hpq : ∀ s, ∀ e ∈ es, I s → (P s e ↔ Q s e)) :
    Along step P s es ↔ Along step Q s es := by
  constructor
  · exact fun h => h.imp h0 hstep fun s e he hi => (hpq s e he hi).mp
  · exact fun h => h.imp h0 (fun s e he hi hq => hstep s e he hi ((hpq s e he hi).mpr hq))
      fun s e he hi => (hpq s e he hi).mpr

/-- Step properties that agree wherever a third one holds, along a run along which it does. -/
theorem Along.congr_of {D : σ → ε → Prop} {s : σ} {es : List ε} (hd : Along step D s es)
    (hpq : ∀ s, ∀ e ∈ es, D s e → (P s e ↔ Q s e)) : Along step P s es ↔ Along step Q s es := by
  induction es generalizing s with
  | nil => exact Iff.rfl
  | cons e es ih =>
    rw [along_cons, along_cons, hpq s e (by simp) hd.1,
      ih hd.2 fun s e he => hpq s e (List.mem_cons_of_mem _ he)]

/-- Along a run is along each of its beginnings. -/
theorem Along.of_prefix {s : σ} {es fs : List ε} (h : Along step P s fs) (hp : es <+: fs) :
    Along step P s es := by
  obtain ⟨gs, rfl⟩ := hp
  exact ((along_append s es gs).mp h).1

/-- What holds after every step of a run, and before it, holds in every state reached. -/
theorem along_reached {s : σ} {es : List ε} (h0 : I s) :
    Along step (fun s e => I (step s e)) s es ↔ ∀ fs, fs <+: es → I (after step s fs) := by
  induction es generalizing s with
  | nil =>
    constructor
    · intro _ fs hp
      rwa [List.prefix_nil.mp hp]
    · exact fun _ => trivial
  | cons e es ih =>
    constructor
    · rintro ⟨he, h⟩ fs hp
      cases fs with
      | nil => exact h0
      | cons f fs =>
        obtain ⟨rfl, hfs⟩ := List.cons_prefix_cons.mp hp
        exact (ih he).mp h fs hfs
    · intro h
      have he : I (step s e) := h [e] (by simp)
      exact ⟨he, (ih he).mpr fun fs hp => h (e :: fs) (List.cons_prefix_cons.mpr ⟨rfl, hp⟩)⟩

/-- An invariant of the bare step function holds after any run. -/
theorem after_invariant {s : σ} (es : List ε) (h0 : I s)
    (hstep : ∀ s, ∀ e ∈ es, I s → I (step s e)) : I (after step s es) := by
  induction es generalizing s with
  | nil => exact h0
  | cons e es ih =>
    exact ih (hstep s e (by simp) h0) fun s e he => hstep s e (List.mem_cons_of_mem _ he)

/-- A state no event changes is the state a run from it ends in. -/
theorem after_of_fixed {s : σ} (h : ∀ e, step s e = s) (es : List ε) : after step s es = s := by
  induction es with
  | nil => rfl
  | cons e es ih => rw [after_cons, h, ih]

/-- Along a run from such a state, what holds of every event there holds of every step. -/
theorem along_of_fixed {s : σ} (h : ∀ e, step s e = s) (hp : ∀ e, P s e) (es : List ε) :
    Along step P s es := by
  induction es with
  | nil => trivial
  | cons e es ih => exact ⟨hp e, (h e).symm ▸ ih⟩

/-! ## Counting steps -/

/-- How many steps of a run have the property `p`. -/
def tally (step : σ → ε → σ) (p : σ → ε → Bool) : σ → List ε → Nat
  | _, [] => 0
  | s, e :: es => (if p s e then 1 else 0) + tally step p (step s e) es

/-- A number that goes up at the steps with the property, and only there, counts them. -/
theorem after_add_tally {f : σ → Nat} {p : σ → ε → Bool}
    (hf : ∀ s e, f (step s e) = f s + if p s e then 1 else 0) (s : σ) (es : List ε) :
    f (after step s es) = f s + tally step p s es := by
  induction es generalizing s with
  | nil => rfl
  | cons e es ih => rw [after_cons, ih, hf, tally, Nat.add_assoc]

/-- A property of the event alone is counted in the list. -/
theorem tally_event (p : ε → Bool) (s : σ) (es : List ε) :
    tally step (fun _ e => p e) s es = es.countP p := by
  induction es generalizing s with
  | nil => rfl
  | cons e es ih => rw [tally, ih, List.countP_cons, Nat.add_comm]

/-- A loop that adds one to a number in every pass, up to the one that stops it, has added
as many as it has passes exactly when nothing stopped it. -/
theorem after_count (f : σ → Nat) (stopped : σ → Prop)
    (hstop : ∀ s e, stopped s → step s e = s)
    (hstep : ∀ s e, ¬ stopped s → stopped (step s e) ∧ f (step s e) = f s ∨
      ¬ stopped (step s e) ∧ f (step s e) = f s + 1) {s : σ} (h0 : ¬ stopped s) (es : List ε) :
    f (after step s es) ≤ f s + es.length ∧
      (¬ stopped (after step s es) ↔ f (after step s es) = f s + es.length) := by
  induction es generalizing s with
  | nil => simp [h0]
  | cons e es ih =>
    rw [after_cons, List.length_cons]
    obtain ⟨hs, hf⟩ | ⟨hs, hf⟩ := hstep s e h0
    · rw [after_of_fixed fun e => hstop _ e hs, hf]
      constructor
      · omega
      · simp only [hs, not_true_eq_false, false_iff]
        omega
    · obtain ⟨hle, hiff⟩ := ih hs
      rw [hf] at hle hiff
      constructor
      · omega
      · rw [hiff, Nat.add_assoc, Nat.add_comm 1]

/-! ## Machines that can stop -/

theorem bind_eq_ok.{u, v} {ε' : Type u} {α β : Type v} {x : Except ε' α} {f : α → Except ε' β} {b : β} :
    x >>= f = .ok b ↔ ∃ a, x = .ok a ∧ f a = .ok b := by
  cases x with
  | error e =>
    constructor
    · intro h; cases h
    · rintro ⟨a, h, -⟩; cases h
  | ok a =>
    constructor
    · exact fun h => ⟨a, rfl, h⟩
    · rintro ⟨a', h, hf⟩; cases h; exact hf

theorem bind_eq_error.{u, v} {ε' : Type u} {α β : Type v} {x : Except ε' α} {f : α → Except ε' β}
    {e : ε'} : x >>= f = .error e ↔ x = .error e ∨ ∃ a, x = .ok a ∧ f a = .error e := by
  cases x with
  | error e' =>
    constructor
    · intro h
      cases h
      exact .inl rfl
    · rintro (h | ⟨a, h, -⟩) <;> cases h
      rfl
  | ok a =>
    constructor
    · exact fun h => .inr ⟨a, rfl, h⟩
    · rintro (h | ⟨a', h, hf⟩) <;> cases h
      exact hf

theorem exists_bind_ok.{u, v} {ε' : Type u} {α β : Type v} {x : Except ε' α}
    {f : α → Except ε' β} :
    (∃ b, x >>= f = .ok b) ↔ ∃ a, x = .ok a ∧ ∃ b, f a = .ok b := by
  simp only [bind_eq_ok]
  constructor
  · rintro ⟨b, a, ha, hb⟩
    exact ⟨a, ha, b, hb⟩
  · rintro ⟨a, ha, b, hb⟩
    exact ⟨b, a, ha, hb⟩

/-- Two steps that go well make one. -/
theorem bind_ok.{u, v} {ε' : Type u} {α β : Type v} {x : Except ε' α} {f : α → Except ε' β}
    (hx : ∃ a, x = .ok a) (hf : ∀ a, ∃ b, f a = .ok b) : ∃ b, x >>= f = .ok b := by
  obtain ⟨a, ha⟩ := hx
  exact exists_bind_ok.mpr ⟨a, ha, hf a⟩

theorem exists_bind_pure.{u, v} {ε' : Type u} {α β : Type v} {x : Except ε' α} {f : α → β} :
    (∃ b, (x >>= fun a => pure (f a)) = .ok b) ↔ ∃ a, x = .ok a := by
  rw [exists_bind_ok]
  exact exists_congr fun a => and_iff_left ⟨_, rfl⟩

/-- A loop that collects ends well where each of its passes does. -/
theorem mapM_ok_iff.{u, v} {ε' : Type u} {α : Type*} {β : Type v} {f : α → Except ε' β} {l : List α} :
    (∃ ys, l.mapM f = .ok ys) ↔ ∀ x ∈ l, ∃ y, f x = .ok y := by
  induction l with
  | nil => simp [pure, Except.pure]
  | cons a l ih =>
    simp only [List.mapM_cons, bind_eq_ok, pure, Except.pure, Except.ok.injEq, List.forall_mem_cons,
      ← ih]
    constructor
    · rintro ⟨_, y, hy, ys, hys, _⟩
      exact ⟨⟨y, hy⟩, ys, hys⟩
    · rintro ⟨⟨y, hy⟩, ys, hys⟩
      exact ⟨_, y, hy, ys, hys, rfl⟩

/-- What a loop collects, pass for pass. -/
theorem mapM_eq_ok_iff.{u, v} {ε' : Type u} {α : Type*} {β : Type v} {f : α → Except ε' β}
    {l : List α} {ys : List β} :
    l.mapM f = .ok ys ↔ List.Forall₂ (fun x y => f x = .ok y) l ys := by
  induction l generalizing ys with
  | nil =>
    rw [List.forall₂_nil_left_iff]
    exact ⟨fun h => (Except.ok.inj h).symm, fun h => h ▸ rfl⟩
  | cons a l ih =>
    rw [List.mapM_cons, bind_eq_ok, List.forall₂_cons_left_iff]
    simp only [bind_eq_ok, ih, pure, Except.pure, Except.ok.injEq]
    constructor
    · intro ⟨y, hy, zs, hzs, h⟩
      exact ⟨y, zs, hy, hzs, h.symm⟩
    · intro ⟨y, zs, hy, hzs, h⟩
      exact ⟨y, hy, zs, hzs, h.symm⟩

/-- Two relations passed through, one after the other. -/
theorem exists_forall₂_iff {α β γ : Type*} {R : α → β → Prop} {S : β → γ → Prop} {xs : List α}
    {zs : List γ} : (∃ ys, List.Forall₂ R xs ys ∧ List.Forall₂ S ys zs) ↔
      List.Forall₂ (fun x z => ∃ y, R x y ∧ S y z) xs zs := by
  induction xs generalizing zs with
  | nil => simp
  | cons x xs ih =>
    simp only [List.forall₂_cons_left_iff, ← ih]
    constructor
    · rintro ⟨_, ⟨y, ys, hxy, hys, rfl⟩, hzs⟩
      obtain ⟨z, zs, hyz, hrest, rfl⟩ := List.forall₂_cons_left_iff.mp hzs
      exact ⟨z, zs, ⟨y, hxy, hyz⟩, ⟨ys, hys, hrest⟩, rfl⟩
    · rintro ⟨z, zs, ⟨y, hxy, hyz⟩, ⟨ys, hys, hrest⟩, rfl⟩
      exact ⟨y :: ys, ⟨y, ys, hxy, hys, rfl⟩, .cons hyz hrest⟩

theorem mapM_of_ok.{u, v} {ε' : Type u} {α : Type*} {β : Type v} {f : α → Except ε' β} {g : α → β}
    {l : List α} (h : ∀ x ∈ l, f x = .ok (g x)) : l.mapM f = .ok (l.map g) := by
  induction l with
  | nil => rfl
  | cons a l ih =>
    rw [List.mapM_cons, h a (by simp), ih fun x hx => h x (List.mem_cons_of_mem a hx)]
    rfl

/-- What a loop collects agrees with what it went over, where every pass does. -/
theorem map_of_mapM_ok.{u, v} {ε' : Type u} {α γ : Type*} {β : Type v} {f : α → Except ε' β}
    {g : β → γ} {g' : α → γ} {l : List α} {ys : List β}
    (hf : ∀ x ∈ l, ∀ y, f x = .ok y → g y = g' x) (h : l.mapM f = .ok ys) :
    ys.map g = l.map g' := by
  induction l generalizing ys with
  | nil =>
    cases h
    rfl
  | cons a l ih =>
    rw [List.mapM_cons, bind_eq_ok] at h
    obtain ⟨y, hy, h⟩ := h
    rw [bind_eq_ok] at h
    obtain ⟨zs, hzs, h⟩ := h
    cases h
    rw [List.map_cons, List.map_cons, hf a (by simp) y hy,
      ih (fun x hx => hf x (List.mem_cons_of_mem a hx)) hzs]

theorem getElem?_of_mapM_ok.{u, v} {ε' : Type u} {α : Type*} {β : Type v} {f : α → Except ε' β}
    {l : List α} {ys : List β} (h : l.mapM f = .ok ys) {i : Nat} {x : α} (hx : l[i]? = some x) :
    ∃ y, ys[i]? = some y ∧ f x = .ok y := by
  induction l generalizing ys i with
  | nil => cases hx
  | cons a l ih =>
    rw [List.mapM_cons, bind_eq_ok] at h
    obtain ⟨y, hy, h⟩ := h
    rw [bind_eq_ok] at h
    obtain ⟨zs, hzs, h⟩ := h
    cases h
    cases i with
    | zero =>
      cases hx
      exact ⟨y, rfl, hy⟩
    | succ i => exact ih hzs hx

/-- A loop that collects stops with an error of one of its passes. -/
theorem of_mapM_error.{u, v} {ε' : Type u} {α : Type*} {β : Type v} {f : α → Except ε' β}
    {l : List α} {e : ε'} (h : l.mapM f = .error e) : ∃ x ∈ l, f x = .error e := by
  induction l with
  | nil => cases h
  | cons a l ih =>
    rw [List.mapM_cons, bind_eq_error] at h
    obtain ha | ⟨y, -, h⟩ := h
    · exact ⟨a, by simp, ha⟩
    rw [bind_eq_error] at h
    obtain hl | ⟨ys, -, h⟩ := h
    · obtain ⟨x, hx, hfx⟩ := ih hl
      exact ⟨x, List.mem_cons_of_mem a hx, hfx⟩
    · cases h

/-- A loop stops with an error of one of its passes. -/
theorem of_foldlM_error {ε' : Type*} {f : σ → ε → Except ε' σ} {es : List ε} {s : σ} {e : ε'}
    (h : es.foldlM f s = .error e) : ∃ s, ∃ x ∈ es, f s x = .error e := by
  induction es generalizing s with
  | nil => cases h
  | cons a es ih =>
    rw [List.foldlM_cons, bind_eq_error] at h
    obtain h | ⟨t, -, h⟩ := h
    · exact ⟨s, a, by simp, h⟩
    · obtain ⟨u, x, hx, hu⟩ := ih h
      exact ⟨u, x, List.mem_cons_of_mem a hx, hu⟩

/-- Every step that a fallible machine makes on a run has the property `P` of the state it
starts from, its event and the state it ends in. -/
def AlongM {ε' : Type*} (f : σ → ε → Except ε' σ) (P : σ → ε → σ → Prop) : σ → List ε → Prop
  | _, [] => True
  | s, e :: es => ∀ s', f s e = .ok s' → P s e s' ∧ AlongM f P s' es

/-- Two step properties that agree under an invariant hold along the same runs. -/
theorem alongM_congr {ε' : Type*} {f : σ → ε → Except ε' σ} {P Q : σ → ε → σ → Prop} {s : σ}
    {es : List ε} (h0 : I s) (hstep : ∀ s e s', I s → f s e = .ok s' → I s')
    (hpq : ∀ s e s', I s → f s e = .ok s' → (P s e s' ↔ Q s e s')) :
    AlongM f P s es ↔ AlongM f Q s es := by
  induction es generalizing s with
  | nil => exact Iff.rfl
  | cons e es ih =>
    refine forall_congr' fun s' => forall_congr' fun hs => ?_
    rw [hpq s e s' h0 hs, ih (hstep s e s' h0 hs)]

/-- An invariant of a fallible step holds wherever a loop over it gets to. -/
theorem foldlM_invariant {ε' : Type*} {f : σ → ε → Except ε' σ} {es : List ε} {s s' : σ}
    (hf : ∀ s, ∀ e ∈ es, ∀ s', I s → f s e = .ok s' → I s') (h0 : I s)
    (h : es.foldlM f s = .ok s') : I s' := by
  induction es generalizing s with
  | nil => cases h; exact h0
  | cons e es ih =>
    rw [List.foldlM_cons, bind_eq_ok] at h
    obtain ⟨t, ht, h⟩ := h
    exact ih (fun s x hx => hf s x (List.mem_cons_of_mem _ hx)) (hf s e (by simp) t h0 ht) h

/-- A loop that ends well, cut at one of its passes. -/
theorem foldlM_at {ε' : Type*} {f : σ → ε → Except ε' σ} {es : List ε} {s s' : σ} {n : Nat} {x : ε}
    (h : es.foldlM f s = .ok s') (hx : es[n]? = some x) :
    ∃ t t', (es.take n).foldlM f s = .ok t ∧ f t x = .ok t' ∧
      (es.drop (n + 1)).foldlM f t' = .ok s' := by
  induction es generalizing s n with
  | nil => cases hx
  | cons e es ih =>
    rw [List.foldlM_cons, bind_eq_ok] at h
    obtain ⟨u, hu, h⟩ := h
    cases n with
    | zero =>
      cases hx
      exact ⟨s, u, rfl, hu, h⟩
    | succ n =>
      obtain ⟨t, t', ht, hf, hrest⟩ := ih h hx
      refine ⟨t, t', ?_, hf, hrest⟩
      rw [List.take_succ_cons, List.foldlM_cons, hu]
      exact ht

end FreenetHarness.Lib.Run
