import Mathlib.Data.List.Basic

/-! # Programs that can fail after they have done something

A program acts on a state and may stop with an error; what it did to the state stands. A
scope is closed however its body ends. `Ensures` is the triple of such a program: what
holds where it goes well, and what holds where it fails. -/
namespace FreenetHarness.Lib.Programs

abbrev Program (σ ε : Type) := ExceptT ε (StateM σ)

variable {σ ε α β : Type}

/-- What a program gives, and the state it leaves. -/
def exec (x : Program σ ε α) (s : σ) : Except ε α × σ := (x.run.run s).run

/-- What the outside answers. -/
def attempt (r : Except ε α) : Program σ ε α := ExceptT.mk (pure r)

/-- A body, and what is done as its scope ends. -/
def within (x : Program σ ε α) (close : σ → σ) : Program σ ε α :=
  ExceptT.mk fun s => ((exec x s).1, close (exec x s).2)

/-- A program whose errors are told in other words. -/
def mapError {ε' : Type} (f : ε → ε') (x : Program σ ε α) : Program σ ε' α :=
  ExceptT.mk fun s => ((exec x s).1.mapError f, (exec x s).2)

theorem exec_pure (a : α) (s : σ) : exec (pure a : Program σ ε α) s = (.ok a, s) := rfl

theorem exec_throw (e : ε) (s : σ) : exec (throw e : Program σ ε α) s = (.error e, s) := rfl

theorem exec_modify (f : σ → σ) (s : σ) : exec (modify f : Program σ ε Unit) s = (.ok (), f s) := rfl

theorem exec_get (s : σ) : exec (get : Program σ ε σ) s = (.ok s, s) := rfl

theorem exec_attempt (r : Except ε α) (s : σ) : exec (attempt r : Program σ ε α) s = (r, s) := rfl

theorem attempt_ok_bind (a : α) (f : α → Program σ ε β) : attempt (.ok a) >>= f = f a := rfl

theorem exec_within (x : Program σ ε α) (close : σ → σ) (s : σ) :
    exec (within x close) s = ((exec x s).1, close (exec x s).2) := rfl

theorem exec_mapError {ε' : Type} (f : ε → ε') (x : Program σ ε α) (s : σ) :
    exec (mapError f x) s = ((exec x s).1.mapError f, (exec x s).2) := rfl

theorem exec_mapError_ok {ε' : Type} {f : ε → ε'} {x : Program σ ε α} {s s' : σ} {a : α} :
    exec (mapError f x) s = (.ok a, s') ↔ exec x s = (.ok a, s') := by
  rw [exec_mapError]
  rcases exec x s with ⟨_ | _, _⟩ <;> simp [Except.mapError]

theorem exec_bind (x : Program σ ε α) (f : α → Program σ ε β) (s : σ) :
    exec (x >>= f) s =
      match exec x s with
      | (.ok a, s') => exec (f a) s'
      | (.error e, s') => (.error e, s') := by
  show exec (ExceptT.bind x f) s = _
  unfold exec ExceptT.bind ExceptT.run ExceptT.mk
  show ((StateT.bind x (ExceptT.bindCont f)) s).run = _
  unfold StateT.bind StateT.run
  show (match (x s).run with | (a, s') => ExceptT.bindCont f a s').run = _
  rcases (x s).run with ⟨_ | _, _⟩ <;> rfl

/-- A sequence goes well where both of its parts do. -/
theorem exec_bind_ok {x : Program σ ε α} {f : α → Program σ ε β} {s s'' : σ} {b : β} :
    exec (x >>= f) s = (.ok b, s'') ↔
      ∃ a s', exec x s = (.ok a, s') ∧ exec (f a) s' = (.ok b, s'') := by
  rw [exec_bind]
  rcases exec x s with ⟨e | a, s'⟩
  · constructor
    · intro h
      cases h
    · rintro ⟨a, t, h, -⟩
      cases h
  · constructor
    · exact fun h => ⟨a, s', rfl, h⟩
    · rintro ⟨a', t, h, hf⟩
      cases h
      exact hf

theorem exec_within_ok {x : Program σ ε α} {close : σ → σ} {s s' : σ} {a : α} :
    exec (within x close) s = (.ok a, s') ↔ ∃ t, exec x s = (.ok a, t) ∧ close t = s' := by
  rw [exec_within, Prod.mk.injEq]
  constructor
  · rintro ⟨ha, hs⟩
    exact ⟨_, Prod.ext ha rfl, hs⟩
  · rintro ⟨t, ht, hs⟩
    rw [ht]
    exact ⟨rfl, hs⟩

/-! ## Triples -/

/-- From a state with `P`, the program goes well with `Q`, or it fails with `E`. -/
def Ensures (P : σ → Prop) (x : Program σ ε α) (Q : α → σ → Prop) (E : σ → Prop) : Prop :=
  ∀ s, P s →
    match exec x s with
    | (.ok a, s') => Q a s'
    | (.error _, s') => E s'

variable {P P' E E' : σ → Prop} {Q Q' : α → σ → Prop}

theorem Ensures.pure {a : α} (h : ∀ s, P s → Q a s) :
    Ensures P (Pure.pure a : Program σ ε α) Q E := h

theorem Ensures.throw {e : ε} (h : ∀ s, P s → E s) :
    Ensures P (MonadExcept.throw e : Program σ ε α) Q E := h

theorem Ensures.modify {f : σ → σ} {R : Unit → σ → Prop} (h : ∀ s, P s → R () (f s)) :
    Ensures P (modifyThe σ f : Program σ ε Unit) R E := h

theorem Ensures.get {R : σ → σ → Prop} (h : ∀ s, P s → R s s) :
    Ensures P (getThe σ : Program σ ε σ) R E := h

theorem Ensures.attempt {r : Except ε α} (hok : ∀ a, r = .ok a → ∀ s, P s → Q a s)
    (herr : ∀ s, P s → E s) : Ensures P (attempt r : Program σ ε α) Q E := by
  intro s hs
  rw [exec_attempt]
  cases r with
  | ok a => exact hok a rfl s hs
  | error e => exact herr s hs

/-- **Sequence.** -/
theorem Ensures.bind {x : Program σ ε α} {f : α → Program σ ε β} {R : β → σ → Prop}
    (hx : Ensures P x Q E) (hf : ∀ a, Ensures (Q a) (f a) R E) : Ensures P (x >>= f) R E := by
  intro s hs
  have hx := hx s hs
  rw [exec_bind]
  rcases hr : exec x s with ⟨e | a, s'⟩
  · rw [hr] at hx
    exact hx
  · rw [hr] at hx
    exact hf a s' hx

theorem Ensures.mono {x : Program σ ε α} (h : Ensures P x Q E) (hP : ∀ s, P' s → P s)
    (hQ : ∀ a s, Q a s → Q' a s) (hE : ∀ s, E s → E' s) : Ensures P' x Q' E' := by
  intro s hs
  have h := h s (hP s hs)
  rcases hr : exec x s with ⟨e | a, s'⟩
  · rw [hr] at h
    exact hE s' h
  · rw [hr] at h
    exact hQ a s' h

/-- **Scope.** It is closed where its body goes well, and where it fails. -/
theorem Ensures.within {x : Program σ ε α} {close : σ → σ} (h : Ensures P x Q E)
    (hok : ∀ a s, Q a s → Q' a (close s)) (herr : ∀ s, E s → E' (close s)) :
    Ensures P (within x close) Q' E' := by
  intro s hs
  have h := h s hs
  rw [exec_within]
  rcases hr : exec x s with ⟨e | a, s'⟩
  · rw [hr] at h
    exact herr s' h
  · rw [hr] at h
    exact hok a s' h

/-- What a program leaves, however it ends. -/
theorem Ensures.always {x : Program σ ε α} (h : Ensures P x (fun _ => E) E) {s : σ} (hs : P s) :
    E (exec x s).2 := by
  have h := h s hs
  rcases hr : exec x s with ⟨e | a, s'⟩ <;> rw [hr] at h <;> exact h

/-! ## Loops, and what they log -/

/-- A program on a part of the state. -/
def focus {τ : Type} (get : τ → σ) (set : τ → σ → τ) (x : Program σ ε α) : Program τ ε α :=
  ExceptT.mk fun s => ((exec x (get s)).1, set s (exec x (get s)).2)

theorem exec_focus {τ : Type} (get : τ → σ) (set : τ → σ → τ) (x : Program σ ε α) (s : τ) :
    exec (focus get set x) s = ((exec x (get s)).1, set s (exec x (get s)).2) := rfl

/-- One pass for each element. -/
def each (body : β → Program σ ε Unit) : List β → Program σ ε Unit
  | [] => pure ()
  | b :: bs => do
    body b
    each body bs

theorem each_map {α' : Type} (body : β → Program σ ε Unit) (h : α' → β) (as : List α') :
    each body (as.map h) = each (fun a => body (h a)) as := by
  induction as with
  | nil => rfl
  | cons a as ih => rw [List.map_cons, each, each, ih]

/-- Where the program goes well it appends `g` to what `f` reads of the state, and where it
fails a beginning of that. -/
def Appends {γ : Type} (f : σ → List γ) (x : Program σ ε α) (g : List γ) : Prop :=
  ∀ s, match exec x s with
    | (.ok _, s') => f s' = f s ++ g
    | (.error _, s') => ∃ l, l <+: g ∧ f s' = f s ++ l

section Appends

variable {γ : Type} {f : σ → List γ} {g g' : List γ}

theorem Appends.pure (a : α) : Appends f (Pure.pure a : Program σ ε α) [] :=
  fun s => (List.append_nil (f s)).symm

theorem Appends.attempt (r : Except ε α) : Appends f (attempt r : Program σ ε α) [] := by
  intro s
  rw [exec_attempt]
  cases r with
  | ok a => exact (List.append_nil (f s)).symm
  | error e => exact ⟨[], List.nil_prefix, (List.append_nil (f s)).symm⟩

theorem Appends.modify {h : σ → σ} (hh : ∀ s, f (h s) = f s ++ g) :
    Appends f (modifyThe σ h : Program σ ε Unit) g := hh

theorem Appends.bind {x : Program σ ε α} {k : α → Program σ ε β} (hx : Appends f x g)
    (hk : ∀ a, Appends f (k a) g') : Appends f (x >>= k) (g ++ g') := by
  intro s
  have hx := hx s
  rw [exec_bind]
  rcases hr : exec x s with ⟨e | a, s'⟩
  · rw [hr] at hx
    obtain ⟨l, hl, heq⟩ := hx
    exact ⟨l, hl.trans (List.prefix_append g g'), heq⟩
  · rw [hr] at hx
    have hk := hk a s'
    dsimp only at hx ⊢
    rcases hr' : exec (k a) s' with ⟨e | b, s''⟩
    · rw [hr'] at hk
      obtain ⟨l, hl, heq⟩ := hk
      exact ⟨g ++ l, (List.prefix_append_right_inj g).mpr hl, by rw [heq, hx, List.append_assoc]⟩
    · rw [hr'] at hk
      exact hk.trans (by rw [hx, List.append_assoc])

/-- A program that appends nothing may come first. -/
theorem Appends.after {x : Program σ ε α} {k : α → Program σ ε β} (hx : Appends f x [])
    (hk : ∀ a, Appends f (k a) g) : Appends f (x >>= k) g := hx.bind hk

/-- And it may come last. -/
theorem Appends.before {x : Program σ ε α} {k : α → Program σ ε β} (hx : Appends f x g)
    (hk : ∀ a, Appends f (k a) []) : Appends f (x >>= k) g := by
  have h := hx.bind hk
  rwa [List.append_nil] at h

theorem Appends.each {body : β → Program σ ε Unit} {g : β → List γ} {bs : List β}
    (h : ∀ b ∈ bs, Appends f (body b) (g b)) : Appends f (Programs.each body bs) (bs.flatMap g) := by
  induction bs with
  | nil => exact .pure ()
  | cons b bs ih =>
    rw [List.flatMap_cons]
    exact (h b (List.mem_cons_self ..)).bind fun _ => ih fun c hc => h c (List.mem_cons_of_mem _ hc)

/-- A loop whose passes append one entry or none. -/
theorem Appends.each_filter {body : β → Program σ ε Unit} {q : β → Bool} {g : β → γ} {bs : List β}
    (h : ∀ b ∈ bs, Appends f (body b) (if q b then [g b] else [])) :
    Appends f (Programs.each body bs) ((bs.filter q).map g) := by
  have hlist : (bs.filter q).map g = bs.flatMap fun b => if q b then [g b] else [] := by
    induction bs with
    | nil => rfl
    | cons b bs ih =>
      rw [List.flatMap_cons, ← ih fun c hc => h c (List.mem_cons_of_mem _ hc)]
      cases hq : q b <;> simp [hq]
  rw [hlist]
  exact .each h

theorem Appends.of_exec {x : Program σ ε α} (h : Appends f x g) {s s' : σ} {r : Except ε α}
    (hr : exec x s = (r, s')) (hs : f s = []) : f s' <+: g ∧ (∀ a, r = .ok a → f s' = g) := by
  have h := h s
  rw [hr] at h
  cases r with
  | ok a =>
    rw [hs, List.nil_append] at h
    exact ⟨h ▸ List.prefix_rfl, fun _ _ => h⟩
  | error e =>
    obtain ⟨l, hl, heq⟩ := h
    rw [hs, List.nil_append] at heq
    exact ⟨heq ▸ hl, fun _ he => by cases he⟩

end Appends

/-! ## Simulation -/

/-- Where the first goes well so does the second, from related states to related states, and
what they give is related too. -/
def Simulates {τ β : Type} (R : σ → τ → Prop) (S : α → β → Prop) (x : Program σ ε α)
    (y : Program τ ε β) : Prop :=
  ∀ s t, R s t → ∀ a s', exec x s = (.ok a, s') →
    ∃ b t', exec y t = (.ok b, t') ∧ S a b ∧ R s' t'

section Simulates

variable {τ γ δ : Type} {R : σ → τ → Prop} {S : α → β → Prop} {T : γ → δ → Prop}
  {x : Program σ ε α} {y : Program τ ε β}

theorem Simulates.pure {a : α} {b : β} (h : S a b) :
    Simulates R S (Pure.pure a : Program σ ε α) (Pure.pure b : Program τ ε β) := by
  intro s t hst a' s' hx
  cases hx
  exact ⟨b, t, rfl, h, hst⟩

theorem Simulates.throw {e : ε} : Simulates R S (MonadExcept.throw e : Program σ ε α) y := by
  intro s t _ a s' hx
  cases hx

theorem Simulates.attempt {r : Except ε α} :
    Simulates R Eq (attempt r : Program σ ε α) (attempt r : Program τ ε α) := by
  intro s t hst a s' hx
  rw [exec_attempt, Prod.mk.injEq] at hx
  obtain ⟨rfl, rfl⟩ := hx
  exact ⟨a, t, rfl, rfl, hst⟩

theorem Simulates.modify {f : σ → σ} {g : τ → τ} (h : ∀ s t, R s t → R (f s) (g t)) :
    Simulates R Eq (modifyThe σ f : Program σ ε Unit) (modifyThe τ g : Program τ ε Unit) := by
  intro s t hst a s' hx
  cases hx
  exact ⟨(), g t, rfl, rfl, h s t hst⟩

/-- **Sequence.** -/
theorem Simulates.bind {f : α → Program σ ε γ} {g : β → Program τ ε δ} (hx : Simulates R S x y)
    (hf : ∀ a b, S a b → Simulates R T (f a) (g b)) : Simulates R T (x >>= f) (y >>= g) := by
  intro s t hst c s'' h
  obtain ⟨a, s', ha, hc⟩ := exec_bind_ok.mp h
  obtain ⟨b, t', hb, hab, hst'⟩ := hx s t hst a s' ha
  obtain ⟨d, t'', hd, hcd, hst''⟩ := hf a b hab s' t' hst' c s'' hc
  exact ⟨d, t'', exec_bind_ok.mpr ⟨b, t', hb, hd⟩, hcd, hst''⟩

/-- Both take the same branch. -/
theorem Simulates.ite {c : Prop} [Decidable c] {x' : Program σ ε α} {y' : Program τ ε β}
    (h : c → Simulates R S x y) (h' : ¬c → Simulates R S x' y') :
    Simulates R S (if c then x else x') (if c then y else y') := by
  split
  · exact h ‹_›
  · exact h' ‹_›

/-- On a part of the state. -/
theorem Simulates.focus {σ' τ' : Type} {R' : σ' → τ' → Prop} {get : σ' → σ} {set : σ' → σ → σ'}
    {get' : τ' → τ} {set' : τ' → τ → τ'} (hx : Simulates R S x y)
    (hget : ∀ s t, R' s t → R (get s) (get' t))
    (hset : ∀ s t, R' s t → ∀ u v, R u v → R' (set s u) (set' t v)) :
    Simulates R' S (focus get set x) (focus get' set' y) := by
  intro s t hst a s' h
  rw [exec_focus, Prod.mk.injEq] at h
  obtain ⟨ha, rfl⟩ := h
  obtain ⟨b, t', hb, hab, hst'⟩ := hx _ _ (hget s t hst) a _ (Prod.ext ha rfl)
  exact ⟨b, set' t t', by rw [exec_focus, hb], hab, hset s t hst _ _ hst'⟩

end Simulates

end FreenetHarness.Lib.Programs
