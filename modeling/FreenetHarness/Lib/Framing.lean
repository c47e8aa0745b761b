import FreenetHarness.Lib.Bytes

/-! # Frames

A frame says where it ends, so frames in a row can be told apart: no frame is the beginning
of another one's, whatever follows. A length before the bytes makes a frame, and so does a
count before a row of frames, as long as the number fits its field. -/
namespace FreenetHarness.Lib.Framing
open FreenetHarness.Lib.Number

variable {α β : Type*}

/-- The frame of a valid item can be taken off the front of what it is at the front of. -/
def PrefixFree (frame : α → List β) (valid : α → Prop) : Prop :=
  ∀ x y r s, valid x → valid y → frame x ++ r = frame y ++ s → x = y ∧ r = s

variable {frame : α → List β} {valid : α → Prop}

/-- The frames of valid items are different. -/
theorem PrefixFree.inj (h : PrefixFree frame valid) {x y : α} (hx : valid x) (hy : valid y)
    (he : frame x = frame y) : x = y :=
  (h x y [] [] hx hy (by rw [he])).1

/-- A tag before a frame. -/
theorem PrefixFree.tagged (h : PrefixFree frame valid) :
    PrefixFree (fun p : β × α => p.1 :: frame p.2) fun p => valid p.2 := by
  rintro ⟨t, x⟩ ⟨u, y⟩ r s hx hy he
  obtain ⟨rfl, he⟩ := List.cons_eq_cons.mp he
  obtain ⟨rfl, rfl⟩ := h x y r s hx hy he
  exact ⟨rfl, rfl⟩

/-- As many frames in a row are as many items in a row. -/
theorem PrefixFree.row (h : PrefixFree frame valid) {xs ys : List α} {r s : List β}
    (hl : xs.length = ys.length) (hx : ∀ x ∈ xs, valid x) (hy : ∀ y ∈ ys, valid y)
    (he : xs.flatMap frame ++ r = ys.flatMap frame ++ s) : xs = ys ∧ r = s := by
  induction xs generalizing ys with
  | nil =>
    rw [List.eq_nil_of_length_eq_zero hl.symm] at he ⊢
    exact ⟨rfl, he⟩
  | cons x xs ih =>
    cases ys with
    | nil => simp at hl
    | cons y ys =>
      rw [List.flatMap_cons, List.flatMap_cons, List.append_assoc, List.append_assoc] at he
      obtain ⟨rfl, hrest⟩ := h x y _ _ (hx x (by simp)) (hy y (by simp)) he
      obtain ⟨rfl, rfl⟩ := ih (by simpa using hl) (fun z hz => hx z (List.mem_cons_of_mem _ hz))
        (fun z hz => hy z (List.mem_cons_of_mem _ hz)) hrest
      exact ⟨rfl, rfl⟩

/-! ## Numbers before what they count -/

theorem leBytes_inj {w m n : Nat} (hm : m < 256 ^ w) (hn : n < 256 ^ w)
    (h : leBytes w m = leBytes w n) : m = n := by
  have h := congrArg ofLeBytes h
  rwa [ofLeBytes_leBytes, ofLeBytes_leBytes, Nat.mod_eq_of_lt hm, Nat.mod_eq_of_lt hn] at h

/-- Two numbers in fields of one width, and what follows them. -/
theorem leBytes_append_inj {w m n : Nat} {r s : List UInt8} (hm : m < 256 ^ w) (hn : n < 256 ^ w)
    (h : leBytes w m ++ r = leBytes w n ++ s) : m = n ∧ r = s := by
  obtain ⟨hnum, hrest⟩ := List.append_inj h (by rw [leBytes_length, leBytes_length])
  exact ⟨leBytes_inj hm hn hnum, hrest⟩

/-- Bytes after their length. -/
def sized (w : Nat) (bs : List UInt8) : List UInt8 := leBytes w bs.length ++ bs

theorem sized_prefixFree (w : Nat) : PrefixFree (sized w) fun bs => bs.length < 256 ^ w := by
  intro x y r s hx hy he
  rw [sized, sized, List.append_assoc, List.append_assoc] at he
  obtain ⟨hl, he⟩ := leBytes_append_inj hx hy he
  exact List.append_inj he hl

/-- Frames after their number. -/
def counted (w : Nat) (frame : α → List UInt8) (xs : List α) : List UInt8 :=
  leBytes w xs.length ++ xs.flatMap frame

/-- **Counted frames are a frame.** -/
theorem counted_prefixFree (w : Nat) {frame : α → List UInt8} (h : PrefixFree frame valid) :
    PrefixFree (counted w frame) fun xs => xs.length < 256 ^ w ∧ ∀ x ∈ xs, valid x := by
  intro xs ys r s hx hy he
  rw [counted, counted, List.append_assoc, List.append_assoc] at he
  obtain ⟨hl, he⟩ := leBytes_append_inj hx.1 hy.1 he
  exact h.row hl hx.2 hy.2 he

theorem length_counted (w : Nat) (frame : α → List UInt8) (xs : List α) :
    (counted w frame xs).length = w + (xs.map fun x => (frame x).length).sum := by
  rw [counted, List.length_append, leBytes_length, List.length_flatMap]

end FreenetHarness.Lib.Framing
