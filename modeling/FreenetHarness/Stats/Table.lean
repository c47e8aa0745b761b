import Mathlib.Data.List.SplitLengths
import FreenetHarness.Lib.Text
import FreenetHarness.Percentile
import FreenetHarness.Stats

/-! # The shape every table prints

The first column stands left, the others right, each as wide as its widest cell.
`lines_even_iff` says when every line comes out as wide as the rule under the headings, and
`read_text` that the cells are read back from the text by its columns. -/
namespace FreenetHarness.Stats
open FreenetHarness.Lib.Text FreenetHarness.Lib.Number FreenetHarness.Percentile

structure Table where
  headings : List Str
  rows : List (List Str) := []

/-- Cells beyond the headings have no column. -/
def widen : List Nat → List Str → List Nat
  | w :: ws, c :: cs => max w c.length :: widen ws cs
  | ws, [] => ws
  | [], _ :: _ => []

/-- Column widths from the widest cell. -/
def Table.widths (t : Table) : List Nat := t.rows.foldl widen (t.headings.map List.length)

/-- `{:<w}`. -/
def padEnd (w : Nat) (c : Str) : Str := c ++ List.replicate (w - c.length) ' '

/-- `{:>w}`. -/
def padStart (w : Nat) (c : Str) : Str := List.replicate (w - c.length) ' ' ++ c

/-- The cells after the first, each in a field two wider than its column. -/
def fields : List Nat → List Str → List Str
  | _, [] => []
  | w, c :: cs => (' ' :: ' ' :: padStart (w.headD 0) c) :: fields w.tail cs

def line (w : List Nat) : List Str → Str
  | [] => []
  | c :: cs => padEnd (w.headD 0) c ++ (fields w.tail cs).flatten

def Table.lines (t : Table) : List Str :=
  let head := line t.widths t.headings
  head :: List.replicate head.length '-' :: t.rows.map (line t.widths)

def Table.text (t : Table) : Str := unlines t.lines

/-! ## The widths -/

/-- A cell is no wider than its column, if it has one. -/
def Within : List Nat → List Str → Prop
  | w :: ws, c :: cs => c.length ≤ w ∧ Within ws cs
  | _, _ => True

theorem length_widen (ws : List Nat) (cs : List Str) : (widen ws cs).length = ws.length := by
  induction ws generalizing cs with
  | nil => cases cs <;> rfl
  | cons w ws ih =>
    cases cs with
    | nil => rfl
    | cons c cs => exact congrArg (· + 1) (ih cs)

theorem within_widen (ws : List Nat) (cs : List Str) : Within (widen ws cs) cs := by
  induction ws generalizing cs with
  | nil => cases cs <;> trivial
  | cons w ws ih =>
    cases cs with
    | nil => trivial
    | cons c cs => exact ⟨le_max_right .., ih cs⟩

/-- What fits goes on fitting. -/
theorem Within.widen {ws : List Nat} {cs : List Str} (h : Within ws cs) (ds : List Str) :
    Within (Stats.widen ws ds) cs := by
  induction ws generalizing cs ds with
  | nil => cases ds <;> trivial
  | cons w ws ih =>
    cases cs with
    | nil => cases ds <;> trivial
    | cons c cs =>
      cases ds with
      | nil => exact h
      | cons d ds => exact ⟨h.1.trans (le_max_left ..), ih h.2 ds⟩

theorem Within.foldl {ws : List Nat} {cs : List Str} (h : Within ws cs) (rows : List (List Str)) :
    Within (rows.foldl Stats.widen ws) cs := by
  induction rows generalizing ws with
  | nil => exact h
  | cons r rows ih => exact ih (h.widen r)

theorem within_lengths (cs : List Str) : Within (cs.map List.length) cs := by
  induction cs with
  | nil => trivial
  | cons c cs ih => exact ⟨le_refl _, ih⟩

namespace Table

variable (t : Table)

theorem length_widths : t.widths.length = t.headings.length := by
  have h : ∀ (rows : List (List Str)) (ws : List Nat), (rows.foldl widen ws).length = ws.length := by
    intro rows
    induction rows with
    | nil => exact fun _ => rfl
    | cons r rows ih => exact fun ws => (ih _).trans (length_widen ws r)
  rw [widths, h, List.length_map]

theorem within_headings : Within t.widths t.headings := (within_lengths _).foldl _

/-- No cell is wider than its column. -/
theorem within_row {r : List Str} (hr : r ∈ t.rows) : Within t.widths r := by
  obtain ⟨pre, post, h⟩ := List.append_of_mem hr
  rw [widths, h, List.foldl_append, List.foldl_cons]
  exact (within_widen _ r).foldl post

end Table

/-! ## The lines -/

theorem length_padEnd {w : Nat} {c : Str} (h : c.length ≤ w) : (padEnd w c).length = w := by
  rw [padEnd, List.length_append, List.length_replicate]
  omega

theorem length_padStart {w : Nat} {c : Str} (h : c.length ≤ w) : (padStart w c).length = w := by
  rw [padStart, List.length_append, List.length_replicate]
  omega

/-- The fields of a row that has a cell for every column. -/
theorem map_length_fields {ws : List Nat} {cs : List Str} (h : Within ws cs)
    (hlen : cs.length = ws.length) : (fields ws cs).map List.length = ws.map (· + 2) := by
  induction ws generalizing cs with
  | nil =>
    rw [List.eq_nil_of_length_eq_zero hlen]
    rfl
  | cons w ws ih =>
    cases cs with
    | nil => cases hlen
    | cons c cs =>
      rw [fields, List.map_cons, List.map_cons, List.tail_cons, ih h.2 (Nat.succ.inj hlen)]
      congr 1
      show (padStart w c).length + 2 = w + 2
      rw [length_padStart h.1]

/-- How wide a line is that fills its columns. -/
def fullWidth : List Nat → Nat
  | [] => 0
  | w :: ws => w + (ws.map (· + 2)).sum

theorem length_fields_lt {ws : List Nat} {cs : List Str} (h : Within ws cs)
    (hlen : cs.length < ws.length) : (fields ws cs).flatten.length < (ws.map (· + 2)).sum := by
  induction ws generalizing cs with
  | nil => cases hlen
  | cons w ws ih =>
    rw [List.map_cons, List.sum_cons]
    cases cs with
    | nil =>
      show 0 < _
      omega
    | cons c cs =>
      have := ih h.2 (Nat.lt_of_succ_lt_succ hlen)
      have hc : (padStart w c).length = w := length_padStart h.1
      rw [fields, List.flatten_cons, List.length_append, List.tail_cons]
      show (padStart w c).length + 2 + _ < _
      omega

theorem lt_length_fields {ws : List Nat} {cs : List Str} (h : Within ws cs)
    (hlen : ws.length < cs.length) : (ws.map (· + 2)).sum < (fields ws cs).flatten.length := by
  induction ws generalizing cs with
  | nil =>
    cases cs with
    | nil => cases hlen
    | cons c cs =>
      rw [fields, List.flatten_cons, List.length_append]
      show 0 < (padStart _ c).length + 2 + _
      omega
  | cons w ws ih =>
    cases cs with
    | nil => cases hlen
    | cons c cs =>
      have := ih h.2 (Nat.lt_of_succ_lt_succ hlen)
      have hc : (padStart w c).length = w := length_padStart h.1
      rw [List.map_cons, List.sum_cons, fields, List.flatten_cons, List.length_append,
        List.tail_cons]
      show _ < (padStart w c).length + 2 + _
      omega

theorem length_line {ws : List Nat} {cs : List Str} (h : Within ws cs)
    (hlen : cs.length = ws.length) : (line ws cs).length = fullWidth ws := by
  cases ws with
  | nil =>
    rw [List.eq_nil_of_length_eq_zero hlen]
    rfl
  | cons w ws =>
    cases cs with
    | nil => cases hlen
    | cons c cs =>
      rw [line, List.length_append, List.headD_cons, length_padEnd h.1, List.tail_cons,
        List.length_flatten, map_length_fields h.2 (Nat.succ.inj hlen)]
      rfl

/-- A row of two columns or more fills its line exactly where it has a cell for each. -/
theorem length_line_iff {ws : List Nat} {cs : List Str} (h : Within ws cs) (hws : 2 ≤ ws.length) :
    (line ws cs).length = fullWidth ws ↔ cs.length = ws.length := by
  refine ⟨fun he => ?_, length_line h⟩
  cases ws with
  | nil => cases hws
  | cons w ws =>
    cases cs with
    | nil =>
      cases ws with
      | nil => simp at hws
      | cons v ws =>
        rw [fullWidth, List.map_cons, List.sum_cons] at he
        change 0 = _ at he
        omega
    | cons c cs =>
      have hc : (padEnd w c).length = w := length_padEnd h.1
      rw [line, List.length_append, List.headD_cons, hc, fullWidth, List.tail_cons] at he
      obtain hlt | heq | hgt := Nat.lt_trichotomy cs.length ws.length
      · have := length_fields_lt h.2 hlt
        omega
      · exact congrArg (· + 1) heq
      · have := lt_length_fields h.2 hgt
        omega

/-- **Every line is as wide as the rule** exactly where every row has a cell for each
heading. -/
theorem Table.lines_even_iff (t : Table) (h : 2 ≤ t.headings.length) :
    (∀ l ∈ t.lines, l.length = fullWidth t.widths) ↔
      ∀ r ∈ t.rows, r.length = t.headings.length := by
  have hw : 2 ≤ t.widths.length := t.length_widths.symm ▸ h
  have hhead := length_line t.within_headings t.length_widths.symm
  unfold Table.lines
  simp only [List.forall_mem_cons, List.length_replicate, hhead, true_and, List.forall_mem_map]
  refine forall₂_congr fun r hr => ?_
  rw [length_line_iff (t.within_row hr) hw, t.length_widths]

/-! ## Reading a table back -/

/-- The cells of a line, from the widths of the columns. -/
def readLine (ws : List Nat) (l : Str) : List Str :=
  match ws with
  | [] => []
  | w :: ws => ((w :: ws.map (· + 2)).splitLengths l).map trim

/-- A cell without blanks around it. -/
def Trim (c : Str) : Prop := trim c = c

theorem splitLengths_flatten (ls : List Str) :
    (ls.map List.length).splitLengths ls.flatten = ls := by
  induction ls with
  | nil => rfl
  | cons l ls ih =>
    rw [List.map_cons, List.splitLengths_cons, List.flatten_cons, List.take_left, List.drop_left, ih]

theorem dropWhile_blanks (n : Nat) (s : Str) :
    (List.replicate n ' ' ++ s).dropWhile isWhitespace = s.dropWhile isWhitespace := by
  rw [List.dropWhile_append_of_pos fun c hc => (List.eq_of_mem_replicate hc).symm ▸ by decide]

theorem trim_padStart (w : Nat) {c : Str} (h : Trim c) : trim (padStart w c) = c := by
  rw [trim, padStart, dropWhile_blanks]
  exact h

/-- Nothing is dropped from the front of a trimmed cell. -/
theorem Trim.dropWhile {c : Str} (h : Trim c) : c.dropWhile isWhitespace = c := by
  have hle : c.length ≤ (c.dropWhile isWhitespace).length := by
    have hlen := congrArg List.length h
    rw [trim, List.length_reverse] at hlen
    calc c.length = _ := hlen.symm
      _ ≤ (c.dropWhile isWhitespace).reverse.length := (List.dropWhile_suffix _).length_le
      _ = _ := List.length_reverse
  exact (List.dropWhile_suffix _).eq_of_length_le hle

theorem trim_padEnd (w : Nat) {c : Str} (h : Trim c) : trim (padEnd w c) = c := by
  rw [trim, padEnd, List.dropWhile_append, h.dropWhile]
  split
  · rename_i he
    rw [List.isEmpty_iff.mp he]
    have := dropWhile_blanks (w - ([] : Str).length) []
    rw [List.append_nil] at this
    rw [this]
    rfl
  · rw [List.reverse_append, List.reverse_replicate, dropWhile_blanks]
    conv_rhs => rw [← h, trim, h.dropWhile]

theorem trim_fields {ws : List Nat} {cs : List Str} (h : ∀ c ∈ cs, Trim c) :
    (fields ws cs).map trim = cs := by
  induction cs generalizing ws with
  | nil => rfl
  | cons c cs ih =>
    rw [fields, List.map_cons, ih fun d hd => h d (List.mem_cons_of_mem c hd)]
    have hpad : (' ' :: ' ' :: padStart (ws.headD 0) c) = List.replicate 2 ' ' ++ padStart _ c := rfl
    have hc := trim_padStart (ws.headD 0) (h c (List.mem_cons_self ..))
    rw [hpad, trim, dropWhile_blanks]
    exact congrArg (· :: cs) hc

/-- **A line read back.** -/
theorem readLine_line {ws : List Nat} {cs : List Str} (h : Within ws cs)
    (hlen : cs.length = ws.length) (ht : ∀ c ∈ cs, Trim c) : readLine ws (line ws cs) = cs := by
  cases ws with
  | nil =>
    rw [List.eq_nil_of_length_eq_zero hlen]
    rfl
  | cons w ws =>
    cases cs with
    | nil => cases hlen
    | cons c cs =>
      have hlens : w :: ws.map (· + 2) = (padEnd w c :: fields ws cs).map List.length := by
        rw [List.map_cons, length_padEnd h.1, map_length_fields h.2 (Nat.succ.inj hlen)]
      have hline : line (w :: ws) (c :: cs) = (padEnd w c :: fields ws cs).flatten := rfl
      rw [readLine, hlens, hline, splitLengths_flatten, List.map_cons,
        trim_padEnd w (ht c (List.mem_cons_self ..)),
        trim_fields fun d hd => ht d (List.mem_cons_of_mem c hd)]

/-- A table whose rows have a cell for each heading, and no cell a line break or blanks
around it. -/
structure Table.Regular (t : Table) : Prop where
  row : ∀ r ∈ t.rows, r.length = t.headings.length
  trim : ∀ r ∈ t.headings :: t.rows, ∀ c ∈ r, Trim c
  flat : ∀ r ∈ t.headings :: t.rows, ∀ c ∈ r, Flat c

theorem flat_line {ws : List Nat} {cs : List Str} (h : ∀ c ∈ cs, Flat c) : Flat (line ws cs) := by
  have hblank : ∀ n, Flat (List.replicate n ' ') := fun n d hd =>
    (List.eq_of_mem_replicate hd).symm ▸ by decide
  have hfields : ∀ cs : List Str, (∀ c ∈ cs, Flat c) → ∀ ws, Flat (fields ws cs).flatten := by
    intro cs h
    induction cs with
    | nil => exact fun _ _ hd => absurd hd List.not_mem_nil
    | cons c cs ih =>
      intro ws d hd
      rw [fields, List.flatten_cons, padStart] at hd
      obtain hd | hd := List.mem_append.mp hd
      · obtain hd | hd := List.mem_append.mp
          (show d ∈ List.replicate (ws.headD 0 - c.length + 2) ' ' ++ c by
            rw [Nat.add_comm, List.replicate_add]; exact hd)
        · exact hblank _ d hd
        · exact h c (List.mem_cons_self ..) d hd
      · exact ih (fun e he => h e (List.mem_cons_of_mem c he)) _ d hd
  cases cs with
  | nil => exact fun _ hd => absurd hd List.not_mem_nil
  | cons c cs =>
    intro d hd
    rw [line, padEnd, List.append_assoc, List.mem_append, List.mem_append] at hd
    obtain hd | hd | hd := hd
    · exact h c (List.mem_cons_self ..) d hd
    · exact hblank _ d hd
    · exact hfields cs (fun e he => h e (List.mem_cons_of_mem c he)) _ d hd

/-- **The text of a table read back**: the headings, the rule, and the rows. -/
theorem Table.read_text {t : Table} (h : t.Regular) :
    ∃ rule, Lib.Text.lines t.text =
        line t.widths t.headings :: rule :: t.rows.map (line t.widths) ∧
      readLine t.widths (line t.widths t.headings) = t.headings ∧
      ((Lib.Text.lines t.text).drop 2).map (readLine t.widths) = t.rows := by
  have hflat : ∀ l ∈ t.lines, Flat l := by
    unfold Table.lines
    simp only [List.forall_mem_cons, List.forall_mem_map]
    refine ⟨flat_line (h.flat _ (List.mem_cons_self ..)), fun d hd => ?_,
      fun r hr => flat_line (h.flat r (List.mem_cons_of_mem _ hr))⟩
    exact (List.eq_of_mem_replicate hd).symm ▸ by decide
  have hlines : Lib.Text.lines t.text = t.lines := lines_unlines hflat
  refine ⟨_, hlines, readLine_line t.within_headings t.length_widths.symm
    (h.trim _ (List.mem_cons_self ..)), ?_⟩
  rw [hlines]
  show (t.rows.map (line t.widths)).map (readLine t.widths) = t.rows
  rw [List.map_map]
  calc t.rows.map (readLine t.widths ∘ line t.widths) = t.rows.map id :=
        List.map_congr_left fun r hr => readLine_line (t.within_row hr)
          ((h.row r hr).trans t.length_widths.symm) (h.trim r (List.mem_cons_of_mem _ hr))
    _ = t.rows := List.map_id _

/-- A table of cells with blanks inside, and an empty one. -/
def sampleTable : Table where
  headings := ["size".toList, "p50".toList, "".toList]
  rows := [["64 KiB".toList, "1.0".toList, "".toList], ["".toList, "12345.6".toList, "9".toList]]

theorem read_text_cells :
    ((Lib.Text.lines sampleTable.text).drop 2).map (readLine [6, 7, 1]) =
      [["64 KiB".toList, "1.0".toList, []], [[], "12345.6".toList, ['9']]] := by
  have h : sampleTable.Regular := by
    constructor
    · decide
    · show ∀ r ∈ _, ∀ c ∈ r, trim c = c
      decide +kernel
    · decide
  obtain ⟨rule, -, -, hrows⟩ := Table.read_text h
  exact hrows

/-! ## The resolution of a polling instrument -/

structure Grid where
  /-- One attempt plus the pause before the next, in milliseconds. -/
  ms : ℚ

def Grid.new (attemptMs gapMs : ℚ) : Grid := { ms := attemptMs + gapMs }

/-- The line that goes above any table this instrument produced. -/
def Grid.line (g : Grid) : String :=
  s!"resolution: {String.ofList (print0 g.ms)} ms — this instrument asks, waits one attempt, " ++
    "and asks again, so nothing finer than that is resolved"

/-- The reason, where the numbers of a series are the instrument's own period. -/
def Grid.unresolved (g : Grid) (label : String) (s : Summary ℚ) : Option String :=
  if s.max - s.min < g.ms ∧ g.ms < s.min then
    let min := String.ofList (print0 s.min)
    let max := String.ofList (print0 s.max)
    let step := String.ofList (print0 g.ms)
    some (s!"{label}: every sample landed between {min} and {max} ms, inside one {step} ms step " ++
      "— that says \"not on that pass, yes on the next\" and nothing finer")
  else none

/-- **A series is flagged** exactly where every sample took longer than a step and any two
are less than a step apart. -/
theorem Grid.unresolved_iff {g : Grid} {label : String} {samples : List ℚ} {s : Summary ℚ}
    (hs : s.Reports samples) :
    (g.unresolved label s).isSome ↔
      (∀ x ∈ samples, g.ms < x) ∧ ∀ x ∈ samples, ∀ y ∈ samples, x - y < g.ms := by
  unfold Grid.unresolved
  constructor
  · intro h
    split at h
    · rename_i hg
      refine ⟨fun x hx => hg.2.trans_le (hs.min.2 x hx), fun x hx y hy => ?_⟩
      have hmax := hs.max.2 x hx
      have hmin := hs.min.2 y hy
      linarith [hg.1]
    · cases h
  · rintro ⟨hlate, hclose⟩
    rw [if_pos ⟨hclose _ hs.max.1 _ hs.min.1, hlate _ hs.min.1⟩]
    rfl

end FreenetHarness.Stats
