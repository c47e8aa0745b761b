import Mathlib.Logic.Function.Iterate
import Mathlib.Algebra.Order.Ring.Int

/-! # The proleptic Gregorian calendar

A date is a year, a month of it and a day of that month. The calendar is what day follows
what (`Date.next`); counting days is counting such steps. The steps from a first of
January to the next are those of its twelve months, and `dayNumber` is the count from
1970-01-01 in closed form. -/
namespace FreenetHarness.Lib.Calendar

def IsLeap (y : Int) : Prop := 4 ∣ y ∧ (100 ∣ y → 400 ∣ y)

instance (y : Int) : Decidable (IsLeap y) := inferInstanceAs (Decidable (_ ∧ _))

def monthLength (y : Int) : Nat → Nat
  | 2 => if IsLeap y then 29 else 28
  | 4 | 6 | 9 | 11 => 30
  | _ => 31

def yearLength (y : Int) : Nat := if IsLeap y then 366 else 365

theorem monthLength_pos (y : Int) (m : Nat) : 0 < monthLength y m := by
  unfold monthLength
  split <;> (try split) <;> decide

@[ext] structure Date where
  year : Int
  month : Nat
  day : Nat
  month_range : 1 ≤ month ∧ month ≤ 12
  day_range : 1 ≤ day ∧ day ≤ monthLength year month

/-- The first day of the month `m + 1`. -/
def first (y : Int) (m : Fin 12) : Date where
  year := y
  month := m + 1
  day := 1
  month_range := ⟨by omega, by omega⟩
  day_range := ⟨le_rfl, monthLength_pos y _⟩

def epoch : Date := first 1970 0

/-- The day after. -/
def Date.next (d : Date) : Date :=
  if hday : d.day < monthLength d.year d.month then
    { d with day := d.day + 1, day_range := ⟨by omega, hday⟩ }
  else if hmonth : d.month < 12 then first d.year ⟨d.month, hmonth⟩
  else first (d.year + 1) 0

theorem next_of_lt {d : Date} (h : d.day < monthLength d.year d.month) :
    d.next.year = d.year ∧ d.next.month = d.month ∧ d.next.day = d.day + 1 := by
  rw [Date.next, dif_pos h]
  exact ⟨rfl, rfl, rfl⟩

/-! ## Steps -/

/-- Steps within a month. -/
theorem iterate_day (d : Date) {j : Nat} (h : d.day + j ≤ monthLength d.year d.month) :
    (Date.next^[j] d).year = d.year ∧ (Date.next^[j] d).month = d.month ∧
      (Date.next^[j] d).day = d.day + j := by
  induction j with
  | zero => exact ⟨rfl, rfl, rfl⟩
  | succ j ih =>
    obtain ⟨hy, hm, hd⟩ := ih (by omega)
    rw [Function.iterate_succ_apply']
    obtain ⟨hy', hm', hd'⟩ := @next_of_lt (Date.next^[j] d) (by rw [hy, hm, hd]; omega)
    exact ⟨hy'.trans hy, hm'.trans hm, by rw [hd', hd]; omega⟩

/-- The last day of a month is followed by the first of the next. -/
theorem iterate_month (y : Int) (m : Fin 12) :
    Date.next^[monthLength y (m + 1)] (first y m) =
      if h : m.val + 1 < 12 then first y ⟨m + 1, h⟩ else first (y + 1) 0 := by
  have hpos := monthLength_pos y (m + 1)
  obtain ⟨hy, hm, hd⟩ := @iterate_day (first y m) (monthLength y (m + 1) - 1)
    (show 1 + _ ≤ monthLength y (m + 1) by omega)
  rw [show monthLength y (m + 1) = monthLength y (m + 1) - 1 + 1 by omega,
    Function.iterate_succ_apply']
  generalize Date.next^[monthLength y (m + 1) - 1] (first y m) = d at hy hm hd
  obtain ⟨year, month, day, hmr, hdr⟩ := d
  simp only [first] at hy hm hd
  subst hy hm
  rw [Date.next, dif_neg (by simp only [hd]; omega)]

/-- The days of a year before its month `m + 1`. -/
def monthStart (y : Int) : Nat → Nat
  | 0 => 0
  | m + 1 => monthStart y m + monthLength y (m + 1)

theorem monthStart_twelve (y : Int) : monthStart y 12 = yearLength y := by
  by_cases h : IsLeap y <;> simp [monthStart, monthLength, yearLength, h]

theorem iterate_monthStart (y : Int) {m : Nat} (h : m < 12) :
    Date.next^[monthStart y m] (first y 0) = first y ⟨m, h⟩ := by
  induction m with
  | zero => rfl
  | succ m ih =>
    rw [monthStart, Nat.add_comm, Function.iterate_add_apply, ih (by omega),
      iterate_month y ⟨m, by omega⟩, dif_pos h]

theorem iterate_year (y : Int) : Date.next^[yearLength y] (first y 0) = first (y + 1) 0 := by
  rw [← monthStart_twelve, monthStart, Nat.add_comm, Function.iterate_add_apply,
    iterate_monthStart y (show 11 < 12 by omega), iterate_month y ⟨11, by omega⟩]
  rfl

/-- The date so many days into a month of a year. -/
theorem iterate_date (y : Int) {m day : Nat} (hm : m < 12) (hday : day < monthLength y (m + 1)) :
    let d := Date.next^[monthStart y m + day] (first y 0)
    d.year = y ∧ d.month = m + 1 ∧ d.day = day + 1 := by
  rw [Nat.add_comm, Function.iterate_add_apply, iterate_monthStart y hm, Nat.add_comm day]
  exact iterate_day (first y ⟨m, hm⟩) (by rw [Nat.add_comm]; exact hday)

/-! ## The count in closed form -/

/-- The days before a year, from a fixed day on: 365 a year, and one for each leap day. -/
def yearStart (y : Int) : Int := 365 * y + (y - 1) / 4 - (y - 1) / 100 + (y - 1) / 400

/-- The days from 1970-01-01 to a date. -/
def dayNumber (d : Date) : Int :=
  yearStart d.year - yearStart 1970 + monthStart d.year (d.month - 1) + d.day - 1

theorem yearStart_succ (y : Int) : yearStart (y + 1) = yearStart y + yearLength y := by
  rw [yearStart, yearStart, yearLength]
  split
  · rename_i h
    obtain ⟨h4, h100⟩ := h
    push_cast
    omega
  · rename_i h
    have h : ¬ 4 ∣ y ∨ 100 ∣ y ∧ ¬ 400 ∣ y := by
      by_cases h4 : 4 ∣ y
      · exact .inr (by simpa [IsLeap, h4] using h)
      · exact .inl h4
    push_cast
    omega

theorem dayNumber_next (d : Date) : dayNumber d.next = dayNumber d + 1 := by
  have hm := d.month_range
  have hd := d.day_range
  have hstart : monthStart d.year d.month =
      monthStart d.year (d.month - 1) + monthLength d.year d.month := by
    obtain ⟨m, hm'⟩ : ∃ m, d.month = m + 1 := ⟨d.month - 1, by omega⟩
    rw [hm', Nat.add_sub_cancel, monthStart]
  rw [Date.next]
  split
  · simp only [dayNumber]
    push_cast
    omega
  split
  · simp only [dayNumber, first, Nat.add_sub_cancel, hstart]
    push_cast
    omega
  · have htwelve : d.month = 12 := by omega
    have hfirst : dayNumber (first (d.year + 1) 0) = yearStart (d.year + 1) - yearStart 1970 := by
      simp [dayNumber, first, monthStart]
    have hyear : yearLength d.year = monthStart d.year 11 + monthLength d.year 12 :=
      (monthStart_twelve d.year).symm
    have hbefore : monthStart d.year (d.month - 1) = monthStart d.year 11 := by rw [htwelve]
    rw [htwelve] at hd
    rename_i hday hmonth
    rw [htwelve] at hday
    rw [hfirst, yearStart_succ, dayNumber, hbefore, hyear]
    push_cast
    omega

theorem dayNumber_iterate (n : Nat) : dayNumber (Date.next^[n] epoch) = n := by
  induction n with
  | zero => rfl
  | succ n ih =>
    rw [Function.iterate_succ_apply', dayNumber_next, ih]
    push_cast
    rfl

end FreenetHarness.Lib.Calendar
