import FreenetHarness.Lib.Calendar
import FreenetHarness.Lib.Number
import Mathlib.Tactic.IntervalCases

/-! # The date a measurement is printed with

`chrono_ish` finds the date by subtracting the lengths of years, then of months.
`stamp_shows` says that the loops end on the day that follows 1970-01-01 by as many days as
the clock says, and that this is what is printed. -/
namespace FreenetHarness.Chrono
open FreenetHarness.Lib.Text FreenetHarness.Lib.Number FreenetHarness.Lib.Calendar

/-! ## The code -/

def leap (y : Int) : Bool := (y % 4 == 0 && y % 100 != 0) || y % 400 == 0

def len (y : Int) : Int := if leap y then 366 else 365

theorem len_pos (y : Int) : 365 ≤ len y := by
  rw [len]
  split <;> decide

/-- The years are taken off while the days last for one. -/
def yearLoop (y days : Int) : Int × Int :=
  if days < len y then (y, days) else yearLoop (y + 1) (days - len y)
termination_by days.toNat
decreasing_by
  have := len_pos y
  omega

def months (y : Int) : Vector Int 12 :=
  #v[31, if leap y then 29 else 28, 31, 30, 31, 30, 31, 31, 30, 31, 30, 31]

/-- The months of the year are taken off likewise; the table is not read past its end. -/
def monthLoop (months : Vector Int 12) (m : Nat) (days : Int) : Nat × Int :=
  if h : m < 12 then
    if months[m] ≤ days then monthLoop months (m + 1) (days - months[m]) else (m, days)
  else (m, days)
termination_by 12 - m

/-- The six numbers of a printed date. -/
structure Stamp where
  year : Int
  month : Nat
  day : Int
  hour : Nat
  minute : Nat
  second : Nat
  deriving DecidableEq

def stamp (secs : Nat) : Stamp :=
  let (y, days) := yearLoop 1970 (secs / 86400 : Nat)
  let (m, days) := monthLoop (months y) 0 days
  { year := y, month := m + 1, day := days + 1, hour := secs / 3600 % 24
    minute := secs / 60 % 60, second := secs % 60 }

/-- `{:0w}` of a whole number that may be negative; the sign takes one of the places. -/
def zeroPadInt (w : Nat) (n : Int) : Str :=
  if n < 0 then '-' :: zeroPad (w - 1) n.natAbs else zeroPad w n.natAbs

def Stamp.text (s : Stamp) : Str :=
  zeroPadInt 4 s.year ++ '-' :: zeroPad 2 s.month ++ '-' :: zeroPadInt 2 s.day ++
    ' ' :: zeroPad 2 s.hour ++ ':' :: zeroPad 2 s.minute ++ ':' :: zeroPad 2 s.second ++ ['Z']

/-- The clock in nanoseconds from the epoch as whole seconds; a clock before it reads 0. -/
def secsOf (t : Int) : Nat := t.toNat / 1000000000

def chronoIsh (t : Int) : Str := (stamp (secsOf t)).text

/-! ## The lengths are those of the calendar -/

theorem leap_iff (y : Int) : leap y = true ↔ IsLeap y := by
  simp only [leap, IsLeap, Bool.or_eq_true, Bool.and_eq_true, beq_iff_eq, bne_iff_ne]
  omega

theorem ite_leap (y a b : Int) :
    (if leap y then a else b) = if IsLeap y then a else b := if_congr (leap_iff y) rfl rfl

theorem len_eq (y : Int) : len y = yearLength y := by
  rw [len, ite_leap, yearLength]
  split <;> rfl

theorem february_eq (y : Int) : (if leap y then 29 else 28 : Int) = monthLength y 2 := by
  rw [ite_leap, monthLength]
  split <;> rfl

theorem months_eq (y : Int) {m : Nat} (h : m < 12) : (months y)[m] = monthLength y (m + 1) := by
  interval_cases m
  case «1» => exact february_eq y
  all_goals rfl

/-! ## What the loops leave -/

/-- What is left when the years are off: the same instant, told from a later January, and
less than a year of days. The loop makes as many passes as it adds to the year. -/
theorem yearLoop_spec (y days : Int) (h : 0 ≤ days) :
    let r := yearLoop y days
    0 ≤ r.2 ∧ r.2 < yearLength r.1 ∧ 365 * (r.1 - y) ≤ days ∧ y ≤ r.1 ∧
      Date.next^[r.2.toNat] (first r.1 0) = Date.next^[days.toNat] (first y 0) := by
  fun_induction yearLoop y days with
  | case1 y days hlt =>
    rw [len_eq] at hlt
    exact ⟨h, hlt, by omega, le_rfl, rfl⟩
  | case2 y days hge ih =>
    have hlen := len_pos y
    obtain ⟨hnonneg, hlt, hpasses, hle, hdate⟩ := ih (by omega)
    refine ⟨hnonneg, hlt, by omega, by omega, hdate.trans ?_⟩
    rw [len_eq] at hge ⊢
    rw [← iterate_year y, ← Function.iterate_add_apply]
    congr 2
    omega

/-- What is left when the months are off: a month of the table, and a day of that month. -/
theorem monthLoop_spec (y : Int) (m : Nat) (days : Int) (hm : m ≤ 12) (h : 0 ≤ days)
    (hlt : monthStart y m + days < yearLength y) :
    let r := monthLoop (months y) m days
    r.1 < 12 ∧ 0 ≤ r.2 ∧ r.2 < monthLength y (r.1 + 1) ∧
      monthStart y r.1 + r.2 = monthStart y m + days := by
  fun_induction monthLoop (months y) m days with
  | case1 m days hm' hle ih =>
    rw [months_eq y hm'] at hle ih ⊢
    have hstart : monthStart y (m + 1) = monthStart y m + monthLength y (m + 1) := rfl
    obtain ⟨hr, hnonneg, hday, hsum⟩ := ih (by omega) (by omega) (by omega)
    exact ⟨hr, hnonneg, hday, by omega⟩
  | case2 m days hm' hgt =>
    rw [months_eq y hm'] at hgt
    exact ⟨hm', h, lt_of_not_ge hgt, rfl⟩
  | case3 m days hm' =>
    obtain rfl : m = 12 := by omega
    rw [monthStart_twelve] at hlt
    omega

/-- The two loops together. -/
theorem stamp_eq (secs : Nat) :
    ∃ (y : Int) (m day : Nat), m < 12 ∧ day < monthLength y (m + 1) ∧
      1970 ≤ y ∧ 365 * (y - 1970) ≤ (secs / 86400 : Nat) ∧
      Date.next^[secs / 86400] epoch = Date.next^[monthStart y m + day] (first y 0) ∧
      stamp secs =
        { year := y, month := m + 1, day := day + 1, hour := secs / 3600 % 24
          minute := secs / 60 % 60, second := secs % 60 } := by
  obtain ⟨hnonneg, hlt, hpasses, hle, hdate⟩ :=
    yearLoop_spec 1970 (secs / 86400 : Nat) (Int.natCast_nonneg _)
  unfold stamp
  generalize yearLoop 1970 (secs / 86400 : Nat) = r at hnonneg hlt hpasses hle hdate ⊢
  obtain ⟨y, days⟩ := r
  obtain ⟨hm, hday, hdays, hsum⟩ :=
    monthLoop_spec y 0 days (Nat.zero_le 12) hnonneg (by simpa [monthStart] using hlt)
  dsimp only
  generalize monthLoop (months y) 0 days = r at hm hday hdays hsum ⊢
  obtain ⟨m, day⟩ := r
  obtain ⟨day, rfl⟩ := Int.eq_ofNat_of_zero_le hday
  have hsteps : days.toNat = monthStart y m + day := by
    simp only [monthStart] at hsum
    omega
  refine ⟨y, m, day, hm, by simpa using hdays, hle, hpasses, ?_, rfl⟩
  rw [← hsteps]
  exact hdate.symm

/-! ## What is printed -/

/-- The stamp shows a date and a time of day, those of the second. -/
structure Shows (secs : Nat) (d : Date) (s : Stamp) : Prop where
  year : s.year = d.year
  month : s.month = d.month
  day : s.day = d.day
  monthRange : 1 ≤ s.month ∧ s.month ≤ 12
  dayRange : 1 ≤ s.day ∧ s.day ≤ monthLength s.year s.month
  time : s.hour < 24 ∧ s.minute < 60 ∧ s.second < 60
  ofDay : s.hour * 3600 + s.minute * 60 + s.second = secs % 86400
  /-- The first loop makes a pass for each year after 1970. -/
  passes : 1970 ≤ s.year ∧ 365 * (s.year - 1970) ≤ (secs / 86400 : Nat)

theorem shows_stamp (secs : Nat) :
    Shows secs (Date.next^[secs / 86400] epoch) (stamp secs) := by
  obtain ⟨y, m, day, hm, hday, hle, hpasses, hsteps, hs⟩ := stamp_eq secs
  obtain ⟨hyear, hmonth, hdate⟩ := iterate_date y hm hday
  rw [hsteps, hs]
  exact {
    year := hyear.symm
    month := hmonth.symm
    day := by rw [hdate]; rfl
    monthRange := ⟨Nat.le_add_left 1 m, hm⟩
    dayRange := by dsimp only; omega
    time := ⟨Nat.mod_lt _ (by decide), Nat.mod_lt _ (by decide), Nat.mod_lt _ (by decide)⟩
    ofDay := by dsimp only; omega
    passes := ⟨hle, hpasses⟩ }

theorem zeroPadInt_of_nonneg {w : Nat} {n : Int} (h : 0 ≤ n) :
    zeroPadInt w n = zeroPad w n.natAbs := if_neg (by omega)

/-- A date and the time of day of a second, as they are printed. -/
def dateText (d : Date) (secs : Nat) : Str :=
  zeroPad 4 d.year.natAbs ++ '-' :: zeroPad 2 d.month ++ '-' :: zeroPad 2 d.day ++
    ' ' :: zeroPad 2 (secs / 3600 % 24) ++ ':' :: zeroPad 2 (secs / 60 % 60) ++
    ':' :: zeroPad 2 (secs % 60) ++ ['Z']

theorem text_stamp (secs : Nat) :
    (stamp secs).text = dateText (Date.next^[secs / 86400] epoch) secs := by
  obtain ⟨y, m, day, hm, hday, hle, -, hsteps, hs⟩ := stamp_eq secs
  obtain ⟨hyear, hmonth, hdate⟩ := iterate_date y hm hday
  have hnn : (0 : Int) ≤ y := by omega
  have hday0 : (0 : Int) ≤ day + 1 := by omega
  rw [hs, hsteps, Stamp.text, dateText, hyear, hmonth, hdate]
  dsimp only
  rw [zeroPadInt_of_nonneg hnn, zeroPadInt_of_nonneg hday0]
  rfl

/-- **The date of a second.** For every count of seconds the loops end, on the date that
comes as many days after 1970-01-01, one after the other, as the seconds make; and a clock that
reads this second prints it. -/
theorem stamp_shows (secs : Nat) :
    Shows secs (Date.next^[secs / 86400] epoch) (stamp secs) ∧
      dayNumber (Date.next^[secs / 86400] epoch) = (secs / 86400 : Nat) ∧
      ∀ t, secsOf t = secs → chronoIsh t = dateText (Date.next^[secs / 86400] epoch) secs :=
  ⟨shows_stamp secs, dayNumber_iterate _, fun t ht => by rw [chronoIsh, ht, text_stamp]⟩

/-- A leap day. -/
example : chronoIsh 951782400000000000 = "2000-02-29 00:00:00Z".toList := by decide +kernel

/-- No number of the loops leaves 64 bits: the days only go down, and the years do not go
up that far. -/
theorem stamp_year_lt {secs : Nat} (h : secs < 2 ^ 64) : (stamp secs).year < 2 ^ 63 := by
  have := (shows_stamp secs).passes
  omega

/-! ## The text tells the second -/

theorem text_inj {s t : Stamp} (hs : 0 ≤ s.year ∧ 0 ≤ s.day) (ht : 0 ≤ t.year ∧ 0 ≤ t.day)
    (h : s.text = t.text) : s = t := by
  obtain ⟨year, month, day, hour, minute, second⟩ := s
  obtain ⟨year', month', day', hour', minute', second'⟩ := t
  simp only [Stamp.text, zeroPadInt_of_nonneg hs.1, zeroPadInt_of_nonneg hs.2,
    zeroPadInt_of_nonneg ht.1, zeroPadInt_of_nonneg ht.2, List.append_assoc,
    List.cons_append] at h
  obtain ⟨hyear, h⟩ := zeroPad_append_inj rfl h
  obtain ⟨hmonth, h⟩ := zeroPad_append_inj rfl h
  obtain ⟨hday, h⟩ := zeroPad_append_inj rfl h
  obtain ⟨hhour, h⟩ := zeroPad_append_inj rfl h
  obtain ⟨hminute, h⟩ := zeroPad_append_inj rfl h
  obtain ⟨hsecond, -⟩ := zeroPad_append_inj rfl h
  simp only at hs ht
  have hyear : year = year' := by omega
  have hday : day = day' := by omega
  rw [hyear, hmonth, hday, hhour, hminute, hsecond]

/-- Two clocks print alike exactly when they are in the same second. -/
theorem chronoIsh_inj {t t' : Int} : chronoIsh t = chronoIsh t' ↔ secsOf t = secsOf t' := by
  constructor
  · intro h
    have hs := shows_stamp (secsOf t)
    have hs' := shows_stamp (secsOf t')
    have heq : stamp (secsOf t) = stamp (secsOf t') := by
      have := hs.passes
      have := hs'.passes
      have := hs.dayRange
      have := hs'.dayRange
      exact text_inj (by omega) (by omega) h
    rw [← heq] at hs'
    have hday := hs.day.symm.trans hs'.day
    have hdate : Date.next^[secsOf t / 86400] epoch = Date.next^[secsOf t' / 86400] epoch :=
      Date.ext (hs.year.symm.trans hs'.year) (hs.month.symm.trans hs'.month) (by omega)
    have hdays := congrArg dayNumber hdate
    rw [dayNumber_iterate, dayNumber_iterate] at hdays
    have hofDay := hs.ofDay.symm.trans hs'.ofDay
    omega
  · intro h
    rw [chronoIsh, chronoIsh, h]

end FreenetHarness.Chrono
