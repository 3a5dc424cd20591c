import Mathlib.Tactic

/-!
# The proleptic Gregorian calendar

* `Leap`, `daysIn`, `Date`: a year, a month of it and a day of the month. `Date.next`.
* `yearStart`, `dayOfYear`, `Date.number`: the days since a first of March. **`number_next`**,
  **`number_inj`**: they count the dates one by one, and no date twice.
* `DaysFrom`: the signed number of days between two dates. **`daysFrom_iff`**.
-/

namespace Calendar

def Leap (year : ℤ) : Prop := year % 4 = 0 ∧ (year % 100 ≠ 0 ∨ year % 400 = 0)

instance (year : ℤ) : Decidable (Leap year) := by unfold Leap; infer_instance

def daysIn (year : ℤ) (month : ℕ) : ℕ :=
  if month = 2 then if Leap year then 29 else 28
  else if month = 4 ∨ month = 6 ∨ month = 9 ∨ month = 11 then 30 else 31

/-- A date of the calendar; the year `0` is the one before the year `1`. -/
@[ext] structure Date where
  year : ℤ
  month : ℕ
  day : ℕ
  month_mem : 1 ≤ month ∧ month ≤ 12
  day_mem : 1 ≤ day ∧ day ≤ daysIn year month

theorem daysIn_bounds (year : ℤ) (month : ℕ) : 28 ≤ daysIn year month ∧ daysIn year month ≤ 31 := by
  unfold daysIn
  split_ifs <;> omega

/-- The day after: of the same month, of the next month, or of the next year. -/
def Date.next (d : Date) : Date :=
  if hd : d.day < daysIn d.year d.month then
    { d with day := d.day + 1, day_mem := ⟨by omega, hd⟩ }
  else if hm : d.month < 12 then
    { year := d.year, month := d.month + 1, day := 1, month_mem := ⟨by omega, by omega⟩
      day_mem := ⟨le_rfl, by have := daysIn_bounds d.year (d.month + 1); omega⟩ }
  else
    { year := d.year + 1, month := 1, day := 1, month_mem := ⟨le_rfl, by omega⟩
      day_mem := ⟨le_rfl, by have := daysIn_bounds (d.year + 1) 1; omega⟩ }

/-! ## Counting the days -/

/-- The days before the first of March of `year`, from the one of the year `0` on. -/
def yearStart (year : ℤ) : ℤ := 365 * year + year / 4 - year / 100 + year / 400

/-- The months of a year that starts in March, from `0` on. -/
def marchMonth (month : ℕ) : ℕ := (month + 9) % 12

/-- The days before a month of such a year. -/
def monthStart (m : ℕ) : ℕ := (153 * m + 2) / 5

namespace Date

variable (d : Date)

/-- The year whose March comes last before the date. -/
def marchYear : ℤ := if d.month ≤ 2 then d.year - 1 else d.year

def dayOfYear : ℕ := monthStart (marchMonth d.month) + (d.day - 1)

/-- The days from the first of March of the year `0`. -/
def number : ℤ := yearStart d.marchYear + d.dayOfYear

end Date

/-- From one March to the next there is a February, with its leap day or without. -/
theorem yearStart_succ (year : ℤ) :
    yearStart (year + 1) = yearStart year + if Leap (year + 1) then 366 else 365 := by
  unfold yearStart Leap
  split_ifs with h
  · omega
  · omega

theorem yearStart_mono {y z : ℤ} (h : y ≤ z) : yearStart y ≤ yearStart z := by
  unfold yearStart
  omega

section Dates

variable {d e : Date}

theorem monthStart_mono {m n : ℕ} (h : m ≤ n) : monthStart m ≤ monthStart n := by
  unfold monthStart
  omega

/-- The integer formula for the starts of the months gives them their lengths. -/
theorem monthStart_succ {month : ℕ} (year : ℤ) (hm : 1 ≤ month ∧ month ≤ 12) (h : month ≠ 2) :
    monthStart (marchMonth month + 1) = monthStart (marchMonth month) + daysIn year month := by
  obtain ⟨h₁, h₂⟩ := hm
  rw [daysIn, if_neg h]
  interval_cases month <;> first | rfl | exact absurd rfl h

/-- A date comes before the month after its own; the last month is the February. -/
theorem day_lt_monthStart (d : Date) :
    d.dayOfYear < monthStart (marchMonth d.month + 1) ∧ marchMonth d.month ≤ 11 := by
  obtain ⟨hm, hm'⟩ := d.month_mem
  obtain ⟨hd, hd'⟩ := d.day_mem
  refine ⟨?_, by simp only [marchMonth]; omega⟩
  by_cases hfeb : d.month = 2
  · have := (daysIn_bounds d.year d.month).2
    rw [Date.dayOfYear, hfeb]
    rw [hfeb, daysIn, if_pos rfl] at hd'
    simp only [monthStart, marchMonth]
    split_ifs at hd' <;> omega
  · have := monthStart_succ d.year d.month_mem hfeb
    rw [Date.dayOfYear]
    omega

/-- The day of the year lies in the year. -/
theorem dayOfYear_lt (d : Date) :
    yearStart d.marchYear + d.dayOfYear < yearStart (d.marchYear + 1) := by
  obtain ⟨hm, hm'⟩ := d.month_mem
  obtain ⟨hd, hd'⟩ := d.day_mem
  rw [yearStart_succ]
  by_cases hfeb : d.month = 2
  · have hy : d.marchYear + 1 = d.year := by
      rw [Date.marchYear, hfeb, if_pos le_rfl]
      omega
    rw [hfeb, daysIn, if_pos rfl] at hd'
    rw [hy, Date.dayOfYear, hfeb]
    simp only [monthStart, marchMonth]
    split_ifs at hd' ⊢ <;> omega
  · have hlt : marchMonth d.month + 1 ≤ 11 := by
      simp only [marchMonth]
      omega
    have := (day_lt_monthStart d).1.trans_le (monthStart_mono hlt)
    simp only [monthStart] at this
    split_ifs <;> omega

/-- **The day after has the next number.** -/
theorem number_next (d : Date) : d.next.number = d.number + 1 := by
  obtain ⟨hm, hm'⟩ := d.month_mem
  obtain ⟨hd, hd'⟩ := d.day_mem
  unfold Date.next
  split_ifs with hday hmonth
  · simp only [Date.number, Date.marchYear, Date.dayOfYear]
    omega
  · have hlast : d.day = daysIn d.year d.month := by omega
    by_cases hfeb : d.month = 2
    · -- the first of March starts the next year
      have hy := yearStart_succ (d.year - 1)
      rw [sub_add_cancel] at hy
      simp only [Date.number, Date.marchYear, Date.dayOfYear, hlast, hfeb, daysIn, monthStart, marchMonth]
      norm_num
      split_ifs at hy ⊢ <;> omega
    · have hs := monthStart_succ d.year d.month_mem hfeb
      have hmarch : marchMonth (d.month + 1) = marchMonth d.month + 1 := by
        simp only [marchMonth]
        omega
      have hyear : (if d.month + 1 ≤ 2 then d.year - 1 else d.year) = d.marchYear := by
        rw [Date.marchYear]
        split_ifs <;> omega
      simp only [Date.number, Date.dayOfYear]
      rw [Date.marchYear, hyear, hmarch, hs]
      omega
  · have hdec : d.month = 12 := by omega
    have hlast : d.day = 31 := by
      norm_num [hdec, daysIn] at hday hd'
      omega
    simp only [Date.number, Date.marchYear, Date.dayOfYear, hdec, hlast, monthStart, marchMonth]
    norm_num
    omega

/-- **Different dates have different numbers.** -/
theorem number_inj (h : d.number = e.number) : d = e := by
  have hd := dayOfYear_lt d
  have he := dayOfYear_lt e
  simp only [Date.number] at h
  have hyear : d.marchYear = e.marchYear := by
    rcases lt_trichotomy d.marchYear e.marchYear with hlt | heq | hlt
    · have := yearStart_mono (Int.add_one_le_iff.mpr hlt)
      omega
    · exact heq
    · have := yearStart_mono (Int.add_one_le_iff.mpr hlt)
      omega
  rw [hyear] at h
  obtain ⟨hdlt, hdm⟩ := day_lt_monthStart d
  obtain ⟨helt, hem⟩ := day_lt_monthStart e
  have hday : d.dayOfYear = e.dayOfYear := by omega
  have hmarch : marchMonth d.month = marchMonth e.month := by
    simp only [Date.dayOfYear] at hdlt helt hday
    rcases lt_trichotomy (marchMonth d.month) (marchMonth e.month) with hlt | heq | hlt
    · have := monthStart_mono (Nat.add_one_le_iff.mpr hlt)
      omega
    · exact heq
    · have := monthStart_mono (Nat.add_one_le_iff.mpr hlt)
      omega
  obtain ⟨hm, hm'⟩ := d.month_mem
  obtain ⟨hn, hn'⟩ := e.month_mem
  have hmonth : d.month = e.month := by
    simp only [marchMonth] at hmarch
    omega
  simp only [Date.dayOfYear, hmonth] at hday
  simp only [Date.marchYear, hmonth] at hyear
  have := d.day_mem.1
  have := e.day_mem.1
  refine Date.ext ?_ hmonth (by omega)
  split_ifs at hyear <;> omega

/-! ## Days between dates -/

/-- From `d` to `e` it is `n` days, backwards if `n` is negative. -/
def DaysFrom (d e : Date) (n : ℤ) : Prop :=
  ∃ k : ℕ, (n = k ∧ Date.next^[k] d = e) ∨ (n = -k ∧ Date.next^[k] e = d)

theorem number_iterate (d : Date) (k : ℕ) : (Date.next^[k] d).number = d.number + k := by
  induction k generalizing d with
  | zero => simp
  | succ k ih =>
    rw [Function.iterate_succ_apply, ih, number_next]
    push_cast
    ring

/-- **The number of days between two dates** is the difference of their numbers. -/
theorem daysFrom_iff {n : ℤ} : DaysFrom d e n ↔ n = e.number - d.number := by
  constructor
  · rintro ⟨k, ⟨rfl, rfl⟩ | ⟨rfl, rfl⟩⟩
    · rw [number_iterate]
      ring
    · rw [number_iterate]
      ring
  · rintro rfl
    rcases le_total d.number e.number with hle | hle
    · refine ⟨(e.number - d.number).toNat, .inl ⟨by omega, number_inj ?_⟩⟩
      rw [number_iterate]
      omega
    · refine ⟨(d.number - e.number).toNat, .inr ⟨by omega, number_inj ?_⟩⟩
      rw [number_iterate]
      omega

end Dates

end Calendar
