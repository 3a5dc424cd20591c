import Mathlib.Tactic
import Rymos.Base.Calendar

/-!
# Civil dates

* `daysFromCivil`: the days from 1970-01-01 to a date, in 64 bits.
* `daysFromCivil_eq_some`: what it computes when nothing overflows.
* **`daysFromCivil_exact`**: it is the signed number of days.
-/

namespace Rymos

open Calendar

/-- A result of 64-bit signed arithmetic; `none` is an overflow. -/
def i64 (x : ℤ) : Option ℤ := if -2 ^ 63 ≤ x ∧ x < 2 ^ 63 then some x else none

theorem i64_of_mem {x : ℤ} (h : -2 ^ 63 ≤ x ∧ x < 2 ^ 63) : i64 x = some x := if_pos h

theorem i64_eq_some {x y : ℤ} : i64 x = some y ↔ (-2 ^ 63 ≤ x ∧ x < 2 ^ 63) ∧ x = y := by
  unfold i64
  split_ifs with h
  · exact ⟨fun e => ⟨h, Option.some.inj e⟩, fun e => congrArg some e.2⟩
  · exact ⟨nofun, fun e => absurd e.1 h⟩

/-- A division of the source truncates towards zero. -/
def daysFromCivil (year : ℤ) (month day : UInt8) : Option ℤ :=
  (if month ≤ 2 then i64 (year - 1) else some year).bind fun y =>
  (if y ≥ 0 then some y else i64 (y - 399)).bind fun numerator =>
  let era := numerator.tdiv 400
  (i64 (era * 400)).bind fun eraYears =>
  (i64 (y - eraYears)).bind fun yearOfEra =>
  let monthIndex := ((month.toNat : ℤ) + 9).tmod 12
  let dayOfYear := (153 * monthIndex + 2).tdiv 5 + day.toNat - 1
  (i64 (yearOfEra * 365)).bind fun eraDays =>
  (i64 (eraDays + yearOfEra.tdiv 4)).bind fun leapDays =>
  (i64 (leapDays - yearOfEra.tdiv 100)).bind fun centuries =>
  (i64 (centuries + dayOfYear)).bind fun dayOfEra =>
  (i64 (era * 146097)).bind fun eras =>
  (i64 (eras + dayOfEra)).bind fun days =>
  i64 (days - 719468)

/-- The division for eras rounds down, for years of either sign. -/
theorem era_eq (y : ℤ) : (if y ≥ 0 then y else y - 399).tdiv 400 = y / 400 := by
  split_ifs with h
  · exact Int.tdiv_eq_ediv_of_nonneg h
  · have hneg : y - 399 = -(399 - y) := by ring
    rw [hneg, Int.neg_tdiv, Int.tdiv_eq_ediv_of_nonneg (by omega)]
    omega

/-- The two forms of a correction that is made on one side only. -/
theorem of_corrected {c : Prop} [Decidable c] {a b y : ℤ}
    (h : (if c then i64 a else some b) = some y) : y = if c then a else b := by
  split_ifs at h ⊢
  · exact (i64_eq_some.mp h).2.symm
  · exact (Option.some.inj h).symm

theorem of_corrected' {c : Prop} [Decidable c] {a b y : ℤ}
    (h : (if c then some b else i64 a) = some y) : y = if c then b else a := by
  split_ifs at h ⊢
  · exact (Option.some.inj h).symm
  · exact (i64_eq_some.mp h).2.symm

/-- **What the function computes**, when nothing overflows. -/
theorem daysFromCivil_eq_some {year n : ℤ} {month day : UInt8}
    (h : daysFromCivil year month day = some n) :
    n = yearStart (if month.toNat ≤ 2 then year - 1 else year) + monthStart (marchMonth month.toNat) +
      day.toNat - 1 - 719468 := by
  simp only [daysFromCivil, Option.bind_eq_some_iff, i64_eq_some] at h
  obtain ⟨y, hy, numerator, hnum, eraYears, ⟨-, rfl⟩, yearOfEra, ⟨-, hyoe⟩, eraDays, ⟨-, rfl⟩, leapDays,
    ⟨-, rfl⟩, centuries, ⟨-, rfl⟩, dayOfEra, ⟨-, rfl⟩, eras, ⟨-, rfl⟩, days, ⟨-, rfl⟩, -, rfl⟩ := h
  have hera : numerator.tdiv 400 = y / 400 := by
    rw [of_corrected' hnum, era_eq]
  rw [hera] at hyoe ⊢
  have hmod : yearOfEra = y % 400 := by omega
  have hmonth : ((month.toNat : ℤ) + 9).tmod 12 = marchMonth month.toNat := by
    rw [Int.tmod_eq_emod_of_nonneg (by omega)]
    simp only [marchMonth]
    omega
  have hstart : (153 * (marchMonth month.toNat : ℤ) + 2).tdiv 5 = monthStart (marchMonth month.toNat) := by
    rw [Int.tdiv_eq_ediv_of_nonneg (by omega)]
    simp only [monthStart]
    omega
  have hle : (month ≤ 2) ↔ month.toNat ≤ 2 := UInt8.le_iff_toNat_le
  rw [hmonth, hstart, Int.tdiv_eq_ediv_of_nonneg (by omega), Int.tdiv_eq_ediv_of_nonneg (by omega)]
  simp only [← hle, ← of_corrected hy, yearStart]
  omega

/-- In the years around the present nothing overflows. -/
theorem daysFromCivil_isSome {year : ℤ} (hy : -2 ^ 40 ≤ year ∧ year ≤ 2 ^ 40) (month day : UInt8) :
    (daysFromCivil year month day).isSome := by
  have hm := month.toNat_lt
  have hd := day.toNat_lt
  have h₁ : (if month ≤ 2 then i64 (year - 1) else some year) =
      some (if month ≤ 2 then year - 1 else year) := by
    split_ifs
    · exact i64_of_mem (by omega)
    · rfl
  rw [daysFromCivil, h₁, Option.bind_some]
  have hb : -2 ^ 41 ≤ (if month ≤ 2 then year - 1 else year) ∧
      (if month ≤ 2 then year - 1 else year) ≤ 2 ^ 40 := by
    split_ifs <;> omega
  generalize (if month ≤ 2 then year - 1 else year) = y at hb
  have h₂ : (if y ≥ 0 then some y else i64 (y - 399)) = some (if y ≥ 0 then y else y - 399) := by
    split_ifs
    · rfl
    · exact i64_of_mem (by omega)
  rw [h₂, Option.bind_some, era_eq]
  dsimp only
  rw [i64_of_mem (by omega), Option.bind_some, i64_of_mem (by omega), Option.bind_some,
    Int.tdiv_eq_ediv_of_nonneg (by omega), Int.tdiv_eq_ediv_of_nonneg (by omega),
    Int.tmod_eq_emod_of_nonneg (by omega), Int.tdiv_eq_ediv_of_nonneg (by omega),
    i64_of_mem (by omega), Option.bind_some, i64_of_mem (by omega), Option.bind_some,
    i64_of_mem (by omega), Option.bind_some, i64_of_mem (by omega), Option.bind_some,
    i64_of_mem (by omega), Option.bind_some, i64_of_mem (by omega), Option.bind_some,
    i64_of_mem (by omega)]
  rfl

/-- `1970-01-01` -/
def unixEpoch : Date := ⟨1970, 1, 1, by decide, by decide⟩

theorem number_unixEpoch : unixEpoch.number = 719468 := by decide

/-- The function on a date. -/
def unixDays (d : Date) : Option ℤ := daysFromCivil d.year (UInt8.ofNat d.month) (UInt8.ofNat d.day)

theorem toNat_month (d : Date) : (UInt8.ofNat d.month).toNat = d.month := by
  have := d.month_mem
  rw [UInt8.toNat_ofNat']
  omega

theorem toNat_day (d : Date) : (UInt8.ofNat d.day).toNat = d.day := by
  have := d.day_mem.2
  have := (daysIn_bounds d.year d.month).2
  rw [UInt8.toNat_ofNat']
  omega

/-- **The result is the number of the date**, counted from the epoch. -/
theorem unixDays_eq_some {d : Date} {n : ℤ} (h : unixDays d = some n) :
    n = d.number - unixEpoch.number := by
  have hd := d.day_mem.1
  rw [daysFromCivil_eq_some h, toNat_month, toNat_day, number_unixEpoch]
  simp only [Date.number, Date.marchYear, Date.dayOfYear]
  omega

/-- **`days_from_civil` is exact.** It is `0` at the epoch; for every date where no intermediate value
overflows it is the signed number of days from the epoch, and the one of the next day is one more. -/
theorem daysFromCivil_exact : daysFromCivil 1970 1 1 = some 0 ∧
    ∀ (d : Date) (n : ℤ), unixDays d = some n → DaysFrom unixEpoch d n ∧
      (∀ m, DaysFrom unixEpoch d m → m = n) ∧ ∀ m, unixDays d.next = some m → m = n + 1 := by
  refine ⟨by decide, fun d n hn => ?_⟩
  have hd := unixDays_eq_some hn
  refine ⟨daysFrom_iff.mpr hd, fun m hm => (daysFrom_iff.mp hm).trans hd.symm, fun m hm => ?_⟩
  rw [unixDays_eq_some hm, number_next, hd]
  ring

/-- The leap day of 2000. -/
theorem daysFromCivil_exact_leapDay :
    DaysFrom unixEpoch ⟨2000, 2, 29, by decide, by decide⟩ 11016 :=
  (daysFromCivil_exact.2 ⟨2000, 2, 29, by decide, by decide⟩ 11016 (by decide)).1

end Rymos
