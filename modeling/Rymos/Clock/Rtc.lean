import Mathlib.Tactic
import Rymos.Clock.Civil

/-!
# The real-time clock

* `waitForUpdate`, `readFields`, `readAgain`, `decodeFields`, `readRtcUnixSeconds`: the reading of the
  clock at boot.
* `ClockMode`, `ClockTime`, `ShowsTime`: the four formats of the registers, and what they hold.
* **`readRtc_iff`**: in which formats, and for which hours, the reading is right.
-/

namespace Rymos

open Calendar

/-- The CMOS registers at each read: `cmos k register` is the byte that the `k`-th read returns. -/
abbrev Cmos : Type := ℕ → UInt8 → UInt8

structure RtcFields where
  second : UInt8
  minute : UInt8
  hour : UInt8
  day : UInt8
  month : UInt8
  year : UInt8
deriving DecidableEq

def bcdToBinary (value : UInt8) : UInt8 := (value &&& 0x0F) + (value >>> (4 : UInt8)) * 10

/-- The wait for the end of an update, from read `k` on; the next read. -/
def waitForUpdate (cmos : Cmos) : ℕ → ℕ → ℕ
  | 0, k => k
  | turns + 1, k => if cmos k 0x0A &&& 0x80 = 0 then k + 1 else waitForUpdate cmos turns (k + 1)

def readFields (cmos : Cmos) (k : ℕ) : RtcFields :=
  { second := cmos k 0x00, minute := cmos (k + 1) 0x02, hour := cmos (k + 2) 0x04
    day := cmos (k + 3) 0x07, month := cmos (k + 4) 0x08, year := cmos (k + 5) 0x09 }

/-- The reads that confirm `fields`, and the next read. -/
def readAgain (cmos : Cmos) : ℕ → ℕ → RtcFields → ℕ × RtcFields
  | 0, k, fields => (k, fields)
  | turns + 1, k, fields =>
    let again := readFields cmos k
    if again = fields then (k + 6, fields) else readAgain cmos turns (k + 6) again

def decodeFields (statusB : UInt8) (fields : RtcFields) : RtcFields :=
  if statusB &&& 0x04 = 0 then
    let pm := fields.hour &&& 0x80 ≠ 0
    let hour := bcdToBinary (fields.hour &&& 0x7F)
    { second := bcdToBinary fields.second
      minute := bcdToBinary fields.minute
      hour := if statusB &&& 0x02 = 0 ∧ pm then hour % 12 + 12 else hour
      day := bcdToBinary fields.day
      month := bcdToBinary fields.month
      year := bcdToBinary fields.year }
  else fields

/-- `none` is an overflow. -/
def readRtcUnixSeconds (cmos : Cmos) : Option ℕ :=
  let k := waitForUpdate cmos 100000 0
  let (k, fields) := readAgain cmos 8 (k + 6) (readFields cmos k)
  let fields := decodeFields (cmos k 0x0B) fields
  if ¬ (1 ≤ fields.month ∧ fields.month ≤ 12) ∨ ¬ (1 ≤ fields.day ∧ fields.day ≤ 31) then some 0
  else
    (daysFromCivil (2000 + fields.year.toNat) fields.month fields.day).bind fun days =>
    (i64 (days * 86400)).bind fun seconds =>
    (i64 (seconds + (fields.hour.toNat * 3600 + fields.minute.toNat * 60 + fields.second.toNat))).map
      fun seconds => (max seconds 0).toNat

/-! ## The formats of the clock -/

/-- Bits 2 and 1 of status register B. -/
structure ClockMode where
  binary : Bool
  hours24 : Bool
deriving DecidableEq

/-- A date and time of the 21st century, as the registers can hold it. -/
structure ClockTime where
  date : Date
  hour : ℕ
  minute : ℕ
  second : ℕ
  year_mem : 2000 ≤ date.year ∧ date.year ≤ 2099
  hour_lt : hour < 24
  minute_lt : minute < 60
  second_lt : second < 60

/-- Seconds since the start of 1970. -/
def ClockTime.unix (t : ClockTime) : ℤ :=
  (t.date.number - unixEpoch.number) * 86400 + (t.hour * 3600 + t.minute * 60 + t.second)

/-- A number below `100` in a register. -/
def ClockMode.encode (mode : ClockMode) (n : ℕ) : UInt8 :=
  if mode.binary then UInt8.ofNat n else UInt8.ofNat (n / 10 * 16 + n % 10)

/-- In the 12-hour formats the hours are `12`, `1`, …, `11`, and bit 7 says whether it is past noon. -/
def ClockMode.encodeHour (mode : ClockMode) (hour : ℕ) : UInt8 :=
  if mode.hours24 then mode.encode hour
  else mode.encode (if hour % 12 = 0 then 12 else hour % 12) ||| if 12 ≤ hour then 0x80 else 0

/-- The registers hold the time in the format, at every read. The register of the update bit may hold
anything. -/
structure ShowsTime (cmos : Cmos) (mode : ClockMode) (t : ClockTime) : Prop where
  second : ∀ k, cmos k 0x00 = mode.encode t.second
  minute : ∀ k, cmos k 0x02 = mode.encode t.minute
  hour : ∀ k, cmos k 0x04 = mode.encodeHour t.hour
  day : ∀ k, cmos k 0x07 = mode.encode t.date.day
  month : ∀ k, cmos k 0x08 = mode.encode t.date.month
  year : ∀ k, cmos k 0x09 = mode.encode (t.date.year - 2000).toNat
  binary : ∀ k, cmos k 0x0B &&& 0x04 = 0 ↔ mode.binary = false
  hours24 : ∀ k, cmos k 0x0B &&& 0x02 = 0 ↔ mode.hours24 = false

/-- The hours that a format tells right: all in the 24-hour formats, those from one to noon in the 12-hour
formats, and in the one in BCD also those past noon. -/
def ClockMode.Tells (mode : ClockMode) (hour : ℕ) : Prop :=
  mode.hours24 = true ∨ 1 ≤ hour ∧ hour < 12 ∨ mode.binary = false ∧ 12 ≤ hour

instance (mode : ClockMode) (hour : ℕ) : Decidable (mode.Tells hour) := by
  unfold ClockMode.Tells
  infer_instance

/-! ## What is read -/

section Read

variable {cmos : Cmos} {mode : ClockMode} {t : ClockTime}

/-- The fields as the registers hold them. -/
def ClockTime.fields (t : ClockTime) (mode : ClockMode) : RtcFields :=
  { second := mode.encode t.second, minute := mode.encode t.minute, hour := mode.encodeHour t.hour
    day := mode.encode t.date.day, month := mode.encode t.date.month
    year := mode.encode (t.date.year - 2000).toNat }

theorem ShowsTime.readFields (h : ShowsTime cmos mode t) (k : ℕ) : readFields cmos k = t.fields mode := by
  simp only [Rymos.readFields, ClockTime.fields, h.second, h.minute, h.hour, h.day, h.month, h.year]

/-- The second reading agrees with the first. -/
theorem ShowsTime.readAgain (h : ShowsTime cmos mode t) (turns k : ℕ) :
    (readAgain cmos turns k (t.fields mode)).2 = t.fields mode := by
  cases turns with
  | zero => rfl
  | succ turns =>
    rw [Rymos.readAgain, h.readFields, if_pos rfl]

/-- A number below `100` is decoded as it was encoded. -/
theorem decode_encode {n : ℕ} (hn : n < 100) (mode : ClockMode) :
    (if mode.binary then mode.encode n else bcdToBinary (mode.encode n)).toNat = n := by
  obtain ⟨binary, hours24⟩ := mode
  cases binary with
  | true =>
    simp only [ClockMode.encode, if_true, UInt8.toNat_ofNat']
    omega
  | false =>
    have hall : ∀ n < 100, (bcdToBinary (UInt8.ofNat (n / 10 * 16 + n % 10))).toNat = n := by decide +kernel
    exact hall n hn

/-- The hour that the decoding returns. -/
def ClockMode.decodeHour (mode : ClockMode) (hour : UInt8) : UInt8 :=
  if mode.binary then hour
  else if mode.hours24 = false ∧ hour &&& 0x80 ≠ 0 then bcdToBinary (hour &&& 0x7F) % 12 + 12
  else bcdToBinary (hour &&& 0x7F)

/-- **Which hours are decoded as they were encoded.** -/
theorem decodeHour_encodeHour (mode : ClockMode) {hour : ℕ} (h : hour < 24) :
    (mode.decodeHour (mode.encodeHour hour)).toNat = hour ↔ mode.Tells hour := by
  obtain ⟨binary, hours24⟩ := mode
  have hall : ∀ binary hours24 : Bool, ∀ hour < 24,
      (((ClockMode.mk binary hours24).decodeHour
        ((ClockMode.mk binary hours24).encodeHour hour)).toNat = hour ↔
          (ClockMode.mk binary hours24).Tells hour) := by decide +kernel
  exact hall binary hours24 hour h

/-- The fields that the decoding returns. -/
theorem decodeFields_eq {statusB : UInt8} (hb : statusB &&& 0x04 = 0 ↔ mode.binary = false)
    (h24 : statusB &&& 0x02 = 0 ↔ mode.hours24 = false) :
    decodeFields statusB (t.fields mode) =
      { second := if mode.binary then mode.encode t.second else bcdToBinary (mode.encode t.second)
        minute := if mode.binary then mode.encode t.minute else bcdToBinary (mode.encode t.minute)
        hour := mode.decodeHour (mode.encodeHour t.hour)
        day := if mode.binary then mode.encode t.date.day else bcdToBinary (mode.encode t.date.day)
        month := if mode.binary then mode.encode t.date.month
          else bcdToBinary (mode.encode t.date.month)
        year := if mode.binary then mode.encode (t.date.year - 2000).toNat
          else bcdToBinary (mode.encode (t.date.year - 2000).toNat) } := by
  unfold decodeFields ClockMode.decodeHour ClockTime.fields
  cases hbin : mode.binary with
  | true =>
    rw [if_neg (by rw [hb, hbin]; decide)]
    simp
  | false =>
    rw [if_pos (hb.mpr hbin)]
    simp only [h24, Bool.false_eq_true, if_false]

/-- The date of the time, in days from the epoch. -/
theorem ClockTime.days (t : ClockTime) {year month day : UInt8}
    (hy : year.toNat = (t.date.year - 2000).toNat) (hm : month.toNat = t.date.month)
    (hd : day.toNat = t.date.day) :
    daysFromCivil (2000 + year.toNat) month day = some (t.date.number - unixEpoch.number) := by
  obtain ⟨hlo, hhi⟩ := t.year_mem
  have hyear : 2000 + (year.toNat : ℤ) = t.date.year := by
    rw [hy]
    omega
  have hmonth : month = UInt8.ofNat t.date.month := by
    rw [← hm, UInt8.ofNat_toNat]
  have hday : day = UInt8.ofNat t.date.day := by
    rw [← hd, UInt8.ofNat_toNat]
  obtain ⟨n, hn⟩ := Option.isSome_iff_exists.mp
    (daysFromCivil_isSome (show -2 ^ 40 ≤ t.date.year ∧ t.date.year ≤ 2 ^ 40 by omega) month day)
  rw [hyear, hn, ← unixDays_eq_some (d := t.date) (by rw [unixDays, ← hmonth, ← hday, hn])]

/-- The dates of the century have small numbers. -/
theorem ClockTime.days_bounds (t : ClockTime) :
    0 ≤ t.date.number - unixEpoch.number ∧ t.date.number - unixEpoch.number ≤ 100000 := by
  obtain ⟨hlo, hhi⟩ := t.year_mem
  obtain ⟨hd, hd'⟩ := t.date.day_mem
  obtain ⟨hm, hm'⟩ := t.date.month_mem
  have := (daysIn_bounds t.date.year t.date.month).2
  rw [number_unixEpoch]
  simp only [Date.number, Date.marchYear, Date.dayOfYear, yearStart, monthStart, marchMonth]
  split_ifs <;> omega

/-- **The reading of the clock is right just for the hours that the format tells.** -/
theorem readRtc_iff (h : ShowsTime cmos mode t) :
    (∃ n : ℕ, readRtcUnixSeconds cmos = some n ∧ (n : ℤ) = t.unix) ↔ mode.Tells t.hour := by
  obtain ⟨hlo, hhi⟩ := t.year_mem
  obtain ⟨hd, hd'⟩ := t.date.day_mem
  obtain ⟨hm, hm'⟩ := t.date.month_mem
  have hdays := (daysIn_bounds t.date.year t.date.month).2
  have hminute_lt := t.minute_lt
  have hsecond_lt := t.second_lt
  have hminute := decode_encode (n := t.minute) (by omega) mode
  have hsecond := decode_encode (n := t.second) (by omega) mode
  have hmonth := decode_encode (n := t.date.month) (by omega) mode
  have hday := decode_encode (n := t.date.day) (by omega) mode
  have hyear := decode_encode (n := (t.date.year - 2000).toNat) (by omega) mode
  have hhour := (mode.decodeHour (mode.encodeHour t.hour)).toNat_lt
  obtain ⟨hnum, hnum'⟩ := t.days_bounds
  rw [readRtcUnixSeconds, h.readFields]
  dsimp only
  rw [h.readAgain, decodeFields_eq (h.binary _) (h.hours24 _)]
  dsimp only
  rw [if_neg ?_, t.days hyear hmonth hday, Option.bind_some, i64_of_mem (by omega), Option.bind_some,
    i64_of_mem (by omega), Option.map_some, hminute, hsecond, ← decodeHour_encodeHour mode t.hour_lt,
    ClockTime.unix]
  · constructor
    · rintro ⟨n, hn, hu⟩
      have := Option.some.inj hn
      omega
    · intro hh
      exact ⟨_, rfl, by omega⟩
  · simp only [UInt8.le_iff_toNat_le, hmonth, hday, not_or, not_not]
    refine ⟨⟨hm, hm'⟩, hd, ?_⟩
    exact hd'.trans hdays

end Read

/-- Status register B without its other bits. -/
def ClockMode.statusB (mode : ClockMode) : UInt8 :=
  (if mode.binary then 0x04 else 0) ||| if mode.hours24 then 0x02 else 0

theorem statusB_spec (mode : ClockMode) : (mode.statusB &&& 0x04 = 0 ↔ mode.binary = false) ∧
    (mode.statusB &&& 0x02 = 0 ↔ mode.hours24 = false) := by
  obtain ⟨_ | _, _ | _⟩ := mode <;> decide

/-- Registers that hold a time in a format and never change. -/
def steadyCmos (mode : ClockMode) (t : ClockTime) : Cmos := fun _ register =>
  if register = 0x00 then mode.encode t.second
  else if register = 0x02 then mode.encode t.minute
  else if register = 0x04 then mode.encodeHour t.hour
  else if register = 0x07 then mode.encode t.date.day
  else if register = 0x08 then mode.encode t.date.month
  else if register = 0x09 then mode.encode (t.date.year - 2000).toNat
  else if register = 0x0B then mode.statusB
  else 0

theorem shows_steadyCmos (mode : ClockMode) (t : ClockTime) : ShowsTime (steadyCmos mode t) mode t where
  second _ := rfl
  minute _ := rfl
  hour _ := rfl
  day _ := rfl
  month _ := rfl
  year _ := rfl
  binary _ := (statusB_spec mode).1
  hours24 _ := (statusB_spec mode).2

/-- `2000-01-01`, at an hour. -/
def newYear (hour : ℕ) (h : hour < 24) : ClockTime :=
  ⟨⟨2000, 1, 1, unixEpoch.month_mem, by decide⟩, hour, 0, 0, by decide, h, by decide, by decide⟩

/-- One in the afternoon, in BCD with 12 hours. -/
theorem readRtc_iff_afternoon : ∃ n : ℕ,
    readRtcUnixSeconds (steadyCmos ⟨false, false⟩ (newYear 13 (by decide))) = some n ∧
      (n : ℤ) = (newYear 13 (by decide)).unix :=
  (readRtc_iff (shows_steadyCmos _ _)).mpr (by decide)

/-- At midnight the registers of the 12-hour format in BCD are read as noon. -/
theorem not_readRtc_midnight : ¬ ∀ (cmos : Cmos) (mode : ClockMode) (t : ClockTime), ShowsTime cmos mode t →
    ∃ n : ℕ, readRtcUnixSeconds cmos = some n ∧ (n : ℤ) = t.unix := by
  intro hall
  have hread : readRtcUnixSeconds (steadyCmos ⟨false, false⟩ (newYear 0 (by decide))) =
      some 946728000 := by decide +kernel
  obtain ⟨n, hn, hu⟩ := hall _ _ _ (shows_steadyCmos ⟨false, false⟩ (newYear 0 (by decide)))
  rw [hread] at hn
  cases hn
  exact absurd hu (by decide)

end Rymos
