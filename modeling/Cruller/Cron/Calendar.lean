import Cruller.Cron.CronParser

/-!
# The calendar

What is relied on of the engine's conversions between instants and dates (`Lawful`), and a calendar
that counts the days from 1970 on and has it.
-/

namespace Cruller.Cron

open List

def daysIn (month : ℕ) : ℕ :=
  if month = 2 then 29 else if month ∈ [4, 6, 9, 11] then 30 else 31

theorem daysIn_le (month : ℕ) : daysIn month ≤ 31 := by
  unfold daysIn
  split_ifs <;> omega

/-- What is relied on of the engine's conversions: the fields of a date are those of the calendar;
an instant with its seconds dropped has the same date; the minute after some instant is the given
time of any day of a month and of any weekday in a month. -/
structure JSGlobalObject.Lawful {Ms : Type} (globalObject : JSGlobalObject Ms) : Prop where
  month : ∀ ms, 1 ≤ (globalObject.msToGregorianDateTimeUTC ms).month
    ∧ (globalObject.msToGregorianDateTimeUTC ms).month ≤ 12
  day : ∀ ms, 1 ≤ (globalObject.msToGregorianDateTimeUTC ms).day
    ∧ (globalObject.msToGregorianDateTimeUTC ms).day
      ≤ daysIn (globalObject.msToGregorianDateTimeUTC ms).month.toNat
  weekday : ∀ ms, 0 ≤ (globalObject.msToGregorianDateTimeUTC ms).weekday
    ∧ (globalObject.msToGregorianDateTimeUTC ms).weekday ≤ 6
  cut : ∀ ms, let dt := globalObject.msToGregorianDateTimeUTC ms
    ∃ ms', globalObject.gregorianDateTimeToMSUTC dt.year dt.month dt.day dt.hour dt.minute 0 0 =
        some ms'
      ∧ globalObject.msToGregorianDateTimeUTC ms' = { dt with second := 0 }
  reaches : ∀ month day hour minute : ℕ, 1 ≤ month → month ≤ 12 → 1 ≤ day → day ≤ daysIn month →
    hour ≤ 23 → minute ≤ 59 → ∃ from_ms ms,
      let dt := globalObject.msToGregorianDateTimeUTC from_ms
      globalObject.gregorianDateTimeToMSUTC dt.year dt.month dt.day dt.hour (dt.minute + 1) 0 0 =
          some ms
        ∧ (globalObject.msToGregorianDateTimeUTC ms).month = month
        ∧ (globalObject.msToGregorianDateTimeUTC ms).day = day
        ∧ (globalObject.msToGregorianDateTimeUTC ms).hour = hour
        ∧ (globalObject.msToGregorianDateTimeUTC ms).minute = minute
  reaches_weekday : ∀ month weekday hour minute : ℕ, 1 ≤ month → month ≤ 12 → weekday ≤ 6 →
    hour ≤ 23 → minute ≤ 59 → ∃ from_ms ms,
      let dt := globalObject.msToGregorianDateTimeUTC from_ms
      globalObject.gregorianDateTimeToMSUTC dt.year dt.month dt.day dt.hour (dt.minute + 1) 0 0 =
          some ms
        ∧ (globalObject.msToGregorianDateTimeUTC ms).month = month
        ∧ (globalObject.msToGregorianDateTimeUTC ms).weekday = weekday
        ∧ (globalObject.msToGregorianDateTimeUTC ms).hour = hour
        ∧ (globalObject.msToGregorianDateTimeUTC ms).minute = minute

/-- A day of the Gregorian calendar. -/
structure Date where
  year : ℕ
  month : ℕ
  day : ℕ
  weekday : ℕ
deriving DecidableEq

def isLeap (year : ℕ) : Bool := year % 4 = 0 && (year % 100 ≠ 0 || year % 400 = 0)

def monthLength (year month : ℕ) : ℕ :=
  if month = 2 then (if isLeap year then 29 else 28) else if month ∈ [4, 6, 9, 11] then 30 else 31

def yearLength (year : ℕ) : ℕ := if isLeap year then 366 else 365

namespace Date

/-- The day after. -/
def nextDay (date : Date) : Date :=
  let weekday := (date.weekday + 1) % 7
  if date.day < monthLength date.year date.month then
    ⟨date.year, date.month, date.day + 1, weekday⟩
  else if date.month < 12 then ⟨date.year, date.month + 1, 1, weekday⟩
  else ⟨date.year + 1, 1, 1, weekday⟩

/-- The date so many days after the first of January 1970, a Thursday. -/
def ofDays (n : ℕ) : Date := nextDay^[n] ⟨1970, 1, 1, 4⟩

/-- How many days there were since the epoch. -/
def daysBefore (year month : ℕ) : ℕ :=
  ((List.range (year - 1970)).map fun i => yearLength (1970 + i)).sum
    + ((List.range (month - 1)).map fun i => monthLength year (1 + i)).sum

/-- There is such a day. -/
structure Valid (date : Date) : Prop where
  year : 1970 ≤ date.year
  month : 1 ≤ date.month ∧ date.month ≤ 12
  day : 1 ≤ date.day ∧ date.day ≤ monthLength date.year date.month
  weekday : date.weekday ≤ 6

theorem one_le_monthLength (year month : ℕ) : 1 ≤ monthLength year month := by
  unfold monthLength
  split_ifs <;> omega

theorem monthLength_le (year month : ℕ) : monthLength year month ≤ daysIn month := by
  unfold monthLength daysIn
  split_ifs <;> omega

variable (n : ℕ)

theorem ofDays_succ : ofDays (n + 1) = (ofDays n).nextDay :=
  Function.iterate_succ_apply' ..

theorem Valid.nextDay {date : Date} (h : date.Valid) : date.nextDay.Valid := by
  obtain ⟨hyr, hmn, hday, hwk⟩ := h
  rw [Date.nextDay]
  split_ifs with hd hm
  · exact ⟨hyr, hmn, ⟨by simp, hd⟩, by simp only; omega⟩
  · exact ⟨hyr, ⟨by simp, hm⟩, ⟨le_rfl, one_le_monthLength ..⟩, by simp only; omega⟩
  · exact ⟨by simp only; omega, ⟨le_rfl, by simp⟩, ⟨le_rfl, one_le_monthLength ..⟩,
      by simp only; omega⟩

theorem valid_ofDays : (ofDays n).Valid := by
  induction n with
  | zero => exact ⟨le_rfl, ⟨le_rfl, by decide⟩, ⟨le_rfl, by decide⟩, by decide⟩
  | succ n ih =>
    rw [ofDays_succ]
    exact ih.nextDay

variable {year month : ℕ}

theorem daysBefore_month (h : 1 ≤ month) :
    daysBefore year (month + 1) = daysBefore year month + monthLength year month := by
  obtain ⟨m, rfl⟩ : ∃ m, month = m + 1 := ⟨month - 1, by omega⟩
  simp [daysBefore, range_succ, Nat.add_comm 1 m]
  omega

theorem yearLength_eq (year : ℕ) :
    yearLength year = ((List.range 11).map fun i => monthLength year (1 + i)).sum + 31 := by
  have hrn : List.range 11 = [0, 1, 2, 3, 4, 5, 6, 7, 8, 9, 10] := rfl
  rw [hrn]
  simp only [map_cons, map_nil, sum_cons, sum_nil]
  unfold yearLength monthLength
  cases isLeap year <;> rfl

theorem monthLength_december (year : ℕ) : monthLength year 12 = 31 := rfl

theorem daysBefore_year (h : 1970 ≤ year) :
    daysBefore (year + 1) 1 = daysBefore year 12 + monthLength year 12 := by
  obtain ⟨y, rfl⟩ : ∃ y, year = 1970 + y := ⟨year - 1970, by omega⟩
  have hsc : 1970 + y + 1 - 1970 = y + 1 := by omega
  have hsl : 1970 + y - 1970 = y := Nat.add_sub_cancel_left ..
  have hjn : List.range (1 - 1) = [] := rfl
  have hdc : List.range (12 - 1) = List.range 11 := rfl
  rw [daysBefore, daysBefore, hsc, hsl, range_succ, monthLength_december, hjn,
    hdc]
  simp only [map_append, sum_append, map_cons, map_nil, sum_cons,
    sum_nil]
  rw [yearLength_eq]
  ring

theorem daysBefore_ofDays :
    daysBefore (ofDays n).year (ofDays n).month + (ofDays n).day = n + 1 := by
  induction n with
  | zero => rfl
  | succ n ih =>
    obtain ⟨hyr, hmn, hday, -⟩ := valid_ofDays n
    rw [ofDays_succ, Date.nextDay]
    split_ifs with hd hm
    · simp only
      omega
    · simp only
      rw [daysBefore_month hmn.1]
      omega
    · have htw : (ofDays n).month = 12 := by omega
      simp only
      rw [daysBefore_year hyr, ← htw]
      omega

theorem ofDays_add {n weekday : ℕ} (h : ofDays n = ⟨year, month, 1, weekday⟩) {i : ℕ}
    (hi : i < monthLength year month) :
    ofDays (n + i) = ⟨year, month, 1 + i, (weekday + i) % 7⟩ := by
  induction i with
  | zero =>
    have hwk := (valid_ofDays n).weekday
    rw [h] at hwk
    simp only at hwk
    rw [Nat.add_zero, h, Nat.add_zero, Nat.add_zero, Nat.mod_eq_of_lt (by omega)]
  | succ i ih =>
    rw [← Nat.add_assoc, ofDays_succ, ih (by omega), Date.nextDay, if_pos (by simp only; omega)]
    simp only [Date.mk.injEq, true_and]
    omega

theorem ofDays_first : ∀ month < 13, 1 ≤ month → ∃ n < 1066, 730 ≤ n ∧ ∃ weekday,
    ofDays n = ⟨1972, month, 1, weekday⟩ := by
  have hfr : ∀ month < 13, 1 ≤ month →
      let n := [730, 761, 790, 821, 851, 882, 912, 943, 974, 1004, 1035, 1065].getD (month - 1) 0
      n < 1066 ∧ 730 ≤ n ∧ ofDays n = ⟨1972, month, 1, (ofDays n).weekday⟩ := by
    decide +kernel
  intro month hlt hpos
  obtain ⟨hn, hn', hdt⟩ := hfr month hlt hpos
  exact ⟨_, hn, hn', _, hdt⟩

theorem exists_day {day : ℕ} (hm : 1 ≤ month) (hm' : month ≤ 12) (hd : 1 ≤ day)
    (hd' : day ≤ daysIn month) :
    ∃ n, 730 ≤ n ∧ (ofDays n).month = month ∧ (ofDays n).day = day := by
  obtain ⟨n, -, hn, weekday, hdt⟩ := ofDays_first month (by omega) hm
  have hlength : monthLength 1972 month = daysIn month := rfl
  have hadd := ofDays_add hdt (i := day - 1) (by omega)
  refine ⟨n + (day - 1), by omega, ?_, ?_⟩
  · rw [hadd]
  · rw [hadd]
    simp only
    omega

theorem exists_weekday {weekday : ℕ} (hm : 1 ≤ month) (hm' : month ≤ 12)
    (hw : weekday ≤ 6) :
    ∃ n, 730 ≤ n ∧ (ofDays n).month = month ∧ (ofDays n).weekday = weekday := by
  obtain ⟨n, -, hn, first, hdt⟩ := ofDays_first month (by omega) hm
  have hlength : 7 ≤ monthLength 1972 month := by
    unfold monthLength
    split_ifs <;> simp_all [isLeap]
  have hfr := (valid_ofDays n).weekday
  rw [hdt] at hfr
  simp only at hfr
  have hadd := ofDays_add hdt (i := (weekday + 7 - first) % 7) (by omega)
  refine ⟨n + (weekday + 7 - first) % 7, by omega, ?_, ?_⟩
  · rw [hadd]
  · rw [hadd]
    simp only
    omega

end Date

/-- Instants from 1970 on. A month after December is one of the next year. -/
def utc : JSGlobalObject ℕ where
  msToGregorianDateTimeUTC ms :=
    let date := Date.ofDays (ms / 86400000)
    { year := date.year, month := date.month, day := date.day
      hour := ↑(ms / 3600000 % 24), minute := ↑(ms / 60000 % 60), second := ↑(ms / 1000 % 60)
      weekday := date.weekday }
  gregorianDateTimeToMSUTC year month day hour minute second millisecond :=
    let days : ℤ := ↑(Date.daysBefore (year.toNat + (month.toNat - 1) / 12)
      ((month.toNat - 1) % 12 + 1)) + day - 1
    some (((days * 24 + hour) * 60 + minute) * 60000 + second * 1000 + millisecond).toNat

theorem utc_toMS (ms : ℕ) (minute : ℤ) :
    let dt := utc.msToGregorianDateTimeUTC ms
    utc.gregorianDateTimeToMSUTC dt.year dt.month dt.day dt.hour minute 0 0 =
      some ((((ms / 3600000 : ℕ) : ℤ) * 60 + minute) * 60000).toNat := by
  obtain ⟨hyr, hmn, hday, -⟩ := Date.valid_ofDays (ms / 86400000)
  have hcn := Date.daysBefore_ofDays (ms / 86400000)
  simp only [utc, Int.toNat_natCast]
  have hyr' : (Date.ofDays (ms / 86400000)).year
      + ((Date.ofDays (ms / 86400000)).month - 1) / 12 =
      (Date.ofDays (ms / 86400000)).year := by omega
  have hmn' : ((Date.ofDays (ms / 86400000)).month - 1) % 12 + 1 =
      (Date.ofDays (ms / 86400000)).month := by omega
  rw [hyr', hmn']
  generalize Date.daysBefore _ _ = before at *
  congr 2
  have hhr : ms / 3600000 = ms / 86400000 * 24 + ms / 3600000 % 24 := by omega
  have hdy : (before : ℤ) + ((Date.ofDays (ms / 86400000)).day : ℤ) - 1 =
      ((ms / 86400000 : ℕ) : ℤ) := by omega
  rw [hdy]
  omega

theorem utc_fields {ms n t : ℕ} (h : ms = n * 86400000 + t) (ht : t < 86400000) :
    utc.msToGregorianDateTimeUTC ms =
      { year := (Date.ofDays n).year, month := (Date.ofDays n).month, day := (Date.ofDays n).day
        hour := ↑(t / 3600000), minute := ↑(t / 60000 % 60), second := ↑(t / 1000 % 60)
        weekday := (Date.ofDays n).weekday } := by
  have hn : ms / 86400000 = n := by omega
  have hhr : ms / 3600000 % 24 = t / 3600000 := by omega
  have hmn : ms / 60000 % 60 = t / 60000 % 60 := by omega
  have hsc : ms / 1000 % 60 = t / 1000 % 60 := by omega
  simp only [utc, hn, hhr, hmn, hsc]

theorem utc_reaches {n hour minute : ℕ} (hn : 730 ≤ n) (hhr : hour ≤ 23) (hmn : minute ≤ 59) :
    ∃ from_ms ms, let dt := utc.msToGregorianDateTimeUTC from_ms
      utc.gregorianDateTimeToMSUTC dt.year dt.month dt.day dt.hour (dt.minute + 1) 0 0 = some ms
        ∧ (utc.msToGregorianDateTimeUTC ms).month = (Date.ofDays n).month
        ∧ (utc.msToGregorianDateTimeUTC ms).day = (Date.ofDays n).day
        ∧ (utc.msToGregorianDateTimeUTC ms).weekday = (Date.ofDays n).weekday
        ∧ (utc.msToGregorianDateTimeUTC ms).hour = hour
        ∧ (utc.msToGregorianDateTimeUTC ms).minute = minute := by
  have hfl := utc_fields (n := n) (t := hour * 3600000 + minute * 60000) rfl (by omega)
  refine ⟨n * 86400000 + (hour * 3600000 + minute * 60000) - 60000,
    n * 86400000 + (hour * 3600000 + minute * 60000), ?_, ?_, ?_, ?_, ?_, ?_⟩
  · rw [utc_toMS, Option.some.injEq]
    simp only [utc]
    omega
  · rw [hfl]
  · rw [hfl]
  · rw [hfl]
  · rw [hfl]
    simp only
    omega
  · rw [hfl]
    simp only
    omega

/-- UTC is a zone as the search relies on it. -/
theorem lawful_utc : utc.Lawful where
  month ms := by
    have := (Date.valid_ofDays (ms / 86400000)).month
    simp only [utc]
    omega
  day ms := by
    have := (Date.valid_ofDays (ms / 86400000)).day
    have := Date.monthLength_le (Date.ofDays (ms / 86400000)).year
      (Date.ofDays (ms / 86400000)).month
    simp only [utc, Int.toNat_natCast]
    omega
  weekday ms := by
    have := (Date.valid_ofDays (ms / 86400000)).weekday
    simp only [utc]
    omega
  cut ms := by
    refine ⟨_, utc_toMS ms _, ?_⟩
    have hms : (((ms / 3600000 : ℕ) : ℤ) * 60 + (utc.msToGregorianDateTimeUTC ms).minute) * 60000 =
        ((ms / 86400000 * 86400000 + ms % 86400000 / 60000 * 60000 : ℕ) : ℤ) := by
      simp only [utc]
      omega
    rw [hms, Int.toNat_natCast, utc_fields rfl (by omega)]
    simp only [utc, GregorianDateTime.mk.injEq, true_and, and_true]
    omega
  reaches month day hour minute hm hm' hd hd' hh hmin := by
    obtain ⟨n, hn, hmn, hday⟩ := Date.exists_day hm hm' hd hd'
    obtain ⟨from_ms, ms, hms, hmn', hday', -, hrs⟩ := utc_reaches hn hh hmin
    exact ⟨from_ms, ms, hms, by rw [hmn', hmn], by rw [hday', hday], hrs⟩
  reaches_weekday month weekday hour minute hm hm' hw hh hmin := by
    obtain ⟨n, hn, hmn, hwk⟩ := Date.exists_weekday hm hm' hw
    obtain ⟨from_ms, ms, hms, hmn', -, hwk', hrs⟩ := utc_reaches hn hh hmin
    exact ⟨from_ms, ms, hms, by rw [hmn', hmn], by rw [hwk', hwk], hrs⟩

end Cruller.Cron
