import Cruller.Cron.NextInstant

/-!
# The earliest instant at which an expression fires

Each round of the search goes on from the first minute of the next month, of the next day or of the
next hour, or from the next minute. The minutes that it leaves out share with the one it leaves
the field that does not match.
-/

namespace Cruller.Cron

open List

def isLeapYear (year : ℤ) : Bool := year % 4 = 0 && (year % 100 ≠ 0 || year % 400 = 0)

def lengthOfMonth (year : ℤ) (month : ℕ) : ℤ :=
  if month = 2 then (if isLeapYear year then 29 else 28)
  else if month ∈ [4, 6, 9, 11] then 30 else 31

/-- The days from the first of January 1970 to the first of January of a year. -/
def dayFromYear (year : ℤ) : ℤ :=
  365 * (year - 1970) + (year - 1969) / 4 - (year - 1901) / 100 + (year - 1601) / 400

/-- The days to the first of a month; a thirteenth month is the next January. -/
def dayFromMonth (year : ℤ) (month : ℕ) : ℤ :=
  dayFromYear year + ((List.range (month - 1)).map fun i => lengthOfMonth year (1 + i)).sum

theorem lengthOfMonth_pos (year : ℤ) (month : ℕ) : 28 ≤ lengthOfMonth year month := by
  unfold lengthOfMonth
  split_ifs <;> omega

theorem lengthOfMonth_natCast (year month : ℕ) :
    lengthOfMonth year month = monthLength year month := by
  have hlp : isLeapYear year = isLeap year := by
    simp only [isLeapYear, isLeap]
    norm_cast
  unfold lengthOfMonth monthLength
  rw [hlp]
  split_ifs <;> rfl

theorem dayFromMonth_one (year : ℤ) : dayFromMonth year 1 = dayFromYear year := by
  simp [dayFromMonth]

theorem dayFromMonth_succ (year : ℤ) {month : ℕ} (h : 1 ≤ month) :
    dayFromMonth year (month + 1) = dayFromMonth year month + lengthOfMonth year month := by
  obtain ⟨m, rfl⟩ : ∃ m, month = m + 1 := ⟨month - 1, by omega⟩
  simp [dayFromMonth, range_succ, Nat.add_comm 1 m]
  omega

theorem dayFromYear_succ (year : ℤ) :
    dayFromYear (year + 1) = dayFromYear year + if isLeapYear year then 366 else 365 := by
  have hlp : isLeapYear year = true ↔ year % 4 = 0 ∧ (year % 100 ≠ 0 ∨ year % 400 = 0) := by
    simp [isLeapYear]
  unfold dayFromYear
  split_ifs with h
  · rw [hlp] at h
    omega
  · rw [hlp] at h
    omega

theorem dayFromMonth_thirteen (year : ℤ) : dayFromMonth year 13 = dayFromYear (year + 1) := by
  have hrn : List.range (13 - 1) = [0, 1, 2, 3, 4, 5, 6, 7, 8, 9, 10, 11] := rfl
  rw [dayFromYear_succ, dayFromMonth, hrn]
  simp only [map_cons, map_nil, sum_cons, sum_nil]
  unfold lengthOfMonth
  cases isLeapYear year <;> rfl

variable {t year : ℤ}

theorem dayFromYear_mono {year' : ℤ} (h : year ≤ year') :
    dayFromYear year ≤ dayFromYear year' := by
  unfold dayFromYear
  omega

theorem dayFromMonth_mono (year : ℤ) (month month' : ℕ) (h : 1 ≤ month) (hle : month ≤ month') :
    dayFromMonth year month ≤ dayFromMonth year month' := by
  induction month', hle using Nat.le_induction with
  | base => exact le_rfl
  | succ m hm ih =>
    have := lengthOfMonth_pos year m
    rw [dayFromMonth_succ year (by omega)]
    omega

theorem dayFromMonth_period (year k : ℤ) (month : ℕ) :
    dayFromMonth (year + 400 * k) month = dayFromMonth year month + 146097 * k := by
  have hlp : isLeapYear (year + 400 * k) = isLeapYear year := by
    have h4 : (year + 400 * k) % 4 = year % 4 := by omega
    have h100 : (year + 400 * k) % 100 = year % 100 := by omega
    have h400 : (year + 400 * k) % 400 = year % 400 := by omega
    simp only [isLeapYear, h4, h100, h400]
  have hyr : dayFromYear (year + 400 * k) = dayFromYear year + 146097 * k := by
    unfold dayFromYear
    omega
  have hlength : lengthOfMonth (year + 400 * k) = lengthOfMonth year := by
    funext month
    rw [lengthOfMonth, hlp, lengthOfMonth]
  rw [dayFromMonth, hyr, hlength, dayFromMonth]
  ring

theorem dayFromMonth_ofDays (n : ℕ) :
    dayFromMonth (Date.ofDays n).year (Date.ofDays n).month + (Date.ofDays n).day = n + 1 := by
  induction n with
  | zero => rfl
  | succ n ih =>
    obtain ⟨-, hmn, hday, -⟩ := Date.valid_ofDays n
    have hlength := lengthOfMonth_natCast (Date.ofDays n).year (Date.ofDays n).month
    have hsc := dayFromMonth_succ (Date.ofDays n).year hmn.1
    rw [Date.ofDays_succ, Date.nextDay]
    split_ifs with hd hm
    · simp only
      omega
    · simp only
      omega
    · have htw : (Date.ofDays n).month + 1 = 13 := by omega
      rw [htw, dayFromMonth_thirteen] at hsc
      simp only [Nat.cast_add, Nat.cast_one, dayFromMonth_one]
      omega

/-- The date of a minute since the epoch. -/
def dateOf (t : ℤ) : GregorianDateTime :=
  let day := t / 1440
  let date := Date.ofDays (day % 146097).toNat
  { year := date.year + 400 * (day / 146097), month := date.month, day := date.day
    hour := t / 60 % 24, minute := t % 60, second := 0, weekday := date.weekday }

/-- The minute of a date, whose fields may run over into the next larger one. -/
def minuteOf (dt : GregorianDateTime) : ℤ :=
  ((dayFromMonth dt.year dt.month.toNat + dt.day - 1) * 24 + dt.hour) * 60 + dt.minute

theorem day_dateOf (t : ℤ) :
    dayFromMonth (dateOf t).year (dateOf t).month.toNat + (dateOf t).day - 1 = t / 1440 := by
  have hcn := dayFromMonth_ofDays (t / 1440 % 146097).toNat
  simp only [dateOf, Int.toNat_natCast, dayFromMonth_period]
  omega

theorem minuteOf_dateOf (t : ℤ) : minuteOf (dateOf t) = t := by
  rw [minuteOf, day_dateOf]
  simp only [dateOf]
  omega

theorem isDate_dateOf (t : ℤ) : CronExpression.IsDate (dateOf t) := by
  obtain ⟨-, hmn, hday, hwk⟩ := Date.valid_ofDays (t / 1440 % 146097).toNat
  have hlength := Date.monthLength_le (Date.ofDays (t / 1440 % 146097).toNat).year
    (Date.ofDays (t / 1440 % 146097).toNat).month
  constructor <;> simp only [dateOf, Int.toNat_natCast] <;> omega

theorem dateOf_lt (t : ℤ) :
    t / 1440 < dayFromMonth (dateOf t).year ((dateOf t).month.toNat + 1) := by
  obtain ⟨-, hmn, hday, -⟩ := Date.valid_ofDays (t / 1440 % 146097).toNat
  have hlength := lengthOfMonth_natCast (Date.ofDays (t / 1440 % 146097).toNat).year
    (Date.ofDays (t / 1440 % 146097).toNat).month
  have hcn := dayFromMonth_ofDays (t / 1440 % 146097).toNat
  simp only [dateOf, Int.toNat_natCast, dayFromMonth_period]
  rw [dayFromMonth_succ _ hmn.1]
  omega

theorem le_dateOf (t : ℤ) :
    dayFromMonth (dateOf t).year (dateOf t).month.toNat ≤ t / 1440 := by
  have hday := (isDate_dateOf t).day
  have := day_dateOf t
  omega

theorem dateOf_lt_year (t : ℤ) : t / 1440 < dayFromYear ((dateOf t).year + 1) := by
  have hmt := (isDate_dateOf t).month
  have hmn := dayFromMonth_mono (dateOf t).year ((dateOf t).month.toNat + 1) 13 (by omega)
    (by omega)
  have := dateOf_lt t
  rw [dayFromMonth_thirteen] at hmn
  omega

theorem le_dateOf_year (t : ℤ) : dayFromYear (dateOf t).year ≤ t / 1440 := by
  have hmt := (isDate_dateOf t).month
  have hmn := dayFromMonth_mono (dateOf t).year 1 (dateOf t).month.toNat le_rfl (by omega)
  have := le_dateOf t
  rw [dayFromMonth_one] at hmn
  omega

theorem year_dateOf_lt (h : t / 1440 < dayFromYear year) : (dateOf t).year < year := by
  by_contra hnot
  have := dayFromYear_mono (not_lt.1 hnot)
  have := le_dateOf_year t
  omega

theorem le_year_dateOf (h : dayFromYear year ≤ t / 1440) :
    year ≤ (dateOf t).year := by
  by_contra hnot
  have := dayFromYear_mono (show (dateOf t).year + 1 ≤ year by omega)
  have := dateOf_lt_year t
  omega

theorem month_dateOf_lt {month : ℕ} (hyr : (dateOf t).year = year)
    (hmn : 1 ≤ month) (h : t / 1440 < dayFromMonth year month) :
    (dateOf t).month.toNat < month := by
  by_contra hnot
  have := dayFromMonth_mono year _ _ hmn (not_lt.1 hnot)
  have := le_dateOf t
  rw [hyr] at this
  omega

theorem month_dateOf_eq {t' : ℤ} (hle : t ≤ t')
    (hlt : t' / 1440 < dayFromMonth (dateOf t).year ((dateOf t).month.toNat + 1)) :
    (dateOf t').month = (dateOf t).month := by
  have hmn := (isDate_dateOf t).month
  have hmn' := (isDate_dateOf t').month
  have hday : t / 1440 ≤ t' / 1440 := by omega
  have hend := dayFromMonth_mono (dateOf t).year ((dateOf t).month.toNat + 1) 13 (by omega)
    (by omega)
  rw [dayFromMonth_thirteen] at hend
  have hyr : (dateOf t').year = (dateOf t).year := by
    have hend' : t' / 1440 < dayFromYear ((dateOf t).year + 1) := by omega
    have := year_dateOf_lt hend'
    have := le_year_dateOf ((le_dateOf_year t).trans hday)
    omega
  have hup := month_dateOf_lt hyr (by omega) hlt
  have hlw : (dateOf t).month.toNat ≤ (dateOf t').month.toNat := by
    by_contra hnot
    have := dayFromMonth_mono (dateOf t).year ((dateOf t').month.toNat + 1)
      (dateOf t).month.toNat (by omega) (by omega)
    have := dateOf_lt t'
    have := le_dateOf t
    rw [hyr] at *
    omega
  omega

/-- The conversions are those of the calendar; `value` is the number of milliseconds since 1970. -/
structure JSGlobalObject.Exact {Ms : Type} (globalObject : JSGlobalObject Ms) (value : Ms → ℚ) :
    Prop where
  date : ∀ ms, globalObject.msToGregorianDateTimeUTC ms =
    { dateOf ⌊value ms / 60000⌋ with second := ⌊value ms / 1000⌋ % 60 }
  instant : ∀ dt : GregorianDateTime, 1 ≤ dt.month → dt.month ≤ 13 →
    ∃ ms, globalObject.gregorianDateTimeToMSUTC dt.year dt.month dt.day dt.hour dt.minute dt.second
        0 = some ms
      ∧ value ms = minuteOf dt * 60000 + dt.second * 1000

theorem JSGlobalObject.Exact.date_of_minute {Ms : Type} {globalObject : JSGlobalObject Ms}
    {value : Ms → ℚ} (h : globalObject.Exact value) {ms : Ms} (hms : value ms = t * 60000) :
    globalObject.msToGregorianDateTimeUTC ms = dateOf t := by
  have hmn : ⌊value ms / 60000⌋ = t := by
    rw [hms, mul_div_cancel_right₀ _ (by norm_num), Int.floor_intCast]
  have hsc : ⌊value ms / 1000⌋ = t * 60 := by
    rw [hms, ← Int.floor_intCast (R := ℚ) (t * 60)]
    congr 1
    push_cast
    ring
  rw [h.date, hmn, hsc, Int.mul_emod_left]
  rfl

/-- Every instant of whole milliseconds. -/
def gregorian : JSGlobalObject ℤ where
  msToGregorianDateTimeUTC ms := { dateOf (ms / 60000) with second := ms / 1000 % 60 }
  gregorianDateTimeToMSUTC year month day hour minute second millisecond :=
    some (minuteOf ⟨year, month, day, hour, minute, second, 0⟩ * 60000 + second * 1000
      + millisecond)

theorem exact_gregorian : gregorian.Exact (fun ms => (ms : ℚ)) where
  date ms := by
    have hmn : ⌊(ms : ℚ) / 60000⌋ = ms / 60000 := Rat.floor_intCast_div_natCast ms 60000
    have hsc : ⌊(ms : ℚ) / 1000⌋ = ms / 1000 := Rat.floor_intCast_div_natCast ms 1000
    rw [hmn, hsc, gregorian]
  instant dt _ _ := by
    refine ⟨_, rfl, ?_⟩
    push_cast
    rw [add_zero]
    rfl

namespace CronExpression

/-- The day is one of the field that is restricted, of either one where both are. -/
def DayFires (self : CronExpression) (dt : GregorianDateTime) : Prop :=
  match self.days_is_wildcard, self.weekdays_is_wildcard with
  | true, true => True
  | true, false => self.weekdays.getLsbD dt.weekday.toNat = true
  | false, true => self.days.getLsbD dt.day.toNat = true
  | false, false => self.days.getLsbD dt.day.toNat = true
      ∨ self.weekdays.getLsbD dt.weekday.toNat = true

/-- The expression fires at this date. -/
structure Fires (expr : CronExpression) (dt : GregorianDateTime) : Prop where
  month : expr.months.getLsbD dt.month.toNat = true
  day : expr.DayFires dt
  hour : expr.hours.getLsbD dt.hour.toNat = true
  minute : expr.minutes.getLsbD dt.minute.toNat = true

/-- The earliest minute after `from_ms` at which the expression fires; none does within eight years
where there is no answer. -/
def Earliest {Ms : Type} (self : CronExpression) (value : Ms → ℚ) (from_ms : Ms) :
    Except Stop (Option Ms) → Prop
  | .ok (some ms) => ∃ t : ℤ, value ms = t * 60000 ∧ value from_ms < t * 60000
      ∧ self.Fires (dateOf t)
      ∧ ∀ t' : ℤ, value from_ms < t' * 60000 → t' < t → ¬ self.Fires (dateOf t')
  | .ok none => ∀ t : ℤ, value from_ms < t * 60000 →
      (dateOf t).year ≤ (dateOf ⌊value from_ms / 60000⌋).year + 8 → ¬ self.Fires (dateOf t)
  | .error _ => False

variable {Ms : Type} {self : CronExpression} {globalObject : JSGlobalObject Ms} {value : Ms → ℚ}

variable {dt : GregorianDateTime} {t₀ t : ℤ}

theorem dayMatch_dayFires (h : self.Valid) (hdt : IsDate dt) :
    ∃ ok, self.dayMatch dt = .ok ok ∧ (ok = true ↔ self.DayFires dt) := by
  have hday := hdt.day
  have hlt := hdt.day_lt
  have hwk := hdt.weekday
  refine ⟨_, dayMatch_eq self hdt, ?_⟩
  have hdy : self.days_is_wildcard = true → self.days.getLsbD dt.day.toNat = true := fun hd =>
    h.days_full hd _ (by omega) (by omega)
  have hwd : self.weekdays_is_wildcard = true →
      self.weekdays.getLsbD dt.weekday.toNat = true := fun hw =>
    h.weekdays_full hw _ (by omega) (by omega)
  unfold DayFires
  cases hd : self.days_is_wildcard <;> cases hw : self.weekdays_is_wildcard <;>
    simp_all

/-- The search goes on from `dt`, and has left out no minute after `t₀` at which the expression
fires. -/
structure Reached (expr : CronExpression) (t₀ : ℤ) (dt : GregorianDateTime) : Prop where
  month : 1 ≤ dt.month ∧ dt.month ≤ 13
  second : dt.second = 0
  year : dayFromYear dt.year * 1440 ≤ minuteOf dt
  later : t₀ < minuteOf dt
  skipped : ∀ t, t₀ < t → t < minuteOf dt → ¬ expr.Fires (dateOf t)

/-- What a round that does not end the search leaves. -/
structure Onward (expr : CronExpression) (t : ℤ) (dt : GregorianDateTime) : Prop where
  month : 1 ≤ dt.month ∧ dt.month ≤ 13
  second : dt.second = 0
  year : dt.year = (dateOf t).year
  later : t < minuteOf dt
  skipped : ∀ t', t ≤ t' → t' < minuteOf dt → ¬ expr.Fires (dateOf t')

theorem Reached.onward {dt' : GregorianDateTime} (h : self.Reached t₀ dt)
    (h' : self.Onward (minuteOf dt) dt') : self.Reached t₀ dt' where
  month := h'.month
  second := h'.second
  year := by
    have := le_dateOf_year (minuteOf dt)
    have := h'.later
    rw [h'.year]
    omega
  later := h.later.trans h'.later
  skipped t ht hlt := by
    by_cases hle : minuteOf dt ≤ t
    · exact h'.skipped t hle hlt
    · exact h.skipped t ht (not_le.1 hle)

theorem onward_month (h : self.months.getLsbD (dateOf t).month.toNat = false) :
    self.Onward t
      { dateOf t with month := (dateOf t).month + 1, day := 1, hour := 0, minute := 0 } := by
  have hmn := (isDate_dateOf t).month
  have hnx : ((dateOf t).month + 1).toNat = (dateOf t).month.toNat + 1 := by omega
  have hlt := dateOf_lt t
  refine ⟨by simp only; omega, rfl, rfl, ?_, ?_⟩
  · simp only [minuteOf, hnx]
    omega
  · intro t' hle hlt' hfr
    simp only [minuteOf, hnx] at hlt'
    have heq := month_dateOf_eq hle (by omega)
    rw [← heq, hfr.month] at h
    cases h

theorem onward_day (h : ¬ self.DayFires (dateOf t)) :
    self.Onward t { dateOf t with day := (dateOf t).day + 1, hour := 0, minute := 0 } := by
  have hmn := (isDate_dateOf t).month
  have hday := day_dateOf t
  refine ⟨by simp only; omega, rfl, rfl, ?_, ?_⟩
  · simp only [minuteOf]
    omega
  · intro t' hle hlt hfr
    simp only [minuteOf] at hlt
    have hsm : t' / 1440 = t / 1440 := by omega
    have hfr' := hfr.day
    simp only [DayFires, dateOf, hsm] at hfr' h
    exact h hfr'

theorem onward_hour (h : self.hours.getLsbD (dateOf t).hour.toNat = false) :
    self.Onward t { dateOf t with hour := (dateOf t).hour + 1, minute := 0 } := by
  have hmn := (isDate_dateOf t).month
  have hday := day_dateOf t
  have hhr : (dateOf t).hour = t / 60 % 24 := rfl
  refine ⟨by simp only; omega, rfl, rfl, ?_, ?_⟩
  · simp only [minuteOf]
    omega
  · intro t' hle hlt hfr
    simp only [minuteOf] at hlt
    have hsm : (dateOf t').hour = (dateOf t).hour := by
      have : (dateOf t').hour = t' / 60 % 24 := rfl
      omega
    rw [← hsm, hfr.hour] at h
    cases h

theorem onward_minute (h : self.minutes.getLsbD (dateOf t).minute.toNat = false) :
    self.Onward t { dateOf t with minute := (dateOf t).minute + 1 } := by
  have hmn := (isDate_dateOf t).month
  have hmt : minuteOf { dateOf t with minute := (dateOf t).minute + 1 } = t + 1 := by
    have := minuteOf_dateOf t
    simp only [minuteOf] at this ⊢
    omega
  refine ⟨by simp only; omega, rfl, rfl, by omega, ?_⟩
  intro t' hle hlt hfr
  have hsm : t' = t := by omega
  rw [← hsm, hfr.minute] at h
  cases h

/-- A round ends at a minute at which the expression fires, or leaves out only minutes at which it
does not. -/
theorem advance_dateOf (h : self.Valid) (t : ℤ) :
    self.advance (dateOf t) = .ok none ∧ self.Fires (dateOf t) ∨
      ∃ dt, self.advance (dateOf t) = .ok (some dt) ∧ self.Onward t dt := by
  have hdt := isDate_dateOf t
  have hmn := hdt.month
  have hhr : (dateOf t).hour = t / 60 % 24 := rfl
  have hmt : (dateOf t).minute = t % 60 := rfl
  obtain ⟨ok, hok, hday⟩ := dayMatch_dayFires h hdt
  unfold advance
  rw [bitSet_eq (by omega) (by push_cast; omega), hok, bitSet_eq (by omega) (by push_cast; omega),
    bitSet_eq (by omega) (by push_cast; omega)]
  cases hM : self.months.getLsbD (dateOf t).month.toNat with
  | false => exact Or.inr ⟨_, rfl, onward_month hM⟩
  | true =>
  cases ok with
  | false => exact Or.inr ⟨_, rfl, onward_day (by simpa using hday)⟩
  | true =>
  cases hH : self.hours.getLsbD (dateOf t).hour.toNat with
  | false => exact Or.inr ⟨_, rfl, onward_hour hH⟩
  | true =>
  cases hm : self.minutes.getLsbD (dateOf t).minute.toNat with
  | false => exact Or.inr ⟨_, rfl, onward_minute hm⟩
  | true => exact Or.inl ⟨rfl, hM, hday.1 rfl, hH, hm⟩

theorem nextLoop_round (h : self.Valid) (hec : globalObject.Exact value) {start_year : ℤ}
    (hdt : self.Reached t₀ dt)
    (hyr : dt.year - start_year ≤ 8) :
    (∃ ms, value ms = minuteOf dt * 60000 ∧ self.Fires (dateOf (minuteOf dt))
        ∧ ∀ fuel, self.nextLoop globalObject start_year (fuel + 1) dt = some (.ok (some ms))) ∨
      ∃ dt', self.Reached t₀ dt' ∧ minuteOf dt < minuteOf dt'
        ∧ dt'.year = (dateOf (minuteOf dt)).year
        ∧ ∀ fuel, self.nextLoop globalObject start_year (fuel + 1) dt =
          self.nextLoop globalObject start_year fuel dt' := by
  obtain ⟨ms, hms, hvl⟩ := hec.instant dt hdt.month.1 hdt.month.2
  rw [hdt.second, Int.cast_zero, zero_mul, add_zero] at hvl
  have hda := hec.date_of_minute hvl
  rcases advance_dateOf h (minuteOf dt) with ⟨had, hfr⟩ | ⟨dt', had, hon⟩
  · have hmn := (isDate_dateOf (minuteOf dt)).month
    obtain ⟨ms', hms', hvl'⟩ := hec.instant (dateOf (minuteOf dt)) hmn.1 (by omega)
    have hsc : (dateOf (minuteOf dt)).second = 0 := rfl
    rw [minuteOf_dateOf, hsc, Int.cast_zero, zero_mul, add_zero] at hvl'
    rw [hsc] at hms'
    refine Or.inl ⟨ms', hvl', hfr, fun fuel => ?_⟩
    rw [nextLoop, if_pos hyr, hms]
    simp only [hda, had, hms']
  · refine Or.inr ⟨dt', hdt.onward hon, hon.later, hon.year, fun fuel => ?_⟩
    rw [nextLoop, if_pos hyr, hms]
    simp only [hda, had]

theorem Reached.year_lt (h : self.Reached t₀ dt)
    (ht : (dateOf t).year < dt.year) : t < minuteOf dt := by
  have hyr := h.year
  have := dayFromYear_mono (show (dateOf t).year + 1 ≤ dt.year by omega)
  have := dateOf_lt_year t
  omega

theorem earliest_of_nextLoop (h : self.Valid) (hec : globalObject.Exact value) {from_ms : Ms}
    (ht₀ : ∀ t : ℤ, value from_ms < t * 60000 ↔ t₀ < t)
    (hfr : ⌊value from_ms / 60000⌋ = t₀) {fuel : ℕ}
    (hdt : self.Reached t₀ dt) {r : Except Stop (Option Ms)}
    (hr : self.nextLoop globalObject (dateOf t₀).year fuel dt = some r) :
    self.Earliest value from_ms r := by
  induction fuel generalizing dt with
  | zero => cases hr
  | succ fuel ih =>
    by_cases hyr : dt.year - (dateOf t₀).year ≤ 8
    · rcases nextLoop_round h hec hdt hyr with
        ⟨ms, hvl, hfs, hrn⟩ | ⟨dt', hdt', -, -, hrn⟩
      · rw [hrn] at hr
        cases hr
        refine ⟨_, hvl, (ht₀ _).2 hdt.later, hfs, fun t ht hlt => ?_⟩
        exact hdt.skipped t ((ht₀ t).1 ht) hlt
      · rw [hrn] at hr
        exact ih hdt' hr
    · rw [nextLoop, if_neg hyr] at hr
      cases hr
      intro t ht hle
      rw [hfr] at hle
      exact hdt.skipped t ((ht₀ t).1 ht) (hdt.year_lt (by omega))

theorem nextLoop_returns (h : self.Valid) (hec : globalObject.Exact value) (start_year : ℤ)
    (n : ℕ) (hdt : self.Reached t₀ dt)
    (hn : dayFromYear (start_year + 9) * 1440 - minuteOf dt ≤ n) :
    ∃ r, self.nextLoop globalObject start_year (n + 2) dt = some r := by
  induction n generalizing dt with
  | zero =>
    by_cases hyr : dt.year - start_year ≤ 8
    · rcases nextLoop_round h hec hdt hyr with
        ⟨ms, -, -, hrn⟩ | ⟨dt', -, -, hyr', hrn⟩
      · exact ⟨_, hrn 1⟩
      · have hend := le_year_dateOf
          (show dayFromYear (start_year + 9) ≤ minuteOf dt / 1440 by omega)
        refine ⟨.ok none, ?_⟩
        rw [hrn, nextLoop, if_neg (by omega)]
    · exact ⟨.ok none, by rw [nextLoop, if_neg hyr]⟩
  | succ n ih =>
    by_cases hyr : dt.year - start_year ≤ 8
    · rcases nextLoop_round h hec hdt hyr with
        ⟨ms, -, -, hrn⟩ | ⟨dt', hdt', hlt, -, hrn⟩
      · exact ⟨_, hrn _⟩
      · obtain ⟨r, hr⟩ := ih hdt' (by omega)
        exact ⟨r, by rw [hrn, hr]⟩
    · exact ⟨.ok none, by rw [nextLoop, if_neg hyr]⟩

/-- The first date that the search looks at. -/
def firstDate (t₀ : ℤ) : GregorianDateTime :=
  { dateOf t₀ with minute := (dateOf t₀).minute + 1, second := 0 }

theorem reached_firstDate (self : CronExpression) (t₀ : ℤ) : self.Reached t₀ (firstDate t₀) := by
  have hmt := (isDate_dateOf t₀).month
  have hyr := le_dateOf_year t₀
  have hmn : minuteOf (firstDate t₀) = t₀ + 1 := by
    have := minuteOf_dateOf t₀
    simp only [minuteOf, firstDate] at this ⊢
    omega
  refine ⟨by simp only [firstDate]; omega, rfl, ?_, by omega, ?_⟩
  · rw [hmn]
    simp only [firstDate]
    omega
  · intro t ht hlt
    omega

/-- A call returns, and what it returns is the earliest minute after `from_ms` at which the
expression fires; it is `null` only when there is none within eight years. -/
theorem returns_earliest (hexact : globalObject.Exact value) {input : Bytes}
    (h : parse input = .ok self) (from_ms : Ms) :
    (∃ r, self.Returns globalObject from_ms r) ∧
      ∀ r, self.Returns globalObject from_ms r → self.Earliest value from_ms r := by
  have hvalid := parse_valid h
  have ht₀ : ∀ t : ℤ, value from_ms < t * 60000 ↔ ⌊value from_ms / 60000⌋ < t := by
    intro t
    rw [Int.floor_lt, div_lt_iff₀ (by norm_num)]
  have hstart := reached_firstDate self ⌊value from_ms / 60000⌋
  have hnext : ∀ fuel, self.next globalObject fuel from_ms = self.nextLoop globalObject
      (dateOf ⌊value from_ms / 60000⌋).year fuel (firstDate ⌊value from_ms / 60000⌋) := by
    intro fuel
    rw [next, hexact.date from_ms]
    rfl
  constructor
  · obtain ⟨r, hr⟩ := nextLoop_returns hvalid hexact
      (dateOf ⌊value from_ms / 60000⌋).year _ hstart (Int.self_le_toNat _)
    exact ⟨r, _, (hnext _).trans hr⟩
  · rintro r ⟨fuel, hr⟩
    exact earliest_of_nextLoop hvalid hexact ht₀ rfl hstart ((hnext fuel).symm.trans hr)

/-- From the first instant of 1970. -/
theorem returns_earliest_thirteenthOrFriday :
    (∃ r, thirteenthOrFriday.Returns gregorian 0 r) ∧
      ∀ r, thirteenthOrFriday.Returns gregorian 0 r →
        thirteenthOrFriday.Earliest (fun ms : ℤ => (ms : ℚ)) 0 r := by
  have hparse : parse (bytesOf "0 0 13 * Fri") = .ok thirteenthOrFriday := by decide +kernel
  exact returns_earliest exact_gregorian hparse 0

/-- What `computeNextTimespec` of a job sets, one call after another, as the clock reads `nows`. -/
inductive Scheduled [LinearOrder Ms] (self : CronExpression) (globalObject : JSGlobalObject Ms) :
    Ms → List Ms → List Ms → Prop
  | nil (last_next_ms : Ms) : Scheduled self globalObject last_next_ms [] []
  | cons {last_next_ms now_ms next_ms : Ms} {nows nexts : List Ms}
      (returns : self.Returns globalObject (max now_ms last_next_ms) (.ok (some next_ms)))
      (later : Scheduled self globalObject next_ms nows nexts) :
      Scheduled self globalObject last_next_ms (now_ms :: nows) (next_ms :: nexts)

/-- A job fires at minutes that come one after the other, each once; between them it misses only
what the clock has already passed. -/
theorem scheduled_once [LinearOrder Ms] (hexact : globalObject.Exact value) (hmono : Monotone value)
    {input : Bytes} (h : parse input = .ok self) {last : Ms} {nows nexts : List Ms}
    (hs : self.Scheduled globalObject last nows nexts) :
    (last :: nexts).Pairwise (value · < value ·)
    ∧ (∀ ms ∈ nexts, ∃ t : ℤ, value ms = t * 60000 ∧ self.Fires (dateOf t))
    ∧ ∀ t : ℤ, self.Fires (dateOf t) → value last < t * 60000 →
      (∃ ms ∈ nexts, t * 60000 ≤ value ms) →
        (∃ ms ∈ nexts, value ms = t * 60000) ∨ ∃ now ∈ nows, t * 60000 ≤ value now := by
  induction hs with
  | nil => simp
  | @cons last now ms nows nexts hret hs ih =>
    obtain ⟨hpw, hfires, hmissed⟩ := ih
    obtain ⟨fuel, hr⟩ := hret
    have ht₀ : ∀ t : ℤ, value (max now last) < t * 60000 ↔
        ⌊value (max now last) / 60000⌋ < t := fun t => by
      rw [Int.floor_lt, div_lt_iff₀ (by norm_num)]
    rw [next, hexact.date] at hr
    obtain ⟨t, hvl, hlt, hfire, hmin⟩ := earliest_of_nextLoop (parse_valid h) hexact ht₀ rfl
      (reached_firstDate self _) hr
    have hlast : value last < value ms := (hmono (le_max_right now last)).trans_lt (hvl ▸ hlt)
    refine ⟨List.pairwise_cons.2 ⟨?_, hpw⟩, ?_, ?_⟩
    · rintro ms' (_ | ⟨_, hms'⟩)
      · exact hlast
      · exact hlast.trans ((List.pairwise_cons.1 hpw).1 ms' hms')
    · rintro ms' (_ | ⟨_, hms'⟩)
      · exact ⟨t, hvl, hfire⟩
      · exact hfires ms' hms'
    · rintro t' hf hlt' ⟨ms', hms', hle⟩
      rcases le_or_gt (t' * 60000 : ℚ) (value now) with hnow | hnow
      · exact .inr ⟨now, List.mem_cons_self, hnow⟩
      rcases lt_trichotomy t' t with hbefore | rfl | hafter
      · refine absurd hf (hmin t' ?_ hbefore)
        rcases max_choice now last with heq | heq <;> rwa [heq]
      · exact .inl ⟨ms, List.mem_cons_self, hvl⟩
      · have hms : value ms < t' * 60000 := by
          rw [hvl]
          exact_mod_cast mul_lt_mul_of_pos_right hafter (by norm_num)
        rcases List.mem_cons.1 hms' with rfl | hms'
        · exact absurd hle hms.not_ge
        · rcases hmissed t' hf hms ⟨ms', hms', hle⟩ with ⟨m, hm, he⟩ | ⟨n, hn, he⟩
          · exact .inl ⟨m, .tail _ hm, he⟩
          · exact .inr ⟨n, .tail _ hn, he⟩

/-- The timer fires a millisecond early, and the second of January is not set again. -/
theorem scheduled_once_early :
    [0, 86400000, 691200000].Pairwise fun a b : ℤ => (a : ℚ) < b := by
  have hparse : parse (bytesOf "0 0 13 * Fri") = .ok thirteenthOrFriday := by decide +kernel
  have hs : thirteenthOrFriday.Scheduled gregorian 0 [0, 86399999] [86400000, 691200000] :=
    .cons ⟨4, by decide +kernel⟩ (.cons ⟨100, by decide +kernel⟩ (.nil _))
  exact (scheduled_once exact_gregorian (fun _ _ h => Int.cast_le.2 h) hparse hs).1

end CronExpression

end Cruller.Cron
