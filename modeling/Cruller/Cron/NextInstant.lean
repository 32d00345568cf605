import Cruller.Cron.FormatNumeric
import Cruller.Cron.Calendar

/-!
# When the numeric form fires at the same instants

A day-of-month and a weekday field that are both restricted are alternatives, and a wildcard is
not restricted. So a full field that was not written as a wildcard, next to one that is not full,
lets the expression fire on every day, and its numeric form does not.
-/

namespace Cruller.Cron

theorem bitSet_eq {w : ℕ} {set : BitVec w} {pos : ℤ} (hpos : 0 ≤ pos) (hlt : pos < w) :
    bitSet set pos = .ok (set.getLsbD pos.toNat) :=
  if_pos ⟨hpos, hlt⟩

namespace CronExpression

/-- A full day-of-month field is a wildcard unless the weekday field is full as well; a full
weekday field is one unless the day-of-month field has every day of the expression's months. -/
def Keeps (self : CronExpression) : Prop :=
  (Full self.days 1 31 → self.days_is_wildcard = true ∨ Full self.weekdays 0 6) ∧
    (Full self.weekdays 0 6 → self.weekdays_is_wildcard = true ∨
      ∀ month, self.months.getLsbD month = true → Full self.days 1 (daysIn month))

variable {Ms : Type} {self : CronExpression} {globalObject : JSGlobalObject Ms}

/-- The fields are in their ranges. -/
structure IsDate (dt : GregorianDateTime) : Prop where
  month : 1 ≤ dt.month ∧ dt.month ≤ 12
  day : 1 ≤ dt.day ∧ dt.day ≤ daysIn dt.month.toNat
  weekday : 0 ≤ dt.weekday ∧ dt.weekday ≤ 6

theorem isDate (hg : globalObject.Lawful) (ms : Ms) :
    IsDate (globalObject.msToGregorianDateTimeUTC ms) :=
  ⟨hg.month ms, hg.day ms, hg.weekday ms⟩

variable {dt : GregorianDateTime}

theorem IsDate.day_lt (h : IsDate dt) : dt.day < 32 := by
  have := daysIn_le dt.month.toNat
  have := h.day
  omega

theorem dayMatch_eq (self : CronExpression) (h : IsDate dt) :
    self.dayMatch dt = .ok (if !self.days_is_wildcard && !self.weekdays_is_wildcard then
        self.days.getLsbD dt.day.toNat || self.weekdays.getLsbD dt.weekday.toNat
      else self.days.getLsbD dt.day.toNat && self.weekdays.getLsbD dt.weekday.toNat) := by
  have hday := h.day
  have hwk := h.weekday
  rw [dayMatch, bitSet_eq (by omega) (by exact_mod_cast h.day_lt),
    bitSet_eq (by omega) (by push_cast; omega)]
  rfl

theorem canonical_days_is_wildcard (h : self.Valid) :
    self.canonical.days_is_wildcard = true ↔ Full self.days 1 31 := by
  rw [canonical, decide_eq_true_eq]
  exact popCount_eq_iff h.days (by decide) (by decide)

theorem canonical_weekdays_is_wildcard (h : self.Valid) :
    self.canonical.weekdays_is_wildcard = true ↔ Full self.weekdays 0 6 := by
  rw [canonical, decide_eq_true_eq]
  exact popCount_eq_iff h.weekdays (by decide) (by decide)

/-- Where the wildcards are kept, or do not matter, the same days of the expression's months
match. -/
theorem dayMatch_canonical (h : self.Valid) (hkp : self.Keeps)
    (hdt : IsDate dt) (hmn : self.months.getLsbD dt.month.toNat = true) :
    self.canonical.dayMatch dt = self.dayMatch dt := by
  have hds := canonical_days_is_wildcard h
  have hwd := canonical_weekdays_is_wildcard h
  have hday := hdt.day
  have hwy := hdt.weekday
  rw [dayMatch_eq _ hdt, dayMatch_eq _ hdt,
    show self.canonical.days = self.days from rfl,
    show self.canonical.weekdays = self.weekdays from rfl]
  by_cases hD : Full self.days 1 31
  · rw [hds.2 hD]
    have hdy : self.days.getLsbD dt.day.toNat = true :=
      hD _ (by omega) (by have := daysIn_le dt.month.toNat; omega)
    rcases hkp.1 hD with hd | hW
    · rw [hd]
      rfl
    · have hwk : self.weekdays.getLsbD dt.weekday.toNat = true :=
        hW _ (by omega) (by omega)
      simp [hdy, hwk]
  · have hd : self.days_is_wildcard = false := by
      by_contra hd
      exact hD (h.days_full (by simpa using hd))
    have hd' : self.canonical.days_is_wildcard = false := by
      by_contra hd'
      exact hD (hds.1 (by simpa using hd'))
    rw [hd, hd']
    by_cases hW : Full self.weekdays 0 6
    · rw [hwd.2 hW]
      rcases hkp.2 hW with hw | hall
      · rw [hw]
      · have hdy := hall _ hmn dt.day.toNat (by omega) (by omega)
        have hwk : self.weekdays.getLsbD dt.weekday.toNat = true :=
          hW _ (by omega) (by omega)
        simp [hdy, hwk]
    · have hw : self.weekdays_is_wildcard = false := by
        by_contra hw
        exact hW (h.weekdays_full (by simpa using hw))
      have hw' : self.canonical.weekdays_is_wildcard = false := by
        by_contra hw'
        exact hW (hwd.1 (by simpa using hw'))
      rw [hw, hw']

theorem advance_canonical (h : self.Valid) (hkp : self.Keeps)
    (hdt : IsDate dt) : self.canonical.advance dt = self.advance dt := by
  have hmn := hdt.month
  unfold advance
  rw [show self.canonical.months = self.months from rfl,
    show self.canonical.hours = self.hours from rfl,
    show self.canonical.minutes = self.minutes from rfl,
    bitSet_eq (by omega) (by push_cast; omega)]
  cases hbit : self.months.getLsbD dt.month.toNat with
  | false => rfl
  | true => rw [dayMatch_canonical h hkp hdt hbit]

theorem nextLoop_canonical (h : self.Valid) (hkp : self.Keeps) (hg : globalObject.Lawful)
    (start_year : ℤ) (fuel : ℕ) (dt : GregorianDateTime) :
    self.canonical.nextLoop globalObject start_year fuel dt =
      self.nextLoop globalObject start_year fuel dt := by
  induction fuel generalizing dt with
  | zero => rfl
  | succ fuel ih =>
    simp only [nextLoop, advance_canonical h hkp (isDate hg _), ih]

/-- The search would stop here. -/
structure Matches (expr : CronExpression) (dt : GregorianDateTime) : Prop where
  month : expr.months.getLsbD dt.month.toNat = true
  day : expr.dayMatch dt = .ok true

theorem matches_of_advance (hdt : IsDate dt)
    (h : self.advance dt = .ok none) : self.Matches dt := by
  have hmn := hdt.month
  unfold advance at h
  rw [bitSet_eq (by omega) (by push_cast; omega), dayMatch_eq _ hdt] at h
  constructor
  · by_contra hnot
    simp only [Bool.not_eq_true] at hnot
    rw [hnot] at h
    cases h
  · rw [dayMatch_eq _ hdt]
    congr 1
    by_contra hnot
    simp only [Bool.not_eq_true] at hnot
    rw [hnot] at h
    cases hbit : self.months.getLsbD dt.month.toNat <;> rw [hbit] at h <;> cases h

theorem matches_of_nextLoop (hg : globalObject.Lawful) {start_year : ℤ} {fuel : ℕ}
    {r : Ms}
    (h : self.nextLoop globalObject start_year fuel dt = some (.ok (some r))) :
    self.Matches (globalObject.msToGregorianDateTimeUTC r) := by
  induction fuel generalizing dt with
  | zero => cases h
  | succ fuel ih =>
    rw [nextLoop] at h
    split_ifs at h
    · split at h
      · cases h
      rename_i ms hms
      simp only at h
      split at h
      · cases h
      · exact ih h
      · rename_i had
        obtain ⟨hmn, hday⟩ := matches_of_advance (isDate hg ms) had
        obtain ⟨ms', hcut, hdt⟩ := hg.cut ms
        rw [hcut] at h
        cases h
        rw [hdt]
        exact ⟨hmn, hday⟩
    · cases h

/-- The minute after `from_ms` is returned when it matches. -/
theorem returns_of_matches {from_ms ms : Ms} (hg : globalObject.Lawful)
    (hms : (let dt := globalObject.msToGregorianDateTimeUTC from_ms
      globalObject.gregorianDateTimeToMSUTC dt.year dt.month dt.day dt.hour (dt.minute + 1) 0 0) =
        some ms)
    (had : self.advance (globalObject.msToGregorianDateTimeUTC ms) = .ok none) :
    ∃ r, self.Returns globalObject from_ms (.ok (some r))
      ∧ globalObject.msToGregorianDateTimeUTC r =
        { globalObject.msToGregorianDateTimeUTC ms with second := 0 } := by
  obtain ⟨r, hcut, hdt⟩ := hg.cut ms
  refine ⟨r, ⟨1, ?_⟩, hdt⟩
  rw [next, nextLoop]
  simp only at hms ⊢
  rw [if_pos (by omega), hms]
  simp only [had, hcut]

theorem advance_eq_none (hdt : IsDate dt) {month hour minute : ℕ}
    (hmt : dt.month = month) (hhr : dt.hour = hour) (hmn : dt.minute = minute)
    (hhr' : hour ≤ 23) (hmn' : minute ≤ 59) (hmh : self.months.getLsbD month = true)
    (hday : self.dayMatch dt = .ok true) (hhs : self.hours.getLsbD hour = true)
    (hms : self.minutes.getLsbD minute = true) : self.advance dt = .ok none := by
  have hm := hdt.month
  unfold advance
  rw [bitSet_eq (by omega) (by push_cast; omega), hday, hmt, hhr, hmn,
    bitSet_eq (by omega) (by push_cast; omega), bitSet_eq (by omega) (by push_cast; omega),
    Int.toNat_natCast, Int.toNat_natCast, Int.toNat_natCast, hmh, hhs, hms]
  rfl

/-- The two expressions return the same. -/
def SameInstants (globalObject : JSGlobalObject Ms) (self other : CronExpression) : Prop :=
  ∀ from_ms r, other.Returns globalObject from_ms r ↔ self.Returns globalObject from_ms r

theorem sameInstants_canonical (h : self.Valid) (hkp : self.Keeps)
    (hg : globalObject.Lawful) : SameInstants globalObject self self.canonical := by
  intro from_ms r
  simp only [Returns, next, nextLoop_canonical h hkp hg]

/-- Where both fields are full or restricted without being wildcards, a date matches if one of
them has it. -/
theorem dayMatch_either (hdt : IsDate dt)
    (hd : self.days_is_wildcard = false) (hw : self.weekdays_is_wildcard = false)
    (h : self.days.getLsbD dt.day.toNat = true ∨ self.weekdays.getLsbD dt.weekday.toNat = true) :
    self.dayMatch dt = .ok true := by
  rw [dayMatch_eq _ hdt, hd, hw]
  rcases h with h | h <;> simp [h]

theorem both_of_dayMatch (hdt : IsDate dt)
    (hwl : self.days_is_wildcard = true ∨ self.weekdays_is_wildcard = true)
    (h : self.dayMatch dt = .ok true) :
    self.days.getLsbD dt.day.toNat = true ∧ self.weekdays.getLsbD dt.weekday.toNat = true := by
  rw [dayMatch_eq _ hdt, Except.ok.injEq] at h
  rcases hwl with hwl | hwl <;> simpa [hwl] using h

theorem matches_canonical (hg : globalObject.Lawful)
    (hsm : SameInstants globalObject self self.canonical) {from_ms ms : Ms}
    (hms : (let dt := globalObject.msToGregorianDateTimeUTC from_ms
      globalObject.gregorianDateTimeToMSUTC dt.year dt.month dt.day dt.hour (dt.minute + 1) 0 0) =
        some ms)
    (had : self.advance (globalObject.msToGregorianDateTimeUTC ms) = .ok none) :
    self.canonical.dayMatch (globalObject.msToGregorianDateTimeUTC ms) = .ok true := by
  obtain ⟨r, hr, hdt⟩ := returns_of_matches hg hms had
  obtain ⟨fuel, hfl⟩ := (hsm from_ms (.ok (some r))).2 hr
  have := (matches_of_nextLoop hg hfl).day
  rw [hdt] at this
  exact this

/-- Where a wildcard is lost, some instant tells the two apart. -/
theorem keeps_of_sameInstants (h : self.Valid) (hg : globalObject.Lawful)
    (hsm : SameInstants globalObject self self.canonical) : self.Keeps := by
  obtain ⟨month, hmn⟩ := h.months.nonempty
  obtain ⟨hour, hhr⟩ := h.hours.nonempty
  obtain ⟨minute, hmt⟩ := h.minutes.nonempty
  have hhr' := (h.hours.within hour hhr).2
  have hmt' := (h.minutes.within minute hmt).2
  constructor
  · intro hD
    by_contra hnot
    rw [not_or, Bool.not_eq_true] at hnot
    obtain ⟨hd, hW⟩ := hnot
    have hw : self.weekdays_is_wildcard = false := by
      by_contra hw
      exact hW (h.weekdays_full (by simpa using hw))
    unfold Full at hW
    push Not at hW
    obtain ⟨weekday, -, hwk, hnot⟩ := hW
    obtain ⟨hm, hm'⟩ := h.months.within month hmn
    obtain ⟨from_ms, ms, hms, hmn', hwk', hh, hmin⟩ :=
      hg.reaches_weekday month weekday hour minute hm hm' hwk hhr' hmt'
    have hdt := isDate hg ms
    have hday := hdt.day
    have hlt := hdt.day_lt
    have hmc : self.dayMatch (globalObject.msToGregorianDateTimeUTC ms) = .ok true :=
      dayMatch_either hdt hd hw (Or.inl (hD _ (by omega) (by omega)))
    have hcn := matches_canonical hg hsm hms
      (advance_eq_none hdt hmn' hh hmin hhr' hmt' hmn hmc hhr hmt)
    have hbt := both_of_dayMatch hdt (Or.inl ((canonical_days_is_wildcard h).2 hD)) hcn
    rw [hwk', Int.toNat_natCast] at hbt
    exact hnot hbt.2
  · intro hW
    by_contra hnot
    rw [not_or, Bool.not_eq_true] at hnot
    obtain ⟨hw, hall⟩ := hnot
    unfold Full at hall
    push Not at hall
    obtain ⟨month, hmn, day, hday, hday', hnot⟩ := hall
    have hd : self.days_is_wildcard = false := by
      by_contra hd
      have := daysIn_le month
      exact hnot (h.days_full (by simpa using hd) day hday (by omega))
    obtain ⟨hm, hm'⟩ := h.months.within month hmn
    obtain ⟨from_ms, ms, hms, hmn', hday'', hh, hmin⟩ :=
      hg.reaches month day hour minute hm hm' hday hday' hhr' hmt'
    have hdt := isDate hg ms
    have hwk := hdt.weekday
    have hmc : self.dayMatch (globalObject.msToGregorianDateTimeUTC ms) = .ok true :=
      dayMatch_either hdt hd hw (Or.inr (hW _ (by omega) (by omega)))
    have hcn := matches_canonical hg hsm hms
      (advance_eq_none hdt hmn' hh hmin hhr' hmt' hmn hmc hhr hmt)
    have hbt := both_of_dayMatch hdt (Or.inr ((canonical_weekdays_is_wildcard h).2 hW)) hcn
    rw [hday'', Int.toNat_natCast] at hbt
    exact hnot hbt.1

/-- The numeric form parses, to an expression that fires at the same instants. -/
def RoundTrips (self : CronExpression) (globalObject : JSGlobalObject Ms) : Prop :=
  ∃ text other, formatNumeric self = some text ∧ parse text = .ok other
    ∧ SameInstants globalObject self other

theorem keeps_of_roundTrips (hg : globalObject.Lawful) (h : self.Valid)
    (hrn : self.RoundTrips globalObject) : self.Keeps := by
  obtain ⟨text, hfr, hpr⟩ := parse_formatNumeric h
  obtain ⟨text', other, hfr', hpr', hsm⟩ := hrn
  rw [hfr] at hfr'
  cases hfr'
  rw [hpr] at hpr'
  cases hpr'
  exact keeps_of_sameInstants h hg hsm

/-- The numeric form of a parsed expression fires at the same instants exactly when the expression
keeps what it says of its two day fields. -/
theorem roundTrips_iff (hg : globalObject.Lawful) {input : Bytes} (h : parse input = .ok self) :
    self.RoundTrips globalObject ↔ self.Keeps := by
  have hvalid := parse_valid h
  constructor
  · exact keeps_of_roundTrips hg hvalid
  · intro hkeeps
    obtain ⟨text, hformat, hparse⟩ := parse_formatNumeric hvalid
    exact ⟨text, self.canonical, hformat, hparse, sameInstants_canonical hvalid hkeeps hg⟩

def thirteenthOrFriday : CronExpression where
  minutes := 1
  hours := 1
  days := 1 <<< 13
  months := all_months
  weekdays := 1 <<< 5
  days_is_wildcard := false
  weekdays_is_wildcard := false

/-- `0 0 13 * Fri`. -/
theorem roundTrips_iff_thirteenthOrFriday :
    thirteenthOrFriday.RoundTrips utc ↔ thirteenthOrFriday.Keeps := by
  have hparse : parse (bytesOf "0 0 13 * Fri") = .ok thirteenthOrFriday := by decide +kernel
  exact roundTrips_iff lawful_utc hparse

def everyDayOrMonday : CronExpression where
  minutes := 1
  hours := 1
  days := all_days
  months := all_months
  weekdays := 1 <<< 1
  days_is_wildcard := false
  weekdays_is_wildcard := false

/-- Its numeric form is that of midnight of every Monday. -/
theorem roundTrips_refuted :
    ¬ ∀ (input : Bytes) (self : CronExpression), parse input = .ok self →
      self.RoundTrips utc := by
  intro h
  have hparse : parse (bytesOf "0 0 1-31 * 1") = .ok everyDayOrMonday := by decide +kernel
  have hkeeps := keeps_of_roundTrips lawful_utc (parse_valid hparse) (h _ _ hparse)
  have hfull : Full everyDayOrMonday.days 1 31 := full_of_bounded (by decide +kernel)
  rcases hkeeps.1 hfull with hwild | hweekdays
  · cases hwild
  · exact absurd (hweekdays 0 le_rfl (by decide)) (by decide)

end CronExpression

end Cruller.Cron
