import Cruller.Cron.BitFields

/-!
# The numeric form of a cron expression

It parses to the same sets. What it does not keep is how a full field was written: a field that is
full is a wildcard afterwards.
-/

namespace Cruller.Cron

open List Decimal

/-- Every value is in the set. -/
def Full {w : ℕ} (bits : BitVec w) (min max : ℕ) : Prop :=
  ∀ j, min ≤ j → j ≤ max → bits.getLsbD j = true

/-- What the parser accepts: sets within their bounds, and wildcards only for full ones. -/
structure CronExpression.Valid (expr : CronExpression) : Prop where
  minutes : Field expr.minutes 0 59
  hours : Field expr.hours 0 23
  days : Field expr.days 1 31
  months : Field expr.months 1 12
  weekdays : Field expr.weekdays 0 6
  days_full : expr.days_is_wildcard = true → Full expr.days 1 31
  weekdays_full : expr.weekdays_is_wildcard = true → Full expr.weekdays 0 6

theorem field_of_bounded {w : ℕ} {bits : BitVec w} {min max : ℕ}
    (hne : ∃ j < w, bits.getLsbD j = true)
    (hw : ∀ j < w, bits.getLsbD j = true → min ≤ j ∧ j ≤ max) : Field bits min max where
  nonempty := hne.imp fun _ hj => hj.2
  within j hj := by
    refine hw j ?_ hj
    by_contra hnot
    rw [BitVec.getLsbD_of_ge _ _ (by omega)] at hj
    cases hj

theorem full_of_bounded {w : ℕ} {bits : BitVec w} {min max : ℕ}
    (h : ∀ j < max + 1, min ≤ j → bits.getLsbD j = true) : Full bits min max :=
  fun j hmin hmax => h j (by omega) hmin

variable {self : CronExpression}

theorem parseNickname_valid {expr : Bytes}
    (h : parseNickname expr = some self) : self.Valid := by
  have hday : Field (1 <<< 1 : BitVec 32) 1 31 :=
    field_of_bounded (by decide) (by decide)
  have hdy : Field all_days 1 31 :=
    field_of_bounded (by decide) (by decide)
  have hmh : Field (1 <<< 1 : BitVec 16) 1 12 :=
    field_of_bounded (by decide) (by decide)
  have hmt : Field all_months 1 12 :=
    field_of_bounded (by decide) (by decide)
  have hmn : Field (1 : BitVec 64) 0 59 :=
    field_of_bounded (by decide) (by decide)
  have hhr : Field (1 : BitVec 32) 0 23 :=
    field_of_bounded (by decide) (by decide)
  have hhs : Field all_hours 0 23 :=
    field_of_bounded (by decide) (by decide)
  have hwd : Field (1 : BitVec 8) 0 6 :=
    field_of_bounded (by decide) (by decide)
  have hwk : Field all_weekdays 0 6 :=
    field_of_bounded (by decide) (by decide)
  have hfl : Full all_days 1 31 := full_of_bounded (by decide)
  have hfl' : Full all_weekdays 0 6 := full_of_bounded (by decide)
  unfold parseNickname at h
  simp only at h
  split_ifs at h <;> cases h
  · exact ⟨hmn, hhr, hday, hmh, hwk, (fun hf => by cases hf), fun _ => hfl'⟩
  · exact ⟨hmn, hhr, hday, hmt, hwk, (fun hf => by cases hf), fun _ => hfl'⟩
  · exact ⟨hmn, hhr, hdy, hmt, hwd, fun _ => hfl, fun hf => by cases hf⟩
  · exact ⟨hmn, hhr, hdy, hmt, hwk, fun _ => hfl, fun _ => hfl'⟩
  · exact ⟨hmn, hhs, hdy, hmt, hwk, fun _ => hfl, fun _ => hfl'⟩

theorem full_of_star {days : BitVec 32} (h : parseField 32 (bytesOf "*") 1 31 .none = .ok days) :
    Full days 1 31 := by
  rw [parseField_star, if_neg (by decide)] at h
  cases h
  intro j hmin hmax
  rw [getLsbD_setBits Nat.one_pos (by omega), Bool.or_eq_true, decide_eq_true_eq]
  exact Or.inr ⟨by omega, hmin, hmax, one_dvd _⟩

theorem full_of_star_weekday {weekdays : BitVec 8}
    (h : parseField 8 (bytesOf "*") 0 7 .weekday = .ok weekdays) : Full weekdays 0 6 := by
  have hst : parseField 8 (bytesOf "*") 0 7 .weekday = .ok 0x7F := by
    rw [parseField_star, if_pos rfl]
    rfl
  rw [hst] at h
  cases h
  exact full_of_bounded (by decide)

/-- What parses has fields that are in range and not empty. -/
theorem parse_valid {input : Bytes} (h : parse input = .ok self) :
    self.Valid := by
  unfold parse at h
  simp only at h
  split_ifs at h
  · split at h
    · rename_i hnc
      cases h
      exact parseNickname_valid hnc
    · cases h
  split at h
  · rename_i minute hour day month weekday _
    simp only [bind, Except.bind] at h
    split at h
    · cases h
    rename_i minutes hmn
    split at h
    · cases h
    rename_i hours hhr
    split at h
    · cases h
    rename_i days hdy
    split at h
    · cases h
    rename_i months hmt
    split at h
    · cases h
    rename_i weekdays hwk
    cases h
    refine ⟨parseField_within (by decide) (by decide) (by decide) (by decide) hmn,
      parseField_within (by decide) (by decide) (by decide) (by decide) hhr,
      parseField_within (by decide) (by decide) (by decide) (by decide) hdy,
      parseField_within (by decide) (by decide) (by decide) (by decide) hmt,
      parseField_weekday hwk, fun hwl => ?_, fun hwl => ?_⟩
    · rw [of_decide_eq_true hwl] at hdy
      exact full_of_star hdy
    · rw [of_decide_eq_true hwl] at hwk
      exact full_of_star_weekday hwk
  · cases h

/-- What its numeric form parses to. -/
def CronExpression.canonical (self : CronExpression) : CronExpression :=
  { self with
    days_is_wildcard := popCount self.days = 31
    weekdays_is_wildcard := popCount self.weekdays = 7 }

theorem not_isBlank {c : UInt8} (h : IsFieldByte c) : isBlank c = false := by
  rcases h with h | rfl | rfl
  · rw [isBlank, Bool.or_eq_false_iff]
    exact ⟨decide_eq_false (h.ne (by decide)), decide_eq_false (h.ne (by decide))⟩
  · decide
  · decide

theorem trim_eq_self {text : Bytes} (hhd : ∀ c ∈ text.head?, isBlank c = false)
    (hls : ∀ c ∈ text.getLast?, isBlank c = false) : trim text = text := by
  have hdr : ∀ text : Bytes, (∀ c ∈ text.head?, isBlank c = false) →
      text.dropWhile isBlank = text := by
    intro text h
    cases text with
    | nil => rfl
    | cons c text => rw [dropWhile_cons, if_neg (by simp [h c rfl])]
  rw [trim, hdr text hhd, hdr text.reverse (by simpa using hls), reverse_reverse]

theorem splitOnP_intercalate {fields : List Bytes} (hne : fields ≠ [])
    (h : ∀ field ∈ fields, ∀ c ∈ field, isBlank c = false) :
    ([32].intercalate fields).splitOnP isBlank = fields := by
  induction fields with
  | nil => exact absurd rfl hne
  | cons field fields ih =>
    obtain ⟨hfl, hfd⟩ := forall_mem_cons.1 h
    cases fields with
    | nil =>
      rw [intercalate_singleton]
      exact splitOnP_eq_singleton hfl
    | cons field' fields =>
      rw [intercalate_cons_cons, append_assoc, singleton_append,
        splitOnP_append_cons_of_forall_mem hfl 32 (by decide),
        ih (cons_ne_nil _ _) hfd]

theorem tokenize_fields {a b c d e : Bytes}
    (hne : ∀ field ∈ [a, b, c, d, e], field ≠ [])
    (h : ∀ field ∈ [a, b, c, d, e], ∀ x ∈ field, IsFieldByte x) :
    let text := [32].intercalate [a, b, c, d, e]
    trim text = text ∧ text.head? ≠ some 64 ∧ tokenize text = [a, b, c, d, e] := by
  intro text
  have htx : text = a ++ (32 :: (b ++ (32 :: (c ++ (32 :: (d ++ 32 :: e)))))) := by
    simp [text, intercalate_cons_cons]
  have hhd : ∀ x ∈ text.head?, IsFieldByte x := by
    intro x hx
    rw [htx, head?_append_of_ne_nil _ (hne a (by simp))] at hx
    exact h a (by simp) x (mem_of_mem_head? hx)
  have hls : ∀ x ∈ text.getLast?, IsFieldByte x := by
    intro x hx
    have he : text = (a ++ (32 :: (b ++ (32 :: (c ++ (32 :: (d ++ [32]))))))) ++ e := by
      simp [htx]
    rw [he, getLast?_append_of_ne_nil _ (hne e (by simp))] at hx
    exact h e (by simp) x (mem_of_getLast? hx)
  refine ⟨trim_eq_self (fun x hx => not_isBlank (hhd x hx))
    fun x hx => not_isBlank (hls x hx), fun hat => ?_, ?_⟩
  · have : ¬ IsFieldByte 64 := by
      unfold IsFieldByte
      decide
    exact this (hhd 64 hat)
  · rw [tokenize, splitOnP_intercalate (by simp) fun field hf x hx => not_isBlank (h field hf x hx)]
    exact filter_eq_self.2 fun field hf => decide_eq_true (hne field hf)

/-- The numeric form parses, and only the wildcards may be other. -/
theorem parse_formatNumeric (h : self.Valid) :
    ∃ text, formatNumeric self = some text ∧ parse text = .ok self.canonical := by
  have hmn := length_formatBitfield self.minutes 0 (show 59 < 100 by decide)
  have hhr := length_formatBitfield self.hours 0 (show 23 < 100 by decide)
  have hdays := length_formatBitfield self.days 1 (show 31 < 100 by decide)
  have hmt := length_formatBitfield self.months 1 (show 12 < 100 by decide)
  have hweekdays := length_formatBitfield self.weekdays 0 (show 6 < 100 by decide)
  refine ⟨_, if_pos ?_, ?_⟩
  · simp
    omega
  · obtain ⟨htr, hhd, htk⟩ := tokenize_fields
      (a := formatBitfield self.minutes 0 59) (b := formatBitfield self.hours 0 23)
      (c := formatBitfield self.days 1 31) (d := formatBitfield self.months 1 12)
      (e := formatBitfield self.weekdays 0 6)
      (by
        simp only [forall_mem_cons, not_mem_nil, false_imp_iff, implies_true, and_true]
        exact ⟨formatBitfield_ne_nil h.minutes, formatBitfield_ne_nil h.hours,
          formatBitfield_ne_nil h.days, formatBitfield_ne_nil h.months,
          formatBitfield_ne_nil h.weekdays⟩)
      (by
        simp only [forall_mem_cons, not_mem_nil, false_imp_iff, implies_true, and_true]
        exact ⟨fun _ => isFieldByte_of_mem, fun _ => isFieldByte_of_mem,
          fun _ => isFieldByte_of_mem, fun _ => isFieldByte_of_mem, fun _ => isFieldByte_of_mem⟩)
    have hdays_star : (formatBitfield self.days 1 31 = bytesOf "*") ↔ popCount self.days = 31 := by
      rw [formatBitfield_eq_star h.days (by decide) (by decide),
        ← popCount_eq_iff h.days (by decide) (by decide)]
    have hweekdays_star :
        (formatBitfield self.weekdays 0 6 = bytesOf "*") ↔ popCount self.weekdays = 7 := by
      rw [formatBitfield_eq_star h.weekdays (by decide) (by decide),
        ← popCount_eq_iff h.weekdays (by decide) (by decide)]
    unfold parse
    simp only
    rw [htr, if_neg hhd, htk]
    simp only [parseField_formatBitfield h.minutes (by decide) (by decide) (by decide) .none
        (by decide),
      parseField_formatBitfield h.hours (by decide) (by decide) (by decide) .none (by decide),
      parseField_formatBitfield h.days (by decide) (by decide) (by decide) .none (by decide),
      parseField_formatBitfield h.months (by decide) (by decide) (by decide) .month (by decide),
      parseField_formatBitfield_weekday h.weekdays, hdays_star, hweekdays_star]
    rfl

end Cruller.Cron
