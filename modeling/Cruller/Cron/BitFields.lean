import Cruller.Cron.CronParser

/-!
# Fields of a cron expression, printed and parsed

A field that is accepted is a set that is not empty and lies within the field's bounds. Such a set
is what its printed form parses to.
-/

namespace Cruller.Cron

open List Option Decimal

/-- A set that is not empty, of numbers from `min` to `max`. -/
structure Field {w : ℕ} (bits : BitVec w) (min max : ℕ) : Prop where
  nonempty : ∃ j, bits.getLsbD j = true
  within : ∀ j, bits.getLsbD j = true → min ≤ j ∧ j ≤ max

variable {w min max : ℕ} {bits : BitVec 8}

theorem getLsbD_or_one_shiftLeft (bits : BitVec w) (i j : ℕ) :
    (bits ||| (1#w <<< i)).getLsbD j = (bits.getLsbD j || decide (j < w ∧ j = i)) := by
  rw [BitVec.getLsbD_or, BitVec.getLsbD_shiftLeft, BitVec.getLsbD_one]
  congr 1
  rw [Bool.eq_iff_iff]
  simp
  omega

/-- The loop sets the steps of the range and nothing else. -/
theorem getLsbD_setBits {step range_max : ℕ} (hst : 0 < step) {fuel i : ℕ}
    (hfl : range_max < i + fuel) (result : BitVec w) (j : ℕ) :
    (setBits step range_max fuel i result).getLsbD j = (result.getLsbD j
      || decide (j < w ∧ i ≤ j ∧ j ≤ range_max ∧ step ∣ j - i)) := by
  induction fuel generalizing i result with
  | zero =>
    rw [setBits, decide_eq_false (by omega), Bool.or_false]
  | succ fuel ih =>
    rw [setBits]
    split_ifs with hi hend
    · rw [getLsbD_or_one_shiftLeft]
      congr 2
      rw [eq_iff_iff]
      constructor
      · rintro ⟨hj, rfl⟩
        exact ⟨hj, le_rfl, hi, by simp⟩
      · rintro ⟨hj, hij, hmax, hdvd⟩
        refine ⟨hj, ?_⟩
        have := Nat.eq_zero_of_dvd_of_lt hdvd (by omega)
        omega
    · rw [ih (by omega), getLsbD_or_one_shiftLeft, Bool.or_assoc, ← Bool.decide_or]
      congr 2
      rw [eq_iff_iff]
      constructor
      · rintro (⟨hj, rfl⟩ | ⟨hj, hij, hmax, hdvd⟩)
        · exact ⟨hj, le_rfl, hi, by simp⟩
        · refine ⟨hj, by omega, hmax, ?_⟩
          have : j - i = j - (i + step) + step := by omega
          rw [this]
          exact Nat.dvd_add_self_right.2 hdvd
      · rintro ⟨hj, hij, hmax, hdvd⟩
        by_cases heq : j = i
        · exact Or.inl ⟨hj, heq⟩
        · have hle := Nat.le_of_dvd (by omega) hdvd
          refine Or.inr ⟨hj, by omega, hmax, ?_⟩
          have : j - (i + step) = j - i - step := by omega
          rw [this]
          exact Nat.dvd_sub hdvd (dvd_refl step)
    · rw [decide_eq_false (by omega), Bool.or_false]

theorem parseStep_pos {s : Option Bytes} {step : ℕ} (h : parseStep s = .ok step) : 0 < step := by
  cases s with
  | none =>
    cases h
    exact Nat.one_pos
  | some s =>
    simp only [parseStep] at h
    split at h
    · split_ifs at h with hzr
      cases h
      exact Nat.pos_of_ne_zero hzr
    · cases h

section Bounds

variable {min max : ℕ} {kind : NameKind}

theorem parseValue_within (hkn : ∀ entry ∈ kind.names, min ≤ entry.2 ∧ entry.2 ≤ max)
    {str : Bytes} {v : ℕ} (h : parseValue str min max kind = some v) : min ≤ v ∧ v ≤ max := by
  unfold parseValue at h
  split at h
  · rename_i hnm
    cases h
    obtain ⟨entry, hfn, rfl⟩ := map_eq_some_iff.1 hnm
    exact hkn entry (mem_of_find?_eq_some hfn)
  · obtain ⟨-, hv⟩ := filter_eq_some_iff.1 h
    simpa using hv

theorem parseRange_within (hle : min ≤ max)
    (hkn : ∀ entry ∈ kind.names, min ≤ entry.2 ∧ entry.2 ≤ max) {base : Bytes} {stepped : Bool}
    {range : ℕ × ℕ} (h : parseRange base stepped min max kind = .ok range) :
    min ≤ range.1 ∧ range.1 ≤ range.2 ∧ range.2 ≤ max := by
  unfold parseRange at h
  by_cases hst : base = bytesOf "*"
  · rw [if_pos hst] at h
    cases h
    exact ⟨le_rfl, hle, le_rfl⟩
  rw [if_neg hst] at h
  split at h
  · split at h
    · rename_i lo hi hlo hhi
      split_ifs at h with hlt
      cases h
      exact ⟨(parseValue_within hkn hlo).1, not_lt.1 hlt, (parseValue_within hkn hhi).2⟩
    · cases h
  · split at h
    · rename_i lo hlo
      cases h
      have := parseValue_within hkn hlo
      cases stepped with
      | false => exact ⟨this.1, le_rfl, this.2⟩
      | true => exact ⟨this.1, this.2, le_rfl⟩
    · cases h

variable {w : ℕ}

variable {bits : BitVec w}

/-- What a part of a field sets is within the field's bounds. -/
theorem parsePart_within (hle : min ≤ max) (hw : max < w)
    (hkn : ∀ entry ∈ kind.names, min ≤ entry.2 ∧ entry.2 ≤ max) {result : BitVec w}
    {part : Bytes} (hr : ∀ j, result.getLsbD j = true → min ≤ j ∧ j ≤ max)
    (h : parsePart min max kind result part = .ok bits) : Field bits min max := by
  unfold parsePart at h
  split_ifs at h
  split at h
  · cases h
  rename_i base steps hsp
  simp only [bind, Except.bind] at h
  split_ifs at h
  simp only [pure, Except.pure] at h
  split at h
  · cases h
  rename_i step hst
  split at h
  · cases h
  rename_i range hrn
  cases h
  obtain ⟨hmin, hlo, hmax⟩ := parseRange_within hle hkn hrn
  have hfl : range.2 < range.1 + (range.2 + 1) := by omega
  have hbt := getLsbD_setBits (parseStep_pos hst) hfl result
  constructor
  · refine ⟨range.1, ?_⟩
    rw [hbt, Bool.or_eq_true, decide_eq_true_eq]
    exact Or.inr ⟨by omega, le_rfl, hlo, by simp⟩
  · intro j hj
    rw [hbt, Bool.or_eq_true, decide_eq_true_eq] at hj
    rcases hj with hj | ⟨-, hij, hjm, -⟩
    · exact hr j hj
    · omega

theorem foldlM_parsePart_within (hle : min ≤ max) (hw : max < w)
    (hkn : ∀ entry ∈ kind.names, min ≤ entry.2 ∧ entry.2 ≤ max) {parts : List Bytes}
    (hpt : parts ≠ []) {result : BitVec w}
    (hr : ∀ j, result.getLsbD j = true → min ≤ j ∧ j ≤ max)
    (h : parts.foldlM (parsePart min max kind) result = .ok bits) : Field bits min max := by
  induction parts generalizing result with
  | nil => exact absurd rfl hpt
  | cons part parts ih =>
    rw [foldlM_cons] at h
    cases hpr : parsePart min max kind result part with
    | error e =>
      rw [hpr] at h
      cases h
    | ok next =>
      rw [hpr] at h
      have hnx := parsePart_within hle hw hkn hr hpr
      cases parts with
      | nil =>
        cases h
        exact hnx
      | cons _ _ => exact ih (cons_ne_nil _ _) hnx.within h

theorem parseField_within (hle : min ≤ max) (hw : max < w)
    (hkn : ∀ entry ∈ kind.names, min ≤ entry.2 ∧ entry.2 ≤ max) (hnot : kind ≠ .weekday)
    {field : Bytes} (h : parseField w field min max kind = .ok bits) :
    Field bits min max := by
  unfold parseField at h
  simp only [bind, Except.bind] at h
  split_ifs at h
  split at h
  · cases h
  rename_i result hpr
  cases h
  exact foldlM_parsePart_within hle hw hkn (splitOn_ne_nil _ _) (by simp) hpr

end Bounds

theorem getLsbD_foldSunday (bits : BitVec 8) (j : ℕ) :
    ((bits ||| (bits >>> 7)) &&& 0x7F).getLsbD j =
      ((bits.getLsbD j || bits.getLsbD (7 + j)) && decide (j < 7)) := by
  have hms : (0x7F : BitVec 8) = BitVec.setWidth 8 (BitVec.allOnes 7) := rfl
  rw [BitVec.getLsbD_and, BitVec.getLsbD_or, BitVec.getLsbD_ushiftRight, hms,
    BitVec.getLsbD_setWidth, BitVec.getLsbD_allOnes]
  by_cases hj : j < 7
  · simp [hj, show j < 8 by omega]
  · simp [hj]

theorem field_foldSunday (h : Field bits 0 7) :
    Field ((bits ||| (bits >>> 7)) &&& 0x7F) 0 6 := by
  obtain ⟨j, hj⟩ := h.nonempty
  have hle := (h.within j hj).2
  refine ⟨?_, fun i hi => ?_⟩
  · rcases hle.lt_or_eq with hlt | rfl
    · exact ⟨j, by rw [getLsbD_foldSunday, hj, decide_eq_true hlt]; rfl⟩
    · exact ⟨0, by rw [getLsbD_foldSunday, hj, Bool.or_true]; rfl⟩
  · rw [getLsbD_foldSunday, Bool.and_eq_true, decide_eq_true_eq] at hi
    omega

theorem parseField_weekday {field : Bytes}
    (h : parseField 8 field 0 7 .weekday = .ok bits) : Field bits 0 6 := by
  unfold parseField at h
  simp only [bind, Except.bind] at h
  split_ifs at h
  split at h
  · cases h
  rename_i result hpr
  cases h
  exact field_foldSunday (foldlM_parsePart_within (by decide) (by decide) (by decide)
    (splitOn_ne_nil _ _) (by simp) hpr)

theorem members_of_field {bits : BitVec w} (h : Field bits min max) {j : ℕ} :
    j ∈ members bits min max ↔ bits.getLsbD j = true := by
  rw [members, mem_filter, mem_range'_1]
  constructor
  · exact fun hj => hj.2
  · intro hj
    have := h.within j hj
    exact ⟨by omega, hj⟩

theorem length_members_le (bits : BitVec w) (min max : ℕ) :
    (members bits min max).length ≤ max + 1 - min :=
  (length_filter_le ..).trans (length_range' ..).le

theorem popCount_eq {bits : BitVec w} (h : Field bits min max)
    (hw : max < w) : popCount bits = (members bits min max).length := by
  rw [popCount, countP_eq_length_filter]
  refine Perm.length_eq ((perm_ext_iff_of_nodup (List.nodup_range.filter _)
    ((nodup_range' ..).filter _)).2 fun j => ?_)
  rw [mem_filter, mem_range]
  refine Iff.trans (and_iff_right_of_imp fun hj => ?_) (members_of_field h).symm
  have := h.within j hj
  omega

theorem popCount_eq_iff {bits : BitVec w} (h : Field bits min max)
    (hle : min ≤ max) (hw : max < w) :
    popCount bits = max - min + 1 ↔ ∀ j, min ≤ j → j ≤ max → bits.getLsbD j = true := by
  rw [popCount_eq h hw, members,
    show max - min + 1 = (List.range' min (max + 1 - min)).length by simp; omega,
    length_filter_eq_length_iff]
  constructor
  · exact fun hall j hmin hmax => hall j (mem_range'_1.2 (by omega))
  · exact fun hall j hj => by
      rw [mem_range'_1] at hj
      exact hall j hj.1 (by omega)

theorem bytesOf_star : bytesOf "*" = [42] := rfl

theorem splitOn_star {sep : UInt8} (h : sep ≠ 42) : (bytesOf "*").splitOn sep = [bytesOf "*"] := by
  refine splitOn_eq_singleton fun hmem => ?_
  rw [bytesOf_star] at hmem
  exact h (mem_singleton.1 hmem)

theorem parseField_star (w min max : ℕ) (kind : NameKind) :
    parseField w (bytesOf "*") min max kind = .ok (if kind = .weekday then
      (setBits 1 max (max + 1) min 0 ||| (setBits 1 max (max + 1) min 0 >>> 7)) &&& 0x7F
      else setBits 1 max (max + 1) min (0 : BitVec w)) := by
  have hpr : (bytesOf "*").splitOn 44 = [bytesOf "*"] := splitOn_star (by decide)
  have hst : (bytesOf "*").splitOn 47 = [bytesOf "*"] := splitOn_star (by decide)
  have hpt : parsePart min max kind (0 : BitVec w) (bytesOf "*") =
      .ok (setBits 1 max (max + 1) min 0) := by
    rw [parsePart, if_neg (show bytesOf "*" ≠ [] from cons_ne_nil _ _), hst]
    rfl
  rw [parseField, hpr, foldlM_cons, hpt]
  rfl

theorem names_letter (kind : NameKind) :
    ∀ entry ∈ kind.names, ∀ c ∈ (bytesOf entry.1).head?, ¬ IsDigit c := by
  cases kind <;> decide +kernel

theorem toLower_digit {c : UInt8} (h : IsDigit c) : toLower c = c := by
  refine if_neg fun hup => ?_
  have := UInt8.le_iff_toNat_le.1 h.2
  have := UInt8.le_iff_toNat_le.1 hup.1
  simp at *
  omega

theorem not_mem_print {n : ℕ} {x : UInt8} (hx : ¬ IsDigit x) : x ∉ print n :=
  fun hmem => hx (isDigit_of_mem_print hmem)

theorem getASCIIICaseInsensitive_print (kind : NameKind) (n : ℕ) :
    getASCIIICaseInsensitive kind.names (print n) = none := by
  rw [getASCIIICaseInsensitive, map_eq_none_iff, find?_eq_none]
  intro entry hmem heq
  have heq := of_decide_eq_true heq
  cases hpr : print n with
  | nil => exact print_ne_nil n hpr
  | cons c rest =>
    have hc : IsDigit c := isDigit_of_mem_print (hpr ▸ mem_cons_self)
    rw [hpr, map_cons, toLower_digit hc] at heq
    exact names_letter kind entry hmem c (by rw [heq]; rfl) hc

theorem print_ne_star (n : ℕ) : print n ≠ bytesOf "*" := by
  intro heq
  refine not_mem_print (n := n) (by decide : ¬ IsDigit 42) ?_
  rw [heq, bytesOf_star]
  exact mem_singleton_self _

theorem parsePart_print {n : ℕ} (hmin : min ≤ n) (hmax : n ≤ max) (hn : n < 256)
    (kind : NameKind) (result : BitVec w) :
    parsePart min max kind result (print n) = .ok (result ||| (1#w <<< n)) := by
  have hst : (print n).splitOn 47 = [print n] :=
    splitOn_eq_singleton (not_mem_print (by decide))
  have hrn : (print n).splitOn 45 = [print n] :=
    splitOn_eq_singleton (not_mem_print (by decide))
  have hvl : parseValue (print n) min max kind = some n := by
    rw [parseValue, getASCIIICaseInsensitive_print]
    have hpr : parseInt 8 (print n) = some n := parseInt_print hn
    simp [hpr, hmin, hmax]
  have hpr : parseRange (print n) false min max kind = .ok (n, n) := by
    rw [parseRange, if_neg (print_ne_star n), splitRange, hrn]
    simp [hvl]
  rw [parsePart, if_neg (print_ne_nil n), hst]
  simp only [length_nil, head?_nil, isSome_none]
  rw [if_neg (by omega), hpr]
  change Except.ok (setBits 1 n (n + 1) n result) = _
  rw [setBits, if_pos le_rfl, if_pos (by omega)]

theorem foldlM_parsePart_print (hmax : max < 256) (kind : NameKind)
    {ns : List ℕ} (hns : ∀ n ∈ ns, min ≤ n ∧ n ≤ max) (result : BitVec w) :
    ∃ bits, (ns.map print).foldlM (parsePart min max kind) result = .ok bits
      ∧ ∀ j, bits.getLsbD j = (result.getLsbD j || decide (j < w ∧ j ∈ ns)) := by
  induction ns generalizing result with
  | nil => exact ⟨result, rfl, by simp⟩
  | cons n ns ih =>
    obtain ⟨hn, hns⟩ := forall_mem_cons.1 hns
    obtain ⟨bits, hfl, hbt⟩ := ih hns (result ||| (1#w <<< n))
    refine ⟨bits, ?_, fun j => ?_⟩
    · rw [map_cons, foldlM_cons, parsePart_print hn.1 hn.2 (by omega)]
      exact hfl
    · rw [hbt, getLsbD_or_one_shiftLeft, Bool.or_assoc, ← Bool.decide_or]
      congr 2
      rw [mem_cons, eq_iff_iff]
      tauto

def IsFieldByte (c : UInt8) : Prop := IsDigit c ∨ c = 44 ∨ c = 42

theorem mem_intercalate {sep : UInt8} {ls : List Bytes} {c : UInt8}
    (h : c ∈ [sep].intercalate ls) : c = sep ∨ ∃ l ∈ ls, c ∈ l := by
  induction ls with
  | nil => simp at h
  | cons l ls ih =>
    cases ls with
    | nil => exact Or.inr ⟨l, mem_cons_self, by simpa using h⟩
    | cons l' ls =>
      rw [intercalate_cons_cons, mem_append, mem_append, mem_singleton] at h
      rcases h with (h | h) | h
      · exact Or.inr ⟨l, mem_cons_self, h⟩
      · exact Or.inl h
      · rcases ih h with h | ⟨l'', hl, hc⟩
        · exact Or.inl h
        · exact Or.inr ⟨l'', mem_cons_of_mem _ hl, hc⟩

theorem length_intercalate_print {ns : List ℕ} (h : ∀ n ∈ ns, n < 100) :
    ([44].intercalate (ns.map print)).length ≤ 3 * ns.length := by
  induction ns with
  | nil => simp
  | cons n ns ih =>
    obtain ⟨hn, hns⟩ := forall_mem_cons.1 h
    have hlen := length_print hn
    have := ih hns
    cases ns with
    | nil =>
      simp only [map_cons, map_nil, intercalate_singleton, length_singleton]
      omega
    | cons n' ns =>
      rw [map_cons] at this ⊢
      rw [map_cons, intercalate_cons_cons]
      simp only [length_append, length_cons, length_nil] at *
      omega

section Printed

variable {w : ℕ} {bits : BitVec w} {min max : ℕ}

theorem isFieldByte_of_mem {c : UInt8} (h : c ∈ formatBitfield bits min max) : IsFieldByte c := by
  rw [formatBitfield] at h
  split_ifs at h
  · rw [bytesOf_star] at h
    exact Or.inr (Or.inr (mem_singleton.1 h))
  · rcases mem_intercalate h with h | ⟨l, hl, hc⟩
    · exact Or.inr (Or.inl h)
    · obtain ⟨n, -, rfl⟩ := List.mem_map.1 hl
      exact Or.inl (isDigit_of_mem_print hc)

theorem members_ne_nil (h : Field bits min max) : members bits min max ≠ [] := by
  obtain ⟨j, hj⟩ := h.nonempty
  exact ne_nil_of_mem ((members_of_field h).2 hj)

theorem splitOn_members (h : Field bits min max) :
    ([44].intercalate ((members bits min max).map print)).splitOn 44 =
      (members bits min max).map print := by
  refine splitOn_intercalate 44 (fun l hl => ?_) (by simpa using members_ne_nil h)
  obtain ⟨n, -, rfl⟩ := List.mem_map.1 hl
  exact not_mem_print (by decide)

theorem formatBitfield_ne_nil (h : Field bits min max) : formatBitfield bits min max ≠ [] := by
  rw [formatBitfield]
  split_ifs
  · exact cons_ne_nil _ _
  · intro hnil
    have hsp := splitOn_members h
    rw [hnil, splitOn_nil] at hsp
    have hmem : ([] : Bytes) ∈ (members bits min max).map print :=
      hsp ▸ mem_singleton_self _
    obtain ⟨n, -, hn⟩ := List.mem_map.1 hmem
    exact print_ne_nil n hn

theorem length_formatBitfield (bits : BitVec w) (min : ℕ) (hmax : max < 100) :
    (formatBitfield bits min max).length ≤ 3 * (max + 1 - min) + 1 := by
  rw [formatBitfield]
  split_ifs
  · simp [bytesOf_star]
  · have hlt : ∀ n ∈ members bits min max, n < 100 := by
      intro n hn
      have := mem_range'_1.1 (mem_filter.1 hn).1
      omega
    have := length_intercalate_print hlt
    have := length_members_le bits min max
    omega

theorem formatBitfield_eq_star (h : Field bits min max) (hle : min ≤ max) (hw : max < w) :
    formatBitfield bits min max = bytesOf "*" ↔
      ∀ j, min ≤ j → j ≤ max → bits.getLsbD j = true := by
  rw [← popCount_eq_iff h hle hw, formatBitfield]
  constructor
  · intro heq
    by_contra hnot
    rw [if_neg hnot] at heq
    have hsp := splitOn_members h
    rw [heq, splitOn_star (by decide)] at hsp
    have hmem : bytesOf "*" ∈ (members bits min max).map print :=
      hsp ▸ mem_singleton_self _
    obtain ⟨n, -, hn⟩ := List.mem_map.1 hmem
    exact print_ne_star n hn
  · exact fun heq => if_pos heq

theorem foldlM_formatBitfield (h : Field bits min max) {max' : ℕ} (hmax : max ≤ max')
    (hmax' : max' < 256) (kind : NameKind) :
    (([44].intercalate ((members bits min max).map print)).splitOn 44).foldlM
      (parsePart min max' kind) (0 : BitVec w) = .ok bits := by
  rw [splitOn_members h]
  have hmb : ∀ n ∈ members bits min max, min ≤ n ∧ n ≤ max' := by
    intro n hn
    have := mem_range'_1.1 (mem_filter.1 hn).1
    omega
  obtain ⟨result, hfl, hrs⟩ := foldlM_parsePart_print hmax' kind hmb (0 : BitVec w)
  rw [hfl]
  congr 1
  refine BitVec.eq_of_getLsbD_eq fun j hj => ?_
  have hzr : (0 : BitVec w).getLsbD j = false := by simp
  rw [hrs, hzr, Bool.false_or, Bool.eq_iff_iff, decide_eq_true_eq, members_of_field h]
  exact and_iff_right hj

theorem parseField_formatBitfield (h : Field bits min max) (hle : min ≤ max) (hw : max < w)
    (hmax : max < 256) (kind : NameKind) (hkn : kind ≠ .weekday) :
    parseField w (formatBitfield bits min max) min max kind = .ok bits := by
  by_cases hfl : popCount bits = max - min + 1
  · rw [formatBitfield, if_pos hfl, parseField_star, if_neg hkn]
    congr 1
    refine BitVec.eq_of_getLsbD_eq fun j hj => ?_
    have hzr : (0 : BitVec w).getLsbD j = false := by simp
    rw [getLsbD_setBits Nat.one_pos (by omega), hzr, Bool.false_or, Bool.eq_iff_iff,
      decide_eq_true_eq]
    constructor
    · exact fun hj' => (popCount_eq_iff h hle hw).1 hfl j hj'.2.1 hj'.2.2.1
    · exact fun hj' => ⟨hj, (h.within j hj').1, (h.within j hj').2, one_dvd _⟩
  · have hne := formatBitfield_ne_nil h
    have hfd := foldlM_formatBitfield h le_rfl hmax kind
    rw [formatBitfield, if_neg hfl] at hne ⊢
    rw [parseField, if_neg hne, hfd]
    simp only [if_neg hkn]
    rfl

end Printed

/-- A weekday field is read back from what is printed for it, 7 being another name of Sunday. -/
theorem parseField_formatBitfield_weekday (h : Field bits 0 6) :
    parseField 8 (formatBitfield bits 0 6) 0 7 .weekday = .ok bits := by
  have hsv : bits.getLsbD 7 = false := by
    by_contra hsv
    have := (h.within 7 (by simpa using hsv)).2
    omega
  by_cases hfl : popCount bits = 6 - 0 + 1
  · have hbt := (popCount_eq_iff h (by omega) (by omega)).1 hfl
    rw [formatBitfield, if_pos hfl, parseField_star, if_pos rfl]
    congr 1
    refine BitVec.eq_of_getLsbD_eq fun j hj => ?_
    rw [getLsbD_foldSunday, getLsbD_setBits Nat.one_pos (by omega)]
    by_cases hlt : j < 7
    · rw [hbt j (Nat.zero_le j) (by omega)]
      simp [hlt, hj, show j ≤ 7 by omega]
    · rw [show j = 7 by omega, hsv]
      simp
  · have hne := formatBitfield_ne_nil h
    have hfd := foldlM_formatBitfield h (show 6 ≤ 7 by omega) (by omega) .weekday
    have hfo : (bits ||| (bits >>> 7)) &&& 0x7F = bits := by
      refine BitVec.eq_of_getLsbD_eq fun j hj => ?_
      rw [getLsbD_foldSunday]
      rcases Nat.eq_zero_or_pos j with rfl | hpos
      · rw [hsv, Bool.or_false, decide_eq_true (show 0 < 7 by omega), Bool.and_true]
      · rw [BitVec.getLsbD_of_ge _ _ (show 8 ≤ 7 + j by omega), Bool.or_false]
        by_cases hlt : j < 7
        · simp [hlt]
        · rw [show j = 7 by omega, hsv, Bool.false_and]
    rw [formatBitfield, if_neg hfl] at hne ⊢
    rw [parseField, if_neg hne, hfd]
    change Except.ok ((bits ||| (bits >>> 7)) &&& 0x7F) = _
    rw [hfo]

end Cruller.Cron
