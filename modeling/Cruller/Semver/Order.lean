import Cruller.Semver.ParseBack

/-!
# The order of versions

`Version.order` and `Version.orderWithoutBuild` as the code compares, and the precedence of the
grammar. Without the builds the two agree (`orderWithoutBuild_eq`). The build is compared by its hash
first, so the order is transitive as long as no two builds share one (`order_preorder`).
-/

namespace Cruller.Semver

open List Option Nat InstallTypes Decimal

/-- `memcmp` of so many bytes. -/
def memcmp : ℕ → List UInt8 → List UInt8 → Ordering
  | n + 1, a :: as, b :: bs => (compare a b).then (memcmp n as bs)
  | _, _, _ => .eq

/-- `strings.order` -/
def stringsOrder (a b : List UInt8) : Ordering :=
  (memcmp (min a.length b.length) a b).then (compare a.length b.length)

namespace ExternalString

/-- Equal hashes are taken for equal texts. -/
def order (lhs rhs : ExternalString) (lhs_buf rhs_buf : List UInt8) : Option Ordering :=
  if lhs.hash = rhs.hash ∧ 0 < lhs.hash then some .eq
  else do
    let lhs ← lhs.value.slice lhs_buf
    let rhs ← rhs.value.slice rhs_buf
    some (stringsOrder lhs rhs)

end ExternalString

namespace Tag

def hasPre (this : Tag) : Bool := !isEmpty this.pre

def parseUnsigned (part : List UInt8) : Option ℕ := parseIntWithSign 64 part false

/-- The parts of two prereleases, one after the other. -/
def orderParts : List (List UInt8) → List (List UInt8) → Ordering
  | [], [] => .eq
  | _ :: _, [] => .gt
  | [], _ :: _ => .lt
  | lhs :: lhs_itr, rhs :: rhs_itr =>
    match parseUnsigned lhs, parseUnsigned rhs with
    -- a part that doesn't parse as an integer is greater than a part that does
    | some _, none => .lt
    | none, some _ => .gt
    | none, none => (stringsOrder lhs rhs).then (orderParts lhs_itr rhs_itr)
    | some lhs_uint, some rhs_uint =>
      (compare lhs_uint rhs_uint).then (orderParts lhs_itr rhs_itr)

variable (lhs rhs : Tag) (lhs_buf rhs_buf : List UInt8)

/-- Prereleases, identifier by identifier. -/
def orderPre : Option Ordering := do
  let lhs_str ← lhs.pre.value.slice lhs_buf
  let rhs_str ← rhs.pre.value.slice rhs_buf
  some (orderParts (lhs_str.splitOn 46) (rhs_str.splitOn 46))

def order : Option Ordering :=
  if isEmpty lhs.pre = false ∧ isEmpty rhs.pre = false then orderPre lhs rhs lhs_buf rhs_buf
  else do
    let pre_order ← lhs.pre.order rhs.pre lhs_buf rhs_buf
    if pre_order ≠ .eq then some pre_order
    else lhs.build.order rhs.build lhs_buf rhs_buf

/-- Only prereleases count. -/
def orderWithoutBuild : Option Ordering :=
  if isEmpty lhs.pre = false ∧ isEmpty rhs.pre = false then orderPre lhs rhs lhs_buf rhs_buf
  else lhs.pre.order rhs.pre lhs_buf rhs_buf

end Tag

namespace Version

/-- The three numbers. -/
def orderWithoutTag (lhs rhs : Version) : Ordering :=
  if lhs.major < rhs.major then .lt
  else if lhs.major > rhs.major then .gt
  else if lhs.minor < rhs.minor then .lt
  else if lhs.minor > rhs.minor then .gt
  else if lhs.patch < rhs.patch then .lt
  else if lhs.patch > rhs.patch then .gt
  else if lhs.tag.hasPre then if rhs.tag.hasPre then .eq else .lt
  else if rhs.tag.hasPre then .gt else .eq

variable (lhs rhs : Version) (lhs_buf rhs_buf : List UInt8)

def order : Option Ordering :=
  if orderWithoutTag lhs rhs ≠ .eq then some (orderWithoutTag lhs rhs)
  else lhs.tag.order rhs.tag lhs_buf rhs_buf

def orderWithoutBuild : Option Ordering :=
  if orderWithoutTag lhs rhs ≠ .eq then some (orderWithoutTag lhs rhs)
  else lhs.tag.orderWithoutBuild rhs.tag lhs_buf rhs_buf

end Version

def IsNumeric (s : List UInt8) : Prop := ∀ c ∈ s, IsDigit c

instance : DecidablePred IsNumeric := fun _ => inferInstanceAs (Decidable (∀ _ ∈ _, _))

def numericValue (s : List UInt8) : ℕ := s.foldl (fun n c => n * 10 + (c.toNat - 48)) 0

/-- Numbers come before other identifiers, and are compared as numbers. -/
def identifierOrder (a b : List UInt8) : Ordering :=
  if IsNumeric a then
    if IsNumeric b then compare (numericValue a) (numericValue b) else .lt
  else if IsNumeric b then .gt
  else compare a b

/-- With a prerelease a version comes before the same without. -/
def preOrder : List (List UInt8) → List (List UInt8) → Ordering
  | [], [] => .eq
  | [], _ :: _ => .gt
  | _ :: _, [] => .lt
  | a :: as, b :: bs => (a :: as).compareLex identifierOrder (b :: bs)

namespace SemVer

def coreOrder : SemVer → SemVer → Ordering :=
  compareLex (compareOn major) (compareLex (compareOn minor) (compareOn patch))

/-- The order that the standard gives to versions. -/
def precedence : SemVer → SemVer → Ordering :=
  compareLex coreOrder fun v w => preOrder v.pre w.pre

def comparedBuild (v : SemVer) : List UInt8 := if v.pre = [] then v.buildText else []

/-- Releases of one precedence are ordered by their builds. -/
def fullOrder : SemVer → SemVer → Ordering := compareLex precedence (compareOn comparedBuild)

end SemVer

instance : Std.OrientedCmp identifierOrder where
  eq_swap {a b} := by
    unfold identifierOrder
    split_ifs
    · exact Std.OrientedOrd.eq_swap
    · rfl
    · rfl
    · exact Std.OrientedOrd.eq_swap

instance : Std.TransCmp identifierOrder where
  isLE_trans {a b c} hab hbc := by
    unfold identifierOrder at *
    split_ifs at * <;> first | exact Std.TransOrd.isLE_trans hab hbc | rfl | contradiction

instance : Std.OrientedCmp preOrder where
  eq_swap {a b} := by
    rcases a with _ | ⟨a, as⟩ <;> rcases b with _ | ⟨b, bs⟩
    · rfl
    · rfl
    · rfl
    · exact @Std.OrientedCmp.eq_swap _ (List.compareLex identifierOrder) _ _ _

instance : Std.TransCmp preOrder where
  isLE_trans {a b c} hab hbc := by
    rcases a with _ | ⟨a, as⟩ <;> rcases b with _ | ⟨b, bs⟩ <;> rcases c with _ | ⟨c, cs⟩ <;>
      first
      | exact @Std.TransCmp.isLE_trans _ (List.compareLex identifierOrder) _ _ _ _ hab hbc
      | rfl
      | contradiction

instance : Std.TransCmp SemVer.coreOrder :=
  inferInstanceAs (Std.TransCmp (compareLex _ (compareLex _ _)))

instance : Std.TransCmp fun v w : SemVer => preOrder v.pre w.pre where
  eq_swap {_ _} := @Std.OrientedCmp.eq_swap _ preOrder _ _ _
  isLE_trans {_ _ _} := @Std.TransCmp.isLE_trans _ preOrder _ _ _ _

instance : Std.TransCmp SemVer.precedence := inferInstanceAs (Std.TransCmp (compareLex _ _))

instance : Std.TransCmp SemVer.fullOrder := inferInstanceAs (Std.TransCmp (compareLex _ _))

theorem stringsOrder_cons (a b : UInt8) (as bs : List UInt8) :
    stringsOrder (a :: as) (b :: bs) = (compare a b).then (stringsOrder as bs) := by
  have hlength : compare (as.length + 1) (bs.length + 1) = compare as.length bs.length := by
    simp only [compare_eq_ite_lt, Nat.add_lt_add_iff_right]
  rw [stringsOrder, stringsOrder, length_cons, length_cons, Nat.add_min_add_right, memcmp,
    Ordering.then_assoc, hlength]

theorem stringsOrder_eq : ∀ a b : List UInt8, stringsOrder a b = compare a b
  | [], [] => rfl
  | [], b :: bs => by
    rw [List.compare_nil_cons]
    exact Nat.compare_eq_lt.2 (succ_pos _)
  | a :: as, [] => by
    rw [List.compare_cons_nil]
    exact Nat.compare_eq_gt.2 (succ_pos _)
  | a :: as, b :: bs => by
    rw [stringsOrder_cons, stringsOrder_eq as bs, List.compare_cons_cons]

theorem charToDigit_of_isDigit {c : UInt8} (h : IsDigit c) :
    charToDigit c = some (c.toNat - 48) := if_pos h

theorem foldlM_digits : ∀ (s : List UInt8) (n : ℕ), IsNumeric s →
    s.foldlM (fun accumulate c => (accumulate * 10 + ·) <$> charToDigit c) n =
      some (s.foldl (fun n c => n * 10 + (c.toNat - 48)) n)
  | [], _, _ => rfl
  | c :: s, n, h => by
    rw [foldlM_cons, charToDigit_of_isDigit (h c mem_cons_self)]
    exact foldlM_digits s _ fun c' h' => h c' (mem_cons_of_mem _ h')

theorem foldlM_not_digits : ∀ (s : List UInt8) (n : ℕ), ¬ IsNumeric s →
    s.foldlM (fun accumulate c => (accumulate * 10 + ·) <$> charToDigit c) n = none
  | [], _, h => absurd (fun _ hc => absurd hc not_mem_nil) h
  | c :: s, n, h => by
    rw [foldlM_cons]
    by_cases hc : IsDigit c
    · have hs : ¬ IsNumeric s := fun hs => h (forall_mem_cons.2 ⟨hc, hs⟩)
      rw [charToDigit_of_isDigit hc]
      exact foldlM_not_digits s _ hs
    · rw [show charToDigit c = none from if_neg hc]
      rfl

theorem IsIdentifierCharacter.ne {c : UInt8} (h : IsIdentifierCharacter c) : c ≠ 95 ∧ c ≠ 46 := by
  constructor <;> rintro rfl <;> revert h <;> unfold IsIdentifierCharacter <;> decide

theorem parseUnsigned_eq {s : List UInt8} (h : IsIdentifier s)
    (hlt : IsNumeric s → numericValue s < 2 ^ 64) :
    Tag.parseUnsigned s = if IsNumeric s then some (numericValue s) else none := by
  have hfl : s.filter (· ≠ 95) = s :=
    filter_eq_self.2 fun c hc => decide_eq_true (h.2 c hc).ne.1
  rw [Tag.parseUnsigned, parseIntWithSign, if_neg, readDigits, hfl]
  · by_cases hnum : IsNumeric s
    · rw [foldlM_digits s 0 hnum, if_pos hnum]
      exact filter_eq_some_iff.2 ⟨rfl, by simpa using hlt hnum⟩
    · rw [foldlM_not_digits s 0 hnum, if_neg hnum]
      rfl
  · rintro (hnil | hhd | hls)
    · exact h.1 hnil
    · exact (h.2 95 (mem_of_mem_head? hhd)).ne.1 rfl
    · exact (h.2 95 (mem_of_getLast? hls)).ne.1 rfl

/-- An identifier whose number the code can read. -/
def IsOrdered (s : List UInt8) : Prop := IsIdentifier s ∧ (IsNumeric s → numericValue s < 2 ^ 64)

theorem orderParts_eq : ∀ {lhs rhs : List (List UInt8)}, (∀ s ∈ lhs, IsOrdered s) →
    (∀ s ∈ rhs, IsOrdered s) → Tag.orderParts lhs rhs = lhs.compareLex identifierOrder rhs
  | [], [], _, _ => rfl
  | _ :: _, [], _, _ => rfl
  | [], _ :: _, _, _ => rfl
  | a :: lhs, b :: rhs, hlhs, hrhs => by
    obtain ⟨ha, hlhs⟩ := forall_mem_cons.1 hlhs
    obtain ⟨hb, hrhs⟩ := forall_mem_cons.1 hrhs
    rw [Tag.orderParts, parseUnsigned_eq ha.1 ha.2, parseUnsigned_eq hb.1 hb.2,
      List.compareLex_cons_cons, identifierOrder, stringsOrder_eq, orderParts_eq hlhs hrhs]
    split_ifs <;> rfl

/-- The string shows this text. -/
structure ExternalString.Reads (this : ExternalString) (buf text : List UInt8) : Prop where
  slice : this.value.slice buf = some text
  isEmpty_eq : isEmpty this = decide (text = [])
  hash : this.hash = stringHash text ∨ text = [] ∧ this.hash = 0

/-- A version with the buffer of its strings. -/
structure StoredVersion where
  version : Version
  buf : List UInt8
  semver : SemVer
  major : version.major = semver.major
  minor : version.minor = semver.minor
  patch : version.patch = semver.patch
  pre : version.tag.pre.Reads buf semver.preText
  build : version.tag.build.Reads buf semver.buildText
  numeric_lt : ∀ s ∈ semver.pre, IsNumeric s → numericValue s < 2 ^ 64

namespace ExternalString

variable {lhs rhs : ExternalString} {lhs_buf rhs_buf a b : List UInt8}

theorem order_slices (hl : lhs.Reads lhs_buf a) (hr : rhs.Reads rhs_buf b) :
    lhs.order rhs lhs_buf rhs_buf =
      some (if lhs.hash = rhs.hash ∧ 0 < lhs.hash then .eq else compare a b) := by
  rw [order, hl.slice, hr.slice]
  split_ifs
  · rfl
  · exact congrArg some (stringsOrder_eq a b)

theorem order_self (hl : lhs.Reads lhs_buf a) (hr : rhs.Reads rhs_buf a) :
    lhs.order rhs lhs_buf rhs_buf = some .eq := by
  rw [order_slices hl hr, Std.ReflOrd.compare_self, ite_self]

theorem order_swap (hl : lhs.Reads lhs_buf a) (hr : rhs.Reads rhs_buf b) :
    lhs.order rhs lhs_buf rhs_buf = (rhs.order lhs rhs_buf lhs_buf).map Ordering.swap := by
  have hcm : (lhs.hash = rhs.hash ∧ 0 < lhs.hash) ↔ rhs.hash = lhs.hash ∧ 0 < rhs.hash := by
    constructor <;> rintro ⟨heq, hpos⟩ <;> exact ⟨heq.symm, heq ▸ hpos⟩
  rw [order_slices hl hr, order_slices hr hl, map_some, apply_ite Ordering.swap,
    ← Std.OrientedOrd.eq_swap]
  simp only [hcm, Ordering.swap_eq]

theorem order_eq (hl : lhs.Reads lhs_buf a) (hr : rhs.Reads rhs_buf b)
    (hhs : stringHash a = stringHash b → a = b) :
    lhs.order rhs lhs_buf rhs_buf = some (compare a b) := by
  rw [order_slices hl hr]
  split_ifs with h
  · obtain ⟨heq, hpos⟩ := h
    have hl' : lhs.hash = stringHash a := hl.hash.resolve_right fun h => by
      rw [h.2] at hpos
      exact absurd hpos (by decide)
    have hr' : rhs.hash = stringHash b := hr.hash.resolve_right fun h => by
      rw [heq, h.2] at hpos
      exact absurd hpos (by decide)
    rw [hhs (hl'.symm.trans (heq.trans hr')), Std.ReflOrd.compare_self]
  · rfl

end ExternalString

namespace StoredVersion

variable (v w x : StoredVersion)

def order : Option Ordering := v.version.order w.version v.buf w.buf

def orderWithoutBuild : Option Ordering := v.version.orderWithoutBuild w.version v.buf w.buf

theorem pre_identifiers : ∀ s ∈ v.semver.pre, IsOrdered s :=
  fun s hs => ⟨(v.semver.pre_valid s hs).1, v.numeric_lt s hs⟩

theorem isEmpty_pre : isEmpty v.version.tag.pre = decide (v.semver.pre = []) := by
  rw [v.pre.isEmpty_eq]
  by_cases hpre : v.semver.pre = []
  · rw [decide_eq_true hpre, SemVer.preText, hpre]
    rfl
  · rw [decide_eq_false hpre]
    exact decide_eq_false (intercalate_ne_nil (fun s hs => (v.semver.pre_valid s hs).1) hpre)

theorem hasPre_eq : v.version.tag.hasPre = !decide (v.semver.pre = []) := by
  rw [Tag.hasPre, isEmpty_pre]

theorem preText_of_nil (hv : v.semver.pre = []) : v.semver.preText = [] := by
  rw [SemVer.preText, hv]
  rfl

theorem orderWithoutTag_eq : v.version.orderWithoutTag w.version =
    (v.semver.coreOrder w.semver).then
      (compare (decide (v.semver.pre = [])) (decide (w.semver.pre = []))) := by
  have hpre : (if v.version.tag.hasPre then if w.version.tag.hasPre then Ordering.eq else .lt
      else if w.version.tag.hasPre then .gt else .eq) =
      compare (decide (v.semver.pre = [])) (decide (w.semver.pre = [])) := by
    rw [hasPre_eq, hasPre_eq]
    rcases decide (v.semver.pre = []) with _ | _ <;> rcases decide (w.semver.pre = []) with _ | _ <;>
      rfl
  rw [Version.orderWithoutTag, hpre]
  simp only [SemVer.coreOrder, compareLex, compareOn, compare_eq_ite_lt, v.major, v.minor,
    v.patch, w.major, w.minor, w.patch, gt_iff_lt]
  split_ifs <;> rfl

theorem orderPre_eq (hv : v.semver.pre ≠ []) (hw : w.semver.pre ≠ []) :
    v.version.tag.orderPre w.version.tag v.buf w.buf = some (preOrder v.semver.pre w.semver.pre) := by
  have hsp : ∀ {u : StoredVersion}, u.semver.pre ≠ [] →
      u.semver.preText.splitOn 46 = u.semver.pre := fun hu =>
    splitOn_intercalate 46
      (fun s hs hdot => (((SemVer.pre_valid _ s hs).1.2 46 hdot).ne).2 rfl) hu
  rw [Tag.orderPre, v.pre.slice, w.pre.slice]
  refine congrArg some ?_
  rw [hsp hv, hsp hw, orderParts_eq v.pre_identifiers w.pre_identifiers]
  obtain ⟨a, as, ha⟩ := exists_cons_of_ne_nil hv
  obtain ⟨b, bs, hb⟩ := exists_cons_of_ne_nil hw
  rw [ha, hb, preOrder]

theorem order_pre_of_nil (hv : v.semver.pre = []) (hw : w.semver.pre = []) :
    v.version.tag.pre.order w.version.tag.pre v.buf w.buf = some .eq := by
  have hv' := v.pre
  have hw' := w.pre
  rw [v.preText_of_nil hv] at hv'
  rw [w.preText_of_nil hw] at hw'
  exact ExternalString.order_self hv' hw'

theorem preOrder_cases :
    (compare (decide (v.semver.pre = [])) (decide (w.semver.pre = [])) ≠ .eq
      ∧ preOrder v.semver.pre w.semver.pre =
        compare (decide (v.semver.pre = [])) (decide (w.semver.pre = [])))
    ∨ (v.semver.pre = [] ∧ w.semver.pre = [])
    ∨ (v.semver.pre ≠ [] ∧ w.semver.pre ≠ []) := by
  rcases v.semver.pre with _ | ⟨a, as⟩ <;> rcases w.semver.pre with _ | ⟨b, bs⟩
  · exact Or.inr (Or.inl ⟨rfl, rfl⟩)
  · exact Or.inl ⟨by simp, rfl⟩
  · exact Or.inl ⟨by simp, rfl⟩
  · simp

theorem orderWithoutTag_cases :
    (v.version.orderWithoutTag w.version ≠ .eq
      ∧ v.semver.precedence w.semver = v.version.orderWithoutTag w.version)
    ∨ (v.version.orderWithoutTag w.version = .eq ∧ v.semver.precedence w.semver = .eq
      ∧ v.semver.pre = [] ∧ w.semver.pre = [])
    ∨ (v.version.orderWithoutTag w.version = .eq
      ∧ v.semver.precedence w.semver = preOrder v.semver.pre w.semver.pre
      ∧ v.semver.pre ≠ [] ∧ w.semver.pre ≠ []) := by
  rw [orderWithoutTag_eq, SemVer.precedence, compareLex]
  rcases hcr : v.semver.coreOrder w.semver with _ | _ | _
  · exact Or.inl ⟨nofun, rfl⟩
  · rcases preOrder_cases v w with ⟨hne, hpre⟩ | ⟨hv, hw⟩ | ⟨hv, hw⟩
    · exact Or.inl ⟨hne, hpre⟩
    · rw [hv, hw]
      exact Or.inr (Or.inl ⟨rfl, rfl, rfl, rfl⟩)
    · rw [decide_eq_false hv, decide_eq_false hw]
      exact Or.inr (Or.inr ⟨rfl, rfl, hv, hw⟩)
  · exact Or.inl ⟨nofun, rfl⟩

/-- The order of the code without the builds is the precedence. -/
theorem orderWithoutBuild_eq :
    v.orderWithoutBuild w = some (v.semver.precedence w.semver) := by
  rw [orderWithoutBuild, Version.orderWithoutBuild]
  rcases orderWithoutTag_cases v w with ⟨hne, heq⟩ | ⟨htag, heq, hv, hw⟩ | ⟨htag, heq, hv, hw⟩
  · rw [if_pos hne, heq]
  · rw [if_neg (not_not.2 htag), Tag.orderWithoutBuild, isEmpty_pre, isEmpty_pre,
      if_neg (by simp [hv]), order_pre_of_nil v w hv hw, heq]
  · rw [if_neg (not_not.2 htag), Tag.orderWithoutBuild, isEmpty_pre, isEmpty_pre,
      if_pos (by simp [hv, hw]), orderPre_eq v w hv hw, heq]

theorem order_eq : v.order w =
    if v.semver.precedence w.semver = .eq ∧ v.semver.pre = [] then
      v.version.tag.build.order w.version.tag.build v.buf w.buf
    else some (v.semver.precedence w.semver) := by
  rw [order, Version.order]
  rcases orderWithoutTag_cases v w with ⟨hne, heq⟩ | ⟨htag, heq, hv, hw⟩ | ⟨htag, heq, hv, hw⟩
  · rw [if_pos hne, heq, if_neg fun h => hne h.1]
  · rw [if_neg (not_not.2 htag), Tag.order, isEmpty_pre, isEmpty_pre, if_neg (by simp [hv]),
      order_pre_of_nil v w hv hw, if_pos ⟨heq, hv⟩]
    rfl
  · rw [if_neg (not_not.2 htag), Tag.order, isEmpty_pre, isEmpty_pre, if_pos (by simp [hv, hw]),
      orderPre_eq v w hv hw, if_neg fun h => hv h.2, heq]

theorem pre_nil_iff (h : v.semver.precedence w.semver = .eq) :
    v.semver.pre = [] ↔ w.semver.pre = [] := by
  rcases orderWithoutTag_cases v w with ⟨hne, heq⟩ | ⟨-, -, hv, hw⟩ | ⟨-, -, hv, hw⟩
  · exact absurd (heq.symm.trans h) hne
  · exact iff_of_true hv hw
  · exact iff_of_false hv hw

theorem order_of_build (hbl : v.semver.buildText = w.semver.buildText) :
    v.order w = some (v.semver.precedence w.semver) := by
  have hv := v.build
  rw [hbl] at hv
  rw [order_eq, ExternalString.order_self hv w.build]
  split_ifs with h
  · rw [h.1]
  · rfl

theorem order_swap : v.order w = (w.order v).map Ordering.swap := by
  have hsw : v.semver.precedence w.semver = (w.semver.precedence v.semver).swap :=
    Std.OrientedCmp.eq_swap
  have hcn : (v.semver.precedence w.semver = .eq ∧ v.semver.pre = []) ↔
      w.semver.precedence v.semver = .eq ∧ w.semver.pre = [] := by
    constructor
    · rintro ⟨heq, hv⟩
      exact ⟨by simpa [heq] using hsw.symm, (pre_nil_iff v w heq).1 hv⟩
    · rintro ⟨heq, hw⟩
      exact ⟨by simpa [heq] using hsw, (pre_nil_iff w v heq).1 hw⟩
  rw [order_eq, order_eq]
  simp only [hcn]
  split_ifs
  · exact ExternalString.order_swap v.build w.build
  · exact congrArg some hsw

def HashApart : Prop :=
  stringHash v.semver.buildText = stringHash w.semver.buildText →
    v.semver.buildText = w.semver.buildText

theorem order_eq_fullOrder (h : v.HashApart w) :
    v.order w = some (v.semver.fullOrder w.semver) := by
  rw [order_eq, ExternalString.order_eq v.build w.build h, SemVer.fullOrder, compareLex, compareOn,
    SemVer.comparedBuild, SemVer.comparedBuild]
  by_cases heq : v.semver.precedence w.semver = .eq
  · by_cases hv : v.semver.pre = []
    · rw [if_pos ⟨heq, hv⟩, heq, if_pos hv, if_pos ((pre_nil_iff v w heq).1 hv)]
      rfl
    · rw [if_neg fun h => hv h.2, heq, if_neg hv,
        if_neg fun hw => hv ((pre_nil_iff v w heq).2 hw)]
      rfl
  · rw [if_neg fun h => heq h.1]
    rcases hpr : v.semver.precedence w.semver with _ | _ | _
    · rfl
    · exact absurd hpr heq
    · rfl

end StoredVersion

namespace SemVer

variable (v : SemVer)

/-- The version is parsed back, and its numeric identifiers fit. -/
structure Fits : Prop where
  text : v.text.length < 2 ^ 32
  pre : v.preText.length < 2 ^ 31
  build : v.buildText.length < 2 ^ 31
  numeric : ∀ s ∈ v.pre, IsNumeric s → numericValue s < 2 ^ 64

theorem preText_eq_nil : v.preText = [] ↔ v.pre = [] := by
  constructor
  · intro h
    by_contra hpre
    exact intercalate_ne_nil (fun s hs => (v.pre_valid s hs).1) hpre h
  · intro h
    rw [preText, h]
    rfl

theorem buildText_eq_nil : v.buildText = [] ↔ v.build = [] := by
  constructor
  · intro h
    by_contra hbl
    exact intercalate_ne_nil v.build_valid hbl h
  · intro h
    rw [buildText, h]
    rfl

theorem reads_pre (h : v.Fits) : (v.tagAt v.coreText.length).pre.Reads v.text v.preText where
  slice := (v.slice_pre h.text).2 h.pre
  isEmpty_eq := by
    rw [(v.isEmpty_tagAt _).1]
    exact decide_eq_decide.2 v.preText_eq_nil.symm
  hash := by
    rw [tagAt]
    simp only
    split_ifs with hpre
    · exact Or.inr ⟨v.preText_eq_nil.2 hpre, rfl⟩
    · exact Or.inl rfl

theorem reads_build (h : v.Fits) :
    (v.tagAt v.coreText.length).build.Reads v.text v.buildText where
  slice := (v.slice_build h.text).2 h.build
  isEmpty_eq := by
    rw [(v.isEmpty_tagAt _).2]
    exact decide_eq_decide.2 v.buildText_eq_nil.symm
  hash := by
    rw [tagAt]
    simp only
    split_ifs with hbl
    · exact Or.inr ⟨v.buildText_eq_nil.2 hbl, rfl⟩
    · exact Or.inl rfl

def stored (h : v.Fits) : StoredVersion where
  version := ⟨v.major, v.minor, v.patch, v.tagAt v.coreText.length⟩
  buf := v.text
  semver := v
  major := rfl
  minor := rfl
  patch := rfl
  pre := v.reads_pre h
  build := v.reads_build h
  numeric_lt := h.numeric

end SemVer

/-- The order without builds is the precedence, and the builds only refine it. -/
structure RefinesPrecedence (a b : StoredVersion) : Prop where
  precedence : a.orderWithoutBuild b = some (a.semver.precedence b.semver)
  total : ∃ ab, a.order b = some ab
  refines : a.semver.precedence b.semver ≠ .eq → a.order b = a.orderWithoutBuild b
  only_build : a.semver.buildText = b.semver.buildText → a.order b = a.orderWithoutBuild b
  refl : a.order a = some .eq
  swap : a.order b = (b.order a).map Ordering.swap

def TransitiveAt (a b c : StoredVersion) : Prop :=
  ∀ ab bc, a.order b = some ab → b.order c = some bc → ab.isLE → bc.isLE →
    ∃ ac, a.order c = some ac ∧ ac.isLE

/-- The order refines the precedence, and is transitive where the hash keeps the builds apart. -/
theorem order_preorder (a b c : StoredVersion) : RefinesPrecedence a b
    ∧ (a.HashApart b → b.HashApart c → a.HashApart c → TransitiveAt a b c) := by
  refine ⟨⟨a.orderWithoutBuild_eq b, ?_, ?_, ?_, ?_, a.order_swap b⟩, ?_⟩
  · rw [a.order_eq, ExternalString.order_slices a.build b.build]
    split_ifs <;> exact ⟨_, rfl⟩
  · intro hne
    rw [a.order_eq, if_neg fun h => hne h.1, a.orderWithoutBuild_eq]
  · intro hbuild
    rw [a.order_of_build b hbuild, a.orderWithoutBuild_eq]
  · rw [a.order_of_build a rfl]
    exact congrArg some Std.ReflCmp.compare_self
  · intro hab hbc hac o o' ho ho' hle hle'
    rw [a.order_eq_fullOrder b hab, some.injEq] at ho
    rw [b.order_eq_fullOrder c hbc, some.injEq] at ho'
    subst ho ho'
    exact ⟨_, a.order_eq_fullOrder c hac, Std.TransCmp.isLE_trans hle hle'⟩

/-- `1.0.0` with a build. -/
def release (build : List UInt8) (h : IsIdentifier build) : SemVer where
  major := 1
  minor := 0
  patch := 0
  pre := []
  build := [build]
  numbers_lt := one_zero_zero_lt
  pre_valid := forall_mem_nil_valid
  build_valid := fun _ hs => List.mem_singleton.1 hs ▸ h

theorem release_fits {build : List UInt8} (h : IsIdentifier build) (hlt : build.length < 2 ^ 16) :
    (release build h).Fits := by
  have hlength : (release build h).text.length = build.length + 6 := by
    simp [SemVer.text, SemVer.coreText, SemVer.tagText, SemVer.buildText, release, print,
      printDigits]
  refine ⟨by omega, by simp [SemVer.preText, release], ?_, fun s hs => absurd hs not_mem_nil⟩
  rw [SemVer.buildText, release, intercalate_singleton]
  omega

def storedRelease (build : List UInt8) (h : IsIdentifier build) (hlt : build.length < 2 ^ 16) :
    StoredVersion := (release build h).stored (release_fits h hlt)

/-- `1.0.0-rc.2` -/
def releaseCandidate : SemVer where
  major := 1
  minor := 0
  patch := 0
  pre := [[114, 99], [50]]
  build := []
  numbers_lt := one_zero_zero_lt
  pre_valid s hs := by
    rw [mem_cons, mem_singleton] at hs
    rcases hs with rfl | rfl
    · exact ⟨by decide +kernel, fun _ h => absurd h (by decide)⟩
    · exact ⟨by decide +kernel, fun _ h => absurd h (by decide)⟩
  build_valid _ hs := absurd hs not_mem_nil

def storedCandidate : StoredVersion :=
  releaseCandidate.stored ⟨by decide +kernel, by decide +kernel, by decide +kernel, by decide +kernel⟩

/-- A prerelease, and the builds `5` and `6` of what it is for. -/
theorem order_preorder_releases :
    RefinesPrecedence storedCandidate (storedRelease [53] (by decide +kernel) (by decide +kernel))
      ∧ TransitiveAt storedCandidate
        (storedRelease [53] (by decide +kernel) (by decide +kernel))
        (storedRelease [54] (by decide +kernel) (by decide +kernel)) := by
  obtain ⟨hrefines, htrans⟩ := order_preorder storedCandidate
    (storedRelease [53] (by decide +kernel) (by decide +kernel))
    (storedRelease [54] (by decide +kernel) (by decide +kernel))
  refine ⟨hrefines, htrans (fun h => absurd h ?_) (fun h => absurd h ?_) fun h => absurd h ?_⟩
  · decide +kernel
  · decide +kernel
  · decide +kernel

/-- `d02fa8b7d54871c0` -/
def collidingBuild : StoredVersion :=
  storedRelease [100, 48, 50, 102, 97, 56, 98, 55, 100, 53, 52, 56, 55, 49, 99, 48] (by decide +kernel)
    (by decide +kernel)

/-- `338f904d47248a5d`, which has the same hash. -/
def collidingBuild' : StoredVersion :=
  storedRelease [51, 51, 56, 102, 57, 48, 52, 100, 52, 55, 50, 52, 56, 97, 53, 100] (by decide +kernel)
    (by decide +kernel)

/-- Two builds of one hash, and a third between their texts. -/
theorem order_not_transitive : ¬ ∀ a b c, RefinesPrecedence a b ∧ TransitiveAt a b c := by
  intro h
  obtain ⟨ac, hac, hle⟩ := (h collidingBuild collidingBuild'
    (storedRelease [53] (by decide +kernel) (by decide +kernel))).2 .eq .lt (by decide +kernel)
      (by decide +kernel) rfl rfl
  have horder : collidingBuild.order (storedRelease [53] (by decide +kernel) (by decide +kernel)) = some .gt := by
    decide +kernel
  rw [horder, some.injEq] at hac
  rw [← hac] at hle
  cases hle

end Cruller.Semver
