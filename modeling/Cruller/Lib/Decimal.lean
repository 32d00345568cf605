import Mathlib.Tactic

/-!
# Decimal numbers as text

Printing a natural number and reading an unsigned one of so many bits, as Zig's `std.fmt` does:
`parseInt` takes a sign, and underscores between digits.
-/

namespace Cruller.Decimal

open List

/-- The digits of `n`, of which there are at most `fuel`. -/
def printDigits : ℕ → ℕ → List UInt8
  | 0, _ => []
  | fuel + 1, n =>
    if n < 10 then [UInt8.ofNat (48 + n)]
    else printDigits fuel (n / 10) ++ [UInt8.ofNat (48 + n % 10)]

/-- The decimal digits of a number. -/
def print (n : ℕ) : List UInt8 := printDigits (n + 1) n

/-- The value of a digit. -/
def charToDigit (c : UInt8) : Option ℕ := if 48 ≤ c ∧ c ≤ 57 then some (c.toNat - 48) else none

/-- Digits with underscores among them. -/
def readDigits (buf : List UInt8) : Option ℕ :=
  (buf.filter (· ≠ 95)).foldlM (fun accumulate c => (accumulate * 10 + ·) <$> charToDigit c) 0

/-- A negative number is none of an unsigned type, `-0` apart. -/
def parseIntWithSign (bits : ℕ) (buf : List UInt8) (negative : Bool) : Option ℕ :=
  if buf = [] ∨ buf.head? = some 95 ∨ buf.getLast? = some 95 then none
  else (readDigits buf).filter fun n => if negative then n = 0 else n < 2 ^ bits

/-- `std.fmt.parseInt` of an unsigned type of so many bits, to the base ten. -/
def parseInt (bits : ℕ) : List UInt8 → Option ℕ
  | [] => none
  | c :: buf =>
    if c = 43 then parseIntWithSign bits buf false
    else if c = 45 then parseIntWithSign bits buf true
    else parseIntWithSign bits (c :: buf) false

def IsDigit (c : UInt8) : Prop := 48 ≤ c ∧ c ≤ 57

instance : DecidablePred IsDigit := fun _ => inferInstanceAs (Decidable (_ ∧ _))

variable {n d fuel : ℕ}

theorem toNat_digit (h : d < 10) : (UInt8.ofNat (48 + d)).toNat = 48 + d := by
  rw [UInt8.toNat_ofNat']
  omega

theorem isDigit_digit (h : d < 10) : IsDigit (UInt8.ofNat (48 + d)) := by
  have := toNat_digit h
  rw [IsDigit, UInt8.le_iff_toNat_le, UInt8.le_iff_toNat_le, this]
  exact ⟨by simp, by simp; omega⟩

theorem charToDigit_digit (h : d < 10) : charToDigit (UInt8.ofNat (48 + d)) = some d := by
  refine (if_pos (isDigit_digit h)).trans ?_
  rw [toNat_digit h, Nat.add_sub_cancel_left]

theorem printDigits_ne_nil (h : n < fuel) : printDigits fuel n ≠ [] := by
  cases fuel with
  | zero => cases h
  | succ fuel =>
    rw [printDigits]
    split_ifs <;> simp

theorem isDigit_of_mem : ∀ c ∈ printDigits fuel n, IsDigit c := by
  induction fuel generalizing n with
  | zero => simp [printDigits]
  | succ fuel ih =>
    intro c hc
    rw [printDigits] at hc
    split_ifs at hc with hn
    · rw [mem_singleton.1 hc]
      exact isDigit_digit hn
    · rcases mem_append.1 hc with hc | hc
      · exact ih c hc
      · rw [mem_singleton.1 hc]
        exact isDigit_digit (by omega)

theorem isDigit_of_mem_print {c : UInt8} (h : c ∈ print n) : IsDigit c :=
  isDigit_of_mem c h

theorem print_ne_nil (n : ℕ) : print n ≠ [] := printDigits_ne_nil (Nat.lt_succ_self n)

theorem IsDigit.ne {c : UInt8} (h : IsDigit c) {x : UInt8} (hx : ¬ IsDigit x) : c ≠ x := by
  rintro rfl
  exact hx h

theorem filter_of_digits {buf : List UInt8} (h : ∀ c ∈ buf, IsDigit c) :
    buf.filter (· ≠ 95) = buf :=
  filter_eq_self.2 fun c hc => decide_eq_true ((h c hc).ne (by decide))

theorem readDigits_append {buf : List UInt8} (h : ∀ c ∈ buf, IsDigit c) {m : ℕ} (hd : d < 10)
    (hrd : readDigits buf = some m) :
    readDigits (buf ++ [UInt8.ofNat (48 + d)]) = some (m * 10 + d) := by
  have hdg := isDigit_digit hd
  have hrd' := charToDigit_digit hd
  generalize UInt8.ofNat (48 + d) = last at *
  have hls : ∀ c ∈ buf ++ [last], IsDigit c := by
    intro c hc
    rcases mem_append.1 hc with hc | hc
    · exact h c hc
    · rw [mem_singleton.1 hc]
      exact hdg
  rw [readDigits, filter_of_digits h] at hrd
  rw [readDigits, filter_of_digits hls, foldlM_append, hrd]
  simp [hrd']

theorem readDigits_printDigits (h : n < fuel) :
    readDigits (printDigits fuel n) = some n := by
  induction fuel generalizing n with
  | zero => cases h
  | succ fuel ih =>
    rw [printDigits]
    split_ifs with hn
    · have hnil : readDigits [] = some 0 := rfl
      have := readDigits_append (fun c hc => by cases hc) hn hnil
      simpa using this
    · have hls : n % 10 < 10 := by omega
      have hrs : n / 10 < fuel := by omega
      rw [readDigits_append isDigit_of_mem hls (ih hrs), Nat.div_add_mod' n 10]

theorem parseInt_print {bits : ℕ} (h : n < 2 ^ bits) : parseInt bits (print n) = some n := by
  have hne := print_ne_nil n
  have hdg : ∀ c ∈ print n, IsDigit c := fun c hc => isDigit_of_mem_print hc
  have hpl : parseIntWithSign bits (print n) false = some n := by
    rw [parseIntWithSign, if_neg, show readDigits (print n) = some n from
      readDigits_printDigits (Nat.lt_succ_self n)]
    · simp [h]
    · rintro (hnil | hhd | hls)
      · exact hne hnil
      · exact (hdg 95 (mem_of_mem_head? hhd)).ne (by decide) rfl
      · exact (hdg 95 (mem_of_getLast? hls)).ne (by decide) rfl
  cases hpr : print n with
  | nil => exact absurd hpr hne
  | cons c buf =>
    have hc := hdg c (hpr ▸ mem_cons_self)
    rw [parseInt, if_neg (hc.ne (by decide)), if_neg (hc.ne (by decide)), ← hpr, hpl]

theorem length_print (h : n < 100) : (print n).length ≤ 2 := by
  rw [print, printDigits]
  split_ifs with hn
  · simp
  · obtain ⟨m, rfl⟩ : ∃ m, n = m + 1 := ⟨n - 1, by omega⟩
    rw [printDigits, if_pos (by omega)]
    simp

end Cruller.Decimal
