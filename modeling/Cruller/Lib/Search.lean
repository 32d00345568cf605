import Mathlib.Tactic

/-!
# Searching for a boundary

Binary search in its two loop forms, between two ends (`bisect`) and by a count of what is left
(`bisectCount`). Each asks a test that may fail, and each finds the place where the answers turn
from yes to no.

In a list where a test, once failed, fails from there on (`Turns`), what passes is the first
`countP` elements. Where such a list is cut into pieces, the last element that passes lies in the
last piece whose head does (`getLast?_filter_pieces`).
-/

namespace Cruller

open List Option

/-- `while (lo < hi)`, by halving; `n` bounds the rounds. -/
def bisect (le : ℕ → Option Bool) : ℕ → ℕ → ℕ → Option ℕ
  | 0, lo, _ => some lo
  | n + 1, lo, hi =>
    if lo < hi then
      let mid := lo + (hi - lo) / 2
      (le mid).bind fun b => if b then bisect le n (mid + 1) hi else bisect le n lo mid
    else some lo

/-- `while (count > 0)`, by halving; `n` bounds the rounds. -/
def bisectCount (le : ℕ → Option Bool) : ℕ → ℕ → ℕ → Option ℕ
  | 0, index, _ => some index
  | n + 1, index, count =>
    if 0 < count then
      let step := count / 2
      let i := index + step
      (le i).bind fun b =>
        if b then bisectCount le n (i + 1) (count - (step + 1)) else bisectCount le n index step
    else some index

section

variable {le : ℕ → Option Bool} {b m : ℕ}

theorem bisect_eq (hle : ∀ i < m, le i = some (decide (i < b))) :
    ∀ {n lo hi : ℕ}, hi - lo ≤ n → lo ≤ b → b ≤ hi → hi ≤ m → bisect le n lo hi = some b
  | 0, lo, hi, hn, hlo, hhi, _ => by rw [bisect, show lo = b by omega]
  | n + 1, lo, hi, hn, hlo, hhi, hm => by
    rw [bisect]
    by_cases h : lo < hi
    · rw [if_pos h]
      simp only
      rw [hle _ (by omega), bind_some]
      by_cases hb : lo + (hi - lo) / 2 < b
      · rw [if_pos (decide_eq_true hb), bisect_eq hle (by omega) (by omega) hhi hm]
      · rw [if_neg (by simpa using hb), bisect_eq hle (by omega) hlo (by omega) (by omega)]
    · rw [if_neg h, show lo = b by omega]

theorem bisect_le {n lo hi r : ℕ} (h : bisect le n lo hi = some r) (hlo : lo ≤ hi) :
    lo ≤ r ∧ r ≤ hi ∧ (r = lo ∨ le (r - 1) = some true) := by
  induction n generalizing lo hi with
  | zero =>
    obtain rfl := some.inj h
    exact ⟨le_rfl, hlo, Or.inl rfl⟩
  | succ n ih =>
    rw [bisect] at h
    split_ifs at h with hlt
    · simp only [bind_eq_some_iff] at h
      obtain ⟨b, hb, h⟩ := h
      split_ifs at h with hyes
      · obtain ⟨h1, h2, h3⟩ := ih h (by omega)
        refine ⟨by omega, h2, Or.inr ?_⟩
        rcases h3 with rfl | h3
        · rw [Nat.add_sub_cancel, hb, hyes]
        · exact h3
      · obtain ⟨h1, h2, h3⟩ := ih h (by omega)
        exact ⟨h1, by omega, h3⟩
    · obtain rfl := some.inj h
      exact ⟨le_rfl, hlo, Or.inl rfl⟩

theorem exists_bisect {n lo hi : ℕ} (hle : ∀ i < hi, (le i).isSome) :
    ∃ r, bisect le n lo hi = some r := by
  induction n generalizing lo hi with
  | zero => exact ⟨lo, rfl⟩
  | succ n ih =>
    rw [bisect]
    split
    · obtain ⟨b, hb⟩ := isSome_iff_exists.1 (hle (lo + (hi - lo) / 2) (by omega))
      simp only [hb, bind_some]
      split
      · exact ih hle
      · exact ih fun i hi' => hle i (by omega)
    · exact ⟨lo, rfl⟩

theorem bisectCount_eq (hle : ∀ i < m, le i = some (decide (i < b))) :
    ∀ {n index count : ℕ}, count ≤ n → index ≤ b → b ≤ index + count → index + count ≤ m →
      bisectCount le n index count = some b
  | 0, index, count, hn, hlo, hhi, _ => by rw [bisectCount, show index = b by omega]
  | n + 1, index, count, hn, hlo, hhi, hm => by
    rw [bisectCount]
    by_cases h : 0 < count
    · rw [if_pos h]
      simp only
      rw [hle _ (by omega), bind_some]
      by_cases hb : index + count / 2 < b
      · rw [if_pos (decide_eq_true hb)]
        exact bisectCount_eq hle (by omega) (by omega) (by omega) (by omega)
      · rw [if_neg (by simpa using hb)]
        exact bisectCount_eq hle (by omega) hlo (by omega) (by omega)
    · rw [if_neg h, show index = b by omega]

end

variable {α : Type*} {p : α → Bool} {l l' : List α} {i : ℕ}

/-- What fails is followed by nothing that passes. -/
def Turns (p : α → Bool) (l : List α) : Prop := l.Pairwise fun a b => p b → p a

theorem Turns.filter (h : Turns p l) : l.filter p = l.take (l.countP p) := by
  induction l with
  | nil => simp
  | cons a l ih =>
    rw [Turns, pairwise_cons] at h
    by_cases ha : p a
    · rw [filter_cons_of_pos ha, countP_cons_of_pos ha, take_succ_cons, ih h.2]
    · have hl : ∀ b ∈ l, ¬p b := fun b hb hpb => ha (h.1 b hb hpb)
      rw [filter_cons_of_neg ha, countP_cons_of_neg ha, filter_eq_nil_iff.2 hl,
        countP_eq_zero.2 hl, take_zero]

theorem Turns.getElem (h : Turns p l) (hi : i < l.length) :
    p l[i] = decide (i < l.countP p) := by
  induction l generalizing i with
  | nil => simp at hi
  | cons a l ih =>
    rw [Turns, pairwise_cons] at h
    by_cases ha : p a
    · rw [countP_cons_of_pos ha]
      rcases i with _ | i
      · simpa using ha
      · rw [getElem_cons_succ, ih h.2 (by simpa using hi)]
        simp
    · have hl : ∀ b ∈ l, ¬p b := fun b hb hpb => ha (h.1 b hb hpb)
      rw [countP_cons_of_neg ha, countP_eq_zero.2 hl]
      rcases i with _ | i
      · simpa using ha
      · simpa using hl _ (getElem_mem (by simpa using hi))

theorem Turns.getLast?_filter (h : Turns p l) :
    (l.filter p).getLast? = if l.countP p = 0 then none else l[l.countP p - 1]? := by
  rw [h.filter, getLast?_take]
  by_cases h0 : l.countP p = 0
  · rw [if_pos h0, if_pos h0]
  · have hle : l.countP p ≤ l.length := countP_le_length
    rw [if_neg h0, if_neg h0, getElem?_eq_getElem (by omega), some_or]

theorem Turns.append_left (h : Turns p (l ++ l')) : Turns p l := (pairwise_append.1 h).1

theorem Turns.append_right (h : Turns p (l ++ l')) : Turns p l' := (pairwise_append.1 h).2.1

theorem Turns.filter_cons {a : α} (h : Turns p (a :: l)) (ha : ¬p a) : (a :: l).filter p = [] := by
  refine filter_eq_nil_iff.2 (forall_mem_cons.2 ⟨ha, fun b hb hpb => ?_⟩)
  exact ha ((pairwise_cons.1 h).1 b hb hpb)

theorem Turns.filter_right {a : α} (h : Turns p (l ++ l')) (ha : a ∈ l) (hp : ¬p a) :
    l'.filter p = [] :=
  filter_eq_nil_iff.2 fun b hb hpb => hp ((pairwise_append.1 h).2.2 a ha b hb hpb)

/-- Pieces, each with the letter before it. -/
def pieces (ps : List (α × List α)) : List α := ps.flatMap fun w => w.1 :: w.2

theorem pieces_cons (w : α × List α) (ps : List (α × List α)) :
    pieces (w :: ps) = (w.1 :: w.2) ++ pieces ps := flatMap_cons

theorem foldlM_pieces {β : Type} (f : β → α → Option β) (ps : List (α × List α)) (acc : β) :
    (pieces ps).foldlM f acc = ps.foldlM (fun acc w => (w.1 :: w.2).foldlM f acc) acc := by
  induction ps generalizing acc with
  | nil => rfl
  | cons w ps ih =>
    rw [pieces_cons, foldlM_append, foldlM_cons]
    congr 1
    funext acc
    exact ih acc

theorem map_fst_sublist_pieces (ps : List (α × List α)) :
    (ps.map Prod.fst).Sublist (pieces ps) := by
  induction ps with
  | nil => exact Sublist.refl _
  | cons w ps ih =>
    rw [map_cons, pieces_cons, cons_append]
    exact (ih.trans (sublist_append_right _ _)).cons_cons _

variable {ps : List (α × List α)}

theorem sublist_pieces {w : α × List α} (h : w ∈ ps) :
    (w.1 :: w.2).Sublist (pieces ps) := by
  rw [pieces, flatMap_def]
  exact sublist_flatten_of_mem (List.mem_map_of_mem h)

theorem Turns.heads (h : Turns p (pieces ps)) :
    Turns p (ps.map Prod.fst) := h.sublist (map_fst_sublist_pieces ps)

/-- The last to pass lies in the last piece whose head passes. -/
theorem getLast?_filter_pieces (h : Turns p (pieces ps)) :
    ((pieces ps).filter p).getLast? =
      if (ps.map Prod.fst).countP p = 0 then none
      else (ps[(ps.map Prod.fst).countP p - 1]?).bind
        fun w => ((w.1 :: w.2).filter p).getLast? := by
  induction ps with
  | nil => simp [pieces]
  | cons w ps ih =>
    rw [pieces_cons] at h ⊢
    by_cases hw : p w.1
    · rw [filter_append, getLast?_append, ih h.append_right, map_cons,
        countP_cons_of_pos hw, if_neg (Nat.succ_ne_zero _), Nat.add_sub_cancel]
      by_cases h0 : (ps.map Prod.fst).countP p = 0
      · rw [if_pos h0, h0, none_or, getElem?_cons_zero, bind_some]
      · -- the piece found further right has a head that passes, so something of it does
        obtain ⟨k, hk⟩ : ∃ k, (ps.map Prod.fst).countP p = k + 1 := ⟨_, (Nat.succ_pred h0).symm⟩
        have hlen : k < ps.length := by
          have := countP_le_length (p := p) (l := ps.map Prod.fst)
          rw [length_map] at this
          omega
        have hhd := (Turns.heads h.append_right).getElem (i := k) (by simpa using hlen)
        rw [hk, getElem_map, decide_eq_true (Nat.lt_succ_self k)] at hhd
        rw [if_neg h0, hk, Nat.add_sub_cancel, getElem?_cons_succ,
          getElem?_eq_getElem hlen, bind_some, filter_cons_of_pos hhd,
          getLast?_cons, some_or]
    · have hnil : ((w.1 :: w.2) ++ pieces ps).filter p = [] := by
        rw [filter_append, h.filter_right (mem_cons_self) hw, append_nil,
          h.append_left.filter_cons hw]
      have hhs : ∀ b ∈ ps.map Prod.fst, ¬p b := fun b hb hpb =>
        hw ((pairwise_append.1 h).2.2 _ mem_cons_self b
          ((map_fst_sublist_pieces ps).subset hb) hpb)
      rw [hnil, map_cons, countP_cons_of_neg hw, countP_eq_zero.2 hhs,
        if_pos rfl, getLast?_nil]

end Cruller
