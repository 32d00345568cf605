import Cruller.Glob.Progress

/-!
# The matcher terminates

A run is measured by six digits. A run that can still go back to a wildcard counts first; then the
place of the `**`, what it leaves of the path, the place of the `*` or of what comes before the next
one, what that leaves of the path, and what is left of the pattern. Every turn makes the first digit
that changes smaller (`Sound.turn`).
-/

namespace Cruller.Glob

/-- Digits in base `base`, the highest first. -/
def ofDigits (base : ℕ) (digits : List ℕ) (n : ℕ) : ℕ :=
  digits.foldl (fun n digit => n * base + digit) n

theorem ofDigits_lt {base : ℕ} : ∀ {l l' : List ℕ} {n n' : ℕ}, l.length = l'.length →
    (∀ digit ∈ l, digit < base) → n < n' ∨ n = n' ∧ l < l' → ofDigits base l n < ofDigits base l' n'
  | [], [], _, _, _, _, h => by simpa [ofDigits] using h
  | digit :: l, digit' :: l', n, n', hlen, hbs, h => by
    have hdg := hbs digit (by simp)
    refine @ofDigits_lt base l l' (n * base + digit) (n' * base + digit')
      (Nat.succ_injective hlen) (fun d hd => hbs d (by simp [hd])) ?_
    rcases h with hlt | ⟨rfl, hlt⟩
    · left
      calc n * base + digit < (n + 1) * base := by rw [Nat.succ_mul]; omega
        _ ≤ n' * base := Nat.mul_le_mul_right _ hlt
        _ ≤ n' * base + digit' := Nat.le_add_right _ _
    · rcases List.cons_lt_cons_iff.1 hlt with hd | ⟨rfl, hrs⟩
      · exact Or.inl (by omega)
      · exact Or.inr ⟨rfl, hrs⟩

theorem ofDigits_bound {base : ℕ} : ∀ {l : List ℕ} {n : ℕ}, (∀ digit ∈ l, digit < base) →
    ofDigits base l n < (n + 1) * base ^ l.length
  | [], n, _ => by simp [ofDigits]
  | digit :: l, n, h => by
    have hdg := h digit (by simp)
    calc ofDigits base l (n * base + digit)
        < (n * base + digit + 1) * base ^ l.length := ofDigits_bound fun d hd => h d (by simp [hd])
      _ ≤ ((n + 1) * base) * base ^ l.length :=
        Nat.mul_le_mul_right _ (by rw [Nat.succ_mul]; omega)
      _ = (n + 1) * base ^ (digit :: l).length := by rw [List.length_cons, pow_succ']; ring

variable {glob path : Slice} {glob_start : ℕ}

theorem GlobstarAt.star {j : ℕ} (h : GlobstarAt glob glob_start j) :
    j < glob.len ∧ glob.ptr j = '*'.toUInt8 :=
  ⟨Nat.lt_of_succ_lt h.1.lt, h.1.first⟩

namespace State

/-- No wildcard is gone back to any more. -/
def Spent (path : Slice) (state : State) : Prop :=
  path.len ≤ state.path_index ∧ path.len < state.wildcard.path_index

instance (path : Slice) (state : State) : Decidable (Spent path state) :=
  inferInstanceAs (Decidable (_ ∧ _))

/-- The run stands at the wildcard and has it take more. -/
def At (state : State) (w : Wildcard) : Prop :=
  0 < w.path_index ∧ state.glob_index = w.glob_index ∧ state.path_index = w.path_index

instance (state : State) (w : Wildcard) : Decidable (state.At w) :=
  inferInstanceAs (Decidable (_ ∧ _))

/-- What a wildcard leaves of the path, and whether it is about to take more. -/
def room (path : Slice) (state : State) (w : Wildcard) : ℕ :=
  2 * (path.len + 2 - w.path_index) - if state.At w then 1 else 0

/-- What gets smaller with each turn, the most important first. -/
def digits (glob path : Slice) (state : State) : List ℕ :=
  if state.Spent path then [0, 0, 0, 0, 0, glob.len - state.glob_index]
  else [1, glob.len - state.globstar.glob_index, room path state state.globstar,
    glob.len - if state.wildcard = state.globstar then state.glob_index
      else state.wildcard.glob_index,
    if state.wildcard = state.globstar then 2 * (path.len + 2) + 1
      else room path state state.wildcard,
    glob.len - state.glob_index]

theorem digit_lt (state : State) :
    ∀ digit ∈ state.digits glob path, digit < glob.len + 2 * path.len + 6 := by
  intro digit hdg
  rw [digits] at hdg
  split_ifs at hdg <;> simp only [List.mem_cons, List.not_mem_nil, or_false, room] at hdg <;>
    omega

/-- The saved places are not behind the state. -/
structure Sound (glob path : Slice) (glob_start : ℕ) (state : State) : Prop where
  globstar_le : state.globstar.glob_index ≤ state.wildcard.glob_index
  wildcard_le : state.wildcard.glob_index ≤ state.glob_index
  star : 0 < state.wildcard.path_index →
    state.wildcard.glob_index < glob.len ∧ glob.ptr state.wildcard.glob_index = '*'.toUInt8
  globstar : 0 < state.globstar.path_index → GlobstarAt glob glob_start state.globstar.glob_index
  at_wildcard : state.wildcard ≠ state.globstar → state.glob_index = state.wildcard.glob_index →
    state.path_index = state.wildcard.path_index
  at_globstar : 0 < state.globstar.path_index → state.glob_index = state.globstar.glob_index →
    state.path_index = state.globstar.path_index
  same_place : state.wildcard ≠ state.globstar → 0 < state.globstar.path_index →
    state.wildcard.glob_index = state.globstar.glob_index → path.len < state.wildcard.path_index

variable {state next : State} {brace_stack : List Brace} {j : ℕ}

/-- The state goes on behind its wildcards. -/
theorem room_of_lt {w : Wildcard} (h : w.glob_index < state.glob_index) :
    room path state w = 2 * (path.len + 2 - w.path_index) := by
  rw [room, if_neg fun hat => absurd hat.2.1 (by omega), Nat.sub_zero]

theorem room_eq (hnot : ¬ state.At state.globstar)
    (hlt : state.globstar.glob_index < next.glob_index) (hs : next.globstar = state.globstar) :
    room path next next.globstar = room path state state.globstar := by
  rw [room_of_lt (by rwa [hs]), room, if_neg hnot, hs, Nat.sub_zero]

theorem length_digits (state : State) : (state.digits glob path).length = 6 := by
  rw [digits]
  split_ifs <;> rfl

theorem measure_lt (state : State) : ofDigits (glob.len + 2 * path.len + 6)
    (state.digits glob path) 0 < (glob.len + 2 * path.len + 6) ^ 6 := by
  have := @ofDigits_bound _ _ 0 (@digit_lt glob path state)
  rwa [length_digits, Nat.zero_add, Nat.one_mul] at this

theorem digits_lt_of_spent (h : next.Spent path)
    (hlt : state.Spent path → glob.len - next.glob_index < glob.len - state.glob_index) :
    next.digits glob path < state.digits glob path := by
  rw [digits, if_pos h, digits]
  by_cases hsp : state.Spent path
  · simpa [hsp, List.cons_lt_cons_iff] using hlt hsp
  · rw [if_neg hsp]
    exact List.cons_lt_cons_iff.2 (Or.inl Nat.zero_lt_one)

namespace Sound

variable (h : Sound glob path glob_start state)
include h

theorem of_reset (hg : state.glob_index < next.glob_index) (hs : next.globstar = state.globstar)
    (hw : next.wildcard = state.globstar) : Sound glob path glob_start next := by
  have hle := h.globstar_le
  have hle' := h.wildcard_le
  have hsm : next.wildcard = next.globstar := hw.trans hs.symm
  refine ⟨by rw [hsm], ?_, ?_, ?_, fun hne => absurd hsm hne, ?_,
    fun hne => absurd hsm hne⟩
  · rw [hw]
    omega
  · rw [hw]
    exact fun hpos => (h.globstar hpos).star
  · rw [hs]
    exact h.globstar
  · rw [hs]
    exact fun _ hat => absurd hat (by omega)

/-- A wildcard is set, or the one of the `**` is taken up again. -/
theorem of_star (hj : Stars glob path glob_start state next j)
    (hsm : GlobstarAt glob glob_start state.glob_index → j = state.glob_index) :
    Sound glob path glob_start next ∧ next.digits glob path < state.digits glob path := by
  have hle := h.globstar_le
  have hle' := h.wildcard_le
  have hlt := hj.lt
  have hjle := hj.le
  have hin := hj.inside
  have hp := hj.path_index
  -- a run that stands at the `**` is here to have it take more
  have hat : state.At state.globstar →
      GlobstarAt glob glob_start j ∧ state.path_index = state.globstar.path_index := by
    rintro ⟨hpos, hg, hp⟩
    have hgl := h.globstar hpos
    rw [← hg] at hgl
    rw [hsm hgl]
    exact ⟨hgl, hp⟩
  rcases hj.wildcard with ⟨step, hst, -, hw, hs, hnot⟩ | ⟨hplt, hw, hs, hnot⟩ |
    ⟨q, hq, hgl, hw, hs⟩
  · have hfar : 0 < state.globstar.path_index → j = state.globstar.glob_index →
        path.len ≤ state.path_index := fun hpos hjs => by
      have := h.globstar hpos
      rw [← hjs] at this
      by_contra hlt
      exact hnot ⟨this, by omega⟩
    refine ⟨⟨?_, ?_, fun _ => ?_, ?_, ?_, ?_, ?_⟩, ?_⟩
    all_goals try rw [hw]
    all_goals try rw [hs]
    · dsimp only
      omega
    · exact hlt.le
    · exact ⟨hin, hj.star⟩
    · exact h.globstar
    · exact fun _ hg => absurd hg (by dsimp only; omega)
    · exact fun _ hg => absurd hg (by omega)
    · intro _ hpos hjs
      have := hfar hpos hjs
      dsimp only
      omega
    by_cases hsp : next.Spent path
    · exact digits_lt_of_spent hsp fun _ => by omega
    have hplt : state.path_index < path.len := by
      by_contra hge
      refine hsp ⟨by omega, ?_⟩
      rw [hw]
      dsimp only
      omega
    have hnot' : ¬ state.At state.globstar := fun hs' => hnot ⟨(hat hs').1, hplt⟩
    have hlv : ¬ state.Spent path := fun hs' => absurd hs'.1 (by omega)
    rw [digits, if_neg hsp, digits, if_neg hlv, room_eq hnot' (by omega) hs, hs,
      @room_of_lt path next next.wildcard (by rw [hw]; exact hlt), hw]
    simp only [List.cons_lt_cons_iff, lt_irrefl, true_and, false_or]
    by_cases hsm' : state.wildcard = state.globstar
    · rw [if_pos hsm', if_pos hsm']
      split_ifs <;> omega
    · rw [if_neg hsm', if_neg hsm']
      by_cases hjw : j = state.wildcard.glob_index
      · have hpw := h.at_wildcard hsm' (by omega)
        rw [room]
        split_ifs <;> omega
      · split_ifs <;> omega
  · have hlv : ¬ state.Spent path := fun hs' => absurd hs'.1 (by omega)
    have hsp : ¬ next.Spent path := fun hs' => absurd hs'.1 (by omega)
    have hnot' : ¬ state.At state.globstar := fun hs' => hnot (hat hs').1
    refine ⟨h.of_reset (by omega) hs hw, ?_⟩
    rw [digits, if_neg hsp, digits, if_neg hlv, room_eq hnot' (by omega) hs, hs, hw,
      if_pos rfl]
    simp only [List.cons_lt_cons_iff, lt_irrefl, true_and, false_or]
    left
    split_ifs <;> omega
  · have hrm : room path next next.globstar = 2 * (path.len + 2 - q) := by
      rw [room_of_lt (by rw [hs, hw]; exact hlt), hs, hw]
    refine ⟨⟨?_, ?_, fun _ => ?_, fun _ => ?_, fun hne => ?_, ?_, fun hne => ?_⟩, ?_⟩
    · rw [hs]
    · rw [hw]
      exact hlt.le
    · rw [hw]
      exact ⟨hin, hj.star⟩
    · rw [hs, hw]
      exact hgl
    · exact absurd hs.symm hne
    · rw [hs, hw]
      exact fun _ hg => absurd hg (by dsimp only; omega)
    · exact absurd hs.symm hne
    by_cases hplt : state.path_index < path.len
    · have hlv : ¬ state.Spent path := fun hs' => absurd hs'.1 (by omega)
      have hsp : ¬ next.Spent path := fun hs' => absurd hs'.1 (by omega)
      rw [digits, if_neg hsp, digits, if_neg hlv, hrm, hs, hw]
      simp only [List.cons_lt_cons_iff, lt_irrefl, true_and, false_or]
      by_cases hjs : j = state.globstar.glob_index
      · right
        refine ⟨by rw [hjs], Or.inl ?_⟩
        have hps : 0 < state.globstar.path_index →
          state.path_index = state.globstar.path_index := fun hpos => h.at_globstar hpos (by omega)
        rw [room]
        split_ifs with hs'
        · have := hs'.1
          omega
        · omega
      · omega
    · refine digits_lt_of_spent ⟨by omega, ?_⟩ fun _ => by omega
      rw [hw]
      dsimp only
      omega

/-- Forward in the pattern. -/
theorem of_forward (hg : state.glob_index < glob.len)
    (hst : glob.ptr state.glob_index ≠ '*'.toUInt8) (hlt : state.glob_index < next.glob_index)
    (hp : state.path_index ≤ next.path_index) (hs : next.globstar = state.globstar)
    (hw : next.wildcard = state.wildcard
      ∨ state.path_index < path.len ∧ next.wildcard = state.globstar) :
    Sound glob path glob_start next ∧ next.digits glob path < state.digits glob path := by
  have hle := h.globstar_le
  have hle' := h.wildcard_le
  have hnot : ¬ state.At state.globstar := by
    rintro ⟨hpos, hat, -⟩
    exact hst (hat ▸ (h.globstar hpos).star.2)
  have hrm : room path next next.globstar = _ := room_eq hnot (by omega) hs
  rcases hw with hw | ⟨hplt, hw⟩
  · refine ⟨⟨?_, ?_, ?_, ?_, ?_, ?_, ?_⟩, ?_⟩
    all_goals try rw [hw]
    all_goals try rw [hs]
    · exact hle
    · omega
    · exact h.star
    · exact h.globstar
    · exact fun _ hg => absurd hg (by omega)
    · exact fun _ hg => absurd hg (by omega)
    · exact h.same_place
    by_cases hsp : next.Spent path
    · exact digits_lt_of_spent hsp fun _ => by omega
    have hlv : ¬ state.Spent path := fun hs' => hsp ⟨hs'.1.trans hp, hw ▸ hs'.2⟩
    rw [digits, if_neg hsp, digits, if_neg hlv, hrm, hs,
      @room_of_lt path next next.wildcard (by rw [hw]; omega), hw]
    simp only [List.cons_lt_cons_iff, lt_irrefl, true_and, false_or]
    by_cases hsm : state.wildcard = state.globstar
    · rw [if_pos hsm, if_pos hsm]
      omega
    · have hnot : ¬ state.At state.wildcard := by
        rintro ⟨hpos, hat, -⟩
        exact hst (hat ▸ (h.star hpos).2)
      rw [if_neg hsm, if_neg hsm, if_neg hsm, if_neg hsm, room, if_neg hnot]
      omega
  · refine ⟨h.of_reset hlt hs hw, ?_⟩
    have hlv : ¬ state.Spent path := fun hs' => absurd hs'.1 (by omega)
    by_cases hsp : next.Spent path
    · exact digits_lt_of_spent hsp fun _ => by omega
    rw [digits, if_neg hsp, digits, if_neg hlv, hrm, hs, hw, if_pos rfl]
    simp only [List.cons_lt_cons_iff, lt_irrefl, true_and, false_or]
    left
    split_ifs <;> omega

/-- Back to a wildcard. -/
theorem of_backtrack (hst : state.glob_index < glob.len →
      glob.ptr state.glob_index ≠ '*'.toUInt8)
    (hpos : 0 < state.wildcard.path_index) (hle : state.wildcard.path_index ≤ path.len) :
    Sound glob path glob_start state.backtrack
      ∧ state.backtrack.digits glob path < state.digits glob path := by
  have hlv : ¬ state.Spent path := fun hs => absurd hs.2 (by omega)
  have hsp : ¬ state.backtrack.Spent path := fun hs => absurd hs.2 (by
    dsimp only [backtrack]
    omega)
  have hnot : ¬ state.At state.wildcard := by
    rintro ⟨hpos, hat, -⟩
    obtain ⟨hlt, hptr⟩ := h.star hpos
    exact hst (hat ▸ hlt) (hat ▸ hptr)
  have hnot' : ¬ state.At state.globstar := by
    rintro ⟨hpos, hat, -⟩
    obtain ⟨hlt, hptr⟩ := (h.globstar hpos).star
    exact hst (hat ▸ hlt) (hat ▸ hptr)
  have hat : state.backtrack.At state.wildcard := ⟨hpos, rfl, rfl⟩
  refine ⟨⟨h.globstar_le, le_rfl, h.star, h.globstar, fun _ _ => rfl, fun hso hg => ?_,
    h.same_place⟩, ?_⟩
  · by_cases hsm : state.wildcard = state.globstar
    · exact congrArg Wildcard.path_index hsm
    · have := h.same_place hsm hso hg
      omega
  have htk : room path state.backtrack state.wildcard < room path state state.wildcard := by
    rw [room, if_pos hat, room, if_neg hnot]
    omega
  have hrm : room path state.backtrack state.globstar ≤ room path state state.globstar := by
    rw [room, room, if_neg hnot']
    omega
  have hpl : state.backtrack.wildcard = state.wildcard := rfl
  have hpl' : state.backtrack.globstar = state.globstar := rfl
  rw [digits, if_neg hsp, digits, if_neg hlv, hpl, hpl']
  simp only [List.cons_lt_cons_iff, lt_irrefl, true_and, false_or]
  rcases hrm.lt_or_eq with hlt | heq
  · exact Or.inl hlt
  refine Or.inr ⟨heq, ?_⟩
  by_cases hsm : state.wildcard = state.globstar
  · rw [hsm] at htk
    omega
  · rw [if_neg hsm, if_neg hsm, if_neg hsm, if_neg hsm]
    exact Or.inr ⟨rfl, Or.inl htk⟩

theorem turn (hsc : ∀ brace ∈ brace_stack, brace.open_brace_idx < brace.branch_idx)
    (htr : state.turn glob path glob_start brace_stack = .continue next) :
    Sound glob path glob_start next ∧ next.digits glob path < state.digits glob path := by
  rcases turn_cases htr hsc with ⟨hlt, hst, rfl⟩ | ⟨hlt, hst, hg, hp, -, hs, hw⟩ |
    ⟨hst, hpos, hle, rfl⟩
  · obtain ⟨j, hj, hsm⟩ := stars_star hlt hst
    exact h.of_star hj hsm
  · exact h.of_forward hlt hst hg hp hs hw
  · exact h.of_backtrack hst hpos hle

/-- A branch begins behind the wildcards. -/
theorem branch {branch_index : ℕ} (hlt : state.glob_index < branch_index) (depth : UInt8) :
    Sound glob path branch_index
      { state with glob_index := branch_index, brace_depth := depth } := by
  have hle := h.globstar_le
  have hle' := h.wildcard_le
  refine ⟨hle, ?_, h.star, fun hpos => ?_, fun _ hg => ?_, fun _ hg => ?_, h.same_place⟩
  · dsimp only
    omega
  · obtain ⟨hls, -, hend⟩ := h.globstar hpos
    exact ⟨hls, Or.inl (by dsimp only; omega), hend⟩
  · dsimp only at hg
    omega
  · dsimp only at hg
    omega

end Sound

theorem fallthrough_ne : state.fallthrough path ≠ .matchBrace next := by
  rw [fallthrough]
  split_ifs <;> simp

theorem literal_ne : state.literal glob path ≠ .matchBrace next := by
  rw [literal]
  split_ifs
  · split
    · simp
    · dsimp only
      split
      · simp
      · exact fallthrough_ne
  · exact fallthrough_ne

theorem class_ne : state.class glob path ≠ .matchBrace next := by
  rw [«class»]
  dsimp only
  split
  · simp
  · split_ifs
    · simp
    · exact fallthrough_ne

theorem turn_matchBrace (h : state.turn glob path glob_start brace_stack = .matchBrace next) :
    next = state ∧ state.glob_index < glob.len ∧ glob.ptr state.glob_index = '{'.toUInt8 := by
  rw [State.turn] at h
  by_cases hlt : state.glob_index < glob.len
  swap
  · rw [if_neg hlt] at h
    exact absurd h fallthrough_ne
  rw [if_pos hlt] at h
  dsimp only at h
  by_cases hop : glob.ptr state.glob_index = '{'.toUInt8
  · rw [hop, if_neg (by decide), if_neg (by decide), if_neg (by decide), if_pos rfl, brace] at h
    split at h
    · simp at h
    · exact ⟨(Turn.matchBrace.inj h).symm, hlt, hop⟩
  · split_ifs at h
    all_goals
      first
        | exact absurd h literal_ne
        | exact absurd h fallthrough_ne
        | exact absurd h class_ne

end State

theorem isSome_matchBraceLoop {branch : ℕ → Option Bool} {k : ℕ}
    (hbr : ∀ b, k < b → (branch b).isSome) (n : ℕ) :
    ∀ {i b : ℕ} (depth : Int16) (in_brackets : Bool), k ≤ i → k < b →
      (matchBraceLoop branch glob n i depth in_brackets b).isSome := by
  induction n with
  | zero => exact fun _ _ _ _ => rfl
  | succ n ih =>
    intro i b depth in_brackets hi hb
    rw [matchBraceLoop]
    dsimp only
    split_ifs
    · rfl
    · exact ih _ _ (by omega) (by omega)
    · exact ih _ _ (by omega) hb
    · exact hbr b hb
    · exact ih _ _ (by omega) hb
    · obtain ⟨matched, hmt⟩ := Option.isSome_iff_exists.1 (hbr b hb)
      rw [hmt]
      cases matched with
      | true => rfl
      | false => exact ih _ _ (by omega) (by omega)
    all_goals exact ih _ _ (by omega) hb

theorem isSome_matchBrace {impl : ℕ → State → List Brace → Option Bool} {state : State}
    {brace_stack : List Brace} (hlt : state.glob_index < glob.len)
    (hop : glob.ptr state.glob_index = '{'.toUInt8)
    (hbr : ∀ b, state.glob_index < b →
      (matchBraceBranch impl state state.glob_index b brace_stack).isSome) :
    (matchBrace impl state glob brace_stack).isSome := by
  obtain ⟨n, hn⟩ : ∃ n, glob.len - state.glob_index = n + 1 :=
    ⟨glob.len - state.glob_index - 1, by omega⟩
  rw [matchBrace, hn, matchBraceLoop, if_neg (by omega)]
  dsimp only
  rw [if_pos ⟨hop, rfl⟩]
  exact isSome_matchBraceLoop hbr n _ _ (by omega) (by simp)

/-- Fuel beyond the state's measure is enough, with one more digit for each brace that may still
open. -/
theorem isSome_globMatchImpl {base : ℕ} (hbs : glob.len + 2 * path.len + 6 = base) (n : ℕ) :
    ∀ {k : ℕ} {state : State} {brace_stack : List Brace}, brace_stack.length + k = 10 →
    (∀ brace ∈ brace_stack, brace.open_brace_idx < brace.branch_idx) →
    state.Sound glob path glob_start →
    ofDigits base (state.digits glob path) 0 + k * base ^ 6 < n →
    (globMatchImpl glob path n glob_start state brace_stack).isSome := by
  induction n generalizing glob_start with
  | zero => exact fun _ _ _ h => absurd h (by omega)
  | succ n ih =>
    intro k state brace_stack hk hst hsn hn
    rw [globMatchImpl]
    split_ifs
    · rcases htr : state.turn glob path glob_start brace_stack with next | matched | next
      · obtain ⟨hnx, hlt⟩ := hsn.turn hst htr
        have := @ofDigits_lt base _ _ 0 0 (next.length_digits.trans state.length_digits.symm)
          (hbs ▸ next.digit_lt) (Or.inr ⟨rfl, hlt⟩)
        exact ih hk hst hnx (by omega)
      · rfl
      · obtain ⟨rfl, hlt, hop⟩ := State.turn_matchBrace htr
        refine isSome_matchBrace hlt hop fun b hb => ?_
        rw [matchBraceBranch]
        split_ifs with hrm
        · obtain ⟨k, rfl⟩ : ∃ m, k = m + 1 := ⟨k - 1, by omega⟩
          rw [Nat.succ_mul] at hn
          have hbn := hbs ▸ @State.measure_lt glob path
          refine ih (k := k) (by simp; omega) ?_ (hsn.branch hb _)
            ((Nat.add_lt_add_right (hbn _) _).trans_le (by omega))
          simp only [List.mem_append, List.mem_singleton]
          rintro brace (hmem | rfl)
          · exact hst brace hmem
          · exact hb
        · rfl
    · rfl

theorem isSome_turns (glob path : Slice) (glob_index : ℕ) :
    (globMatchImpl glob path (turns glob path) 0 { glob_index := glob_index } []).isSome := by
  have hsn : ({ glob_index := glob_index } : State).Sound glob path 0 :=
    ⟨le_rfl, Nat.zero_le _, fun h => absurd h (by simp), fun h => absurd h (by simp),
      fun h => absurd rfl h, fun h => absurd h (by simp), fun h => absurd rfl h⟩
  have hbn := @State.measure_lt glob path { glob_index := glob_index }
  refine isSome_globMatchImpl rfl _ (k := 10) rfl (by simp) hsn ?_
  rw [turns]
  omega

/-- A run from anywhere in the pattern takes finitely many turns, those of its branches included,
and so does `match`. -/
theorem globMatchImpl_terminates (glob path : Slice) :
    (∀ glob_index,
      (globMatchImpl glob path (turns glob path) 0 { glob_index := glob_index } []).isSome)
    ∧ («match» glob path).isSome := by
  refine ⟨isSome_turns glob path, ?_⟩
  obtain ⟨matched, h⟩ :=
    Option.isSome_iff_exists.1 (isSome_turns glob path (negations glob glob.len 0))
  rw [«match»]
  simp [h]

end Cruller.Glob
