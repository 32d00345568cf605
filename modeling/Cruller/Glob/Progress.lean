import Mathlib.Tactic.Ring
import Cruller.Glob.Matcher

/-!
# Every run ends

A turn goes forward in the pattern, or back to a wildcard, which then takes more of the path than it
had. For a `*` that is the end of the segment at the latest. For a `**` it is the end of the path,
and what was tried behind it before is then tried anew. So the place of the `**` counts first, then
that of the `*`, then what it takes (`State.measure`). A branch begins with all of this anew, but
only ten groups are open at a time.
-/

namespace Cruller.Glob

open List Option

variable {glob path : Slice} {glob_start i : ℕ}

theorem bytes_four (s : Slice) (i : ℕ) (a b c d : UInt8) :
    s.bytes i 4 = [a, b, c, d] ↔
      s.ptr i = a ∧ s.ptr (i + 1) = b ∧ s.ptr (i + 2) = c ∧ s.ptr (i + 3) = d := by
  simp [Slice.bytes, range_succ]

theorem bytes_three (s : Slice) (i : ℕ) (a b c : UInt8) :
    s.bytes i 3 = [a, b, c] ↔ s.ptr i = a ∧ s.ptr (i + 1) = b ∧ s.ptr (i + 2) = c := by
  simp [Slice.bytes, range_succ]

/-- There is a `**`, and none follows as the next segment. -/
structure LastGlobstar (glob : Slice) (i : ℕ) : Prop where
  first : glob.ptr i = '*'.toUInt8
  second : glob.ptr (i + 1) = '*'.toUInt8
  lt : i + 1 < glob.len
  last : skipGlobstars glob i = i

theorem skipGlobstarsLoop_spec (n : ℕ) (hn : glob.len < i + 3 * n + 4) :
    ∃ r, skipGlobstarsLoop glob n i = r
      ∧ ¬ (r + 4 ≤ glob.len ∧ glob.bytes r 4 = ['/', '*', '*', '/'].map Char.toUInt8)
      ∧ (r = i ∨ i + 3 ≤ r ∧ r < glob.len ∧ glob.ptr (r - 2) = '*'.toUInt8
        ∧ glob.ptr (r - 1) = '*'.toUInt8) := by
  induction n generalizing i with
  | zero => exact ⟨i, rfl, fun h => absurd h.1 (by omega), Or.inl rfl⟩
  | succ n ih =>
    rw [skipGlobstarsLoop]
    by_cases h : i + 4 ≤ glob.len ∧ glob.bytes i 4 = ['/', '*', '*', '/'].map Char.toUInt8
    · rw [if_pos h]
      obtain ⟨r, hr, hst, hcs⟩ := @ih (i + 3) (by omega)
      refine ⟨r, hr, hst, Or.inr ?_⟩
      rcases hcs with rfl | ⟨hle, hlt, hs⟩
      · obtain ⟨-, hfr, hsc, -⟩ := (bytes_four ..).1 h.2
        exact ⟨le_rfl, by omega, hfr, hsc⟩
      · exact ⟨by omega, hlt, hs⟩
    · rw [if_neg h]
      exact ⟨i, rfl, h, Or.inl rfl⟩

theorem skipGlobstarsLoop_of_stop (n : ℕ)
    (h : ¬ (i + 4 ≤ glob.len ∧ glob.bytes i 4 = ['/', '*', '*', '/'].map Char.toUInt8)) :
    skipGlobstarsLoop glob n i = i := by
  cases n with
  | zero => rfl
  | succ n => rw [skipGlobstarsLoop, if_neg h]

/-- It stays at a `**` behind which it cannot go. -/
theorem skipGlobstars_of_stop
    (h : ¬ (i + 2 + 4 ≤ glob.len
      ∧ glob.bytes (i + 2) 4 = ['/', '*', '*', '/'].map Char.toUInt8))
    (h' : ¬ (i + 2 + 3 = glob.len ∧ glob.bytes (i + 2) 3 = ['/', '*', '*'].map Char.toUInt8)) :
    skipGlobstars glob i = i := by
  rw [skipGlobstars, skipGlobstarsLoop_of_stop _ h]
  rw [if_neg h']
  omega

/-- Of several double stars only the last is left. -/
theorem skipGlobstars_spec (hfr : glob.ptr i = '*'.toUInt8)
    (hsc : glob.ptr (i + 1) = '*'.toUInt8) (hlt : i + 1 < glob.len) :
    i ≤ skipGlobstars glob i ∧ LastGlobstar glob (skipGlobstars glob i) := by
  obtain ⟨r, hr, hst, hcs⟩ := @skipGlobstarsLoop_spec glob (i + 2) glob.len (by omega)
  obtain ⟨j, rfl, hle, hj1, hj2, hjlt⟩ : ∃ j, r = j + 2 ∧ i ≤ j ∧ glob.ptr j = '*'.toUInt8
      ∧ glob.ptr (j + 1) = '*'.toUInt8 ∧ j + 1 < glob.len := by
    rcases hcs with rfl | ⟨hle, hrlt, h1, h2⟩
    · exact ⟨i, rfl, le_rfl, hfr, hsc, hlt⟩
    · obtain ⟨j, rfl⟩ : ∃ j, r = j + 2 := ⟨r - 2, by omega⟩
      exact ⟨j, rfl, by omega, h1, h2, by omega⟩
  by_cases hend : j + 2 + 3 = glob.len ∧ glob.bytes (j + 2) 3 = ['/', '*', '*'].map Char.toUInt8
  · have hsk : skipGlobstars glob i = j + 3 := by
      rw [skipGlobstars, hr]
      rw [if_pos hend]
      omega
    obtain ⟨-, h1, h2⟩ := (bytes_three ..).1 hend.2
    rw [hsk]
    exact ⟨by omega, h1, h2, by omega, skipGlobstars_of_stop (by omega) (by omega)⟩
  · have hsk : skipGlobstars glob i = j := by
      rw [skipGlobstars, hr]
      rw [if_neg hend]
      omega
    rw [hsk]
    exact ⟨hle, hj1, hj2, hjlt, skipGlobstars_of_stop hst hend⟩

theorem separatorFrom_spec (n p : ℕ) (hp : p + n ≤ path.len) :
    p ≤ State.separatorFrom path n p ∧ State.separatorFrom path n p ≤ path.len := by
  induction n generalizing p with
  | zero => exact ⟨le_rfl, hp⟩
  | succ n ih =>
    rw [State.separatorFrom]
    split_ifs
    · have := ih (p + 1) (by omega)
      omega
    · omega

theorem wtf8ByteSequenceLength_bounds (byte : UInt8) :
    1 ≤ wtf8ByteSequenceLength byte ∧ wtf8ByteSequenceLength byte ≤ 4 := by
  rw [wtf8ByteSequenceLength]
  split_ifs <;> simp

def GlobstarAt (glob : Slice) (glob_start i : ℕ) : Prop :=
  LastGlobstar glob i
    ∧ (i + 2 - glob_start < 3 ∨ glob.ptr (i - 1) = '/'.toUInt8)
    ∧ (glob.len = i + 2 ∨ glob.ptr (i + 2) = '/'.toUInt8)

namespace State

variable {state next : State} {brace_stack : List Brace}

/-- The wildcard at `j`, from where it goes on. -/
structure Stars (glob path : Slice) (glob_start : ℕ) (state next : State) (j : ℕ) : Prop where
  path_index : next.path_index = state.path_index
  le : state.glob_index ≤ j
  lt : j < next.glob_index
  star : glob.ptr j = '*'.toUInt8
  inside : j < glob.len
  last : j + 1 < glob.len → glob.ptr (j + 1) = '*'.toUInt8 → skipGlobstars glob j = j
  /-- What is remembered. -/
  wildcard :
    (∃ step, 1 ≤ step ∧ step ≤ 4
      ∧ next.wildcard = ⟨j, state.path_index + step, state.brace_depth⟩
      ∧ next.globstar = state.globstar
      ∧ ¬ (GlobstarAt glob glob_start j ∧ state.path_index < path.len))
    ∨ (state.path_index < path.len ∧ next.wildcard = state.globstar
      ∧ next.globstar = state.globstar ∧ ¬ GlobstarAt glob glob_start j)
    ∨ (∃ q, state.path_index < q ∧ GlobstarAt glob glob_start j
      ∧ next.wildcard = ⟨j, q, state.brace_depth⟩ ∧ next.globstar = next.wildcard)

theorem atSeparator_cases (s : State) :
    (s.atSeparator path).path_index = s.path_index
      ∧ (s.atSeparator path).glob_index = s.glob_index
      ∧ (s.atSeparator path).globstar = s.globstar
      ∧ ((s.atSeparator path).wildcard = s.wildcard
        ∨ s.path_index < path.len ∧ (s.atSeparator path).wildcard = s.globstar) := by
  rw [atSeparator]
  split_ifs with h
  · simp
    omega
  · exact ⟨rfl, rfl, rfl, Or.inl rfl⟩

theorem skipToSeparator_cases (s : State) (is_end_invalid : Bool) :
    (s.skipToSeparator path is_end_invalid).path_index = s.path_index
      ∧ (s.skipToSeparator path is_end_invalid).glob_index = s.glob_index
      ∧ ((s.path_index = path.len
        ∧ (s.skipToSeparator path is_end_invalid).globstar = s.globstar
        ∧ (s.skipToSeparator path is_end_invalid).wildcard =
          { s.wildcard with path_index := s.wildcard.path_index + 1 })
      ∨ (s.path_index ≠ path.len ∧ ∃ q, s.path_index < q
        ∧ (s.skipToSeparator path is_end_invalid).wildcard = { s.wildcard with path_index := q }
        ∧ (s.skipToSeparator path is_end_invalid).globstar =
          { s.wildcard with path_index := q })) := by
  rw [skipToSeparator]
  by_cases hend : s.path_index = path.len
  · rw [if_pos hend]
    exact ⟨rfl, rfl, Or.inl ⟨hend, rfl, rfl⟩⟩
  · rw [if_neg hend]
    refine ⟨rfl, rfl, Or.inr ⟨hend, _, ?_, rfl, rfl⟩⟩
    rcases Nat.lt_or_ge s.path_index path.len with hlt | hge
    · have hsp := @separatorFrom_spec path (path.len - s.path_index) s.path_index (by omega)
      split_ifs <;> omega
    · rw [show path.len - s.path_index = 0 by omega, separatorFrom]
      split_ifs <;> omega

theorem step_bounds (path : Slice) (p : ℕ) :
    1 ≤ (if p < path.len then wtf8ByteSequenceLength (path.ptr p) else 1)
      ∧ (if p < path.len then wtf8ByteSequenceLength (path.ptr p) else 1) ≤ 4 := by
  have := wtf8ByteSequenceLength_bounds (path.ptr p)
  split_ifs <;> omega

theorem stars_atSeparator {s : State} {j : ℕ} (hnot : ¬ GlobstarAt glob glob_start j)
    (hpt : s.path_index = state.path_index) (hle : state.glob_index ≤ j)
    (hlt : j < s.glob_index) (hsr : glob.ptr j = '*'.toUInt8) (hin : j < glob.len)
    (hls : j + 1 < glob.len → glob.ptr (j + 1) = '*'.toUInt8 → skipGlobstars glob j = j)
    (hwl : s.wildcard = ⟨j, state.path_index + (if state.path_index < path.len then
      wtf8ByteSequenceLength (path.ptr state.path_index) else 1), state.brace_depth⟩)
    (hgl : s.globstar = state.globstar) :
    Stars glob path glob_start state (s.atSeparator path) j := by
  obtain ⟨hp, hg, hs, hcs⟩ := @atSeparator_cases path s
  refine ⟨hp.trans hpt, hle, hg ▸ hlt, hsr, hin, hls, ?_⟩
  rcases hcs with hw | ⟨hplt, hw⟩
  · have hst := step_bounds path state.path_index
    exact Or.inl ⟨_, hst.1, hst.2, hw.trans hwl, hs.trans hgl, fun h => hnot h.1⟩
  · exact Or.inr (Or.inl ⟨hpt ▸ hplt, hw.trans hgl, hs.trans hgl, hnot⟩)

/-- A star saves where to go on, and a double star at a border too. -/
theorem stars_star (hlt : state.glob_index < glob.len)
    (hst : glob.ptr state.glob_index = '*'.toUInt8) :
    ∃ j, Stars glob path glob_start state (state.star glob path glob_start) j
      ∧ (GlobstarAt glob glob_start state.glob_index → j = state.glob_index) := by
  rw [star]
  by_cases htwo : state.glob_index + 1 < glob.len
    ∧ glob.ptr (state.glob_index + 1) = '*'.toUInt8
  swap
  · -- a single star
    refine ⟨state.glob_index, ?_, fun _ => rfl⟩
    simp only [htwo, if_false]
    refine stars_atSeparator ?_ rfl le_rfl (Nat.lt_succ_self _) hst hlt
      (fun h1 h2 => absurd ⟨h1, h2⟩ htwo) rfl rfl
    exact fun h => htwo ⟨h.1.lt, h.1.second⟩
  obtain ⟨hle, hls⟩ := skipGlobstars_spec hst htwo.2 htwo.1
  refine ⟨skipGlobstars glob state.glob_index, ?_, fun h => h.1.last⟩
  simp only [htwo, and_self, if_true]
  generalize skipGlobstars glob state.glob_index = j at hle hls
  have hj := hls.lt
  by_cases hend : j + 2 < glob.len ∧ state.path_index = path.len ∧ glob.len - (j + 2) = 2
      ∧ isSeparator (glob.ptr (j + 2)) = true ∧ glob.ptr (j + 2 + 1) = '*'.toUInt8
  · rw [if_pos hend]
    have hsp := step_bounds path state.path_index
    exact ⟨rfl, hle, by simp, hls.first, by omega, fun _ _ => hls.last,
      Or.inl ⟨_, hsp.1, hsp.2, rfl, rfl, fun h => absurd h.2 (by omega)⟩⟩
  rw [if_neg hend]
  by_cases hwh : (j + 2 - glob_start < 3 ∨ glob.ptr (j + 2 - 3) = '/'.toUInt8)
      ∧ (¬ j + 2 < glob.len ∨ glob.ptr (j + 2) = '/'.toUInt8)
  · rw [if_pos hwh]
    have hsk := fun s => @skipToSeparator_cases path s (decide (j + 2 < glob.len))
    generalize hs : (if j + 2 < glob.len then _ else _ : State) = s
    have hp : s.path_index = state.path_index := by rw [← hs]; split_ifs <;> rfl
    have hg : j < s.glob_index := by rw [← hs]; split_ifs <;> (dsimp only; omega)
    have hw : s.wildcard = ⟨j, state.path_index + (if state.path_index < path.len then
        wtf8ByteSequenceLength (path.ptr state.path_index) else 1), state.brace_depth⟩ := by
      rw [← hs]
      split_ifs <;> rfl
    have hgl : s.globstar = state.globstar := by rw [← hs]; split_ifs <;> rfl
    obtain ⟨hp', hg', hcs⟩ := hsk s
    refine ⟨hp'.trans hp, hle, hg' ▸ hg, hls.first, by omega, fun _ _ => hls.last, ?_⟩
    rcases hcs with ⟨hpn, hs', hw'⟩ | ⟨-, q, hq, hw', hs'⟩
    · left
      refine ⟨2, by omega, by omega, ?_, hs'.trans hgl, fun h => absurd h.2 (by omega)⟩
      rw [hw', hw, if_neg (by omega)]
    · right; right
      have hgl : GlobstarAt glob glob_start j :=
        ⟨hls, hwh.1, hwh.2.imp (fun h => by omega) id⟩
      refine ⟨q, hp ▸ hq, hgl, ?_, by rw [hs', hw']⟩
      rw [hw', hw]
  · rw [if_neg hwh]
    refine stars_atSeparator ?_ rfl hle (by simp) hls.first (by omega)
      (fun _ _ => hls.last) rfl rfl
    rintro ⟨-, hbc, hah⟩
    refine hwh ⟨hbc, hah.imp (fun h => by omega) id⟩

theorem fallthrough_cases (h : state.fallthrough path = .continue next) :
    0 < state.wildcard.path_index ∧ state.wildcard.path_index ≤ path.len
      ∧ next = state.backtrack := by
  rw [fallthrough] at h
  split_ifs at h with hbc
  exact ⟨hbc.1, hbc.2, (Turn.continue.inj h).symm⟩

theorem getUnicode_bounds {r : ℕ × ℕ × ℕ} (h : getUnicode glob i = some r) :
    1 ≤ r.2.1 ∧ i ≤ r.2.2 := by
  have hlen := fun byte => (wtf8ByteSequenceLength_bounds byte).1
  rw [getUnicode] at h
  dsimp only at h
  split_ifs at h
  all_goals
    obtain rfl := some.inj h
    first | exact ⟨le_rfl, by simp⟩ | exact ⟨hlen _, by simp⟩

theorem le_of_classHigh {low : ℕ} {r : ℕ × ℕ} (h : classHigh glob low i = some r) : i ≤ r.2 := by
  rw [classHigh] at h
  split_ifs at h
  · obtain ⟨⟨high, high_len, j⟩, hget, rfl⟩ := map_eq_some_iff.1 h
    have := (getUnicode_bounds hget).2
    dsimp only at this ⊢
    omega
  · obtain rfl := some.inj h
    exact le_rfl

theorem lt_of_classLoop {c n : ℕ} {first is_match : Bool} {r : ℕ × Bool}
    (h : classLoop glob c n i first is_match = some r) : i < r.1 := by
  induction n generalizing i first is_match with
  | zero => simp [classLoop] at h
  | succ n ih =>
    rw [classLoop] at h
    split_ifs at h with hin hend
    · obtain ⟨⟨low, low_len, j⟩, hlow, h⟩ := bind_eq_some_iff.1 h
      obtain ⟨⟨high, k⟩, hhg, h⟩ := bind_eq_some_iff.1 h
      have hlen := getUnicode_bounds hlow
      have hk := le_of_classHigh hhg
      have := ih h
      dsimp only at hlen hk this
      omega
    · obtain rfl := some.inj h
      simp

theorem le_classStart (glob : Slice) (i : ℕ) : i ≤ (classStart glob i).2 := by
  rw [classStart]
  split_ifs <;> simp

theorem class_cases (hp : state.path_index < path.len)
    (h : state.class glob path = .continue next) :
    (state.glob_index < next.glob_index ∧ state.path_index ≤ next.path_index
        ∧ next.path_index ≤ path.len + 3 ∧ next.globstar = state.globstar
        ∧ next.wildcard = state.wildcard)
      ∨ 0 < state.wildcard.path_index ∧ state.wildcard.path_index ≤ path.len
        ∧ next = state.backtrack := by
  have hlen := wtf8ByteSequenceLength_bounds (path.ptr state.path_index)
  have hst := le_classStart glob (state.glob_index + 1)
  rw [«class»] at h
  dsimp only at h
  split at h
  · simp at h
  · rename_i g is_match hlp
    have hlt := lt_of_classLoop hlp
    split_ifs at h
    · obtain rfl := Turn.continue.inj h
      dsimp only at hlt ⊢
      exact Or.inl ⟨by omega, by omega, by omega, rfl, rfl⟩
    · exact Or.inr (fallthrough_cases h)

theorem le_of_unescape {c cc : UInt8} {g : ℕ} (h : unescape c glob i = some (cc, g)) : i ≤ g := by
  rw [unescape] at h
  split_ifs at h
  all_goals
    have := (Prod.mk.inj (some.inj h)).2
    omega

theorem literal_cases (h : state.literal glob path = .continue next) :
    (state.glob_index < next.glob_index ∧ state.path_index ≤ next.path_index
        ∧ next.path_index ≤ path.len + 3 ∧ next.globstar = state.globstar
        ∧ (next.wildcard = state.wildcard
          ∨ state.path_index < path.len ∧ next.wildcard = state.globstar))
      ∨ 0 < state.wildcard.path_index ∧ state.wildcard.path_index ≤ path.len
        ∧ next = state.backtrack := by
  rw [literal] at h
  by_cases hp : state.path_index < path.len
  swap
  · rw [if_neg hp] at h
    exact Or.inr (fallthrough_cases h)
  rw [if_pos hp] at h
  split at h
  · simp at h
  · rename_i cc g hes
    have hle := le_of_unescape hes
    have hlen := wtf8ByteSequenceLength_bounds cc
    dsimp only at h
    by_cases hmt : isMatch glob path cc g state.path_index = true
    · rw [if_pos hmt] at h
      obtain rfl := Turn.continue.inj h
      refine Or.inl ⟨by dsimp only; omega, by dsimp only; omega, by dsimp only; omega, rfl, ?_⟩
      by_cases hcc : cc = '/'.toUInt8
      · exact Or.inr ⟨hp, if_pos hcc⟩
      · exact Or.inl (if_neg hcc)
    · rw [if_neg hmt] at h
      exact Or.inr (fallthrough_cases h)

theorem skipBranchLoop_le (d : UInt8) (n : ℕ) (brace_depth : UInt8) (in_brackets : Bool) :
    i ≤ (skipBranchLoop glob d n i brace_depth in_brackets).1 := by
  induction n generalizing i brace_depth in_brackets with
  | zero => exact le_rfl
  | succ n ih =>
    have hnx : ∀ {k brace_depth in_brackets}, i ≤ k →
        i ≤ (skipBranchLoop glob d n k brace_depth in_brackets).1 := fun hk => hk.trans (ih _ _)
    rw [skipBranchLoop]
    dsimp only
    split_ifs
    all_goals first | exact hnx (by omega) | simp

theorem lt_skipBranch (hlt : state.glob_index < glob.len) :
    state.glob_index < (skipBranch state glob).glob_index := by
  obtain ⟨n, hn⟩ : ∃ n, glob.len - state.glob_index = n + 1 :=
    ⟨glob.len - state.glob_index - 1, by omega⟩
  have hnx : ∀ {k d brace_depth in_brackets}, state.glob_index < k →
      state.glob_index < (skipBranchLoop glob d n k brace_depth in_brackets).1 :=
    fun hk => hk.trans_le (skipBranchLoop_le _ _ _ _)
  rw [skipBranch, hn, skipBranchLoop, if_neg (by omega)]
  dsimp only
  split_ifs
  all_goals first | exact hnx (by omega) | simp

/-- A turn that goes on and is no wildcard: forward, or back. -/
theorem turn_cases (h : state.turn glob path glob_start brace_stack = .continue next)
    (hsc : ∀ brace ∈ brace_stack, brace.open_brace_idx < brace.branch_idx) :
    (state.glob_index < glob.len ∧ glob.ptr state.glob_index = '*'.toUInt8
        ∧ next = state.star glob path glob_start)
      ∨ (state.glob_index < glob.len ∧ glob.ptr state.glob_index ≠ '*'.toUInt8
        ∧ state.glob_index < next.glob_index ∧ state.path_index ≤ next.path_index
        ∧ next.path_index ≤ max state.path_index (path.len + 3) ∧ next.globstar = state.globstar
        ∧ (next.wildcard = state.wildcard
          ∨ state.path_index < path.len ∧ next.wildcard = state.globstar))
      ∨ ((state.glob_index < glob.len → glob.ptr state.glob_index ≠ '*'.toUInt8)
        ∧ 0 < state.wildcard.path_index ∧ state.wildcard.path_index ≤ path.len
        ∧ next = state.backtrack) := by
  rw [turn] at h
  by_cases hlt : state.glob_index < glob.len
  swap
  · rw [if_neg hlt] at h
    exact Or.inr (Or.inr ⟨fun h => absurd h hlt, fallthrough_cases h⟩)
  rw [if_pos hlt] at h
  dsimp only at h
  by_cases hst : glob.ptr state.glob_index = '*'.toUInt8
  · rw [if_pos hst] at h
    exact Or.inl ⟨hlt, hst, (Turn.continue.inj h).symm⟩
  rw [if_neg hst] at h
  right
  have hlr : state.literal glob path = .continue next → _ := literal_cases
  have hcl : state.path_index < path.len → state.class glob path = .continue next → _ :=
    class_cases
  split_ifs at h with hqs hp hsep hbr hp hba hsk
  · obtain rfl := Turn.continue.inj h
    have hlen := wtf8ByteSequenceLength_bounds (path.ptr state.path_index)
    exact Or.inl ⟨hlt, hst, by dsimp only; omega, by dsimp only; omega, by dsimp only; omega, rfl,
      Or.inl rfl⟩
  · exact Or.inr ⟨fun _ => hst, fallthrough_cases h⟩
  · rcases hlr h with ⟨h1, h2, h3, h4, h5⟩ | hbc
    · exact Or.inl ⟨hlt, hst, h1, h2, by omega, h4, h5⟩
    · exact Or.inr ⟨fun _ => hst, hbc⟩
  · rcases hcl hp h with ⟨h1, h2, h3, h4, h5⟩ | hbc
    · exact Or.inl ⟨hlt, hst, h1, h2, by omega, h4, Or.inl h5⟩
    · exact Or.inr ⟨fun _ => hst, hbc⟩
  · rcases hlr h with ⟨h1, h2, h3, h4, h5⟩ | hbc
    · exact Or.inl ⟨hlt, hst, h1, h2, by omega, h4, h5⟩
    · exact Or.inr ⟨fun _ => hst, hbc⟩
  · rw [brace] at h
    split at h
    · rename_i b hfn
      have hop : b.open_brace_idx = state.glob_index := by
        simpa using find?_some hfn
      have hb := hsc b (mem_of_find?_eq_some hfn)
      obtain rfl := Turn.continue.inj h
      exact Or.inl ⟨hlt, hst, by dsimp only; omega, le_rfl, by dsimp only; omega, rfl, Or.inl rfl⟩
    · simp at h
  · obtain rfl := Turn.continue.inj h
    refine Or.inl ⟨hlt, hst, lt_skipBranch hlt, le_rfl, ?_, rfl, Or.inl rfl⟩
    exact le_max_left _ _
  · rcases hlr h with ⟨h1, h2, h3, h4, h5⟩ | hbc
    · exact Or.inl ⟨hlt, hst, h1, h2, by omega, h4, h5⟩
    · exact Or.inr ⟨fun _ => hst, hbc⟩

end State

end Cruller.Glob
