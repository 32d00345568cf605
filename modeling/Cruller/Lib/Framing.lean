import Mathlib.Tactic

/-!
# Cutting a stream into frames

A framing looks at the front of what has arrived and finds a frame, finds that no frame can begin
like this, or has to wait; what comes later does not change an answer that it has given. `read`
hands the frames to a handler one by one until the handler fails.

However a stream is cut into pieces, reading on from what the last piece left over is reading the
stream at once (`read_append`), and whatever the handler's state becomes between the pieces, the
frames it gets are frames of the stream in order (`Cuts`).
-/

namespace Cruller

open List Option Nat

/-- What is at the front of a stream: too little to say, no frame, or a frame of a size. -/
inductive Front (F : Type*) where
  | short
  | bad
  | frame (f : F) (size : ℕ)

/-- How frames are cut off the front of a stream. More input does not change what is there. -/
structure Framing (α F : Type*) where
  front : List α → Front F
  pos : ∀ {xs f size}, front xs = .frame f size → 0 < size
  le : ∀ {xs f size}, front xs = .frame f size → size ≤ xs.length
  append : ∀ {xs} (ys), front xs ≠ .short → front (xs ++ ys) = front xs

namespace Framing

variable {α F σ τ : Type*} (c : Framing α F)

/-- The frames `fs` lie at the front of `xs`, one behind the other, and then `rest`. -/
inductive Cuts : List α → List F → List α → Prop
  | nil (xs : List α) : Cuts xs [] xs
  | cons {xs : List α} {f : F} {size : ℕ} {fs : List F} {rest : List α} :
    c.front xs = .frame f size → Cuts (xs.drop size) fs rest → Cuts xs (f :: fs) rest

variable {c}

variable {xs rest : List α} {s s' t : σ} {fs : List F} {n size : ℕ} {f : F}

theorem Cuts.trans {mid : List α} {gs : List F} (h : c.Cuts xs fs mid)
    (h' : c.Cuts mid gs rest) : c.Cuts xs (fs ++ gs) rest := by
  induction h with
  | nil xs => exact h'
  | cons hf _ ih => exact .cons hf (ih h')

theorem Cuts.append (h : c.Cuts xs fs rest) (ys : List α) :
    c.Cuts (xs ++ ys) fs (rest ++ ys) := by
  induction h with
  | nil xs => exact .nil _
  | @cons xs f size fs rest hf _ ih =>
    refine .cons ((c.append ys (by simp [hf])).trans hf) ?_
    rwa [drop_append_of_le_length (c.le hf)]

theorem Cuts.comparable {rest' : List α} {gs : List F} (h : c.Cuts xs fs rest)
    (h' : c.Cuts xs gs rest') :
    (∃ more, gs = fs ++ more ∧ c.Cuts rest more rest')
      ∨ ∃ more, fs = gs ++ more ∧ c.Cuts rest' more rest := by
  induction h generalizing gs with
  | nil xs => exact Or.inl ⟨gs, rfl, h'⟩
  | @cons xs f size fs rest hf hcut ih =>
    rcases h' with _ | ⟨hg, hcut'⟩
    · exact Or.inr ⟨f :: fs, rfl, .cons hf hcut⟩
    · obtain ⟨rfl, rfl⟩ := Front.frame.inj (hf.symm.trans hg)
      rcases ih hcut' with ⟨more, rfl, hmr⟩ | ⟨more, rfl, hmr⟩
      · exact Or.inl ⟨more, rfl, hmr⟩
      · exact Or.inr ⟨more, rfl, hmr⟩

theorem Cuts.of_short (hs : c.front xs = .short)
    (h : c.Cuts xs fs rest) : fs = [] ∧ rest = xs := by
  rcases h with _ | ⟨hf, -⟩
  · exact ⟨rfl, rfl⟩
  · rw [hs] at hf
    simp at hf

/-- Frame after frame to the handler, until it fails or no frame is left; the state, the frames
that were handled, and how much was consumed. `n` bounds the rounds. -/
def read (c : Framing α F) (handle : σ → F → Option σ) (reject : σ → σ) (failed : σ → Bool) :
    ℕ → σ → List α → Option (σ × List F × ℕ)
  | 0, s, _ => some (s, [], 0)
  | n + 1, s, xs =>
    match c.front xs with
    | .short => some (s, [], 0)
    | .bad => some (reject s, [], 0)
    | .frame f size => (handle s f).bind fun s =>
      if failed s then some (s, [f], size)
      else (read c handle reject failed n s (xs.drop size)).map fun r =>
        (r.1, f :: r.2.1, size + r.2.2)

variable {handle : σ → F → Option σ} {reject : σ → σ} {failed : σ → Bool}

theorem read_frame (hf : c.front xs = .frame f size) :
    c.read handle reject failed (n + 1) s xs = (handle s f).bind fun s =>
      if failed s then some (s, [f], size)
      else (c.read handle reject failed n s (xs.drop size)).map fun r =>
        (r.1, f :: r.2.1, size + r.2.2) := by
  rw [read, hf]

theorem read_rounds {m : ℕ} (hn : xs.length < n) (hm : xs.length < m) :
    c.read handle reject failed n s xs = c.read handle reject failed m s xs := by
  induction n generalizing m s xs with
  | zero => omega
  | succ n ih =>
    obtain ⟨m, rfl⟩ : ∃ k, m = k + 1 := ⟨m - 1, by omega⟩
    rcases hfr : c.front xs with _ | _ | ⟨f, size⟩
    · rw [read, read, hfr]
    · rw [read, read, hfr]
    · have hpos := c.pos hfr
      have hle := c.le hfr
      rw [read_frame hfr, read_frame hfr]
      congr 1
      funext s
      rw [ih (by rw [length_drop]; omega) (show (xs.drop size).length < m by
        rw [length_drop]; omega)]

/-- The frames that are handled lie at the front of what is read, and reading without a failure
goes on until it has to wait. -/
theorem read_cuts (hrj : ∀ s, failed (reject s) = true) {k : ℕ}
    (hn : xs.length < n)
    (h : c.read handle reject failed n s xs = some (s', fs, k)) :
    c.Cuts xs fs (xs.drop k) ∧ k ≤ xs.length
      ∧ (failed s' = false → c.front (xs.drop k) = .short) := by
  induction n generalizing s xs fs k with
  | zero => omega
  | succ n ih =>
    rcases hfr : c.front xs with _ | _ | ⟨f, size⟩
    · simp only [read, hfr, some.injEq, Prod.mk.injEq] at h
      obtain ⟨rfl, rfl, rfl⟩ := h
      exact ⟨.nil _, Nat.zero_le _, fun _ => hfr⟩
    · simp only [read, hfr, some.injEq, Prod.mk.injEq] at h
      obtain ⟨rfl, rfl, rfl⟩ := h
      exact ⟨.nil _, Nat.zero_le _, fun hok => by simp [hrj] at hok⟩
    · have hpos := c.pos hfr
      have hle := c.le hfr
      rw [read_frame hfr, bind_eq_some_iff] at h
      obtain ⟨t, -, h⟩ := h
      split_ifs at h with hfl
      · simp only [some.injEq, Prod.mk.injEq] at h
        obtain ⟨rfl, rfl, rfl⟩ := h
        exact ⟨.cons hfr (.nil _), hle, fun hok => by simp [hfl] at hok⟩
      · rw [map_eq_some_iff] at h
        obtain ⟨⟨t', gs, j⟩, hrd, heq⟩ := h
        simp only [Prod.mk.injEq] at heq
        obtain ⟨rfl, rfl, rfl⟩ := heq
        obtain ⟨hct, hj, hsh⟩ := ih (by rw [length_drop]; omega) hrd
        rw [length_drop] at hj
        rw [drop_drop] at hct hsh
        exact ⟨.cons hfr hct, by omega, hsh⟩

/-- Reading two pieces at once is reading the first, and on from what it left over. -/
theorem read_append (hrj : ∀ s, failed (reject s) = true) {m : ℕ}
    (ys : List α) (hs : failed s = false) (hn : xs.length < n)
    (hm : xs.length + ys.length < m) :
    c.read handle reject failed m s (xs ++ ys) =
      (c.read handle reject failed n s xs).bind fun r =>
        if failed r.1 then some r
        else (c.read handle reject failed m r.1 (xs.drop r.2.2 ++ ys)).map fun q =>
          (q.1, r.2.1 ++ q.2.1, r.2.2 + q.2.2) := by
  induction n generalizing m s xs with
  | zero => omega
  | succ n ih =>
    obtain ⟨m, rfl⟩ : ∃ k, m = k + 1 := ⟨m - 1, by omega⟩
    rcases hfr : c.front xs with _ | _ | ⟨f, size⟩
    · rw [show c.read handle reject failed (n + 1) s xs = some (s, [], 0) by rw [read, hfr],
        bind_some, if_neg (by simp [hs])]
      simp
    · have hmr : c.front (xs ++ ys) = .bad := (c.append ys (by simp [hfr])).trans hfr
      rw [show c.read handle reject failed (n + 1) s xs = some (reject s, [], 0) by
        rw [read, hfr], bind_some, if_pos (hrj s), read, hmr]
    · have hmr : c.front (xs ++ ys) = .frame f size :=
        (c.append ys (by simp [hfr])).trans hfr
      have hpos := c.pos hfr
      have hle := c.le hfr
      rw [read_frame hfr, read_frame hmr, bind_assoc,
        drop_append_of_le_length hle]
      congr 1
      funext t
      split_ifs with hfl
      · rw [bind_some, if_pos hfl]
      · rw [Bool.not_eq_true] at hfl
        rw [ih hfl (by rw [length_drop]; omega) (by rw [length_drop]; omega),
          Option.map_bind, bind_map]
        congr 1
        funext ⟨u, fs, k⟩
        simp only [Function.comp_apply]
        split_ifs
        · rfl
        · -- the rest is shorter, so one round more makes no difference
          rw [drop_drop, Option.map_map, read_rounds (m := m + 1)
            (by rw [length_append, length_drop]; omega)
            (by rw [length_append, length_drop]; omega)]
          congr 1
          funext ⟨v, gs, j⟩
          simp [Nat.add_assoc]

theorem read_congr {π : σ → τ}
    (hhn : ∀ {s t : σ} (f : F), π s = π t → (handle s f).map π = (handle t f).map π)
    (hrj : ∀ {s t : σ}, π s = π t → π (reject s) = π (reject t))
    (hfl : ∀ {s t : σ}, π s = π t → failed s = failed t) (h : π s = π t)
    (xs : List α) :
    (c.read handle reject failed n s xs).map (fun r => (π r.1, r.2)) =
      (c.read handle reject failed n t xs).map fun r => (π r.1, r.2) := by
  induction n generalizing s t xs with
  | zero => simp [read, h]
  | succ n ih =>
    rcases hfr : c.front xs with _ | _ | ⟨f, size⟩
    · simp [read, hfr, h]
    · simp [read, hfr, hrj h]
    · rw [read_frame hfr, read_frame hfr]
      have hone := hhn f h
      rcases hs : handle s f with _ | s' <;> rcases ht : handle t f with _ | t'
      · rfl
      · simp [hs, ht] at hone
      · simp [hs, ht] at hone
      · rw [hs, ht, map_some, map_some, some.injEq] at hone
        rw [bind_some, bind_some, hfl hone]
        split_ifs
        · simp [hone]
        · have hrs := ih hone (xs.drop size)
          rw [Option.map_map, Option.map_map]
          have := congrArg (Option.map fun r : τ × List F × ℕ => (r.1, f :: r.2.1, size + r.2.2))
            hrs
          rwa [Option.map_map, Option.map_map] at this

/-- Reading `xs` takes the handler to `s'` and, as long as it does not fail, leaves `rest` over. -/
def Reads (c : Framing α F) (handle : σ → F → Option σ) (reject : σ → σ) (failed : σ → Bool) (s : σ)
    (xs : List α) (s' : σ) (rest : List α) : Prop :=
  ∀ n, xs.length < n → ∃ fs k, c.read handle reject failed n s xs = some (s', fs, k)
    ∧ (failed s' = false → xs.drop k = rest)

theorem Reads.short (h : c.front xs = .short) :
    c.Reads handle reject failed s xs s xs := by
  intro n hn
  obtain ⟨n, rfl⟩ : ∃ k, n = k + 1 := ⟨n - 1, by omega⟩
  exact ⟨[], 0, by rw [read, h], fun _ => rfl⟩

theorem Reads.bad (hrj : ∀ s, failed (reject s) = true)
    (h : c.front xs = .bad) (rest : List α) :
    c.Reads handle reject failed s xs (reject s) rest := by
  intro n hn
  obtain ⟨n, rfl⟩ : ∃ k, n = k + 1 := ⟨n - 1, by omega⟩
  exact ⟨[], 0, by rw [read, h], fun hok => by simp [hrj] at hok⟩

theorem Reads.fails (h : c.front xs = .frame f size)
    (hf : handle s f = some s') (hs' : failed s' = true) (rest : List α) :
    c.Reads handle reject failed s xs s' rest := by
  intro n hn
  obtain ⟨n, rfl⟩ : ∃ k, n = k + 1 := ⟨n - 1, by omega⟩
  exact ⟨[f], size, by rw [read_frame h, hf, bind_some, if_pos hs'], fun hok => by
    simp [hs'] at hok⟩

theorem Reads.frame
    (h : c.front xs = .frame f size) (hf : handle s f = some t) (ht : failed t = false)
    (hrs : c.Reads handle reject failed t (xs.drop size) s' rest) :
    c.Reads handle reject failed s xs s' rest := by
  intro n hn
  obtain ⟨n, rfl⟩ : ∃ k, n = k + 1 := ⟨n - 1, by omega⟩
  have hpos := c.pos h
  have hle := c.le h
  obtain ⟨fs, k, hrd, hk⟩ := hrs n (by rw [length_drop]; omega)
  refine ⟨f :: fs, size + k, ?_, fun hok => ?_⟩
  · rw [read_frame h, hf, bind_some, if_neg (by simp [ht]), hrd]
    rfl
  · rw [← drop_drop, hk hok]

theorem Reads.append_failed (hrj : ∀ s, failed (reject s) = true)
    (h : c.Reads handle reject failed s xs s' rest) (hs : failed s = false)
    (hs' : failed s' = true) (ys rest' : List α) :
    c.Reads handle reject failed s (xs ++ ys) s' rest' := by
  intro n hn
  rw [length_append] at hn
  obtain ⟨fs, k, hrd, -⟩ := h (xs.length + 1) (lt_succ_self _)
  refine ⟨fs, k, ?_, fun hok => by simp [hs'] at hok⟩
  rw [read_append hrj ys hs (lt_succ_self _) hn, hrd, bind_some, if_pos hs']

theorem Reads.append (hrj : ∀ s, failed (reject s) = true)
    {ys mid : List α} (h : c.Reads handle reject failed s xs t mid) (hs : failed s = false)
    (ht : failed t = false) (hmr : c.Reads handle reject failed t (mid ++ ys) s' rest) :
    c.Reads handle reject failed s (xs ++ ys) s' rest := by
  intro n hn
  rw [length_append] at hn
  obtain ⟨fs, k, hrd, hk⟩ := h (xs.length + 1) (lt_succ_self _)
  have hkle := (read_cuts hrj (lt_succ_self _) hrd).2.1
  have hmid := hk ht
  subst hmid
  obtain ⟨gs, j, hrs, hj⟩ := hmr n (by rw [length_append, length_drop]; omega)
  refine ⟨fs ++ gs, k + j, ?_, fun hok => ?_⟩
  · rw [read_append hrj ys hs (lt_succ_self _) hn, hrd, bind_some,
      if_neg (by simp [ht]), hrs]
    rfl
  · rw [← drop_drop, drop_append_of_le_length hkle, hj hok]

theorem Reads.front_rest (hrj : ∀ s, failed (reject s) = true)
    (h : c.Reads handle reject failed s xs s' rest) (hs' : failed s' = false) :
    c.front rest = .short := by
  obtain ⟨fs, k, hrd, hk⟩ := h (xs.length + 1) (lt_succ_self _)
  have hfr := (read_cuts hrj (lt_succ_self _) hrd).2.2 hs'
  rwa [hk hs'] at hfr

theorem Reads.unique {s'' : σ} {rest' : List α}
    (h : c.Reads handle reject failed s xs s' rest)
    (h' : c.Reads handle reject failed s xs s'' rest') : s' = s'' := by
  obtain ⟨fs, k, hrd, -⟩ := h (xs.length + 1) (lt_succ_self _)
  obtain ⟨gs, j, hrd', -⟩ := h' (xs.length + 1) (lt_succ_self _)
  rw [hrd, some.injEq, Prod.mk.injEq] at hrd'
  exact hrd'.1

end Framing

end Cruller
