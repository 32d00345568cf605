import Mathlib.Tactic

/-!
# Runs of a partial step function

A system is a state and a step that reads one input, may be refused, and reports one event. A
relation between the state and a record kept of the events holds along every run as soon as one
step keeps it (`run_foldl`).
-/

namespace Cruller

open List Option

variable {σ ι ε γ : Type*}

/-- The state a run over the inputs reaches and the events it reports, in order; `none` when some
step is refused. -/
def run (step : σ → ι → Option (σ × ε)) : σ → List ι → Option (σ × List ε)
  | s, [] => some (s, [])
  | s, i :: is => do
    let (s', e) ← step s i
    let (t, es) ← run step s' is
    return (t, e :: es)

section

variable {step : σ → ι → Option (σ × ε)}

@[simp]
theorem run_nil (s : σ) : run step s [] = some (s, []) := rfl

theorem run_cons {s t : σ} {i : ι} {is : List ι} {es : List ε} :
    run step s (i :: is) = some (t, es) ↔
      ∃ s' e es', step s i = some (s', e) ∧ run step s' is = some (t, es') ∧ es = e :: es' := by
  simp only [run, bind_eq_bind, bind_eq_some_iff, Option.pure_def,
    some.injEq, Prod.mk.injEq, Prod.exists]
  constructor
  · rintro ⟨s', e, h, t', es', h', rfl, rfl⟩
    exact ⟨s', e, es', h, h', rfl⟩
  · rintro ⟨s', e, es', h, h', rfl⟩
    exact ⟨s', e, h, t, es', h', rfl, rfl⟩

theorem run_append {s t : σ} {is js : List ι} {es : List ε} :
    run step s (is ++ js) = some (t, es) ↔
      ∃ u es₁ es₂, run step s is = some (u, es₁) ∧ run step u js = some (t, es₂)
        ∧ es = es₁ ++ es₂ := by
  induction is generalizing s es with
  | nil => simp
  | cons i is ih =>
    simp only [cons_append, run_cons, ih]
    constructor
    · rintro ⟨s', e, es', h, ⟨u, es₁, es₂, h₁, h₂, rfl⟩, rfl⟩
      exact ⟨u, e :: es₁, es₂, ⟨s', e, es₁, h, h₁, rfl⟩, h₂, rfl⟩
    · rintro ⟨u, es₁, es₂, ⟨s', e, es', h, h₁, rfl⟩, h₂, rfl⟩
      exact ⟨s', e, es' ++ es₂, h, ⟨u, es', es₂, h₁, h₂, rfl⟩, rfl⟩

/-- What one step keeps between the state and the record of the events, a run keeps. -/
theorem run_foldl {R : σ → γ → Prop} {upd : γ → ε → γ}
    (hst : ∀ {s s' : σ} {i : ι} {e : ε} {g : γ}, R s g → step s i = some (s', e) →
      R s' (upd g e)) :
    ∀ {is : List ι} {s t : σ} {es : List ε} {g : γ}, R s g → run step s is = some (t, es) →
      R t (es.foldl upd g)
  | [], s, t, es, g, hR, h => by
    simp only [run_nil, some.injEq, Prod.mk.injEq] at h
    obtain ⟨rfl, rfl⟩ := h
    exact hR
  | i :: is, s, t, es, g, hR, h => by
    obtain ⟨s', e, es', hs, hr, rfl⟩ := run_cons.1 h
    rw [foldl_cons]
    exact run_foldl hst (hst hR hs) hr

/-- What each step keeps, a run keeps. -/
theorem run_inv {P : σ → Prop}
    (hst : ∀ {s s' : σ} {i : ι} {e : ε}, P s → step s i = some (s', e) → P s') :
    ∀ {is : List ι} {s t : σ} {es : List ε}, P s → run step s is = some (t, es) → P t
  | [], s, t, es, hP, h => by
    simp only [run_nil, some.injEq, Prod.mk.injEq] at h
    obtain ⟨rfl, rfl⟩ := h
    exact hP
  | i :: is, s, t, es, hP, h => by
    obtain ⟨s', e, es', hs, hr, rfl⟩ := run_cons.1 h
    exact run_inv hst (hst hP hs) hr

theorem run_map_inputs {g : ε → ι}
    (hg : ∀ {s s' : σ} {i : ι} {e : ε}, step s i = some (s', e) → g e = i) :
    ∀ {is : List ι} {s t : σ} {es : List ε}, run step s is = some (t, es) → es.map g = is
  | [], s, t, es, h => by
    simp only [run_nil, some.injEq, Prod.mk.injEq] at h
    rw [← h.2]
    rfl
  | i :: is, s, t, es, h => by
    obtain ⟨s', e, es', hs, hr, rfl⟩ := run_cons.1 h
    rw [map_cons, hg hs, run_map_inputs hg hr]

/-- Where every step can be taken, every run can. -/
theorem exists_run (hst : ∀ s i, ∃ s' e, step s i = some (s', e)) :
    ∀ (is : List ι) (s : σ), ∃ t es, run step s is = some (t, es)
  | [], s => ⟨s, [], rfl⟩
  | i :: is, s => by
    obtain ⟨s', e, hs⟩ := hst s i
    obtain ⟨t, es, hr⟩ := exists_run hst is s'
    exact ⟨t, e :: es, run_cons.2 ⟨s', e, es, hs, hr, rfl⟩⟩

/-- Where every step is accepted, keeps `P` and reports what `Q` allows, so does a run. -/
theorem exists_run_inv {P : σ → Prop} {Q : ε → Prop} {I : ι → Prop}
    (hst : ∀ {s : σ} {i : ι}, P s → I i → ∃ s' e, step s i = some (s', e) ∧ P s' ∧ Q e) :
    ∀ {is : List ι} {s : σ}, P s → (∀ i ∈ is, I i) →
      ∃ t es, run step s is = some (t, es) ∧ P t ∧ ∀ e ∈ es, Q e
  | [], s, hP, _ => ⟨s, [], rfl, hP, by simp⟩
  | i :: is, s, hP, hI => by
    obtain ⟨s', e, hs, hP', hQ⟩ := hst hP (hI i mem_cons_self)
    obtain ⟨t, es, hr, ht, hes⟩ :=
      exists_run_inv hst hP' fun j hj => hI j (mem_cons_of_mem _ hj)
    exact ⟨t, e :: es, run_cons.2 ⟨s', e, es, hs, hr, rfl⟩, ht, forall_mem_cons.2 ⟨hQ, hes⟩⟩

end

end Cruller
