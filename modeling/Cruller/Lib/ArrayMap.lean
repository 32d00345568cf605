import Mathlib.Tactic

/-!
# Maps that keep the order of insertion

An array map keeps its entries in the order in which their keys first came. Putting a value under a
key that is there replaces the value in its place, and any other key goes to the end, so the first
entries of a map are those of any map that it was grown from (`prefix_put`).
-/

namespace Cruller

open List Option

variable {κ α : Type*} [DecidableEq κ]

/-- The entries with `v` under `k`. -/
def assocPut (k : κ) (v : α) : List (κ × α) → List (κ × α)
  | [] => [(k, v)]
  | e :: l => if e.1 = k then (k, v) :: l else e :: assocPut k v l

attribute [local simp] assocPut

variable {k : κ} {v : α} {l : List (κ × α)}

lemma mem_keys_assocPut {k' : κ} :
    k' ∈ (assocPut k v l).map Prod.fst ↔ k' = k ∨ k' ∈ l.map Prod.fst := by
  induction l with
  | nil => simp
  | cons e l ih =>
    unfold assocPut
    split_ifs with h
    · simp [h]
    · rw [map_cons, mem_cons, ih, map_cons, mem_cons]
      tauto

lemma nodup_assocPut (h : (l.map Prod.fst).Nodup) :
    ((assocPut k v l).map Prod.fst).Nodup := by
  induction l with
  | nil => simp
  | cons e l ih =>
    rw [map_cons, nodup_cons] at h
    unfold assocPut
    split_ifs with hk
    · rw [map_cons, nodup_cons]
      exact ⟨hk ▸ h.1, h.2⟩
    · rw [map_cons, nodup_cons, mem_keys_assocPut]
      exact ⟨fun hmem => hmem.elim hk h.1, ih h.2⟩

lemma assocPut_append {old new : List (κ × α)} (h : k ∉ old.map Prod.fst) :
    assocPut k v (old ++ new) = old ++ assocPut k v new := by
  induction old with
  | nil => rfl
  | cons e old ih =>
    rw [map_cons, mem_cons, not_or] at h
    rw [cons_append, assocPut, if_neg (Ne.symm h.1), ih h.2, cons_append]

lemma mem_assocPut (h : (l.map Prod.fst).Nodup) {e : κ × α} :
    e ∈ assocPut k v l ↔ e = (k, v) ∨ e ∈ l ∧ e.1 ≠ k := by
  induction l with
  | nil => simp
  | cons e' l ih =>
    rw [map_cons, nodup_cons] at h
    unfold assocPut
    split_ifs with hk
    · have hot : e ∈ l → e.1 ≠ k := fun hmem heq =>
        h.1 (by rw [hk, ← heq]; exact List.mem_map_of_mem hmem)
      constructor
      · intro he
        rcases mem_cons.1 he with rfl | hmem
        · exact .inl rfl
        · exact .inr ⟨mem_cons_of_mem _ hmem, hot hmem⟩
      · rintro (rfl | ⟨he, hne⟩)
        · exact mem_cons_self
        · rcases mem_cons.1 he with rfl | hmem
          · exact absurd hk hne
          · exact mem_cons_of_mem _ hmem
    · rw [mem_cons, ih h.2, mem_cons]
      constructor
      · rintro (rfl | rfl | ⟨hmem, hne⟩)
        · exact .inr ⟨.inl rfl, hk⟩
        · exact .inl rfl
        · exact .inr ⟨.inr hmem, hne⟩
      · rintro (rfl | ⟨rfl | hmem, hne⟩)
        · exact .inr (.inl rfl)
        · exact .inl rfl
        · exact .inr (.inr ⟨hmem, hne⟩)

/-- A map that remembers the order in which its keys came. -/
structure ArrayMap (κ α : Type*) where
  entries : List (κ × α)
  nodup : (entries.map Prod.fst).Nodup

namespace ArrayMap

variable (m : ArrayMap κ α)

def empty : ArrayMap κ α := ⟨[], List.nodup_nil⟩

def keys : List κ := m.entries.map Prod.fst

def count : ℕ := m.entries.length

def index? (k : κ) : Option ℕ := m.entries.findIdx? fun e => e.1 = k

/-- The value of the first entry with the key. -/
def get? (k : κ) : Option α := (m.entries.find? fun e => e.1 = k).map Prod.snd

/-- The value of a key, which keeps its place if it has one. -/
def put (k : κ) (v : α) : ArrayMap κ α := ⟨assocPut k v m.entries, nodup_assocPut m.nodup⟩

variable {m}

variable {k : κ} {m₀ : ArrayMap κ α}

lemma index?_eq_none : m.index? k = none ↔ k ∉ m.keys := by
  simp only [index?, findIdx?_eq_none_iff, keys, List.mem_map, not_exists, not_and,
    decide_eq_false_iff_not]

lemma index?_lt_iff (h : m₀.entries <+: m.entries) {i : ℕ}
    (hi : m.index? k = some i) : i < m₀.count ↔ k ∈ m₀.keys := by
  obtain ⟨new, hnew⟩ := h
  rw [index?, ← hnew, findIdx?_append] at hi
  cases hfn : m₀.index? k with
  | none =>
    rw [index?] at hfn
    rw [hfn, none_or] at hi
    obtain ⟨j, -, rfl⟩ := map_eq_some_iff.1 hi
    exact iff_of_false (by unfold count; omega) (index?_eq_none.1 hfn)
  | some j =>
    rw [index?] at hfn
    rw [hfn, some_or] at hi
    obtain rfl := some.inj hi
    have hk : k ∈ m₀.keys := by
      by_contra hk
      rw [← index?_eq_none, index?, hfn] at hk
      exact some_ne_none j hk
    exact iff_of_true (findIdx?_eq_some_iff_findIdx_eq.1 hfn).1 hk

omit [DecidableEq κ] in
lemma keys_subset (h : m₀.entries <+: m.entries) (hk : k ∈ m₀.keys) :
    k ∈ m.keys :=
  (h.map Prod.fst).subset hk

lemma get?_eq_some {v : α} : m.get? k = some v ↔ (k, v) ∈ m.entries := by
  constructor
  · intro h
    obtain ⟨e, he, rfl⟩ := map_eq_some_iff.1 h
    have hk : e.1 = k := by simpa using find?_some he
    rw [← hk]
    exact mem_of_find?_eq_some he
  · intro h
    have hsm : (m.entries.find? fun e => e.1 = k).isSome := by
      rw [find?_isSome]
      exact ⟨(k, v), h, by simp⟩
    obtain ⟨e, he⟩ := isSome_iff_exists.1 hsm
    have hk : e.1 = k := by simpa using find?_some he
    have heq : e = (k, v) :=
      inj_on_of_nodup_map m.nodup (mem_of_find?_eq_some he) h hk
    rw [get?, he, heq]
    rfl

lemma get?_eq_none : m.get? k = none ↔ k ∉ m.keys := by
  simp only [get?, map_eq_none_iff, find?_eq_none, decide_eq_true_eq, keys,
    List.mem_map, not_exists, not_and]

lemma get?_put (k k' : κ) (v : α) :
    (m.put k v).get? k' = if k' = k then some v else m.get? k' := by
  ext w
  rw [get?_eq_some, put, mem_assocPut m.nodup]
  split_ifs with h
  · subst h
    simp [eq_comm]
  · simp [h, get?_eq_some]

/-- The first entries of a map stay where a new key is put. -/
lemma prefix_put (h : m₀.entries <+: m.entries) (hk : k ∉ m₀.keys)
    (v : α) : m₀.entries <+: (m.put k v).entries := by
  obtain ⟨new, hnew⟩ := h
  refine ⟨assocPut k v new, ?_⟩
  rw [← assocPut_append hk, hnew]
  rfl

lemma get?_of_prefix (h : m₀.entries <+: m.entries)
    (hk : k ∈ m₀.keys) : m.get? k = m₀.get? k := by
  obtain ⟨v, hv⟩ := ne_none_iff_exists'.1 (mt get?_eq_none.1 (not_not.2 hk))
  rw [hv, get?_eq_some]
  exact h.subset (get?_eq_some.1 hv)

end ArrayMap

end Cruller
