import Cruller.SourceMap.Chunk

/-!
# Lookups

A sorted list of mappings, recorded with the separators that its lines ask for (`eventsOf`), is
found in the blob as it is found in the list itself.
-/

namespace Cruller.SourceMap

open List

/-- A mapping, as the blob has it. -/
def MappingWithoutName.toState (m : MappingWithoutName) : State where
  generatedLine := m.generated.lines
  generatedColumn := m.generated.columns
  sourceIndex := m.sourceIndex
  originalLine := m.original.lines
  originalColumn := m.original.columns

/-- A mapping, as the text has it. -/
def MappingWithoutName.current (m : MappingWithoutName) : SourceMapState where
  generatedLine := m.generated.lines
  generatedColumn := m.generated.columns
  sourceIndex := m.sourceIndex
  originalLine := m.original.lines
  originalColumn := m.original.columns

/-- The calls that record the mappings from line `line` on. -/
def eventsOf : ℤ → List MappingWithoutName → List Event
  | _, [] => []
  | line, m :: ms => List.replicate (m.generated.lines - line).toNat .separator
      ++ .mapping m.current :: eventsOf m.generated.lines ms

variable {ms : List MappingWithoutName} {m : MappingWithoutName} {blob : List UInt8}

theorem recorded_separators (n : ℕ) (line : ℤ) (es : List Event) :
    recorded line (List.replicate n .separator ++ es) = recorded (line + n) es := by
  induction n generalizing line with
  | zero => simp
  | succ n ih =>
    rw [replicate_succ, cons_append, recorded, ih]
    congr 1
    push_cast
    omega

theorem recorded_eventsOf {line : ℤ} (hln : ∀ m ∈ ms, line ≤ m.generated.lines)
    (hs : ms.Pairwise fun a b => a.generated.Before b.generated) :
    recorded line (eventsOf line ms) = ms.map MappingWithoutName.toState := by
  induction ms generalizing line with
  | nil => rfl
  | cons m ms ih =>
    obtain ⟨hm, hms⟩ := pairwise_cons.1 hs
    have hle : ∀ b ∈ ms, m.generated.lines ≤ b.generated.lines := fun b hb => by
      rcases hm b hb with h | h <;> omega
    have hl := hln m mem_cons_self
    rw [eventsOf, recorded_separators, recorded,
      show line + ((m.generated.lines - line).toNat : ℤ) = m.generated.lines by omega, ih hle hms]
    rfl

theorem mem_eventsOf {line : ℤ} {c : SourceMapState} (h : .mapping c ∈ eventsOf line ms) :
    ∃ m ∈ ms, c = m.current := by
  induction ms generalizing line with
  | nil => simp [eventsOf] at h
  | cons m ms ih =>
    rw [eventsOf, mem_append, mem_cons] at h
    rcases h with h | h | h
    · simp [mem_replicate] at h
    · exact ⟨m, mem_cons_self, Event.mapping.inj h⟩
    · obtain ⟨m', hm', hc⟩ := ih h
      exact ⟨m', mem_cons_of_mem _ hm', hc⟩

theorem lastOnLine_map (line col : ℤ) (ms : List MappingWithoutName) :
    (lastOnLine State.generated line col (ms.map MappingWithoutName.toState)).map State.toMapping =
      (lastOnLine MappingWithoutName.generated line col ms).map MappingWithoutName.toNamed := by
  rw [lastOnLine, lastOnLine, filter_map, getLast?_map, Option.filter_map,
    Option.map_map]
  rfl

/-- The fields of a mapping are `i32`s, and it lies on a line of the output. -/
structure MappingWithoutName.Valid (m : MappingWithoutName) : Prop where
  fits : m.toState.Fits
  line : 0 ≤ m.generated.lines

/-- `find` on the blob and `Mapping.List.find` on the list give the same mapping or both none. -/
theorem find_eq_find (lines : ℕ) (hv : ∀ m ∈ ms, m.Valid)
    (hs : ms.Pairwise fun a b => a.generated.Before b.generated)
    (hb : encodeBlob lines (eventsOf 0 ms) = some blob) (line col : ℤ) :
    ∃ found, (InternalSourceMap.mk blob).find line col = some found
      ∧ (MappingList.withoutNames ms).find line col = some found := by
  have hf : ∀ c, .mapping c ∈ eventsOf 0 ms → c.Fits := by
    intro c hc
    obtain ⟨m, hm, rfl⟩ := mem_eventsOf hc
    obtain ⟨-, h2, h3, h4, h5⟩ := (hv m hm).fits
    exact ⟨h2, h3, h4, h5⟩
  obtain ⟨-, wins, hpieces, hholds⟩ := encode_holds hf hb
  rw [recorded_eventsOf (fun m hm => (hv m hm).line) hs] at hpieces
  have hsorted : (pieces wins).Pairwise fun a b => a.generated.Before b.generated := by
    rw [hpieces, pairwise_map]
    exact hs
  refine ⟨_, ?_, find_withoutNames hs⟩
  rw [hholds.find hsorted, hpieces, lastOnLine_map]

/-- A position behind two mappings of its line and before the next line. -/
theorem find_eq_find_between :
    ∃ blob found, encodeBlob 2 (eventsOf 0 [⟨⟨0, 0⟩, ⟨0, 0⟩, 0⟩, ⟨⟨0, 4⟩, ⟨1, 2⟩, 0⟩,
        ⟨⟨2, 3⟩, ⟨1, 5⟩, 0⟩]) = some blob
      ∧ (InternalSourceMap.mk blob).find 0 9 = some found
      ∧ (MappingList.withoutNames [⟨⟨0, 0⟩, ⟨0, 0⟩, 0⟩, ⟨⟨0, 4⟩, ⟨1, 2⟩, 0⟩,
        ⟨⟨2, 3⟩, ⟨1, 5⟩, 0⟩]).find 0 9 = some found := by
  have hb : (encodeBlob 2 (eventsOf 0 [⟨⟨0, 0⟩, ⟨0, 0⟩, 0⟩, ⟨⟨0, 4⟩, ⟨1, 2⟩, 0⟩,
      ⟨⟨2, 3⟩, ⟨1, 5⟩, 0⟩])).isSome := by decide +kernel
  obtain ⟨blob, hb⟩ := Option.isSome_iff_exists.1 hb
  have hv : ∀ m ∈ ([⟨⟨0, 0⟩, ⟨0, 0⟩, 0⟩, ⟨⟨0, 4⟩, ⟨1, 2⟩, 0⟩, ⟨⟨2, 3⟩, ⟨1, 5⟩, 0⟩] :
      List MappingWithoutName), m.Valid := by
    intro m hm
    fin_cases hm <;> exact ⟨⟨by decide, by decide, by decide, by decide, by decide⟩, by decide⟩
  obtain ⟨found, h⟩ := find_eq_find 2 hv (by simp [LineColumnOffset.Before]) hb 0 9
  exact ⟨blob, found, hb, h⟩

end Cruller.SourceMap
