import Cruller.Lib.Search

/-!
# Mappings

`sourcemap/Mapping.zig`: the list of mappings that a map is decoded to, and the search in it. In a
list sorted by generated position the search finds the last mapping at or before the target and
drops it when it lies on another line (`find_withoutNames`).
-/

namespace Cruller.SourceMap

open List Option

/-- Zero-based. -/
structure LineColumnOffset where
  lines : ℤ
  columns : ℤ
  deriving DecidableEq, Repr

/-- A place of the output and the one of the source that it comes from. -/
structure Mapping where
  generated : LineColumnOffset
  original : LineColumnOffset
  sourceIndex : ℤ
  nameIndex : ℤ := -1
  deriving DecidableEq, Repr

/-- A mapping that names nothing. -/
structure MappingWithoutName where
  generated : LineColumnOffset
  original : LineColumnOffset
  sourceIndex : ℤ
  deriving DecidableEq, Repr

def MappingWithoutName.toNamed (m : MappingWithoutName) : Mapping where
  generated := m.generated
  original := m.original
  sourceIndex := m.sourceIndex
  nameIndex := -1

/-- `Mapping.List.Value` -/
inductive MappingList
  | withoutNames (list : List MappingWithoutName)
  | withNames (list : List Mapping)
  deriving DecidableEq

namespace MappingList

def ensureWithNames : MappingList → MappingList
  | .withNames list => .withNames list
  | .withoutNames list => .withNames (list.map MappingWithoutName.toNamed)

/-- One mapping more; a list without names drops its name. -/
def append (list : MappingList) (mapping : Mapping) : MappingList :=
  match list with
  | .withoutNames list => .withoutNames
      (list ++ [{ generated := mapping.generated
                  original := mapping.original
                  sourceIndex := mapping.sourceIndex }])
  | .withNames list => .withNames (list ++ [mapping])

/-- `SortContext.lessThan`, but for the indices, which a stable sort leaves in order. -/
def lessThan (a b : LineColumnOffset) : Bool :=
  if a.lines ≠ b.lines then a.lines < b.lines else a.columns < b.columns

/-- By their places in the output, in a stable way. -/
def sort : MappingList → MappingList
  | .withoutNames list => .withoutNames (list.mergeSort fun a b => !lessThan b.generated a.generated)
  | .withNames list => .withNames (list.mergeSort fun a b => !lessThan b.generated a.generated)

end MappingList

/-- The place is not behind a line and column. -/
def LineColumnOffset.lessOrEqual (g : LineColumnOffset) (line column : ℤ) : Bool :=
  g.lines < line || (g.lines = line && g.columns ≤ column)

/-- `none` is an index out of bounds; `some none` is the `null` of the source. -/
def findIndexFromGenerated (offsets : List LineColumnOffset) (line column : ℤ) :
    Option (Option ℕ) := do
  let index ← bisectCount (fun i => offsets[i]?.map fun g => g.lessOrEqual line column)
    offsets.length 0 offsets.length
  if index > 0 then
    (offsets[index - 1]?).map fun g => if g.lines = line then some (index - 1) else none
  else some none

/-- The mapping at or before a place, on its line. -/
def findIn {α : Type} (generated : α → LineColumnOffset) (named : α → Mapping) (list : List α)
    (line column : ℤ) : Option (Option Mapping) := do
  match ← findIndexFromGenerated (list.map generated) line column with
  | some i => (list[i]?).map fun m => some (named m)
  | none => some none

def MappingList.find (list : MappingList) (line column : ℤ) : Option (Option Mapping) :=
  match list with
  | .withoutNames list => findIn MappingWithoutName.generated MappingWithoutName.toNamed list line column
  | .withNames list => findIn Mapping.generated id list line column

/-- The order of places. -/
def LineColumnOffset.Before (g h : LineColumnOffset) : Prop :=
  g.lines < h.lines ∨ g.lines = h.lines ∧ g.columns ≤ h.columns

theorem LineColumnOffset.Before.lessOrEqual {g h : LineColumnOffset} {line column : ℤ}
    (hb : g.Before h) (hh : h.lessOrEqual line column) : g.lessOrEqual line column := by
  simp only [LineColumnOffset.lessOrEqual, Bool.or_eq_true, Bool.and_eq_true,
    decide_eq_true_eq] at hh ⊢
  rcases hb with hb | ⟨hb, hb'⟩ <;> omega

/-- The last element at or before the target, unless it lies on another line. -/
def lastOnLine {α : Type} (generated : α → LineColumnOffset) (line column : ℤ) (list : List α) :
    Option α :=
  ((list.filter fun m => (generated m).lessOrEqual line column).getLast?).filter
    fun m => (generated m).lines = line

section

variable {α : Type} {generated : α → LineColumnOffset} {named : α → Mapping} {list : List α}
  {line column : ℤ}

theorem turns_of_sorted (h : list.Pairwise fun a b => (generated a).Before (generated b)) :
    Turns (fun m => (generated m).lessOrEqual line column) list :=
  h.imp fun hb hh => hb.lessOrEqual hh

theorem findIn_eq (h : list.Pairwise fun a b => (generated a).Before (generated b)) :
    findIn generated named list line column =
      some ((lastOnLine generated line column list).map named) := by
  have htr : Turns (fun m => (generated m).lessOrEqual line column) list := turns_of_sorted h
  have hle : ∀ i < (list.map generated).length,
      ((list.map generated)[i]?.map fun g => g.lessOrEqual line column) =
        some (decide (i < list.countP fun m => (generated m).lessOrEqual line column)) := by
    intro i hi
    have hi' : i < list.length := by simpa using hi
    rw [getElem?_eq_getElem hi, map_some, getElem_map, htr.getElem hi']
  have hsr := bisectCount_eq (b := list.countP fun m => (generated m).lessOrEqual line column)
    (m := (list.map generated).length)
    (n := (list.map generated).length)
    hle le_rfl (Nat.zero_le _) (by simpa using countP_le_length)
    (show 0 + (list.map generated).length ≤ _ by omega)
  have hls := htr.getLast?_filter
  have hle : list.countP (fun m => (generated m).lessOrEqual line column) ≤ list.length :=
    countP_le_length
  unfold findIn findIndexFromGenerated lastOnLine
  rw [hsr, hls]
  generalize (list.countP fun m => (generated m).lessOrEqual line column) = b at *
  rcases b with _ | b
  · rfl
  · simp only [bind_eq_bind, bind_some, Nat.succ_ne_zero, if_false,
      Nat.add_sub_cancel, gt_iff_lt, Nat.succ_pos, if_true, getElem?_map,
      getElem?_eq_getElem (show b < list.length by omega), map_some]
    by_cases hl : (generated list[b]).lines = line
    · simp [hl, Option.filter, getElem?_eq_getElem (show b < list.length by omega)]
    · simp [hl, Option.filter]

end

theorem find_withoutNames {list : List MappingWithoutName} {line column : ℤ}
    (h : list.Pairwise fun a b => a.generated.Before b.generated) :
    (MappingList.withoutNames list).find line column =
      some ((lastOnLine MappingWithoutName.generated line column list).map
        MappingWithoutName.toNamed) := findIn_eq h

end Cruller.SourceMap
