import Cruller.Paths.Relative

/-!
# Parent or equal

`isParentOrEqual`, as it is built for Linux: the parent without its trailing separators is looked
for anywhere in the child, and the byte of the child behind the parent's length decides. An absolute
path is its names and how many separators trail it (`AbsolutePath`), and one contains another where
its names are the first ones of the other's (`containment`). Where they denote the same path the
answer is right unless separators trail the child, where the parent is above the child it is right
unless the parent is the root, and elsewhere it is wrong where the parent's text lies further inside
the child and the byte that is looked at is a separator (`isParentOrEqual_iff`).
-/

namespace Cruller.Paths

open List

inductive ParentEqual where
  | parent
  | equal
  | unrelated
  deriving DecidableEq

/-- `strings.indexOf`: an empty string is nowhere. -/
def indexOf (self str : List UInt8) : Option ℕ :=
  if self.length = 0 ∨ str.length = 0 ∨ self.length < str.length then none
  else (List.range self.length).find? fun i => str.isPrefixOf (self.drop i)

/-- `strings.contains` -/
def contains (self str : List UInt8) : Bool := (indexOf self str).isSome

/-- `while (parent.len > 0 and isSepAny(parent[parent.len - 1]))`, one byte less -/
def withoutTrailing (parent : List UInt8) : List UInt8 := parent.rdropWhile isSepAny

/-- What the code says of two paths. -/
def isParentOrEqual (parent_ child : List UInt8) : ParentEqual :=
  let parent := withoutTrailing parent_
  if contains child parent = false then .unrelated
  else if child.length = parent.length then .equal
  else if child.length > parent.length ∧ (child[parent.length]?).any isSepAny then .parent
  else .unrelated

instance : DecidablePred IsName :=
  fun n => inferInstanceAs (Decidable (¬ Special dot n ∧ sep_posix ∉ n))

/-- An absolute path, normalized but for separators behind it. -/
structure AbsolutePath where
  names : List (List UInt8)
  trailing : ℕ
  proper : ∀ n ∈ names, IsName n

namespace AbsolutePath

def text (path : AbsolutePath) : List UInt8 :=
  pathText path.names ++ List.replicate path.trailing sep_posix

/-- What is to be said of two paths. -/
def containment (parent child : AbsolutePath) : ParentEqual :=
  if parent.names = child.names then .equal
  else if parent.names <+: child.names then .parent
  else .unrelated

/-- The parent's text is somewhere in the child, and at its length the child ends, or has a
separator. -/
def LooksInside (parent child : AbsolutePath) : Prop :=
  let text := withoutTrailing parent.text
  text ≠ [] ∧ text <:+: child.text ∧
    (child.text.length = text.length ∨ (child.text[text.length]?).any isSepAny = true)

/-- Where the code says it. -/
def AnsweredRight (parent child : AbsolutePath) : Prop :=
  match containment parent child with
  | .equal => ∀ c ∈ child.text.getLast?, isSepAny c = false
  | .parent => ∃ c ∈ parent.text, isSepAny c = false
  | .unrelated => ¬ LooksInside parent child

end AbsolutePath

variable {self str : List UInt8}

theorem contains_iff : contains self str = true ↔ str ≠ [] ∧ str <:+: self := by
  rw [contains, indexOf]
  split_ifs with h
  · refine iff_of_false (by simp) fun ⟨hne, hin⟩ => ?_
    have hpos := length_pos_iff.2 hne
    have hle := hin.length_le
    omega
  · push Not at h
    rw [find?_isSome]
    refine ⟨fun ⟨i, hi, hpr⟩ => ⟨fun hnil => h.2.1 (by simp [hnil]), ?_⟩,
      fun ⟨hne, a, b, hab⟩ => ⟨a.length, ?_, ?_⟩⟩
    · exact (List.isPrefixOf_iff_prefix.1 hpr).isInfix.trans (drop_suffix i self).isInfix
    · have hpos := length_pos_iff.2 hne
      rw [mem_range, ← hab]
      simp
      omega
    · simp [← hab]

variable {parent child : List UInt8}

theorem isParentOrEqual_of_contains (hne : withoutTrailing parent ≠ [])
    (h : withoutTrailing parent <:+: child) :
    isParentOrEqual parent child =
      if child.length = (withoutTrailing parent).length then .equal
      else if (child[(withoutTrailing parent).length]?).any isSepAny then .parent
      else .unrelated := by
  have hcn : contains child (withoutTrailing parent) = true := contains_iff.2 ⟨hne, h⟩
  have hle := h.length_le
  simp only [isParentOrEqual, hcn, Bool.true_eq_false, if_false]
  split_ifs with hlen hsep hany hany
  · rfl
  · rfl
  · exact absurd hsep.2 hany
  · exact absurd ⟨by omega, hany⟩ hsep
  · rfl

theorem isParentOrEqual_of_not_contains
    (h : ¬ (withoutTrailing parent ≠ [] ∧ withoutTrailing parent <:+: child)) :
    isParentOrEqual parent child = .unrelated := by
  have hcn : contains child (withoutTrailing parent) = false := by
    rw [← Bool.not_eq_true, contains_iff]
    exact h
  simp only [isParentOrEqual, hcn, if_true]

variable {l : List UInt8}

theorem withoutTrailing_append {seps : List UInt8} (h : ∀ c ∈ seps, isSepAny c = true) :
    withoutTrailing (l ++ seps) = withoutTrailing l := by
  rw [withoutTrailing, List.rdropWhile, reverse_append,
    dropWhile_append_of_pos (by simpa using h)]
  rfl

theorem exists_trailing (l : List UInt8) :
    ∃ seps, withoutTrailing l ++ seps = l ∧ ∀ c ∈ seps, isSepAny c = true :=
  ⟨l.rtakeWhile isSepAny, rdropWhile_append_rtakeWhile .., fun _ hc =>
    mem_rtakeWhile_imp hc⟩

theorem withoutTrailing_eq_self_iff :
    withoutTrailing l = l ↔ ∀ c ∈ l.getLast?, isSepAny c = false := by
  rcases eq_nil_or_concat' l with rfl | ⟨l, c, rfl⟩
  · simp [withoutTrailing]
  · simp [withoutTrailing]

theorem withoutTrailing_ne_nil_iff :
    withoutTrailing l ≠ [] ↔ ∃ c ∈ l, isSepAny c = false := by
  rw [withoutTrailing, ne_eq, rdropWhile_eq_nil_iff]
  simp

theorem isSepAny_of_mem_replicate {n : ℕ} {c : UInt8} (h : c ∈ List.replicate n sep_posix) :
    isSepAny c = true := by
  rw [eq_of_mem_replicate h]
  rfl

namespace AbsolutePath

variable {parent child : AbsolutePath}

theorem withoutTrailing_text (path : AbsolutePath) :
    withoutTrailing path.text = withoutTrailing (pathText path.names) :=
  withoutTrailing_append fun _ => isSepAny_of_mem_replicate

theorem text_ne_nil (path : AbsolutePath) : path.text ≠ [] := by
  simp [text, pathText]

theorem answer_equal (h : parent.names = child.names) :
    isParentOrEqual parent.text child.text = .equal ↔
      ∀ c ∈ child.text.getLast?, isSepAny c = false := by
  have hsm : withoutTrailing parent.text = withoutTrailing child.text := by
    rw [withoutTrailing_text, withoutTrailing_text, h]
  have hpr : withoutTrailing child.text <+: child.text :=
    rdropWhile_prefix isSepAny child.text
  rw [← withoutTrailing_eq_self_iff]
  by_cases hne : withoutTrailing child.text = []
  · rw [isParentOrEqual_of_not_contains (by rw [hsm]; exact fun h => h.1 hne), hne]
    exact iff_of_false nofun fun hnil => text_ne_nil child hnil.symm
  · rw [isParentOrEqual_of_contains (hsm ▸ hne) (hsm ▸ hpr.isInfix), hsm]
    refine ⟨fun heq => ?_, fun heq => if_pos (congrArg List.length heq).symm⟩
    split_ifs at heq with hlen
    exact hpr.eq_of_length hlen.symm

theorem answer_parent (hne : parent.names ≠ child.names) (h : parent.names <+: child.names) :
    isParentOrEqual parent.text child.text = .parent ↔ ∃ c ∈ parent.text, isSepAny c = false := by
  rw [← withoutTrailing_ne_nil_iff]
  by_cases hnil : withoutTrailing parent.text = []
  · simp [isParentOrEqual_of_not_contains fun h => h.1 hnil]
    omega
  · refine iff_of_true ?_ hnil
    have hrt : parent.names ≠ [] := by
      intro hrt
      rw [withoutTrailing_text, hrt] at hnil
      exact hnil (by decide)
    obtain ⟨rest, hrs⟩ := h
    have hrn : rest ≠ [] := by
      rintro rfl
      exact hne (by rw [← hrs, append_nil])
    obtain ⟨seps, hsp, hsep⟩ := exists_trailing (pathText parent.names)
    rw [← withoutTrailing_text] at hsp
    have htx : ∃ tail, child.text = withoutTrailing parent.text ++ (seps ++ sep_posix :: tail) := by
      refine ⟨[sep_posix].intercalate rest ++ List.replicate child.trailing sep_posix, ?_⟩
      rw [text, ← hrs, pathText_append _ hrn, ← pathText_concat_sep hrt, ← hsp]
      simp
    obtain ⟨tail, htx⟩ := htx
    have hnx : (child.text[(withoutTrailing parent.text).length]?).any isSepAny = true := by
      rw [htx, getElem?_append_right le_rfl, Nat.sub_self]
      rcases seps with _ | ⟨c, seps⟩
      · rfl
      · exact hsep c mem_cons_self
    have hlen := congrArg List.length htx
    rw [length_append, length_append, length_cons] at hlen
    rw [isParentOrEqual_of_contains hnil ⟨[], _, by rw [nil_append, ← htx]⟩,
      if_neg (by omega), if_pos hnx]

theorem answer_unrelated (parent child : AbsolutePath) :
    isParentOrEqual parent.text child.text = .unrelated ↔ ¬ parent.LooksInside child := by
  by_cases h : withoutTrailing parent.text ≠ [] ∧ withoutTrailing parent.text <:+: child.text
  · rw [isParentOrEqual_of_contains h.1 h.2, LooksInside]
    simp only [h, true_and]
    split_ifs <;> simp_all
  · rw [isParentOrEqual_of_not_contains h]
    exact iff_of_true rfl fun hlk => h ⟨hlk.1, hlk.2.1⟩

end AbsolutePath

/-- The answer is the containment of the paths just where it is answered right: the search does not
find the root, does not tell a path from itself with a separator behind it, and finds the parent's
text anywhere. -/
theorem isParentOrEqual_iff (parent child : AbsolutePath) :
    isParentOrEqual parent.text child.text = parent.containment child ↔
      parent.AnsweredRight child := by
  rw [AbsolutePath.AnsweredRight, AbsolutePath.containment]
  by_cases heq : parent.names = child.names
  · rw [if_pos heq]
    exact AbsolutePath.answer_equal heq
  · rw [if_neg heq]
    by_cases hprefix : parent.names <+: child.names
    · rw [if_pos hprefix]
      exact AbsolutePath.answer_parent heq hprefix
    · rw [if_neg hprefix]
      exact AbsolutePath.answer_unrelated parent child

/-- `/b` is no directory above `/a/b`. -/
theorem isParentOrEqual_inside :
    let parent : AbsolutePath := ⟨[[0x62]], 0, by decide⟩
    let child : AbsolutePath := ⟨[[0x61], [0x62]], 0, by decide⟩
    isParentOrEqual parent.text child.text ≠ parent.containment child := by
  decide

end Cruller.Paths
