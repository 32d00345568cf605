import Cruller.Dotenv.Loader

/-!
# Which definition of a variable wins

A file that is parsed without override adds entries for the keys that were not there, each with the
value of its last definition, and leaves all others as they were (`Adds`). So the process
environment comes first, then the first of the files that defines the key (`precedence`).
-/

namespace Cruller.Dotenv

open List Option

variable {override is_process : Bool} {count : ℕ}

/-- The last definition of a key. -/
def lastOf (key : List UInt8) (defs : List (List UInt8 × List UInt8)) : Option (List UInt8) :=
  (defs.reverse.find? fun d => d.1 = key).map Prod.snd

lemma lastOf_concat (key : List UInt8) (defs : List (List UInt8 × List UInt8))
    (d : List UInt8 × List UInt8) :
    lastOf key (defs ++ [d]) = if d.1 = key then some d.2 else lastOf key defs := by
  unfold lastOf
  rw [reverse_append, reverse_singleton, singleton_append, find?_cons]
  by_cases h : d.1 = key <;> simp [h]

lemma parseLoop_eq : ∀ (src : List UInt8) (map : Loader),
    parseLoop override is_process count src map =
      (definitions is_process src).foldlM
        (fun map d => map.define override count d.1 d.2) map
  | [], map => by simp [parseLoop, definitions]
  | c :: src, map => by
    rw [parseLoop, definitions]
    cases hkey : parseKey (skipWhitespaces (c :: src)) with
    | none => exact parseLoop_eq _ map
    | some r =>
      rw [foldlM_cons]
      exact bind_congr fun map => parseLoop_eq _ map
termination_by src => src.length
decreasing_by
  · exact length_skipLine_lt (List.cons_ne_nil c src)
  · have hlt := length_parseKey_lt hkey
    have hws := length_skipWhitespaces_le (c :: src)
    have hvl := length_parseValue_le is_process r.2
    omega

namespace Heap

variable {h : Heap}

lemma text_dupe (text : List UInt8) : (h.dupe text).2.text (h.dupe text).1 = some text := by
  simp [dupe, Heap.text]

lemma text_of_prefix {h' : Heap} (hcl : h.cells <+: h'.cells) {s : Slice} {t : List UInt8}
    (hs : h.text s = some t) : h'.text s = some t := by
  rcases s with t' | address
  · exact hs
  · simp only [Heap.text] at hs ⊢
    obtain ⟨cells, hcl⟩ := hcl
    have hlt : address < h.cells.length := by
      by_contra hge
      rw [getElem?_eq_none (Nat.le_of_not_lt hge)] at hs
      simp at hs
    rwa [← hcl, getElem?_append_left hlt]

lemma free_eq {address : ℕ} {t : List UInt8} (ht : h.text (.allocated address) = some t) :
    h.free (.allocated address) = some ⟨h.cells.set address none⟩ := by
  simp only [Heap.text] at ht
  simp [free, ht]

lemma text_set {address : ℕ} {s : Slice} (hs : s ≠ .allocated address) :
    (⟨h.cells.set address none⟩ : Heap).text s = h.text s := by
  rcases s with t | address'
  · rfl
  · have hne : address ≠ address' := fun heq => hs (heq ▸ rfl)
    simp [Heap.text, getElem?_set_ne hne]

end Heap

namespace Loader

/-- Every value shows its text. -/
def Live (s : Loader) : Prop := ∀ e ∈ s.map.entries, (s.heap.text e.2.value).isSome

/-- What a file has made of the loader `s₀`, with the definitions that are read of it so far. Its
values lie in memory of its own, one for each key. -/
structure Adds (s₀ : Loader) (defs : List (List UInt8 × List UInt8)) (s : Loader) : Prop where
  entries : s₀.map.entries <+: s.map.entries
  cells : s₀.heap.cells <+: s.heap.cells
  owned : ∀ key ∉ s₀.map.keys, ∀ v, s.map.get? key = some v →
    ∃ address t, v.value = .allocated address ∧ s₀.heap.cells.length ≤ address ∧
      s.heap.text v.value = some t
  inj : ∀ key ∉ s₀.map.keys, ∀ key' ∉ s₀.map.keys, ∀ v v', s.map.get? key = some v →
    s.map.get? key' = some v' → v.value = v'.value → key = key'
  get : ∀ key ∉ s₀.map.keys, s.get key = lastOf key defs

variable {s₀ s : Loader} {defs : List (List UInt8 × List UInt8)}

variable {key : List UInt8}

lemma get_of_not_mem (h : key ∉ s.map.keys) : s.get key = none := by
  rw [get, ArrayMap.get?_eq_none.2 h]
  rfl

lemma Adds.refl (s₀ : Loader) : Adds s₀ [] s₀ where
  entries := prefix_rfl
  cells := prefix_rfl
  owned key hkey v hv := absurd (ArrayMap.get?_eq_none.2 hkey) (by simp [hv])
  inj key hkey _ _ v _ hv := absurd (ArrayMap.get?_eq_none.2 hkey) (by simp [hv])
  get key hkey := get_of_not_mem hkey

lemma Adds.skip (h : Adds s₀ defs s) (hkey : key ∈ s₀.map.keys)
    (value : List UInt8) : Adds s₀ (defs ++ [(key, value)]) s := by
  refine ⟨h.entries, h.cells, h.owned, h.inj, fun key' hkey' => ?_⟩
  have hne : key ≠ key' := fun heq => hkey' (heq ▸ hkey)
  rw [lastOf_concat, if_neg hne, h.get key' hkey']

/-- The loader once the key has a copy of the value, in a heap that may lack what it had before. -/
abbrev stored (s : Loader) (heap : Heap) (key value : List UInt8) : Loader :=
  ({ s with heap := heap } : Loader).store key value

lemma get?_stored {heap : Heap} {key' value : List UInt8} :
    (s.stored heap key value).map.get? key' =
      if key' = key then some ⟨.allocated heap.cells.length, false⟩ else s.map.get? key' :=
  ArrayMap.get?_put ..

/-- Any other key gets memory of its own, where the texts of the other keys are still there. -/
lemma Adds.store (h : Adds s₀ defs s) (hkey : key ∉ s₀.map.keys)
    (value : List UInt8) {heap : Heap} (hcl : s₀.heap.cells <+: heap.cells)
    (htx : ∀ key' ∉ s₀.map.keys, key' ≠ key → ∀ v, s.map.get? key' = some v →
      heap.text v.value = s.heap.text v.value) :
    Adds s₀ (defs ++ [(key, value)]) (s.stored heap key value) := by
  have hot : ∀ key' ∉ s₀.map.keys, key' ≠ key → ∀ v, s.map.get? key' = some v →
      ∃ address t, v.value = .allocated address ∧ s₀.heap.cells.length ≤ address ∧
        heap.text v.value = some t ∧ s.heap.text v.value = some t ∧
        (s.stored heap key value).heap.text v.value = some t := by
    intro key' hkey' hne v hv
    obtain ⟨address, t, had, hle, ht⟩ := h.owned key' hkey' v hv
    have ht' : heap.text v.value = some t := (htx key' hkey' hne v hv).trans ht
    exact ⟨address, t, had, hle, ht', ht,
      Heap.text_of_prefix (prefix_append ..) ht'⟩
  have hfr : ∀ t, heap.text (.allocated heap.cells.length) ≠ some t := by
    simp [Heap.text]
  have hvl : (s.stored heap key value).heap.text (.allocated heap.cells.length) = some value :=
    Heap.text_dupe value
  refine ⟨ArrayMap.prefix_put h.entries hkey _, hcl.trans (prefix_append ..), ?_, ?_, ?_⟩
  · intro key' hkey' v hv
    rw [get?_stored] at hv
    split_ifs at hv with heq
    · obtain rfl := some.inj hv
      exact ⟨_, value, rfl, hcl.length_le, hvl⟩
    · obtain ⟨address, t, had, hle, -, -, ht⟩ := hot key' hkey' heq v hv
      exact ⟨address, t, had, hle, ht⟩
  · intro key' hkey' key'' hkey'' v' v'' hv' hv'' heq
    rw [get?_stored] at hv' hv''
    split_ifs at hv' with h1 <;> split_ifs at hv'' with h2
    · rw [h1, h2]
    · obtain rfl := some.inj hv'
      obtain ⟨-, t, -, -, ht, -⟩ := hot key'' hkey'' h2 v'' hv''
      rw [← heq] at ht
      exact absurd ht (hfr t)
    · obtain rfl := some.inj hv''
      obtain ⟨-, t, -, -, ht, -⟩ := hot key' hkey' h1 v' hv'
      rw [heq] at ht
      exact absurd ht (hfr t)
    · exact h.inj key' hkey' key'' hkey'' v' v'' hv' hv'' heq
  · intro key' hkey'
    rw [lastOf_concat, Loader.get, get?_stored]
    by_cases heq : key' = key
    · rw [if_pos heq, if_pos heq.symm, bind_some, hvl]
    · rw [if_neg heq, if_neg (Ne.symm heq), ← h.get key' hkey', Loader.get]
      cases hv : s.map.get? key' with
      | none => rfl
      | some v =>
        obtain ⟨-, t, -, -, -, ht, ht'⟩ := hot key' hkey' heq v hv
        rw [bind_some, bind_some, ht, ht']

lemma Adds.define (h : Adds s₀ defs s) (key value : List UInt8) :
    ∃ s', s.define false s₀.map.count key value = some s' ∧
      Adds s₀ (defs ++ [(key, value)]) s' := by
  unfold Loader.define
  cases hin : s.map.index? key with
  | none =>
    have hkey : key ∉ s₀.map.keys :=
      fun hmem => ArrayMap.index?_eq_none.1 hin (ArrayMap.keys_subset h.entries hmem)
    exact ⟨_, rfl, h.store hkey value h.cells fun _ _ _ _ _ => rfl⟩
  | some index =>
    have hlt := ArrayMap.index?_lt_iff h.entries hin
    dsimp only
    by_cases hkey : key ∈ s₀.map.keys
    · rw [if_pos (hlt.2 hkey)]
      exact ⟨s, rfl, h.skip hkey value⟩
    · rw [if_neg (mt hlt.1 hkey)]
      have hsm : s.map.get? key ≠ none := fun hno =>
        absurd (ArrayMap.index?_eq_none.2 (ArrayMap.get?_eq_none.1 hno)) (by simp [hin])
      obtain ⟨v, hv⟩ := ne_none_iff_exists'.1 hsm
      obtain ⟨address, t, had, hle, ht⟩ := h.owned key hkey v hv
      rw [had] at ht
      simp only [hv, had, Heap.free_eq ht, bind_eq_bind, bind_some]
      refine ⟨_, rfl, h.store hkey value ?_ fun key' hkey' hne v' hv' => ?_⟩
      · obtain ⟨cells, hcl⟩ := h.cells
        rw [← hcl, set_append_right _ _ hle]
        exact prefix_append ..
      · refine Heap.text_set fun heq => hne ?_
        exact h.inj key' hkey' key hkey v' v hv' hv (heq.trans had.symm)

lemma Adds.defineAll (ds : List (List UInt8 × List UInt8)) (h : Adds s₀ defs s) :
    ∃ s', ds.foldlM (fun map d => map.define false s₀.map.count d.1 d.2) s = some s' ∧
      Adds s₀ (defs ++ ds) s' := by
  induction ds generalizing defs s with
  | nil => exact ⟨s, rfl, by simpa using h⟩
  | cons d ds ih =>
    obtain ⟨s', hs', had⟩ := h.define d.1 d.2
    obtain ⟨s'', hs'', had'⟩ := ih had
    refine ⟨s'', ?_, by simpa using had'⟩
    rw [foldlM_cons, hs']
    exact hs''

lemma parse_adds (text : List UInt8) (s₀ : Loader) :
    ∃ s, parse false false false text s₀ = some s ∧ Adds s₀ (definitions false text) s := by
  obtain ⟨s, hs, had⟩ := (Adds.refl s₀).defineAll (definitions false text)
  refine ⟨s, ?_, had⟩
  simp only [parse, parseLoop_eq, hs, bind_eq_bind, bind_some]
  rfl

/-- The entries of `s₀` are in `s` with their texts, which are live. -/
structure Keeps (s₀ s : Loader) : Prop where
  entries : s₀.map.entries <+: s.map.entries
  text : ∀ e ∈ s₀.map.entries, s.heap.text e.2.value = s₀.heap.text e.2.value

lemma Adds.keeps (h : Adds s₀ defs s) (hlv : s₀.Live) : Keeps s₀ s := by
  refine ⟨h.entries, fun e he => ?_⟩
  obtain ⟨t, ht⟩ := isSome_iff_exists.1 (hlv e he)
  rw [ht]
  exact Heap.text_of_prefix h.cells ht

lemma Keeps.get (h : Keeps s₀ s) (hkey : key ∈ s₀.map.keys) :
    s.get key = s₀.get key := by
  rw [Loader.get, Loader.get, ArrayMap.get?_of_prefix h.entries hkey]
  cases hv : s₀.map.get? key with
  | none => rfl
  | some v => exact h.text (key, v) (ArrayMap.get?_eq_some.1 hv)

lemma Adds.live (h : Adds s₀ defs s) (hlv : s₀.Live) : s.Live := by
  rintro ⟨key, v⟩ he
  have hv := ArrayMap.get?_eq_some.2 he
  by_cases hkey : key ∈ s₀.map.keys
  · rw [ArrayMap.get?_of_prefix h.entries hkey] at hv
    have he₀ := ArrayMap.get?_eq_some.1 hv
    rw [(h.keeps hlv).text _ he₀]
    exact hlv _ he₀
  · obtain ⟨-, t, -, -, ht⟩ := h.owned key hkey v hv
    exact isSome_iff_exists.2 ⟨t, ht⟩

lemma Live.get_ne_none (hlv : s.Live) (hkey : key ∈ s.map.keys) :
    s.get key ≠ none := by
  obtain ⟨v, hv⟩ := ne_none_iff_exists'.1 (mt ArrayMap.get?_eq_none.1 (not_not.2 hkey))
  rw [get, hv, bind_some]
  exact isSome_iff_ne_none.1 (hlv _ (ArrayMap.get?_eq_some.1 hv))

/-- The first text that defines the key. -/
def firstOf (key : List UInt8) (texts : List (List UInt8)) : Option (List UInt8) :=
  texts.findSome? fun text => lastOf key (definitions false text)

lemma Keeps.refl (s : Loader) : Keeps s s := ⟨prefix_rfl, fun _ _ => rfl⟩

lemma Keeps.trans {s₁ : Loader} (h : Keeps s₀ s₁) (h' : Keeps s₁ s) : Keeps s₀ s :=
  ⟨h.entries.trans h'.entries,
    fun e he => (h'.text e (h.entries.subset he)).trans (h.text e he)⟩

lemma loadTexts_keeps (texts : List (List UInt8)) {s₀ : Loader} (hlv : s₀.Live) :
    ∃ s, s₀.loadTexts texts = some s ∧ s.Live ∧ Keeps s₀ s ∧
      ∀ key, s.get key = (s₀.get key).or (firstOf key texts) := by
  induction texts generalizing s₀ with
  | nil => exact ⟨s₀, rfl, hlv, .refl s₀, fun key => by simp [firstOf]⟩
  | cons text texts ih =>
    obtain ⟨s₁, hs₁, had⟩ := parse_adds text s₀
    obtain ⟨s, hs, hlv', hkp, hget⟩ := ih (had.live hlv)
    refine ⟨s, ?_, hlv', (had.keeps hlv).trans hkp, fun key => ?_⟩
    · unfold loadTexts
      rw [foldlM_cons, hs₁]
      exact hs
    · rw [hget]
      by_cases hkey : key ∈ s₀.map.keys
      · rw [(had.keeps hlv).get hkey]
        obtain ⟨t, ht⟩ := ne_none_iff_exists'.1 (hlv.get_ne_none hkey)
        simp [ht]
      · rw [had.get key hkey, get_of_not_mem hkey, firstOf, firstOf, findSome?_cons]
        cases lastOf key (definitions false text) <;> rfl

/-- A variable of the process. -/
def processDefinition (env : List UInt8) : Option (List UInt8 × List UInt8) :=
  let key := env.takeWhile (· != 0x3D)
  if key = [] then none else some (key, (env.dropWhile (· != 0x3D)).tail)

def processDefinitions (environ : List (List UInt8)) : List (List UInt8 × List UInt8) :=
  environ.filterMap processDefinition

/-- A map of the process has no allocated texts. -/
structure Reads (s : Loader) (defs : List (List UInt8 × List UInt8)) : Prop where
  values : ∀ e ∈ s.map.entries, ∃ t, e.2.value = .process t
  get : ∀ key, s.get key = lastOf key defs

lemma Reads.putProcess (h : Reads s defs) (env : List UInt8) :
    Reads (s.putProcess env) (defs ++ processDefinitions [env]) := by
  unfold Loader.putProcess
  dsimp only
  split_ifs with hnil
  · have hdef : processDefinition env = none := if_pos hnil
    rwa [processDefinitions, filterMap_cons_none hdef, filterMap_nil, append_nil]
  · have hdef : processDefinition env = some (env.takeWhile (· != 0x3D), _) := if_neg hnil
    rw [processDefinitions, filterMap_cons_some hdef, filterMap_nil]
    refine ⟨fun e he => ?_, fun key => ?_⟩
    · rcases (mem_assocPut s.map.nodup).1 he with rfl | ⟨hmem, -⟩
      · exact ⟨_, rfl⟩
      · exact h.values e hmem
    · rw [Loader.get, ArrayMap.get?_put, lastOf_concat, ← h.get key]
      by_cases hkey : key = env.takeWhile (· != 0x3D)
      · rw [if_pos hkey, if_pos hkey.symm]
        rfl
      · rw [if_neg hkey, if_neg (Ne.symm hkey)]
        rfl

lemma reads_loadProcess (environ : List (List UInt8)) :
    Reads (loadProcess environ) (processDefinitions environ) := by
  have hfl : ∀ (environ : List (List UInt8)) (s : Loader) (defs : _), Reads s defs →
      Reads (environ.foldl putProcess s) (defs ++ processDefinitions environ) := by
    intro environ
    induction environ with
    | nil => intro s defs h; simpa [processDefinitions] using h
    | cons env environ ih =>
      intro s defs h
      have hcn : processDefinitions (env :: environ) =
          processDefinitions [env] ++ processDefinitions environ := by
        rw [processDefinitions, ← singleton_append, filterMap_append]
        rfl
      rw [foldl_cons, hcn, ← append_assoc]
      exact ih _ _ (h.putProcess env)
  exact hfl environ {} [] ⟨by simp [ArrayMap.empty], fun key => rfl⟩

lemma Reads.live (h : Reads s defs) : s.Live := by
  intro e he
  obtain ⟨t, ht⟩ := h.values e he
  rw [ht]
  rfl

/-- The last string of the process environment that sets a variable decides on its value, else the
last definition in the first file that defines it. No file changes or frees what was there before
it. -/
theorem precedence (environ texts : List (List UInt8)) :
    ∃ s, (loadProcess environ).loadTexts texts = some s ∧
      (∀ key, s.get key = (lastOf key (processDefinitions environ)).or (firstOf key texts)) ∧
      ∀ earlier later, texts = earlier ++ later →
        ∃ s₁, (loadProcess environ).loadTexts earlier = some s₁ ∧ s₁.Live ∧ Keeps s₁ s := by
  have hreads := reads_loadProcess environ
  obtain ⟨s, hs, -, -, hget⟩ := loadTexts_keeps texts hreads.live
  refine ⟨s, hs, fun key => by rw [hget, hreads.get], ?_⟩
  rintro earlier later rfl
  obtain ⟨s₁, hs₁, hlive, -, -⟩ := loadTexts_keeps earlier hreads.live
  obtain ⟨s₂, hs₂, -, hkeeps, -⟩ := loadTexts_keeps later hlive
  have hsame : s₂ = s := by
    unfold loadTexts at hs hs₁ hs₂
    rw [foldlM_append, hs₁] at hs
    exact some.inj (hs₂.symm.trans hs)
  exact ⟨s₁, hs₁, hlive, hsame ▸ hkeeps⟩

end Loader

end Cruller.Dotenv
