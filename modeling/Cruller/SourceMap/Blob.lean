import Cruller.SourceMap.InternalSourceMap
import Cruller.SourceMap.WindowRoundTrip

/-!
# What a blob holds

A blob holds a list of windows (`Holds`) when each sync entry carries the first mapping of its
window and the offset at which the window lies in the stream (`Stored`). The loop over all mappings
then sees exactly the mappings of the windows in order (`Holds.forEach`), and where they are sorted,
`find` finds what a search through all of them would (`Holds.find`).
-/

namespace Cruller.SourceMap

open List Option

variable {stream data : List UInt8} {e : SyncEntry} {w : State × List State}
  {wins : List (State × List State)}

theorem ofWord_wordOf {v : ℤ} (h : IsI32 v) : ofWord (wordOf v) = v := toInt_ofInt h

theorem SyncEntry.ofWords_words (hs : e.toState.Fits) (ho : e.byteOffset < 2 ^ 32) :
    SyncEntry.ofWords e.words = e := by
  have hoff : (UInt32.ofNat e.byteOffset).toNat = e.byteOffset := by
    rw [UInt32.toNat_ofNat', Nat.mod_eq_of_lt ho]
  rcases e with ⟨gl, gc, off, ol, oc, si⟩
  obtain ⟨h1, h2, h3, h4, h5⟩ := hs
  simp only [SyncEntry.toState] at h1 h2 h3 h4 h5
  simp only [SyncEntry.ofWords, SyncEntry.words, hoff, ofWord_wordOf h1, ofWord_wordOf h2,
    ofWord_wordOf h3, ofWord_wordOf h4, ofWord_wordOf h5]

/-- The window `w` lies in the stream where the entry says. -/
structure Stored (stream : List UInt8) (e : SyncEntry) (w : State × List State) : Prop where
  seed : e.toState = w.1
  offset : e.byteOffset < 2 ^ 32
  fits : ∀ s ∈ w.1 :: w.2, s.Fits
  room : w.2.length + 1 ≤ syncInterval
  window : ∃ ds bytes, deltas w.1 w.2 = some ds ∧ windowBytes (w.2.length + 1) ds = some bytes
    ∧ Lies stream e.byteOffset bytes

/-- The blob's table and stream hold the windows. -/
def Holds (m : InternalSourceMap) (wins : List (State × List State)) : Prop :=
  ∃ stream entries, m.stream = some stream ∧ m.syncCount = some entries.length
    ∧ (∀ i (hi : i < entries.length), m.syncEntry i = some entries[i])
    ∧ List.Forall₂ (Stored stream) entries wins

section

variable {s : State} {rest : List State} {ds : List Delta}

theorem deltas_length (h : deltas s rest = some ds) : ds.length = rest.length := by
  induction rest generalizing s ds with
  | nil =>
    rw [deltas, some.injEq] at h
    simp [← h]
  | cons t rest ih =>
    obtain ⟨d, ds', -, hds, rfl⟩ := deltas_cons h
    rw [length_cons, length_cons, ih hds]

theorem deltas_fits (hf : ∀ t ∈ rest, t.Fits) (h : deltas s rest = some ds) :
    ∀ d ∈ ds, d.Fits := by
  induction rest generalizing s ds with
  | nil =>
    rw [deltas, some.injEq] at h
    simp [← h]
  | cons t rest ih =>
    obtain ⟨d, ds', hd, hds, rfl⟩ := deltas_cons h
    have ht := hf t mem_cons_self
    exact forall_mem_cons.2 ⟨(delta_eq_some ht hd).2,
      ih (fun t ht => hf t (mem_cons_of_mem _ ht)) hds⟩

theorem Stored.reads (h : Stored stream e w) :
    ∃ r ds, WindowReader.parse stream e.byteOffset = some r ∧ deltas w.1 w.2 = some ds
      ∧ r.Reads 0 ds := by
  obtain ⟨ds, bytes, hds, hby, hls⟩ := h.window
  have hlen := deltas_length hds
  have hrm := h.room
  rw [← hlen] at hby hrm
  obtain ⟨r, hr, hrd⟩ := (WindowReader.sections_windowBytes hby hls).reads hrm
    (deltas_fits (fun t ht => h.fits t (mem_cons_of_mem _ ht)) hds)
  exact ⟨r, ds, hr, hds, hrd⟩

variable {m : InternalSourceMap} {β : Type}

theorem Holds.seedWindow {i : ℕ} (h : Holds m wins) (hw : wins[i]? = some w) :
    ∃ r ds, m.seedWindow i = some (w.1, r) ∧ deltas w.1 w.2 = some ds ∧ r.Reads 0 ds
      ∧ (∀ t ∈ w.2, t.Fits) ∧ w.2.length < syncInterval := by
  obtain ⟨stream, entries, hsr, -, hen, hall⟩ := h
  obtain ⟨hi, rfl⟩ := List.getElem?_eq_some_iff.1 hw
  have hie : i < entries.length := hall.length_eq ▸ hi
  have hst : Stored stream entries[i] wins[i] := forall₂_iff_get.1 hall |>.2 i hie hi
  obtain ⟨r, ds, hr, hds, hrd⟩ := hst.reads
  refine ⟨r, ds, ?_, hds, hrd, fun t ht => hst.fits t (mem_cons_of_mem _ ht),
    hst.room⟩
  simp only [InternalSourceMap.seedWindow, bind_eq_bind, hen i hie, bind_some,
    hsr, hr, hst.seed]

theorem WindowReader.Reads.windowLoop {body : β → State → Option β} {r : WindowReader}
    {k n : ℕ} (h : r.Reads k ds) (hds : deltas s rest = some ds) (hf : ∀ t ∈ rest, t.Fits)
    (hn : rest.length < n) (acc : β) :
    InternalSourceMap.windowLoop body n r s acc = rest.foldlM body acc := by
  induction rest generalizing r k s ds n acc with
  | nil =>
    obtain ⟨n, rfl⟩ : ∃ m, n = m + 1 := ⟨n - 1, by simp at hn; omega⟩
    rw [deltas, some.injEq] at hds
    subst hds
    rw [InternalSourceMap.windowLoop, if_pos (by rw [h.done]; rfl)]
    rfl
  | cons t rest ih =>
    obtain ⟨n, rfl⟩ : ∃ m, n = m + 1 := ⟨n - 1, by simp at hn; omega⟩
    obtain ⟨d, ds', hd, hds', rfl⟩ := deltas_cons hds
    have ht := hf t mem_cons_self
    obtain ⟨r', hnx, hrd⟩ := h.next (delta_eq_some ht hd).1 ht
    rw [InternalSourceMap.windowLoop, if_neg (by rw [h.done]; exact Bool.false_ne_true), hnx,
      bind_some, foldlM_cons]
    simp only [bind_eq_bind]
    congr 1
    funext acc
    exact ih hrd hds' (fun u hu => hf u (mem_cons_of_mem _ hu)) (by simpa using hn) acc

theorem foldlM_range {γ : Type} {step : β → ℕ → Option β} {f : β → γ → Option β} (l : List γ)
    (hst : ∀ acc i (hi : i < l.length), step acc i = f acc l[i]) (acc : β) :
    (List.range l.length).foldlM step acc = l.foldlM f acc := by
  induction l using List.reverseRecOn generalizing acc with
  | nil => rfl
  | append_singleton l x ih =>
    rw [length_append, length_singleton, range_succ, foldlM_append,
      foldlM_append, ih fun acc i hi => by
        rw [hst acc i (by simp; omega), getElem_append_left hi]]
    congr 1
    funext acc
    rw [foldlM_cons, foldlM_cons, hst acc l.length (by simp)]
    simp

/-- Every mapping is seen once, in order. -/
theorem Holds.forEach (h : Holds m wins)
    (body : β → State → Option β) (acc : β) :
    m.forEach body acc = (pieces wins).foldlM body acc := by
  have hcn : m.syncCount = some wins.length := by
    obtain ⟨_, entries, -, hcn, -, hall⟩ := h
    rw [hcn, hall.length_eq]
  have hwin : ∀ acc i (hi : i < wins.length), (do
      let seed ← m.seedWindow i
      let acc ← body acc seed.1
      InternalSourceMap.windowLoop body syncInterval seed.2 seed.1 acc) =
      (wins[i].1 :: wins[i].2).foldlM body acc := by
    intro acc i hi
    obtain ⟨r, ds, hsd, hds, hrd, hf, hlen⟩ :=
      h.seedWindow (getElem?_eq_getElem hi)
    rw [hsd, foldlM_cons]
    simp only [bind_eq_bind, bind_some]
    congr 1
    funext acc
    exact hrd.windowLoop hds hf hlen acc
  rw [InternalSourceMap.forEach, hcn]
  simp only [bind_eq_bind, bind_some]
  exact (foldlM_range wins hwin acc).trans (foldlM_pieces body wins acc).symm

def State.generated (s : State) : LineColumnOffset := ⟨s.generatedLine, s.generatedColumn⟩

theorem WindowReader.Reads.findLoop {r : WindowReader} {k n : ℕ} {line col : ℤ}
    {p : State → Bool} (hp : p = fun t => t.lessOrEqual line col)
    (h : r.Reads k ds) (hds : deltas s rest = some ds) (hf : ∀ t ∈ rest, t.Fits)
    (hn : rest.length < n) (hs : p s) (htr : Turns p (s :: rest)) :
    InternalSourceMap.findLoop line col n r s s = ((s :: rest).filter p).getLast? := by
  induction rest generalizing r k s ds n with
  | nil =>
    obtain ⟨n, rfl⟩ : ∃ m, n = m + 1 := ⟨n - 1, by simp at hn; omega⟩
    rw [deltas, some.injEq] at hds
    subst hds
    rw [InternalSourceMap.findLoop, if_pos (by rw [h.done]; rfl), filter_cons_of_pos hs]
    rfl
  | cons t rest ih =>
    obtain ⟨n, rfl⟩ : ∃ m, n = m + 1 := ⟨n - 1, by simp at hn; omega⟩
    obtain ⟨d, ds', hd, hds', rfl⟩ := deltas_cons hds
    have ht := hf t mem_cons_self
    obtain ⟨r', hnx, hrd⟩ := h.next (delta_eq_some ht hd).1 ht
    have hrs : Turns p (t :: rest) := (pairwise_cons.1 htr).2
    rw [InternalSourceMap.findLoop, if_neg (by rw [h.done]; exact Bool.false_ne_true), hnx,
      bind_some, filter_cons_of_pos hs]
    simp only
    rw [show t.lessOrEqual line col = p t by rw [hp]]
    by_cases hpt : p t
    · rw [if_neg (by simp [hpt]), ih hrd hds' (fun u hu => hf u (mem_cons_of_mem _ hu))
        (by simpa using hn) hpt hrs, filter_cons_of_pos hpt, getLast?_cons_cons]
    · rw [if_pos (by simp [hpt]), hrs.filter_cons hpt]
      rfl

/-- The window that `locateWindow` chooses: the last whose first mapping passes. -/
theorem Holds.locateWindow {line col : ℤ} {p : State → Bool}
    (hp : p = fun t => t.lessOrEqual line col) (h : Holds m wins)
    (htr : Turns p (wins.map Prod.fst)) :
    m.locateWindow line col = some
      (if (wins.map Prod.fst).countP p = 0 then none
        else some ((wins.map Prod.fst).countP p - 1)) := by
  obtain ⟨stream, entries, -, hcn, hen, hall⟩ := h
  have hlen : entries.length = wins.length := hall.length_eq
  have hle : (wins.map Prod.fst).countP p ≤ wins.length := by
    simpa using countP_le_length (p := p) (l := wins.map Prod.fst)
  have hts : ∀ i < wins.length, ((m.syncEntry i).map fun e => e.lessOrEqual line col) =
      some (decide (i < (wins.map Prod.fst).countP p)) := by
    intro i hi
    have hst : Stored stream entries[i] wins[i] :=
      (forall₂_iff_get.1 hall).2 i (hlen ▸ hi) hi
    have htn := htr.getElem (i := i) (by simpa using hi)
    rw [hen i (hlen ▸ hi), map_some, ← htn, getElem_map, hp, ← hst.seed]
    rfl
  have hsr := bisect_eq hts (show wins.length - 0 ≤ wins.length from le_rfl)
    (Nat.zero_le _) hle le_rfl
  rw [InternalSourceMap.locateWindow, hcn, hlen]
  simp only [bind_eq_bind, bind_some, hsr]
  split
  · rename_i h0
    rw [if_pos (by omega)]
  · rfl

/-- A lookup in the blob is a lookup in the list of its mappings. -/
theorem Holds.find (h : Holds m wins)
    (hsr : (pieces wins).Pairwise fun a b => a.generated.Before b.generated) (line col : ℤ) :
    m.find line col =
      some ((lastOnLine State.generated line col (pieces wins)).map State.toMapping) := by
  generalize hp : (fun t : State => t.lessOrEqual line col) = p
  have htr : Turns p (pieces wins) := hp ▸ turns_of_sorted hsr
  have hls := getLast?_filter_pieces htr
  rw [InternalSourceMap.find, h.locateWindow hp.symm htr.heads, lastOnLine,
    show (fun m : State => m.generated.lessOrEqual line col) = p from hp, hls]
  by_cases h0 : (wins.map Prod.fst).countP p = 0
  · rw [if_pos h0, if_pos h0]
    rfl
  · obtain ⟨b, hb⟩ : ∃ b, (wins.map Prod.fst).countP p = b + 1 := ⟨_, (Nat.succ_pred h0).symm⟩
    have hbl : b < wins.length := by
      have := countP_le_length (p := p) (l := wins.map Prod.fst)
      rw [length_map] at this
      omega
    have hw : wins[b]? = some wins[b] := getElem?_eq_getElem hbl
    obtain ⟨r, ds, hsd, hds, hrd, hf, hlen⟩ := h.seedWindow hw
    have hhd : p wins[b].1 := by
      have := htr.heads.getElem (i := b) (by simpa using hbl)
      rw [hb, getElem_map] at this
      simpa using this
    have hpc : Turns p (wins[b].1 :: wins[b].2) :=
      htr.sublist (sublist_pieces (getElem_mem hbl))
    rw [if_neg h0, if_neg h0, hb, Nat.add_sub_cancel, hw]
    simp only [bind_eq_bind, bind_some, hsd,
      hrd.findLoop hp.symm hds hf hlen hhd hpc]
    rw [filter_cons_of_pos hhd, getLast?_cons, bind_some]
    simp only [Option.filter]
    split <;> simp_all [State.generated]

end

end Cruller.SourceMap
