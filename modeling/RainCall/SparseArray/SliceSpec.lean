import RainCall.SparseArray.Basic

/-!
# Slices as finite maps

The contents of a slice are a finite map from offsets to values, listed in increasing order by
`ArSlice.elements`. Well-formedness of a slice is stated for each encoding, and for each slice
function one lemma says that it succeeds, keeps the slice well formed and changes the map as
intended. Growing a window and changing the encoding do not change the list of elements at all.
-/

namespace RainCall

open ArDense ArSlice Function List Nat Option

variable {V : Type*} {ss : ℕ}

/-- The slice sizes allowed by the configuration: powers of two from 256 to 65536. -/
def ValidSliceSize (ss : ℕ) : Prop := ∃ b, 8 ≤ b ∧ b ≤ 16 ∧ ss = 2 ^ b

lemma eight_le_two_pow {b : ℕ} (h : 8 ≤ b) : 8 ≤ 2 ^ b :=
  (show 8 = 2 ^ 3 by rfl) ▸ Nat.pow_le_pow_right (by omega) (by omega)

/-- The elements of a dense slice in increasing order. -/
def ArDense.elements (d : ArDense V) : List (ℕ × V) := filledFrom d.offset d.items

/-- The elements of a slice in increasing order. -/
def ArSlice.elements : ArSlice V → List (ℕ × V)
  | .dense d => d.elements
  | .sparse s => s.entries

/-- The part of well-formedness of a dense slice that does not speak of `max_idx`. -/
structure ArDense.Counted (ss : ℕ) (d : ArDense V) : Prop where
  length : d.items.length = d.winsize
  window : d.offset + d.winsize ≤ ss
  winsize_pos : 0 < d.winsize
  count : d.count = d.elements.length

/-- Well-formedness of a dense slice. -/
structure ArDense.WF (ss : ℕ) (d : ArDense V) : Prop extends d.Counted ss where
  le_maxIdx : ∀ p ∈ d.elements, p.1 ≤ d.maxIdx
  maxIdx_mem : d.count ≠ 0 → ∃ v, (d.maxIdx, v) ∈ d.elements
  maxIdx_zero : d.count = 0 → d.maxIdx = 0

/-- Well-formedness of a sparse slice. -/
structure ArSparse.WF (ss : ℕ) (s : ArSparse V) : Prop where
  count : s.count = s.entries.length
  sorted : KeySorted s.entries
  lt : ∀ p ∈ s.entries, p.1 < ss
  count_le_cap : s.count ≤ s.cap
  cap_pos : 0 < s.cap

/-- Well-formedness of a slice. -/
def ArSlice.WF (ss : ℕ) : ArSlice V → Prop
  | .dense d => d.WF ss
  | .sparse s => s.WF ss

/-! ### Dense slices -/

namespace ArDense

variable {d d' : ArDense V}

lemma get_eq (h : d.items.length = d.winsize) (rel : ℕ) :
    (ArSlice.dense d).get rel = if d.offset ≤ rel then slotAt d.items (rel - d.offset)
      else none := by
  simp only [ArSlice.get]
  by_cases hlo : rel < d.offset
  · simp [hlo]
  · by_cases hhi : d.offset + d.winsize ≤ rel
    · rw [if_pos (.inr hhi), slotAt_of_length_le (by omega), ite_self]
    · rw [if_neg (by omega), if_pos (by omega)]

lemma represents (h : d.items.length = d.winsize) :
    Represents d.elements (dense d).get := by
  rw [funext (get_eq h)]
  exact represents_filledFrom d.offset d.items

/-- A window with the same elements. -/
lemma WF.of_elements_eq (h : d.WF ss) (helem : d'.elements = d.elements) (hc : d'.count = d.count)
    (hm : d'.maxIdx = d.maxIdx) (hl : d'.items.length = d'.winsize)
    (hw : d'.offset + d'.winsize ≤ ss) (hp : 0 < d'.winsize) : d'.WF ss where
  length := hl
  window := hw
  winsize_pos := hp
  count := by rw [hc, helem, h.count]
  le_maxIdx := by rw [helem, hm]; exact h.le_maxIdx
  maxIdx_mem := by rw [helem, hm, hc]; exact h.maxIdx_mem
  maxIdx_zero := by rw [hm, hc]; exact h.maxIdx_zero

/-- Copying the items to a larger window keeps the elements. -/
lemma WF.copyTo (h : d.WF ss) (newOffset newWinsize : ℕ) (h1 : newOffset ≤ d.offset)
    (h2 : d.offset + d.winsize ≤ newOffset + newWinsize) (h3 : newOffset + newWinsize ≤ ss) :
    ∃ d', d.copyTo newOffset newWinsize = some d' ∧ d'.WF ss ∧ d'.elements = d.elements ∧
      d'.offset = newOffset ∧ d'.winsize = newWinsize := by
  have hpos := h.winsize_pos
  have hlen := h.length
  have helem : filledFrom newOffset (replicate (d.offset - newOffset) none ++ d.items ++
      replicate (newWinsize - (d.offset - newOffset + d.winsize)) none) = d.elements := by
    rw [filledFrom_append, filledFrom_append, filledFrom_replicate_none, filledFrom_replicate_none,
      length_replicate, Nat.add_sub_cancel' h1, append_nil]
    rfl
  refine ⟨_, if_pos ⟨h1, by omega⟩, ?_, helem, rfl, rfl⟩
  refine h.of_elements_eq helem rfl rfl ?_ h3 (by simp only; omega)
  simp only [length_append, length_replicate]
  omega

/-- Extending the window to the right keeps the elements. -/
lemma WF.extend (h : d.WF ss) (newWinsize : ℕ) (h1 : d.winsize ≤ newWinsize)
    (h2 : d.offset + newWinsize ≤ ss) :
    ArDense.WF ss { d with
      winsize := newWinsize
      items := d.items ++ replicate (newWinsize - d.winsize) none } ∧
    elements { d with
      winsize := newWinsize
      items := d.items ++ replicate (newWinsize - d.winsize) none } = d.elements := by
  have hpos := h.winsize_pos
  have hlen := h.length
  have helem : elements { d with
      winsize := newWinsize
      items := d.items ++ replicate (newWinsize - d.winsize) none } = d.elements := by
    simp only [elements, filledFrom_append, filledFrom_replicate_none, append_nil]
  refine ⟨h.of_elements_eq helem rfl rfl ?_ h2 (by simp only; omega), helem⟩
  simp only [length_append, length_replicate]
  omega

end ArDense

/-! ### Growing the window -/

lemma le_nearestNextPowerOf2 (n : ℕ) : n ≤ nearestNextPowerOf2 n := by
  rw [nearestNextPowerOf2]
  split_ifs with h
  · exact h
  · have := lt_size_self (n - 1)
    omega

lemma nearestNextPowerOf2_le {n b : ℕ} (h : n ≤ 2 ^ b) : nearestNextPowerOf2 n ≤ 2 ^ b := by
  rw [nearestNextPowerOf2]
  split_ifs with h1
  · exact Nat.one_le_two_pow
  · exact Nat.pow_le_pow_right (by omega) (Nat.size_le.mpr (by omega))

lemma atLeast_eq_max (pow : ℕ) :
    (if pow < arSliceMinAlloc then arSliceMinAlloc else pow) = max arSliceMinAlloc pow := by
  split_ifs <;> omega

/-- The window contains `rel`. -/
def ArDense.Covers (d : ArDense V) (rel : ℕ) : Prop := d.offset ≤ rel ∧ rel < d.offset + d.winsize

variable {d : ArDense V} {rel : ℕ}

/-- `arSliceDenseGrowRight` passes its assertion and reaches `rel`. -/
lemma arSliceDenseGrowRight_spec (h : d.WF ss) (hss : ValidSliceSize ss)
    (hrel : rel < ss) (hright : d.offset + d.winsize ≤ rel) :
    ∃ d', arSliceDenseGrowRight d rel ss = some d' ∧ d'.WF ss ∧ d'.elements = d.elements ∧
      d'.Covers rel := by
  obtain ⟨b, hb8, hb16, rfl⟩ := hss
  have hpos := h.winsize_pos
  let p : ℕ → Bool := fun w => d.offset + w ≤ rel ∧ w < 2 ^ b
  have hstop : ¬ p (doubleWhile p 32 d.winsize) := by
    refine not_doubleWhile (b := 2 ^ b) (fun y hy => ?_) ?_
    · simp only [p, decide_eq_true_eq] at hy
      exact hy.2
    · calc 2 ^ b ≤ 2 ^ 32 := Nat.pow_le_pow_right (by omega) (by omega)
        _ ≤ 2 ^ 32 * d.winsize := Nat.le_mul_of_pos_right _ hpos
  have hgrow : d.winsize ≤ doubleWhile p 32 d.winsize := by
    obtain ⟨j, -, heq, -⟩ := doubleWhile_eq p 32 d.winsize
    rw [heq]
    exact Nat.le_mul_of_pos_left _ (Nat.two_pow_pos j)
  simp only [arSliceDenseGrowRight]
  generalize hw : doubleWhile p 32 d.winsize = w at hstop hgrow
  simp only [p, decide_eq_true_eq] at hstop
  by_cases hfull : 2 ^ b ≤ w
  · -- the window becomes the whole slice
    simp only [hfull, if_true]
    split_ifs with hoff
    · obtain ⟨hwf, helem⟩ := h.extend (2 ^ b) (by omega) (by omega)
      exact ⟨_, rfl, hwf, helem, ⟨by simp only; omega, by simp only; omega⟩⟩
    · obtain ⟨d', hd', hwf, helem, ho, hw'⟩ :=
        h.copyTo 0 (2 ^ b) (by omega) (by omega) (by omega)
      exact ⟨d', hd', hwf, helem, ⟨by omega, by omega⟩⟩
  · simp only [hfull, if_false]
    by_cases hover : 2 ^ b < d.offset + w
    · simp only [hover, if_true, if_neg (show ¬ 2 ^ b - w = d.offset by omega)]
      obtain ⟨d', hd', hwf, helem, ho, hw'⟩ :=
        h.copyTo (2 ^ b - w) w (by omega) (by omega) (by omega)
      exact ⟨d', hd', hwf, helem, ⟨by omega, by omega⟩⟩
    · simp only [hover, if_false, if_true]
      obtain ⟨hwf, helem⟩ := h.extend w hgrow (by omega)
      exact ⟨_, rfl, hwf, helem, ⟨by simp only; omega, by simp only; omega⟩⟩

/-- `arSliceDenseGrowLeft` passes its assertion and reaches `rel`. -/
lemma arSliceDenseGrowLeft_spec (h : d.WF ss) (hss : ValidSliceSize ss) (hleft : rel < d.offset) :
    ∃ d', arSliceDenseGrowLeft d rel ss = some d' ∧ d'.WF ss ∧ d'.elements = d.elements ∧
      d'.Covers rel := by
  obtain ⟨b, hb8, hb16, rfl⟩ := hss
  have hwin := h.window
  have h8 := eight_le_two_pow hb8
  have hle := le_nearestNextPowerOf2 (d.offset + d.winsize - rel)
  have hge : nearestNextPowerOf2 (d.offset + d.winsize - rel) ≤ 2 ^ b :=
    nearestNextPowerOf2_le (by omega)
  simp only [arSliceDenseGrowLeft]
  generalize nearestNextPowerOf2 (d.offset + d.winsize - rel) = pow at hle hge
  rw [atLeast_eq_max, if_neg (show ¬ 2 ^ b < max arSliceMinAlloc pow by
    simp only [arSliceMinAlloc]; omega)]
  have hw : max arSliceMinAlloc pow ≤ 2 ^ b := by simp only [arSliceMinAlloc]; omega
  have hw' : pow ≤ max arSliceMinAlloc pow := le_max_right _ _
  generalize max arSliceMinAlloc pow = w at hw hw'
  obtain ⟨d', hd', hwf, helem, ho, hw'⟩ := h.copyTo
    (if w = 2 ^ b then 0 else d.offset + d.winsize - w) w
    (by split_ifs <;> omega) (by split_ifs <;> omega) (by split_ifs <;> omega)
  refine ⟨d', hd', hwf, helem, ?_, ?_⟩
  · rw [ho]; split_ifs <;> omega
  · rw [ho]; split_ifs <;> omega

/-- `arSliceDenseGrowIfNeeded` makes room for `rel` without changing the elements. -/
lemma arSliceDenseGrowIfNeeded_spec (h : d.WF ss) (hss : ValidSliceSize ss) (hrel : rel < ss) :
    ∃ d', arSliceDenseGrowIfNeeded d rel ss = some d' ∧ d'.WF ss ∧ d'.elements = d.elements ∧
      d'.Covers rel := by
  unfold arSliceDenseGrowIfNeeded
  split_ifs with hright hleft
  · exact arSliceDenseGrowRight_spec h hss hrel hright
  · exact arSliceDenseGrowLeft_spec h hss hleft
  · exact ⟨d, rfl, h, rfl, by omega, by omega⟩

/-! ### Writing to a window -/

namespace ArDense

lemma get_of_covers (h : d.items.length = d.winsize) (hc : d.Covers rel) :
    (dense d).get rel = slotAt d.items (rel - d.offset) := by
  rw [get_eq h, if_pos hc.1]

/-- Writing to a slot of the window. -/
lemma get_setItem (h : d.items.length = d.winsize) (hc : d.Covers rel) (o : Option V) (n m : ℕ) :
    (dense { d with items := d.items.set (rel - d.offset) o, count := n, maxIdx := m }).get =
      update (dense d).get rel o := by
  have hlt : rel - d.offset < d.items.length := by
    have := hc.1
    have := hc.2
    omega
  funext r
  rw [get_eq (by simpa using h), update_apply, get_eq h]
  simp only [slotAt_set hlt]
  by_cases hr : r = rel
  · subst hr
    simp [hc.1]
  · by_cases hle : d.offset ≤ r
    · have hne : r - d.offset ≠ rel - d.offset := by
        have := hc.1
        omega
      simp [hr, hne]
    · simp [hr, hle]

lemma WF.store (h : d.WF ss) (hc : d.Covers rel) (v : V) {added : ℕ}
    (hadded : added = if ((ArSlice.dense d).get rel).isNone then 1 else 0) :
    (d.store rel added v).WF ss ∧
      (ArSlice.dense (d.store rel added v)).get =
        update (ArSlice.dense d).get rel (some v) := by
  have hget : (ArSlice.dense (d.store rel added v)).get =
      update (ArSlice.dense d).get rel (some v) :=
    get_setItem h.length hc (some v) _ _
  have hrep := represents h.length
  have hlen' : (d.store rel added v).items.length = (d.store rel added v).winsize := by
    simpa [ArDense.store] using h.length
  have hrep' := represents hlen'
  rw [hget] at hrep'
  have hmem : ∀ k w, (k, w) ∈ (d.store rel added v).elements ↔
      (k = rel ∧ v = w) ∨ (k ≠ rel ∧ (k, w) ∈ d.elements) := by
    intro k w
    rw [hrep'.mem_iff, hrep.mem_iff]
    by_cases hk : k = rel <;> simp [hk]
  have hcount : (d.store rel added v).count = (d.store rel added v).elements.length := by
    rw [show (d.store rel added v).count = d.count + added from rfl, h.count]
    have hlen := hrep.length_update hrep'
    cases hslot : (ArSlice.dense d).get rel <;> simpa [hadded, hslot, eq_comm] using hlen
  refine ⟨⟨⟨hlen', h.window, h.winsize_pos, hcount⟩, ?_, ?_, ?_⟩, hget⟩
  · rintro ⟨k, w⟩ hkw
    simp only [ArDense.store]
    rcases (hmem k w).mp hkw with ⟨rfl, -⟩ | ⟨-, hold⟩
    · split_ifs <;> omega
    · have := h.le_maxIdx _ hold
      split_ifs <;> omega
  · intro _
    simp only [ArDense.store]
    split_ifs with hlt
    · exact ⟨v, (hmem _ _).mpr (.inl ⟨rfl, rfl⟩)⟩
    · by_cases heq : d.maxIdx = rel
      · exact ⟨v, (hmem _ _).mpr (.inl ⟨heq, rfl⟩)⟩
      · obtain ⟨w, hw⟩ := h.maxIdx_mem fun hzero => by
          have := h.maxIdx_zero hzero
          omega
        exact ⟨w, (hmem _ _).mpr (.inr ⟨heq, hw⟩)⟩
  · intro hzero
    have hpos := length_pos_of_mem ((hmem rel v).mpr (.inl ⟨rfl, rfl⟩))
    omega

end ArDense

lemma arSliceDenseNew_spec (hss : ValidSliceSize ss) (rel : ℕ) :
    (arSliceDenseNew rel ss : ArDense V).WF ss ∧
      (arSliceDenseNew rel ss : ArDense V).elements = [] := by
  obtain ⟨b, hb8, hb16, rfl⟩ := hss
  have h8 := eight_le_two_pow hb8
  have helem : (arSliceDenseNew rel (2 ^ b) : ArDense V).elements = [] := by
    simp [arSliceDenseNew, ArDense.elements]
  refine ⟨⟨⟨by simp [arSliceDenseNew], ?_, by simp [arSliceDenseNew, arSliceMinAlloc],
    by rw [helem]; rfl⟩, by simp [helem], fun h => absurd rfl h, fun _ => rfl⟩, helem⟩
  by_cases hend : 2 ^ b < rel + 8
  · simp only [arSliceDenseNew, arSliceMinAlloc, hend, if_true]
    omega
  · simp only [arSliceDenseNew, arSliceMinAlloc, hend, if_false]
    omega

/-! ### Sparse slices -/

namespace ArSparse

variable {s : ArSparse V}

lemma WF.offsetAt_eq (h : s.WF ss) {i : ℕ} (hi : i < s.count) :
    ∃ v, s.entries[i]? = some (s.offsetAt i, v) :=
  getElem?_eq_keyAt (h.count ▸ hi)

lemma WF.offsetAt_lt (h : s.WF ss) {i j : ℕ} (hij : i < j) (hj : j < s.count) :
    s.offsetAt i < s.offsetAt j :=
  h.sorted.keyAt_lt hij (h.count ▸ hj)

lemma WF.findPos (h : s.WF ss) (rel : ℕ) :
    SplitsAt s.entries (arSparseFindPos s rel).1 rel ∧ (arSparseFindPos s rel).1 ≤ s.count ∧
      ((arSparseFindPos s rel).2 = true ↔
        ∃ v, s.entries[(arSparseFindPos s rel).1]? = some (rel, v)) := by
  simp only [arSparseFindPos, h.count, decide_eq_true_eq]
  exact h.sorted.lowerBound rel

lemma WF.represents (h : s.WF ss) : Represents s.entries (ArSlice.sparse s).get := by
  refine ⟨h.sorted, fun k v => ?_⟩
  obtain ⟨hs, -, hfound⟩ := h.findPos k
  rw [h.sorted.mem_iff_of_splitsAt hs]
  simp only [ArSlice.get]
  by_cases hf : (arSparseFindPos s k).2 = true
  · obtain ⟨w, hw⟩ := hfound.mp hf
    simp [hf, hw]
  · have hne : s.entries[(arSparseFindPos s k).1]? ≠ some (k, v) := fun h => hf (hfound.mpr ⟨v, h⟩)
    simp [hf, hne]

end ArSparse

/-! ### Both encodings -/

namespace ArSlice

variable {s : ArSlice V}

lemma WF.represents (h : s.WF ss) : Represents s.elements s.get := by
  cases s with
  | dense d => exact represents (ArDense.WF.toCounted h).length
  | sparse s => exact ArSparse.WF.represents h

lemma WF.count_eq (h : s.WF ss) : s.count = s.elements.length := by
  cases s with
  | dense d => exact (ArDense.WF.toCounted h).count
  | sparse s => exact ArSparse.WF.count h

lemma WF.elements_lt (h : s.WF ss) : ∀ p ∈ s.elements, p.1 < ss := by
  cases s with
  | dense d =>
    intro p hp
    have h1 := (lt_of_mem_filledFrom hp).2
    have h2 := (ArDense.WF.toCounted h).window
    have h3 := (ArDense.WF.toCounted h).length
    omega
  | sparse s => exact ArSparse.WF.lt h

/-- Slices with the same elements stand for the same map. -/
lemma get_eq_of_elements_eq (s s' : ArSlice V) (h : s.WF ss) (h' : s'.WF ss)
    (helem : s'.elements = s.elements) : s'.get = s.get := by
  have := h'.represents
  rw [helem] at this
  exact this.fun_eq h.represents

end ArSlice

/-! ### Changing the encoding -/

/-- The loop of `arSparsePromote` passes its assertions and sets each entry. -/
lemma promoteItems_spec (offset winsize : ℕ) {es : List (ℕ × V)} (hsorted : KeySorted es)
    (hwin : ∀ p ∈ es, offset ≤ p.1 ∧ p.1 < offset + winsize) (items : List (Option V))
    (hlen : items.length = winsize) :
    ∃ items', promoteItems offset winsize es items = some items' ∧ items'.length = winsize ∧
      (∀ p ∈ es, slotAt items' (p.1 - offset) = some p.2) ∧
      ∀ i, (∀ p ∈ es, p.1 - offset ≠ i) → slotAt items' i = slotAt items i := by
  induction es generalizing items with
  | nil => exact ⟨items, rfl, hlen, by simp, fun i _ => rfl⟩
  | cons q es ih =>
    obtain ⟨o, v⟩ := q
    obtain ⟨hhead, htail⟩ := pairwise_cons.mp hsorted
    have hq := hwin (o, v) (by simp)
    have hlt : o - offset < items.length := by omega
    obtain ⟨items', heq, hlen', hset, hkeep⟩ :=
      ih htail (fun p hp => hwin p (by simp [hp])) (items.set (o - offset) (some v))
        (by simpa using hlen)
    refine ⟨items', ?_, hlen', ?_, ?_⟩
    · rw [promoteItems, if_pos ⟨hq.1, by omega⟩, heq]
    · intro p hp
      rcases mem_cons.mp hp with rfl | hp
      · rw [hkeep (o - offset), slotAt_set hlt, update_self]
        intro p hp
        have h1 := hhead p hp
        omega
      · exact hset p hp
    · intro i hi
      have hne : i ≠ o - offset := fun h => hi (o, v) (by simp) h.symm
      rw [hkeep i fun p hp => hi p (by simp [hp]), slotAt_set hlt, update_of_ne hne]

variable {s : ArSparse V}

/-- The offsets of a sparse slice lie between its first and its last offset. -/
lemma ArSparse.WF.range (h : s.WF ss) :
    ∀ p ∈ s.entries, s.offsetAt 0 ≤ p.1 ∧ p.1 ≤ s.offsetAt (s.count - 1) := by
  intro p hp
  obtain ⟨i, hi, rfl⟩ := mem_iff_getElem.mp hp
  have hi' : i < s.count := by rw [h.count]; exact hi
  have hoff : s.offsetAt i = s.entries[i].1 := by simp [ArSparse.offsetAt, hi]
  rw [← hoff]
  constructor
  · rcases Nat.eq_zero_or_pos i with rfl | hpos
    · exact le_rfl
    · exact (h.offsetAt_lt hpos hi').le
  · rcases (Nat.le_sub_one_of_lt hi').lt_or_eq with hlt | heq
    · exact (h.offsetAt_lt hlt (by omega)).le
    · rw [heq]

/-- The window chosen by `arSparsePromote` contains all offsets of the slice. -/
lemma arSparsePromote_eq (h : s.WF ss) (hss : ValidSliceSize ss) (hne : s.count ≠ 0) :
    ∃ offset winsize, arSparsePromote s ss =
        (promoteItems offset winsize s.entries (replicate winsize none)).map (fun items =>
          ⟨s.count, offset, winsize, s.offsetAt (s.count - 1), items⟩) ∧
      offset ≤ s.offsetAt 0 ∧ s.offsetAt (s.count - 1) < offset + winsize ∧
      offset + winsize ≤ ss ∧ 0 < winsize := by
  obtain ⟨b, hb8, hb16, rfl⟩ := hss
  obtain ⟨vmax, hmax⟩ := h.offsetAt_eq (i := s.count - 1) (by omega)
  have hmaxlt : s.offsetAt (s.count - 1) < 2 ^ b := h.lt _ (mem_of_getElem? hmax)
  simp only [arSparsePromote, if_neg hne]
  generalize s.offsetAt 0 = minOff at *
  generalize s.offsetAt (s.count - 1) = maxOff at *
  have hle := le_nearestNextPowerOf2 (maxOff - minOff + 1)
  rw [atLeast_eq_max]
  generalize nearestNextPowerOf2 (maxOff - minOff + 1) = pow at hle
  have hw1 : 8 ≤ max arSliceMinAlloc pow := le_max_left _ _
  have hw2 : pow ≤ max arSliceMinAlloc pow := le_max_right _ _
  generalize max arSliceMinAlloc pow = w at hw1 hw2
  by_cases hfull : 2 ^ b ≤ w
  · simp only [hfull, if_true]
    exact ⟨0, 2 ^ b, rfl, by omega, by omega, by omega, by omega⟩
  · simp only [hfull, if_false]
    by_cases hover : 2 ^ b < minOff + w
    · simp only [hover, if_true]
      exact ⟨2 ^ b - w, w, rfl, by omega, by omega, by omega, by omega⟩
    · simp only [hover]
      exact ⟨minOff, w, rfl, by omega, by omega, by omega, by omega⟩

/-- `arSparsePromote` passes its assertions and keeps the elements. -/
lemma arSparsePromote_spec (h : s.WF ss) (hss : ValidSliceSize ss) :
    ∃ d, arSparsePromote s ss = some d ∧ d.WF ss ∧ d.elements = s.entries := by
  by_cases hzero : s.count = 0
  · obtain ⟨hwf, helem⟩ := arSliceDenseNew_spec hss 0
    have hnil : s.entries = [] := length_eq_zero_iff.mp (h.count.symm.trans hzero)
    exact ⟨_, if_pos hzero, hwf, helem.trans hnil.symm⟩
  obtain ⟨offset, winsize, hcode, hw1, hw2, hw3, hw4⟩ := arSparsePromote_eq h hss hzero
  obtain ⟨items, hitems, hlen, hset, hkeep⟩ := promoteItems_spec offset winsize h.sorted
    (fun p hp => ⟨hw1.trans (h.range p hp).1, (h.range p hp).2.trans_lt hw2⟩)
    (replicate winsize none) (length_replicate ..)
  let d : ArDense V := ⟨s.count, offset, winsize, s.offsetAt (s.count - 1), items⟩
  have helem : d.elements = s.entries := by
    refine (represents hlen).eq_of_eq ⟨h.sorted, fun k v => ?_⟩
    rw [get_eq hlen]
    constructor
    · intro hkv
      rw [if_pos (hw1.trans (h.range _ hkv).1)]
      exact hset _ hkv
    · intro hget
      split_ifs at hget with hk
      -- the slot was written by the loop, since the window was empty before
      by_contra hnot
      have hfree : slotAt items (k - offset) = none := by
        rw [hkeep, slotAt_replicate_none]
        rintro ⟨k', v'⟩ hp heq
        have hk' := hw1.trans (h.range _ hp).1
        have hkk : k' = k := by
          have : offset ≤ k := hk
          omega
        subst hkk
        have hv := (hset _ hp).symm.trans hget
        exact hnot (some.inj hv ▸ hp)
      exact absurd (hfree.symm.trans hget) (by simp)
  obtain ⟨vmax, hmax⟩ := h.offsetAt_eq (i := s.count - 1) (by omega)
  refine ⟨d, by rw [hcode, hitems]; rfl, ⟨⟨hlen, hw3, hw4, ?_⟩, ?_, ?_, ?_⟩, helem⟩
  · rw [helem]
    exact h.count
  · rw [helem]
    exact fun p hp => (h.range p hp).2
  · rw [helem]
    exact fun _ => ⟨vmax, mem_of_getElem? hmax⟩
  · exact fun hc => absurd hc hzero

lemma demoteLoop_eq (dcount off : ℕ) (items : List (Option V)) (s : ArSparse V)
    (h : s.count + (filledFrom off items).length = dcount) :
    demoteLoop dcount off items s =
      { s with entries := s.entries ++ filledFrom off items, count := dcount } := by
  induction items generalizing off s with
  | nil =>
    simp only [filledFrom] at h
    subst h
    simp [demoteLoop, filledFrom]
  | cons o os ih =>
    by_cases hlt : s.count < dcount
    · cases o with
      | none =>
        rw [demoteLoop, if_pos hlt]
        exact ih (off + 1) s h
      | some v =>
        rw [demoteLoop, if_pos hlt, ih]
        · simp [filledFrom]
        · simp only [filledFrom, length_cons] at h
          simp only
          omega
    · have hnil : filledFrom off (o :: os) = [] := length_eq_zero_iff.mp (by omega)
      have hcount : s.count = dcount := by
        rw [hnil] at h
        exact h
      rw [demoteLoop.eq_def, hnil, append_nil, ← hcount]
      exact if_neg (lt_irrefl _)

lemma arDenseMaybeDemote_spec (cfg : ArConfig) (h : d.WF ss) (hne : d.count ≠ 0) :
    (arDenseMaybeDemote cfg d).WF ss ∧ (arDenseMaybeDemote cfg d).elements = d.elements := by
  unfold arDenseMaybeDemote
  split_ifs with hcond
  · exact ⟨h, rfl⟩
  · rw [demoteLoop_eq _ _ _ _ ((zero_add _).trans h.count.symm)]
    refine ⟨⟨h.count, ?_, ?_, ?_, ?_⟩, nil_append _⟩
    · exact (represents h.length).sorted
    · exact ArSlice.WF.elements_lt (s := .dense d) h
    · simp only
      omega
    · simp only
      omega

/-! ### Setting an element -/

/-- The outcome of setting the element `rel` of a slice: 1 is returned for a new element. -/
structure SliceSet (ss : ℕ) (s : ArSlice V) (rel : ℕ) (v : V) (s' : ArSlice V) (added : ℕ) :
    Prop where
  wf : s'.WF ss
  get : s'.get = Function.update s.get rel (some v)
  added : added = if (s.get rel).isNone then 1 else 0

/-- Setting an element changes the count by the returned number, and the slice is not empty. -/
lemma SliceSet.count_eq {s s' : ArSlice V} {added : ℕ} {v : V}
    (h : SliceSet ss s rel v s' added) (hwf : s.WF ss) : s'.count = s.count + added ∧
    s'.count ≠ 0 := by
  have hrep := h.wf.represents
  rw [h.get] at hrep
  have hlen := hwf.represents.length_update hrep
  have hadded : added + (s.get rel).toList.length = 1 := by
    rw [h.added]
    cases s.get rel <;> rfl
  have hmem : (rel, v) ∈ s'.elements := (hrep.mem_iff rel v).mpr (update_self ..)
  have hpos := length_pos_of_mem hmem
  rw [h.wf.count_eq, hwf.count_eq]
  simp only [toList_some, length_singleton] at hlen
  omega

/-- The part of `arSet` that makes room in a dense slice and stores the value. -/
lemma ArDense.WF.grow_store (h : d.WF ss) (hss : ValidSliceSize ss) (hrel : rel < ss) :
    ∃ d', arSliceDenseGrowIfNeeded d rel ss = some d' ∧
      slotAt d'.items (rel - d'.offset) = (dense d).get rel ∧
      ∀ (v : V) (added : ℕ), (added = if ((dense d).get rel).isNone then 1 else 0) →
        SliceSet ss (.dense d) rel v (.dense (d'.store rel added v)) added := by
  obtain ⟨d', hgrow, hwf, helem, hcov⟩ := arSliceDenseGrowIfNeeded_spec h hss hrel
  have hget : (dense d').get = (dense d).get :=
    get_eq_of_elements_eq (.dense d) (.dense d') h hwf helem
  refine ⟨d', hgrow, ?_, fun v added hadded => ?_⟩
  · rw [← get_of_covers hwf.length hcov, hget]
  · rw [← hget] at hadded
    obtain ⟨hwf', hget'⟩ := hwf.store hcov v hadded
    exact ⟨hwf', hget'.trans (by rw [hget]), by rw [hadded, hget]⟩

lemma arSparseInsert_spec (cfg : ArConfig) (h : s.WF ss)
    (hrel : rel < ss) (v : V) (hroom : s.count < cfg.sparseKMax)
    (hfree : (sparse s).get rel = none) :
    ∃ s', arSparseInsert cfg s (arSparseFindPos s rel).1 rel v = some s' ∧
      SliceSet ss (.sparse s) rel v (.sparse s') 1 := by
  have hcap := h.count_le_cap
  have hpos := h.cap_pos
  obtain ⟨hsplit, -, -⟩ := h.findPos rel
  generalize (arSparseFindPos s rel).1 = pos at hsplit
  have hrep := h.represents.insert hsplit hfree v
  simp only [arSparseInsert]
  generalize hcap' : (if s.cap ≤ s.count then
    if cfg.sparseKMax < s.cap * 2 then cfg.sparseKMax else s.cap * 2 else s.cap) = cap
  have hlt : s.count < cap := by
    rw [← hcap']
    split_ifs <;> omega
  have hcount := h.represents.length_of_insert hrep hfree
  have hwf : ArSparse.WF ss
      ⟨s.count + 1, cap, s.entries.take pos ++ (rel, v) :: s.entries.drop pos⟩ := by
    refine ⟨?_, hrep.sorted, ?_, hlt, by simp only; omega⟩
    · rw [h.count]
      exact hcount.symm
    · rintro ⟨k, w⟩ hkw
      rw [hrep.mem_iff, update_apply] at hkw
      split_ifs at hkw with hk
      · exact hk ▸ hrel
      · exact h.lt _ ((h.represents.mem_iff k w).mpr hkw)
  refine ⟨_, if_pos hlt, hwf, hwf.represents.fun_eq hrep, ?_⟩
  rw [hfree]
  rfl

lemma ArSparse.WF.replace (h : s.WF ss) (v : V) (hfound : (arSparseFindPos s rel).2 = true) :
    SliceSet ss (.sparse s) rel v
      (.sparse { s with entries := s.entries.set (arSparseFindPos s rel).1 (rel, v) }) 0 := by
  obtain ⟨w, hw⟩ := (h.findPos rel).2.2.mp hfound
  generalize (arSparseFindPos s rel).1 = pos at hw
  have hrep := h.represents.setAt hw v
  have hold : (sparse s).get rel = some w :=
    (h.represents.mem_iff rel w).mp (mem_of_getElem? hw)
  have hwf : ArSparse.WF ss { s with entries := s.entries.set pos (rel, v) } := by
    refine ⟨by simpa using h.count, hrep.sorted, ?_, h.count_le_cap, h.cap_pos⟩
    rintro ⟨k, u⟩ hku
    rw [hrep.mem_iff, update_apply] at hku
    split_ifs at hku with hk
    · exact hk ▸ h.lt (rel, w) (mem_of_getElem? hw)
    · exact h.lt _ ((h.represents.mem_iff k u).mpr hku)
  refine ⟨hwf, hwf.represents.fun_eq hrep, ?_⟩
  rw [hold]
  rfl

lemma ArSparse.get_eq_none (hfound : ¬ (arSparseFindPos s rel).2 = true) :
    (ArSlice.sparse s).get rel = none := by
  simp [ArSlice.get, hfound]

lemma arSliceSet_spec (cfg : ArConfig) {s : ArSlice V} (h : s.WF ss) (hss : ValidSliceSize ss)
    (hrel : rel < ss) (v : V) :
    ∃ s' added, arSliceSet cfg ss s rel v = some (s', added) ∧ SliceSet ss s rel v s' added := by
  cases s with
  | dense d =>
    obtain ⟨d', hgrow, hslot, hset⟩ := ArDense.WF.grow_store h hss hrel
    refine ⟨_, _, ?_, hset v _ rfl⟩
    simp only [arSliceSet, hgrow, hslot, map_some]
  | sparse s =>
    simp only [arSliceSet]
    by_cases hfound : (arSparseFindPos s rel).2 = true
    · rw [if_pos hfound]
      exact ⟨_, _, rfl, h.replace v hfound⟩
    have hfree := ArSparse.get_eq_none hfound
    rw [if_neg hfound]
    by_cases hfull : cfg.sparseKMax ≤ s.count
    · -- the slice is promoted and the value is stored in the window
      obtain ⟨d, hpromote, hwf, helem⟩ := arSparsePromote_spec h hss
      have hget : (dense d).get = (sparse s).get :=
        get_eq_of_elements_eq (.sparse s) (.dense d) h hwf helem
      obtain ⟨d', hgrow, -, hset⟩ := hwf.grow_store hss hrel
      have hnew := hset v 1 (by rw [hget, hfree]; rfl)
      refine ⟨_, _, ?_, hnew.wf, hget ▸ hnew.get, hget ▸ hnew.added⟩
      simp only [hfull, if_true, hpromote, bind_some, hgrow, map_some]
    · obtain ⟨s', hinsert, hset⟩ := arSparseInsert_spec cfg h hrel v (by omega) hfree
      refine ⟨_, _, ?_, hset⟩
      simp only [hfull, if_false, hinsert, map_some]

lemma arNewSlice_spec (cfg : ArConfig) (hss : ValidSliceSize ss) (rel : ℕ) :
    (arNewSlice cfg rel ss : ArSlice V).WF ss ∧
      (arNewSlice cfg rel ss : ArSlice V).elements = [] := by
  unfold arNewSlice
  split_ifs with hk
  · refine ⟨⟨rfl, List.Pairwise.nil, by simp [arSliceSparseNew], zero_le _, ?_⟩, rfl⟩
    simp only [arSliceSparseNew]
    split_ifs <;> omega
  · exact arSliceDenseNew_spec hss rel

/-- A slice without elements. -/
lemma ArSlice.WF.get_eq_none {s : ArSlice V} (h : s.WF ss) (hnil : s.elements = []) (rel : ℕ) :
    s.get rel = none :=
  h.represents.eq_nil_iff.mp hnil rel

/-! ### Deleting elements -/

/-- The outcome of deleting elements of a slice, before it is freed or re-encoded. The slice stands
for `f`; it is well formed unless its last element is gone, when `max_idx` is stale. -/
structure SliceCleared (ss : ℕ) (f : ℕ → Option V) (s' : ArSlice V) : Prop where
  represents : Represents s'.elements f
  count : s'.count = s'.elements.length
  wf : s'.count ≠ 0 → s'.WF ss

/-- Looking for the highest element of a window from a slot above all of them. -/
lemma ArDense.Counted.scan (h : d.Counted ss) {n : ℕ}
    (hn : ∀ p ∈ d.elements, p.1 < d.offset + n) (hne : d.count ≠ 0) :
    ∃ pos, scanDown (fun pos => (slotAt d.items pos).isSome) n = some pos ∧
      ArDense.WF ss { d with maxIdx := d.offset + pos } := by
  have hnil : d.elements ≠ [] := by
    intro hnil
    have := h.count
    simp [hnil] at this
    omega
  obtain ⟨pos, hpos, htop⟩ := exists_scanDown_isTop hnil hn
  exact ⟨pos, hpos, ⟨h.length, h.window, h.winsize_pos, h.count⟩, htop.le, fun _ => htop.mem,
    fun hz => absurd hz hne⟩

lemma arDenseUpdateMaxIdx_spec (del : ℕ) (h : d.Counted ss) (hle : ∀ p ∈ d.elements, p.1 ≤ d.maxIdx)
    (hmem : del < d.maxIdx → ∃ v, (d.maxIdx, v) ∈ d.elements) :
    SliceCleared ss (dense d).get (.dense (arDenseUpdateMaxIdx d del)) := by
  have hrep := represents h.length
  unfold arDenseUpdateMaxIdx
  split_ifs with hcond
  · refine ⟨hrep, h.count, fun hne => ⟨h, hle, fun _ => hmem (hcond.resolve_left hne), ?_⟩⟩
    exact fun hz => absurd hz hne
  · push Not at hcond
    obtain ⟨pos, hpos, hwf⟩ := h.scan (n := d.maxIdx - d.offset + 1) (fun p hp => by
      have := hle p hp
      omega) hcond.1
    rw [hpos]
    exact ⟨hrep, h.count, fun _ => hwf⟩

lemma ArDense.covers_of_get (h : (ArSlice.dense d).get rel ≠ none) :
    d.Covers rel := by
  simp only [ArSlice.get] at h
  split_ifs at h with hout
  · exact absurd rfl h
  · exact ⟨by omega, by omega⟩

lemma arSliceDel_eq_none {s : ArSlice V} (h : s.WF ss) (hrel : s.get rel = none) :
    arSliceDel s rel = none := by
  cases s with
  | dense d =>
    simp only [arSliceDel]
    split_ifs with hout hslot
    · rfl
    · rfl
    · have hcov : d.Covers rel := ⟨by omega, by omega⟩
      rw [ArDense.get_of_covers (ArDense.WF.toCounted h).length hcov] at hrel
      simp [hrel] at hslot
  | sparse s =>
    have hfound : ¬ (arSparseFindPos s rel).2 = true := by
      intro hf
      obtain ⟨w, hw⟩ := (ArSparse.WF.findPos h rel).2.2.mp hf
      simp [ArSlice.get, hf, hw] at hrel
    simp only [arSliceDel]
    exact if_neg hfound

lemma ArDense.WF.del (h : d.WF ss) {w : V} (hrel : (dense d).get rel = some w) :
    ∃ s', arSliceDel (.dense d) rel = some s' ∧
      SliceCleared ss (update (dense d).get rel none) s' := by
  have hcov := covers_of_get (by rw [hrel]; simp)
  have hslot := get_of_covers h.length hcov
  let d1 : ArDense V :=
    { d with items := d.items.set (rel - d.offset) none, count := d.count - 1 }
  have hget : (dense d1).get = update (dense d).get rel none :=
    get_setItem h.length hcov none _ _
  have hlen : d1.items.length = d1.winsize := (length_set ..).trans h.length
  have hrep := represents h.length
  have hrep1 := represents hlen
  rw [hget] at hrep1
  have hmem : ∀ k u, (k, u) ∈ d1.elements ↔ k ≠ rel ∧ (k, u) ∈ d.elements := by
    intro k u
    rw [hrep1.mem_iff, hrep.mem_iff]
    by_cases hk : k = rel <;> simp [hk]
  have hcount : d1.count = d1.elements.length := by
    have h1 := hrep.length_of_erase hrep1 (by simp [hrel])
    have h2 := h.count
    have h3 : d1.count = d.count - 1 := rfl
    omega
  have hclear := arDenseUpdateMaxIdx_spec rel
    ⟨hlen, h.window, h.winsize_pos, hcount⟩
    (fun p hp => h.le_maxIdx p ((hmem p.1 p.2).mp hp).2) (fun hlt => by
      obtain ⟨u, hu⟩ := h.maxIdx_mem fun hz => by
        have := h.maxIdx_zero hz
        have hlt' : rel < d.maxIdx := hlt
        omega
      exact ⟨u, (hmem _ _).mpr ⟨(show rel < d.maxIdx from hlt).ne', hu⟩⟩)
  rw [hget] at hclear
  refine ⟨_, ?_, hclear⟩
  have hin : ¬ (rel < d.offset ∨ d.offset + d.winsize ≤ rel) := by
    have := hcov.1
    have := hcov.2
    omega
  have hsome : ¬ (slotAt d.items (rel - d.offset)).isNone = true := by
    rw [← hslot, hrel]
    simp
  simp only [arSliceDel, if_neg hin]
  exact if_neg hsome

lemma ArSparse.WF.del (h : s.WF ss) {w : V} (hrel : (sparse s).get rel = some w) :
    ∃ s', arSliceDel (.sparse s) rel = some s' ∧
      SliceCleared ss (update (sparse s).get rel none) s' := by
  have hfound : (arSparseFindPos s rel).2 = true := by
    by_contra hf
    simp [ArSparse.get_eq_none hf] at hrel
  obtain ⟨u, hu⟩ := (h.findPos rel).2.2.mp hfound
  simp only [arSliceDel, if_pos hfound]
  generalize (arSparseFindPos s rel).1 = pos at hu
  have hrep := h.represents.eraseAt hu
  have hlen := h.represents.length_of_erase hrep (by simp [hrel])
  have hcount := h.count
  have hcap := h.count_le_cap
  refine ⟨_, rfl, hrep, ?_, fun _ => ⟨?_, hrep.sorted, ?_, ?_, h.cap_pos⟩⟩
  · show s.count - 1 = (s.entries.take pos ++ s.entries.drop (pos + 1)).length
    omega
  · simp only
    omega
  · intro p hp
    refine h.lt p ?_
    rcases mem_append.mp hp with hp | hp
    · exact mem_of_mem_take hp
    · exact mem_of_mem_drop hp
  · simp only
    omega

lemma arSliceDel_spec {s : ArSlice V} (h : s.WF ss) {w : V} (hrel : s.get rel = some w) :
    ∃ s', arSliceDel s rel = some s' ∧ SliceCleared ss (update s.get rel none) s' := by
  cases s with
  | dense d => exact ArDense.WF.del h hrel
  | sparse s => exact ArSparse.WF.del h hrel

/-- The loop of `arDeleteSliceRange` over a window clears the slots and counts the elements. -/
lemma clearItems_spec (offset off : ℕ) (hoff : offset ≤ off) (n : ℕ) (items : List (Option V))
    (deleted : ℕ) :
    (clearItems offset off n (items, deleted)).1.length = items.length ∧
      (∀ i, slotAt (clearItems offset off n (items, deleted)).1 i =
        if off ≤ offset + i ∧ offset + i < off + n then none else slotAt items i) ∧
      (filledFrom offset (clearItems offset off n (items, deleted)).1).length +
        (clearItems offset off n (items, deleted)).2 =
          (filledFrom offset items).length + deleted := by
  induction n generalizing off items deleted with
  | zero =>
    refine ⟨rfl, fun i => ?_, rfl⟩
    rw [if_neg (by omega)]
    rfl
  | succ n ih =>
    rw [clearItems]
    cases hslot : slotAt items (off - offset) with
    | none =>
      simp only [isSome_none, Bool.false_eq_true, if_false]
      obtain ⟨h1, h2, h3⟩ := ih (off + 1) (by omega) items deleted
      refine ⟨h1, fun i => ?_, h3⟩
      rw [h2]
      by_cases hi : off = offset + i
      · rw [if_neg (by omega), if_pos (by omega), ← hslot]
        congr 1
        omega
      · exact if_congr (by omega) rfl rfl
    | some w =>
      simp only [isSome_some, if_true]
      have hlt := lt_length_of_slotAt hslot
      obtain ⟨h1, h2, h3⟩ :=
        ih (off + 1) (by omega) (items.set (off - offset) none) (deleted + 1)
      refine ⟨h1.trans (length_set ..), fun i => ?_, ?_⟩
      · rw [h2, slotAt_set hlt, update_apply]
        by_cases hi : off = offset + i
        · rw [if_neg (by omega), if_pos (by omega), if_pos (by omega)]
        · rw [if_neg (show ¬ i = off - offset by omega)]
          exact if_congr (by omega) rfl rfl
      · have := length_filledFrom_set offset hlt none
        simp only [hslot, toList_some, toList_none, length_cons] at this
        omega

/-- The map without the offsets `lo, ..., hi`. -/
def clearRange (lo hi : ℕ) (f : ℕ → Option V) (k : ℕ) : Option V :=
  if lo ≤ k ∧ k ≤ hi then none else f k

lemma clearRange_eq_self {lo hi : ℕ} {f : ℕ → Option V}
    (h : ∀ k, lo ≤ k → k ≤ hi → f k = none) : clearRange lo hi f = f := by
  funext k
  unfold clearRange
  split_ifs with hk
  · exact (h k hk.1 hk.2).symm
  · rfl

lemma SliceCleared.of_wf {s : ArSlice V} (h : s.WF ss) : SliceCleared ss s.get s :=
  ⟨h.represents, h.count_eq, fun _ => h⟩

/-- The slice after the loop of `arDeleteSliceRange` over a window that meets the range. -/
lemma ArDense.WF.clear (h : d.WF ss) (lo hi n : ℕ) (hlo : d.offset ≤ max lo d.offset)
    (hn : max lo d.offset + n = min hi (d.offset + d.winsize - 1) + 1) :
    let r := clearItems d.offset (max lo d.offset) n (d.items, 0)
    let d1 := { d with items := r.1, count := d.count - r.2 }
    d1.Counted ss ∧ (dense d1).get = clearRange lo hi (dense d).get ∧
      d1.count + r.2 = d.count := by
  intro r d1
  have hpos := h.winsize_pos
  have hlen := h.length
  obtain ⟨hlen1, hslot, hcount⟩ := clearItems_spec d.offset _ hlo n d.items 0
  have hdel : d1.elements.length + r.2 = d.count := hcount.trans h.count.symm
  have hc : d1.count = d.count - r.2 := rfl
  refine ⟨⟨hlen1.trans hlen, h.window, hpos, by omega⟩, ?_, by omega⟩
  funext k
  rw [get_eq (hlen1.trans hlen), clearRange, get_eq hlen]
  by_cases hk : d.offset ≤ k
  · have hk' : d.offset + (k - d.offset) = k := by omega
    rw [if_pos (show d1.offset ≤ k from hk), if_pos hk]
    show slotAt r.1 (k - d.offset) = _
    rw [hslot]
    by_cases hwin : k < d.offset + d.winsize
    · exact if_congr (by omega) rfl rfl
    · rw [slotAt_of_length_le (by omega), ite_self, ite_self]
  · rw [if_neg (show ¬ d1.offset ≤ k from hk), if_neg hk, ite_self]

lemma arDenseDeleteRange_spec (h : d.WF ss) (lo hi : ℕ) :
    SliceCleared ss (clearRange lo hi (dense d).get)
        (.dense (arDenseDeleteRange d lo hi).1) ∧
      (arDenseDeleteRange d lo hi).1.count + (arDenseDeleteRange d lo hi).2 = d.count := by
  have hlo : (if d.offset < lo then lo else d.offset) = max lo d.offset := by
    split_ifs <;> omega
  have hhi : (if hi < d.offset + d.winsize - 1 then hi else d.offset + d.winsize - 1) =
      min hi (d.offset + d.winsize - 1) := by
    split_ifs <;> omega
  simp only [arDenseDeleteRange, hlo, hhi]
  by_cases hmeet : max lo d.offset ≤ min hi (d.offset + d.winsize - 1)
  · obtain ⟨hcounted, hget, hcount⟩ := h.clear lo hi
      (min hi (d.offset + d.winsize - 1) + 1 - max lo d.offset) (le_max_right _ _) (by omega)
    simp only [if_pos hmeet]
    generalize clearItems d.offset (max lo d.offset) _ (d.items, 0) = r at hcounted hget hcount
    have hrep := represents hcounted.length
    rw [hget] at hrep
    have hold : ∀ p ∈ elements { d with items := r.1, count := d.count - r.2 },
        p ∈ d.elements := by
      rintro ⟨k, v⟩ hkv
      rw [hrep.mem_iff, clearRange] at hkv
      split_ifs at hkv
      exact ((represents h.length).mem_iff k v).mpr hkv
    split_ifs with hscan
    · obtain ⟨pos, hpos, hwf⟩ := hcounted.scan (fun p hp => by
        have := (lt_of_mem_filledFrom (hold p hp)).2
        rwa [h.length] at this) hscan.1.ne'
      simp only [hpos]
      exact ⟨⟨hrep, hcounted.count, fun _ => hwf⟩, hcount⟩
    · refine ⟨⟨hrep, hcounted.count, fun hne => ?_⟩, hcount⟩
      have hne' : d.count ≠ 0 := by
        have : d.count - r.2 ≠ 0 := hne
        omega
      -- the highest element lies below the range
      obtain ⟨u, hu⟩ := h.maxIdx_mem hne'
      have hbelow : ¬ (lo ≤ d.maxIdx ∧ d.maxIdx ≤ hi) := by
        have h1 := (lt_of_mem_filledFrom hu).1
        have h2 : d.count - r.2 ≠ 0 := hne
        omega
      refine ⟨hcounted, fun p hp => h.le_maxIdx p (hold p hp), fun _ => ⟨u, ?_⟩,
        fun hz => absurd hz hne⟩
      rw [hrep.mem_iff, clearRange, if_neg hbelow]
      exact ((represents h.length).mem_iff _ _).mp hu
  · simp only [if_neg hmeet]
    rw [clearRange_eq_self]
    · exact ⟨SliceCleared.of_wf h, rfl⟩
    · intro k hk1 hk2
      by_contra hne
      have hcov := covers_of_get hne
      have := hcov.1
      have := hcov.2
      omega

/-- The position behind the offsets up to `hi`, as computed by `arDeleteSliceRange`. -/
lemma ArSparse.WF.findLast (h : s.WF ss) (hi : ℕ) :
    let last := if (arSparseFindPos s hi).2 = true then (arSparseFindPos s hi).1 + 1
      else (arSparseFindPos s hi).1
    SplitsAt s.entries last (hi + 1) ∧ last ≤ s.count := by
  obtain ⟨hsplit, hle, hfound⟩ := h.findPos hi
  refine ⟨h.sorted.splitsAt_succ hsplit hfound, ?_⟩
  split_ifs with hf
  · obtain ⟨v, hv⟩ := hfound.mp hf
    rw [h.count]
    exact (List.getElem?_eq_some_iff.mp hv).1
  · exact hle

lemma arSparseDeleteRange_spec (h : s.WF ss) (lo hi : ℕ) :
    SliceCleared ss (clearRange lo hi (sparse s).get)
        (.sparse (arSparseDeleteRange s lo hi).1) ∧
      (arSparseDeleteRange s lo hi).1.count + (arSparseDeleteRange s lo hi).2 = s.count := by
  obtain ⟨hfirst, -, -⟩ := h.findPos lo
  obtain ⟨hlast, hlle⟩ := h.findLast hi
  have hcount := h.count
  have hcap := h.count_le_cap
  simp only [arSparseDeleteRange]
  generalize (arSparseFindPos s lo).1 = first at hfirst
  generalize (if (arSparseFindPos s hi).2 = true then (arSparseFindPos s hi).1 + 1
      else (arSparseFindPos s hi).1) = last at hlast hlle
  split_ifs with hlt
  · have hrep := h.represents.cut hfirst hlast hlt.le
    have hlen : (s.entries.take first ++ s.entries.drop last).length =
        s.count - (last - first) := by
      rw [length_append, length_take, length_drop]
      omega
    refine ⟨⟨hrep, hlen.symm, fun _ => ⟨hlen.symm, hrep.sorted, ?_, ?_, h.cap_pos⟩⟩, ?_⟩
    · intro p hp
      rcases mem_append.mp hp with hp | hp
      · exact h.lt p (mem_of_mem_take hp)
      · exact h.lt p (mem_of_mem_drop hp)
    · simp only
      omega
    · simp only
      omega
  · rw [clearRange_eq_self]
    · exact ⟨SliceCleared.of_wf h, rfl⟩
    · intro k hk1 hk2
      refine eq_none_iff_forall_not_mem.mpr fun v hv => ?_
      rcases (mem_take_or_drop first).mp ((h.represents.mem_iff k v).mpr hv) with ht | hd
      · exact absurd (hfirst.below _ ht) (Nat.not_lt.mpr hk1)
      · have := hlast.above _ (drop_subset_drop_left _ (Nat.le_of_not_lt hlt) hd)
        omega

end RainCall
