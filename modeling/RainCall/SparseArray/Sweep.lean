import RainCall.SparseArray.Directory
import RainCall.SparseArray.SliceSpec

/-!
# Freeing whole slices

The middle part of `arDeleteRange` frees the slices between the two slices at the ends of the range.
In a flat directory it is one loop over the slots; in a superdir the blocks that meet the range are
swept from the last to the first, and a block that becomes empty is removed.
-/

namespace RainCall

open ArDir List

variable {V : Type*}

/-- The outcome of a sweep: from the slices `l` those with ids from `lo` to `hi` are gone, `freed`
and `deleted` have grown by the number of slices and of elements that went. -/
structure Swept (lo hi : ℕ) (l l' : List (ℕ × ArSlice V)) (freed freed' deleted deleted' : ℕ) :
    Prop where
  slices : l' = l.filter fun p => ¬ (lo ≤ p.1 ∧ p.1 ≤ hi)
  freed : l'.length + freed' = l.length + freed
  deleted : weight ArSlice.count l' + deleted' = weight ArSlice.count l + deleted

/-- The loop over slots. -/
lemma sweepSlots_spec {base highest si n : ℕ} {st st' : SweepState V}
    (h : sweepSlots base highest si n st = st') :
    st'.slots.length = st.slots.length ∧
      (∀ i, slotAt st'.slots i = if si ≤ i ∧ i < si + n then none else slotAt st.slots i) ∧
      (filledFrom 0 st'.slots).length + st'.freed = (filledFrom 0 st.slots).length + st.freed ∧
      weight ArSlice.count (filledFrom 0 st'.slots) + st'.deleted =
        weight ArSlice.count (filledFrom 0 st.slots) + st.deleted ∧
      (st.touched = true → st'.touched = true) := by
  subst h
  induction n generalizing si st with
  | zero =>
    refine ⟨rfl, fun i => ?_, rfl, rfl, id⟩
    rw [if_neg (by omega)]
    rfl
  | succ n ih =>
    rw [sweepSlots]
    cases hslot : slotAt st.slots si with
    | none =>
      obtain ⟨h1, h2, h3, h4, h5⟩ := @ih (si + 1) st
      refine ⟨h1, fun i => ?_, h3, h4, h5⟩
      rw [h2]
      by_cases hi : i = si
      · subst hi
        rw [if_neg (by omega), if_pos (by omega), hslot]
      · exact if_congr (by omega) rfl rfl
    | some s =>
      have hlt := lt_length_of_slotAt hslot
      obtain ⟨h1, h2, h3, h4, h5⟩ := @ih (si + 1)
        { slots := st.slots.set si none
          freed := st.freed + 1
          deleted := st.deleted + s.count
          touched := st.touched || decide (highest ≤ base + si) }
      have hlen := length_filledFrom_set 0 hlt none
      have hweight := weight_filledFrom_set ArSlice.count 0 hlt none
      simp only [hslot, Option.toList_some, Option.toList_none, length_singleton,
        length_nil, Option.elim_some, Option.elim_none] at hlen hweight
      simp only at h3 h4 h5 ⊢
      refine ⟨h1.trans (length_set ..), fun i => ?_, by omega, by omega, fun ht => ?_⟩
      · rw [h2]
        rw [slotAt_set hlt, Function.update_apply]
        by_cases hi : i = si
        · subst hi
          rw [if_neg (by omega), if_pos rfl, if_pos (by omega)]
        · rw [if_neg hi]
          exact if_congr (by omega) rfl rfl
      · exact h5 (by rw [ht]; rfl)

lemma weight_map_shift {α : Type*} (w : α → ℕ) (c : ℕ) (l : List (ℕ × α)) :
    weight w (l.map fun p => (c + p.1, p.2)) = weight w l := by
  simp [weight, Function.comp_def]

lemma sweepBlock_spec {e : ArSDirEntry V} (h : e.WF) (highest : ℕ) (touched : Bool) {lo hi : ℕ}
    (hhi : e.blockId * arSuperBlockSlots ≤ hi) :
    let base := e.blockId * arSuperBlockSlots
    let first := if base < lo then lo - base else 0
    let last := if hi < base + arSuperBlockSlots - 1 then hi - base else arSuperBlockSlots - 1
    let sw := sweepSlots base highest first (last + 1 - first) ⟨e.slots, 0, 0, touched⟩
    let e' := { e with slots := sw.slots, count := e.count - sw.freed }
    e'.WF ∧ Swept lo hi (super [e]).slices (super [e']).slices 0 sw.freed 0 sw.deleted ∧
      (touched = true → sw.touched = true) := by
  intro base first last sw e'
  have hfirst : first = lo - base := by
    simp only [first]
    split_ifs <;> omega
  have hlast : last = min (hi - base) 2047 := by
    by_cases hend : hi < base + arSuperBlockSlots - 1
    · rw [show last = hi - base from if_pos hend]
      simp only [arSuperBlockSlots] at hend
      omega
    · rw [show last = arSuperBlockSlots - 1 from if_neg hend]
      simp only [arSuperBlockSlots] at hend ⊢
      omega
  obtain ⟨hlen, hslot, hfreed, hdeleted, htouched⟩ := sweepSlots_spec (rfl : _ = sw)
  have hcount : e'.count = e'.slices.length := by
    have h1 : e.count = (filledFrom 0 e.slots).length := h.count
    have h2 : e'.count = e.count - sw.freed := rfl
    have h3 : (filledFrom 0 sw.slots).length + sw.freed =
        (filledFrom 0 e.slots).length + 0 := hfreed
    have h4 : e'.slices = filledFrom 0 sw.slots := rfl
    rw [h4]
    omega
  have hslices : e'.slices = e.slices.filter fun p => ¬ (lo ≤ base + p.1 ∧ base + p.1 ≤ hi) := by
    refine e.represents.eq_filter (p := fun k => lo ≤ base + k ∧ base + k ≤ hi) ?_
    have hfun : slotAt e'.slots =
        fun k => if lo ≤ base + k ∧ base + k ≤ hi then none else slotAt e.slots k := by
      funext k
      refine (hslot k).trans ?_
      by_cases hk : k < arSuperBlockSlots
      · refine if_congr ?_ rfl rfl
        have hk' : k < 2048 := hk
        omega
      · rw [slotAt_of_length_le (by rw [h.length]; omega), ite_self, ite_self]
    exact hfun ▸ e'.represents
  refine ⟨⟨hlen.trans h.length, hcount⟩, ⟨?_, ?_, ?_⟩, htouched⟩
  · rw [slices_super_singleton, slices_super_singleton, hslices, filter_map]
    rfl
  · rw [slices_super_singleton, slices_super_singleton, length_map, length_map]
    exact hfreed
  · rw [slices_super_singleton, slices_super_singleton, weight_map_shift, weight_map_shift]
    exact hdeleted

lemma Swept.append {lo hi : ℕ} {l1 l1' l2 l2' : List (ℕ × ArSlice V)} {f0 f1 f2 d0 d1 d2 : ℕ}
    (h2 : Swept lo hi l2 l2' f0 f1 d0 d1) (h1 : Swept lo hi l1 l1' f1 f2 d1 d2) :
    Swept lo hi (l1 ++ l2) (l1' ++ l2') f0 f2 d0 d2 := by
  obtain ⟨hs1, hf1, hd1⟩ := h1
  obtain ⟨hs2, hf2, hd2⟩ := h2
  refine ⟨by rw [filter_append, hs1, hs2], ?_, ?_⟩
  · rw [length_append, length_append]
    omega
  · rw [weight_append, weight_append]
    omega

/-- The outcome of sweeping the blocks `bs`. -/
structure BlocksSwept (lo hi : ℕ) (bs bs' : List (ArSDirEntry V)) (st st' : SweepBlocks V) :
    Prop where
  swept : Swept lo hi (ArDir.super bs).slices (ArDir.super bs').slices st.freed st'.freed
    st.deleted st'.deleted
  ids : (bs'.map ArSDirEntry.blockId).Sublist (bs.map ArSDirEntry.blockId)
  entry : ∀ e ∈ bs', e.WF
  ne : ∀ e ∈ bs', e.count ≠ 0
  touched : st.touched = true → st'.touched = true

/-- The loop over the blocks of a superdir. -/
lemma sweepBlocks_spec (lo hi highest : ℕ) (front bs back : List (ArSDirEntry V))
    (hwf : ∀ e ∈ bs, e.WF)
    (hhi : ∀ e ∈ bs, e.blockId * arSuperBlockSlots ≤ hi) (st : SweepBlocks V)
    (hst : st.superdir = front ++ bs ++ back) :
    ∃ bs', (sweepBlocks lo hi highest front.length bs.length st).superdir = front ++ bs' ++ back ∧
      BlocksSwept lo hi bs bs' st (sweepBlocks lo hi highest front.length bs.length st) := by
  induction bs using reverseRecOn generalizing back st with
  | nil => exact ⟨[], hst, ⟨rfl, rfl, rfl⟩, List.Sublist.refl _, by simp, by simp, id⟩
  | append_singleton bs e ih =>
    have hget : st.superdir[front.length + bs.length]? = some e := by
      rw [hst]
      simp
    obtain ⟨he', hswept, htouched⟩ := sweepBlock_spec (hwf e (by simp)) highest st.touched
      (hhi e (by simp))
    rw [length_append, length_singleton, sweepBlocks]
    simp only [hget]
    generalize sweepSlots (e.blockId * arSuperBlockSlots) highest _ _
      ⟨e.slots, 0, 0, st.touched⟩ = sw
      at he' hswept htouched
    -- the rest of the loop, once it is known which blocks are behind
    have hrest : ∀ back', (∀ x ∈ back',
          x = { e with slots := sw.slots, count := e.count - sw.freed } ∧ x.count ≠ 0) →
        (super back').slices =
          (super [{ e with slots := sw.slots, count := e.count - sw.freed }]).slices →
        (back'.map ArSDirEntry.blockId).Sublist [e.blockId] →
        ∀ st1 : SweepBlocks V, st1.superdir = front ++ bs ++ (back' ++ back) →
        st1.freed = st.freed + sw.freed → st1.deleted = st.deleted + sw.deleted →
        st1.touched = sw.touched →
        ∃ bs', (sweepBlocks lo hi highest front.length bs.length st1).superdir =
            front ++ bs' ++ back ∧
          BlocksSwept lo hi (bs ++ [e]) bs' st
            (sweepBlocks lo hi highest front.length bs.length st1) := by
      intro back' hback' hslices hsub st1 hsd hf hd ht
      obtain ⟨bs', hbs', hsw⟩ := ih (back' ++ back) (fun x hx => hwf x (by simp [hx]))
        (fun x hx => hhi x (by simp [hx])) st1 hsd
      refine ⟨bs' ++ back', by rw [hbs']; simp, ?_, ?_, ?_, ?_, ?_⟩
      · rw [slices_super_append, slices_super_append, hslices]
        refine Swept.append ?_ hsw.swept
        have hfreed := hswept.freed
        have hdeleted := hswept.deleted
        exact ⟨hswept.slices, by omega, by omega⟩
      · rw [map_append, map_append]
        exact hsw.ids.append hsub
      · intro x hx
        rcases mem_append.mp hx with hx | hx
        · exact hsw.entry x hx
        · rw [(hback' x hx).1]
          exact he'
      · intro x hx
        rcases mem_append.mp hx with hx | hx
        · exact hsw.ne x hx
        · exact (hback' x hx).2
      · exact fun h => hsw.touched (ht ▸ htouched h)
    split_ifs with hzero
    · -- the block became empty
      refine hrest [] (by simp) ?_ (by simp) _ ?_ rfl rfl rfl
      · rw [slices_super_singleton]
        have hnil := length_eq_zero_iff.mp (he'.count.symm.trans hzero)
        rw [hnil]
        rfl
      · rw [hst]
        simp [eraseIdx_append_of_length_le]
    · refine hrest [{ e with slots := sw.slots, count := e.count - sw.freed }]
        (fun x hx => ⟨mem_singleton.mp hx, by rw [mem_singleton.mp hx]; exact hzero⟩) rfl
        (by simp) _ ?_ rfl rfl rfl
      rw [hst]
      simp

/-- Sweeping a flat directory. -/
lemma sweepFlat_spec (d : List (Option (ArSlice V))) (highest lo hi : ℕ) (touched : Bool) :
    let stop := if d.length ≤ hi then d.length - 1 else hi
    let sw := sweepSlots 0 highest lo (stop + 1 - lo) ⟨d, 0, 0, touched⟩
    sw.slots.length = d.length ∧
      Swept lo hi (filledFrom 0 d) (filledFrom 0 sw.slots) 0 sw.freed 0 sw.deleted ∧
      (touched = true → sw.touched = true) := by
  intro stop sw
  obtain ⟨hlen, hslot, hfreed, hdeleted, htouched⟩ := sweepSlots_spec (rfl : _ = sw)
  refine ⟨hlen, ⟨?_, hfreed, hdeleted⟩, htouched⟩
  refine (represents_filledFrom_zero d).eq_filter (p := fun k => lo ≤ k ∧ k ≤ hi) ?_
  have hstop : ∀ k < d.length, k ≤ stop ↔ k ≤ hi := by
    intro k hk
    simp only [stop]
    split_ifs <;> omega
  have hfun : slotAt sw.slots = fun k => if lo ≤ k ∧ k ≤ hi then none else slotAt d k := by
    funext k
    refine (hslot k).trans ?_
    by_cases hk : k < d.length
    · have := hstop k hk
      exact if_congr (by omega) rfl rfl
    · rw [slotAt_of_length_le (Nat.le_of_not_lt hk), ite_self, ite_self]
  exact hfun ▸ represents_filledFrom_zero sw.slots

lemma mem_slices_super {sd : List (ArSDirEntry V)} {p : ℕ × ArSlice V}
    (hwf : ∀ e ∈ sd, e.WF) (hp : p ∈ (super sd).slices) :
    ∃ e ∈ sd, e.blockId = p.1 / arSuperBlockSlots := by
  obtain ⟨id, s⟩ := p
  obtain ⟨⟨b, e⟩, hq, r, hr, rfl, rfl⟩ := mem_nestedList.mp hp
  obtain ⟨he, rfl⟩ := mem_blocksOf.mp hq
  have hlt := (hwf e he).slices_lt r hr
  refine ⟨e, he, ?_⟩
  simp only [arSuperBlockSlots] at hlt ⊢
  omega

/-- Sweeping a superdir. -/
lemma sweepSuper_spec {sd : List (ArSDirEntry V)} (h : SuperDirWF sd) (highest lo hi : ℕ)
    (touched : Bool) :
    let start := (arSuperDirFind sd (lo / arSuperBlockSlots)).1
    let pf := arSuperDirFind sd (hi / arSuperBlockSlots)
    let stop := if pf.2 then pf.1 + 1 else pf.1
    let st := sweepBlocks lo hi highest start (stop - start) ⟨sd, 0, 0, touched⟩
    SuperDirWF st.superdir ∧
      Swept lo hi (super sd).slices (super st.superdir).slices 0 st.freed 0 st.deleted ∧
      (touched = true → st.touched = true) ∧ ∀ e ∈ st.superdir, e.count = 0 → e ∈ sd := by
  intro start pf stop st
  obtain ⟨hsplit, hle, -⟩ := h.find (lo / arSuperBlockSlots)
  obtain ⟨hsplit', hle', hfound⟩ := h.find (hi / arSuperBlockSlots)
  have hstop : SplitsAt (blocksOf sd) stop (hi / arSuperBlockSlots + 1) :=
    h.sorted.splitsAt_succ hsplit' hfound
  have hstople : stop ≤ sd.length := by
    simp only [stop]
    split_ifs with hf
    · obtain ⟨e, he⟩ := hfound.mp hf
      exact (List.getElem?_eq_some_iff.mp (blocksOf_getElem?.mp he).1).1
    · exact hle'
  -- the blocks in front, the blocks that meet the range, and the blocks behind
  let front := sd.take start
  let bs := (sd.drop start).take (stop - start)
  let back := sd.drop (start + (stop - start))
  have hsd : sd = front ++ bs ++ back := by
    simp only [front, bs, back]
    rw [List.append_assoc, ← List.drop_drop, List.take_append_drop, List.take_append_drop]
  have hfront : front.length = start := List.length_take_of_le hle
  have hbs : bs.length = stop - start := by
    simp only [bs, List.length_take, List.length_drop]
    omega
  obtain ⟨hfrontlt, -⟩ := splitsAt_blocksOf hsplit
  obtain ⟨hbelow, habove⟩ := splitsAt_blocksOf hstop
  have hbhi : ∀ e ∈ bs, e.blockId ≤ hi / arSuperBlockSlots := by
    intro e he
    have hmem : e ∈ (sd.take stop).drop start := by rwa [List.drop_take]
    exact Nat.le_of_lt_succ (hbelow e (List.mem_of_mem_drop hmem))
  have hback : ∀ e ∈ back, hi / arSuperBlockSlots < e.blockId :=
    fun e he => habove e (List.drop_subset_drop_left sd (by omega) he)
  have hentry : ∀ e ∈ front ++ bs ++ back, e.WF := hsd ▸ h.entry
  obtain ⟨bs', hst, hswept⟩ := sweepBlocks_spec lo hi highest front bs back
    (fun e he => hentry e (by simp [he])) (fun e he => by
      have := hbhi e he
      simp only [arSuperBlockSlots] at this ⊢
      omega) ⟨sd, 0, 0, touched⟩ hsd
  rw [hfront, hbs] at hst hswept
  refine ⟨⟨?_, ?_⟩, ?_, hswept.touched, ?_⟩
  · rw [hst, keySorted_blocksOf]
    refine (keySorted_blocksOf.mp h.sorted).sublist ?_
    rw [hsd, List.map_append, List.map_append, List.map_append, List.map_append]
    exact ((List.Sublist.refl _).append hswept.ids).append (List.Sublist.refl _)
  · rw [hst]
    intro e he
    simp only [List.mem_append] at he
    rcases he with (he | he) | he
    · exact hentry e (by simp [he])
    · exact hswept.entry e he
    · exact hentry e (by simp [he])
  · -- the slices of the other blocks are outside of the range
    have hkeep : ∀ {l} {f c : ℕ}, (∀ e ∈ l, e ∈ front ++ bs ++ back ∧
        (e.blockId < lo / arSuperBlockSlots ∨ hi / arSuperBlockSlots < e.blockId)) →
        Swept lo hi (super l).slices (super l).slices f f c c := by
      intro l f c hl
      refine ⟨(List.filter_eq_self.mpr fun p hp => ?_).symm, rfl, rfl⟩
      obtain ⟨e, he, hid⟩ := mem_slices_super (fun e he => hentry e (hl e he).1) hp
      have := (hl e he).2
      simp only [hid, arSuperBlockSlots, decide_eq_true_eq] at this ⊢
      omega
    rw [hst, slices_super_append, slices_super_append, hsd, slices_super_append,
      slices_super_append]
    exact (hkeep fun e he => ⟨by simp [he], .inr (hback e he)⟩).append
      (hswept.swept.append (hkeep fun e he => ⟨by simp [he], .inl (hfrontlt e he)⟩))
  · intro e he hzero
    rw [hst] at he
    simp only [List.mem_append] at he
    rcases he with (he | he) | he
    · exact List.mem_of_mem_take he
    · exact absurd hzero (hswept.ne e he)
    · exact List.mem_of_mem_drop he

/-- The middle part of `arDeleteRange` frees the slices with ids from `lo` to `hi`. -/
lemma arDeleteMiddle_spec {ar : RedisArray V} (h : ar.DirWF)
    (hcount : ar.count = weight ArSlice.count ar.dir.slices) (lo hi : ℕ) (touched : Bool) :
    ∃ dir n c t, arDeleteMiddle ar lo hi touched =
        ({ ar with dir := dir, numSlices := n, count := c }, ar.count - c, t) ∧
      dir.WF ∧ n = dir.slices.length ∧ c = weight ArSlice.count dir.slices ∧ c ≤ ar.count ∧
      dir.slices = ar.dir.slices.filter (fun p => ¬ (lo ≤ p.1 ∧ p.1 ≤ hi)) ∧
      (touched = true → t = true) ∧ ∀ e, dir.EmptyBlock e → ar.dir.EmptyBlock e := by
  obtain ⟨hdir, hnum⟩ := h
  obtain ⟨count, insertIdx, highest, numSlices, ss, dir⟩ := ar
  simp only at hdir hnum hcount
  -- the counters follow from the lists of slices
  have hcounters : ∀ {l' : List (ℕ × ArSlice V)} {freed deleted : ℕ},
      Swept lo hi dir.slices l' 0 freed 0 deleted → numSlices - freed = l'.length ∧
        count - deleted = weight ArSlice.count l' ∧ count - (count - deleted) = deleted := by
    intro l' freed deleted hswept
    have h1 := hswept.freed
    have h2 := hswept.deleted
    omega
  cases dir with
  | flat d =>
    obtain ⟨hlen, hswept, htouched⟩ := sweepFlat_spec d highest lo hi touched
    obtain ⟨hn, hc, hd⟩ := hcounters hswept
    refine ⟨.flat _, _, _, _, ?_, ?_, hn, hc, Nat.sub_le _ _, hswept.slices, htouched,
      fun e he => he⟩
    · simp only [arDeleteMiddle, hd]
    · rw [ArDir.WF, hlen]
      exact hdir
  | super sd =>
    obtain ⟨hwf, hswept, htouched, hempty⟩ := sweepSuper_spec hdir highest lo hi touched
    obtain ⟨hn, hc, hd⟩ := hcounters hswept
    refine ⟨.super _, _, _, _, ?_, hwf, hn, hc, Nat.sub_le _ _, hswept.slices, htouched,
      fun e he => ⟨hempty e he.1 he.2, he.2⟩⟩
    simp only [arDeleteMiddle, hd]

end RainCall
