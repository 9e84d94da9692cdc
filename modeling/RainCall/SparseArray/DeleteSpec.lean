import RainCall.SparseArray.SetSpec

/-!
# Deleting elements of an array

`arDel`, `arDeleteRange` and `arTruncate` keep the invariant of an array and clear the elements they
should. A deletion that empties a slice frees it; `dir_highest_used` is found again when the highest
slice may be gone.
-/

namespace RainCall

open Function Option

variable {V : Type*} {ar : RedisArray V}

/-! ### Deleting in one slice -/

/-- What becomes of a slice that stands for `f` after a deletion: it is freed if it has no elements
left. -/
inductive SliceLeft (ss : ℕ) (f : ℕ → Option V) (n : ℕ) : Option (ArSlice V) → Prop
  | freed (hnone : ∀ k, f k = none) (hn : n = 0) : SliceLeft ss f n none
  | kept (s : ArSlice V) (hwf : s.WF ss) (hget : s.get = f) (hne : s.count ≠ 0) (hn : n = s.count) :
      SliceLeft ss f n (some s)

variable {f : ℕ → Option V} {s : ArSlice V} {id n lo hi : ℕ} {o : Option (ArSlice V)}
  {ar' : RedisArray V}

/-- Freeing, re-encoding or keeping a slice. -/
lemma SliceCleared.left {ss : ℕ} {t : ArSlice V} (h : SliceCleared ss f s)
    (ht : s.count ≠ 0 → t.WF ss ∧ t.elements = s.elements) :
    SliceLeft ss f s.count (if s.count = 0 then none else some t) := by
  split_ifs with hzero
  · refine .freed (h.represents.eq_nil_iff.mp ?_) hzero
    exact List.length_eq_zero_iff.mp (h.count.symm.trans hzero)
  · obtain ⟨hwf, helem⟩ := ht hzero
    have hcount : s.count = t.count := by rw [h.count, hwf.count_eq, helem]
    refine .kept t hwf ?_ (hcount ▸ hzero) hcount
    have := hwf.represents
    rw [helem] at this
    exact this.fun_eq h.represents

/-- The outcome of a deletion in one slice, before `dir_highest_used` is updated. -/
structure SliceDeleted (ar : RedisArray V) (id : ℕ) (f : ℕ → Option V) (o : Option (ArSlice V))
    (ar' : RedisArray V) : Prop where
  core : ar'.Core
  positive : ar'.Positive
  frame : SameFrame ar ar'
  highest : ar'.dirHighestUsed = ar.dirHighestUsed
  get : ∀ idx, arGet ar' idx = if idx / ar.sliceSize = id then f (idx % ar.sliceSize)
    else arGet ar idx
  dir : arGetSlice ar'.dir = Function.update (arGetSlice ar.dir) id o
  sub : ∀ k, arGetSlice ar'.dir k ≠ none → arGetSlice ar.dir k ≠ none
  empty : ∀ e, ar'.dir.EmptyBlock e → ar.dir.EmptyBlock e

/-- Deleting elements of a slice. -/
lemma RedisArray.Core.delete (h : ar.Core) (hpos : ar.Positive) (hs : arGetSlice ar.dir id = some s)
    {c : ℕ} (hleft : SliceLeft ar.sliceSize f n o) (hn : n + c = s.count)
    (hsub : ∀ k v, f k = some v → s.get k = some v) :
    SliceDeleted ar id f o (arSetSlice { ar with count := ar.count - c } id o) ∧
      (arSetSlice { ar with count := ar.count - c } id o).count + c = ar.count := by
  have hle : s.count ≤ ar.count := by
    rw [h.count]
    exact h.dir.represents.le_weight hs ArSlice.count
  have hlt : ∀ k v, s.get k = some v → k < ar.sliceSize := fun k v hk =>
    (h.slices id s hs).elements_lt _ (((h.slices id s hs).represents.mem_iff k v).mpr hk)
  have hcount : n = o.elim 0 ArSlice.count := by
    cases hleft with
    | freed _ hn | kept t _ _ _ hn => exact hn
  have hf : ∀ k, (o.bind fun t => t.get k) = f k := by
    intro k
    cases hleft with
    | freed hnone _ => exact (hnone k).symm
    | kept t _ hget _ _ => rw [← hget]; rfl
  obtain ⟨dir, m, hcode, hcore, hdir, hempty⟩ := h.setSlice id o (ar.count - c)
    (ArDir.room_of_get hs) (fun t ht => by
      cases hleft with
      | freed _ _ => simp at ht
      | kept t' hwf _ _ _ => exact some.inj ht ▸ hwf)
    (by
      rw [hs, elim_some]
      omega)
    (fun off v hv => by
      rw [hf] at hv
      have hget := hsub off v hv
      refine h.bound _ v ?_
      rw [h.get_at id (hlt off v hget), hs]
      exact hget)
  rw [hcode]
  refine ⟨⟨hcore, ?_, ⟨rfl, rfl⟩, rfl, fun idx => ?_, hdir, fun k hk => ?_, hempty⟩, ?_⟩
  · intro k t ht
    rw [hdir, update_apply] at ht
    split_ifs at ht with hk
    · cases hleft with
      | freed _ _ => simp at ht
      | kept t' _ _ hne _ => exact some.inj ht ▸ hne
    · exact hpos k t ht
  · rw [arGet_of_update h.size id o, hf]
    · rfl
    · exact hdir
  · rw [hdir, update_apply] at hk
    split_ifs at hk with heq
    · rw [heq, hs]
      simp
    · exact hk
  · simp only
    omega

/-- Deleting one element of a slice. -/
lemma SliceDeleted.get_update {idx : ℕ} (h : ar.Core)
    (hs : arGetSlice ar.dir (idx / ar.sliceSize) = some s)
    (hdel : SliceDeleted ar (idx / ar.sliceSize) (update s.get (idx % ar.sliceSize) none)
      o ar') :
    arGet ar' = update (arGet ar) idx none := by
  funext k
  rw [hdel.get, update_apply, update_apply]
  by_cases hdiv : k / ar.sliceSize = idx / ar.sliceSize
  · rw [if_pos hdiv]
    by_cases hmod : k % ar.sliceSize = idx % ar.sliceSize
    · rw [if_pos hmod, if_pos (Nat.ext_div_mod hdiv hmod)]
    · rw [if_neg hmod, if_neg fun heq => hmod (congrArg (· % ar.sliceSize) heq),
        RedisArray.arGet_eq_nested h.size, nested, hdiv, hs, bind_some]
  · rw [if_neg hdiv, if_neg fun heq => hdiv (congrArg (· / ar.sliceSize) heq)]

/-! ### `dir_highest_used` after a deletion -/

lemma RedisArray.Core.shrink (h : ar.Core) (hpos : ar.Positive)
    (htop : ar.count ≠ 0 → IsTop ar.dir.slices ar.dirHighestUsed) :
    (arDirMaybeShrink ar).WF ∧ arGet (arDirMaybeShrink ar) = arGet ar ∧
      SameFrame ar (arDirMaybeShrink ar) ∧ (arDirMaybeShrink ar).count = ar.count ∧
      ∀ e, (arDirMaybeShrink ar).dir.EmptyBlock e → ar.dir.EmptyBlock e := by
  have hle : ∀ p ∈ ar.dir.slices, p.1 ≤ ar.dirHighestUsed := by
    intro p hp
    refine (htop ?_).le p hp
    have hs := (h.dir.represents.mem_iff p.1 p.2).mp hp
    have := h.dir.represents.le_weight hs ArSlice.count
    have := hpos _ _ hs
    have := h.count
    omega
  obtain ⟨dir, hcode, hdir, hslices, hempty⟩ := arDirMaybeShrink_spec h.toDirWF hle
  obtain ⟨hget, harGet, hcore⟩ := h.withDir hdir hslices
  rw [hcode]
  refine ⟨hcore.wf_of_isTop ?_ ?_, harGet, ⟨rfl, rfl⟩, rfl, hempty⟩
  · intro id s hs
    exact hpos id s (hget ▸ hs)
  · intro hne
    rw [show ({ ar with dir := dir } : RedisArray V).dir.slices = ar.dir.slices from hslices]
    exact htop hne

/-- The outcome of a deletion. -/
structure ArrayDeleted (ar : RedisArray V) (f : ℕ → Option V) (ar' : RedisArray V) : Prop where
  wf : ar'.WF
  get : arGet ar' = f
  frame : SameFrame ar ar'
  empty : ∀ e, ar'.dir.EmptyBlock e → ar.dir.EmptyBlock e

/-- The highest slice stays the same if it is still there. -/
lemma IsTop.of_sub {dir dir' : ArDir V} (hdir : dir.WF) (hdir' : dir'.WF) {top : ℕ}
    (h : IsTop dir.slices top) (hsub : ∀ k, arGetSlice dir' k ≠ none → arGetSlice dir k ≠ none)
    (htop : arGetSlice dir' top ≠ none) : IsTop dir'.slices top := by
  refine ⟨?_, ?_⟩
  · obtain ⟨s, hs⟩ := ne_none_iff_exists'.mp htop
    exact ⟨s, (hdir'.represents.mem_iff top s).mpr hs⟩
  · rintro ⟨k, s⟩ hp
    have hk := (hdir'.represents.mem_iff k s).mp hp
    obtain ⟨t, ht⟩ := ne_none_iff_exists'.mp (hsub k (by simp [hk]))
    exact h.le (k, t) ((hdir.represents.mem_iff k t).mpr ht)

lemma RedisArray.Core.slices_ne_nil (h : ar.Core) (hne : ar.count ≠ 0) : ar.dir.slices ≠ [] := by
  intro hnil
  rw [h.count, hnil] at hne
  exact hne rfl

/-- A deletion that frees a slice. -/
lemma SliceDeleted.freed (h : ar.WF) (hne : ar.count ≠ 0) (hdel : SliceDeleted ar id f none ar') :
    ArrayDeleted ar (arGet ar') (arDirMaybeShrink (arDirUpdateHighest ar' id)) := by
  have hcore := hdel.core
  by_cases hzero : ar'.count = 0
  · rw [show arDirUpdateHighest ar' id = ar' from if_pos (.inl hzero)]
    obtain ⟨hwf, hget, hframe, -, hempty⟩ := hcore.shrink hdel.positive (fun hz => absurd hzero hz)
    exact ⟨hwf, hget, hdel.frame.trans hframe, fun e he => hdel.empty e (hempty e he)⟩
  have htop := h.isTop hne
  have hfreed : arGetSlice ar'.dir id = none := by rw [hdel.dir, update_self]
  have hle : ∀ p ∈ ar'.dir.slices, p.1 ≤ ar'.dirHighestUsed := by
    rintro ⟨k, s⟩ hp
    have hk := (hcore.dir.represents.mem_iff k s).mp hp
    obtain ⟨t, ht⟩ := ne_none_iff_exists'.mp (hdel.sub k (by simp [hk]))
    rw [hdel.highest]
    exact htop.le (k, t) ((h.dir.represents.mem_iff k t).mpr ht)
  have hmem : id ≠ ar'.dirHighestUsed → ∃ s, (ar'.dirHighestUsed, s) ∈ ar'.dir.slices := by
    intro hid
    obtain ⟨s, hs⟩ := htop.mem
    refine ⟨s, (hcore.dir.represents.mem_iff _ s).mpr ?_⟩
    rw [hdel.dir, update_of_ne hid.symm, hdel.highest]
    exact (h.dir.represents.mem_iff _ s).mp hs
  obtain ⟨top, hcode, htop'⟩ := arDirUpdateHighest_spec hcore.dir hfreed hle hmem hzero
    (hcore.slices_ne_nil hzero)
  rw [hcode]
  obtain ⟨hwf, hget, hframe, -, hempty⟩ :=
    (hcore.withHighest top).shrink hdel.positive (fun _ => htop')
  exact ⟨hwf, hget, hdel.frame.trans ⟨hframe.sliceSize, hframe.insertIdx⟩,
    fun e he => hdel.empty e (hempty e he)⟩

lemma SliceDeleted.kept {t : ArSlice V} (h : ar.WF) (hne : ar.count ≠ 0)
    (hdel : SliceDeleted ar id f (some t) ar') :
    ArrayDeleted ar (arGet ar') ar' := by
  refine ⟨hdel.core.wf_of_isTop hdel.positive fun _ => ?_, rfl, hdel.frame, hdel.empty⟩
  have htop := h.isTop hne
  rw [hdel.highest]
  refine htop.of_sub h.dir hdel.core.dir hdel.sub ?_
  rw [hdel.dir, update_apply]
  split_ifs with hid
  · simp
  · obtain ⟨s, hs⟩ := htop.mem
    rw [(h.dir.represents.mem_iff _ s).mp hs]
    simp

lemma arDel_spec (cfg : ArConfig) (h : ar.WF) (idx : ℕ) :
    ArrayDeleted ar (update (arGet ar) idx none) (arDel cfg ar idx).1 ∧
      (arDel cfg ar idx).2 = (arGet ar idx).isSome := by
  have hss := h.size
  have hget : arGet ar idx = (arGetSlice ar.dir (idx / ar.sliceSize)).bind fun s =>
      s.get (idx % ar.sliceSize) := by
    rw [RedisArray.arGet_eq_nested hss, nested]
  simp only [arDel, arSliceId_eq hss, arSliceOff_eq hss]
  cases hval : arGet ar idx with
  | none =>
    have hnone : ((arGetSlice ar.dir (idx / ar.sliceSize)).bind fun s =>
        arSliceDel s (idx % ar.sliceSize)) = none := by
      rw [hget] at hval
      cases hs : arGetSlice ar.dir (idx / ar.sliceSize) with
      | none => rfl
      | some s =>
        rw [hs] at hval
        exact arSliceDel_eq_none (h.slices _ s hs) hval
    rw [hnone]
    refine ⟨⟨h, ?_, ⟨rfl, rfl⟩, fun e he => he⟩, rfl⟩
    rw [← hval, update_eq_self]
  | some v =>
    obtain ⟨s, hs, hsv⟩ := h.get_eq_some.mp hval
    obtain ⟨s', hdel, hcleared⟩ := arSliceDel_spec (h.slices _ s hs) hsv
    have hcount : s'.count + 1 = s.count := by
      have hwf := h.slices _ s hs
      rw [hcleared.count, hwf.count_eq]
      exact hwf.represents.length_of_erase hcleared.represents (by simp [hsv])
    have hsub : ∀ k w, update s.get (idx % ar.sliceSize) none k = some w →
        s.get k = some w := by
      intro k w hk
      rw [update_apply] at hk
      split_ifs at hk
      exact hk
    have hne : ar.count ≠ 0 := h.count_ne_zero hval
    rw [hs, bind_some, hdel]
    by_cases hzero : s'.count = 0
    · -- the slice is freed
      have hleft := hcleared.left (t := s') (fun hz => absurd hzero hz)
      rw [if_pos hzero] at hleft
      obtain ⟨hdeleted, -⟩ := h.toCore.delete h.positive hs hleft hcount hsub
      have hfinal := hdeleted.freed h hne
      rw [hdeleted.get_update h.toCore hs] at hfinal
      simp only [if_pos hzero]
      exact ⟨hfinal, rfl⟩
    · have hkept : ∀ t : ArSlice V, (s'.count ≠ 0 → t.WF ar.sliceSize ∧ t.elements = s'.elements) →
          ArrayDeleted ar (update (arGet ar) idx none)
            (arSetSlice { ar with count := ar.count - 1 } (idx / ar.sliceSize) (some t)) := by
        intro t ht
        have hleft := hcleared.left ht
        rw [if_neg hzero] at hleft
        obtain ⟨hdeleted, -⟩ := h.toCore.delete h.positive hs hleft hcount hsub
        have hfinal := hdeleted.kept h hne
        rwa [hdeleted.get_update h.toCore hs] at hfinal
      simp only [if_neg hzero]
      cases s' with
      | dense d =>
        exact ⟨hkept _ fun hz => arDenseMaybeDemote_spec cfg (hcleared.wf hz) hz, rfl⟩
      | sparse s => exact ⟨hkept _ fun hz => ⟨hcleared.wf hz, rfl⟩, rfl⟩

/-! ### Deleting a range -/

/-- The outcome of one part of `arDeleteRange`: the elements with `P` are gone, `n` of them, and the
slices above `m` are untouched. -/
structure PartDeleted (ar : RedisArray V) (P : ℕ → Prop) [DecidablePred P] (m n : ℕ)
    (ar' : RedisArray V) : Prop where
  core : ar'.Core
  positive : ar'.Positive
  frame : SameFrame ar ar'
  highest : ar'.dirHighestUsed = ar.dirHighestUsed
  get : ∀ idx, arGet ar' idx = if P idx then none else arGet ar idx
  above : ∀ k, m < k → arGetSlice ar'.dir k = arGetSlice ar.dir k
  sub : ∀ k, arGetSlice ar'.dir k ≠ none → arGetSlice ar.dir k ≠ none
  count : ar'.count + n = ar.count
  empty : ∀ e, ar'.dir.EmptyBlock e → ar.dir.EmptyBlock e

lemma PartDeleted.trans {ar1 ar2 ar3 : RedisArray V} {P Q : ℕ → Prop} [DecidablePred P]
    [DecidablePred Q] {m m' n' : ℕ} (h : PartDeleted ar1 P m n ar2)
    (h' : PartDeleted ar2 Q m' n' ar3) :
    PartDeleted ar1 (fun k => P k ∨ Q k) (max m m') (n + n') ar3 where
  core := h'.core
  positive := h'.positive
  frame := h.frame.trans h'.frame
  highest := h'.highest.trans h.highest
  get idx := by
    rw [h'.get, h.get]
    by_cases hp : P idx <;> by_cases hq : Q idx <;> simp [hp]
  above k hk := (h'.above k (by omega)).trans (h.above k (by omega))
  sub k hk := h.sub k (h'.sub k hk)
  count := by
    have h1 := h.count
    have h2 := h'.count
    omega
  empty e he := h.empty e (h'.empty e he)

lemma PartDeleted.congr {P Q : ℕ → Prop} [DecidablePred P] [DecidablePred Q] {m m' : ℕ}
    (h : PartDeleted ar P m n ar') (hPQ : ∀ idx, P idx ↔ Q idx) (hm : m ≤ m') :
    PartDeleted ar Q m' n ar' :=
  { h with
    get := fun idx => (h.get idx).trans (if_congr (hPQ idx) rfl rfl)
    above := fun k hk => h.above k (hm.trans_lt hk) }

lemma SliceDeleted.part (h : ar.Core) (hs : arGetSlice ar.dir id = some s)
    (hdel : SliceDeleted ar id (clearRange lo hi s.get) o ar') (hcount : ar'.count + n = ar.count) :
    PartDeleted ar (fun idx => idx / ar.sliceSize = id ∧ lo ≤ idx % ar.sliceSize ∧
      idx % ar.sliceSize ≤ hi) id n ar' where
  core := hdel.core
  positive := hdel.positive
  frame := hdel.frame
  highest := hdel.highest
  get idx := by
    rw [hdel.get, clearRange]
    by_cases hid : idx / ar.sliceSize = id
    · rw [if_pos hid, RedisArray.arGet_eq_nested h.size, nested, hid, hs]
      simp
    · simp [hid]
  above k hk := by rw [hdel.dir, update_of_ne hk.ne']
  sub := hdel.sub
  count := hcount
  empty := hdel.empty

lemma arDeleteSliceRange_spec (cfg : ArConfig) (h : ar.Core) (hpos : ar.Positive) (id lo hi : ℕ) :
    PartDeleted ar (fun idx => idx / ar.sliceSize = id ∧ lo ≤ idx % ar.sliceSize ∧
        idx % ar.sliceSize ≤ hi) id (arDeleteSliceRange cfg ar id lo hi).2
      (arDeleteSliceRange cfg ar id lo hi).1 := by
  have hsub : ∀ (s : ArSlice V) k v, clearRange lo hi s.get k = some v → s.get k = some v := by
    intro s k v hk
    unfold clearRange at hk
    split_ifs at hk
    exact hk
  unfold arDeleteSliceRange
  cases hs : arGetSlice ar.dir id with
  | none =>
    refine ⟨h, hpos, ⟨rfl, rfl⟩, rfl, fun idx => ?_, fun k _ => rfl, fun k hk => hk, rfl,
      fun e he => he⟩
    split_ifs with hp
    · rw [RedisArray.arGet_eq_nested h.size, nested, hp.1, hs]
      rfl
    · rfl
  | some s =>
    cases s with
    | dense d =>
      obtain ⟨hcleared, hcount⟩ := arDenseDeleteRange_spec (h.slices id _ hs) lo hi
      have hleft := hcleared.left
        fun hz => arDenseMaybeDemote_spec cfg (hcleared.wf hz) hz
      obtain ⟨hdel, hc⟩ := h.delete hpos hs hleft hcount (hsub _)
      exact hdel.part h hs hc
    | sparse s =>
      obtain ⟨hcleared, hcount⟩ := arSparseDeleteRange_spec (h.slices id _ hs) lo hi
      have hleft := hcleared.left
        fun hz => ⟨hcleared.wf hz, rfl⟩
      obtain ⟨hdel, hc⟩ := h.delete hpos hs hleft hcount (hsub _)
      exact hdel.part h hs hc

lemma arDeleteMiddle_part (h : ar.Core) (hpos : ar.Positive) (lo hi : ℕ) (touched : Bool) :
    ∃ ar' n t, arDeleteMiddle ar lo hi touched = (ar', n, t) ∧ (touched = true → t = true) ∧
      PartDeleted ar (fun idx => lo ≤ idx / ar.sliceSize ∧ idx / ar.sliceSize ≤ hi) hi n ar' := by
  obtain ⟨dir, m, c, t, hcode, hdir, hm, hc, hle, hslices, ht, hempty⟩ :=
    arDeleteMiddle_spec h.toDirWF h.count lo hi touched
  have hget : arGetSlice dir = fun k => if lo ≤ k ∧ k ≤ hi then none else arGetSlice ar.dir k := by
    have hrep := hdir.represents
    rw [hslices] at hrep
    refine hrep.fun_eq ⟨h.dir.represents.sorted.filter _, fun k s => ?_⟩
    rw [List.mem_filter, h.dir.represents.mem_iff]
    by_cases hk : lo ≤ k ∧ k ≤ hi <;> simp [hk]
  have hsub : ∀ k s, arGetSlice dir k = some s → arGetSlice ar.dir k = some s := by
    intro k s hk
    rw [hget] at hk
    simp only at hk
    split_ifs at hk
    exact hk
  have harGet : ∀ idx, arGet { ar with dir := dir, numSlices := m, count := c } idx =
      if lo ≤ idx / ar.sliceSize ∧ idx / ar.sliceSize ≤ hi then none else arGet ar idx := by
    intro idx
    simp only [arGet, arSliceId_eq h.size, hget]
    split_ifs <;> rfl
  refine ⟨_, _, _, hcode, ht, ⟨⟨hdir, hm⟩, h.size, ?_, hc, ?_⟩, ?_, ⟨rfl, rfl⟩, rfl,
    harGet, ?_, ?_, ?_,
    hempty⟩
  · exact fun k s hk => h.slices k s (hsub k s hk)
  · intro idx v hv
    rw [harGet] at hv
    split_ifs at hv
    exact h.bound idx v hv
  · exact fun k s hk => hpos k s (hsub k s hk)
  · intro k hk
    simp only [hget]
    rw [if_neg (by omega)]
  · intro k hk
    obtain ⟨s, hs⟩ := ne_none_iff_exists'.mp hk
    rw [hsub k s hs]
    simp
  · simp only
    omega

/-- A range of indices is cut into the parts of the two slices at its ends and the slices between
them. -/
lemma range_cut (hn : 0 < n) (hlt : lo / n < hi / n) (idx : ℕ) :
    lo ≤ idx ∧ idx ≤ hi ↔
      ((idx / n = lo / n ∧ lo % n ≤ idx % n ∧ idx % n ≤ n - 1) ∨
        (idx / n = hi / n ∧ 0 ≤ idx % n ∧ idx % n ≤ hi % n)) ∨
      (lo / n + 1 ≤ idx / n ∧ idx / n ≤ hi / n - 1) := by
  have hmod := Nat.mod_lt idx hn
  rw [le_iff_div_mod n lo idx, le_iff_div_mod n idx hi]
  generalize lo / n = a at *
  generalize hi / n = b at *
  generalize idx / n = q at *
  omega

/-- The parts of `arDeleteRange`. The highest slice is looked for unless it lies above the range. -/
lemma arDeleteRange_parts (cfg : ArConfig) (h : ar.WF) (hne : ar.count ≠ 0) (hle : lo ≤ hi) :
    ∃ ar3 n t, arDeleteRange cfg ar lo hi =
        (arDirMaybeShrink { ar3 with
          dirHighestUsed := (if ar3.count = 0 then 0
            else if t then arHighestSlice ar3.dir else ar3.dirHighestUsed) }, n) ∧
      PartDeleted ar (fun idx => lo ≤ idx ∧ idx ≤ hi) (hi / ar.sliceSize) n ar3 ∧
      (t = false → hi / ar.sliceSize < ar.dirHighestUsed) := by
  have hss := h.size
  have hcond : ¬ (ar.count = 0 ∨ hi < lo) := by omega
  have hdiv := Nat.div_le_div_right (c := ar.sliceSize) hle
  simp only [arDeleteRange, if_neg hcond, arSliceId_eq hss, arSliceOff_eq hss]
  by_cases hsame : lo / ar.sliceSize = hi / ar.sliceSize
  · have hpart := (arDeleteSliceRange_spec cfg h.toCore h.positive (lo / ar.sliceSize)
      (lo % ar.sliceSize) (hi % ar.sliceSize)).congr (Q := fun idx => lo ≤ idx ∧ idx ≤ hi)
      (fun idx => by
        rw [le_iff_div_mod ar.sliceSize lo idx, le_iff_div_mod ar.sliceSize idx hi]
        omega) hsame.le
    simp only [if_pos hsame]
    refine ⟨_, _, _, rfl, hpart, fun ht => ?_⟩
    rw [hpart.highest, decide_eq_false_iff_not] at ht
    omega
  · have hlt := lt_of_le_of_ne hdiv hsame
    simp only [if_neg hsame]
    -- the slices at the two ends
    have hpart1 := arDeleteSliceRange_spec cfg h.toCore h.positive (lo / ar.sliceSize)
      (lo % ar.sliceSize) (ar.sliceSize - 1)
    generalize arDeleteSliceRange cfg ar (lo / ar.sliceSize) (lo % ar.sliceSize)
      (ar.sliceSize - 1) = r1 at *
    have hpart2 := arDeleteSliceRange_spec cfg hpart1.core hpart1.positive (hi / ar.sliceSize)
      0 (hi % ar.sliceSize)
    generalize arDeleteSliceRange cfg r1.1 (hi / ar.sliceSize) 0 (hi % ar.sliceSize) = r2 at *
    rw [hpart1.frame.sliceSize] at hpart2
    have hends := hpart1.trans hpart2
    by_cases hmid : lo / ar.sliceSize + 1 ≤ hi / ar.sliceSize - 1
    · obtain ⟨ar3, n3, t, hcode, ht, hpart3⟩ := arDeleteMiddle_part hpart2.core hpart2.positive
        (lo / ar.sliceSize + 1) (hi / ar.sliceSize - 1)
        (decide (r2.1.dirHighestUsed ≤ hi / ar.sliceSize))
      rw [hends.frame.sliceSize] at hpart3
      simp only [if_pos hmid, hcode]
      refine ⟨_, _, _, rfl, (hends.trans hpart3).congr (fun idx => (range_cut hss.pos hlt idx).symm)
        (max_le (max_le hdiv le_rfl) (Nat.sub_le _ _)), fun hf => ?_⟩
      have hn : ¬ decide (r2.1.dirHighestUsed ≤ hi / ar.sliceSize) = true := fun hd => by
        rw [ht hd] at hf
        simp at hf
      rw [decide_eq_true_eq, hends.highest] at hn
      exact Nat.lt_of_not_le hn
    · simp only [if_neg hmid]
      refine ⟨_, _, _, rfl, hends.congr (fun idx => ?_) (max_le hdiv le_rfl), fun hf => ?_⟩
      · refine ((range_cut hss.pos hlt idx).trans (or_iff_left ?_)).symm
        exact fun hin => hmid (hin.1.trans hin.2)
      · rw [decide_eq_false_iff_not, hends.highest] at hf
        exact Nat.lt_of_not_le hf

lemma arDeleteRange_spec (cfg : ArConfig) (h : ar.WF) (lo hi : ℕ) :
    ArrayDeleted ar (clearRange lo hi (arGet ar)) (arDeleteRange cfg ar lo hi).1 ∧
      (arDeleteRange cfg ar lo hi).1.count + (arDeleteRange cfg ar lo hi).2 = ar.count := by
  by_cases hnothing : ar.count = 0 ∨ hi < lo
  · simp only [arDeleteRange, if_pos hnothing]
    refine ⟨⟨h, (clearRange_eq_self fun k h1 h2 => ?_).symm, ⟨rfl, rfl⟩, fun e he => he⟩, rfl⟩
    have hzero : ar.count = 0 := hnothing.resolve_right (by omega)
    refine eq_none_iff_forall_not_mem.mpr fun v hv => ?_
    exact h.count_ne_zero hv hzero
  push Not at hnothing
  obtain ⟨ar3, n, t, hcode, hpart, ht⟩ := arDeleteRange_parts cfg h hnothing.1 hnothing.2
  have hget : arGet ar3 = clearRange lo hi (arGet ar) := funext hpart.get
  have htop : ar3.count ≠ 0 → IsTop ar3.dir.slices
      (if ar3.count = 0 then 0 else if t then arHighestSlice ar3.dir else ar3.dirHighestUsed) := by
    intro hne
    rw [if_neg hne]
    cases t with
    | true => exact arHighestSlice_spec hpart.core.dir (hpart.core.slices_ne_nil hne)
    | false =>
      -- the highest slice lies above the range
      have htop := h.isTop hnothing.1
      rw [if_neg (by simp), hpart.highest]
      refine htop.of_sub h.dir hpart.core.dir hpart.sub ?_
      obtain ⟨s, hs⟩ := htop.mem
      rw [hpart.above _ (ht rfl), (h.dir.represents.mem_iff _ s).mp hs]
      simp
  generalize (if ar3.count = 0 then 0
    else if t then arHighestSlice ar3.dir else ar3.dirHighestUsed) = top at hcode htop
  obtain ⟨hwf, hmap, hframe, hcount, hempty⟩ :=
    (hpart.core.withHighest top).shrink hpart.positive htop
  rw [hcode]
  refine ⟨⟨hwf, hmap.trans hget, hpart.frame.trans ⟨hframe.sliceSize, hframe.insertIdx⟩,
    fun e he => hpart.empty e (hempty e he)⟩, ?_⟩
  simp only [hcount]
  exact hpart.count

/-! ### The length -/

lemma arSliceMaxIdx_spec {ss : ℕ} (h : s.WF ss) (hne : s.count ≠ 0) :
    IsTop s.elements (arSliceMaxIdx s) := by
  cases s with
  | dense d => exact ⟨ArDense.WF.maxIdx_mem h hne, ArDense.WF.le_maxIdx h⟩
  | sparse s =>
    have hcount : s.count ≠ 0 := hne
    obtain ⟨v, hv⟩ := h.offsetAt_eq (i := s.count - 1) (by omega)
    exact ⟨⟨v, List.mem_of_getElem? hv⟩, fun p hp => (h.range p hp).2⟩

lemma arLen_spec (h : ar.WF) (hne : ar.count ≠ 0) :
    0 < arLen ar ∧ IsTop (arElements ar) (arLen ar - 1) := by
  have htop := h.isTop hne
  obtain ⟨s, hs⟩ := htop.mem
  rw [h.dir.represents.mem_iff] at hs
  have hwf := h.slices _ s hs
  have hmax := arSliceMaxIdx_spec hwf (h.positive _ s hs)
  obtain ⟨v, hv⟩ := hmax.mem
  have hlt : arSliceMaxIdx s < ar.sliceSize := hwf.elements_lt _ hv
  have hlen : arLen ar = ar.dirHighestUsed * ar.sliceSize + arSliceMaxIdx s + 1 := by
    simp only [arLen, if_neg hne, hs, arMakeIdx_eq h.size _ hlt]
  rw [hlen, Nat.add_sub_cancel]
  refine ⟨Nat.succ_pos _, ⟨v, ?_⟩, ?_⟩
  · rw [h.represents.mem_iff, h.get_at _ hlt, hs]
    exact (hwf.represents.mem_iff _ v).mp hv
  · rintro ⟨idx, w⟩ hp
    have hget := (h.represents.mem_iff idx w).mp hp
    have hdiv : (ar.dirHighestUsed * ar.sliceSize + arSliceMaxIdx s) / ar.sliceSize =
        ar.dirHighestUsed := by
      rw [Nat.mul_comm, Nat.mul_add_div h.size.pos, Nat.div_eq_of_lt hlt, Nat.add_zero]
    have hmod : (ar.dirHighestUsed * ar.sliceSize + arSliceMaxIdx s) % ar.sliceSize =
        arSliceMaxIdx s := by
      rw [Nat.mul_comm, Nat.mul_add_mod, Nat.mod_eq_of_lt hlt]
    rw [le_iff_div_mod ar.sliceSize, hdiv, hmod]
    rcases (h.top_le idx w hget).lt_or_eq with hlt' | heq
    · exact .inl hlt'
    · refine .inr ⟨heq, ?_⟩
      obtain ⟨t, ht, htget⟩ := h.get_eq_some.mp hget
      rw [heq, hs] at ht
      obtain rfl := some.inj ht
      exact hmax.le _ ((hwf.represents.mem_iff _ w).mpr htget)

lemma arTruncate_spec (cfg : ArConfig) (h : ar.WF) (limit : ℕ) :
    ArrayDeleted ar (fun k => if limit ≤ k then none else arGet ar k)
      (arTruncate cfg ar limit) := by
  have hsame : (∀ k, limit ≤ k → arGet ar k = none) →
      arGet ar = fun k => if limit ≤ k then none else arGet ar k := by
    intro hnone
    funext k
    split_ifs with hk
    · exact hnone k hk
    · rfl
  unfold arTruncate
  split_ifs with hzero hlen
  · refine ⟨h, hsame fun k _ => ?_, ⟨rfl, rfl⟩, fun e he => he⟩
    refine eq_none_iff_forall_not_mem.mpr fun v hv => ?_
    exact h.count_ne_zero hv hzero
  · obtain ⟨hpos, htop⟩ := arLen_spec h hzero
    refine ⟨h, hsame fun k hk => ?_, ⟨rfl, rfl⟩, fun e he => he⟩
    refine eq_none_iff_forall_not_mem.mpr fun v hv => ?_
    have := htop.le _ ((h.represents.mem_iff k v).mpr hv)
    omega
  · obtain ⟨hpos, htop⟩ := arLen_spec h hzero
    obtain ⟨⟨hwf, hget, hframe, hempty⟩, -⟩ := arDeleteRange_spec cfg h limit (arLen ar - 1)
    refine ⟨hwf, hget.trans ?_, hframe, hempty⟩
    funext k
    unfold clearRange
    by_cases hk : k ≤ arLen ar - 1
    · exact if_congr (by omega) rfl rfl
    · have hnone : arGet ar k = none := by
        refine eq_none_iff_forall_not_mem.mpr fun v hv => ?_
        exact hk (htop.le _ ((h.represents.mem_iff k v).mpr hv))
      rw [hnone, ite_self, ite_self]

end RainCall
