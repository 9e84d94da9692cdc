import RainCall.SparseArray.Refinement

/-!
# The metadata of a sparse array

The cached numbers of an array agree with its contents in every reachable state: the counts of the
array, of its slices and of the blocks of its superdir, the highest offset of a dense slice, and the
highest slice, from which `arLen` is computed.

There is one exception. `arPromoteToSuperDir` turns a flat directory into block 0 even if all of its
slices were freed, and leaves a block with count 0 then.
-/

namespace RainCall

open List

variable {V : Type*} {ar : RedisArray V} {ss : ℕ}

structure ArrayMeta (ar : RedisArray V) : Prop where
  count : ar.count = {idx | (arGet ar idx).isSome}.ncard
  /-- `num_slices` is the number of allocated slices. -/
  numSlices : ar.numSlices = {id | (arGetSlice ar.dir id).isSome}.ncard
  /-- The count of a slice is positive and the number of its elements. -/
  slice : ∀ id s, arGetSlice ar.dir id = some s →
    0 < s.count ∧ s.count = {off | (s.get off).isSome}.ncard
  /-- The offsets of a sparse slice are strictly increasing. -/
  sparse : ∀ id s, arGetSlice ar.dir id = some (.sparse s) →
    (s.entries.map Prod.fst).Pairwise (· < ·)
  /-- `max_idx` of a dense slice is its highest offset, and its window lies in the slice. -/
  dense : ∀ id d, arGetSlice ar.dir id = some (.dense d) →
    IsGreatest {off | ((ArSlice.dense d).get off).isSome} d.maxIdx ∧
      d.offset + d.winsize ≤ ar.sliceSize
  /-- The blocks of a superdir are strictly sorted and count their slices. -/
  superdir : ∀ sd, ar.dir = .super sd → (sd.map ArSDirEntry.blockId).Pairwise (· < ·) ∧
    ∀ e ∈ sd, e.count = e.slots.countP Option.isSome
  /-- `dir_highest_used` is the highest allocated slice. -/
  highest : IsGreatest {id | (arGetSlice ar.dir id).isSome} ar.dirHighestUsed
  /-- `arLen` is one more than the highest index. -/
  len : ∃ top, IsGreatest {idx | (arGet ar idx).isSome} top ∧ arLen ar = top + 1
  arCount : RainCall.arCount ar = {idx | (arGet ar idx).isSome}.ncard

lemma RedisArray.WF.count_eq_ncard (h : ar.WF) :
    ar.count = {idx | (arGet ar idx).isSome}.ncard := by
  rw [h.count_eq, h.represents.length_eq_ncard]

/-- The metadata follow from the invariant. -/
lemma RedisArray.WF.arrayMeta (h : ar.WF) (hne : ar.count ≠ 0) : ArrayMeta ar := by
  refine ⟨h.count_eq_ncard, ?_, ?_, ?_, ?_, ?_, ?_, ?_, h.count_eq_ncard⟩
  · rw [h.numSlices, h.dir.represents.length_eq_ncard]
  · intro id s hs
    refine ⟨Nat.pos_of_ne_zero (h.positive id s hs), ?_⟩
    rw [(h.slices id s hs).count_eq, (h.slices id s hs).represents.length_eq_ncard]
  · intro id s hs
    have hwf : s.WF ar.sliceSize := h.slices id _ hs
    exact pairwise_map.mpr hwf.sorted
  · intro id d hd
    have hwf : d.WF ar.sliceSize := h.slices id _ hd
    refine ⟨?_, hwf.window⟩
    exact (ArDense.represents hwf.length).isGreatest
      (arSliceMaxIdx_spec (s := .dense d) hwf (h.positive id _ hd))
  · intro sd hsd
    have hwf : SuperDirWF sd := by
      have := h.dir
      rwa [hsd] at this
    refine ⟨keySorted_blocksOf.mp hwf.sorted, fun e he => ?_⟩
    exact (hwf.entry e he).count.trans (length_filledFrom 0 e.slots)
  · exact h.dir.represents.isGreatest (h.isTop hne)
  · obtain ⟨hpos, htop⟩ := arLen_spec h hne
    exact ⟨_, h.represents.isGreatest htop, (Nat.sub_add_cancel hpos).symm⟩

/-- The array had elements after some of the operations, and none after some more of them. -/
def WasEmptied (ss : ℕ) (ops : List (ArConfig × ArOp V)) : Prop :=
  ∃ ops₁ ops₂ ops₃ ar₁ ar₂, ops = ops₁ ++ ops₂ ++ ops₃ ∧
    runSteps arStep (arNew ss) ops₁ = some ar₁ ∧ ar₁.count ≠ 0 ∧
    runSteps arStep ar₁ ops₂ = some ar₂ ∧ ar₂.count = 0

/-- An array that was emptied stays one that was. -/
lemma WasEmptied.append {ops : List (ArConfig × ArOp V)} (h : WasEmptied ss ops)
    (ops' : List (ArConfig × ArOp V)) : WasEmptied ss (ops ++ ops') := by
  obtain ⟨ops1, ops2, ops3, ar1, ar2, rfl, hrest⟩ := h
  exact ⟨ops1, ops2, ops3 ++ ops', ar1, ar2, by rw [append_assoc _ _ ops'], hrest⟩

/-- An array that was never written has the directory of a new one. -/
lemma arStep_never_written (h : ar.WF) (hdir : ar.dir = .flat []) {op : ArConfig × ArOp V}
    (hop : op.2.Valid) {ar' : RedisArray V} (hstep : arStep ar op = some ar') :
    ar'.dir = .flat [] ∨ ar'.count ≠ 0 := by
  obtain ⟨ar1, hstep1, hwf, hget, -⟩ := arStep_spec h hop
  obtain rfl := Option.some.inj (hstep1.symm.trans hstep)
  have hzero : ar.count = 0 := by rw [h.count, hdir]; rfl
  have hslice (id : ℕ) : arGetSlice ar.dir id = none := by rw [hdir]; rfl
  obtain ⟨cfg, op⟩ := op
  cases op with
  | set idx v =>
      exact .inr (hwf.count_ne_zero ((congrFun hget idx).trans (Function.update_self ..)))
  | del idx =>
    left
    rw [← Option.some.inj hstep, arDel, hslice]
    exact hdir
  | deleteRange lo hi =>
    left
    rw [← Option.some.inj hstep, arDeleteRange, if_pos (.inl hzero)]
    exact hdir
  | truncate limit =>
    left
    rw [← Option.some.inj hstep, arTruncate, if_pos hzero]
    exact hdir
  | rangeSet lo hi writes =>
    obtain ⟨v, hv⟩ := hop.2.2.2 lo le_rfl hop.1
    obtain ⟨ws, p, rfl⟩ := (eq_nil_or_concat writes).resolve_left (ne_nil_of_mem hv)
    -- the last write stays
    refine .inr (hwf.count_ne_zero (v := p.2) ((congrFun hget p.1).trans ?_))
    rw [ArOp.apply, writeAll, concat_eq_append, foldl_append]
    exact Function.update_self ..

/-- A directory that is not the one of a new array had slices before, and a block is empty only if
it is block 0 and the array was emptied before. -/
lemma array_run_emptyBlock (hss : ValidSliceSize ss) {ops : List (ArConfig × ArOp V)}
    (hops : ∀ op ∈ ops, op.2.Valid) :
    ∃ ar, runSteps arStep (arNew ss) ops = some ar ∧ ar.WF ∧
      (ar.dir ≠ .flat [] → ∃ ops₁ ops₂ ar₁, ops = ops₁ ++ ops₂ ∧
        runSteps arStep (arNew ss) ops₁ = some ar₁ ∧ ar₁.count ≠ 0 ∧
        runSteps arStep ar₁ ops₂ = some ar) ∧
      ∀ e, ar.dir.EmptyBlock e → e.blockId = 0 ∧ WasEmptied ss ops := by
  induction ops using reverseRecOn with
  | nil => exact ⟨arNew ss, rfl, arNew_wf hss, fun h => absurd rfl h, fun e he => he.elim⟩
  | append_singleton ops op ih =>
    obtain ⟨ar, hrun, hwf, hfilled, hempty⟩ := ih fun op' hop' => hops op' (by simp [hop'])
    obtain ⟨ar', hstep, hwf', -, hblocks⟩ := arStep_spec hwf (hops op (by simp))
    have hrun' : runSteps arStep (arNew ss) (ops ++ [op]) = some ar' := by
      rw [runSteps_append, hrun]; simp [hstep]
    refine ⟨ar', hrun', hwf', fun hne => ?_, fun e he => ?_⟩
    · by_cases hdir : ar.dir = .flat []
      · have hcount := (arStep_never_written hwf hdir (hops op (by simp)) hstep).resolve_left hne
        exact ⟨ops ++ [op], [], ar', (append_nil _).symm, hrun', hcount, rfl⟩
      · obtain ⟨ops1, ops2, ar1, rfl, hrun1, hcount, hrun2⟩ := hfilled hdir
        refine ⟨ops1, ops2 ++ [op], ar1, append_assoc .., hrun1, hcount, ?_⟩
        rw [runSteps_append, hrun2]
        simp [hstep]
    · rcases hblocks e he with hold | ⟨hid, hnil, hflat⟩
      · exact ⟨(hempty e hold).1, (hempty e hold).2.append _⟩
      · -- the operation started from a directory whose slices were all freed
        obtain ⟨ops1, ops2, ar1, rfl, hrun1, hcount, hrun2⟩ := hfilled hflat
        refine ⟨hid, ops1, ops2, [op], ar1, ar, rfl, hrun1, hcount, hrun2, ?_⟩
        rw [hwf.count, hnil]
        rfl

/-- The metadata of a sparse array: in every reachable state with elements the counts, the order of
offsets and blocks, the highest offsets and the highest slice are right, so `arLen` is one more than
the highest index and `arCount` is the number of elements. The count of a superdir block is 0 at
most for block 0, and only if the array was emptied before. -/
theorem array_metadata (hss : ValidSliceSize ss) (ops : List (ArConfig × ArOp V))
    (hops : ∀ op ∈ ops, op.2.Valid) :
    ∃ ar, runSteps arStep (arNew ss) ops = some ar ∧
      (ar.count ≠ 0 → ArrayMeta ar) ∧
      ∀ sd, ar.dir = .super sd → ∀ e ∈ sd, e.count = 0 → e.blockId = 0 ∧ WasEmptied ss ops := by
  obtain ⟨ar, hrun, hwf, -, hempty⟩ := array_run_emptyBlock hss hops
  refine ⟨ar, hrun, hwf.arrayMeta, fun sd hsd e he hzero => hempty e ?_⟩
  rw [hsd]
  exact ⟨he, hzero⟩

/-- The operations that leave an empty block: the only element is deleted, and then the directory is
promoted for slice 2048. -/
def emptyingOps : List (ArConfig × ArOp ℕ) :=
  [(⟨4, 2⟩, .set 0 1), (⟨4, 2⟩, .del 0), (⟨4, 2⟩, .set (2048 * 256) 1)]

lemma emptyingOps_valid : ∀ op ∈ emptyingOps, op.2.Valid := by
  intro op hop
  simp only [emptyingOps, mem_cons, not_mem_nil, or_false] at hop
  rcases hop with rfl | rfl | rfl
  · exact (by decide : 0 < 2 ^ 64 - 1)
  · trivial
  · exact (by decide : 2048 * 256 < 2 ^ 64 - 1)

theorem array_metadata_emptyingOps :
    ∃ ar, runSteps arStep (arNew 256 : RedisArray ℕ) emptyingOps = some ar ∧
      (ar.count ≠ 0 → ArrayMeta ar) ∧
      ∀ sd, ar.dir = .super sd → ∀ e ∈ sd, e.count = 0 → e.blockId = 0 ∧
        WasEmptied 256 emptyingOps :=
  array_metadata ⟨8, by decide, by decide, rfl⟩ emptyingOps emptyingOps_valid

/-- A reachable array with one element whose superdir has a block with count 0. -/
theorem exists_empty_block :
    ∃ ar sd e, runSteps arStep (arNew 256 : RedisArray ℕ) emptyingOps = some ar ∧ ar.count = 1 ∧
      ar.dir = .super sd ∧ e ∈ sd ∧ e.count = 0 := by
  refine ⟨_, _, ⟨0, 0, replicate 2048 none⟩, rfl, ?_, rfl, ?_, rfl⟩
  · rfl
  · decide +kernel

/-! ### Deleting a range -/

/-- `arDel` for every index of a range. -/
def arDelEach (cfg : ArConfig) (ar : RedisArray V) (lo hi : ℕ) : RedisArray V :=
  (List.range' lo (hi + 1 - lo)).foldl (fun ar idx => (arDel cfg ar idx).1) ar

lemma foldl_arDel_spec (cfg : ArConfig) (h : ar.WF) (l : List ℕ) :
    (l.foldl (fun ar idx => (arDel cfg ar idx).1) ar).WF ∧
      arGet (l.foldl (fun ar idx => (arDel cfg ar idx).1) ar) =
        fun idx => if idx ∈ l then none else arGet ar idx := by
  induction l generalizing ar with
  | nil => exact ⟨h, by simp⟩
  | cons idx l ih =>
    obtain ⟨hwf, hget, -⟩ := (arDel_spec cfg h idx).1
    obtain ⟨hwf', hget'⟩ := ih hwf
    refine ⟨hwf', hget'.trans (funext fun k => ?_)⟩
    rw [hget]
    by_cases hk : k = idx <;> simp [hk]

/-- `arDeleteRange` on a reachable array, flat or with a superdir, does what `arDel` does for every
index of the range: it returns the number of the elements in the range, these are gone and the
others stay, and the array has the invariant and the metadata that the deletions one by one lead to.
-/
theorem arDeleteRange_elementwise (hss : ValidSliceSize ss) {ops : List (ArConfig × ArOp V)}
    (hops : ∀ op ∈ ops, op.2.Valid) (hrun : runSteps arStep (arNew ss) ops = some ar)
    (cfg : ArConfig) {lo hi : ℕ} (hle : lo ≤ hi) :
    ∃ ar', arDeleteRange cfg ar lo hi =
        (ar', {idx | (lo ≤ idx ∧ idx ≤ hi) ∧ (arGet ar idx).isSome}.ncard) ∧
      (∀ idx, arGet ar' idx = if lo ≤ idx ∧ idx ≤ hi then none else arGet ar idx) ∧
      (∀ idx, arGet (arDelEach cfg ar lo hi) idx = arGet ar' idx) ∧
      ar'.WF ∧ (arDelEach cfg ar lo hi).WF ∧ ar'.count = (arDelEach cfg ar lo hi).count ∧
      (ar'.count ≠ 0 → ArrayMeta ar' ∧ ArrayMeta (arDelEach cfg ar lo hi)) := by
  obtain ⟨_, hrun', h, -⟩ := array_run_spec hss hops
  obtain rfl := Option.some.inj (hrun.symm.trans hrun')
  obtain ⟨⟨hwf, hget, -⟩, hcount⟩ := arDeleteRange_spec cfg h lo hi
  obtain ⟨hwf', hget'⟩ := foldl_arDel_spec cfg h (range' lo (hi + 1 - lo))
  have heach : arGet (arDelEach cfg ar lo hi) = arGet (arDeleteRange cfg ar lo hi).1 := by
    rw [arDelEach, hget', hget]
    funext idx
    exact if_congr (by rw [mem_range'_1]; omega) rfl rfl
  have hsame : (arDeleteRange cfg ar lo hi).1.count = (arDelEach cfg ar lo hi).count := by
    have hcount : (arDelEach cfg ar lo hi).count = _ := RedisArray.WF.count_eq_ncard hwf'
    rw [hwf.count_eq_ncard, hcount, heach]
  refine ⟨_, Prod.ext rfl ?_, fun idx => congrFun hget idx, fun idx =>
    congrFun heach idx, hwf, hwf',
    hsame, fun hne => ⟨hwf.arrayMeta hne, RedisArray.WF.arrayMeta hwf' (hsame ▸ hne)⟩⟩
  -- the elements are those in the range and those that stay
  have hfin : {idx | (arGet ar idx).isSome}.Finite := by
    refine (finite_toSet ((arElements ar).map Prod.fst)).subset fun idx hidx => ?_
    obtain ⟨v, hv⟩ := Option.isSome_iff_exists.mp hidx
    exact mem_map.mpr ⟨_, (h.represents.mem_iff idx v).mpr hv, rfl⟩
  have hsplit := Set.ncard_inter_add_ncard_sdiff_eq_ncard _ {idx | lo ≤ idx ∧ idx ≤ hi} hfin
  have hrest : {idx | (arGet ar idx).isSome} \ {idx | lo ≤ idx ∧ idx ≤ hi} =
      {idx | (arGet (arDeleteRange cfg ar lo hi).1 idx).isSome} := by
    ext idx
    rw [hget]
    by_cases hin : lo ≤ idx ∧ idx ≤ hi <;> simp [clearRange, hin]
  rw [hrest, ← hwf.count_eq_ncard, ← h.count_eq_ncard, Set.inter_comm] at hsplit
  change _ = ({idx | lo ≤ idx ∧ idx ≤ hi} ∩ {idx | (arGet ar idx).isSome}).ncard
  omega

/-- The first slice and a part of the second. -/
theorem arDeleteRange_elementwise_slices : ∃ ar ar' : RedisArray ℕ,
    runSteps arStep (arNew 256) [(⟨4, 2⟩, .set 5 50), (⟨4, 2⟩, .set 300 7)] = some ar ∧
      arDeleteRange ⟨4, 2⟩ ar 0 299 =
        (ar', {idx | (0 ≤ idx ∧ idx ≤ 299) ∧ (arGet ar idx).isSome}.ncard) := by
  have hops : ∀ op ∈ [((⟨4, 2⟩ : ArConfig), ArOp.set 5 50), (⟨4, 2⟩, .set 300 7)], op.2.Valid := by
    intro op hop
    simp only [mem_cons, not_mem_nil, or_false] at hop
    rcases hop with rfl | rfl
    · exact (by decide : 5 < 2 ^ 64 - 1)
    · exact (by decide : 300 < 2 ^ 64 - 1)
  obtain ⟨ar, hrun, -⟩ := array_run_spec ⟨8, by decide, by decide, rfl⟩ hops
  obtain ⟨ar', hcode, -⟩ := arDeleteRange_elementwise ⟨8, by decide, by decide, rfl⟩ hops hrun
    ⟨4, 2⟩ (show 0 ≤ 299 by decide)
  exact ⟨ar, ar', hrun, hcode⟩

end RainCall
