import RainCall.SparseArray.Sweep

/-!
# The invariant of an array, and setting elements

An array is a map from indices to values, stored in slices. `RedisArray.Loose` is the invariant that
holds at all times, `RedisArray.WF` the one between operations, when no slice is empty. `arSet`
succeeds, keeps the invariant and sets the element.
-/

namespace RainCall

open Function Nat Option

variable {V : Type*} {ar : RedisArray V}

/-! ### Index arithmetic -/

variable {ss idx : ℕ} {ar' : RedisArray V}

lemma arSliceId_eq (h : ValidSliceSize ss) (idx : ℕ) : arSliceId idx ss = idx / ss := by
  obtain ⟨b, -, -, rfl⟩ := h
  rw [arSliceId, arSliceBits, log2_two_pow, shiftRight_eq_div_pow]

lemma arSliceOff_eq (h : ValidSliceSize ss) (idx : ℕ) : arSliceOff idx ss = idx % ss := by
  obtain ⟨b, -, -, rfl⟩ := h
  rw [arSliceOff, and_two_pow_sub_one_eq_mod]

lemma arMakeIdx_eq (h : ValidSliceSize ss) (id : ℕ) {off : ℕ} (hoff : off < ss) :
    arMakeIdx id off ss = id * ss + off := by
  obtain ⟨b, -, -, rfl⟩ := h
  rw [arMakeIdx, arSliceBits, log2_two_pow, shiftLeft_eq, mul_comm,
    ← two_pow_add_eq_or_of_lt hoff]

lemma ValidSliceSize.pos (h : ValidSliceSize ss) : 0 < ss := by
  obtain ⟨b, -, -, rfl⟩ := h
  exact Nat.two_pow_pos b

/-! ### Invariants -/

/-- The elements of an array in increasing order. -/
def arElements (ar : RedisArray V) : List (ℕ × V) :=
  nestedList ar.sliceSize ArSlice.elements ar.dir.slices

/-- The part of the invariant that does not speak of `dir_highest_used`. -/
structure RedisArray.Core (ar : RedisArray V) : Prop extends ar.DirWF where
  size : ValidSliceSize ar.sliceSize
  slices : ∀ id s, arGetSlice ar.dir id = some s → s.WF ar.sliceSize
  /-- `count` adds up the elements of the slices. -/
  count : ar.count = weight ArSlice.count ar.dir.slices
  /-- The last index is never used. -/
  bound : ∀ idx v, arGet ar idx = some v → idx < 2 ^ 64 - 1

/-- No slice is empty. -/
def RedisArray.Positive (ar : RedisArray V) : Prop :=
  ∀ id s, arGetSlice ar.dir id = some s → s.count ≠ 0

/-- The invariant that holds also while slices are prepared for a range of writes. -/
structure RedisArray.Loose (ar : RedisArray V) : Prop extends ar.Core where
  /-- No element lies above the slice `dir_highest_used`. -/
  top_le : ∀ idx v, arGet ar idx = some v → idx / ar.sliceSize ≤ ar.dirHighestUsed
  /-- There is an element in the slice `dir_highest_used`. -/
  top_mem : ar.count ≠ 0 → ∃ idx v, arGet ar idx = some v ∧ idx / ar.sliceSize = ar.dirHighestUsed

/-- The invariant between operations. -/
structure RedisArray.WF (ar : RedisArray V) : Prop extends ar.Loose where
  positive : ar.Positive

namespace RedisArray

lemma arGet_eq_nested (h : ValidSliceSize ar.sliceSize) :
    arGet ar = nested ar.sliceSize (arGetSlice ar.dir) ArSlice.get := by
  funext idx
  rw [arGet, nested, arSliceId_eq h, arSliceOff_eq h]

namespace Core

/-- The elements represent the map of the array. -/
lemma represents (h : ar.Core) : Represents (arElements ar) (arGet ar) := by
  rw [arGet_eq_nested h.size]
  have hrep := h.dir.represents
  refine hrep.nested ?_ ?_
  · rintro ⟨id, s⟩ hq
    exact (h.slices id s ((hrep.mem_iff id s).mp hq)).represents
  · rintro ⟨id, s⟩ hq
    exact (h.slices id s ((hrep.mem_iff id s).mp hq)).elements_lt

/-- `count` counts the elements. -/
lemma count_eq (h : ar.Core) : ar.count = (arElements ar).length := by
  rw [h.count, arElements, length_nestedList, weight, weight]
  refine congrArg List.sum (List.map_congr_left ?_)
  rintro ⟨id, s⟩ hq
  exact (h.slices id s ((h.dir.represents.mem_iff id s).mp hq)).count_eq

lemma count_ne_zero (h : ar.Core) {idx : ℕ} {v : V} (hget : arGet ar idx = some v) :
    ar.count ≠ 0 := by
  rw [h.count_eq]
  exact (List.length_pos_of_mem ((h.represents.mem_iff idx v).mpr hget)).ne'

/-- An element lies in its slice. -/
lemma get_eq_some (h : ar.Core) {idx : ℕ} {v : V} :
    arGet ar idx = some v ↔
      ∃ s, arGetSlice ar.dir (idx / ar.sliceSize) = some s ∧
        s.get (idx % ar.sliceSize) = some v := by
  rw [arGet_eq_nested h.size, nested, bind_eq_some_iff]

lemma get_at (h : ar.Core) (id : ℕ) {off : ℕ} (hoff : off < ar.sliceSize) :
    arGet ar (id * ar.sliceSize + off) = (arGetSlice ar.dir id).bind fun s => s.get off := by
  have hdiv : (id * ar.sliceSize + off) / ar.sliceSize = id := by
    rw [mul_comm, mul_add_div h.size.pos, div_eq_of_lt hoff, add_zero]
  have hmod : (id * ar.sliceSize + off) % ar.sliceSize = off := by
    rw [mul_comm, mul_add_mod, mod_eq_of_lt hoff]
  rw [arGet_eq_nested h.size, nested, hdiv, hmod]

lemma exists_get (h : ar.Core) {id : ℕ} {s : ArSlice V} (hs : arGetSlice ar.dir id = some s)
    (hne : s.count ≠ 0) : ∃ idx v, arGet ar idx = some v ∧ idx / ar.sliceSize = id := by
  have hwf := h.slices id s hs
  obtain ⟨⟨off, v⟩, hoff⟩ := List.exists_mem_of_length_pos (by
    rw [← hwf.count_eq]
    omega)
  have hlt : off < ar.sliceSize := hwf.elements_lt _ hoff
  refine ⟨id * ar.sliceSize + off, v, ?_, ?_⟩
  · rw [h.get_at id hlt, hs]
    exact (hwf.represents.mem_iff off v).mp hoff
  · rw [mul_comm, mul_add_div h.size.pos, div_eq_of_lt hlt, add_zero]

/-- Without empty slices the highest slice is known from the directory. -/
lemma wf_of_isTop (h : ar.Core) (hpos : ar.Positive)
    (htop : ar.count ≠ 0 → IsTop ar.dir.slices ar.dirHighestUsed) : ar.WF := by
  have hrep := h.dir.represents
  refine ⟨⟨h, fun idx v hget => ?_, fun hne => ?_⟩, hpos⟩
  · obtain ⟨s, hs, -⟩ := h.get_eq_some.mp hget
    exact (htop (h.count_ne_zero hget)).le _ ((hrep.mem_iff _ s).mpr hs)
  · obtain ⟨s, hs⟩ := (htop hne).mem
    rw [hrep.mem_iff] at hs
    exact h.exists_get hs (hpos _ s hs)

end Core

lemma WF.isTop (h : ar.WF) (hne : ar.count ≠ 0) : IsTop ar.dir.slices ar.dirHighestUsed := by
  have hrep := h.dir.represents
  refine ⟨?_, ?_⟩
  · obtain ⟨idx, v, hget, hdiv⟩ := h.top_mem hne
    obtain ⟨s, hs, -⟩ := h.get_eq_some.mp hget
    exact ⟨s, (hrep.mem_iff _ s).mpr (hdiv ▸ hs)⟩
  · rintro ⟨id, s⟩ hp
    have hs := (hrep.mem_iff id s).mp hp
    obtain ⟨idx, v, hget, rfl⟩ := h.exists_get hs (h.positive id s hs)
    exact h.top_le idx v hget

end RedisArray

/-! ### Writing a slice -/

/-- The fields that no write changes. -/
structure SameFrame (ar ar' : RedisArray V) : Prop where
  sliceSize : ar'.sliceSize = ar.sliceSize
  insertIdx : ar'.insertIdx = ar.insertIdx

lemma SameFrame.trans {ar1 ar2 ar3 : RedisArray V} (h : SameFrame ar1 ar2)
    (h' : SameFrame ar2 ar3) :
    SameFrame ar1 ar3 :=
  ⟨h'.sliceSize.trans h.sliceSize, h'.insertIdx.trans h.insertIdx⟩

/-- The map of an array after one slice was replaced. -/
lemma arGet_of_update (hss : ValidSliceSize ar.sliceSize) (id : ℕ) (o : Option (ArSlice V))
    (hsize : ar'.sliceSize = ar.sliceSize)
    (hget : arGetSlice ar'.dir = update (arGetSlice ar.dir) id o) :
    arGet ar' idx = if idx / ar.sliceSize = id then o.bind (fun s => s.get (idx % ar.sliceSize))
      else arGet ar idx := by
  rw [RedisArray.arGet_eq_nested (hsize ▸ hss), RedisArray.arGet_eq_nested hss, hsize, hget,
    nested_update]

lemma arGet_of_update_slice (hss : ValidSliceSize ar.sliceSize) {s : ArSlice V} {o : Option V}
    (ar' : RedisArray V) (hsize : ar'.sliceSize = ar.sliceSize)
    (hdir : arGetSlice ar'.dir = update (arGetSlice ar.dir) (idx / ar.sliceSize) (some
      s))
    (hget : s.get = update (fun i => (arGetSlice ar.dir (idx / ar.sliceSize)).bind fun s
      => s.get i) (idx % ar.sliceSize) o) :
    arGet ar' = update (arGet ar) idx o := by
  rw [RedisArray.arGet_eq_nested (hsize ▸ hss), RedisArray.arGet_eq_nested hss, hsize, hdir]
  exact nested_update_some hget

lemma RedisArray.Core.setSlice (h : ar.Core) (id : ℕ) (o : Option (ArSlice V)) (n : ℕ)
    (hroom : ar.dir.Room id) (hwf : ∀ s, o = some s → s.WF ar.sliceSize)
    (hn : n + (arGetSlice ar.dir id).elim 0 ArSlice.count = ar.count + o.elim 0 ArSlice.count)
    (hbound : ∀ off v, (o.bind fun s => s.get off) = some v →
      id * ar.sliceSize + off < 2 ^ 64 - 1) :
    ∃ dir m, (∀ k, arSetSlice { ar with count := k } id o =
        { ar with dir := dir, numSlices := m, count := k }) ∧
      RedisArray.Core { ar with dir := dir, numSlices := m, count := n } ∧
      arGetSlice dir = update (arGetSlice ar.dir) id o ∧
      ∀ e, dir.EmptyBlock e → ar.dir.EmptyBlock e := by
  obtain ⟨hdir, hget, hempty⟩ := arSetSlice_spec h.toDirWF hroom
  refine ⟨(arSetSlice ar id o).dir, (arSetSlice ar id o).numSlices, ?_, ?_, hget, hempty⟩
  · intro k
    obtain ⟨_, _, _, _, _, dir⟩ := ar
    cases dir <;> cases o <;> rfl
  refine ⟨⟨hdir.dir, hdir.numSlices⟩, h.size, ?_, ?_, ?_⟩
  · intro k s hs
    rw [hget, update_apply] at hs
    split_ifs at hs with hk
    · exact hwf s hs
    · exact h.slices k s hs
  · have hrep := hdir.dir.represents
    rw [hget] at hrep
    have hw := h.dir.represents.weight_update hrep ArSlice.count
    have hc := h.count
    simp only
    omega
  · intro idx v hv
    rw [arGet_of_update h.size id o] at hv
    · split_ifs at hv with hk
      · have := hbound _ v hv
        rwa [← hk, div_add_mod'] at this
      · exact h.bound idx v hv
    · rfl
    · exact hget

/-- A directory with the same slices. -/
lemma RedisArray.Core.withDir (h : ar.Core) {dir : ArDir V} (hdir : dir.WF)
    (hslices : dir.slices = ar.dir.slices) :
    arGetSlice dir = arGetSlice ar.dir ∧ arGet { ar with dir := dir } = arGet ar ∧
      RedisArray.Core { ar with dir := dir } := by
  have hget : arGetSlice dir = arGetSlice ar.dir := by
    have := hdir.represents
    rw [hslices] at this
    exact this.fun_eq h.dir.represents
  have harGet : arGet { ar with dir := dir } = arGet ar := by
    funext idx
    simp only [arGet, hget]
  refine ⟨hget, harGet, ⟨hdir, ?_⟩, h.size, ?_, ?_, ?_⟩
  · rw [hslices]
    exact h.numSlices
  · rw [hget]
    exact h.slices
  · rw [hslices]
    exact h.count
  · rw [harGet]
    exact h.bound

lemma RedisArray.Core.withHighest (h : ar.Core) (top : ℕ) :
    RedisArray.Core { ar with dirHighestUsed := top } :=
  ⟨⟨h.dir, h.numSlices⟩, h.size, h.slices, h.count, h.bound⟩

/-! ### Setting an element -/

lemma RedisArray.Core.sliceForSet (h : ar.Core) (cfg : ArConfig) (id rel : ℕ) :
    let s := (arGetSlice ar.dir id).getD (arNewSlice cfg rel ar.sliceSize)
    s.WF ar.sliceSize ∧ s.count = (arGetSlice ar.dir id).elim 0 ArSlice.count ∧
      s.get = fun i => (arGetSlice ar.dir id).bind fun s => s.get i := by
  cases hs : arGetSlice ar.dir id with
  | some s => exact ⟨h.slices id s hs, rfl, rfl⟩
  | none =>
    obtain ⟨hwf, hnil⟩ := arNewSlice_spec cfg h.size rel
    refine ⟨hwf, ?_, funext fun i => hwf.get_eq_none hnil i⟩
    exact hwf.count_eq.trans (congrArg List.length hnil)

/-- The outcome of setting the element `idx`: one slice is replaced by one that is not empty. -/
structure ArraySet (ar : RedisArray V) (idx : ℕ) (v : V) (ar' : RedisArray V) : Prop where
  loose : ar'.Loose
  get : arGet ar' = Function.update (arGet ar) idx (some v)
  frame : SameFrame ar ar'
  slice : ∃ s, s.count ≠ 0 ∧
    arGetSlice ar'.dir = Function.update (arGetSlice ar.dir) (idx / ar.sliceSize) (some s)
  empty : ∀ e, ar'.dir.EmptyBlock e →
    ar.dir.EmptyBlock e ∨ (e.blockId = 0 ∧ ar.dir.Emptied (idx / ar.sliceSize))

/-- A write keeps the invariant between operations. -/
lemma ArraySet.wf {v : V} (hset : ArraySet ar idx v ar') (h : ar.WF) :
    ar'.WF := by
  obtain ⟨s, hne, hdir⟩ := hset.slice
  refine ⟨hset.loose, fun id t ht => ?_⟩
  rw [hdir, update_apply] at ht
  split_ifs at ht
  · exact some.inj ht ▸ hne
  · exact h.positive id t ht

lemma RedisArray.WF.withInsertIdx (h : ar.WF) (n : ℕ) : { ar with insertIdx := n }.WF :=
  ⟨⟨⟨⟨h.dir, h.numSlices⟩, h.size, h.slices, h.count, h.bound⟩, h.top_le, h.top_mem⟩, h.positive⟩

lemma RedisArray.Loose.of_set (h : ar.Loose) (h' : ar'.Core) {v : V}
    (hsize : ar'.sliceSize = ar.sliceSize) (hget : arGet ar' = update (arGet ar) idx (some v))
    (htop : ar'.dirHighestUsed = if ar.dirHighestUsed < idx / ar.sliceSize ∨ ar'.count = 1 then
      idx / ar.sliceSize else ar.dirHighestUsed) :
    ar'.Loose := by
  have hset : arGet ar' idx = some v := by rw [hget, update_self]
  have hold : ∀ {k w}, k ≠ idx → (arGet ar' k = some w ↔ arGet ar k = some w) := by
    intro k w hk
    rw [hget, update_of_ne hk]
  refine ⟨h', fun k w hk => ?_, fun hne => ?_⟩
  · rw [hsize, htop]
    by_cases heq : k = idx
    · subst heq
      split_ifs with hc
      · exact le_rfl
      · omega
    · have hle := h.top_le k w ((hold heq).mp hk)
      split_ifs with hc
      · rcases hc with hlt | hone
        · omega
        · -- a single element is the one just set
          have hlen := h'.count_eq.symm.trans hone
          obtain ⟨p, hp⟩ := List.length_eq_one_iff.mp hlen
          have h1 := (h'.represents.mem_iff k w).mpr hk
          have h2 := (h'.represents.mem_iff idx v).mpr hset
          rw [hp, List.mem_singleton] at h1 h2
          exact absurd (congrArg Prod.fst (h1.trans h2.symm)) heq
      · exact hle
  · rw [hsize, htop]
    split_ifs with hc
    · exact ⟨idx, v, hset, rfl⟩
    · push Not at hc
      have hrep' := h'.represents
      rw [hget] at hrep'
      have hlen := h.represents.length_update hrep'
      rw [← h'.count_eq, ← h.count_eq] at hlen
      simp only [toList_some, List.length_singleton] at hlen
      obtain ⟨k, w, hk, hdiv⟩ := h.top_mem (by omega)
      by_cases heq : k = idx
      · exact ⟨idx, v, hset, heq ▸ hdiv⟩
      · exact ⟨k, w, (hold heq).mpr hk, hdiv⟩

/-- `arSet` sets the element. -/
lemma arSet_spec (cfg : ArConfig) (h : ar.Loose) (hidx : idx < 2 ^ 64 - 1) (v : V) :
    ∃ ar', arSet cfg ar idx v = some ar' ∧ ArraySet ar idx v ar' := by
  have hss := h.size
  have hrel : idx % ar.sliceSize < ar.sliceSize := mod_lt _ hss.pos
  obtain ⟨hdwf, hslices, hroom⟩ := arDirGrow_spec h.dir (idx / ar.sliceSize)
  obtain ⟨hgrow, -, hcore⟩ := h.withDir hdwf hslices
  obtain ⟨hwf, hcount, hget⟩ := h.sliceForSet cfg (idx / ar.sliceSize) (idx % ar.sliceSize)
  obtain ⟨s', added, hset, hspec⟩ := arSliceSet_spec cfg hwf hss hrel v
  obtain ⟨hs'count, hs'ne⟩ := hspec.count_eq hwf
  have hget' : s'.get = update (fun i =>
      (arGetSlice ar.dir (idx / ar.sliceSize)).bind fun s => s.get i) (idx % ar.sliceSize)
      (some v) := by
    rw [hspec.get, hget]
  have hbound : ∀ off w, ((some s').bind fun s => s.get off) = some w →
      idx / ar.sliceSize * ar.sliceSize + off < 2 ^ 64 - 1 := by
    intro off w hw
    have hlt : off < ar.sliceSize :=
      hspec.wf.elements_lt _ ((hspec.wf.represents.mem_iff off w).mpr hw)
    rw [bind_some, hget', update_apply] at hw
    split_ifs at hw with hoff
    · rwa [hoff, div_add_mod']
    · exact h.bound _ w ((h.get_at _ hlt).trans hw)
  obtain ⟨dir, m, hcode, hcore', hdir, hempty⟩ := hcore.setSlice (idx / ar.sliceSize)
    (some s') (ar.count + added) hroom
    (fun s hs => some.inj hs ▸ hspec.wf)
    (by
      simp only [hgrow, elim_some]
      omega) hbound
  rw [hgrow] at hdir
  have hcore'' := hcore'.withHighest
    (if ar.dirHighestUsed < idx / ar.sliceSize ∨ ar.count + added = 1 then idx / ar.sliceSize
      else ar.dirHighestUsed)
  have hmap := arGet_of_update_slice hss { ar with
    dir := dir
    numSlices := m
    count := ar.count + added
    dirHighestUsed :=
      if ar.dirHighestUsed < idx / ar.sliceSize ∨ ar.count + added = 1 then idx / ar.sliceSize
      else ar.dirHighestUsed } rfl hdir hget'
  refine ⟨_, ?_, h.of_set hcore'' rfl hmap rfl, hmap, ⟨rfl, rfl⟩, ⟨s', hs'ne, hdir⟩,
    fun e he => arDirGrow_emptyBlock h.dir _ (hempty e he)⟩
  simp only [arSet, if_neg hidx.ne, arSliceId_eq hss, arSliceOff_eq hss, hgrow, hset, map_some,
    hcode]

end RainCall
