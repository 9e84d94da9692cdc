import RainCall.Foundation.NestedMap
import RainCall.SparseArray.Basic

/-!
# The directory as a map from slice ids to slices

`arGetSlice` is a map from slice ids to slices. Its graph is listed by `ArDir.slices`, in both
encodings of the directory. For each directory function one lemma says how the map changes; the
number of allocated slices follows, since the list is determined by the map.
-/

namespace RainCall

open ArDir Function List
open Option hiding mem_map

variable {V : Type*}

/-! ### Superdir blocks -/

/-- The slices of a block by their position in the block. -/
def ArSDirEntry.slices (e : ArSDirEntry V) : List (ℕ × ArSlice V) := filledFrom 0 e.slots

/-- The blocks of a superdir with their ids. -/
def blocksOf (sd : List (ArSDirEntry V)) : List (ℕ × ArSDirEntry V) :=
  sd.map fun e => (e.blockId, e)

/-- The block with id `blockId`. -/
def blockAt (sd : List (ArSDirEntry V)) (blockId : ℕ) : Option (ArSDirEntry V) :=
  if (arSuperDirFind sd blockId).2 then sd[(arSuperDirFind sd blockId).1]? else none

/-- Well-formedness of a block. -/
structure ArSDirEntry.WF (e : ArSDirEntry V) : Prop where
  length : e.slots.length = arSuperBlockSlots
  count : e.count = e.slices.length

/-- Well-formedness of a superdir. -/
structure SuperDirWF (sd : List (ArSDirEntry V)) : Prop where
  sorted : KeySorted (blocksOf sd)
  entry : ∀ e ∈ sd, e.WF

/-- The allocated slices in increasing order. -/
def ArDir.slices : ArDir V → List (ℕ × ArSlice V)
  | .flat d => filledFrom 0 d
  | .super sd => nestedList arSuperBlockSlots ArSDirEntry.slices (blocksOf sd)

/-- Well-formedness of a directory. A flat directory has a power of two of slots and fits in a
block. -/
def ArDir.WF : ArDir V → Prop
  | .flat d => d.length = 0 ∨ ∃ j ≤ 11, d.length = 2 ^ j
  | .super sd => SuperDirWF sd

variable {sd : List (ArSDirEntry V)} {e : ArSDirEntry V}

lemma blocksOf_getElem? {i b : ℕ} :
    (blocksOf sd)[i]? = some (b, e) ↔ sd[i]? = some e ∧ e.blockId = b := by
  rw [blocksOf, getElem?_map, map_eq_some_iff]
  constructor
  · rintro ⟨e', he', heq⟩
    obtain ⟨rfl, rfl⟩ := Prod.mk.inj heq
    exact ⟨he', rfl⟩
  · rintro ⟨he, rfl⟩
    exact ⟨e, he, rfl⟩

lemma mem_blocksOf {b : ℕ} :
    (b, e) ∈ blocksOf sd ↔ e ∈ sd ∧ e.blockId = b := by
  rw [blocksOf, mem_map]
  constructor
  · rintro ⟨e', he', heq⟩
    obtain ⟨rfl, rfl⟩ := Prod.mk.inj heq
    exact ⟨he', rfl⟩
  · rintro ⟨he, rfl⟩
    exact ⟨e, he, rfl⟩

lemma keySorted_blocksOf :
    KeySorted (blocksOf sd) ↔ (sd.map ArSDirEntry.blockId).Pairwise (· < ·) := by
  rw [KeySorted, blocksOf, pairwise_map, pairwise_map]

lemma splitsAt_blocksOf {n k : ℕ} (h : SplitsAt (blocksOf sd) n k) :
    (∀ e ∈ sd.take n, e.blockId < k) ∧ ∀ e ∈ sd.drop n, k ≤ e.blockId := by
  constructor
  · intro e he
    refine h.below (e.blockId, e) ?_
    rw [blocksOf, ← map_take]
    exact mem_map.mpr ⟨e, he, rfl⟩
  · intro e he
    refine h.above (e.blockId, e) ?_
    rw [blocksOf, ← map_drop]
    exact mem_map.mpr ⟨e, he, rfl⟩

/-- The binary search of a superdir. -/
lemma SuperDirWF.find (h : SuperDirWF sd) (b : ℕ) :
    SplitsAt (blocksOf sd) (arSuperDirFind sd b).1 b ∧ (arSuperDirFind sd b).1 ≤ sd.length ∧
      ((arSuperDirFind sd b).2 = true ↔
        ∃ e, (blocksOf sd)[(arSuperDirFind sd b).1]? = some (b, e)) := by
  have hkey : ∀ i, keyAt (blocksOf sd) i = (sd[i]?.map ArSDirEntry.blockId).getD 0 := by
    intro i
    simp [keyAt, blocksOf, comp_def]
  have hlen : (blocksOf sd).length = sd.length := length_map _
  have hsearch := h.sorted.lowerBound b
  simp only [hlen, hkey] at hsearch
  simp only [arSuperDirFind, decide_eq_true_eq]
  exact hsearch

lemma SuperDirWF.represents (h : SuperDirWF sd) :
    Represents (blocksOf sd) (blockAt sd) := by
  refine ⟨h.sorted, fun b e => ?_⟩
  obtain ⟨hsplit, -, hfound⟩ := h.find b
  rw [h.sorted.mem_iff_of_splitsAt hsplit, blockAt]
  by_cases hf : (arSuperDirFind sd b).2 = true
  · obtain ⟨e', he'⟩ := hfound.mp hf
    rw [if_pos hf, he', (blocksOf_getElem?.mp he').1]
    simp
  · rw [if_neg hf]
    refine ⟨fun he => absurd (hfound.mpr ⟨e, he⟩) hf, fun he => by simp at he⟩

lemma ArSDirEntry.represents (e : ArSDirEntry V) : Represents e.slices (slotAt e.slots) :=
  represents_filledFrom_zero e.slots

lemma ArSDirEntry.WF.slices_lt (h : e.WF) :
    ∀ p ∈ e.slices, p.1 < arSuperBlockSlots := by
  intro p hp
  have := (lt_of_mem_filledFrom hp).2
  rwa [h.length, Nat.zero_add] at this

lemma arGetSlice_super (sd : List (ArSDirEntry V)) :
    arGetSlice (.super sd) =
      nested arSuperBlockSlots (blockAt sd) fun e => slotAt e.slots := by
  funext id
  simp only [arGetSlice, nested, blockAt]
  split_ifs <;> rfl

lemma arGetSlice_flat (d : List (Option (ArSlice V))) : arGetSlice (.flat d) = slotAt d := by
  funext id
  simp only [arGetSlice]
  split_ifs with h
  · exact (slotAt_of_length_le h).symm
  · rfl

variable {dir : ArDir V} {ar : RedisArray V} {id : ℕ}

lemma ArDir.WF.represents (h : dir.WF) : Represents dir.slices (arGetSlice dir) := by
  cases dir with
  | flat d =>
    rw [arGetSlice_flat]
    exact represents_filledFrom_zero d
  | super sd =>
    rw [arGetSlice_super]
    refine h.represents.nested (fun q _ => q.2.represents) ?_
    rintro ⟨b, e⟩ hq
    exact (h.entry e (mem_blocksOf.mp hq).1).slices_lt

/-! ### Changing the blocks -/

namespace SuperDirWF

variable {e' : ArSDirEntry V} {i b : ℕ}

/-- A block that exists is found. -/
lemma find_of_blockAt (h : SuperDirWF sd) (he : blockAt sd b = some e) :
    (arSuperDirFind sd b).2 = true ∧ sd[(arSuperDirFind sd b).1]? = some e ∧ e.blockId = b := by
  obtain ⟨hsplit, -, hfound⟩ := h.find b
  have hmem := (h.represents.mem_iff b e).mpr he
  have hget := (h.sorted.mem_iff_of_splitsAt hsplit).mp hmem
  exact ⟨hfound.mpr ⟨e, hget⟩, blocksOf_getElem?.mp hget⟩

/-- A superdir whose blocks are known. -/
lemma of_represents {f : ℕ → Option (ArSDirEntry V)} (hrep : Represents (blocksOf sd) f)
    (hentry : ∀ e ∈ sd, e.WF) : SuperDirWF sd ∧ blockAt sd = f := by
  have hwf : SuperDirWF sd := ⟨hrep.sorted, hentry⟩
  exact ⟨hwf, hwf.represents.fun_eq hrep⟩

/-- Overwriting a block. -/
lemma set (h : SuperDirWF sd) (hi : sd[i]? = some e) (he' : e'.WF) (hid : e'.blockId = e.blockId) :
    SuperDirWF (sd.set i e') ∧
      blockAt (sd.set i e') = update (blockAt sd) e.blockId (some e') := by
  refine of_represents ?_ fun x hx => ?_
  · have := h.represents.setAt (blocksOf_getElem?.mpr ⟨hi, rfl⟩) e'
    rwa [blocksOf, map_set, hid]
  · rcases mem_or_eq_of_mem_set hx with hx | rfl
    · exact h.entry x hx
    · exact he'

/-- Removing a block. -/
lemma erase (h : SuperDirWF sd) (hi : sd[i]? = some e) :
    SuperDirWF (sd.eraseIdx i) ∧
      blockAt (sd.eraseIdx i) = update (blockAt sd) e.blockId none := by
  refine of_represents ?_ fun x hx => h.entry x (mem_of_mem_eraseIdx hx)
  have := h.represents.eraseAt (blocksOf_getElem?.mpr ⟨hi, rfl⟩)
  rwa [blocksOf, eraseIdx_eq_take_drop_succ, map_append, map_take, map_drop]

lemma mem_of_update {sd' : List (ArSDirEntry V)} {o : Option (ArSDirEntry V)} (h' : SuperDirWF sd')
    (h : SuperDirWF sd) (hblocks : blockAt sd' = update (blockAt sd) b o)
    (ho : ∀ e, o = some e → e.count ≠ 0) {x : ArSDirEntry V} (hx : x ∈ sd') (hzero : x.count = 0) :
    x ∈ sd := by
  have hat : blockAt sd' x.blockId = some x :=
    (h'.represents.mem_iff _ _).mp (mem_blocksOf.mpr ⟨hx, rfl⟩)
  rw [hblocks, update_apply] at hat
  split_ifs at hat
  · exact absurd hzero (ho x hat)
  · exact (mem_blocksOf.mp ((h.represents.mem_iff _ _).mpr hat)).1

lemma insert (h : SuperDirWF sd) (hfree : blockAt sd e.blockId = none) (he : e.WF) :
    SuperDirWF (sd.insertIdx (arSuperDirFind sd e.blockId).1 e) ∧
      blockAt (sd.insertIdx (arSuperDirFind sd e.blockId).1 e) =
        update (blockAt sd) e.blockId (some e) := by
  obtain ⟨hsplit, hle, -⟩ := h.find e.blockId
  have heq : sd.insertIdx (arSuperDirFind sd e.blockId).1 e =
      sd.take (arSuperDirFind sd e.blockId).1 ++ e :: sd.drop (arSuperDirFind sd e.blockId).1 :=
    insertIdx_eq_take_append hle e
  refine of_represents ?_ fun x hx => ?_
  · have := h.represents.insert hsplit hfree e
    rwa [heq, blocksOf, map_append, map_cons, map_take, map_drop]
  · rcases eq_or_mem_of_mem_insertIdx hx with rfl | hx
    · exact he
    · exact h.entry x hx

end SuperDirWF

/-! ### Setting a slice -/

lemma slotAt_eq_none_of_slices_nil (h : e.slices = []) (i : ℕ) :
    slotAt e.slots i = none :=
  e.represents.eq_nil_iff.mp h i

lemma ArSDirEntry.wf_empty (b : ℕ) :
    (⟨b, 0, replicate arSuperBlockSlots none⟩ : ArSDirEntry V).WF :=
  ⟨length_replicate .., by simp [ArSDirEntry.slices]⟩

lemma arSuperDirEnsureBlock_spec (h : SuperDirWF sd) (b : ℕ) :
    SuperDirWF (arSuperDirEnsureBlock sd b) ∧
      blockAt (arSuperDirEnsureBlock sd b) = update (blockAt sd) b
        (some ((blockAt sd b).getD ⟨b, 0, replicate arSuperBlockSlots none⟩)) := by
  unfold arSuperDirEnsureBlock
  cases hb : blockAt sd b with
  | some e =>
    obtain ⟨hf, -, -⟩ := h.find_of_blockAt hb
    simp only [hf, if_true, getD_some]
    exact ⟨h, by rw [← hb, update_eq_self]⟩
  | none =>
    have hf : ¬ (arSuperDirFind sd b).2 = true := by
      intro hf
      obtain ⟨e, he⟩ := (h.find b).2.2.mp hf
      simp [blockAt, hf, (blocksOf_getElem?.mp he).1] at hb
    simp only [hf]
    exact h.insert hb (ArSDirEntry.wf_empty b)

/-- Writing to a slot of a block. -/
lemma ArSDirEntry.WF.setSlot (h : e.WF) {off n : ℕ}
    (hoff : off < arSuperBlockSlots) (o : Option (ArSlice V))
    (hn : n + (slotAt e.slots off).toList.length = e.count + o.toList.length) :
    ArSDirEntry.WF { e with count := n, slots := e.slots.set off o } := by
  refine ⟨(length_set ..).trans h.length, ?_⟩
  have hlen := length_filledFrom_set 0 (h.length ▸ hoff) o
  have hc : e.count = (filledFrom 0 e.slots).length := h.count
  show n = (filledFrom 0 (e.slots.set off o)).length
  omega

lemma arSuperDirSet_spec (h : SuperDirWF sd) (n id : ℕ) (s : ArSlice V) :
    SuperDirWF (arSuperDirSet sd n id s).1 ∧
      arGetSlice (.super (arSuperDirSet sd n id s).1) =
        update (arGetSlice (.super sd)) id (some s) ∧
      (arSuperDirSet sd n id s).2 =
        n + (if (arGetSlice (.super sd) id).isNone then 1 else 0) ∧
      ∀ x ∈ (arSuperDirSet sd n id s).1, x.count = 0 → x ∈ sd := by
  have hoff : id % arSuperBlockSlots < arSuperBlockSlots := Nat.mod_lt _ (by decide)
  obtain ⟨hwf, hblocks⟩ := arSuperDirEnsureBlock_spec h (id / arSuperBlockSlots)
  simp only [arSuperDirSet]
  generalize arSuperDirEnsureBlock sd (id / arSuperBlockSlots) = sd' at hwf hblocks
  -- the block is there, and its slots are those of the old block, if there was one
  generalize hb : (blockAt sd (id / arSuperBlockSlots)).getD
    ⟨id / arSuperBlockSlots, 0, replicate arSuperBlockSlots none⟩ = e at hblocks
  have hslots : slotAt e.slots = fun i =>
      (blockAt sd (id / arSuperBlockSlots)).bind fun b => slotAt b.slots i := by
    rw [← hb]
    funext i
    cases blockAt sd (id / arSuperBlockSlots) <;> simp
  obtain ⟨-, hget, hid⟩ := hwf.find_of_blockAt
    (by rw [hblocks, update_self])
  generalize (arSuperDirFind sd' (id / arSuperBlockSlots)).1 = pos at hget ⊢
  have he := hwf.entry e (mem_of_getElem? hget)
  rw [hget]
  have hcur : arGetSlice (.super sd) id = slotAt e.slots (id % arSuperBlockSlots) := by
    rw [arGetSlice_super, nested, hslots]
  have he' := he.setSlot
    (n := e.count + if (slotAt e.slots (id % arSuperBlockSlots)).isNone then 1 else 0) hoff (some s)
    (by cases slotAt e.slots (id % arSuperBlockSlots) <;> simp)
  obtain ⟨hwf', hblocks'⟩ := hwf.set hget he' rfl
  rw [hblocks, ← hid, update_idem] at hblocks'
  refine ⟨hwf', ?_, by rw [hcur], fun x hx hzero => ?_⟩
  · rw [arGetSlice_super, hblocks', hid, arGetSlice_super]
    refine nested_update_some ?_
    rw [slotAt_set (he.length ▸ hoff), hslots]
  · -- the block that was written is not empty
    refine hwf'.mem_of_update h hblocks' ?_ hx hzero
    intro e1 he1 hz
    obtain rfl := some.inj he1
    have hslot : slotAt (e.slots.set (id % arSuperBlockSlots) (some s))
        (id % arSuperBlockSlots) = some s := by
      rw [slotAt_set (he.length ▸ hoff), update_self]
    have hnil := slotAt_eq_none_of_slices_nil
      (length_eq_zero_iff.mp (he'.count.symm.trans hz)) (id % arSuperBlockSlots)
    simp only [hslot] at hnil
    exact absurd hnil (by simp)

lemma arSuperDirClear_eq (sd : List (ArSDirEntry V)) (n id : ℕ) :
    arSuperDirClear sd n id = match blockAt sd (id / arSuperBlockSlots) with
      | none => (sd, n)
      | some e =>
        if (slotAt e.slots (id % arSuperBlockSlots)).isNone then (sd, n)
        else
          (if e.count - 1 = 0 then sd.eraseIdx (arSuperDirFind sd (id / arSuperBlockSlots)).1
            else sd.set (arSuperDirFind sd (id / arSuperBlockSlots)).1
              { e with count := e.count - 1,
                       slots := e.slots.set (id % arSuperBlockSlots) none }, n - 1) :=
  rfl

lemma arSuperDirClear_spec (h : SuperDirWF sd) (n id : ℕ) :
    SuperDirWF (arSuperDirClear sd n id).1 ∧
      arGetSlice (.super (arSuperDirClear sd n id).1) =
        update (arGetSlice (.super sd)) id none ∧
      (arSuperDirClear sd n id).2 =
        n - (if (arGetSlice (.super sd) id).isSome then 1 else 0) ∧
      ∀ x ∈ (arSuperDirClear sd n id).1, x.count = 0 → x ∈ sd := by
  have hoff : id % arSuperBlockSlots < arSuperBlockSlots := Nat.mod_lt _ (by decide)
  have hcur : arGetSlice (.super sd) id =
      (blockAt sd (id / arSuperBlockSlots)).bind fun e =>
        slotAt e.slots (id % arSuperBlockSlots) := by
    rw [arGetSlice_super, nested]
  have hsame : arGetSlice (.super sd) id = none →
      SuperDirWF sd ∧
      arGetSlice (.super sd) = update (arGetSlice (.super sd)) id none ∧
      n = n - (if (arGetSlice (.super sd) id).isSome then 1 else 0) ∧
      ∀ x ∈ sd, x.count = 0 → x ∈ sd := by
    intro hnone
    refine ⟨h, ?_, by simp [hnone], fun x hx _ => hx⟩
    rw [← hnone, update_eq_self]
  rw [arSuperDirClear_eq]
  cases hb : blockAt sd (id / arSuperBlockSlots) with
  | none => exact hsame (by rw [hcur, hb]; rfl)
  | some e =>
    rw [hb, bind_some] at hcur
    obtain ⟨-, hget, hid⟩ := h.find_of_blockAt hb
    have he := h.entry e (mem_of_getElem? hget)
    cases hslot : slotAt e.slots (id % arSuperBlockSlots) with
    | none =>
      simp only [hslot]
      exact hsame (hcur.trans hslot)
    | some s =>
      simp only [isNone_some, Bool.false_eq_true, if_false, hcur, hslot, isSome_some,
        if_true]
      have hpos : 0 < e.count := by
        rw [he.count]
        exact length_pos_of_mem ((e.represents.mem_iff _ _).mpr hslot)
      have he' := he.setSlot (n := e.count - 1) hoff none (by
        simp only [hslot, toList_some, length_singleton, toList_none,
          length_nil]
        omega)
      have hslots : slotAt (e.slots.set (id % arSuperBlockSlots) none) =
          update (fun i => (blockAt sd (id / arSuperBlockSlots)).bind fun b =>
            slotAt b.slots i) (id % arSuperBlockSlots) none := by
        rw [slotAt_set (he.length ▸ hoff), hb]
        rfl
      split_ifs with hzero
      · -- the last slice of the block
        obtain ⟨hwf, hblocks⟩ := h.erase hget
        refine ⟨hwf, ?_, trivial, fun x hx hz => hwf.mem_of_update h hblocks (by simp) hx hz⟩
        rw [arGetSlice_super, hblocks, hid, arGetSlice_super]
        refine nested_update_none fun i hi => ?_
        have hnil := slotAt_eq_none_of_slices_nil
          (length_eq_zero_iff.mp (he'.count.symm.trans hzero)) i
        simp only [hslots] at hnil
        rwa [update_of_ne hi] at hnil
      · obtain ⟨hwf, hblocks⟩ := h.set hget he' rfl
        refine ⟨hwf, ?_, trivial, fun x hx hz => hwf.mem_of_update h hblocks ?_ hx hz⟩
        · rw [arGetSlice_super, hblocks, hid, arGetSlice_super]
          exact nested_update_some hslots
        · intro e1 he1
          obtain rfl := some.inj he1
          exact hzero

/-- The directory has a place for the slice. -/
def ArDir.Room : ArDir V → ℕ → Prop
  | .flat d, id => id < d.length
  | .super _, _ => True

/-- An empty block of the directory. -/
def ArDir.EmptyBlock : ArDir V → ArSDirEntry V → Prop
  | .flat _, _ => False
  | .super sd, e => e ∈ sd ∧ e.count = 0

/-- The directory and the number of slices agree. -/
structure RedisArray.DirWF (ar : RedisArray V) : Prop where
  dir : ar.dir.WF
  numSlices : ar.numSlices = ar.dir.slices.length

lemma arSetSlice_spec (h : ar.DirWF) {o : Option (ArSlice V)} (hroom : ar.dir.Room id) :
    (arSetSlice ar id o).DirWF ∧
      arGetSlice (arSetSlice ar id o).dir = update (arGetSlice ar.dir) id o ∧
      ∀ e, (arSetSlice ar id o).dir.EmptyBlock e → ar.dir.EmptyBlock e := by
  obtain ⟨hdir, hnum⟩ := h
  have hrep := hdir.represents
  -- the number of slices follows from the change of the map
  suffices hmain : (arSetSlice ar id o).dir.WF ∧
      arGetSlice (arSetSlice ar id o).dir = update (arGetSlice ar.dir) id o ∧
      (arSetSlice ar id o).numSlices + (arGetSlice ar.dir id).toList.length =
        ar.numSlices + o.toList.length ∧
      ∀ e, (arSetSlice ar id o).dir.EmptyBlock e → ar.dir.EmptyBlock e by
    obtain ⟨hwf, hget, hcount, hempty⟩ := hmain
    refine ⟨⟨hwf, ?_⟩, hget, hempty⟩
    have hlen := hrep.length_update (hget ▸ hwf.represents)
    omega
  have hpos : ∀ s, arGetSlice ar.dir id = some s → 0 < ar.numSlices := by
    intro s hs
    rw [hnum]
    exact length_pos_of_mem ((hrep.mem_iff id s).mpr hs)
  obtain ⟨count, insertIdx, highest, n, ss, dir⟩ := ar
  cases dir with
  | flat d =>
    have hget : arGetSlice (.flat (d.set id o)) = update (arGetSlice (.flat d)) id o := by
      rw [arGetSlice_flat, arGetSlice_flat, slotAt_set hroom]
    refine ⟨?_, ?_, ?_, by cases o <;> exact fun e he => he⟩
    · cases o <;> simpa [arSetSlice, ArDir.WF] using hdir
    · cases o <;> exact hget
    · rw [arGetSlice_flat] at hpos ⊢
      cases hs : slotAt d id with
      | none => cases o <;> simp [arSetSlice, hs]
      | some s =>
        have := hpos s hs
        simp only at this
        cases o
        · simp only [arSetSlice, hs, isNone_none, isSome_some, and_self, if_true,
            toList_some, length_singleton, toList_none, length_nil]
          omega
        · simp [arSetSlice, hs]
  | super sd =>
    cases o with
    | some s =>
      obtain ⟨hwf, hget, hn, hempty⟩ := arSuperDirSet_spec hdir n id s
      refine ⟨hwf, hget, ?_, fun e he => ⟨hempty e he.1 he.2, he.2⟩⟩
      simp only [arSetSlice, hn]
      cases arGetSlice (.super sd) id <;> simp
    | none =>
      obtain ⟨hwf, hget, hn, hempty⟩ := arSuperDirClear_spec hdir n id
      refine ⟨hwf, hget, ?_, fun e he => ⟨hempty e he.1 he.2, he.2⟩⟩
      simp only [arSetSlice, hn]
      cases hs : arGetSlice (.super sd) id with
      | none => simp
      | some s =>
        have := hpos s hs
        simp only at this
        simp only [isSome_some, if_true, toList_some, length_singleton,
          toList_none, length_nil]
        omega

/-- A slice that exists has a place. -/
lemma ArDir.room_of_get {s : ArSlice V} (h : arGetSlice dir id = some s) :
    dir.Room id := by
  cases dir with
  | flat d =>
    rw [arGetSlice_flat] at h
    exact lt_length_of_slotAt h
  | super sd => trivial

/-! ### Growing and shrinking -/

lemma arPromoteToSuperDir_spec {d : List (Option (ArSlice V))} (h : (flat d).WF) :
    (super (arPromoteToSuperDir d)).WF ∧
      (super (arPromoteToSuperDir d)).slices = filledFrom 0 d := by
  unfold arPromoteToSuperDir
  split_ifs with hlen
  · have hle : d.length ≤ arSuperBlockSlots := by
      rcases h with h | ⟨j, hj, h⟩
      · omega
      · rw [h]
        exact Nat.pow_le_pow_right (by omega) hj
    have hslices : filledFrom 0 (d ++ replicate (arSuperBlockSlots - d.length) none) =
        filledFrom 0 d := by
      rw [filledFrom_append, filledFrom_replicate_none, append_nil]
    have hwf : ArSDirEntry.WF (⟨0, d.countP isSome,
        d ++ replicate (arSuperBlockSlots - d.length) none⟩ : ArSDirEntry V) := by
      refine ⟨?_, ?_⟩
      · simp only [length_append, length_replicate]
        omega
      · exact (length_filledFrom 0 d).symm.trans (congrArg length hslices.symm)
    refine ⟨⟨pairwise_singleton _ _, fun e he => ?_⟩, ?_⟩
    · rw [mem_singleton.mp he]
      exact hwf
    · simp [slices, blocksOf, nestedList, ArSDirEntry.slices, hslices]
  · have hnil : d = [] := length_eq_zero_iff.mp (by omega)
    subst hnil
    exact ⟨⟨List.Pairwise.nil, by simp⟩, rfl⟩

/-- A flat directory whose slices were all freed, and that has no place for the slice. -/
def ArDir.Emptied (dir : ArDir V) (id : ℕ) : Prop :=
  dir.slices = [] ∧ dir ≠ .flat [] ∧ ¬ dir.Room id

/-- `arDirGrow` leaves an empty block 0 if it promotes a directory whose slices were all freed. -/
lemma arDirGrow_emptyBlock (h : dir.WF) (id : ℕ) (he : (arDirGrow dir id).EmptyBlock e) :
    dir.EmptyBlock e ∨ (e.blockId = 0 ∧ dir.Emptied id) := by
  cases dir with
  | super sd => exact .inl he
  | flat d =>
    by_cases hbig : arSuperBlockSlots ≤ id
    · simp only [arDirGrow, if_pos hbig] at he
      unfold arPromoteToSuperDir at he
      split_ifs at he with hpos
      · obtain ⟨hmem, hzero⟩ := he
        obtain rfl := mem_singleton.mp hmem
        have hlen : d.length ≤ arSuperBlockSlots := by
          rcases h with hd | ⟨j, hj, hd⟩
          · omega
          · exact hd ▸ Nat.pow_le_pow_right (by omega) hj
        refine .inr ⟨rfl, ?_, ?_, ?_⟩
        · exact length_eq_zero_iff.mp ((length_filledFrom 0 d).trans hzero)
        · rintro hnil
          rw [flat.inj hnil] at hpos
          simp at hpos
        · exact fun hroom => absurd (show id < d.length from hroom) (by omega)
      · exact absurd he.1 (by simp)
    · simp only [arDirGrow, if_neg hbig] at he
      split_ifs at he <;> exact he.elim

lemma arDirGrow_spec (h : dir.WF) (id : ℕ) :
    (arDirGrow dir id).WF ∧ (arDirGrow dir id).slices = dir.slices ∧
    (arDirGrow dir id).Room id := by
  cases dir with
  | super sd => exact ⟨h, rfl, trivial⟩
  | flat d =>
    by_cases hbig : arSuperBlockSlots ≤ id
    · obtain ⟨hwf, hslices⟩ := arPromoteToSuperDir_spec h
      simp only [arDirGrow, if_pos hbig]
      exact ⟨hwf, hslices, trivial⟩
    by_cases hin : id < d.length
    · simp only [arDirGrow, if_neg hbig, if_pos hin]
      exact ⟨h, trivial, hin⟩
    -- the directory is doubled, from one slot if it has none
    have hid : id < 2 ^ 11 := Nat.lt_of_not_le hbig
    obtain ⟨j, hj, hlen⟩ : ∃ j ≤ 11, (if d.length = 0 then 1 else d.length) = 2 ^ j := by
      split_ifs with hd
      · exact ⟨0, by omega, rfl⟩
      · exact h.resolve_left hd
    obtain ⟨k, hk, heq, hjk, hidk⟩ := doubleWhile_two_pow 64 hj hid (by omega)
    simp only [arDirGrow, if_neg hbig, if_neg hin, hlen, heq]
    have hlen' : (d ++ replicate (2 ^ k - d.length) none).length = 2 ^ k := by
      simp only [length_append, length_replicate]
      omega
    refine ⟨.inr ⟨k, hk, hlen'⟩, ?_, hidk.trans_eq hlen'.symm⟩
    simp [slices, filledFrom_append]

/-- `arDirMaybeShrink` drops empty slots only. -/
lemma arDirMaybeShrink_spec (h : ar.DirWF) (hle : ∀ p ∈ ar.dir.slices, p.1 ≤ ar.dirHighestUsed) :
    ∃ dir, arDirMaybeShrink ar = { ar with dir := dir } ∧ dir.WF ∧ dir.slices = ar.dir.slices ∧
      ∀ e, dir.EmptyBlock e → ar.dir.EmptyBlock e := by
  obtain ⟨count, insertIdx, highest, n, ss, dir⟩ := ar
  cases dir with
  | super sd => exact ⟨_, rfl, h.dir, rfl, fun e he => he⟩
  | flat d =>
    simp only [arDirMaybeShrink]
    split_ifs with hkeep hlarge
    · exact ⟨_, rfl, h.dir, rfl, fun e he => he⟩
    · exact ⟨_, rfl, h.dir, rfl, fun e he => he⟩
    · refine ⟨_, rfl, ?_⟩
      have hlen : d.length ≤ 2 ^ 11 := by
        rcases h.dir with hd | ⟨j, hj, hd⟩
        · exact hd ▸ Nat.zero_le _
        · exact hd ▸ Nat.pow_le_pow_right (by omega) hj
      obtain ⟨k, hk, heq, -, hhk⟩ := doubleWhile_two_pow 64 (j := 0) (b := 11)
        (m := highest) (by omega) (by omega) (by omega)
      rw [pow_zero] at heq
      rw [heq] at hlarge ⊢
      refine ⟨.inr ⟨k, hk, length_take_of_le (by omega)⟩, ?_, fun e he => he⟩
      have hdrop : filledFrom (0 + (d.take (2 ^ k)).length) (d.drop (2 ^ k)) = [] := by
        refine eq_nil_iff_forall_not_mem.mpr fun p hp => ?_
        have h1 := (lt_of_mem_filledFrom hp).1
        have h2 := hle p (by
          show p ∈ filledFrom 0 d
          rw [← take_append_drop (2 ^ k) d, filledFrom_append]
          exact mem_append_right _ hp)
        rw [length_take_of_le (by omega)] at h1
        simp only at h2
        omega
      show filledFrom 0 (d.take (2 ^ k)) = filledFrom 0 d
      nth_rewrite 2 [← take_append_drop (2 ^ k) d]
      rw [filledFrom_append, hdrop, append_nil]

/-! ### The highest slice -/

lemma slices_super_append (sd sd' : List (ArSDirEntry V)) :
    (super (sd ++ sd')).slices = (super sd).slices ++ (super sd').slices := by
  simp only [slices, blocksOf, map_append, nestedList_append]

lemma slices_super_singleton (e : ArSDirEntry V) :
    (super [e]).slices =
      e.slices.map fun p => (e.blockId * arSuperBlockSlots + p.1, p.2) := by
  simp [slices, blocksOf, nestedList]

lemma SuperDirWF.sublist {sd' : List (ArSDirEntry V)} (h : SuperDirWF sd) (hs : sd'.Sublist sd) :
    SuperDirWF sd' :=
  ⟨h.sorted.sublist (hs.map _), fun e he => h.entry e (hs.subset he)⟩

/-- The highest slice of a block. -/
lemma ArSDirEntry.WF.scan (h : e.WF) (hne : e.count ≠ 0) :
    ∃ si, scanDown (fun si => (slotAt e.slots si).isSome) arSuperBlockSlots = some si ∧
      IsTop (super [e]).slices (e.blockId * arSuperBlockSlots + si) := by
  have hnil : e.slices ≠ [] := by
    intro hnil
    rw [h.count, hnil] at hne
    exact hne rfl
  obtain ⟨si, hsi, htop⟩ := exists_scanDown_isTop hnil
    (fun p hp => (h.slices_lt p hp).trans_eq (Nat.zero_add _).symm)
  rw [Nat.zero_add] at htop
  obtain ⟨s, hs⟩ := htop.mem
  rw [slices_super_singleton]
  refine ⟨si, hsi, ⟨s, mem_map.mpr ⟨(si, s), hs, rfl⟩⟩, fun p hp => ?_⟩
  obtain ⟨q, hq, rfl⟩ := mem_map.mp hp
  exact Nat.add_le_add_left (htop.le q hq) _

lemma highestInBlocks_spec (h : SuperDirWF sd) {n : ℕ} (hn : n ≤ sd.length) :
    match highestInBlocks sd n with
    | none => (super (sd.take n)).slices = []
    | some top => IsTop (super (sd.take n)).slices top := by
  induction n with
  | zero => rfl
  | succ n ih =>
    have hlt : n < sd.length := hn
    have he := h.entry sd[n] (getElem_mem hlt)
    have hwf := h.sublist (take_sublist (n + 1) sd)
    rw [take_add_one, getElem?_eq_getElem hlt, toList_some] at hwf ⊢
    rw [highestInBlocks, getElem?_eq_getElem hlt, slices_super_append]
    simp only
    by_cases hzero : sd[n].count = 0
    · have hnil : (super [sd[n]]).slices = [] := by
        rw [slices_super_singleton,
          length_eq_zero_iff.mp (he.count.symm.trans hzero), map_nil]
      rw [if_pos hzero, hnil, append_nil]
      exact ih hlt.le
    · obtain ⟨si, hsi, htop⟩ := he.scan hzero
      rw [if_neg hzero, hsi]
      refine ⟨?_, fun p hp => ?_⟩
      · obtain ⟨s, hs⟩ := htop.mem
        exact ⟨s, mem_append_right _ hs⟩
      · rcases mem_append.mp hp with hp | hp
        · -- the blocks before this one have smaller ids
          obtain ⟨s, hs⟩ := htop.mem
          have hsorted := (show (super _).WF from hwf).represents.sorted
          rw [slices_super_append] at hsorted
          exact ((pairwise_append.mp hsorted).2.2 p hp _ hs).le
        · exact htop.le p hp

lemma arHighestSlice_spec (h : dir.WF) (hne : dir.slices ≠ []) :
    IsTop dir.slices (arHighestSlice dir) := by
  cases dir with
  | flat d =>
    obtain ⟨i, hi, htop⟩ := exists_scanDown_isTop hne
      fun p hp => (lt_of_mem_filledFrom hp).2
    rw [Nat.zero_add] at htop
    simp only [arHighestSlice, hi]
    exact htop
  | super sd =>
    have hspec := highestInBlocks_spec h le_rfl
    rw [take_length] at hspec
    simp only [arHighestSlice]
    cases hres : highestInBlocks sd sd.length with
    | none =>
      rw [hres] at hspec
      exact absurd hspec hne
    | some top =>
      rw [hres] at hspec
      exact hspec

/-- Freeing the highest slice (or one above it) makes the array search for the next one. -/
lemma arDirUpdateHighest_of_le (hid : ar.dirHighestUsed ≤ id) (hcount : ar.count ≠ 0) :
    arDirUpdateHighest ar id = { ar with
      dirHighestUsed := match ar.dir with
        | .super sd => (highestInBlocks sd sd.length).getD 0
        | .flat d => (scanDown (fun i => (slotAt d i).isSome) id).getD 0 } :=
  if_neg (by
    rw [not_or, Nat.not_lt]
    exact ⟨hcount, hid⟩)

lemma arDirUpdateHighest_spec (h : ar.dir.WF) (hfreed : arGetSlice ar.dir id = none)
    (hle : ∀ p ∈ ar.dir.slices, p.1 ≤ ar.dirHighestUsed)
    (hmem : id ≠ ar.dirHighestUsed → ∃ s, (ar.dirHighestUsed, s) ∈ ar.dir.slices)
    (hcount : ar.count ≠ 0) (hne : ar.dir.slices ≠ []) :
    ∃ top, arDirUpdateHighest ar id = { ar with dirHighestUsed := top } ∧
      IsTop ar.dir.slices top := by
  by_cases hid : id < ar.dirHighestUsed
  · exact ⟨ar.dirHighestUsed, if_pos (.inr hid), hmem hid.ne, hle⟩
  refine ⟨_, arDirUpdateHighest_of_le (Nat.le_of_not_lt hid) hcount, ?_⟩
  have hlt : ∀ p ∈ ar.dir.slices, p.1 < id := by
    rintro ⟨k, s⟩ hp
    refine lt_of_le_of_ne ((hle _ hp).trans (Nat.le_of_not_lt hid)) ?_
    rintro rfl
    rw [h.represents.mem_iff, hfreed] at hp
    simp at hp
  cases hd : ar.dir with
  | flat d =>
    rw [hd] at hne hlt
    obtain ⟨i, hi, htop⟩ := exists_scanDown_isTop hne
      (fun p hp => (hlt p hp).trans_eq (Nat.zero_add _).symm)
    rw [Nat.zero_add] at htop
    simp only [hi]
    exact htop
  | super sd =>
    rw [hd] at h hne
    exact arHighestSlice_spec h hne

end RainCall
