import RainCall.SparseArray.SetSpec

/-!
# Preparing slices for a range of writes

`arMayPromoteToDenseForRangeSet` creates or promotes the slices that a range of writes would make
dense anyway. It does not change the map of the array. The slices it creates are empty until the
writes that follow have reached them.
-/

namespace RainCall

open Option

variable {V : Type*} {ar : RedisArray V}

/-- Replacing a slice, or a missing slice, by one with the same elements. -/
lemma RedisArray.Loose.reencode (h : ar.Loose) {id : ℕ} {t : ArSlice V} (hroom : ar.dir.Room id)
    (hwf : t.WF ar.sliceSize) (hcount : t.count = (arGetSlice ar.dir id).elim 0 ArSlice.count)
    (hget : t.get = fun i => (arGetSlice ar.dir id).bind fun s => s.get i) :
    (arSetSlice ar id (some t)).Loose ∧ arGet (arSetSlice ar id (some t)) = arGet ar ∧
      SameFrame ar (arSetSlice ar id (some t)) ∧
      arGetSlice (arSetSlice ar id (some t)).dir =
        Function.update (arGetSlice ar.dir) id (some t) ∧
      ∀ e, (arSetSlice ar id (some t)).dir.EmptyBlock e → ar.dir.EmptyBlock e := by
  have hlt : ∀ off v, t.get off = some v → off < ar.sliceSize := fun off v hv =>
    hwf.elements_lt _ ((hwf.represents.mem_iff off v).mpr hv)
  obtain ⟨dir, m, hcode, hcore, hdir, hempty⟩ := h.setSlice id (some t) ar.count hroom
    (fun s hs => some.inj hs ▸ hwf) (by rw [elim_some, hcount])
    (fun off v hv => by
      refine h.bound _ v ?_
      rw [h.get_at id (hlt off v hv)]
      rwa [bind_some, hget] at hv)
  have hmap : arGet { ar with dir := dir, numSlices := m } = arGet ar := by
    funext idx
    rw [arGet_of_update h.size id (some t)]
    · split_ifs with hid
      · rw [bind_some, hget, RedisArray.arGet_eq_nested h.size, nested, hid]
      · rfl
    · rfl
    · exact hdir
  rw [hcode]
  refine ⟨⟨hcore, ?_, ?_⟩, hmap, ⟨rfl, rfl⟩, hdir, hempty⟩
  · rw [hmap]
    exact h.top_le
  · rw [hmap]
    exact h.top_mem

lemma arSetSlice_room (ar : RedisArray V) (id : ℕ) (o : Option (ArSlice V)) (k : ℕ) :
    (arSetSlice ar id o).dir.Room k ↔ ar.dir.Room k := by
  obtain ⟨_, _, _, _, _, dir⟩ := ar
  cases dir <;> cases o <;> simp [arSetSlice, ArDir.Room]

/-- Empty slices are among the slices `E`. -/
def RedisArray.EmptyOnly (ar : RedisArray V) (E : ℕ → Prop) : Prop :=
  ∀ id s, arGetSlice ar.dir id = some s → s.count = 0 → E id

/-- The outcome of preparing slices. -/
structure Prepared (ar : RedisArray V) (ar' : RedisArray V) : Prop where
  loose : ar'.Loose
  get : arGet ar' = arGet ar
  frame : SameFrame ar ar'
  room : ∀ k, ar.dir.Room k → ar'.dir.Room k
  empty : ∀ e, ar'.dir.EmptyBlock e → ar.dir.EmptyBlock e

lemma Prepared.refl (h : ar.Loose) : Prepared ar ar :=
  ⟨h, rfl, ⟨rfl, rfl⟩, fun _ hk => hk, fun _ he => he⟩

lemma Prepared.trans {ar1 ar2 ar3 : RedisArray V} (h : Prepared ar1 ar2) (h' : Prepared ar2 ar3) :
    Prepared ar1 ar3 :=
  ⟨h'.loose, h'.get.trans h.get, h.frame.trans h'.frame, fun k hk => h'.room k (h.room k hk),
    fun e he => h.empty e (h'.empty e he)⟩

/-- The loop body of `arMayPromoteToDenseForRangeSet`. -/
lemma arPromoteSliceForRangeSet_spec (cfg : ArConfig) (h : ar.Loose) (lo hi : ℕ) {sid : ℕ}
    (hroom : ar.dir.Room sid) {E : ℕ → Prop} (hE : ar.EmptyOnly E) (hsid : E sid) :
    ∃ ar', arPromoteSliceForRangeSet cfg ar lo hi sid = some ar' ∧ Prepared ar ar' ∧
      ar'.EmptyOnly E := by
  have hsame := Prepared.refl h
  have hset : ∀ t : ArSlice V, t.WF ar.sliceSize →
      t.count = (arGetSlice ar.dir sid).elim 0 ArSlice.count →
      (t.get = fun i => (arGetSlice ar.dir sid).bind fun s => s.get i) →
      Prepared ar (arSetSlice ar sid (some t)) ∧ (arSetSlice ar sid (some t)).EmptyOnly E := by
    intro t hwf hcount hget
    obtain ⟨hloose, hmap, hframe, hdir, hempty⟩ := h.reencode hroom hwf hcount hget
    refine ⟨⟨hloose, hmap, hframe, fun k => (arSetSlice_room ar sid _ k).mpr, hempty⟩,
      fun id s hs hz => ?_⟩
    rw [hdir, Function.update_apply] at hs
    split_ifs at hs with hid
    · exact hid ▸ hsid
    · exact hE id s hs hz
  simp only [arPromoteSliceForRangeSet]
  generalize arSliceOff (if sid = arSliceId lo ar.sliceSize then lo
    else sid <<< arSliceBits ar.sliceSize) ar.sliceSize = startOff
  generalize arSliceOff (if sid = arSliceId hi ar.sliceSize then hi
    else ((sid + 1) <<< arSliceBits ar.sliceSize) - 1) ar.sliceSize = endOff
  cases hs : arGetSlice ar.dir sid with
  | none =>
    rw [hs] at hset
    split_ifs with hsize
    · obtain ⟨hwf, hnil⟩ := arSliceDenseNew_spec h.size startOff
      exact ⟨_, rfl, hset _ hwf rfl
        (funext fun i => ArSlice.WF.get_eq_none (s := .dense _) hwf hnil i)⟩
    · exact ⟨ar, rfl, hsame, hE⟩
  | some s =>
    cases s with
    | dense d => exact ⟨ar, rfl, hsame, hE⟩
    | sparse s =>
      simp only
      split_ifs with hsize
      · have hswf : s.WF ar.sliceSize := h.slices sid _ hs
        obtain ⟨d, hpromote, hwf, helem⟩ := arSparsePromote_spec hswf h.size
        refine ⟨_, by rw [hpromote]; rfl, hset (.dense d) hwf ?_ ?_⟩
        · rw [hs]
          exact hwf.count.trans ((congrArg List.length helem).trans hswf.count.symm)
        · rw [hs]
          exact ArSlice.get_eq_of_elements_eq (.sparse s) (.dense d) hswf hwf helem
      · exact ⟨ar, rfl, hsame, hE⟩

/-- The loop of `arMayPromoteToDenseForRangeSet`. -/
lemma arPromoteSlicesForRangeSet_spec (cfg : ArConfig) (lo hi n sid : ℕ) (h : ar.Loose)
    (hroom : ∀ k < sid + n, ar.dir.Room k) {E : ℕ → Prop} (hE : ar.EmptyOnly E)
    (hsid : ∀ k, sid ≤ k → k < sid + n → E k) :
    ∃ ar', arPromoteSlicesForRangeSet cfg lo hi sid n ar = some ar' ∧ Prepared ar ar' ∧
      ar'.EmptyOnly E := by
  induction n generalizing sid ar with
  | zero => exact ⟨ar, rfl, Prepared.refl h, hE⟩
  | succ n ih =>
    obtain ⟨ar1, h1, hp1, hE1⟩ := arPromoteSliceForRangeSet_spec cfg h lo hi
      (hroom sid (by omega)) hE (hsid sid le_rfl (by omega))
    obtain ⟨ar2, h2, hp2, hE2⟩ := ih (sid + 1) hp1.loose
      (fun k hk => hp1.room k (hroom k (by omega))) hE1
        (fun k hk1 hk2 => hsid k (by omega) (by omega))
    refine ⟨ar2, ?_, hp1.trans hp2, hE2⟩
    rw [arPromoteSlicesForRangeSet, h1, bind_some, h2]

lemma ArDir.Room.mono {dir : ArDir V} {i j : ℕ} (h : dir.Room j) (hij : i ≤ j) : dir.Room i := by
  cases dir with
  | flat d => exact hij.trans_lt h
  | super sd => trivial

/-- The outcome of `arMayPromoteToDenseForRangeSet`: the map is kept, the slices of the range may be
empty, and if the directory was touched it has a place for all of them. -/
structure RangePrepared (ar : RedisArray V) (lo hi : ℕ) (ar' : RedisArray V) : Prop where
  loose : ar'.Loose
  get : arGet ar' = arGet ar
  frame : SameFrame ar ar'
  emptyOnly : ar'.EmptyOnly fun id => lo / ar.sliceSize ≤ id ∧ id ≤ hi / ar.sliceSize
  room : ar' = ar ∨ ar'.dir.Room (hi / ar.sliceSize)
  empty : ∀ e, ar'.dir.EmptyBlock e →
    ar.dir.EmptyBlock e ∨ (e.blockId = 0 ∧ ar.dir.Emptied (hi / ar.sliceSize))

lemma arMayPromoteToDenseForRangeSet_spec (cfg : ArConfig) (h : ar.WF) {lo hi : ℕ} (hle : lo ≤ hi) :
    ∃ ar', arMayPromoteToDenseForRangeSet cfg ar lo hi = some ar' ∧ RangePrepared ar lo hi ar' := by
  have hpos := h.positive
  unfold arMayPromoteToDenseForRangeSet
  split_ifs with hk
  · exact ⟨ar, rfl, h.toLoose, rfl, ⟨rfl, rfl⟩, fun id s hs hz =>
      absurd hz (hpos id s hs), .inl rfl,
      fun e he => .inl he⟩
  · have hdiv := Nat.div_le_div_right (c := ar.sliceSize) hle
    obtain ⟨hdwf, hslices, hroom⟩ := arDirGrow_spec h.dir (hi / ar.sliceSize)
    obtain ⟨hget, hmap, hcore⟩ := h.withDir hdwf hslices
    have hloose : RedisArray.Loose { ar with dir := arDirGrow ar.dir (hi / ar.sliceSize) } := by
      refine ⟨hcore, ?_, ?_⟩
      · rw [hmap]
        exact h.top_le
      · rw [hmap]
        exact h.top_mem
    have hend : lo / ar.sliceSize + (hi / ar.sliceSize + 1 - lo / ar.sliceSize) =
        hi / ar.sliceSize + 1 := Nat.add_sub_cancel' (hdiv.trans (Nat.le_succ _))
    obtain ⟨ar', hcode, hprep, hE⟩ := arPromoteSlicesForRangeSet_spec cfg lo hi
      (hi / ar.sliceSize + 1 - lo / ar.sliceSize) _ hloose
      (fun k hk => hroom.mono (Nat.le_of_lt_succ (hk.trans_eq hend)))
      (E := fun id => lo / ar.sliceSize ≤ id ∧ id ≤ hi / ar.sliceSize)
      (fun id s hs hz => by
        simp only [hget] at hs
        exact absurd hz (hpos id s hs))
      (fun k hk1 hk2 => ⟨hk1, Nat.le_of_lt_succ (hk2.trans_eq hend)⟩)
    simp only [arSliceId_eq h.size]
    exact ⟨ar', hcode, hprep.loose, hprep.get.trans hmap, ⟨hprep.frame.sliceSize,
      hprep.frame.insertIdx⟩, hE, .inr (hprep.room _ hroom),
      fun e he => arDirGrow_emptyBlock h.dir _ (hprep.empty e he)⟩

end RainCall
